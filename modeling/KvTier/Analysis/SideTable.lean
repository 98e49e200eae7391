import KvTier.Analysis.Recovery
import KvTier.Analysis.RegionFacts
import KvTier.Analysis.SessionFacts

/-!
# The side table reaches every leaf

`gc_tick` and `cache_drop_region` find the leaves they drop by going over the side table, which is
filled by the writer, by `side_build_cb` after a checkpoint is loaded and by replay, and never loses
an entry.
-/

namespace KvTier.Analysis

open KvTier.Lib KvTier.Model

/-! ## Sweeps -/

/-- A sweep drops every due leaf it comes by. -/
theorem sweepSlots_leafAt {due : RadixLeaf → Bool} (slots : List SideSlot) {s s' : Ledger}
    (h : slots.foldlM (Ledger.sweepSlot due) s = some s') {q : Path} {lf : RadixLeaf}
    (hl : s'.idx.tree.leafAt q = some lf) :
    s.idx.tree.leafAt q = some lf ∧
      ((∃ slot ∈ slots, slot.node = q) → lf.refcnt = 0 → due lf = false) := by
  rw [idx_ledger_sweepSlots slots h, leafAt_sweepIdx] at hl
  refine ⟨hl.1, fun hslot hzero => ?_⟩
  exact Bool.eq_false_iff.2 fun hdue => hl.2 ⟨hdue, hzero, hslot⟩

theorem mem_of_sideGet {side : List SideSlot} {p : UInt64} {g : Nat} {q : Path}
    (h : sideGet side p g = some q) : ∃ slot ∈ side, slot.node = q := by
  unfold sideGet at h
  obtain ⟨slot, hslot, hq⟩ := Option.map_eq_some_iff.mp h
  exact ⟨slot, List.mem_of_find?_eq_some hslot, hq⟩

/-! ## Every leaf is in the side table -/

/-- In every state of every history of sessions the side table is complete. The node of a leaf is
the node stored under the leaf's prefix and the node's depth less one, the leaves are counted, and a
sweep over the side table leaves no leaf that is due. -/
theorem side_table_complete {cfg : Config} (hcfg : ConfigOk cfg) {ls : List SessionLabel}
    {s : Session} (hrun : SessionRun cfg ls s) :
    (∀ q lf, s.store.idx.tree.leafAt q = some lf →
      sideGet s.store.idx.side lf.prefixId (q.length - 1) = some q) ∧
    s.store.idx.nLeaves = {q | (s.store.idx.tree.leafAt q).isSome}.ncard ∧
    (∀ q lf, s.store.idx.tree.leafAt q = some lf →
      ∃ slot ∈ s.store.idx.side, slot.node = q) ∧
    ∀ (due : RadixLeaf → Bool) (live : Live) (led : Ledger),
      Ledger.sweep due ⟨s.store.cfg, s.store.idx, live⟩ = some led →
      ∀ q lf, led.idx.tree.leafAt q = some lf → due lf = false := by
  have hok := (hrun.ok hcfg).index
  have hslot : ∀ q lf, s.store.idx.tree.leafAt q = some lf →
      ∃ slot ∈ s.store.idx.side, slot.node = q :=
    fun q lf hl => mem_of_sideGet (hok.side.leaf q lf hl)
  refine ⟨hok.side.leaf, ?_, hslot, ?_⟩
  · rw [hok.count, Trie.ncard_leaves _ hok.side.distinct, Trie.total_eq_sum _ _ []]
    simp
  · intro due live led hsweep q lf hl
    obtain ⟨hl0, hdue⟩ := sweepSlots_leafAt s.store.idx.side hsweep hl
    exact hdue (hslot q lf hl0) (hok.unpinned q lf hl0)

def twoSessions : List SessionLabel :=
  [.op (.put smallPut), .op (.publish 0 2 0 0), .op .ckpt] ++
    List.replicate 10 (.op .reset) ++
    [.op (.put { smallPut with groupIdx := 1, path := [7, 8] }), .op (.publish 0 4 0 0),
      .op (.flush 0), .op (.flush 1), .reopen twoDevs]

/-- A leaf of a checkpoint and one of the journal are both counted after an open. -/
theorem side_table_after_open :
    ∃ s, SessionRun twoDevs twoSessions s ∧
      (s.store.idx.tree.leafAt [7]).isSome ∧ (s.store.idx.tree.leafAt [7, 8]).isSome ∧
      s.store.idx.nLeaves = {q | (s.store.idx.tree.leafAt q).isSome}.ncard := by
  obtain ⟨s, hrun, hP⟩ := SessionRun.of_foldlM twoDevs twoSessions
    (fun s => (s.store.idx.tree.leafAt [7]).isSome && (s.store.idx.tree.leafAt [7, 8]).isSome)
    (by decide) (by decide +kernel)
  simp only [Bool.and_eq_true] at hP
  exact ⟨s, hrun, hP.1, hP.2, (side_table_complete (by decide) hrun).2.1⟩

end KvTier.Analysis
