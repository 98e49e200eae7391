import KvTier.Lib.Runs
import KvTier.Analysis.LiveFacts

/-!
# The live-byte counters are exact

Every operation moves the counters by hand.
-/

namespace KvTier.Analysis

open KvTier.Lib KvTier.Model

variable {a : PublishArgs} {f : Nat → Nat} {node : Path}

/-! ## The invariant -/

/-- Every counter is the sum over the leaves of the index. -/
def LiveExact (s : Ledger) : Prop :=
  ∀ d, d < s.cfg.nDevs → ∀ r, r < s.cfg.regionCnt →
    s.live d r = s.idx.tree.total (leafBytes s.cfg d r)

/-- The side table names the leaves, and their extents begin in regions. -/
structure LedgerSound (s : Ledger) : Prop where
  side : SideOk s.idx
  placed : ∀ q lf, s.idx.tree.leafAt q = some lf → Placed s.cfg lf

/-- What holds in every run. -/
structure LedgerOk (s : Ledger) : Prop where
  devsInt : s.cfg.nDevs ≤ invalidDev
  side : SideOk s.idx
  placed : ∀ q lf, s.idx.tree.leafAt q = some lf → Placed s.cfg lf
  balanced : LiveExact s

theorem LedgerOk.sound {s : Ledger} (h : LedgerOk s) : LedgerSound s := ⟨h.side, h.placed⟩

theorem LedgerOk.empty {cfg : Config} (h1 : cfg.nDevs ≤ invalidDev) :
    LedgerOk (Ledger.empty cfg) where
  devsInt := h1
  side := SideOk.empty
  placed q lf h := by simp [Ledger.empty, Index.empty] at h
  balanced := fun d _ r _ => rfl

/-! ## Publishes and drops -/

theorem LedgerSound.publishAt {s s' : Ledger} (h : LedgerSound s)
    (hside : sideGet s.idx.side a.prefixId a.groupIdx = some node)
    (hp : s.publishAt node a = some s') : LedgerSound s' := by
  obtain ⟨_, _, hadd, rfl⟩ := (publishAt_eq_some_iff s s' node a).mp hp
  refine ⟨h.side.publish hside, fun q lf hl => ?_⟩
  change ((s.idx.publish node a).tree).leafAt q = some lf at hl
  rw [leafAt_publish s.idx node a (h.side.node _ _ _ hside)] at hl
  split at hl
  · exact placed_leafPublish (fun lf0 h0 => h.placed _ _ h0) hadd hl
  · exact h.placed q lf hl

theorem LedgerOk.publishAt {s s' : Ledger} (h : LedgerOk s)
    (hside : sideGet s.idx.side a.prefixId a.groupIdx = some node)
    (hp : s.publishAt node a = some s') : LedgerOk s' := by
  have hsound := h.sound.publishAt hside hp
  obtain ⟨hoob, _, _, rfl⟩ := (publishAt_eq_some_iff s s' node a).mp hp
  have hnode := h.side.node _ _ _ hside
  refine ⟨h.devsInt, hsound.side, hsound.placed, fun d hd r hr => ?_⟩
  have hb := h.balanced d hd r hr
  have hleaf := leafBytes_leafPublish h.devsInt hd r (s.idx.tree.leafAt node) a hoob
  have htot := Trie.total_setLeaf (leafBytes s.cfg d r) s.idx.tree node
    (leafPublish (s.idx.tree.leafAt node) a).leaf hnode
  change _ = ((s.idx.publish node a).tree).total (leafBytes s.cfg d r)
  simp only [Index.publish]
  omega

theorem LedgerSound.resolve {s : Ledger} (h : LedgerSound s) (p : UInt64) (g : Nat) {path : Path}
    (hlen : path.length = g + 1) :
    LedgerSound { s with idx := (resolveNode s.idx p g path).1 } := by
  refine ⟨h.side.resolveNode p g hlen, fun q lf hl => ?_⟩
  rw [leafAt_resolveNode] at hl
  exact h.placed q lf hl

theorem LedgerOk.resolve {s : Ledger} (h : LedgerOk s) (p : UInt64) (g : Nat) {path : Path}
    (hlen : path.length = g + 1) :
    LedgerOk { s with idx := (resolveNode s.idx p g path).1 } := by
  have hsound := h.sound.resolve p g hlen
  refine ⟨h.devsInt, hsound.side, hsound.placed, fun d hd r hr => ?_⟩
  have hb := h.balanced d hd r hr
  have htot : (resolveNode s.idx p g path).1.tree.total (leafBytes s.cfg d r) =
      s.idx.tree.total (leafBytes s.cfg d r) := by
    unfold resolveNode
    split
    · rfl
    · exact Trie.total_insert _ _ _
  exact hb.trans htot.symm

theorem LedgerSound.publish {s s' : Ledger} (h : LedgerSound s)
    (hlen : a.path.length = a.groupIdx + 1) (hp : s.publish a = some s') : LedgerSound s' :=
  (h.resolve a.prefixId a.groupIdx hlen).publishAt (sideGet_resolveNode_self _ _ _ _) hp

theorem LedgerOk.publish {s s' : Ledger} (h : LedgerOk s) (hlen : a.path.length = a.groupIdx + 1)
    (hp : s.publish a = some s') : LedgerOk s' :=
  (h.resolve a.prefixId a.groupIdx hlen).publishAt (sideGet_resolveNode_self _ _ _ _) hp

theorem LedgerSound.dropAt_eq {s : Ledger} (h : LedgerSound s) (node : Path) :
    s.dropAt node = some { s with
      idx := s.idx.drop node
      live := fun d r => s.live d r - (s.idx.tree.leafAt node).elim 0 (leafBytes s.cfg d r) } := by
  unfold Ledger.dropAt
  cases hl : s.idx.tree.leafAt node with
  | none => simp [Index.drop, hl]
  | some lf =>
    change ((lf.extents.foldlM (regionLive (-1) s.cfg) s.live).bind fun lv => some _) = _
    have hin : ∀ e ∈ lf.extents, InRange s.cfg e := h.placed node lf hl
    rw [foldlM_regionLive, if_pos hin, Option.bind_some]
    have hlive : (fun d r => s.live d r + -1 * bytesOf s.cfg lf.extents d r) =
        fun d r => s.live d r - leafBytes s.cfg d r lf := by
      funext d r
      unfold leafBytes
      ring
    rw [hlive]
    rfl

/-- The counters change by the bytes of the leaves that went. -/
structure LeavesDropped (s s' : Ledger) : Prop where
  sound : LedgerSound s'
  cfgEq : s'.cfg = s.cfg
  live : ∀ d r, s'.live d r + s.idx.tree.total (leafBytes s.cfg d r) =
    s.live d r + s'.idx.tree.total (leafBytes s.cfg d r)

theorem LeavesDropped.refl {s : Ledger} (h : LedgerSound s) : LeavesDropped s s :=
  ⟨h, rfl, fun _ _ => rfl⟩

theorem LeavesDropped.trans {s s1 s2 : Ledger} (h1 : LeavesDropped s s1)
    (h2 : LeavesDropped s1 s2) : LeavesDropped s s2 := by
  refine ⟨h2.sound, h2.cfgEq.trans h1.cfgEq, fun d r => ?_⟩
  have hl1 := h1.live d r
  have hl2 := h2.live d r
  rw [h1.cfgEq] at hl2
  omega

theorem LedgerSound.dropAt {s s' : Ledger} (h : LedgerSound s) (hp : s.dropAt node = some s') :
    LeavesDropped s s' := by
  rw [h.dropAt_eq node, Option.some.injEq] at hp
  subst hp
  refine ⟨⟨h.side.drop node, fun q lf hl => ?_⟩, rfl, fun d r => ?_⟩
  · change ((s.idx.drop node).tree).leafAt q = some lf at hl
    rw [leafAt_drop] at hl
    split at hl
    · cases hl
    · exact h.placed q lf hl
  · have htot := total_drop (leafBytes s.cfg d r) s.idx node
    change s.live d r - _ + _ = _ + ((s.idx.drop node).tree).total (leafBytes s.cfg d r)
    omega

theorem LedgerOk.dropped {s s' : Ledger} (h : LedgerOk s) (hd : LeavesDropped s s') :
    LedgerOk s' := by
  refine ⟨hd.cfgEq ▸ h.devsInt, hd.sound.side, hd.sound.placed, fun d hd' r hr => ?_⟩
  rw [hd.cfgEq] at hd' hr ⊢
  have hb := h.balanced d hd' r hr
  have hl := hd.live d r
  omega

/-! ## Sweeps -/

section Sweep

variable {s s' : Ledger} {due : RadixLeaf → Bool}

theorem idx_dropAt (h : s.dropAt node = some s') : s'.idx = s.idx.drop node := by
  unfold Ledger.dropAt at h
  split at h
  · rename_i hl
    cases h
    simp [Index.drop, hl]
  · obtain ⟨lv, _, hs⟩ := Option.bind_eq_some_iff.mp h
    cases hs
    rfl

theorem idx_ledger_sweepSlot {slot : SideSlot} (h : s.sweepSlot due slot = some s') :
    s'.idx = sweepIdxSlot due s.idx slot := by
  unfold Ledger.sweepSlot at h
  unfold sweepIdxSlot
  cases hl : s.idx.tree.leafAt slot.node with
  | none =>
    rw [hl] at h
    cases h
    rfl
  | some lf =>
    rw [hl] at h
    simp only at h ⊢
    split at h
    · rename_i hdue
      rw [if_pos hdue]
      exact idx_dropAt h
    · rename_i hdue
      cases h
      rw [if_neg hdue]

theorem idx_ledger_sweepSlots (slots : List SideSlot)
    (h : slots.foldlM (Ledger.sweepSlot due) s = some s') :
    s'.idx = slots.foldl (sweepIdxSlot due) s.idx :=
  foldlM_project idx_ledger_sweepSlot h

theorem LedgerSound.sweepSlot (h : LedgerSound s) (due : RadixLeaf → Bool) (slot : SideSlot) :
    ∃ s', s.sweepSlot due slot = some s' ∧ LeavesDropped s s' := by
  unfold Ledger.sweepSlot
  split
  · exact ⟨s, rfl, .refl h⟩
  split
  · have hd := h.dropAt_eq slot.node
    exact ⟨_, hd, h.dropAt hd⟩
  · exact ⟨s, rfl, .refl h⟩

theorem LedgerSound.sweepSlots (h : LedgerSound s) (due : RadixLeaf → Bool)
    (slots : List SideSlot) :
    ∃ s', slots.foldlM (Ledger.sweepSlot due) s = some s' ∧ LeavesDropped s s' := by
  induction slots generalizing s with
  | nil => exact ⟨s, rfl, .refl h⟩
  | cons slot slots ih =>
    obtain ⟨s1, h1, hd1⟩ := h.sweepSlot due slot
    obtain ⟨s2, h2, hd2⟩ := ih hd1.sound
    refine ⟨s2, ?_, hd1.trans hd2⟩
    simp only [List.foldlM_cons, h1, Option.bind_eq_bind, Option.bind_some]
    exact h2

end Sweep

/-! ## Recomputing -/

/-- The extents of all leaves. -/
def treeExtents (t : Radix) : List Extent :=
  (t.entries []).flatMap fun x : Path × RadixLeaf => x.2.extents

theorem mem_treeExtents {t : Radix} (h : t.Distinct) {e : Extent} :
    e ∈ treeExtents t ↔ ∃ q lf, t.leafAt q = some lf ∧ e ∈ lf.extents := by
  unfold treeExtents
  rw [List.mem_flatMap]
  constructor
  · rintro ⟨⟨q, lf⟩, hq, he⟩
    exact ⟨q, lf, (Trie.mem_entries_root _ h q lf).1 hq, he⟩
  · rintro ⟨q, lf, hl, he⟩
    exact ⟨(q, lf), (Trie.mem_entries_root _ h q lf).2 hl, he⟩

theorem bytesOf_treeExtents (cfg : Config) (t : Radix) (d r : Nat) :
    bytesOf cfg (treeExtents t) d r = t.total (leafBytes cfg d r) := by
  unfold treeExtents
  rw [Trie.total_eq_sum _ _ []]
  induction t.entries [] with
  | nil => rfl
  | cons e es ih =>
    rw [List.flatMap_cons, bytesOf_append, ih]
    rfl

theorem recompute_eq_ite (s : Ledger) : s.recompute =
    if ∀ e ∈ treeExtents s.idx.tree, InRange s.cfg e then
      some { s with live := fun d r =>
        (if d < s.cfg.nDevs ∧ r < s.cfg.regionCnt then 0 else s.live d r) +
          1 * bytesOf s.cfg (treeExtents s.idx.tree) d r }
    else none := by
  change ((treeExtents s.idx.tree).foldlM (regionLive 1 s.cfg) _).bind
    (fun lv => some { s with live := lv }) = _
  rw [foldlM_regionLive]
  split <;> rfl

/-- Recomputing the counters changes nothing. -/
theorem LedgerOk.recompute_eq {s : Ledger} (h : LedgerOk s) : s.recompute = some s := by
  have hin : ∀ e ∈ treeExtents s.idx.tree, InRange s.cfg e := by
    intro e he
    obtain ⟨q, lf, hl, he⟩ := (mem_treeExtents h.side.distinct).1 he
    exact h.placed q lf hl e he
  have hlive : (fun d r => (if d < s.cfg.nDevs ∧ r < s.cfg.regionCnt then (0 : Int)
      else s.live d r) + 1 * bytesOf s.cfg (treeExtents s.idx.tree) d r) = s.live := by
    funext d r
    by_cases hdr : d < s.cfg.nDevs ∧ r < s.cfg.regionCnt
    · rw [if_pos hdr, bytesOf_treeExtents, h.balanced d hdr.1 r hdr.2]
      ring
    · rw [if_neg hdr, bytesOf_of_inRange hin hdr]
      ring
  rw [recompute_eq_ite, if_pos hin, hlive]

theorem LedgerOk.of_recompute {s s' : Ledger} (hdevs : s.cfg.nDevs ≤ invalidDev)
    (hside : SideOk s.idx) (h : s.recompute = some s') : LedgerOk s' := by
  rw [recompute_eq_ite] at h
  split at h
  · rename_i hin
    cases h
    refine ⟨hdevs, hside, fun q lf hl e he => ?_, fun d hd r hr => ?_⟩
    · exact hin e ((mem_treeExtents hside.distinct).2 ⟨q, lf, hl, he⟩)
    · change (if d < s.cfg.nDevs ∧ r < s.cfg.regionCnt then 0 else s.live d r) + 1 * _ = _
      rw [if_pos ⟨hd, hr⟩, bytesOf_treeExtents]
      ring
  · cases h

/-! ## Runs -/

theorem LedgerSound.setPins {s s' : Ledger} (h : LedgerSound s) (hs : s.setPins node f = some s') :
    LedgerSound s' := by
  unfold Ledger.setPins at hs
  cases hl : s.idx.tree.leafAt node with
  | none =>
    simp only [hl, Option.some.injEq] at hs
    exact hs ▸ h
  | some lf =>
    simp only [hl, Option.some.injEq] at hs
    subst hs
    have hnode := Trie.isSome_node?_of_leafAt hl
    have hleaf : ∀ q lf', (s.idx.tree.setLeaf node (some { lf with refcnt := f lf.refcnt })).leafAt q
        = some lf' → ∃ lf0, s.idx.tree.leafAt q = some lf0 ∧ lf'.prefixId = lf0.prefixId ∧
          lf'.extents = lf0.extents := by
      intro q lf' hq
      rw [Trie.leafAt_setLeaf] at hq
      split at hq
      · rename_i hqn
        subst hqn
        cases hq
        exact ⟨lf, hl, rfl, rfl⟩
      · exact ⟨lf', hq, rfl, rfl⟩
    refine ⟨⟨h.side.distinct.setLeaf _ _, ?_, h.side.len, ?_⟩, ?_⟩
    · intro p g q hq
      simp only [Trie.isSome_node?_setLeaf]
      exact h.side.node p g q hq
    · intro q lf' hq
      obtain ⟨lf0, hl0, hp, _⟩ := hleaf q lf' hq
      change sideGet s.idx.side lf'.prefixId (groupOf q) = some q
      rw [hp]
      exact h.side.leaf q lf0 hl0
    · intro q lf' hq e he
      obtain ⟨lf0, hl0, _, hext⟩ := hleaf q lf' hq
      exact h.placed q lf0 hl0 e (hext ▸ he)

theorem total_setPins {M : Type} [AddCommMonoid M] [IsCancelAdd M] {s s' : Ledger}
    (hs : s.setPins node f = some s') {g : RadixLeaf → M}
    (hg : ∀ (lf : RadixLeaf) n, g { lf with refcnt := n } = g lf) :
    s'.idx.tree.total g = s.idx.tree.total g := by
  unfold Ledger.setPins at hs
  cases hl : s.idx.tree.leafAt node with
  | none =>
    simp only [hl, Option.some.injEq] at hs
    rw [hs]
  | some lf =>
    simp only [hl, Option.some.injEq] at hs
    subst hs
    have htot := Trie.total_setLeaf g s.idx.tree node (some { lf with refcnt := f lf.refcnt })
      (Trie.isSome_node?_of_leafAt hl)
    simp only [hl, Option.elim_some, hg] at htot
    exact add_right_cancel htot

theorem setPins_rest {s s' : Ledger} (hs : s.setPins node f = some s') :
    s'.cfg = s.cfg ∧ s'.live = s.live ∧ s'.idx.nLeaves = s.idx.nLeaves := by
  unfold Ledger.setPins at hs
  split at hs <;> cases hs <;> exact ⟨rfl, rfl, rfl⟩

theorem LedgerOk.setPins {s s' : Ledger} (h : LedgerOk s) (hs : s.setPins node f = some s') :
    LedgerOk s' := by
  have hsound := h.sound.setPins hs
  obtain ⟨hcfg, hlive, _⟩ := setPins_rest hs
  refine ⟨hcfg ▸ h.devsInt, hsound.side, hsound.placed, fun d hd r hr => ?_⟩
  rw [hcfg] at hd hr ⊢
  rw [hlive, total_setPins hs fun _ _ => rfl]
  exact h.balanced d hd r hr

theorem eq_of_gcTrim {s s' : Ledger} {d region : Nat}
    (hs : s.gcTrim d region = some s') : s' = s := by
  unfold Ledger.gcTrim at hs
  split at hs
  · rename_i h0
    simp only [Option.some.injEq] at hs
    subst hs
    rw [← h0, Function.update_eq_self, Function.update_eq_self]
  · simp only [Option.some.injEq] at hs
    exact hs.symm

/-- The step indexes no array out of range. -/
def StaysInRange (s : Ledger) : LiveLabel → Prop
  | .publish a =>
    a.path.length = a.groupIdx + 1 ∧ PublishOk s.cfg
      (s.idx.tree.leafAt (resolveNode s.idx a.prefixId a.groupIdx a.path).2) a
  | _ => True

/-- Every operation keeps the invariant. -/
theorem LedgerOk.step {s s' : Ledger} (h : LedgerOk s) {l : LiveLabel}
    (hs : s.step l = some s') : LedgerOk s' ∧ s'.cfg = s.cfg := by
  cases l with
  | publish a =>
    simp only [Ledger.step] at hs
    split at hs
    · cases hs
    rename_i hlen
    obtain ⟨_, _, _, he⟩ := (publishAt_eq_some_iff _ _ _ _).mp hs
    refine ⟨h.publish (not_not.mp hlen) hs, ?_⟩
    rw [he]
  | drop node =>
    have hd := h.sound.dropAt (show s.dropAt node = some s' from hs)
    exact ⟨h.dropped hd, hd.cfgEq⟩
  | evict path =>
    simp only [Ledger.step, Ledger.evict] at hs
    split at hs
    · cases hs; exact ⟨h, rfl⟩
    split at hs
    · cases hs; exact ⟨h, rfl⟩
    · have hd := h.sound.dropAt hs
      exact ⟨h.dropped hd, hd.cfgEq⟩
  | ttl now | dropRegion d region =>
    obtain ⟨s1, h1, hd⟩ := h.sound.sweepSlots _ s.idx.side
    cases h1.symm.trans hs
    exact ⟨h.dropped hd, hd.cfgEq⟩
  | gcTrim d region =>
    obtain rfl := eq_of_gcTrim hs
    exact ⟨h, rfl⟩
  | recompute =>
    cases h.recompute_eq.symm.trans hs
    exact ⟨h, rfl⟩
  | pin node => exact ⟨h.setPins (f := (· + 1)) hs, (setPins_rest (f := (· + 1)) hs).1⟩
  | unpin node => exact ⟨h.setPins (f := (· - 1)) hs, (setPins_rest (f := (· - 1)) hs).1⟩

/-- Which operations stay in range. -/
theorem LedgerOk.step_isSome_iff {s : Ledger} (h : LedgerOk s) (l : LiveLabel) :
    (∃ s', s.step l = some s') ↔ StaysInRange s l := by
  cases l with
  | publish a =>
    simp only [Ledger.step, StaysInRange]
    by_cases hlen : a.path.length = a.groupIdx + 1
    · simp only [hlen, ne_eq, not_true_eq_false, if_false, true_and]
      have hr := h.resolve a.prefixId a.groupIdx hlen
      have hiff := publishAt_isSome_iff
        { s with idx := (resolveNode s.idx a.prefixId a.groupIdx a.path).1 }
        (resolveNode s.idx a.prefixId a.groupIdx a.path).2 a fun lf hlf => hr.placed _ _ hlf
      rw [leafAt_resolveNode] at hiff
      exact hiff
    · simp [hlen]
  | drop node => exact ⟨fun _ => trivial, fun _ => ⟨_, h.sound.dropAt_eq node⟩⟩
  | evict path =>
    refine ⟨fun _ => trivial, fun _ => ?_⟩
    simp only [Ledger.step, Ledger.evict]
    split
    · exact ⟨_, rfl⟩
    · split
      · exact ⟨_, rfl⟩
      · exact ⟨_, h.sound.dropAt_eq path⟩
  | ttl now | dropRegion d region =>
    obtain ⟨s1, h1, _⟩ := h.sound.sweepSlots _ s.idx.side
    exact ⟨fun _ => trivial, fun _ => ⟨s1, h1⟩⟩
  | gcTrim d region =>
    refine ⟨fun _ => trivial, fun _ => ?_⟩
    simp only [Ledger.step, Ledger.gcTrim]
    split <;> exact ⟨_, rfl⟩
  | recompute => exact ⟨fun _ => trivial, fun _ => ⟨s, h.recompute_eq⟩⟩
  | pin node | unpin node =>
    refine ⟨fun _ => trivial, fun _ => ?_⟩
    simp only [Ledger.step, Ledger.setPins]
    split <;> exact ⟨_, rfl⟩

/-- The pages of extents that begin in the region. -/
def livePages (cfg : Config) (t : Radix) (d r : Nat) : Nat :=
  ((((t.entries []).flatMap (·.2.extents)).filter fun e =>
    e.devId = d ∧ regionOfPage cfg e.pageNo = some r).map (·.lenPages)).sum

theorem total_leafBytes (cfg : Config) (t : Radix) (d r : Nat) :
    t.total (leafBytes cfg d r) = pageSize * livePages cfg t d r := by
  have hsum : ∀ es : List Extent, bytesOf cfg es d r =
      pageSize * (((es.filter fun e => e.devId = d ∧ regionOfPage cfg e.pageNo = some r).map
        (·.lenPages)).sum : Nat) := by
    intro es
    induction es with
    | nil => rfl
    | cons e es ih =>
      rw [bytesOf_cons, ih]
      by_cases he : e.devId = d ∧ regionOfPage cfg e.pageNo = some r
      · simp only [extentBytes, he, and_self, if_true, List.filter_cons, decide_true, List.map_cons,
          List.sum_cons, Nat.cast_add]
        ring
      · simp [extentBytes, he]
  rw [← bytesOf_treeExtents, hsum]
  rfl

/-- No leaf has hash 0 on its path. -/
def NoneBelowZero (t : Radix) : Prop := ∀ e ∈ t.entries [], 0 ∉ e.1

instance (t : Radix) : Decidable (NoneBelowZero t) :=
  inferInstanceAs (Decidable (∀ e ∈ t.entries [], 0 ∉ e.1))

/-- Without a leaf below hash 0 all leaves are visited. -/
theorem cacheRecomputeLive_eq {s : Ledger} (h : NoneBelowZero s.idx.tree) :
    s.cacheRecomputeLive = s.recompute := by
  unfold Ledger.cacheRecomputeLive Ledger.recompute radixVisitLeaves
  rw [List.filter_eq_self.2 fun e he => decide_eq_true (h e he)]

/-- In every state of a run in which no leaf lies below hash 0, every counter is the page size times
the live pages of its region. It is then never negative, recomputing changes nothing, and only a
publish can leave the arrays. -/
theorem live_bytes_exact {cfg : Config} (hdevs : cfg.nDevs < 2 ^ 31) {s : Ledger}
    {ls : List LiveLabel}
    (hrun : RunOf Ledger.step (fun s _ => NoneBelowZero s.idx.tree) (Ledger.empty cfg) ls s)
    (hzero : NoneBelowZero s.idx.tree) :
    (∀ d, d < cfg.nDevs → ∀ r, r < cfg.regionCnt →
      s.live d r = pageSize * livePages cfg s.idx.tree d r ∧ 0 ≤ s.live d r) ∧
    s.cacheRecomputeLive = some s ∧
    ∀ l, (∃ s', s.step l = some s') ↔ StaysInRange s l := by
  have hinv : LedgerOk s ∧ s.cfg = cfg := by
    refine RunOf.invariant (fun s => LedgerOk s ∧ s.cfg = cfg) ?_ hrun ⟨LedgerOk.empty ?_, rfl⟩
    · rintro s1 l s2 ⟨hok, hcfg⟩ _ hst
      obtain ⟨hok', hcfg'⟩ := hok.step hst
      exact ⟨hok', hcfg'.trans hcfg⟩
    · simp only [invalidDev]
      omega
  obtain ⟨hok, hcfg⟩ := hinv
  refine ⟨fun d hd r hr => ?_, (cacheRecomputeLive_eq hzero).trans hok.recompute_eq,
    fun l => hok.step_isSome_iff l⟩
  have hb := hok.balanced d (hcfg ▸ hd) r (hcfg ▸ hr)
  rw [total_leafBytes, hcfg] at hb
  refine ⟨hb, ?_⟩
  rw [hb]
  positivity

/-- One of two parts of a striped put is published, then a newer put replaces the leaf: the region
counts the page of the newer put alone, though the replaced leaf had a part on no device. -/
theorem unpublished_part_replaced :
    ∃ s : Ledger,
      RunOf Ledger.step (fun s _ => NoneBelowZero s.idx.tree) (Ledger.empty ledgerCfg)
        [.publish (ledgerArgs 1 3 true 0 2), .publish (ledgerArgs 2 70 false 0 0)] s ∧
      s.live 0 0 = 0 ∧ s.live 0 1 = 4096 ∧
      s.live 0 1 = pageSize * livePages ledgerCfg s.idx.tree 0 1 ∧
      s.cacheRecomputeLive = some s := by
  have hrun : RunOf Ledger.step (fun s _ => NoneBelowZero s.idx.tree) (Ledger.empty ledgerCfg)
      [.publish (ledgerArgs 1 3 true 0 2), .publish (ledgerArgs 2 70 false 0 0)] _ :=
    .cons (by decide) rfl (.cons (by decide) rfl (.nil _))
  obtain ⟨hlive, hrec, _⟩ := live_bytes_exact (by decide) hrun (by decide)
  exact ⟨_, hrun, by decide, by decide, (hlive 0 (by decide) 1 (by decide)).1, hrec⟩

/-- Recomputing drops the bytes of a leaf below hash 0: its page is live, and its region counts
nothing. -/
theorem recomputed_without_page :
    ∃ s s' : Ledger,
      RunOf Ledger.step (fun _ _ => True) (Ledger.empty ledgerCfg)
        [.publish { ledgerArgs 2 70 false 0 0 with path := [0] }] s ∧
      s.live 0 1 = 4096 ∧ s.cacheRecomputeLive = some s' ∧ s'.live 0 1 = 0 ∧
      livePages ledgerCfg s'.idx.tree 0 1 = 1 :=
  ⟨_, _, .cons trivial rfl (.nil _), by decide, rfl, by decide, by decide⟩

end KvTier.Analysis
