import KvTier.Analysis.SideTable
import KvTier.Model.Reads

/-!
# The pages of the leaves

A region is left alone or freed on the word of its `live_bytes`, so what matters of a leaf is which
regions hold its pages.
-/

namespace KvTier.Analysis

open KvTier.Lib KvTier.Model

variable {a : PublishArgs} {cfg : Config} {d i : Nat} {e : Extent} {lf : RadixLeaf}
  {old : Option RadixLeaf}

/-! ## Pages and counters -/

/-- A region holds a page of the leaf. -/
def HoldsPage (cfg : Config) (lf : RadixLeaf) (d i : Nat) : Prop :=
  ∃ e ∈ lf.extents, e.devId = d ∧ ∃ p, e.pageNo ≤ p ∧ p < e.pageNo + e.lenPages ∧
    regionOfPage cfg p = some i

/-- Every extent lies within one region that is used. -/
def LeafIn (cfg : Config) (used : Nat → Nat → Prop) (lf : RadixLeaf) : Prop :=
  ∀ e ∈ lf.extents, 0 < e.lenPages → ∃ i, used e.devId i ∧
    ∀ p, e.pageNo ≤ p → p < e.pageNo + e.lenPages → regionOfPage cfg p = some i

theorem LeafIn.mono {used used' : Nat → Nat → Prop} (h : LeafIn cfg used lf)
    (hle : ∀ d i, HoldsPage cfg lf d i → used d i → used' d i) : LeafIn cfg used' lf := by
  intro e he hpos
  obtain ⟨i, hused, hall⟩ := h e he hpos
  refine ⟨i, hle e.devId i ⟨e, he, rfl, e.pageNo, le_refl _, ?_, hall _ (le_refl _) ?_⟩ hused, hall⟩
  · omega
  · omega

theorem LeafIn.holds {used : Nat → Nat → Prop} (h : LeafIn cfg used lf) (hp : HoldsPage cfg lf d i) :
    used d i ∧ ∃ e ∈ lf.extents, e.devId = d ∧ regionOfPage cfg e.pageNo = some i ∧
      0 < e.lenPages := by
  obtain ⟨e, he, rfl, p, hlo, hhi, hreg⟩ := hp
  have hpos : 0 < e.lenPages := by omega
  obtain ⟨j, hused, hall⟩ := h e he hpos
  obtain rfl : j = i := Option.some.inj ((hall p hlo hhi).symm.trans hreg)
  exact ⟨hused, e, he, rfl, hall _ (le_refl _) (by omega), hpos⟩

/-- No leaf has a page in the region. -/
def NoPages (s : Ledger) (d i : Nat) : Prop :=
  ∀ q lf, s.idx.tree.leafAt q = some lf → ∀ e ∈ lf.extents, e.devId = d →
    regionOfPage s.cfg e.pageNo = some i → e.lenPages = 0

theorem LedgerOk.live_eq_zero_iff {s : Ledger} (h : LedgerOk s) {d r : Nat}
    (hd : d < s.cfg.nDevs) (hr : r < s.cfg.regionCnt) : s.live d r = 0 ↔ NoPages s d r := by
  rw [h.balanced d hd r hr, ← bytesOf_treeExtents, bytesOf_eq_zero_iff]
  constructor
  · intro hall q lf hl e he
    exact hall e ((mem_treeExtents h.side.distinct).2 ⟨q, lf, hl, he⟩)
  · intro hno e he
    obtain ⟨q, lf, hl, he⟩ := (mem_treeExtents h.side.distinct).1 he
    exact hno q lf hl e he

/-! ## Taking leaves away -/

/-- Leaves are taken away, and none that is pinned. -/
structure Shrinks (s s' : Ledger) : Prop where
  left : ∀ {q lf}, s'.idx.tree.leafAt q = some lf → s.idx.tree.leafAt q = some lf
  pinned : ∀ {q lf}, s.idx.tree.leafAt q = some lf → 0 < lf.refcnt →
    s'.idx.tree.leafAt q = some lf

theorem Shrinks.refl (s : Ledger) : Shrinks s s := ⟨id, fun h _ => h⟩

theorem Shrinks.trans {s1 s2 s3 : Ledger} (h : Shrinks s1 s2) (h' : Shrinks s2 s3) :
    Shrinks s1 s3 :=
  ⟨fun hl => h.left (h'.left hl), fun hl hp => h'.pinned (h.pinned hl hp) hp⟩

section Shrink

variable {s s' : Ledger}

theorem shrinks_dropAt {node : Path} (hl : s.idx.tree.leafAt node = some lf) (hpin : lf.refcnt = 0)
    (h : s.dropAt node = some s') : Shrinks s s' := by
  constructor
  · intro q lf' hq
    rw [idx_dropAt h, leafAt_drop] at hq
    split at hq
    · cases hq
    · exact hq
  intro q lf' hq hpos
  rw [idx_dropAt h, leafAt_drop, if_neg]
  · exact hq
  · rintro rfl
    obtain rfl := Option.some.inj (hl.symm.trans hq)
    omega

theorem shrinks_evict {path : Path} (h : s.step (.evict path) = some s') : Shrinks s s' := by
  simp only [Ledger.step, Ledger.evict] at h
  split at h
  · cases h
    exact .refl s
  rename_i lf hl
  split at h
  · cases h
    exact .refl s
  · rename_i hpin
    exact shrinks_dropAt hl (Nat.eq_zero_of_not_pos hpin) h

theorem shrinks_sweepSlots {due : RadixLeaf → Bool} (slots : List SideSlot)
    (h : slots.foldlM (Ledger.sweepSlot due) s = some s') : Shrinks s s' := by
  induction slots generalizing s with
  | nil =>
    cases h
    exact .refl _
  | cons slot slots ih =>
    rw [List.foldlM_cons] at h
    obtain ⟨s1, h1, h2⟩ := Option.bind_eq_some_iff.mp h
    refine Shrinks.trans ?_ (ih h2)
    unfold Ledger.sweepSlot at h1
    split at h1
    · cases h1
      exact .refl _
    rename_i lf hl
    split at h1
    · rename_i hdue
      rw [Bool.and_eq_true, beq_iff_eq] at hdue
      exact shrinks_dropAt hl hdue.2 h1
    · cases h1
      exact .refl _

theorem startsIn_iff (hsize : 0 < cfg.regionSizePages) (d i : Nat) (e : Extent) :
    Extent.startsIn cfg d i e = true ↔ e.devId = d ∧ regionOfPage cfg e.pageNo = some i := by
  have hpage : pageBase cfg i ≤ e.pageNo ∧ e.pageNo < pageBase cfg i + cfg.regionSizePages ↔
      regionOfPage cfg e.pageNo = some i := by
    unfold pageBase regionOfPage
    split
    · simp only [reduceCtorEq, iff_false, not_and, Nat.not_lt]
      omega
    rw [Option.some.injEq, Nat.div_eq_iff hsize]
    have hle := Nat.le_of_not_lt ‹_›
    constructor
    · rintro ⟨hlo, hhi⟩
      omega
    · rintro ⟨hlo, hhi⟩
      omega
  rw [← hpage]
  simp only [Extent.startsIn, Bool.and_eq_true, beq_iff_eq, decide_eq_true_eq, and_assoc]

theorem inRegion_of_extent (he : e ∈ lf.extents) (hd : e.devId = d)
    (hsize : 0 < cfg.regionSizePages) (hreg : regionOfPage cfg e.pageNo = some i) :
    inRegion cfg d i lf = true := by
  have hstarts := (startsIn_iff hsize d i e).2 ⟨hd, hreg⟩
  unfold inRegion
  rcases (mem_extents_iff lf e).1 he with ⟨_, rfl⟩ | ⟨_, rfl⟩ | ⟨st, hst, hmem⟩
  · simp [hstarts]
  · simp [hstarts]
  · simp only [hst, Option.map_some, Option.getD_some, Bool.or_eq_true, List.any_eq_true]
    exact .inr ⟨e, hmem, hstarts⟩

theorem dropRegion_left (hok : LedgerOk s) (h : s.dropRegion d i = some s') {q : Path}
    (hl : s'.idx.tree.leafAt q = some lf) (he : e ∈ lf.extents) (hd : e.devId = d)
    (hsize : 0 < s.cfg.regionSizePages) (hreg : regionOfPage s.cfg e.pageNo = some i) :
    0 < lf.refcnt := by
  obtain ⟨hold, hdue⟩ := sweepSlots_leafAt s.idx.side h hl
  rcases Nat.eq_zero_or_pos lf.refcnt with hzero | hpos
  · have hfalse := hdue (mem_of_sideGet (hok.side.leaf q lf hold)) hzero
    rw [inRegion_of_extent he hd hsize hreg] at hfalse
    cases hfalse
  · exact hpos

end Shrink

/-! ## Publishing -/

/-- The leaf without its pins. -/
def bareLeaf (lf : RadixLeaf) : RadixLeaf := { lf with refcnt := 0 }

theorem extents_eq_of_bareLeaf {lf lf' : RadixLeaf} (h : bareLeaf lf = bareLeaf lf') :
    lf.extents = lf'.extents :=
  show (bareLeaf lf).extents = (bareLeaf lf').extents from congrArg RadixLeaf.extents h

theorem mem_extents_leafPublish (h : (leafPublish old a).leaf = some lf) (he : e ∈ lf.extents)
    (hpos : 0 < e.lenPages) : (∃ o, old = some o ∧ e ∈ o.extents) ∨ e = a.addr.extent := by
  -- An address slot that was set holds the address of the publish.
  have hset : ∀ {lf0 : RadixLeaf} {slot : Nat}, e ∈ (lf0.setAddr slot a.addr).extents →
      e ∈ lf0.extents ∨ e = a.addr.extent := by
    intro lf0 slot hmem
    unfold RadixLeaf.setAddr at hmem
    split at hmem
    · rcases (mem_extents_iff _ e).1 hmem with ⟨_, hx⟩ | hx | hx
      · exact .inr hx
      · exact .inl ((mem_extents_iff lf0 e).2 (.inr (.inl hx)))
      · exact .inl ((mem_extents_iff lf0 e).2 (.inr (.inr hx)))
    rcases (mem_extents_iff _ e).1 hmem with hx | ⟨_, hx⟩ | hx
    · exact .inl ((mem_extents_iff lf0 e).2 (.inl hx))
    · exact .inr hx
    · exact .inl ((mem_extents_iff lf0 e).2 (.inr (.inr hx)))
  have hcase := leafPublish_cases old a
  generalize leafPublish old a = res at h hcase
  cases hcase with
  | rejected lf0 hold hwhy => exact .inl ⟨lf, h, he⟩
  | newStripe hs hwhy =>
    cases h
    rcases (mem_extents_iff _ e).1 he with ⟨_, rfl⟩ | ⟨_, rfl⟩ | ⟨st, hst, hmem⟩
    · exact absurd hpos (Nat.lt_irrefl 0)
    · exact absurd hpos (Nat.lt_irrefl 0)
    cases hst
    rcases List.mem_or_eq_of_mem_set hmem with hmem | rfl
    · rw [List.eq_of_mem_replicate hmem] at hpos
      exact absurd hpos (Nat.lt_irrefl 0)
    · exact .inr rfl
  | addPart lf0 st0 hs hold hver hst0 =>
    cases h
    rcases (mem_extents_iff _ e).1 he with hx | hx | ⟨st, hst, hmem⟩
    · exact .inl ⟨lf0, hold, (mem_extents_iff lf0 e).2 (.inl hx)⟩
    · exact .inl ⟨lf0, hold, (mem_extents_iff lf0 e).2 (.inr (.inl hx))⟩
    cases hst
    rcases List.mem_or_eq_of_mem_set hmem with hmem | rfl
    · exact .inl ⟨lf0, hold, (mem_extents_iff lf0 e).2 (.inr (.inr ⟨st0, hst0, hmem⟩))⟩
    · exact .inr rfl
  | newPlain hs hwhy =>
    cases h
    rcases hset he with hmem | hx
    · -- A leaf without a replica has no pages.
      rcases (mem_extents_iff _ e).1 hmem with ⟨hdev, _⟩ | ⟨hdev, _⟩ | ⟨st, hst, _⟩
      · exact absurd rfl hdev
      · exact absurd rfl hdev
      · cases hst
    · exact .inr hx
  | addReplica lf0 hs hold hver hslot =>
    cases h
    rcases hset (show e ∈ (lf0.setAddr a.slot a.addr).extents from he) with hmem | hx
    · exact .inl ⟨lf0, hold, hmem⟩
    · exact .inr hx

theorem leafPublish_of_outdated (h : Outdated old a) : (leafPublish old a).leaf = old := by
  obtain ⟨lf, rfl, hwhy⟩ := h
  have hcase := leafPublish_cases (some lf) a
  generalize leafPublish (some lf) a = res at hcase
  cases hcase with
  | rejected lf0 hold hrej => rfl
  | newStripe hs hnew =>
    have hnew := hnew lf rfl
    simp only [hs, Bool.true_eq_false, false_and, and_false, or_false] at hwhy
    omega
  | addPart lf0 st0 hs hold hver hst0 =>
    cases hold
    simp only [hs, Bool.true_eq_false, false_and, and_false, or_false] at hwhy
    omega
  | newPlain hs hnew =>
    have hnew := hnew lf rfl
    omega
  | addReplica lf0 hs hold hver hslot =>
    cases hold
    omega

theorem extent_mem_leafPublish (hnew : ¬ Outdated old a) (hoob : (leafPublish old a).oob = false)
    (hdev : a.addr.devId ≠ invalidDev) (h : (leafPublish old a).leaf = some lf) :
    a.addr.extent ∈ lf.extents := by
  have hset : ∀ (lf0 : RadixLeaf) (slot : Nat),
      a.addr.extent ∈ (lf0.setAddr slot a.addr).extents := by
    intro lf0 slot
    unfold RadixLeaf.setAddr
    split
    · exact (mem_extents_iff _ _).2 (.inl ⟨hdev, rfl⟩)
    · exact (mem_extents_iff _ _).2 (.inr (.inl ⟨hdev, rfl⟩))
  have hcase := leafPublish_cases old a
  generalize leafPublish old a = res at h hoob hcase
  cases hcase with
  | rejected lf0 hold hwhy => exact absurd ⟨lf0, hold, hwhy⟩ hnew
  | newStripe hs hwhy =>
    cases h
    have hidx : a.stripeIdx < a.stripeCnt := by simpa using hoob
    refine (mem_extents_iff _ _).2 (.inr (.inr ⟨_, rfl, ?_⟩))
    exact List.mem_set (by simpa using hidx) _
  | addPart lf0 st0 hs hold hver hst0 =>
    cases h
    have hidx : a.stripeIdx < st0.parts.length := by simpa using hoob
    refine (mem_extents_iff _ _).2 (.inr (.inr ⟨_, rfl, ?_⟩))
    exact List.mem_set hidx _
  | newPlain hs hwhy =>
    cases h
    exact hset _ _
  | addReplica lf0 hs hold hver hslot =>
    cases h
    exact hset lf0 a.slot

theorem leafPublish_fresh_cases (old : Option RadixLeaf) (a : PublishArgs) :
    ∃ lf, (leafPublish old a).leaf = some lf ∧
      ((publishesNew old a = true ∧ lf.refcnt = 0) ∨
        (publishesNew old a = false ∧ ∃ o, old = some o ∧ lf.refcnt = o.refcnt ∧ lf.ver = o.ver ∧
          lf.stripe.isNone = o.stripe.isNone)) := by
  have hcase := leafPublish_cases old a
  generalize leafPublish old a = res at hcase ⊢
  cases hcase with
  | rejected lf0 hold hwhy =>
    subst hold
    refine ⟨lf0, rfl, .inr ⟨?_, lf0, rfl, rfl, rfl, rfl⟩⟩
    rcases hwhy with hlt | ⟨heq, hs, _⟩
    · simp only [publishesNew, Bool.or_eq_false_iff, decide_eq_false_iff_not]
      have hne : ¬ lf0.ver = a.ver := by omega
      exact ⟨by omega, by simp [hne]⟩
    · simp [publishesNew, heq, hs]
  | newStripe hs hwhy =>
    refine ⟨_, rfl, .inl ⟨?_, rfl⟩⟩
    cases old with
    | none => rfl
    | some lf0 =>
      rcases hwhy lf0 rfl with hlt | ⟨heq, hnone⟩
      · simp [publishesNew, hlt]
      · simp [publishesNew, heq, hs, hnone]
  | addPart lf0 st0 hs hold hver hst0 =>
    subst hold
    exact ⟨_, rfl, .inr ⟨by simp [publishesNew, hver, hst0], lf0, rfl, rfl, rfl, by
      simp [addStripePart, hst0]⟩⟩
  | newPlain hs hwhy =>
    refine ⟨_, rfl, .inl ⟨?_, ?_⟩⟩
    · cases old with
      | none => rfl
      | some lf0 => simp [publishesNew, hwhy lf0 rfl]
    · exact refcnt_setAddr _ _ _
  | addReplica lf0 hs hold hver hslot =>
    subst hold
    refine ⟨_, rfl, .inr ⟨by simp [publishesNew, hver, hs], lf0, rfl, ?_⟩⟩
    exact ⟨refcnt_setAddr lf0 a.slot a.addr, ver_setAddr lf0 a.slot a.addr,
      congrArg Option.isNone (stripe_setAddr lf0 a.slot a.addr)⟩

theorem leafAt_ledger_publish {s s' : Ledger} (hok : LedgerOk s)
    (h : s.step (.publish a) = some s') (q : Path) :
    s'.idx.tree.leafAt q =
      if q = (resolveNode s.idx a.prefixId a.groupIdx a.path).2 then
        (leafPublish (s.idx.tree.leafAt q) a).leaf
      else s.idx.tree.leafAt q := by
  simp only [Ledger.step] at h
  split at h
  · cases h
  rename_i hlen
  obtain ⟨_, _, _, rfl⟩ := (publishAt_eq_some_iff _ _ _ _).mp h
  have hres := hok.resolve a.prefixId a.groupIdx (not_not.mp hlen)
  have hnode := hres.side.node _ _ _
    (sideGet_resolveNode_self s.idx a.prefixId a.groupIdx a.path)
  show (((resolveNode s.idx a.prefixId a.groupIdx a.path).1.publish
    (resolveNode s.idx a.prefixId a.groupIdx a.path).2 a).tree).leafAt q = _
  rw [leafAt_publish (resolveNode s.idx a.prefixId a.groupIdx a.path).1 _ _ hnode]
  split
  · rename_i hq
    rw [hq, leafAt_resolveNode]
  · rw [leafAt_resolveNode]

end KvTier.Analysis
