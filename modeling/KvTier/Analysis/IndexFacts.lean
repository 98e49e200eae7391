import Mathlib.Tactic
import KvTier.Model.Index

/-!
# Facts about the index

What the operations of the index do to the leaf of each node, and the invariant that ties the side
table to the tree: `SideOk` says that every slot names an existing node whose depth is its group,
and that the slot of a leaf's own key names the node the leaf is at.
-/

namespace KvTier.Analysis

open KvTier.Lib KvTier.Model

variable {a : PublishArgs} {lf : RadixLeaf} {node q : Path}

/-! ## The side table -/

@[simp]
theorem sideGet_nil (p : UInt64) (g : Nat) : sideGet [] p g = none := rfl

/-- The side table after a put is the map updated at its key. -/
theorem sideGet_sidePut (t : List SideSlot) (p : UInt64) (g : Nat) (n : Path) (p' : UInt64)
    (g' : Nat) :
    sideGet (sidePut t p g n) p' g' = if p' = p ∧ g' = g then some n else sideGet t p' g' := by
  induction t with
  | nil =>
    by_cases hk : p' = p ∧ g' = g
    · obtain ⟨rfl, rfl⟩ := hk
      simp [sidePut, sideGet]
    have hne : ¬ (p = p' ∧ g = g') := fun h => hk ⟨h.1.symm, h.2.symm⟩
    simp only [sidePut, sideGet, List.find?_cons, List.find?_nil, if_neg hk]
    split
    · rename_i hb
      simp only [Bool.and_eq_true, beq_iff_eq] at hb
      exact absurd hb hne
    · rfl
  | cons s t ih =>
    have hcons : ∀ u : List SideSlot, sideGet (s :: u) p' g' =
        if s.prefixId = p' ∧ s.groupIdx = g' then some s.node else sideGet u p' g' := by
      intro u
      simp only [sideGet, List.find?_cons]
      split
      · rename_i hb
        simp only [Bool.and_eq_true, beq_iff_eq] at hb
        simp [hb]
      rename_i hb
      simp only [Bool.and_eq_false_iff, beq_eq_false_iff_ne] at hb
      have : ¬ (s.prefixId = p' ∧ s.groupIdx = g') := by
        rintro ⟨h1, h2⟩
        rcases hb with hb | hb
        · exact hb h1
        · exact hb h2
      simp [this]
    by_cases hs : s.prefixId = p ∧ s.groupIdx = g
    · obtain ⟨rfl, rfl⟩ := hs
      simp only [sidePut, beq_self_eq_true, Bool.and_self, if_true]
      by_cases hk : p' = s.prefixId ∧ g' = s.groupIdx
      · obtain ⟨rfl, rfl⟩ := hk
        simp [sideGet]
      have hne : ¬ (s.prefixId = p' ∧ s.groupIdx = g') := fun h => hk ⟨h.1.symm, h.2.symm⟩
      rw [if_neg hk, hcons, if_neg hne]
      simp only [sideGet, List.find?_cons]
      split
      · rename_i hb
        simp only [Bool.and_eq_true, beq_iff_eq] at hb
        exact absurd hb hne
      · rfl
    have hb : (s.prefixId == p && s.groupIdx == g) = false := by
      cases hbb : (s.prefixId == p && s.groupIdx == g) with
      | false => rfl
      | true =>
        simp only [Bool.and_eq_true, beq_iff_eq] at hbb
        exact absurd hbb hs
    simp only [sidePut, hb, Bool.false_eq_true, if_false]
    rw [hcons, hcons, ih]
    by_cases hk : p' = p ∧ g' = g
    · obtain ⟨rfl, rfl⟩ := hk
      simp [hs]
    · simp [hk]

/-! ## Resolving the node of a key -/

section Resolve

variable (idx : Index) (p : UInt64) (g : Nat) (path : Path)

@[simp]
theorem leafAt_resolveNode (q : Path) :
    (resolveNode idx p g path).1.tree.leafAt q = idx.tree.leafAt q := by
  unfold resolveNode
  split <;> simp

@[simp]
theorem shapes_resolveNode : (resolveNode idx p g path).1.shapes = idx.shapes := by
  unfold resolveNode
  split <;> rfl

@[simp]
theorem nLeaves_resolveNode : (resolveNode idx p g path).1.nLeaves = idx.nLeaves := by
  unfold resolveNode
  split <;> rfl

@[simp]
theorem oob_resolveNode : (resolveNode idx p g path).1.oob = idx.oob := by
  unfold resolveNode
  split <;> rfl

theorem sideGet_resolveNode_self :
    sideGet (resolveNode idx p g path).1.side p g = some (resolveNode idx p g path).2 := by
  unfold resolveNode
  split
  · assumption
  · simp [sideGet_sidePut]

theorem sideGet_resolveNode_of_some {p' : UInt64} {g' : Nat} (h : sideGet idx.side p' g' = some q) :
    sideGet (resolveNode idx p g path).1.side p' g' = some q := by
  unfold resolveNode
  split
  · exact h
  rename_i hnone
  rw [sideGet_sidePut]
  split
  · rename_i hk
    rw [hk.1, hk.2, hnone] at h
    cases h
  · exact h

theorem sideGet_resolveNode_cases {p' : UInt64} {g' : Nat}
    (h : sideGet (resolveNode idx p g path).1.side p' g' = some q) :
    sideGet idx.side p' g' = some q ∨ (p' = p ∧ g' = g ∧ q = path) := by
  unfold resolveNode at h
  split at h
  · exact Or.inl h
  rw [sideGet_sidePut] at h
  split at h
  · rename_i hk
    exact Or.inr ⟨hk.1, hk.2, (Option.some.inj h).symm⟩
  · exact Or.inl h

theorem isSome_node?_resolveNode (h : (idx.tree.node? q).isSome) :
    ((resolveNode idx p g path).1.tree.node? q).isSome := by
  unfold resolveNode
  split
  · exact h
  · exact Trie.isSome_node?_insert _ _ _ h

end Resolve

/-! ## Publishing and dropping a leaf -/

theorem leafAt_publish (idx : Index) (node : Path) (a : PublishArgs)
    (hn : (idx.tree.node? node).isSome) (q : Path) :
    (idx.publish node a).tree.leafAt q =
      if q = node then (leafPublish (idx.tree.leafAt node) a).leaf else idx.tree.leafAt q := by
  simp only [Index.publish]
  rw [Trie.leafAt_setLeaf]
  simp [hn]

theorem leafAt_publish_from {idx : Index} (h : (idx.publish node a).tree.leafAt q = some lf) :
    (q = node ∧ (leafPublish (idx.tree.leafAt node) a).leaf = some lf) ∨
      idx.tree.leafAt q = some lf := by
  simp only [Index.publish, Trie.leafAt_setLeaf] at h
  split_ifs at h with hq hnode
  · exact .inl ⟨hq, h⟩
  · exact .inr h

theorem leafAt_drop (idx : Index) (node q : Path) :
    (idx.drop node).tree.leafAt q = if q = node then none else idx.tree.leafAt q := by
  unfold Index.drop
  cases hl : idx.tree.leafAt node with
  | none =>
    by_cases hq : q = node
    · subst hq; simp [hl]
    · simp [hq]
  | some lf => simp [Trie.leafAt_setLeaf]

theorem total_drop {M : Type} [AddCommMonoid M] (f : RadixLeaf → M) (idx : Index) (node : Path) :
    (idx.drop node).tree.total f + (idx.tree.leafAt node).elim 0 f = idx.tree.total f := by
  unfold Index.drop
  cases hl : idx.tree.leafAt node with
  | none => simp
  | some lf =>
    have htot := Trie.total_setLeaf f idx.tree node none (Trie.isSome_node?_of_leafAt hl)
    rw [hl, Option.elim_none, add_zero] at htot
    exact htot

section Untouched

variable (idx : Index) (node : Path)

@[simp]
theorem side_publish (a : PublishArgs) :
    (idx.publish node a).side = idx.side := rfl

@[simp]
theorem side_drop : (idx.drop node).side = idx.side := by
  unfold Index.drop
  split <;> rfl

@[simp]
theorem shapes_publish (a : PublishArgs) :
    (idx.publish node a).shapes = idx.shapes := rfl

@[simp]
theorem shapes_drop : (idx.drop node).shapes = idx.shapes := by
  unfold Index.drop
  split <;> rfl

/-- A publish and a drop keep the nodes of the tree. -/
@[simp]
theorem isSome_node?_publish (a : PublishArgs) (q : Path) :
    ((idx.publish node a).tree.node? q).isSome = (idx.tree.node? q).isSome := by
  simp [Index.publish]

end Untouched

@[simp]
theorem isSome_node?_drop (idx : Index) (node q : Path) :
    ((idx.drop node).tree.node? q).isSome = (idx.tree.node? q).isSome := by
  unfold Index.drop
  split <;> simp

/-! ## What `leaf_publish` can do to the old leaf -/

section SetAddr

variable (lf : RadixLeaf) (i : Nat) (a : KvAddr)

@[simp]
theorem prefixId_setAddr :
    (lf.setAddr i a).prefixId = lf.prefixId := by
  unfold RadixLeaf.setAddr
  split <;> rfl

@[simp]
theorem ver_setAddr : (lf.setAddr i a).ver = lf.ver := by
  unfold RadixLeaf.setAddr
  split <;> rfl

@[simp]
theorem refcnt_setAddr :
    (lf.setAddr i a).refcnt = lf.refcnt := by
  unfold RadixLeaf.setAddr
  split <;> rfl

@[simp]
theorem shape_setAddr :
    (lf.setAddr i a).shape = lf.shape := by
  unfold RadixLeaf.setAddr
  split <;> rfl

@[simp]
theorem stripe_setAddr :
    (lf.setAddr i a).stripe = lf.stripe := by
  unfold RadixLeaf.setAddr
  split <;> rfl

end SetAddr

/-- The branches of `leaf_publish`. -/
inductive PublishCase (old : Option RadixLeaf) (a : PublishArgs) : PublishResult → Prop
  | rejected (lf : RadixLeaf) (hold : old = some lf)
      (hwhy : a.ver < lf.ver ∨ (lf.ver = a.ver ∧ a.flags.stripe = false ∧ replicaCnt ≤ a.slot)) :
      PublishCase old a ⟨old, false, [], [], false⟩
  | newStripe (hs : a.flags.stripe = true)
      (hwhy : ∀ lf, old = some lf → lf.ver < a.ver ∨ (lf.ver = a.ver ∧ lf.stripe = none)) :
      PublishCase old a ⟨some (newStripeLeaf a), true, oldExtents old, [a.addr.extent],
        decide (a.stripeCnt ≤ a.stripeIdx)⟩
  | addPart (lf : RadixLeaf) (st : StripeAddr) (hs : a.flags.stripe = true)
      (hold : old = some lf) (hver : lf.ver = a.ver) (hst : lf.stripe = some st) :
      PublishCase old a ⟨some (addStripePart lf st a), true,
        if (st.parts.getD a.stripeIdx StripePart.none).devId ≠ invalidDev then
          [st.parts.getD a.stripeIdx StripePart.none] else [], [a.addr.extent],
        decide (st.parts.length ≤ a.stripeIdx)⟩
  | newPlain (hs : a.flags.stripe = false) (hwhy : ∀ lf, old = some lf → lf.ver < a.ver) :
      PublishCase old a ⟨some (newPlainLeaf a), true, oldExtents old, [a.addr.extent], false⟩
  | addReplica (lf : RadixLeaf) (hs : a.flags.stripe = false) (hold : old = some lf)
      (hver : lf.ver = a.ver) (hslot : a.slot < replicaCnt) :
      PublishCase old a ⟨some (addReplica lf a), true,
        if (lf.addr a.slot).devId ≠ invalidDev then [(lf.addr a.slot).extent] else [],
        [a.addr.extent], false⟩

theorem leafPublish_cases (old : Option RadixLeaf) (a : PublishArgs) :
    PublishCase old a (leafPublish old a) := by
  unfold leafPublish
  cases hs : a.flags.stripe with
  | true =>
    simp only [if_true]
    cases hold : old with
    | none => exact .newStripe hs (fun lf h => by cases h)
    | some lf =>
      rcases Nat.lt_trichotomy a.ver lf.ver with hv | hv | hv
      · simp only [gt_iff_lt, hv, if_true]
        exact .rejected lf rfl (Or.inl hv)
      · simp only [gt_iff_lt, hv, Nat.lt_irrefl, if_false, if_true]
        cases hst : lf.stripe with
        | none => exact .newStripe hs (fun lf' h => by cases h; exact Or.inr ⟨hv.symm, hst⟩)
        | some st => exact .addPart lf st hs rfl hv.symm hst
      have hn : ¬ a.ver < lf.ver := by omega
      have hne : lf.ver ≠ a.ver := by omega
      simp only [gt_iff_lt, hn, hne, if_false]
      exact .newStripe hs (fun lf' h => by cases h; exact Or.inl hv)
  | false =>
    simp only [Bool.false_eq_true, if_false]
    cases hold : old with
    | none => exact .newPlain hs (fun lf h => by cases h)
    | some lf =>
      rcases Nat.lt_trichotomy a.ver lf.ver with hv | hv | hv
      · simp only [gt_iff_lt, hv, if_true]
        exact .rejected lf rfl (Or.inl hv)
      · simp only [gt_iff_lt, hv, Nat.lt_irrefl, if_false, if_true]
        by_cases hslot : a.slot < replicaCnt
        · simp only [hslot, if_true]
          exact .addReplica lf hs rfl hv.symm hslot
        · simp only [hslot, if_false]
          exact .rejected lf rfl (Or.inr ⟨hv.symm, hs, by omega⟩)
      have hn : ¬ a.ver < lf.ver := by omega
      have hne : lf.ver ≠ a.ver := by omega
      simp only [gt_iff_lt, hn, hne, if_false]
      exact .newPlain hs (fun lf' h => by cases h; exact hv)

theorem leafPublish_of_rejected {old : Option RadixLeaf} (h : (leafPublish old a).accepted = false) :
    (leafPublish old a).leaf = old := by
  have hc := leafPublish_cases old a
  generalize leafPublish old a = res at hc h ⊢
  cases hc with
  | rejected => rfl
  | newStripe => cases h
  | addPart => cases h
  | newPlain => cases h
  | addReplica => cases h

@[simp]
theorem prefixId_newPlainLeaf (a : PublishArgs) : (newPlainLeaf a).prefixId = a.prefixId := by
  simp [newPlainLeaf]

@[simp]
theorem ver_newPlainLeaf (a : PublishArgs) : (newPlainLeaf a).ver = a.ver := by
  simp [newPlainLeaf]

@[simp]
theorem refcnt_newPlainLeaf (a : PublishArgs) : (newPlainLeaf a).refcnt = 0 := by
  simp [newPlainLeaf]

section Published

variable (old : Option RadixLeaf) (a : PublishArgs) (lf : RadixLeaf)
  (h : (leafPublish old a).leaf = some lf)
include h

theorem label_leafPublish :
    (lf.prefixId = a.prefixId ∧ lf.refcnt = 0) ∨
      ∃ lf0, old = some lf0 ∧ lf.prefixId = lf0.prefixId ∧ lf.refcnt = lf0.refcnt := by
  have hc := leafPublish_cases old a
  generalize leafPublish old a = r at h hc
  cases hc with
  | rejected lf0 hold _ => exact Or.inr ⟨lf, h, rfl, rfl⟩
  | newStripe =>
    cases h
    exact Or.inl ⟨rfl, rfl⟩
  | addPart lf0 st _ hold =>
    cases h
    exact Or.inr ⟨lf0, hold, rfl, rfl⟩
  | newPlain =>
    cases h
    exact Or.inl ⟨by simp, by simp⟩
  | addReplica lf0 _ hold =>
    cases h
    exact Or.inr ⟨lf0, hold, by simp [addReplica], by simp [addReplica]⟩

theorem ver_leafPublish :
    lf.ver = a.ver ∨ ∃ lf0, old = some lf0 ∧ lf.ver = lf0.ver := by
  have hc := leafPublish_cases old a
  generalize leafPublish old a = r at h hc
  cases hc with
  | rejected lf0 hold _ => exact Or.inr ⟨lf, h, rfl⟩
  | newStripe =>
    cases h
    exact Or.inl rfl
  | addPart lf0 st _ hold =>
    cases h
    exact Or.inr ⟨lf0, hold, rfl⟩
  | newPlain =>
    cases h
    exact Or.inl (by simp)
  | addReplica lf0 _ hold =>
    cases h
    exact Or.inr ⟨lf0, hold, by simp [addReplica]⟩

theorem shape_leafPublish :
    lf.shape = a.shape ∨ ∃ lf0, old = some lf0 ∧ lf.shape = lf0.shape := by
  have horelse : ∀ lf0 : RadixLeaf, (lf0.shape <|> a.shape) = a.shape ∨
      (lf0.shape <|> a.shape) = lf0.shape := by
    intro lf0
    cases lf0.shape with
    | none => exact Or.inl rfl
    | some _ => exact Or.inr rfl
  have hc := leafPublish_cases old a
  generalize leafPublish old a = r at h hc
  cases hc with
  | rejected lf0 hold _ => exact Or.inr ⟨lf, h, rfl⟩
  | newStripe =>
    cases h
    exact Or.inl rfl
  | addPart lf0 st _ hold | addReplica lf0 _ hold =>
    cases h
    exact (horelse lf0).imp id fun h => ⟨lf0, hold, h⟩
  | newPlain =>
    cases h
    exact Or.inl (by simp [newPlainLeaf])

end Published

/-! ## The side table invariant -/

/-- The side table and the tree agree. -/
structure SideOk (idx : Index) : Prop where
  distinct : idx.tree.Distinct
  node : ∀ p g q, sideGet idx.side p g = some q → (idx.tree.node? q).isSome
  len : ∀ p g q, sideGet idx.side p g = some q → q.length = g + 1
  leaf : ∀ q lf, idx.tree.leafAt q = some lf →
    sideGet idx.side lf.prefixId (groupOf q) = some q

namespace SideOk

variable {idx : Index}

theorem congr {idx' : Index} (h : SideOk idx) (ht : idx'.tree = idx.tree)
    (hs : idx'.side = idx.side) : SideOk idx' where
  distinct := by rw [ht]; exact h.distinct
  node := by rw [ht, hs]; exact h.node
  len := by rw [hs]; exact h.len
  leaf := by rw [ht, hs]; exact h.leaf

theorem empty : SideOk Index.empty where
  distinct := trivial
  node p g q h := by simp [Index.empty] at h
  len p g q h := by simp [Index.empty] at h
  leaf q lf h := by simp [Index.empty] at h

/-- A key has at most one leaf. -/
theorem key_unique (h : SideOk idx) {q q' : Path} {lf lf' : RadixLeaf}
    (hq : idx.tree.leafAt q = some lf) (hq' : idx.tree.leafAt q' = some lf')
    (hp : lf.prefixId = lf'.prefixId) (hg : groupOf q = groupOf q') : q = q' := by
  have h1 := h.leaf q lf hq
  have h2 := h.leaf q' lf' hq'
  rw [hp, hg, h2] at h1
  exact (Option.some.inj h1).symm

/-- `resolve_node` keeps one node for each key. -/
theorem resolveNode (h : SideOk idx) (p : UInt64) (g : Nat) {path : Path}
    (hlen : path.length = g + 1) : SideOk (resolveNode idx p g path).1 where
  distinct := by
    unfold Model.resolveNode
    split
    · exact h.distinct
    · exact h.distinct.insert path
  node p' g' q hq := by
    rcases sideGet_resolveNode_cases idx p g path hq with hold | ⟨rfl, rfl, rfl⟩
    · exact isSome_node?_resolveNode idx p g path (h.node _ _ _ hold)
    -- either the slot was there with this node, or the path was just created
    cases hs : sideGet idx.side p' g' with
    | some q' =>
      have hq' := sideGet_resolveNode_of_some idx p' g' q hs
      rw [hq'] at hq
      cases hq
      exact isSome_node?_resolveNode idx p' g' _ (h.node _ _ _ hs)
    | none =>
      have hne : q ≠ [] := by
        intro he
        rw [he] at hlen
        simp at hlen
      simp only [Model.resolveNode, hs]
      exact Trie.isSome_node?_insert_self _ _ hne
  len p' g' q hq := by
    rcases sideGet_resolveNode_cases idx p g path hq with hold | ⟨rfl, rfl, rfl⟩
    · exact h.len _ _ _ hold
    · exact hlen
  leaf q lf hl := by
    rw [leafAt_resolveNode] at hl
    exact sideGet_resolveNode_of_some idx p g path (h.leaf q lf hl)

theorem publish (h : SideOk idx) (hside : sideGet idx.side a.prefixId a.groupIdx = some node) :
    SideOk (idx.publish node a) where
  distinct := h.distinct.setLeaf _ _
  node p g q hq := by
    rw [isSome_node?_publish]
    exact h.node p g q hq
  len := h.len
  leaf q lf hl := by
    rw [leafAt_publish idx node a (h.node _ _ _ hside)] at hl
    rw [side_publish]
    split at hl
    · rename_i hq
      subst hq
      rcases label_leafPublish _ _ _ hl with ⟨hp, _⟩ | ⟨lf0, hold, hp, _⟩
      · have hg : groupOf q = a.groupIdx := by
          have := h.len _ _ _ hside
          simp [groupOf, this]
        rw [hp, hg]
        exact hside
      · rw [hp]
        exact h.leaf q lf0 hold
    · exact h.leaf q lf hl

theorem drop (h : SideOk idx) (node : Path) : SideOk (idx.drop node) where
  distinct := by
    unfold Index.drop
    split
    · exact h.distinct
    · exact h.distinct.setLeaf _ _
  node p g q hq := by
    rw [isSome_node?_drop]
    rw [side_drop] at hq
    exact h.node p g q hq
  len p g q hq := by
    rw [side_drop] at hq
    exact h.len p g q hq
  leaf q lf hl := by
    rw [leafAt_drop] at hl
    rw [side_drop]
    split at hl
    · cases hl
    · exact h.leaf q lf hl

end SideOk

/-! ## Sweeps over the side table -/

/-- One slot of a sweep, as far as the index goes. -/
def sweepIdxSlot (due : RadixLeaf → Bool) (idx : Index) (slot : SideSlot) : Index :=
  match idx.tree.leafAt slot.node with
  | none => idx
  | some lf => if due lf && lf.refcnt == 0 then idx.drop slot.node else idx

theorem leafAt_sweepIdxSlot {due : RadixLeaf → Bool} {idx : Index} {slot : SideSlot} :
    (sweepIdxSlot due idx slot).tree.leafAt q = some lf ↔
      idx.tree.leafAt q = some lf ∧ ¬ (due lf = true ∧ lf.refcnt = 0 ∧ slot.node = q) := by
  unfold sweepIdxSlot
  cases hl : idx.tree.leafAt slot.node with
  | none =>
    refine ⟨fun hq => ⟨hq, fun hx => ?_⟩, fun hq => hq.1⟩
    rw [hx.2.2] at hl
    cases hl.symm.trans hq
  | some lf0 =>
    simp only
    split
    · rename_i hdue
      rw [Bool.and_eq_true, beq_iff_eq] at hdue
      rw [leafAt_drop]
      by_cases hq : q = slot.node
      · subst hq
        rw [if_pos rfl, hl]
        constructor
        · intro h
          cases h
        · rintro ⟨⟨⟩, hnot⟩
          exact absurd ⟨hdue.1, hdue.2, rfl⟩ hnot
      · rw [if_neg hq]
        exact ⟨fun h => ⟨h, fun hx => hq hx.2.2.symm⟩, fun h => h.1⟩
    rename_i hdue
    rw [Bool.and_eq_true, beq_iff_eq] at hdue
    refine ⟨fun h => ⟨h, ?_⟩, fun h => h.1⟩
    rintro ⟨hx, hr, rfl⟩
    cases hl.symm.trans h
    exact hdue ⟨hx, hr⟩

theorem leafAt_sweepIdx {due : RadixLeaf → Bool} (slots : List SideSlot) {idx : Index} :
    (slots.foldl (sweepIdxSlot due) idx).tree.leafAt q = some lf ↔
      idx.tree.leafAt q = some lf ∧
        ¬ (due lf = true ∧ lf.refcnt = 0 ∧ ∃ slot ∈ slots, slot.node = q) := by
  induction slots generalizing idx with
  | nil => simp
  | cons slot slots ih =>
    rw [List.foldl_cons, ih, leafAt_sweepIdxSlot, and_assoc]
    refine and_congr_right fun _ => ?_
    simp only [List.exists_mem_cons_iff, ← not_or, ← and_or_left]

/-! ## The leaves of a key -/

/-- The key has a leaf. -/
def HasKey (idx : Index) (k : UInt64 × Nat) : Prop :=
  ∃ q lf, idx.tree.leafAt q = some lf ∧ (lf.prefixId, groupOf q) = k

theorem hasKey_congr {idx idx' : Index} (h : ∀ q, idx'.tree.leafAt q = idx.tree.leafAt q)
    (k : UInt64 × Nat) : HasKey idx' k ↔ HasKey idx k := by
  simp [HasKey, h]

theorem not_hasKey_publish {idx : Index} (h : SideOk idx)
    (hside : sideGet idx.side a.prefixId a.groupIdx = some node) {k : UInt64 × Nat}
    (hk : (a.prefixId, a.groupIdx) ≠ k) (hno : ¬ HasKey idx k) :
    ¬ HasKey (idx.publish node a) k := by
  rintro ⟨q, lf, hl, hkey⟩
  rw [leafAt_publish idx node a (h.node _ _ _ hside)] at hl
  split at hl
  · rename_i hq
    subst hq
    rcases label_leafPublish _ _ _ hl with ⟨hp, _⟩ | ⟨lf0, hold, hp, _⟩
    · have hg : groupOf q = a.groupIdx := by simp [groupOf, h.len _ _ _ hside]
      rw [hp, hg] at hkey
      exact hk hkey
    · exact hno ⟨q, lf0, hold, by rw [← hp]; exact hkey⟩
  · exact hno ⟨q, lf, hl, hkey⟩

theorem not_hasKey_drop {idx : Index} {k : UInt64 × Nat} (hno : ¬ HasKey idx k) (node : Path) :
    ¬ HasKey (idx.drop node) k := by
  rintro ⟨q, lf, hl, hkey⟩
  rw [leafAt_drop] at hl
  split at hl
  · cases hl
  · exact hno ⟨q, lf, hl, hkey⟩

/-- Dropping the leaf of a key removes the key. -/
theorem not_hasKey_drop_self {idx : Index} (h : SideOk idx) (hl : idx.tree.leafAt node = some lf) :
    ¬ HasKey (idx.drop node) (lf.prefixId, groupOf node) := by
  rintro ⟨q, lf', hl', hkey⟩
  rw [leafAt_drop] at hl'
  split at hl'
  · cases hl'
  · rename_i hne
    obtain ⟨hp, hg⟩ := Prod.mk.inj hkey
    exact hne (h.key_unique hl' hl hp hg)

end KvTier.Analysis
