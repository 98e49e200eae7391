import KvTier.Lib.VersionedRegister
import KvTier.Analysis.ReplayFacts

/-!
# Single-copy keys as versioned registers

For keys with one copy, each at its own path, the index is a family of versioned registers.
-/

namespace KvTier.Analysis

open KvTier.Lib KvTier.Lib.VersionedRegister KvTier.Model Option

variable {a : PublishArgs} {g : Nat} {p : UInt64} {r : JournalRec} {st : Replay}

/-- What a leaf stands for. -/
structure LeafView where
  ver : Nat
  prefixId : UInt64
  addr0 : KvAddr
  addr1 : KvAddr
  stripe : Option StripeAddr
  lens : List Nat
deriving DecidableEq

/-- An address without its write time. -/
def untimed (a : KvAddr) : KvAddr := { a with lastWriteTs := 0 }

/-- The record lengths of an optional shape. -/
def lensOf (sh : Option Shape) : List Nat := (sh.map (·.lens)).getD []

/-- The view of a leaf. -/
def leafView (lf : RadixLeaf) : LeafView :=
  ⟨lf.ver, lf.prefixId, untimed lf.addr0, untimed lf.addr1, lf.stripe, lensOf lf.shape⟩

/-- The view of the leaf that a single-copy publish makes. -/
def putView (a : PublishArgs) : LeafView :=
  ⟨a.ver, a.prefixId, untimed a.addr, KvAddr.none, none, lensOf a.shape⟩

/-- The view of the leaf that a replayed PUT record makes. -/
def recView (r : JournalRec) : LeafView :=
  ⟨r.ver, r.prefixId, replayAddr r, KvAddr.none, none, if r.nRecs = 0 then [] else replayLens r⟩

/-- A publish of a single-copy put. -/
structure SingleArgs (a : PublishArgs) : Prop where
  flags : a.flags = Flags.empty
  slot : a.slot = 0
  pageOff : a.addr.pageOff = 0
  lens : (lensOf a.shape).length ≤ maxLayersCap

theorem leafView_newPlainLeaf (hs : a.slot = 0) : leafView (newPlainLeaf a) = putView a := by
  simp [newPlainLeaf, hs, replicaCnt, RadixLeaf.setAddr, leafView, putView, untimed, KvAddr.none,
    KvAddr.zero]

/-! ## The lengths of a record -/

theorem eq_replicate_of_uniformLens {lens : List Nat} (h : uniformLens lens = true) :
    lens = List.replicate lens.length (lens.headD 0) := by
  rw [List.eq_replicate_iff]
  refine ⟨rfl, fun x hx => ?_⟩
  unfold uniformLens at h
  simpa using List.all_eq_true.mp h x hx

theorem replayLens_journalPutRec (hcap : (lensOf a.shape).length ≤ maxLayersCap) (d : Nat) :
    (if (journalPutRec a).nRecs = 0 then [] else replayLens { journalPutRec a with devId := d }) =
      lensOf a.shape := by
  have hn : (journalPutRec a).nRecs = (lensOf a.shape).length := rfl
  split
  · rename_i h0
    rw [hn] at h0
    exact (List.length_eq_zero_iff.mp h0).symm
  rename_i h0
  have hne : (lensOf a.shape).isEmpty = false := by
    cases he : lensOf a.shape with
    | nil => simp [hn, he] at h0
    | cons x xs => rfl
  unfold replayLens
  simp only [hn, Nat.min_eq_left hcap]
  have hu : (journalPutRec a).flags.uniform =
      (!(lensOf a.shape).isEmpty && uniformLens (lensOf a.shape)) := rfl
  have hl : (journalPutRec a).lens =
      if (!(lensOf a.shape).isEmpty && uniformLens (lensOf a.shape)) then
        [(lensOf a.shape).headD 0] else lensOf a.shape := rfl
  simp only [hu, hl, hne, Bool.not_false, Bool.true_and]
  split
  · rename_i hun
    simp only [List.headD_cons]
    exact (eq_replicate_of_uniformLens hun).symm
  · simp

theorem recView_journalPutRec (h : SingleArgs a) (d : Nat) :
    recView { journalPutRec a with devId := d } = putView a := by
  have haddr : replayAddr { journalPutRec a with devId := d } = untimed a.addr := by
    simp [replayAddr, journalPutRec, untimed, ← h.pageOff]
  simp only [recView, putView, haddr, LeafView.mk.injEq, true_and]
  exact ⟨rfl, rfl, replayLens_journalPutRec h.lens d⟩

/-! ## One record on one key -/

/-- What a record does to the register of a key. -/
def keyOp (k : UInt64 × Nat) (r : JournalRec) : Option (Op LeafView) :=
  if recKey r = k then
    match r.op with
    | .put => some (.write (recView r))
    | .del => some .clear
    | .trim => none
  else none

/-- What a list of records does to the register of a key. -/
def keyOps (k : UInt64 × Nat) (rs : List JournalRec) : List (Op LeafView) := rs.filterMap (keyOp k)

/-- Every key has a path of its own. -/
structure PathFn (pathOf : UInt64 → Nat → Path) : Prop where
  len : ∀ p g, (pathOf p g).length = g + 1
  inj : ∀ p g p' g', pathOf p g = pathOf p' g' → p = p' ∧ g = g'

theorem PathFn.ne {pathOf : UInt64 → Nat → Path} (h : PathFn pathOf) {k : UInt64 × Nat}
    (hk : (p, g) ≠ k) : pathOf k.1 k.2 ≠ pathOf p g := by
  intro he
  obtain ⟨h1, h2⟩ := h.inj _ _ _ _ he
  exact hk (Prod.ext h1.symm h2.symm)

/-- Paths as the examples below use them. -/
def samplePath (p : UInt64) (g : Nat) : Path := (p + 7) :: List.replicate g 1

theorem pathFn_samplePath : PathFn samplePath where
  len p g := by simp [samplePath]
  inj p g p' g' h := by
    obtain ⟨hp, hg⟩ := List.cons.inj h
    refine ⟨by simpa using hp, ?_⟩
    simpa using congrArg List.length hg

section Views

variable (pathOf : UInt64 → Nat → Path) (f : Nat → LeafView) (v0 : Nat)

/-- The register of a key. -/
def viewAt (idx : Index) (k : UInt64 × Nat) : Option LeafView :=
  (idx.tree.leafAt (pathOf k.1 k.2)).map leafView

/-- Side slots name the paths of their keys. -/
def OwnPaths (idx : Index) : Prop := ∀ p g q, sideGet idx.side p g = some q → q = pathOf p g

def Agrees (idx : Index) : Prop :=
  ∀ q lf, idx.tree.leafAt q = some lf → lf.ver ≤ v0 ∨ leafView lf = f lf.ver

/-- A PUT record of one copy, with the view of its version. -/
structure SingleRec (r : JournalRec) : Prop where
  stripeCnt : r.stripeCnt = 0
  stripe : r.flags.stripe = false
  slot1 : r.flags.slot1 = false
  path : r.path = pathOf r.prefixId r.groupIdx
  ver : v0 < r.ver
  view : recView r = f r.ver

variable {pathOf f v0}

theorem leafAt_label (hP : PathFn pathOf) {idx : Index} (h : SideOk idx) (hp : OwnPaths pathOf idx)
    {lf : RadixLeaf} (hl : idx.tree.leafAt (pathOf p g) = some lf) : lf.prefixId = p := by
  have hside := h.leaf _ lf hl
  have hpath := hp _ _ _ hside
  exact (hP.inj _ _ _ _ hpath).1.symm

theorem groupOf_pathOf (hP : PathFn pathOf) (p : UInt64) (g : Nat) : groupOf (pathOf p g) = g := by
  simp [groupOf, hP.len]

theorem OwnPaths.resolveNode {idx : Index} (hp : OwnPaths pathOf idx) :
    OwnPaths pathOf (resolveNode idx p g (pathOf p g)).1 ∧
      (Model.resolveNode idx p g (pathOf p g)).2 = pathOf p g := by
  refine ⟨?_, ?_⟩
  · intro p' g' q hq
    rcases sideGet_resolveNode_cases idx p g _ hq with hq | ⟨rfl, rfl, rfl⟩
    · exact hp _ _ _ hq
    · rfl
  unfold Model.resolveNode
  split
  · rename_i node hs
    exact hp _ _ _ hs
  · rfl

theorem lensOf_replayShape (shapes : List Shape) (r : JournalRec) :
    lensOf (replayShape shapes r).2 = if r.nRecs = 0 then [] else replayLens r := by
  unfold replayShape
  split
  · rfl
  · simp only
    exact lens_shapePoolIntern shapes (replayLens r)

theorem replayApply_single {nDevs regionCnt : Nat} (hP : PathFn pathOf) (hop : r.op = .put)
    (hr : SingleRec pathOf f v0 r) :
    (replayApply nDevs regionCnt st r).idx =
      ({ (resolveNode st.idx r.prefixId r.groupIdx r.path).1 with
          shapes := (replayShape st.idx.shapes r).1 } : Index).publish
        (resolveNode st.idx r.prefixId r.groupIdx r.path).2
        (replayArgs r (replayShape st.idx.shapes r).2) := by
  have hne : r.path ≠ [] := by
    rw [hr.path]
    intro he
    have := hP.len r.prefixId r.groupIdx
    simp [he] at this
  simp [replayApply, hop, hne, replayPut, hr.stripeCnt]

theorem leafAt_replayApply_single (nDevs regionCnt : Nat) (hP : PathFn pathOf) (h : SideOk st.idx)
    (hp : OwnPaths pathOf st.idx) (hop : r.op = .put) (hr : SingleRec pathOf f v0 r) :
    OwnPaths pathOf (replayApply nDevs regionCnt st r).idx ∧
      ∀ q, (replayApply nDevs regionCnt st r).idx.tree.leafAt q =
        if q = pathOf r.prefixId r.groupIdx then
          (leafPublish (st.idx.tree.leafAt (pathOf r.prefixId r.groupIdx))
            (replayArgs r (replayShape st.idx.shapes r).2)).leaf
        else st.idx.tree.leafAt q := by
  obtain ⟨hpaths, hnode⟩ := hp.resolveNode (p := r.prefixId) (g := r.groupIdx)
  rw [← hr.path] at hpaths hnode
  have hlen : r.path.length = r.groupIdx + 1 := by rw [hr.path]; exact hP.len _ _
  have hsome := (h.resolveNode r.prefixId r.groupIdx hlen).node _ _ _
    (sideGet_resolveNode_self st.idx r.prefixId r.groupIdx r.path)
  rw [replayApply_single hP hop hr, ← hr.path]
  refine ⟨hpaths, fun q => ?_⟩
  refine (leafAt_publish _ _ _ (by exact hsome) q).trans ?_
  rw [hnode]
  simp

theorem view_leafPublish (shapes : List Shape) (hr : SingleRec pathOf f v0 r)
    {old : Option RadixLeaf} (hag : ∀ lf, old = some lf → lf.ver ≤ v0 ∨ leafView lf = f lf.ver) :
    (leafPublish old (replayArgs r (replayShape shapes r).2)).leaf.map leafView =
      apply LeafView.ver (old.map leafView) (.write (recView r)) := by
  have hslot : (replayArgs r (replayShape shapes r).2).slot = 0 := by
    simp [replayArgs, hr.slot1]
  have hfl : (replayArgs r (replayShape shapes r).2).flags.stripe = false := hr.stripe
  have hview : putView (replayArgs r (replayShape shapes r).2) = recView r := by
    simp only [putView, recView, LeafView.mk.injEq]
    exact ⟨rfl, rfl, rfl, trivial, trivial, lensOf_replayShape shapes r⟩
  have hver : (replayArgs r (replayShape shapes r).2).ver = r.ver := rfl
  have hc := leafPublish_cases old (replayArgs r (replayShape shapes r).2)
  generalize leafPublish old (replayArgs r (replayShape shapes r).2) = res at hc
  cases hc with
  | rejected lf hold hwhy =>
    subst hold
    have hlt : r.ver < lf.ver := by
      rcases hwhy with h | ⟨_, _, h⟩
      · exact h
      · rw [hslot] at h
        simp [replicaCnt] at h
    simp only [map_some, apply]
    rw [if_pos (by exact hlt)]
  | newStripe hs | addPart lf st hs => rw [hfl] at hs; cases hs
  | newPlain hs hwhy =>
    rw [apply_write_of_le]
    · simp only [map_some, leafView_newPlainLeaf hslot, hview]
    intro u hu
    obtain ⟨lf, hlf, rfl⟩ := map_eq_some_iff.mp hu
    have := hwhy lf hlf
    rw [hver] at this
    exact Nat.le_of_lt this
  | addReplica lf hs hold hv hsl =>
    -- the leaf of this very version is there already: its view stays
    subst hold
    rw [hver] at hv
    have hsame : leafView lf = recView r := by
      rcases hag lf rfl with h | h
      · have := hr.ver
        omega
      · rw [h, hv, hr.view]
    rw [apply_write_of_le]
    · simp only [map_some, Option.some.injEq]
      rw [← hsame]
      have hparts := hsame
      simp only [leafView, recView, LeafView.mk.injEq] at hparts ⊢
      obtain ⟨_, _, ha0, _, _, hlens⟩ := hparts
      simp only [addReplica, hslot, RadixLeaf.setAddr, if_true, true_and]
      refine ⟨?_, ?_⟩
      · rw [ha0]
        rfl
      cases hsh : lf.shape with
      | some sh => rfl
      | none =>
        rw [hsh] at hlens
        have : lensOf (replayShape shapes r).2 = lensOf none := by
          rw [lensOf_replayShape, ← hlens]
        simpa [replayArgs] using this
    intro u hu
    simp only [map_some, Option.some.injEq] at hu
    subst hu
    rw [hsame]

/-- What replay needs of the index and keeps. -/
structure SingleOk (pathOf : UInt64 → Nat → Path) (f : Nat → LeafView) (v0 : Nat) (idx : Index) :
    Prop where
  replay : ReplayOk idx
  paths : OwnPaths pathOf idx
  agrees : Agrees f v0 idx

/-- Replay of a record acts on each key as the register operation does. -/
theorem view_replayApply (nDevs regionCnt : Nat) (hP : PathFn pathOf)
    (h : SingleOk pathOf f v0 st.idx) (hr : r.op = .put → SingleRec pathOf f v0 r) :
    SingleOk pathOf f v0 (replayApply nDevs regionCnt st r).idx ∧
      ∀ k, viewAt pathOf (replayApply nDevs regionCnt st r).idx k =
        match keyOp k r with
        | none => viewAt pathOf st.idx k
        | some o => apply LeafView.ver (viewAt pathOf st.idx k) o := by
  have hpath : PathOk r := fun hop => by rw [(hr hop).path]; exact hP.len _ _
  have hok : ReplayOk (replayApply nDevs regionCnt st r).idx := h.replay.apply hpath
  cases hop : r.op with
  | trim =>
    have hidx : (replayApply nDevs regionCnt st r).idx = st.idx := by
      simp only [replayApply, hop]
      split <;> rfl
    rw [hidx]
    refine ⟨h, fun k => ?_⟩
    have : keyOp k r = none := by simp [keyOp, hop]
    rw [this]
  | del =>
    have hc := replayApply_cases nDevs regionCnt st r
    generalize (replayApply nDevs regionCnt st r).idx = idx' at hc hok
    -- the leaf at the path of the key is the leaf of the key
    have hnone : ∀ q, (∀ lf, st.idx.tree.leafAt q = some lf → False) →
        st.idx.tree.leafAt q = none := by
      intro q hq
      cases hl : st.idx.tree.leafAt q with
      | none => rfl
      | some lf => exact (hq lf hl).elim
    cases hc with
    | same hdel =>
      refine ⟨h, fun k => ?_⟩
      unfold keyOp
      by_cases hk : recKey r = k
      · subst hk
        rw [if_pos rfl, hop]
        have : st.idx.tree.leafAt (pathOf r.prefixId r.groupIdx) = none := by
          apply hnone
          intro lf hl
          have hside := h.replay.side.leaf _ lf hl
          rw [leafAt_label hP h.replay.side h.paths hl, groupOf_pathOf hP] at hside
          exact hdel hop _ hside lf hl (h.replay.unpinned _ lf hl)
        simp [viewAt, recKey, this]
      · rw [if_neg hk]
    | drop node lf _ hside hl =>
      have hnode : node = pathOf r.prefixId r.groupIdx := h.paths _ _ _ hside
      refine ⟨⟨hok, ?_, ?_⟩, fun k => ?_⟩
      · intro p g q hq
        rw [side_drop] at hq
        exact h.paths p g q hq
      · intro q lf' hl'
        rw [leafAt_drop] at hl'
        split at hl'
        · cases hl'
        · exact h.agrees q lf' hl'
      unfold keyOp
      by_cases hk : recKey r = k
      · subst hk
        rw [if_pos rfl, hop]
        simp [viewAt, leafAt_drop, recKey, hnode]
      have hne : pathOf k.1 k.2 ≠ node := by
        rw [hnode]
        exact hP.ne hk
      rw [if_neg hk]
      simp [viewAt, leafAt_drop, hne]
    | put _ _ hput => rw [hop] at hput; cases hput
  | put =>
    have hs := hr hop
    obtain ⟨hpaths, hleaf⟩ := leafAt_replayApply_single nDevs regionCnt hP h.replay.side h.paths hop hs
    have hview := view_leafPublish st.idx.shapes hs
      (fun lf hl => h.agrees (pathOf r.prefixId r.groupIdx) lf hl)
    refine ⟨⟨hok, hpaths, ?_⟩, fun k => ?_⟩
    · intro q lf hl
      rw [hleaf] at hl
      split at hl
      · -- the new view is the record's or the old one
        rw [hl] at hview
        simp only [map_some] at hview
        have hcases : leafView lf = recView r ∨
            ∃ lf0, st.idx.tree.leafAt (pathOf r.prefixId r.groupIdx) = some lf0 ∧
              leafView lf = leafView lf0 := by
          cases hold : st.idx.tree.leafAt (pathOf r.prefixId r.groupIdx) with
          | none =>
            rw [hold] at hview
            exact Or.inl (Option.some.inj hview)
          | some lf0 =>
            rw [hold] at hview
            simp only [map_some, apply] at hview
            split at hview
            · exact Or.inr ⟨lf0, rfl, Option.some.inj hview⟩
            · exact Or.inl (Option.some.inj hview)
        rcases hcases with he | ⟨lf0, hold, he⟩
        · right
          have hv : lf.ver = r.ver := congrArg LeafView.ver he
          rw [he, hs.view, hv]
        · have hv : lf.ver = lf0.ver := congrArg LeafView.ver he
          rw [he, hv]
          exact h.agrees _ lf0 hold
      · exact h.agrees q lf hl
    unfold keyOp
    simp only [viewAt]
    rw [hleaf]
    by_cases hk : recKey r = k
    · subst hk
      rw [if_pos rfl, hop]
      simpa [recKey] using hview
    rw [if_neg hk, if_neg (hP.ne hk)]

theorem view_replayJournal (nDevs regionCnt : Nat) (hP : PathFn pathOf)
    (h : SingleOk pathOf f v0 st.idx) {rs : List JournalRec}
    (hr : ∀ r ∈ rs, r.op = .put → SingleRec pathOf f v0 r) :
    SingleOk pathOf f v0 (replayJournal nDevs regionCnt st rs).idx ∧
      ∀ k, viewAt pathOf (replayJournal nDevs regionCnt st rs).idx k =
        replay LeafView.ver (viewAt pathOf st.idx k) (keyOps k rs) := by
  induction rs generalizing st with
  | nil => exact ⟨h, fun k => rfl⟩
  | cons r rs ih =>
    obtain ⟨hok, hstep⟩ := view_replayApply nDevs regionCnt hP h
      (hr r (by simp))
    obtain ⟨hok', hrest⟩ := ih hok (fun r' hr' => hr r' (by simp [hr']))
    refine ⟨hok', fun k => ?_⟩
    have hcons : keyOps k (r :: rs) = (keyOp k r).toList ++ keyOps k rs := by
      unfold keyOps
      rw [List.filterMap_cons]
      cases keyOp k r <;> rfl
    have := hrest k
    rw [hstep k] at this
    rw [hcons, replay_append]
    refine this.trans ?_
    cases keyOp k r <;> rfl

end Views

end KvTier.Analysis
