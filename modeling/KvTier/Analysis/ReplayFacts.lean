import KvTier.Model.Replay
import KvTier.Analysis.CheckpointFacts
import KvTier.Analysis.JournalFacts

/-!
# Facts about replay

What one journal record does to the index (`ApplyCase`): nothing, a drop at the node its key's slot
names, or a list of publishes at the node of its key.
-/

namespace KvTier.Analysis

open KvTier.Lib KvTier.Model

/-- The key a record is about. -/
def recKey (r : JournalRec) : UInt64 × Nat := (r.prefixId, r.groupIdx)

/-- A PUT record carries the whole path of its group. -/
def PathOk (r : JournalRec) : Prop := r.op = .put → r.path.length = r.groupIdx + 1

/-- The state of replay between two records. -/
structure ReplayOk (idx : Index) : Prop where
  side : SideOk idx
  unpinned : ∀ q lf, idx.tree.leafAt q = some lf → lf.refcnt = 0

/-! ## What one record does -/

def publishAll (idx : Index) (node : Path) (as : List PublishArgs) : Index :=
  as.foldl (fun idx a => idx.publish node a) idx

/-- The publishes a PUT record stands for. -/
inductive ReplayOf (r : JournalRec) : PublishArgs → Prop
  | plain (shape : Option Shape) (hcnt : r.stripeCnt ≤ 1) : ReplayOf r (replayArgs r shape)
  | part (s : ReplayStripe) (shape : Option Shape) (p : Nat) (hcnt : 1 < r.stripeCnt) :
      ReplayOf r (replayPartArgs r s shape p)

theorem ReplayOf.key {r : JournalRec} {a : PublishArgs} (h : ReplayOf r a) :
    a.prefixId = r.prefixId ∧ a.groupIdx = r.groupIdx := by
  cases h <;> exact ⟨rfl, rfl⟩

theorem ReplayOf.ver {r : JournalRec} {a : PublishArgs} (h : ReplayOf r a) : a.ver = r.ver := by
  cases h <;> rfl

/-- The outcomes of `replay_apply` on the index. -/
inductive ApplyCase (idx : Index) (r : JournalRec) : Index → Prop
  | same (hdel : r.op = .del → ∀ node, sideGet idx.side r.prefixId r.groupIdx = some node →
      ∀ lf, idx.tree.leafAt node = some lf → lf.refcnt ≠ 0) : ApplyCase idx r idx
  | drop (node : Path) (lf : RadixLeaf) (hop : r.op = .del)
      (hside : sideGet idx.side r.prefixId r.groupIdx = some node)
      (hleaf : idx.tree.leafAt node = some lf) : ApplyCase idx r (idx.drop node)
  | put (shapes : List Shape) (as : List PublishArgs) (hop : r.op = .put)
      (has : ∀ a ∈ as, a.prefixId = r.prefixId ∧ a.groupIdx = r.groupIdx)
      (hver : ∀ a ∈ as, a.ver = r.ver) (hof : ∀ a ∈ as, ReplayOf r a) :
      ApplyCase idx r (publishAll
        { (resolveNode idx r.prefixId r.groupIdx r.path).1 with shapes := shapes }
        (resolveNode idx r.prefixId r.groupIdx r.path).2 as)

theorem replayPut_idx (st : Replay) (node : Path) (r : JournalRec) :
    ∃ as, (∀ a ∈ as, ReplayOf r a) ∧
      (replayPut st node r).idx =
        publishAll { st.idx with shapes := (replayShape st.idx.shapes r).1 } node as := by
  unfold replayPut
  simp only
  split
  · rename_i hcnt
    cases replayFindStripe st.stripes r with
    | none => exact ⟨[], by simp, rfl⟩
    | some si =>
      obtain ⟨stripes, i⟩ := si
      simp only
      split
      · -- the record that completes the entry publishes every part
        refine ⟨(List.range ((stripes.getD i ⟨0, 0, 0, 0, 0, []⟩).fill r).stripeCnt).map
          (replayPartArgs r ((stripes.getD i ⟨0, 0, 0, 0, 0, []⟩).fill r)
            (replayShape st.idx.shapes r).2), ?_, ?_⟩
        · intro a ha
          obtain ⟨p, _, rfl⟩ := List.mem_map.mp ha
          exact .part _ _ _ hcnt
        · simp only [replayPublishAll, publishAll, List.foldl_map]
      · exact ⟨[], by simp, rfl⟩
  rename_i hcnt
  refine ⟨[replayArgs r (replayShape st.idx.shapes r).2], ?_, rfl⟩
  intro a ha
  rw [List.mem_singleton.mp ha]
  exact .plain _ (Nat.le_of_not_lt hcnt)

/-- Every record has one of the three outcomes. -/
theorem replayApply_cases (nDevs regionCnt : Nat) (st : Replay) (r : JournalRec) :
    ApplyCase st.idx r (replayApply nDevs regionCnt st r).idx := by
  unfold replayApply
  cases hop : r.op with
  | del =>
    simp only
    cases hs : sideGet st.idx.side r.prefixId r.groupIdx with
    | none =>
      exact .same fun _ node h => by rw [hs] at h; cases h
    | some node =>
      cases hl : st.idx.tree.leafAt node with
      | none =>
        simp only [hl]
        refine .same fun _ node' h lf hlf => ?_
        rw [hs] at h
        cases h
        rw [hl] at hlf
        cases hlf
      | some lf =>
        simp only [hl]
        split
        · exact .drop node lf hop hs hl
        rename_i hpin
        refine .same fun _ node' h lf' hlf' => ?_
        rw [hs] at h
        cases h
        rw [hl] at hlf'
        cases hlf'
        exact hpin
  | trim =>
    simp only
    split <;> exact .same fun h => by rw [hop] at h; cases h
  | put =>
    simp only
    split
    · exact .same fun h => by rw [hop] at h; cases h
    obtain ⟨as, hof, he⟩ := replayPut_idx
      { st with idx := (resolveNode st.idx r.prefixId r.groupIdx r.path).1,
                maxVer := max st.maxVer r.ver }
      (resolveNode st.idx r.prefixId r.groupIdx r.path).2 r
    rw [he]
    exact .put _ as hop (fun a ha => (hof a ha).key) (fun a ha => (hof a ha).ver) hof

/-! ## The invariant -/

/-- What every publish at the node of a key keeps, all of them keep. -/
theorem publishAll_keeps {P : Index → Prop} {p : UInt64} {g : Nat} {node : Path}
    {as : List PublishArgs} (has : ∀ a ∈ as, a.prefixId = p ∧ a.groupIdx = g)
    (hstep : ∀ idx a, a ∈ as → SideOk idx → sideGet idx.side a.prefixId a.groupIdx = some node →
      P idx → P (idx.publish node a)) {idx : Index} (hok : SideOk idx)
    (hside : sideGet idx.side p g = some node) (h : P idx) : P (publishAll idx node as) := by
  induction as generalizing idx with
  | nil => exact h
  | cons a as ih =>
    obtain ⟨hap, hag⟩ := has a (by simp)
    have hside' : sideGet idx.side a.prefixId a.groupIdx = some node := by
      rw [hap, hag]
      exact hside
    exact ih (fun b hb => has b (by simp [hb])) (fun idx b hb => hstep idx b (by simp [hb]))
      (hok.publish hside') (by simpa using hside) (hstep idx a (by simp) hok hside' h)

theorem ReplayOk.publishAll {idx : Index} (h : ReplayOk idx) {p : UInt64} {g : Nat}
    {node : Path} (hside : sideGet idx.side p g = some node) {as : List PublishArgs}
    (has : ∀ a ∈ as, a.prefixId = p ∧ a.groupIdx = g) :
    ReplayOk (publishAll idx node as) ∧
      ∀ k, k ≠ (p, g) → ¬ HasKey idx k → ¬ HasKey (Analysis.publishAll idx node as) k := by
  constructor
  · refine publishAll_keeps has (fun idx a _ hok hside h => ⟨hok.publish hside, ?_⟩) h.side hside h
    intro q lf hl
    rw [leafAt_publish idx node a (hok.node _ _ _ hside)] at hl
    split at hl
    · rcases label_leafPublish _ _ _ hl with ⟨_, h0⟩ | ⟨lf0, hold, _, hrc⟩
      · exact h0
      · rw [hrc]
        exact h.unpinned node lf0 hold
    · exact h.unpinned q lf hl
  · intro k hk
    refine publishAll_keeps (P := fun idx => ¬ HasKey idx k) has (fun idx a ha hok hside => ?_) h.side
      hside
    refine not_hasKey_publish hok hside ?_
    rw [(has a ha).1, (has a ha).2]
    exact fun he => hk he.symm

section Apply

variable {nDevs regionCnt : Nat} {st : Replay} {r : JournalRec}

theorem ReplayOk.resolved (h : ReplayOk st.idx) (hop : r.op = .put) (hr : PathOk r)
    (shapes : List Shape) :
    ReplayOk { (resolveNode st.idx r.prefixId r.groupIdx r.path).1 with shapes := shapes } := by
  refine ⟨(h.side.resolveNode r.prefixId r.groupIdx (hr hop)).congr rfl rfl, ?_⟩
  intro q lf hl
  exact h.unpinned q lf (by simpa using hl)

/-- Replay keeps its invariant. -/
theorem ReplayOk.apply (h : ReplayOk st.idx) (hr : PathOk r) :
    ReplayOk (replayApply nDevs regionCnt st r).idx := by
  have hc := replayApply_cases nDevs regionCnt st r
  generalize (replayApply nDevs regionCnt st r).idx = idx' at hc
  cases hc with
  | same _ => exact h
  | drop node lf _ _ _ =>
    refine ⟨h.side.drop node, ?_⟩
    intro q lf' hl
    rw [leafAt_drop] at hl
    split at hl
    · cases hl
    · exact h.unpinned q lf' hl
  | put shapes as hop has _ =>
    exact ((h.resolved hop hr shapes).publishAll
      (sideGet_resolveNode_self st.idx r.prefixId r.groupIdx r.path) has).1

theorem not_hasKey_apply (h : ReplayOk st.idx) (hr : PathOk r) {k : UInt64 × Nat}
    (hk : r.op = .put → recKey r ≠ k) (hno : ¬ HasKey st.idx k) :
    ¬ HasKey (replayApply nDevs regionCnt st r).idx k := by
  have hc := replayApply_cases nDevs regionCnt st r
  generalize (replayApply nDevs regionCnt st r).idx = idx' at hc
  cases hc with
  | same _ => exact hno
  | drop node lf _ _ _ => exact not_hasKey_drop hno node
  | put shapes as hop has _ =>
    refine ((h.resolved hop hr shapes).publishAll
      (sideGet_resolveNode_self st.idx r.prefixId r.groupIdx r.path) has).2 k ?_ ?_
    · exact fun he => hk hop he.symm
    · exact (hasKey_congr (fun q => by simp) k).not.mpr hno

/-- A DEL removes the leaf of its key. -/
theorem not_hasKey_apply_del (nDevs regionCnt : Nat) (h : ReplayOk st.idx) (hop : r.op = .del) :
    ¬ HasKey (replayApply nDevs regionCnt st r).idx (recKey r) := by
  have hc := replayApply_cases nDevs regionCnt st r
  generalize (replayApply nDevs regionCnt st r).idx = idx' at hc
  cases hc with
  | same hdel =>
    rintro ⟨q, lf, hl, hkey⟩
    obtain ⟨hp, hg⟩ := Prod.mk.inj hkey
    have hside := h.side.leaf q lf hl
    rw [hp, hg] at hside
    exact hdel hop q hside lf hl (h.unpinned q lf hl)
  | drop node lf _ hside hl =>
    rintro ⟨q, lf', hl', hkey⟩
    obtain ⟨hp, hg⟩ := Prod.mk.inj hkey
    rw [leafAt_drop] at hl'
    split at hl'
    · cases hl'
    rename_i hne
    have hside' := h.side.leaf q lf' hl'
    rw [hp, hg, hside] at hside'
    exact hne (Option.some.inj hside').symm
  | put _ _ hput => rw [hop] at hput; cases hput

end Apply

/-! ## Whole journals -/

section Journal

variable {nDevs regionCnt : Nat}

theorem replayJournal_append (st : Replay) (rs rs' : List JournalRec) :
    replayJournal nDevs regionCnt st (rs ++ rs') =
      replayJournal nDevs regionCnt (replayJournal nDevs regionCnt st rs) rs' := by
  simp [replayJournal]

/-- Recovery replays the journals in the order of the devices. -/
theorem recover_eq (ckpt : Option CkptFile) (nDevs regionCnt regionSizePages : Nat)
    (journals : Nat → List JournalRec) :
    recover ckpt nDevs regionCnt regionSizePages journals =
      replayJournal nDevs regionCnt (replayInit ckpt nDevs regionCnt regionSizePages)
        ((List.range nDevs).flatMap journals) := by
  unfold recover
  generalize List.range nDevs = ds
  generalize replayInit ckpt nDevs regionCnt regionSizePages = st
  induction ds generalizing st with
  | nil => rfl
  | cons d ds ih => rw [List.foldl_cons, ih, List.flatMap_cons, replayJournal_append]

theorem ReplayOk.journal {st : Replay} (h : ReplayOk st.idx) {rs : List JournalRec}
    (hr : ∀ r ∈ rs, PathOk r) : ReplayOk (replayJournal nDevs regionCnt st rs).idx := by
  induction rs generalizing st with
  | nil => exact h
  | cons r rs ih =>
    exact ih (h.apply (hr r (by simp))) (fun r' hr' => hr r' (by simp [hr']))

theorem not_hasKey_journal {st : Replay} (h : ReplayOk st.idx) {rs : List JournalRec}
    (hr : ∀ r ∈ rs, PathOk r) {k : UInt64 × Nat} (hk : ∀ r ∈ rs, r.op = .put → recKey r ≠ k)
    (hno : ¬ HasKey st.idx k) : ¬ HasKey (replayJournal nDevs regionCnt st rs).idx k := by
  induction rs generalizing st with
  | nil => exact hno
  | cons r rs ih =>
    have hr0 := hr r (by simp)
    exact ih (h.apply hr0) (fun r' hr' => hr r' (by simp [hr']))
      (fun r' hr' => hk r' (by simp [hr'])) (not_hasKey_apply h hr0 (hk r (by simp)) hno)

theorem not_hasKey_of_del {st : Replay} (h : ReplayOk st.idx) {xs ys : List JournalRec}
    {r : JournalRec} (hr : ∀ x ∈ xs ++ r :: ys, PathOk x) (hop : r.op = .del)
    (hk : ∀ y ∈ ys, y.op = .put → recKey y ≠ recKey r) :
    ¬ HasKey (replayJournal nDevs regionCnt st (xs ++ r :: ys)).idx (recKey r) := by
  rw [replayJournal_append]
  have hxs : ReplayOk (replayJournal nDevs regionCnt st xs).idx :=
    h.journal fun x hx => hr x (by simp [hx])
  have hdel := not_hasKey_apply_del nDevs regionCnt hxs hop
  exact not_hasKey_journal (hxs.apply (hr r (by simp))) (fun y hy => hr y (by simp [hy])) hk hdel

end Journal

end KvTier.Analysis
