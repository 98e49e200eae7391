import KvTier.Lib.Runs
import KvTier.Model.Writer

/-!
# What a shard writer does

The steps of one writer, said once: `ShardStep` lists them with the requests each one releases, and
every step of the model is one of them (`writerStep_cases`).
-/

namespace KvTier.Analysis

open KvTier.Lib KvTier.Model List

variable {d : Nat} {s s' : Writers}

/-- The requests of put `i` in a list. -/
def countOf (i : Nat) (l : List QReq) : Nat := (l.map (·.put)).count i

theorem countOf_append (i : Nat) (a b : List QReq) :
    countOf i (a ++ b) = countOf i a + countOf i b := by
  simp [countOf]

theorem countOf_perm {a b : List QReq} (h : a.Perm b) (i : Nat) : countOf i a = countOf i b :=
  (h.map _).count_eq i

/-- Each count is lowered by the requests gone, with an ack where it comes to 0. -/
structure Released (ctx ctx' : Nat → Latch AckErr) (gone : List QReq) : Prop where
  refs : ∀ i, (ctx' i).refs = (ctx i).refs - countOf i gone
  acks : ∀ i, (ctx' i).acks.length = (ctx i).acks.length +
    if 1 ≤ (ctx i).refs ∧ (ctx i).refs ≤ countOf i gone then 1 else 0

theorem Released.none (ctx : Nat → Latch AckErr) : Released ctx ctx [] := by
  refine ⟨fun i => ?_, fun i => ?_⟩
  · show (ctx i).refs = (ctx i).refs - ((0 : Nat) : Int)
    omega
  · show (ctx i).acks.length = (ctx i).acks.length +
      if 1 ≤ (ctx i).refs ∧ (ctx i).refs ≤ ((0 : Nat) : Int) then 1 else 0
    rw [if_neg (by omega), Nat.add_zero]

theorem Released.of_release {ctx f : Nat → Latch AckErr}
    (hf : ∀ i, (f i).refs = (ctx i).refs ∧ (f i).acks = (ctx i).acks) (gone : List QReq)
    (err : QReq → Option AckErr) :
    Released ctx (Latch.release f (gone.map fun r => (r.put, err r))) gone := by
  have hids : (gone.map fun r => (r.put, err r)).map Prod.fst = gone.map (·.put) := by
    rw [map_map]
    rfl
  refine ⟨fun i => ?_, fun i => ?_⟩
  · have := Latch.refs_release f (gone.map fun r => (r.put, err r)) i
    rw [hids, (hf i).1] at this
    exact this
  · have := Latch.length_acks_release f (gone.map fun r => (r.put, err r)) i
    rw [hids, (hf i).1, (hf i).2] at this
    exact this

/-! ## What a writer can do -/

def BatchFull (cfg : WriterConfig) (b : Batch) : Prop :=
  batchMaxReqs ≤ b.reqs.length ∨ cfg.batchMinBytes ≤ b.used

/-- The ways of a step of a shard. -/
inductive ShardStep (cfg : WriterConfig) (w : Shard) : WLabel → Shard → List QReq → Prop
  | pop {d : Nat} {r : QReq} {ring : List QReq} (hpc : w.pc = .top) (hring : w.ring = r :: ring) :
      ShardStep cfg w (.pop d) { w with ring := ring, pc := .fill (some r) } []
  | poll {d : Nat} (hpc : w.pc = .top) : ShardStep cfg w (.poll d) w []
  | full {d : Nat} {first : Option QReq} {found : Bool} (hpc : w.pc = .fill first)
      (hfull : BatchFull cfg w.cur) :
      ShardStep cfg w (.fill d found) { w with pc := .submit } []
  | first {d : Nat} {r : QReq} {found : Bool} (hpc : w.pc = .fill (some r)) :
      ShardStep cfg w (.fill d found) { w with pc := .place r } []
  | next {d : Nat} {r : QReq} {ring : List QReq} (hpc : w.pc = .fill none)
      (hring : w.ring = r :: ring) :
      ShardStep cfg w (.fill d true) { w with ring := ring, pc := .place r } []
  | dry {d : Nat} (hpc : w.pc = .fill none) :
      ShardStep cfg w (.fill d false) { w with pc := .submit } []
  | add {d : Nat} {r : QReq} (hpc : w.pc = .place r) (hfits : Writers.fits cfg w.cur r = true) :
      ShardStep cfg w (.place d) { w with pc := .fill none, cur := w.cur.add r } []
  | back {d : Nat} {r : QReq} (hpc : w.pc = .place r) (hfits : Writers.fits cfg w.cur r = false)
      (hroom : w.ring.length < ringCap) :
      ShardStep cfg w (.place d) { w with pc := .submit, ring := w.ring ++ [r] } []
  | lose {d : Nat} {r : QReq} (hpc : w.pc = .place r) (hfits : Writers.fits cfg w.cur r = false)
      (hroom : ¬ w.ring.length < ringCap) :
      ShardStep cfg w (.place d) { w with pc := .submit } []
  | skip {d : Nat} {room : Bool} (hpc : w.pc = .submit) (hreqs : w.cur.reqs = []) :
      ShardStep cfg w (.submit d room) { w with pc := .top } []
  | submit {d : Nat} (hpc : w.pc = .submit) (hbusy : w.cur.busy = false)
      (hreqs : w.cur.reqs ≠ []) :
      ShardStep cfg w (.submit d true)
        { w with pc := .wait, cur := w.other, other := { w.cur with busy := true } } []
  | refuse {d : Nat} (hpc : w.pc = .submit) (hbusy : w.cur.busy = false)
      (hreqs : w.cur.reqs ≠ []) :
      ShardStep cfg w (.submit d false) { w with pc := .top, cur := .empty } w.cur.reqs
  | swap {d : Nat} (hpc : w.pc = .wait) (hbusy : w.cur.busy = false) :
      ShardStep cfg w (.swap d) { w with pc := .top, cur := .empty } []
  | reapCur {d : Nat} {ioErr : Bool} {noNode : List Nat} (hbusy : w.cur.busy = true) :
      ShardStep cfg w (.complete d true ioErr noNode) { w with cur := .empty } w.cur.reqs
  | reapOther {d : Nat} {ioErr : Bool} {noNode : List Nat} (hbusy : w.other.busy = true) :
      ShardStep cfg w (.complete d false ioErr noNode) { w with other := .empty } w.other.reqs

theorem setShard_self (s : Writers) (d : Nat) : s.setShard d (s.shards d) = s := by
  rw [Writers.setShard, Function.update_eq_self]

/-- A step of writer `d`. -/
def WriterStep (s : Writers) (d : Nat) (l : WLabel) (s' : Writers) : Prop :=
  ∃ w' gone, ShardStep s.cfg (s.shards d) l w' gone ∧
    s' = { s.setShard d w' with ctx := s'.ctx } ∧ Released s.ctx s'.ctx gone

theorem WriterStep.move {l : WLabel} {w' : Shard} (h : ShardStep s.cfg (s.shards d) l w' []) :
    WriterStep s d l (s.setShard d w') :=
  ⟨w', [], h, rfl, Released.none _⟩

theorem fillStep_cases {first : Option QReq} {found : Bool} {w' : Shard}
    (hpc : (s.shards d).pc = .fill first)
    (h : Writers.fillStep s.cfg (s.shards d) first found = some w') :
    ShardStep s.cfg (s.shards d) (.fill d found) w' [] := by
  unfold Writers.fillStep at h
  split at h
  · rename_i hfull
    cases h
    exact .full hpc hfull
  split at h
  · cases h
    exact .first hpc
  · rename_i hring
    cases h
    exact .next hpc hring
  · cases h
  · cases h
    exact .dry hpc

theorem placeStep_cases {r : QReq} (hpc : (s.shards d).pc = .place r) :
    ShardStep s.cfg (s.shards d) (.place d) (Writers.placeStep s.cfg (s.shards d) r) [] := by
  unfold Writers.placeStep
  split
  · rename_i hfits
    exact .add hpc hfits
  rename_i hfits
  have hfits : Writers.fits s.cfg (s.shards d).cur r = false := by simpa using hfits
  by_cases hroom : (s.shards d).ring.length < ringCap
  · rw [if_pos hroom]
    exact .back hpc hfits hroom
  · rw [if_neg hroom]
    exact .lose hpc hfits hroom

theorem submitStep_cases {room : Bool} (hpc : (s.shards d).pc = .submit)
    (h : Writers.submitStep s d (s.shards d) room = some s') :
    WriterStep s d (.submit d room) s' := by
  unfold Writers.submitStep at h
  split at h
  · cases h
  rename_i hbusy
  have hbusy : (s.shards d).cur.busy = false := by simpa using hbusy
  split at h
  · rename_i hreqs
    cases h
    exact .move (.skip hpc hreqs)
  rename_i hreqs
  split at h
  · rename_i hroom
    cases h
    subst hroom
    exact .move (.submit hpc hbusy hreqs)
  rename_i hroom
  cases h
  obtain rfl : room = false := by simpa using hroom
  exact ⟨_, _, .refuse hpc hbusy hreqs, rfl,
    Released.of_release (fun _ => ⟨rfl, rfl⟩) _ fun _ => some .efull⟩

theorem complete_cases {isCur ioErr : Bool} {noNode : List Nat}
    (h : s.complete d isCur ioErr noNode = some s') :
    WriterStep s d (.complete d isCur ioErr noNode) s' := by
  cases isCur with
  | true =>
    simp only [Writers.complete, if_true] at h
    split at h
    · rename_i hbusy
      cases h
      exact ⟨_, _, .reapCur hbusy, rfl,
        Released.of_release (fun i => Latch.setErrs_eq _ _ i) _ fun _ => none⟩
    · cases h
  | false =>
    simp only [Writers.complete, Bool.false_eq_true, if_false] at h
    split at h
    · rename_i hbusy
      cases h
      exact ⟨_, _, .reapOther hbusy, rfl,
        Released.of_release (fun i => Latch.setErrs_eq _ _ i) _ fun _ => none⟩
    · cases h

/-- What a writer can do. -/
theorem writerStep_cases {l : WLabel} (hl : Writers.shardOf l = some d)
    (h : s.writerStep d l = some s') : WriterStep s d l s' := by
  cases l <;> cases hl
  case pop =>
    simp only [Writers.writerStep] at h
    split at h
    · rename_i hpc hring
      cases h
      exact .move (.pop hpc hring)
    · cases h
  case poll =>
    simp only [Writers.writerStep] at h
    split at h
    · rename_i hpc
      cases h
      have hself := WriterStep.move (@ShardStep.poll s.cfg _ d hpc)
      rwa [setShard_self] at hself
    · cases h
  case fill found =>
    simp only [Writers.writerStep] at h
    split at h
    · rename_i first hpc
      obtain ⟨w', hw', rfl⟩ := Option.map_eq_some_iff.mp h
      exact .move (fillStep_cases hpc hw')
    · cases h
  case place =>
    simp only [Writers.writerStep] at h
    split at h
    · rename_i r hpc
      cases h
      exact .move (placeStep_cases hpc)
    · cases h
  case submit room =>
    simp only [Writers.writerStep] at h
    split at h
    · rename_i hpc
      exact submitStep_cases hpc h
    · cases h
  case swap =>
    simp only [Writers.writerStep] at h
    split at h
    · rename_i hpc
      cases h
      exact .move (.swap hpc.1 hpc.2)
    · cases h
  case complete isCur ioErr noNode => exact complete_cases h

/-! ## What a writer keeps -/

/-- A buffer is in flight exactly when it has requests. -/
def InFlight (b : Batch) : Prop := b.busy = true ↔ b.reqs ≠ []

/-- The current buffer, by the place of the writer. -/
def PcOk : Pc → Batch → Prop
  | .top, b => b = .empty
  | .fill (some _), b => b = .empty
  | .fill none, b => b.reqs ≠ [] ∧ b.busy = false
  | .place _, b => b.busy = false
  | .submit, b => b.reqs ≠ [] ∧ b.busy = false
  | .wait, b => InFlight b

/-- The buffers of a writer. -/
structure ShardOk (w : Shard) : Prop where
  cur : PcOk w.pc w.cur
  other : InFlight w.other

theorem inFlight_empty : InFlight .empty := by simp [InFlight, Batch.empty]

theorem not_batchFull_empty (cfg : WriterConfig) : ¬ BatchFull cfg .empty := by
  have := cfg.minPos
  rintro (h | h)
  · simp [Batch.empty, batchMaxReqs] at h
  · simp only [Batch.empty] at h
    omega

theorem reqs_ne_nil_of_not_fits {cfg : WriterConfig} {b : Batch} {r : QReq}
    (h : Writers.fits cfg b r = false) : b.reqs ≠ [] := by
  intro hnil
  simp [Writers.fits, hnil] at h

theorem ShardOk.update {g : Nat → Shard} (hg : ∀ d, ShardOk (g d)) {w : Shard} (hw : ShardOk w)
    (d d' : Nat) : ShardOk (Function.update g d w d') := by
  rw [Function.update_apply]
  split
  · exact hw
  · exact hg d'

theorem ShardOk.enqueue {w : Shard} (hw : ShardOk w) (r : QReq) : ShardOk (w.enqueue r) :=
  ⟨hw.cur, hw.other⟩

theorem ShardOk.waiting {w : Shard} (hw : ShardOk w) (hbusy : w.cur.busy = true) :
    w.pc = .wait := by
  have hcur := hw.cur
  cases hpc : w.pc with
  | top => rw [hpc] at hcur; rw [show w.cur = .empty from hcur] at hbusy; cases hbusy
  | fill first =>
    rw [hpc] at hcur
    cases first with
    | none => rw [hcur.2] at hbusy; cases hbusy
    | some r => rw [show w.cur = .empty from hcur] at hbusy; cases hbusy
  | place r => rw [hpc] at hcur; rw [show w.cur.busy = false from hcur] at hbusy; cases hbusy
  | submit => rw [hpc] at hcur; rw [hcur.2] at hbusy; cases hbusy
  | wait => rfl

section ShardSteps

variable {cfg : WriterConfig} {w w' : Shard} {l : WLabel} {gone : List QReq}

theorem ShardOk.step (hw : ShardOk w) (h : ShardStep cfg w l w' gone) : ShardOk w' := by
  obtain ⟨hcur, hother⟩ := hw
  cases h with
  | pop hpc hring | dry hpc => rw [hpc] at hcur; exact ⟨hcur, hother⟩
  | poll hpc => exact ⟨hcur, hother⟩
  | full hpc hfull =>
    rename_i first _
    rw [hpc] at hcur
    cases first with
    | none => exact ⟨hcur, hother⟩
    | some r =>
      -- the first request finds an empty batch
      have hempty : w.cur = .empty := hcur
      rw [hempty] at hfull
      exact absurd hfull (not_batchFull_empty cfg)
  | first hpc =>
    rw [hpc] at hcur
    have hempty : w.cur = .empty := hcur
    refine ⟨?_, hother⟩
    show w.cur.busy = false
    rw [hempty]
    rfl
  | next hpc hring => rw [hpc] at hcur; exact ⟨hcur.2, hother⟩
  | add hpc hfits =>
    rw [hpc] at hcur
    exact ⟨⟨by simp [Batch.add], hcur⟩, hother⟩
  | back hpc hfits hroom | lose hpc hfits hroom =>
    rw [hpc] at hcur
    exact ⟨⟨reqs_ne_nil_of_not_fits hfits, hcur⟩, hother⟩
  | skip hpc hreqs => rw [hpc] at hcur; exact absurd hreqs hcur.1
  | submit hpc hbusy hreqs => exact ⟨hother, by simp [InFlight, hreqs]⟩
  | refuse hpc hbusy hreqs => exact ⟨rfl, hother⟩
  | swap hpc hbusy => exact ⟨rfl, hother⟩
  | reapCur hbusy =>
    refine ⟨?_, hother⟩
    rw [ShardOk.waiting ⟨hcur, hother⟩ hbusy]
    exact inFlight_empty
  | reapOther hbusy => exact ⟨hcur, inFlight_empty⟩

/-- A request was pushed back into a full ring. -/
def Loses (cfg : WriterConfig) (w : Shard) (l : WLabel) : Prop :=
  ∃ d r, l = .place d ∧ w.pc = .place r ∧ Writers.fits cfg w.cur r = false ∧
    ¬ w.ring.length < ringCap

/-- A shard loses no request other than those that end. -/
theorem held_of_step (hw : ShardOk w) (h : ShardStep cfg w l w' gone) (hl : ¬ Loses cfg w l) :
    w.held.Perm (gone ++ w'.held) := by
  obtain ⟨hcur, hother⟩ := hw
  cases h with
  | pop hpc hring | next hpc hring =>
    simp only [Shard.held, hpc, hring, Pc.hand]
    simpa using (perm_append_singleton _ _).symm.append_right _
  | poll hpc => exact Perm.refl _
  | full hpc hfull =>
    rename_i first _
    rw [hpc] at hcur
    cases first with
    | none => simp [Shard.held, hpc, Pc.hand]
    | some r =>
      have hempty : w.cur = .empty := hcur
      rw [hempty] at hfull
      exact absurd hfull (not_batchFull_empty cfg)
  | first hpc | dry hpc | back hpc hfits hroom | skip hpc hreqs => simp [Shard.held, hpc, Pc.hand]
  | add hpc hfits =>
    simp only [Shard.held, hpc, Pc.hand, Batch.add, nil_append, List.append_nil]
    refine Perm.append_right _ ?_
    rw [List.append_assoc]
    exact Perm.append_left _ perm_append_comm
  | lose hpc hfits hroom => exact absurd ⟨_, _, rfl, hpc, hfits, hroom⟩ hl
  | submit hpc hbusy hreqs =>
    simp only [Shard.held, hpc, Pc.hand, nil_append, List.append_nil, List.append_assoc]
    exact Perm.append_left _ perm_append_comm
  | refuse hpc hbusy hreqs =>
    simp only [Shard.held, hpc, Pc.hand, Batch.empty, List.append_nil, ← List.append_assoc]
    exact Perm.append_right _ perm_append_comm
  | swap hpc hbusy =>
    rw [hpc] at hcur
    have hnil : w.cur.reqs = [] := by
      by_contra hne
      rw [hcur.mpr hne] at hbusy
      cases hbusy
    simp [Shard.held, hpc, Pc.hand, Batch.empty, hnil]
  | reapCur hbusy =>
    simp only [Shard.held, Batch.empty, List.append_nil, ← List.append_assoc]
    refine Perm.append_right _ ?_
    rw [List.append_assoc w.cur.reqs]
    exact perm_append_comm
  | reapOther hbusy =>
    simp only [Shard.held, Batch.empty, List.append_nil]
    exact perm_append_comm

theorem countOf_le_of_step (hw : ShardOk w) (h : ShardStep cfg w l w' gone) (i : Nat) :
    countOf i gone + countOf i w'.held ≤ countOf i w.held := by
  by_cases hl : Loses cfg w l
  · obtain ⟨d, r, rfl, hpc, hfits, hfull⟩ := hl
    cases h with
    | add hpc' hfits' =>
      rw [hpc] at hpc'
      cases hpc'
      rw [hfits] at hfits'
      cases hfits'
    | back hpc' hfits' hroom => exact absurd hroom hfull
    | lose hpc' hfits' hroom =>
      simp only [Shard.held, hpc, Pc.hand, countOf_append]
      simp only [countOf, map_nil, count_nil]
      omega
  · have hcnt := countOf_perm (held_of_step hw h hl) i
    rw [countOf_append] at hcnt
    omega

def pcRank : Pc → Nat
  | .top => 3
  | .fill (some _) => 5
  | .fill none => 2
  | .place _ => 4
  | .submit => 0
  | .wait => 4

def batchRank (b : Batch) : Nat := if b.busy then b.reqs.length else 6 * b.reqs.length

/-- A rank that the work of the shard lowers. -/
def shardRank (w : Shard) : Nat :=
  9 * w.ring.length + 6 * w.pc.hand.length + batchRank w.cur + batchRank w.other + pcRank w.pc

/-- Every step of a shard but an idle poll lowers its rank. -/
theorem shardRank_lt (hw : ShardOk w) (h : ShardStep cfg w l w' gone)
    (hl : ∀ d, l ≠ .poll d) : shardRank w' < shardRank w := by
  obtain ⟨hcur, hother⟩ := hw
  cases h with
  | pop hpc hring | next hpc hring =>
    simp only [shardRank, hpc, hring, Pc.hand, pcRank, length_cons, length_nil]
    omega
  | poll hpc => exact absurd rfl (hl _)
  | full hpc hfull =>
    rename_i first _
    rw [hpc] at hcur
    cases first with
    | none =>
      simp only [shardRank, hpc, Pc.hand, pcRank]
      omega
    | some r =>
      have hempty : w.cur = .empty := hcur
      rw [hempty] at hfull
      exact absurd hfull (not_batchFull_empty cfg)
  | first hpc | dry hpc =>
    simp only [shardRank, hpc, Pc.hand, pcRank]
    omega
  | add hpc hfits =>
    rw [hpc] at hcur
    have hbusy : w.cur.busy = false := hcur
    simp only [shardRank, hpc, Pc.hand, pcRank, batchRank, Batch.add, hbusy, length_append,
      length_cons, length_nil, Bool.false_eq_true, if_false]
    omega
  | back hpc hfits hroom =>
    simp only [shardRank, hpc, Pc.hand, pcRank, length_append, length_cons, length_nil]
    omega
  | lose hpc hfits hroom =>
    simp only [shardRank, hpc, Pc.hand, pcRank, length_cons, length_nil]
    omega
  | skip hpc hreqs => rw [hpc] at hcur; exact absurd hreqs hcur.1
  | submit hpc hbusy hreqs =>
    have hpos := length_pos_iff.mpr hreqs
    simp only [shardRank, hpc, Pc.hand, pcRank, batchRank, hbusy, Bool.false_eq_true, if_false,
      if_true]
    omega
  | refuse hpc hbusy hreqs =>
    have hpos := length_pos_iff.mpr hreqs
    simp only [shardRank, hpc, Pc.hand, pcRank, batchRank, hbusy, Bool.false_eq_true, if_false,
      Batch.empty, length_nil]
    omega
  | swap hpc hbusy =>
    simp only [shardRank, hpc, Pc.hand, pcRank, batchRank, hbusy, Bool.false_eq_true, if_false,
      Batch.empty, length_nil]
    omega
  | reapCur hbusy =>
    have hpc : w.pc = .wait := ShardOk.waiting ⟨hcur, hother⟩ hbusy
    rw [hpc] at hcur
    have hpos := length_pos_iff.mpr (hcur.mp hbusy)
    simp only [shardRank, batchRank, hbusy, if_true, Batch.empty, length_nil,
      Bool.false_eq_true, if_false]
    omega
  | reapOther hbusy =>
    have hpos := length_pos_iff.mpr (hother.mp hbusy)
    simp only [shardRank, batchRank, hbusy, if_true, Batch.empty, length_nil,
      Bool.false_eq_true, if_false]
    omega

end ShardSteps

end KvTier.Analysis
