import KvTier.Analysis.StoreFacts
import KvTier.Analysis.WriterFacts

/-!
# Acknowledgements

Every request of a put is in one place: still to be pushed, in a ring, in a writer's hand, or in a
batch.
-/

namespace KvTier.Analysis

open Function KvTier.Lib KvTier.Model List

variable {d : Nat} {l : WLabel}

/-- A request that does not fit finds room in the ring. -/
def roomToPushBack (s : Writers) : WLabel → Bool
  | .place d =>
    match (s.shards d).pc with
    | .place r =>
      Writers.fits s.cfg (s.shards d).cur r || decide ((s.shards d).ring.length < ringCap)
    | _ => true
  | _ => true

/-- The condition on the steps of a run. -/
def RoomToPushBack (s : Writers) (l : WLabel) : Prop := roomToPushBack s l = true

/-! ## The balance -/

/-- Every issued put has as many references as requests, and one ack once it has none. -/
structure Balanced (s : Writers) : Prop where
  shards : ∀ d, ShardOk (s.shards d)
  devs : ∀ i, ∀ r ∈ (s.status i).todo, r.dev < s.cfg.nDevs
  later : ∀ i, s.nPuts ≤ i → s.status i = .failed
  pushing : ∀ i, s.status i ≠ .pushing []
  failed : ∀ i, s.status i = .failed →
    s.outstanding i = 0 ∧ (s.ctx i).refs ≤ 0 ∧ (s.ctx i).acks = []
  issued : ∀ i, s.status i ≠ .failed → (s.ctx i).refs = s.outstanding i ∧
    (s.ctx i).acks.length = if s.outstanding i = 0 then 1 else 0

theorem outstanding_setShard (s : Writers) (hd : d < s.cfg.nDevs) (w : Shard) (i : Nat) :
    (s.setShard d w).outstanding i + countOf i (s.shards d).held =
      s.outstanding i + countOf i w.held := by
  have hsum := sum_update (fun w : Shard => countOf i w.held) s.shards hd w
  simp only [Writers.outstanding, Writers.setShard]
  simp only [countOf] at hsum ⊢
  omega

theorem balanced_start (cfg : WriterConfig) : Balanced (Writers.start cfg) := by
  have hout : ∀ i, (Writers.start cfg).outstanding i = 0 := by
    intro i
    simp [Writers.outstanding, Writers.start, Shard.held, Pc.hand, Batch.empty, PutStatus.todo]
  refine ⟨fun d => ⟨rfl, inFlight_empty⟩, ?_, fun _ _ => rfl, ?_, ?_, ?_⟩
  · intro i r hr
    cases hr
  · intro i h
    cases h
  · exact fun i _ => ⟨hout i, Int.le_refl _, rfl⟩
  · intro i h
    exact absurd rfl h

theorem Balanced.writer {s s' : Writers} (hb : Balanced s) (hd : d < s.cfg.nDevs)
    (h : WriterStep s d l s') (hl : ¬ Loses s.cfg (s.shards d) l) : Balanced s' := by
  obtain ⟨w', gone, hstep, hs', hrel⟩ := h
  have hheld := held_of_step (hb.shards d) hstep hl
  have hstatus : s'.status = s.status := by rw [hs']; rfl
  have hcfg : s'.cfg = s.cfg := by rw [hs']; rfl
  have hputs : s'.nPuts = s.nPuts := by rw [hs']; rfl
  -- the open requests go down by those that were released
  have hout : ∀ i, s'.outstanding i + countOf i gone = s.outstanding i := by
    intro i
    have hset := outstanding_setShard s hd w' i
    have hcnt := countOf_perm hheld i
    rw [countOf_append] at hcnt
    have hsame : s'.outstanding i = (s.setShard d w').outstanding i := by rw [hs']; rfl
    omega
  refine ⟨?_, ?_, ?_, ?_, ?_, ?_⟩
  · rw [hs']
    exact ShardOk.update hb.shards ((hb.shards d).step hstep) d
  · rw [hstatus, hcfg]
    exact hb.devs
  · rw [hstatus, hputs]
    exact hb.later
  · rw [hstatus]
    exact hb.pushing
  · intro i hi
    rw [hstatus] at hi
    obtain ⟨h0, hrefs, hacks⟩ := hb.failed i hi
    have hzero := hout i
    refine ⟨by omega, ?_, ?_⟩
    · rw [hrel.refs i]
      omega
    · have hlen := hrel.acks i
      rw [if_neg (by omega), hacks] at hlen
      exact length_eq_zero_iff.mp hlen
  intro i hi
  rw [hstatus] at hi
  obtain ⟨hrefs, hacks⟩ := hb.issued i hi
  have hrest := hout i
  refine ⟨by rw [hrel.refs i]; omega, ?_⟩
  rw [hrel.acks i, hacks, hrefs]
  by_cases hopen : s.outstanding i = 0
  · rw [if_pos hopen, if_neg (by omega), if_pos (by omega)]
  rw [if_neg hopen]
  by_cases hlast : s'.outstanding i = 0
  · rw [if_pos (by omega), if_pos hlast]
  · rw [if_neg (by omega), if_neg hlast]

theorem cachePutReqs_ne_nil {cfg : Config} {a : PutArgs} {ver : Nat} {shape : Shape}
    {reqs : List PutReq} (h : cachePutReqs cfg a ver shape = some reqs) : reqs ≠ [] := by
  unfold cachePutReqs at h
  split at h
  · cases h
  split at h
  · simp only at h
    split at h
    · cases h
    rename_i n hn
    split at h
    · cases h
    cases h
    have hpos : 0 < n := by
      unfold stripeSplit at hn
      simp only at hn
      split at hn
      · cases hn
      · cases hn
        split <;> omega
    intro hnil
    rw [map_eq_nil_iff, range_eq_nil] at hnil
    omega
  split at h
  · cases h
    simp
  · cases h
    simp

theorem Balanced.addPut {s : Writers} (hb : Balanced s) {st : PutStatus} {c : Latch AckErr}
    (hdev : ∀ r ∈ st.todo, r.dev < s.cfg.nDevs) (hacks : c.acks = [])
    (hst : (st = .failed ∧ c.refs ≤ 0) ∨ (st.todo ≠ [] ∧ c.refs = st.todo.length)) :
    Balanced (s.addPut st c) := by
  have hnew := (hb.failed _ (hb.later s.nPuts (Nat.le_refl _))).1
  -- no writer has a request of the new put yet
  have hout : ∀ i, (s.addPut st c).outstanding i =
      if i = s.nPuts then st.todo.length else s.outstanding i := by
    intro i
    simp only [Writers.outstanding, Writers.addPut] at hnew ⊢
    by_cases hi : i = s.nPuts
    · subst hi
      rw [if_pos rfl, update_self]
      omega
    · rw [if_neg hi, update_of_ne hi]
  have hstatus : ∀ i, (s.addPut st c).status i = if i = s.nPuts then st else s.status i := by
    intro i
    simp only [Writers.addPut, update_apply]
  have hctx : ∀ i, (s.addPut st c).ctx i = if i = s.nPuts then c else s.ctx i := by
    intro i
    simp only [Writers.addPut, update_apply]
  refine ⟨hb.shards, ?_, ?_, ?_, ?_, ?_⟩
  · intro i r hr
    rw [hstatus] at hr
    split at hr
    · exact hdev r hr
    · exact hb.devs i r hr
  · intro i hi
    have hi : s.nPuts + 1 ≤ i := hi
    rw [hstatus, if_neg (by omega)]
    exact hb.later i (by omega)
  · intro i hi
    rw [hstatus] at hi
    split at hi
    · rcases hst with ⟨rfl, _⟩ | ⟨hne, _⟩
      · cases hi
      · rw [hi] at hne
        exact hne rfl
    · exact hb.pushing i hi
  · intro i hi
    rw [hstatus] at hi
    rw [hout, hctx]
    split at hi
    · rename_i hnp
      subst hi
      rw [if_pos hnp, if_pos hnp]
      rcases hst with ⟨_, hrefs⟩ | ⟨hne, _⟩
      · exact ⟨rfl, hrefs, hacks⟩
      · exact absurd rfl hne
    · rename_i hnp
      rw [if_neg hnp, if_neg hnp]
      exact hb.failed i hi
  intro i hi
  rw [hstatus] at hi
  rw [hout, hctx]
  split at hi
  · rename_i hnp
    rw [if_pos hnp, if_pos hnp]
    rcases hst with ⟨hf, _⟩ | ⟨hne, hrefs⟩
    · exact absurd hf hi
    · have := length_pos_iff.mpr hne
      rw [if_neg (by omega), hacks]
      exact ⟨hrefs, rfl⟩
  · rename_i hnp
    rw [if_neg hnp, if_neg hnp]
    exact hb.issued i hi

theorem Balanced.put {s : Writers} (hb : Balanced s) (a : PutArgs) (ver : Nat) (shape : Shape) :
    Balanced (s.put a ver shape) := by
  unfold Writers.put
  simp only
  split
  · exact hb.addPut (fun r hr => by cases hr) rfl (Or.inl ⟨rfl, Int.le_refl _⟩)
  cases hreqs : cachePutReqs s.cfg.toConfig a ver shape with
  | none => exact hb.addPut (fun r hr => by cases hr) rfl (Or.inl ⟨rfl, by decide⟩)
  | some reqs =>
    refine hb.addPut ?_ rfl (Or.inr ⟨cachePutReqs_ne_nil hreqs, rfl⟩)
    intro r hr
    exact (mem_cachePutReqs (by rw [hreqs]; exact hr)).2.2.2.2.2 s.cfg.devsPos

theorem push_cases {s s' : Writers} {i : Nat} (h : s.push i = some s') :
    ∃ r todo, s.status i = .pushing (r :: todo) ∧ i < s.nPuts ∧
      (s.shards r.dev).ring.length < ringCap ∧ s' = s.pushed i r todo := by
  unfold Writers.push at h
  split at h
  · rename_i r todo hst
    split at h
    · rename_i hroom
      exact ⟨r, todo, hst, hroom.1, hroom.2, (Option.some.inj h).symm⟩
    · cases h
  · cases h

theorem after_cases (todo : List PutReq) :
    (PutStatus.after todo).todo = todo ∧ PutStatus.after todo ≠ .failed ∧
      PutStatus.after todo ≠ .pushing [] := by
  unfold PutStatus.after
  split
  · rename_i hnil
    exact ⟨hnil.symm, by simp, by simp⟩
  · rename_i hne
    exact ⟨rfl, by simp, by simpa using hne⟩

theorem countOf_enqueue (w : Shard) (i j : Nat) (r : PutReq) :
    countOf j (w.enqueue ⟨i, r⟩).held = countOf j w.held + if j = i then 1 else 0 := by
  simp only [Shard.held, Shard.enqueue, countOf_append]
  have hone : countOf j [⟨i, r⟩] = if j = i then 1 else 0 := by
    by_cases hj : j = i
    · simp [countOf, hj]
    · simp [countOf, hj, count_cons_of_ne (fun h : i = j => hj h.symm)]
  omega

section Push

variable {s : Writers} {i : Nat} {r : PutReq} {todo : List PutReq}

theorem status_pushed (j : Nat) :
    (s.pushed i r todo).status j = if j = i then .after todo else s.status j := by
  simp only [Writers.pushed, update_apply]

theorem outstanding_pushed (hst : s.status i = .pushing (r :: todo)) (hdev : r.dev < s.cfg.nDevs)
    (j : Nat) : (s.pushed i r todo).outstanding j = s.outstanding j := by
  have hset := outstanding_setShard s hdev ((s.shards r.dev).enqueue ⟨i, r⟩) j
  rw [countOf_enqueue] at hset
  have hstatus : (s.pushed i r todo).status j = _ := status_pushed j
  have hsum : (s.pushed i r todo).outstanding j + (s.status j).todo.length =
      (s.setShard r.dev ((s.shards r.dev).enqueue ⟨i, r⟩)).outstanding j +
        ((s.pushed i r todo).status j).todo.length := by
    simp only [Writers.outstanding, Writers.pushed, Writers.setShard]
    omega
  rw [hstatus] at hsum
  by_cases hj : j = i
  · subst hj
    rw [if_pos rfl, (after_cases todo).1, hst] at hsum
    simp only [PutStatus.todo, length_cons, if_true] at hsum hset
    omega
  · rw [if_neg hj] at hsum hset
    omega

theorem Balanced.pushed (hb : Balanced s) (hst : s.status i = .pushing (r :: todo))
    (hi : i < s.nPuts) : Balanced (s.pushed i r todo) := by
  obtain ⟨htodo, hnf, hne⟩ := after_cases todo
  have hdev : r.dev < s.cfg.nDevs := hb.devs i r (by rw [hst]; exact mem_cons_self)
  refine ⟨ShardOk.update hb.shards ((hb.shards _).enqueue _) r.dev, ?_, ?_, ?_, ?_, ?_⟩
  · intro j x hx
    rw [status_pushed] at hx
    split at hx
    · rw [htodo] at hx
      exact hb.devs i x (by rw [hst]; exact mem_cons_of_mem _ hx)
    · exact hb.devs j x hx
  · intro j hj
    have hj : s.nPuts ≤ j := hj
    rw [status_pushed, if_neg (by omega)]
    exact hb.later j hj
  · intro j hj
    rw [status_pushed] at hj
    split at hj
    · exact hne hj
    · exact hb.pushing j hj
  · intro j hj
    rw [outstanding_pushed hst hdev]
    rw [status_pushed] at hj
    split at hj
    · exact absurd hj hnf
    · exact hb.failed j hj
  intro j hj
  rw [outstanding_pushed hst hdev]
  refine hb.issued j fun hf => ?_
  rw [status_pushed] at hj
  split at hj
  · rename_i hji
    rw [hji, hst] at hf
    cases hf
  · exact hj hf

end Push

theorem writers_step_cases {s s' : Writers} (h : s.step l = some s') :
    (∃ a ver shape, l = .put a ver shape ∧ s' = s.put a ver shape) ∨
    (∃ i, l = .push i ∧ s.push i = some s') ∨
    ∃ d, d < s.cfg.nDevs ∧ Writers.shardOf l = some d ∧ WriterStep s d l s' := by
  cases l with
  | put a ver shape => exact Or.inl ⟨a, ver, shape, rfl, (Option.some.inj h).symm⟩
  | push i => exact Or.inr (Or.inl ⟨i, rfl, h⟩)
  | _ =>
    simp only [Writers.step, Writers.shardOf] at h
    split at h
    · rename_i hd
      exact Or.inr (Or.inr ⟨_, hd, rfl, writerStep_cases rfl h⟩)
    · cases h

theorem shard_of_step {s s' : Writers} (h : s.step l = some s') (d : Nat) :
    (∃ gone, Writers.shardOf l = some d ∧ ShardStep s.cfg (s.shards d) l (s'.shards d) gone) ∨
      s'.shards d = s.shards d ∨ ∃ r, s'.shards d = (s.shards d).enqueue r := by
  rcases writers_step_cases h with ⟨a, ver, shape, _, rfl⟩ | ⟨i, _, hpush⟩ | ⟨d', _, hl, hw⟩
  · refine .inr (.inl ?_)
    unfold Writers.put
    simp only
    split
    · rfl
    · split <;> rfl
  · obtain ⟨r, todo, _, _, _, rfl⟩ := push_cases hpush
    by_cases hd : d = r.dev
    · subst hd
      exact .inr (.inr ⟨_, update_self ..⟩)
    · exact .inr (.inl (update_of_ne hd ..))
  obtain ⟨w', gone, hstep, heq, _⟩ := hw
  rw [heq]
  by_cases hd : d = d'
  · subst hd
    refine .inl ⟨gone, hl, ?_⟩
    simp only [Writers.setShard, update_self]
    exact hstep
  · exact .inr (.inl (update_of_ne hd ..))

theorem Balanced.step {s s' : Writers} (hb : Balanced s) (hok : RoomToPushBack s l)
    (h : s.step l = some s') : Balanced s' := by
  rcases writers_step_cases h with ⟨a, ver, shape, _, rfl⟩ | ⟨i, _, hpush⟩ | ⟨d, hd, hl, hw⟩
  · exact hb.put a ver shape
  · obtain ⟨r, todo, hst, hi, _, rfl⟩ := push_cases hpush
    exact hb.pushed hst hi
  refine hb.writer hd hw ?_
  rintro ⟨d', r, rfl, hpc, hfits, hfull⟩
  obtain rfl : d' = d := Option.some.inj hl
  rw [RoomToPushBack, roomToPushBack, hpc] at hok
  simp only [hfits, Bool.false_or, decide_eq_true_eq] at hok
  exact hfull hok

/-! ## The acknowledgement comes -/

/-- A step other than a put and a poll. -/
def Work : WLabel → Prop
  | .put _ _ _ => False
  | .poll _ => False
  | _ => True

/-- A bound on the work that is left. -/
def rank (s : Writers) : Nat :=
  (∑ i ∈ Finset.range s.nPuts, 10 * (s.status i).todo.length) +
    ∑ d ∈ Finset.range s.cfg.nDevs, shardRank (s.shards d)

/-- Work done is less work left. -/
theorem rank_lt {s s' : Writers} (hb : Balanced s) (hw : Work l) (h : s.step l = some s') :
    rank s' < rank s := by
  rcases writers_step_cases h with ⟨a, ver, shape, rfl, _⟩ | ⟨i, _, hpush⟩ | ⟨d, hd, _, hstep⟩
  · exact absurd hw id
  · obtain ⟨r, todo, hst, hi, _, rfl⟩ := push_cases hpush
    have hdev : r.dev < s.cfg.nDevs := hb.devs i r (by rw [hst]; exact mem_cons_self)
    have hstatus := sum_update (fun st : PutStatus => 10 * st.todo.length) s.status hi
      (.after todo)
    have hshard := sum_update shardRank s.shards hdev ((s.shards r.dev).enqueue ⟨i, r⟩)
    have hring : shardRank ((s.shards r.dev).enqueue ⟨i, r⟩) = shardRank (s.shards r.dev) + 9 := by
      simp only [shardRank, Shard.enqueue, length_append, length_cons, length_nil]
      omega
    have hlen : (s.status i).todo.length = todo.length + 1 := by
      rw [hst]
      rfl
    rw [(after_cases todo).1, hlen] at hstatus
    simp only [rank, Writers.pushed, Writers.setShard]
    omega
  obtain ⟨w', gone, hsh, hs', _⟩ := hstep
  have hlt := shardRank_lt (hb.shards d) hsh fun d' hd' => by
    rw [hd'] at hw
    exact hw
  have hshard := sum_update shardRank s.shards hd w'
  rw [hs']
  simp only [rank, Writers.setShard]
  omega

/-- No work is left that could be done. -/
def Stuck (s : Writers) : Prop := ∀ l, Work l → s.step l = none

/-- A system with no work left holds no request. -/
theorem Stuck.held {s : Writers} (hb : Balanced s) (hs : Stuck s) (hd : d < s.cfg.nDevs) :
    (s.shards d).held = [] := by
  have hok := hb.shards d
  have hcan : ∀ l, Work l → Writers.shardOf l = some d → s.writerStep d l = none := by
    intro l hw hl
    have hnone := hs l hw
    cases l <;> cases hl <;>
      simpa only [Writers.step, Writers.shardOf, hd, if_true] using hnone
  have hother : (s.shards d).other.reqs = [] := by
    by_contra hne
    have hreap := hcan (.complete d false false []) trivial rfl
    simp only [Writers.writerStep, Writers.complete, Bool.false_eq_true, if_false,
      hok.other.mpr hne, if_true] at hreap
    cases hreap
  have hcur := hok.cur
  cases hpc : (s.shards d).pc with
  | top =>
    rw [hpc] at hcur
    have hempty : (s.shards d).cur = .empty := hcur
    cases hring : (s.shards d).ring with
    | nil => simp [Shard.held, hring, hpc, Pc.hand, hempty, Batch.empty, hother]
    | cons r ring =>
      have hpop := hcan (.pop d) trivial rfl
      simp only [Writers.writerStep, hpc, hring] at hpop
      cases hpop
  | fill first =>
    have hfill := hcan (.fill d false) trivial rfl
    simp only [Writers.writerStep, hpc, Writers.fillStep, Option.map_eq_none_iff] at hfill
    split at hfill
    · cases hfill
    · cases first <;> cases hfill
  | place r =>
    have hplace := hcan (.place d) trivial rfl
    simp only [Writers.writerStep, hpc] at hplace
    cases hplace
  | submit =>
    rw [hpc] at hcur
    have hsubmit := hcan (.submit d true) trivial rfl
    simp only [Writers.writerStep, hpc, if_true, Writers.submitStep, hcur.2, Bool.false_eq_true,
      if_false, hcur.1] at hsubmit
    cases hsubmit
  | wait =>
    cases hbusy : (s.shards d).cur.busy with
    | true =>
      have hreap := hcan (.complete d true false []) trivial rfl
      simp only [Writers.writerStep, Writers.complete, if_true, hbusy] at hreap
      cases hreap
    | false =>
      have hswap := hcan (.swap d) trivial rfl
      simp only [Writers.writerStep, hpc, hbusy, and_self, if_true] at hswap
      cases hswap

/-- Where no work is left nothing is open. -/
theorem Stuck.outstanding {s : Writers} (hb : Balanced s) (hs : Stuck s) (i : Nat) :
    s.outstanding i = 0 ∧ (s.status i).todo = [] := by
  have htodo : (s.status i).todo = [] := by
    cases hst : s.status i with
    | failed => rfl
    | returned => rfl
    | pushing todo =>
      cases todo with
      | nil => exact absurd hst (hb.pushing i)
      | cons r todo =>
        -- its ring is empty, so the push is not blocked
        have hdev : r.dev < s.cfg.nDevs := hb.devs i r (by rw [hst]; exact mem_cons_self)
        have hheld := hs.held hb hdev
        have hring : (s.shards r.dev).ring = [] := by
          simp only [Shard.held, append_eq_nil_iff] at hheld
          exact hheld.1.1.1
        have hi : i < s.nPuts := by
          by_contra hge
          rw [hb.later i (by omega)] at hst
          cases hst
        have hnone := hs (.push i) trivial
        simp only [Writers.step, Writers.push, hst, hring, length_nil, hi, true_and] at hnone
        rw [if_pos (by decide)] at hnone
        cases hnone
  refine ⟨?_, htodo⟩
  rw [Writers.outstanding, htodo, length_nil, Nat.zero_add]
  refine Finset.sum_eq_zero fun d hd => ?_
  rw [hs.held hb (Finset.mem_range.mp hd)]
  rfl

/-- Acknowledgement is exactly once. In every run in which a request is pushed back only into a ring
with room, no put is acknowledged twice, none before all its requests were completed or failed, and
none that returned an error; and from every state of such a run the work on the requests that are
there ends, after at most `rank` steps, with every accepted put acknowledged. -/
theorem put_acked_exactly_once {cfg : WriterConfig} {ls : List WLabel} {s : Writers}
    (h : RunOf Writers.step RoomToPushBack (Writers.start cfg) ls s) (i : Nat) :
    (s.ctx i).acks.length ≤ 1 ∧
    ((s.ctx i).acks ≠ [] → s.status i = .returned ∧ s.outstanding i = 0) ∧
    (s.status i = .failed → (s.ctx i).acks = []) ∧
    (s.status i ≠ .failed → (s.ctx i).acks = [] → 0 < s.outstanding i) ∧
    ∀ ls' s', RunOf Writers.step (fun s l => RoomToPushBack s l ∧ Work l) s ls' s' →
      ls'.length ≤ rank s ∧
        (Stuck s' → s'.status i ≠ .failed →
          s'.status i = .returned ∧ (s'.ctx i).acks.length = 1) := by
  have hb : Balanced s :=
    RunOf.invariant Balanced (fun _ _ _ hb hok hst => hb.step hok hst) h (balanced_start cfg)
  refine ⟨?_, ?_, fun hf => (hb.failed i hf).2.2, ?_, ?_⟩
  · by_cases hf : s.status i = .failed
    · rw [(hb.failed i hf).2.2]
      exact Nat.zero_le 1
    · rw [(hb.issued i hf).2]
      split <;> omega
  · intro hne
    have hf : s.status i ≠ .failed := fun hf => hne (hb.failed i hf).2.2
    have hacks := (hb.issued i hf).2
    have hout : s.outstanding i = 0 := by
      by_contra h0
      rw [if_neg h0] at hacks
      exact hne (length_eq_zero_iff.mp hacks)
    refine ⟨?_, hout⟩
    cases hst : s.status i with
    | failed => exact absurd hst hf
    | returned => rfl
    | pushing todo =>
      have htodo : todo ≠ [] := by
        rintro rfl
        exact hb.pushing i hst
      have hpos := length_pos_iff.mpr htodo
      rw [Writers.outstanding, hst] at hout
      simp only [PutStatus.todo] at hout
      omega
  · intro hf hnil
    have hacks := (hb.issued i hf).2
    rw [hnil] at hacks
    by_contra h0
    rw [if_pos (by omega)] at hacks
    cases hacks
  intro ls' s' hrun
  clear h
  induction hrun with
  | nil s =>
    refine ⟨Nat.zero_le _, fun hst hf => ?_⟩
    obtain ⟨hout, htodo⟩ := hst.outstanding hb i
    have hacks := (hb.issued i hf).2
    rw [if_pos hout] at hacks
    refine ⟨?_, hacks⟩
    cases hs : s.status i with
    | failed => exact absurd hs hf
    | returned => rfl
    | pushing todo =>
      rw [hs] at htodo
      rw [show todo = [] from htodo] at hs
      exact absurd hs (hb.pushing i)
  | cons hok hstep _ ih =>
    obtain ⟨hlen, hend⟩ := ih (hb.step hok.1 hstep)
    refine ⟨?_, hend⟩
    have hlt := rank_lt hb hok.2 hstep
    simp only [length_cons]
    omega

theorem cfg_shards_step {s s' : Writers} (hsh : ∀ d, ShardOk (s.shards d)) (h : s.step l = some s') :
    s'.cfg = s.cfg ∧ ∀ d, ShardOk (s'.shards d) := by
  rcases writers_step_cases h with ⟨a, ver, shape, _, rfl⟩ | ⟨j, _, hpush⟩ | ⟨d, _, _, hstep⟩
  · unfold Writers.put
    simp only
    split
    · exact ⟨rfl, hsh⟩
    · split <;> exact ⟨rfl, hsh⟩
  · obtain ⟨r, todo, _, _, _, rfl⟩ := push_cases hpush
    exact ⟨rfl, ShardOk.update hsh ((hsh _).enqueue _) r.dev⟩
  · obtain ⟨w', gone, hw, hs', _⟩ := hstep
    rw [hs']
    exact ⟨rfl, ShardOk.update hsh ((hsh d).step hw) d⟩

/-! ## One run that acknowledges, and one that does not -/

/-- Follow labels as long as each meets the condition. -/
def checkedRun (s : Writers) (ls : List WLabel) : Option Writers :=
  ls.foldlM (fun s l => if roomToPushBack s l then s.step l else none) s

theorem runOf_checkedRun {s s' : Writers} {ls : List WLabel} (h : checkedRun s ls = some s') :
    RunOf Writers.step RoomToPushBack s ls s' := by
  induction ls generalizing s with
  | nil => cases h; exact .nil _
  | cons l ls ih =>
    simp only [checkedRun, foldlM_cons, Option.bind_eq_bind, Option.bind_eq_some_iff] at h
    obtain ⟨s1, h1, h2⟩ := h
    split at h1
    · rename_i hok
      exact .cons hok h1 (ih h2)
    · cases h1

def oneWriter : WriterConfig where
  nDevs := 1
  regionCnt := 2
  regionSizePages := 64
  journalPages := 4
  stripeThreshold := 65536
  stripeUnit := 65536
  maxLayers := 256
  batchMinBytes := 65536
  devsPos := by decide
  minPos := by decide

/-- A put of one record of `len` bytes. -/
def recordPut (len : Nat) : PutArgs := ⟨0, 0, [1], 0, [len], false, 0⟩

/-- A put of 15 pages is written and acknowledged. -/
def ackedWrite : List WLabel :=
  [.put (recordPut 61440) 1 ⟨0, [61440]⟩, .push 0, .pop 0, .fill 0 false, .place 0, .fill 0 false,
    .submit 0 true, .swap 0, .complete 0 false false []]

/-- The put is acknowledged once, with no error. -/
theorem put_acked_once :
    ∃ s, RunOf Writers.step RoomToPushBack (Writers.start oneWriter) ackedWrite s ∧
      s.status 0 = .returned ∧ (s.ctx 0).acks = [none] ∧ (s.ctx 0).acks.length ≤ 1 := by
  have hsome : (checkedRun (Writers.start oneWriter) ackedWrite).map
      (fun s => (s.status 0, (s.ctx 0).acks)) = some (.returned, [none]) := by
    decide +kernel
  obtain ⟨s, hs, hval⟩ := Option.map_eq_some_iff.mp hsome
  have hrun := runOf_checkedRun hs
  refine ⟨s, hrun, congrArg Prod.fst hval, congrArg Prod.snd hval, ?_⟩
  exact (put_acked_exactly_once hrun 0).1

/-- Put `i` has returned, has no request left and was not acked. -/
structure Forgotten (i : Nat) (s : Writers) : Prop where
  shards : ∀ d, ShardOk (s.shards d)
  put : i < s.nPuts
  status : s.status i = .returned
  outstanding : s.outstanding i = 0
  acks : (s.ctx i).acks = []

theorem Forgotten.step {i : Nat} {s s' : Writers} (hf : Forgotten i s) (h : s.step l = some s') :
    Forgotten i s' := by
  rcases writers_step_cases h with ⟨a, ver, shape, _, rfl⟩ | ⟨j, _, hpush⟩ | ⟨d, hd, _, hstep⟩
  · -- a new put is another one
    have hadd : ∀ st c, Forgotten i (s.addPut st c) := by
      intro st c
      have hne : i ≠ s.nPuts := Nat.ne_of_lt hf.put
      have hst : (s.addPut st c).status i = s.status i := update_of_ne hne _ _
      have hctx : (s.addPut st c).ctx i = s.ctx i := update_of_ne hne _ _
      refine ⟨hf.shards, Nat.lt_succ_of_lt hf.put, hst.trans hf.status, ?_, ?_⟩
      · have hout := hf.outstanding
        simp only [Writers.outstanding, hst] at hout ⊢
        exact hout
      · rw [hctx]
        exact hf.acks
    unfold Writers.put
    simp only
    split
    · exact hadd _ _
    · split
      · exact hadd _ _
      · exact hadd _ _
  · obtain ⟨r, todo, hst, _, _, rfl⟩ := push_cases hpush
    have hne : i ≠ j := by
      rintro rfl
      rw [hf.status] at hst
      cases hst
    have hstat : (s.pushed j r todo).status i = s.status i := by
      rw [status_pushed, if_neg hne]
    refine ⟨ShardOk.update hf.shards ((hf.shards _).enqueue _) r.dev, hf.put,
      hstat.trans hf.status, ?_, hf.acks⟩
    · have hout := hf.outstanding
      simp only [Writers.outstanding, hstat] at hout ⊢
      rw [Nat.add_eq_zero_iff, Finset.sum_eq_zero_iff] at hout ⊢
      refine ⟨hout.1, fun d hd => ?_⟩
      have hzero := hout.2 d hd
      show countOf i (update s.shards r.dev _ d).held = 0
      by_cases hdd : d = r.dev
      · subst hdd
        rw [update_self, countOf_enqueue, if_neg hne]
        exact hzero
      · rw [update_of_ne hdd]
        exact hzero
  obtain ⟨w', gone, hsh, hs', hrel⟩ := hstep
  have hle := countOf_le_of_step (hf.shards d) hsh i
  have hset := outstanding_setShard s hd w' i
  have hout := hf.outstanding
  have hheld : countOf i (s.shards d).held = 0 := by
    rw [Writers.outstanding, Nat.add_eq_zero_iff, Finset.sum_eq_zero_iff] at hout
    exact hout.2 d (Finset.mem_range.mpr hd)
  have hsame : s'.outstanding i = (s.setShard d w').outstanding i := by rw [hs']; rfl
  refine ⟨?_, ?_, ?_, by omega, ?_⟩
  · rw [hs']
    exact ShardOk.update hf.shards ((hf.shards d).step hsh) d
  · rw [hs']
    exact hf.put
  · rw [hs']
    exact hf.status
  · have hlen := hrel.acks i
    rw [if_neg (by omega), hf.acks] at hlen
    exact length_eq_zero_iff.mp hlen

/-- The one request of a put of 15 pages. -/
def refillReq : PutReq := plainReq oneWriter.toConfig (recordPut 61440) 1 ⟨0, [61440]⟩ Flags.empty 0

def refill : Nat → Nat → List WLabel
  | _, 0 => []
  | k, n + 1 => .put (recordPut 61440) 1 ⟨0, [61440]⟩ :: .push k :: refill (k + 1) n

/-- Some puts were added behind the ones that are there. -/
structure Refilled (s s' : Writers) (n : Nat) : Prop where
  cfg : s'.cfg = s.cfg
  puts : s.nPuts ≤ s'.nPuts
  ring : ∃ added, s'.shards 0 = { s.shards 0 with ring := (s.shards 0).ring ++ added } ∧
    added.length = n ∧ ∀ r ∈ added, s.nPuts ≤ r.put
  old : ∀ i, i < s.nPuts → s'.status i = s.status i ∧ s'.ctx i = s.ctx i

theorem exists_refilled {s : Writers} (hcfg : s.cfg = oneWriter) {n : Nat}
    (hroom : (s.shards 0).ring.length + n ≤ ringCap) :
    ∃ s', RunOf Writers.step (fun _ _ => True) s (refill s.nPuts n) s' ∧ Refilled s s' n := by
  induction n generalizing s with
  | zero => exact ⟨s, .nil s, rfl, Nat.le_refl _, ⟨[], by simp, rfl, by simp⟩, fun _ _ => ⟨rfl, rfl⟩⟩
  | succ n ih =>
    have hreqs : cachePutReqs s.cfg.toConfig (recordPut 61440) 1 ⟨0, [61440]⟩ = some [refillReq] := by
      rw [hcfg]
      decide +kernel
    have hadm : ¬ (maxGroups ≤ (recordPut 61440).groupIdx ∨
        s.cfg.maxLayers < (recordPut 61440).lens.length) := by
      rw [hcfg]
      decide
    have hput : s.put (recordPut 61440) 1 ⟨0, [61440]⟩ =
        s.addPut (.pushing [refillReq]) ⟨1, none, []⟩ := by
      simp only [Writers.put]
      rw [if_neg hadm, hreqs]
      rfl
    have hpush : (s.addPut (.pushing [refillReq]) ⟨1, none, []⟩).push s.nPuts =
        some ((s.addPut (.pushing [refillReq]) ⟨1, none, []⟩).pushed s.nPuts refillReq []) := by
      have hst : (s.addPut (.pushing [refillReq]) ⟨1, none, []⟩).status s.nPuts =
          .pushing [refillReq] := update_self _ _ _
      have hdev : refillReq.dev = 0 := by decide +kernel
      simp only [Writers.push, hst, hdev]
      rw [if_pos ⟨Nat.lt_succ_self _, show (s.shards 0).ring.length < ringCap by omega⟩]
    generalize hs1 : (s.addPut (.pushing [refillReq]) ⟨1, none, []⟩).pushed s.nPuts refillReq [] = s1
      at hpush
    have hdev : refillReq.dev = 0 := by decide +kernel
    have hshard : s1.shards 0 = (s.shards 0).enqueue ⟨s.nPuts, refillReq⟩ := by
      rw [← hs1]
      simp only [Writers.pushed, Writers.setShard, hdev, update_self]
      rfl
    have hnp : s1.nPuts = s.nPuts + 1 := by
      rw [← hs1]
      rfl
    have hold : ∀ i, i < s.nPuts → s1.status i = s.status i ∧ s1.ctx i = s.ctx i := by
      intro i hi
      have hne : i ≠ s.nPuts := Nat.ne_of_lt hi
      rw [← hs1]
      refine ⟨?_, update_of_ne hne _ _⟩
      rw [status_pushed, if_neg hne]
      exact update_of_ne hne _ _
    obtain ⟨s', hrun, hre⟩ := ih (s := s1) (by rw [← hs1]; exact hcfg) (by
      rw [hshard]
      simp only [Shard.enqueue, length_append, length_cons, length_nil]
      omega)
    rw [hnp] at hrun
    refine ⟨s', .cons trivial (congrArg some hput) (.cons trivial hpush hrun), ?_, ?_, ?_, ?_⟩
    · rw [hre.cfg, ← hs1]
      rfl
    · have := hre.puts
      omega
    · obtain ⟨added, hring, hlen, hlate⟩ := hre.ring
      refine ⟨⟨s.nPuts, refillReq⟩ :: added, ?_, by simp [hlen], ?_⟩
      · rw [hring, hshard]
        simp [Shard.enqueue]
      intro r hr
      rcases mem_cons.mp hr with rfl | hr
      · exact Nat.le_refl _
      · have := hlate r hr
        omega
    intro i hi
    obtain ⟨h1, h2⟩ := hre.old i (by omega)
    obtain ⟨h3, h4⟩ := hold i hi
    exact ⟨h1.trans h3, h2.trans h4⟩

def takeLarge : List WLabel :=
  [.put (recordPut 61440) 1 ⟨0, [61440]⟩, .push 0, .put (recordPut 65536) 2 ⟨1, [65536]⟩, .push 1,
    .pop 0, .fill 0 false, .place 0, .fill 0 true]

/-- The second put of the run. -/
def largeReq : QReq :=
  ⟨1, plainReq oneWriter.toConfig (recordPut 65536) 2 ⟨1, [65536]⟩ Flags.empty 0⟩

theorem takeLarge_run :
    ∃ s, RunOf Writers.step (fun _ _ => True) (Writers.start oneWriter) takeLarge s ∧
      s.nPuts = 2 ∧ s.shards 0 = ⟨[], .place largeReq, ⟨[⟨0, refillReq⟩], 61440, false⟩, .empty⟩ ∧
      s.status 1 = .returned ∧ (s.ctx 1).acks = [] := by
  have hsome : (checkedRun (Writers.start oneWriter) takeLarge).map
      (fun s => (s.nPuts, s.shards 0, s.status 1, (s.ctx 1).acks)) =
      some (2, ⟨[], .place largeReq, ⟨[⟨0, refillReq⟩], 61440, false⟩, .empty⟩, .returned, []) := by
    decide +kernel
  obtain ⟨s, hs, hval⟩ := Option.map_eq_some_iff.mp hsome
  simp only [Prod.mk.injEq] at hval
  exact ⟨s, (runOf_checkedRun hs).mono fun _ _ _ => trivial, hval.1, hval.2.1, hval.2.2.1,
    hval.2.2.2⟩

/-- While the writer has the large request in its hand, producers fill the ring; the push back
fails, and the put is never acknowledged. -/
theorem pushed_back_request_lost :
    ∃ ls s, RunOf Writers.step (fun _ _ => True) (Writers.start oneWriter) ls s ∧
      s.status 1 = .returned ∧
      ∀ ls' s', RunOf Writers.step (fun _ _ => True) s ls' s' → (s'.ctx 1).acks = [] := by
  obtain ⟨s0, hrun0, hputs, hshard, hstat, hacks⟩ := takeLarge_run
  obtain ⟨hcfg, hok⟩ : s0.cfg = oneWriter ∧ ∀ d, ShardOk (s0.shards d) := by
    refine RunOf.invariant (fun s => s.cfg = oneWriter ∧ ∀ d, ShardOk (s.shards d)) ?_ hrun0
      ⟨rfl, (balanced_start oneWriter).shards⟩
    rintro s l s' ⟨hc, hsh⟩ _ hst
    obtain ⟨h1, h2⟩ := cfg_shards_step hsh hst
    exact ⟨h1.trans hc, h2⟩
  obtain ⟨s1, hrun1, hre⟩ := exists_refilled hcfg (n := ringCap) (by rw [hshard]; simp)
  have hok1 : ∀ d, ShardOk (s1.shards d) :=
    RunOf.invariant (fun s => ∀ d, ShardOk (s.shards d))
      (fun _ _ _ hsh _ hst => (cfg_shards_step hsh hst).2) hrun1 hok
  obtain ⟨added, hring, hlen, hlate⟩ := hre.ring
  rw [hshard, nil_append] at hring
  -- the push back finds the ring full
  have hfits : Writers.fits s1.cfg (s1.shards 0).cur largeReq = false := by
    have hcur : (s1.shards 0).cur = ⟨[⟨0, refillReq⟩], 61440, false⟩ := by rw [hring]
    rw [hre.cfg, hcfg, hcur]
    decide +kernel
  have hplace : s1.step (.place 0) = some (s1.setShard 0 { s1.shards 0 with pc := .submit }) := by
    have hd : 0 < s1.cfg.nDevs := s1.cfg.devsPos
    simp only [Writers.step, Writers.shardOf, hd, if_true, Writers.writerStep]
    rw [show (s1.shards 0).pc = .place largeReq by rw [hring]]
    simp only [Writers.placeStep, hfits, Bool.false_eq_true, if_false]
    rw [if_neg (by rw [hring]; simp [hlen])]
  have hforgot : Forgotten 1 (s1.setShard 0 { s1.shards 0 with pc := .submit }) := by
    obtain ⟨hst1, hctx1⟩ := hre.old 1 (by omega)
    refine ⟨(cfg_shards_step hok1 hplace).2, ?_, hst1.trans hstat, ?_, ?_⟩
    · have := hre.puts
      show 1 < s1.nPuts
      omega
    · have hone : s1.cfg.nDevs = 1 := by rw [hre.cfg, hcfg]; rfl
      have hnone : countOf 1 added = 0 := by
        rw [countOf, count_eq_zero]
        intro hmem
        obtain ⟨r, hr, h1⟩ := mem_map.mp hmem
        have := hlate r hr
        omega
      simp only [Writers.outstanding, Writers.setShard, hst1, hstat, hone, Finset.sum_range_one,
        update_self, PutStatus.todo, length_nil, Nat.zero_add]
      rw [hring]
      have hheld : Shard.held ⟨added, .submit, ⟨[⟨0, refillReq⟩], 61440, false⟩, .empty⟩ =
          added ++ [⟨0, refillReq⟩] := by
        simp [Shard.held, Pc.hand, Batch.empty]
      have hcount : countOf 1 (added ++ [⟨0, refillReq⟩]) = 0 := by
        rw [countOf_append, hnone]
        rfl
      rw [← hheld] at hcount
      exact hcount
    · show (s1.ctx 1).acks = []
      rw [hctx1]
      exact hacks
  refine ⟨takeLarge ++ (refill s0.nPuts ringCap ++ [.place 0]), _,
    hrun0.append (hrun1.append (.cons trivial hplace (.nil _))), hforgot.status, ?_⟩
  intro ls' s' hrun'
  exact (RunOf.invariant (Forgotten 1) (fun _ _ _ hf _ hst => hf.step hst) hrun' hforgot).acks

end KvTier.Analysis
