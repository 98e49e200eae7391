import KvTier.Analysis.Acks
import KvTier.Model.BatchIo

/-!
# What a batch's requests are told, and when

Two results on the runs of `BatchIo`, both from the same list of its steps (`BatchStep`). The first
is about the error in the context of a buffer.
-/

namespace KvTier.Analysis

open KvTier.Lib KvTier.Model List

variable {b : Batch} {d : Nat} {isCur : Bool} {l : BatchLabel} {noNode : List Nat} {s s' : BatchIo}
  {ws ws' : Writers}

/-! ## What a step does -/

/-- The buffer of a batch that is reaped. -/
def bufOf (s : BatchIo) (d : Nat) (isCur : Bool) : Bool := if isCur then s.curBuf d else !s.curBuf d

/-- The batch that is reaped. -/
def batchOf (ws : Writers) (d : Nat) (isCur : Bool) : Batch :=
  if isCur then (ws.shards d).cur else (ws.shards d).other

/-- The context of a buffer with the result of a write. -/
def noteRes (res : Int) (c : IoCtx) : IoCtx := if res ≠ 0 then c.setErr res else c

/-- The error the requests of a batch are told about. -/
def toldErr (s : BatchIo) (d : Nat) (isCur : Bool) (res : Int) : Bool :=
  (noteRes res (s.ictx d (bufOf s d isCur))).firstErr != 0

/-- The end of a batch that is reaped. -/
def endOf (s : BatchIo) (d : Nat) (isCur : Bool) (res : Int) (noNode : List Nat) : BatchEnd where
  dev := d
  buf := bufOf s d isCur
  res := res
  batch := batchOf s.ws d isCur
  noNode := noNode
  told := Writers.outcomes (batchOf s.ws d isCur) (toldErr s d isCur res) noNode
  published := BatchIo.publishes (batchOf s.ws d isCur) (toldErr s d isCur res) noNode

def IsComplete : WLabel → Prop
  | .complete _ _ _ _ => True
  | _ => False

/-- The ways of a step with the results of transfers. -/
inductive BatchStep (s : BatchIo) : BatchLabel → BatchIo → Prop
  | plain {l : WLabel} {ws : Writers} (hl : ¬ IsComplete l) (hws : s.ws.step l = some ws)
      (hsub : BatchIo.submits s.ws l = none) :
      BatchStep s (.writer l)
        { s with ws := ws, trace := s.trace ++ BatchIo.newAcks s.ws ws }
  | submit {d : Nat} {ws : Writers} (hws : s.ws.step (.submit d true) = some ws)
      (hreqs : (s.ws.shards d).cur.reqs ≠ []) :
      BatchStep s (.writer (.submit d true))
        { s with
          ws := ws
          curBuf := Function.update s.curBuf d (!s.curBuf d)
          ictx := s.setIctx d (s.curBuf d) IoCtx.ref
          trace := s.trace ++ [.chunk d (s.ws.shards d).cur.reqs] ++ BatchIo.newAcks s.ws ws }
  | done {d : Nat} {isCur : Bool} {res : Int} {noNode : List Nat} {ws : Writers}
      (hws : s.ws.step (.complete d isCur (toldErr s d isCur res) noNode) = some ws) :
      BatchStep s (.complete d isCur res noNode)
        { s with
          ws := ws
          ictx := s.setIctx d (bufOf s d isCur) fun c => (noteRes res c).unref
          ends := s.ends ++ [endOf s d isCur res noNode]
          trace := s.trace ++ [.journal d] ++ BatchIo.newAcks s.ws ws }

theorem submits_cases (ws : Writers) (l : WLabel) :
    BatchIo.submits ws l = none ∨
      ∃ d, l = .submit d true ∧ (ws.shards d).cur.reqs ≠ [] ∧ BatchIo.submits ws l = some d := by
  unfold BatchIo.submits
  split
  · rename_i d
    by_cases hreqs : (ws.shards d).cur.reqs = []
    · exact Or.inl (if_pos hreqs)
    · exact Or.inr ⟨d, rfl, hreqs, if_neg hreqs⟩
  · exact Or.inl rfl

/-- Every step is one of these. -/
theorem batch_step_cases (h : s.step l = some s') : BatchStep s l s' := by
  have hwriter : ∀ {l : WLabel}, ¬ IsComplete l → s.writerStep l = some s' →
      BatchStep s (.writer l) s' := by
    intro l hl h
    obtain ⟨ws, hws, rfl⟩ := Option.map_eq_some_iff.1 h
    rcases submits_cases s.ws l with hsub | ⟨d, rfl, hreqs, hsub⟩
    · rw [hsub]
      exact .plain hl hws hsub
    · rw [hsub]
      exact .submit hws hreqs
  cases l with
  | writer l =>
    cases l with
    | complete d isCur ioErr noNode => cases h
    | _ => exact hwriter (fun hc => hc) h
  | complete d isCur res noNode =>
    obtain ⟨ws, hws, rfl⟩ := Option.map_eq_some_iff.1 h
    exact .done hws

theorem BatchStep.writers (h : BatchStep s l s') : ∃ wl, s.ws.step wl = some s'.ws := by
  cases h with
  | plain hl hws hsub => exact ⟨_, hws⟩
  | submit hws hreqs => exact ⟨_, hws⟩
  | done hws => exact ⟨_, hws⟩

theorem complete_step {isCur ioErr : Bool}
    (h : ws.step (.complete d isCur ioErr noNode) = some ws') :
    (batchOf ws d isCur).busy = true ∧ ws'.nPuts = ws.nPuts ∧
      ws'.ctx = Writers.completeCtx ws.ctx (batchOf ws d isCur) ioErr noNode := by
  have hc : ws.complete d isCur ioErr noNode = some ws' := by
    simp only [Writers.step, Writers.shardOf, Writers.writerStep] at h
    split at h
    · exact h
    · cases h
  by_cases hbusy : (batchOf ws d isCur).busy = true
  · have hc := (if_pos hbusy).symm.trans hc
    cases hc
    exact ⟨hbusy, rfl, rfl⟩
  · cases (if_neg hbusy).symm.trans hc

theorem reqs_of_busy (hw : ShardOk (ws.shards d)) (hbusy : (batchOf ws d isCur).busy = true) :
    (batchOf ws d isCur).reqs ≠ [] := by
  cases isCur with
  | false => exact hw.other.1 hbusy
  | true =>
    have hcur := hw.cur
    rw [hw.waiting hbusy] at hcur
    exact hcur.1 hbusy

/-! ## The error of a buffer -/

/-- Whether a batch of this buffer failed. -/
def bufFailed (es : List BatchEnd) (d : Nat) (b : Bool) : Bool :=
  es.any fun e => e.dev == d && e.buf == b && e.res != 0

/-- A batch ends with the result of its own chunk. -/
def OwnResult (e : BatchEnd) : Prop :=
  e.told = Writers.outcomes e.batch (e.res != 0) e.noNode ∧
    e.published = BatchIo.publishes e.batch (e.res != 0) e.noNode

instance (e : BatchEnd) : Decidable (OwnResult e) := inferInstanceAs (Decidable (_ ∧ _))

/-- A batch that ends well follows none that failed in its buffer. -/
def NoneAfterFailed (es : List BatchEnd) : Prop :=
  ∀ pre e post, es = pre ++ e :: post → e.res = 0 →
    ∀ e' ∈ pre, e'.dev = e.dev → e'.buf = e.buf → e'.res = 0

/-- A buffer has its error from the ends so far, and every batch was told by it. -/
structure EndsOk (s : BatchIo) : Prop where
  shards : ∀ d, ShardOk (s.ws.shards d)
  cell : ∀ d b, ((s.ictx d b).firstErr != 0) = bufFailed s.ends d b
  told : ∀ pre e post, s.ends = pre ++ e :: post → e.batch.reqs ≠ [] ∧
    e.told = Writers.outcomes e.batch (bufFailed (pre ++ [e]) e.dev e.buf) e.noNode ∧
    e.published = BatchIo.publishes e.batch (bufFailed (pre ++ [e]) e.dev e.buf) e.noNode

theorem noteRes_firstErr (res : Int) (c : IoCtx) :
    ((noteRes res c).firstErr != 0) = ((c.firstErr != 0) || (res != 0)) := by
  by_cases hres : res = 0
  · simp [noteRes, hres]
  rw [noteRes, if_pos hres, IoCtx.setErr]
  by_cases hc : c.firstErr = 0
  · simp [hc]
  · split
    · simp [hres, hc]
    · simp [hc]

theorem setIctx_apply (s : BatchIo) (d : Nat) (b : Bool) (f : IoCtx → IoCtx) (d' : Nat) (b' : Bool) :
    s.setIctx d b f d' b' = if d' = d ∧ b' = b then f (s.ictx d' b') else s.ictx d' b' := by
  unfold BatchIo.setIctx
  by_cases hd : d' = d
  · subst hd
    by_cases hb : b' = b
    · subst hb
      simp
    · simp [hb]
  · simp [hd]

theorem bufFailed_concat (es : List BatchEnd) (e : BatchEnd) (d : Nat) (b : Bool) :
    bufFailed (es ++ [e]) d b =
      (bufFailed es d b || (decide (d = e.dev ∧ b = e.buf) && e.res != 0)) := by
  have hand : (e.dev == d && e.buf == b) = decide (d = e.dev ∧ b = e.buf) := by
    rw [Bool.eq_iff_iff, Bool.and_eq_true, beq_iff_eq, beq_iff_eq, decide_eq_true_iff,
      eq_comm, @eq_comm _ e.buf]
  simp only [bufFailed, any_append, any_cons, any_nil, Bool.or_false, hand]

theorem EndsOk.step (hs : EndsOk s) (h : s.step l = some s') : EndsOk s' := by
  have hstep := batch_step_cases h
  obtain ⟨wl, hwl⟩ := hstep.writers
  have hshards := (cfg_shards_step hs.shards hwl).2
  cases hstep with
  | plain hl hws hsub => exact ⟨hshards, hs.cell, hs.told⟩
  | submit hws hreqs =>
    -- a reference more does not touch the error
    refine ⟨hshards, fun d' b' => ?_, hs.told⟩
    rw [← hs.cell d' b']
    show ((s.setIctx _ _ IoCtx.ref d' b').firstErr != 0) = _
    rw [setIctx_apply]
    split <;> rfl
  | done hws =>
    rename_i d isCur res noNode ws
    have hfailed : toldErr s d isCur res =
        bufFailed (s.ends ++ [endOf s d isCur res noNode]) d (bufOf s d isCur) := by
      rw [toldErr, noteRes_firstErr, hs.cell, bufFailed_concat]
      simp [endOf]
    refine ⟨hshards, fun d' b' => ?_, ?_⟩
    · show ((s.setIctx d (bufOf s d isCur) _ d' b').firstErr != 0) = _
      rw [setIctx_apply, bufFailed_concat, ← hs.cell d' b']
      show (_ : Bool) = (_ || (decide (d' = d ∧ b' = bufOf s d isCur) && res != 0))
      split
      · rename_i hcell
        rw [decide_eq_true hcell, Bool.true_and]
        exact noteRes_firstErr res _
      · rename_i hcell
        rw [decide_eq_false hcell, Bool.false_and, Bool.or_false]
    intro pre e post hends
    rcases eq_nil_or_concat post with rfl | ⟨post', last, rfl⟩
    · -- the batch that was just reaped
      obtain ⟨rfl, hlast⟩ := append_inj' hends rfl
      cases hlast
      have hbusy := (complete_step hws).1
      refine ⟨reqs_of_busy (hs.shards d) hbusy, ?_, ?_⟩
      · exact congrArg (fun x => Writers.outcomes _ x noNode) hfailed
      · exact congrArg (fun x => BatchIo.publishes _ x noNode) hfailed
    -- an earlier one
    have hassoc : pre ++ e :: (post' ++ [last]) = (pre ++ e :: post') ++ [last] := by simp
    rw [concat_eq_append, hassoc] at hends
    exact hs.told pre e post' (append_inj' hends rfl).1

theorem endsOk_start (cfg : WriterConfig) (syncMode : Bool) :
    EndsOk (BatchIo.start cfg syncMode) := by
  refine ⟨fun d => ⟨rfl, inFlight_empty⟩, fun _ _ => rfl, fun pre e post hends => ?_⟩
  exact absurd hends.symm (by simp [BatchIo.start])

theorem outcomes_injective (hreqs : b.reqs ≠ []) {x y : Bool}
    (h : Writers.outcomes b x noNode = Writers.outcomes b y noNode) : x = y := by
  obtain ⟨r, rest, hr⟩ := exists_cons_of_ne_nil hreqs
  simp only [Writers.outcomes, hr, zipIdx_cons, map_cons, List.cons.injEq,
    Prod.mk.injEq, true_and] at h
  have hhead := h.1
  by_cases hmem : 0 ∈ noNode <;> cases x <;> cases y <;> simp [hmem] at hhead ⊢

/-- A write failure stays with its buffer. The requests of every batch are told the result of their
own write, and published by it, exactly as long as no batch with a good write follows a failed one
in the same buffer of the same writer. -/
theorem batch_told_own_result_iff {cfg : WriterConfig} {syncMode : Bool} {ls : List BatchLabel}
    {s : BatchIo}
    (h : RunOf BatchIo.step (fun _ _ => True) (BatchIo.start cfg syncMode) ls s) :
    (∀ e ∈ s.ends, OwnResult e) ↔ NoneAfterFailed s.ends := by
  have hs : EndsOk s := RunOf.invariant EndsOk (fun _ _ _ hs _ hst => hs.step hst) h
    (endsOk_start cfg syncMode)
  constructor
  · intro hown pre e post hends hres e' he' hdev hbuf
    obtain ⟨hreqs, htold, -⟩ := hs.told pre e post hends
    obtain ⟨htold', -⟩ := hown e (by rw [hends]; simp)
    have hfailed : bufFailed (pre ++ [e]) e.dev e.buf = (e.res != 0) :=
      outcomes_injective hreqs (htold.symm.trans htold')
    rw [hres] at hfailed
    by_contra hne
    have hany : bufFailed (pre ++ [e]) e.dev e.buf = true := by
      refine any_eq_true.2 ⟨e', mem_append_left _ he', ?_⟩
      simp [hdev, hbuf, hne]
    rw [hany] at hfailed
    exact absurd hfailed (by decide)
  intro hcond e he
  obtain ⟨pre, post, hends⟩ := append_of_mem he
  obtain ⟨-, htold, hpub⟩ := hs.told pre e post hends
  have hfailed : bufFailed (pre ++ [e]) e.dev e.buf = (e.res != 0) := by
    rw [bufFailed_concat]
    by_cases hres : e.res = 0
    · -- nothing before it failed
      have hpre : bufFailed pre e.dev e.buf = false := by
        rw [bufFailed, any_eq_false]
        intro e' he'
        by_cases hsame : e'.dev = e.dev ∧ e'.buf = e.buf
        · simp [hcond pre e post hends hres e' he' hsame.1 hsame.2]
        · rw [not_and] at hsame
          simp only [Bool.and_eq_true, beq_iff_eq]
          exact fun hx => hsame hx.1.1 hx.1.2
      simp [hpre, hres]
    · simp [hres]
  rw [hfailed] at htold hpub
  exact ⟨htold, hpub⟩

def writeThrough (i : Nat) (res : Int) : List BatchLabel :=
  [.writer (.put (recordPut 61440) (i + 1) ⟨0, [61440]⟩), .writer (.push i), .writer (.pop 0),
    .writer (.fill 0 false), .writer (.place 0), .writer (.fill 0 false), .writer (.submit 0 true),
    .writer (.swap 0), .complete 0 false res []]

/-- Three writes that succeed, the third in the buffer of the first. -/
theorem good_batches_told :
    ∃ s, RunOf BatchIo.step (fun _ _ => True) (BatchIo.start oneWriter false)
        (writeThrough 0 0 ++ writeThrough 1 0 ++ writeThrough 2 0) s ∧
      s.ends.map (·.buf) = [false, true, false] ∧
      s.ends.map (·.told) = [[(0, none)], [(1, none)], [(2, none)]] ∧ NoneAfterFailed s.ends := by
  have hsome : ((writeThrough 0 0 ++ writeThrough 1 0 ++ writeThrough 2 0).foldlM BatchIo.step
      (BatchIo.start oneWriter false)).map (fun s => decide (
        s.ends.map (·.buf) = [false, true, false] ∧
        s.ends.map (·.told) = [[(0, none)], [(1, none)], [(2, none)]] ∧
        ∀ e ∈ s.ends, OwnResult e)) = some true := by
    decide +kernel
  obtain ⟨s, hs, hval⟩ := Option.map_eq_some_iff.1 hsome
  obtain ⟨hbuf, htold, hown⟩ := of_decide_eq_true hval
  have hrun := RunOf.of_foldlM hs fun _ _ _ => trivial
  exact ⟨s, hrun, hbuf, htold, (batch_told_own_result_iff hrun).1 hown⟩

/-- The write of the third batch succeeds, in the buffer of the first, whose write failed: its put
is told of a write error, and nothing is published. -/
theorem good_batch_told_failed :
    ∃ s, RunOf BatchIo.step (fun _ _ => True) (BatchIo.start oneWriter false)
        (writeThrough 0 (-5) ++ writeThrough 1 0 ++ writeThrough 2 0) s ∧
      s.ends.map (·.buf) = [false, true, false] ∧ s.ends.map (·.res) = [-5, 0, 0] ∧
      s.ends.map (·.told) = [[(0, some .ewrite)], [(1, none)], [(2, some .ewrite)]] ∧
      s.ends.map (·.published.length) = [0, 1, 0] ∧ (s.ws.ctx 2).acks = [some .ewrite] ∧
      ¬ ∀ e ∈ s.ends, OwnResult e := by
  have hsome : ((writeThrough 0 (-5) ++ writeThrough 1 0 ++ writeThrough 2 0).foldlM BatchIo.step
      (BatchIo.start oneWriter false)).map (fun s => decide (
        s.ends.map (·.buf) = [false, true, false] ∧ s.ends.map (·.res) = [-5, 0, 0] ∧
        s.ends.map (·.told) = [[(0, some .ewrite)], [(1, none)], [(2, some .ewrite)]] ∧
        s.ends.map (·.published.length) = [0, 1, 0] ∧ (s.ws.ctx 2).acks = [some .ewrite] ∧
        ¬ ∀ e ∈ s.ends, OwnResult e)) = some true := by
    decide +kernel
  obtain ⟨s, hs, hval⟩ := Option.map_eq_some_iff.1 hsome
  exact ⟨s, RunOf.of_foldlM hs fun _ _ _ => trivial, of_decide_eq_true hval⟩

/-! ## Acknowledgements and flushes -/

/-- Between a chunk and its ack the journal is written and the device flushed. -/
def FlushedFirst (tr : List DevEvent) : Prop :=
  ∀ pre i post, tr = pre ++ .ack i none :: post →
    ∀ a d reqs b, pre = a ++ .chunk d reqs :: b → (∃ r ∈ reqs, r.put = i) →
      ∃ b1 b2, b = b1 ++ .journal d :: b2 ∧ .flush d ∈ b2

/-- The completion drops the last references of a put without an error. -/
def LastOf (s : BatchIo) (i : Nat) : BatchLabel → Prop
  | .writer _ => False
  | .complete d isCur res noNode =>
    (1 ≤ (s.ws.ctx i).refs ∧ (s.ws.ctx i).refs ≤ countOf i (batchOf s.ws d isCur).reqs) ∧
      (s.ws.ctx i).err = none ∧ res = 0 ∧ (s.ictx d (bufOf s d isCur)).firstErr = 0 ∧
      ∀ e ∈ (batchOf s.ws d isCur).reqs.zipIdx, e.1.put = i → e.2 ∉ noNode

/-- Busy batches and acks come behind their chunks; nothing is flushed. -/
structure TraceOk (s : BatchIo) : Prop where
  shards : ∀ d, ShardOk (s.ws.shards d)
  later : ∀ i, s.ws.nPuts ≤ i → (s.ws.ctx i).refs ≤ 0
  inflight : ∀ d isCur, (batchOf s.ws d isCur).busy = true →
    .chunk d (batchOf s.ws d isCur).reqs ∈ s.trace
  preceded : ∀ pre i post, s.trace = pre ++ .ack i none :: post →
    ∃ d reqs, .chunk d reqs ∈ pre ∧ ∃ r ∈ reqs, r.put = i
  unflushed : ∀ d, .flush d ∉ s.trace

theorem mem_newAcks {ev : DevEvent} :
    ev ∈ BatchIo.newAcks ws ws' ↔
      ∃ i o, ev = .ack i o ∧ i < ws'.nPuts ∧
        o ∈ (ws'.ctx i).acks.drop (ws.ctx i).acks.length := by
  simp only [BatchIo.newAcks, mem_flatMap, mem_range, mem_map]
  constructor
  · rintro ⟨i, hi, o, ho, rfl⟩
    exact ⟨i, o, rfl, hi, ho⟩
  · rintro ⟨i, o, rfl, hi, ho⟩
    exact ⟨i, hi, o, ho, rfl⟩

theorem outcomesOf_const (reqs : List QReq) (o : Option AckErr) (i : Nat) :
    Latch.outcomesOf i (reqs.map fun r => (r.put, o)) = List.replicate (countOf i reqs) o := by
  induction reqs with
  | nil => rfl
  | cons r reqs ih =>
    by_cases hi : i = r.put
    · subst hi
      rw [map_cons, Latch.outcomesOf_cons_self, ih]
      simp [countOf, replicate_succ]
    rw [map_cons, Latch.outcomesOf_cons_ne hi, ih]
    have hcount : countOf i (r :: reqs) = countOf i reqs := by
      rw [countOf, map_cons, count_cons_of_ne fun h => hi h.symm, countOf]
    rw [hcount]

theorem count_puts (reqs : List QReq) (o : Option AckErr) (i : Nat) :
    ((reqs.map fun r => (r.put, o)).map Prod.fst).count i = countOf i reqs := by
  rw [map_map]
  rfl

theorem none_not_mem_newAcks {l : WLabel} (hl : ¬ IsComplete l) (h : ws.step l = some ws')
    (i : Nat) : none ∉ (ws'.ctx i).acks.drop (ws.ctx i).acks.length := by
  have hsame : (ws'.ctx i).acks.length ≤ (ws.ctx i).acks.length →
      none ∉ (ws'.ctx i).acks.drop (ws.ctx i).acks.length := by
    intro hle
    rw [drop_eq_nil_of_le hle]
    exact not_mem_nil
  rcases writers_step_cases h with ⟨a, ver, shape, _, rfl⟩ | ⟨j, _, hpush⟩ |
    ⟨d, hd, hsh, w', gone, hst, hs', hrel⟩
  · -- a new put has not been acknowledged
    refine hsame ?_
    have hadd : ∀ st c, c.acks = [] → ((ws.addPut st c).ctx i).acks.length ≤
        (ws.ctx i).acks.length := by
      intro st c hc
      by_cases hi : i = ws.nPuts
      · subst hi
        simp [Writers.addPut, hc]
      · simp [Writers.addPut, hi]
    unfold Writers.put
    simp only
    split
    · exact hadd _ _ rfl
    · split
      · exact hadd _ _ rfl
      · exact hadd _ _ rfl
  · obtain ⟨r, todo, _, _, _, rfl⟩ := push_cases hpush
    exact hsame le_rfl
  by_cases hgone : gone = []
  · refine hsame ?_
    rw [hrel.acks i, hgone, if_neg, Nat.add_zero]
    simp only [countOf, map_nil, count_nil]
    omega
  cases hst with
  | refuse hpc hbusy hreqs =>
    -- the put hears of the full device
    obtain rfl := Option.some.inj hsh
    simp only [Writers.step, Writers.shardOf, hd, if_true, Writers.writerStep, hpc,
      Writers.submitStep, hbusy, hreqs, Bool.false_eq_true, if_false, Option.some.injEq] at h
    subst h
    simp only
    rw [Latch.acks_release, drop_left, outcomesOf_const]
    split
    · rename_i hfire
      rw [mem_singleton, eq_comm, Latch.noted_eq_none]
      rintro ⟨-, hall⟩
      refine absurd (hall (some .efull) ?_) (by simp)
      rw [count_puts] at hfire
      rw [take_replicate, mem_replicate]
      exact ⟨by omega, rfl⟩
    · exact not_mem_nil
  | reapCur hbusy => exact absurd trivial hl
  | reapOther hbusy => exact absurd trivial hl
  | _ => exact absurd rfl hgone

theorem acks_completeCtx (ctx : Nat → Latch AckErr) (b : Batch) (ioErr : Bool) (noNode : List Nat)
    (i : Nat) :
    (Writers.completeCtx ctx b ioErr noNode i).acks.drop (ctx i).acks.length =
      if 1 ≤ (ctx i).refs ∧ (ctx i).refs ≤ countOf i b.reqs then
        [Latch.noted (ctx i).err (Latch.outcomesOf i (Writers.outcomes b ioErr noNode))] else [] := by
  obtain ⟨hrefs, hacks⟩ := Latch.setErrs_eq ctx (Writers.outcomes b ioErr noNode) i
  rw [Writers.completeCtx, Latch.acks_release, hrefs, hacks, drop_left, count_puts,
    Latch.noted_of_none, Latch.err_setErrs]
  intro o ho
  rw [outcomesOf_const] at ho
  exact eq_of_mem_replicate (mem_of_mem_take ho)

theorem outcomesOf_none_iff {ioErr : Bool} {i : Nat} (hi : 1 ≤ countOf i b.reqs) :
    (∀ o ∈ Latch.outcomesOf i (Writers.outcomes b ioErr noNode), o = none) ↔
      ioErr = false ∧ ∀ e ∈ b.reqs.zipIdx, e.1.put = i → e.2 ∉ noNode := by
  have hmem : ∀ o, o ∈ Latch.outcomesOf i (Writers.outcomes b ioErr noNode) ↔
      ∃ e ∈ b.reqs.zipIdx, e.1.put = i ∧
        o = if ioErr then some .ewrite else if e.2 ∈ noNode then some .enomem else none := by
    intro o
    simp only [Latch.outcomesOf, Writers.outcomes, mem_map, mem_filter, decide_eq_true_eq]
    constructor
    · rintro ⟨_, ⟨⟨e, he, rfl⟩, hput⟩, rfl⟩
      exact ⟨e, he, hput, rfl⟩
    · rintro ⟨e, he, hput, rfl⟩
      exact ⟨_, ⟨⟨e, he, rfl⟩, hput⟩, rfl⟩
  constructor
  · intro hall
    -- some request of the put is in the batch
    obtain ⟨r, hr, hput⟩ := mem_map.1 (count_pos_iff.1 hi)
    rw [← zipIdx_map_fst 0 b.reqs] at hr
    obtain ⟨e, he, rfl⟩ := mem_map.1 hr
    have herr : ioErr = false := by
      cases ioErr with
      | false => rfl
      | true => cases hall _ ((hmem _).2 ⟨e, he, hput, rfl⟩)
    refine ⟨herr, fun e' he' hput' hno => ?_⟩
    have hnone := hall _ ((hmem _).2 ⟨e', he', hput', rfl⟩)
    simp [herr, hno] at hnone
  · rintro ⟨rfl, hnodes⟩ o ho
    obtain ⟨e, he, hput, rfl⟩ := (hmem o).1 ho
    simp [hnodes e he hput]

/-- A step acks exactly the puts whose last reference it drops, and never flushes. -/
theorem trace_step (hs : TraceOk s) (h : s.step l = some s') :
    ∃ new, s'.trace = s.trace ++ new ∧ (∀ i, .ack i none ∈ new ↔ LastOf s i l) ∧
      ∀ d, .flush d ∉ new := by
  have hflush : ∀ {ws ws' : Writers} (d : Nat), .flush d ∉ BatchIo.newAcks ws ws' := by
    intro ws ws' d hmem
    obtain ⟨i, o, hev, -⟩ := mem_newAcks.1 hmem
    cases hev
  have hack : ∀ {ws ws' : Writers} {l : WLabel}, ¬ IsComplete l → ws.step l = some ws' →
      ∀ i, .ack i none ∉ BatchIo.newAcks ws ws' := by
    intro ws ws' l hl hws i hmem
    obtain ⟨j, o, hev, -, ho⟩ := mem_newAcks.1 hmem
    cases hev
    exact none_not_mem_newAcks hl hws i ho
  cases batch_step_cases h with
  | plain hl hws hsub =>
    exact ⟨_, rfl, fun i => ⟨fun hmem => absurd hmem (hack hl hws i), False.elim⟩, hflush⟩
  | submit hws hreqs =>
    refine ⟨_, List.append_assoc _ _ _, fun i => ⟨fun hmem => ?_, False.elim⟩, fun d hmem => ?_⟩
    · rcases mem_append.1 hmem with hmem | hmem
      · simp at hmem
      · exact absurd hmem (hack (l := .submit _ true) (fun hc => hc) hws i)
    · rcases mem_append.1 hmem with hmem | hmem
      · simp at hmem
      · exact hflush d hmem
  | done hws =>
    rename_i d isCur res noNode ws
    obtain ⟨hbusy, hputs, hctx⟩ := complete_step hws
    refine ⟨_, List.append_assoc _ _ _, fun i => ?_, fun d' hmem => ?_⟩
    · have hmem : DevEvent.ack i none ∈ [DevEvent.journal d] ++ BatchIo.newAcks s.ws ws ↔
          i < s.ws.nPuts ∧ none ∈ (ws.ctx i).acks.drop (s.ws.ctx i).acks.length := by
        rw [mem_append, mem_newAcks, hputs]
        simp
      have herr : toldErr s d isCur res = false ↔
          res = 0 ∧ (s.ictx d (bufOf s d isCur)).firstErr = 0 := by
        rw [toldErr, noteRes_firstErr, Bool.or_eq_false_iff]
        simp [and_comm]
      rw [hmem, hctx, acks_completeCtx]
      constructor
      · rintro ⟨-, hnone⟩
        split at hnone
        · rename_i hfire
          rw [mem_singleton, eq_comm, Latch.noted_eq_none,
            outcomesOf_none_iff (by omega), herr] at hnone
          exact ⟨hfire, hnone.1, hnone.2.1.1, hnone.2.1.2, hnone.2.2⟩
        · cases hnone
      rintro ⟨hfire, hnone, hres, hcell, hnodes⟩
      refine ⟨?_, ?_⟩
      · by_contra hi
        have := hs.later i (by omega)
        omega
      · rw [if_pos hfire, mem_singleton, eq_comm, Latch.noted_eq_none,
          outcomesOf_none_iff (by omega), herr]
        exact ⟨hnone, ⟨hres, hcell⟩, hnodes⟩
    · rcases mem_append.1 hmem with hmem | hmem
      · simp at hmem
      · exact hflush d' hmem

theorem inflight_of_shardStep {cfg : WriterConfig} {w w' : Shard} {l : WLabel} {gone : List QReq}
    (hw : ShardOk w) (h : ShardStep cfg w l w' gone) (hb : b = w'.cur ∨ b = w'.other)
    (hbusy : b.busy = true) :
    (b = w.cur ∨ b = w.other) ∨
      ∃ d, l = .submit d true ∧ w.cur.reqs ≠ [] ∧ b.reqs = w.cur.reqs := by
  have hempty : b ≠ .empty := by
    rintro rfl
    cases hbusy
  cases h with
  | add hpc hfits =>
    rcases hb with rfl | rfl
    · -- requests are only added to a batch that is not in flight
      have hcur := hw.cur
      rw [hpc] at hcur
      exact absurd (hcur.symm.trans hbusy) (by decide)
    · exact Or.inl (Or.inr rfl)
  | submit hpc hfree hreqs =>
    rcases hb with rfl | rfl
    · exact Or.inl (Or.inr rfl)
    · exact Or.inr ⟨_, rfl, hreqs, rfl⟩
  | refuse hpc hfree hreqs | swap hpc hfree | reapCur hreap =>
    exact Or.inl (Or.inr (hb.resolve_left hempty))
  | reapOther hreap => exact Or.inl (Or.inl (hb.resolve_right hempty))
  | _ => exact Or.inl hb

theorem inflight_of_step {l : WLabel} (hsh : ∀ d, ShardOk (ws.shards d)) (h : ws.step l = some ws')
    (hbusy : (batchOf ws' d isCur).busy = true) :
    (∃ isCur', (batchOf ws d isCur').busy = true ∧ batchOf ws' d isCur = batchOf ws d isCur') ∨
      l = .submit d true ∧ (ws.shards d).cur.reqs ≠ [] ∧
        (batchOf ws' d isCur).reqs = (ws.shards d).cur.reqs := by
  have hside : ∀ {b : Batch} (w : Shard), b = w.cur ∨ b = w.other →
      ∃ isCur' : Bool, b = if isCur' then w.cur else w.other := by
    rintro b w (rfl | rfl)
    · exact ⟨true, rfl⟩
    · exact ⟨false, rfl⟩
  have hof : ∀ w : Shard, (if isCur then w.cur else w.other) = w.cur ∨
      (if isCur then w.cur else w.other) = w.other := by
    intro w
    cases isCur
    · exact Or.inr rfl
    · exact Or.inl rfl
  have hkeep : ws'.shards d = ws.shards d →
      ∃ isCur', (batchOf ws d isCur').busy = true ∧ batchOf ws' d isCur = batchOf ws d isCur' := by
    intro hsame
    have hb : batchOf ws' d isCur = batchOf ws d isCur := by rw [batchOf, hsame, batchOf]
    exact ⟨isCur, hb ▸ hbusy, hb⟩
  rcases writers_step_cases h with ⟨a, ver, shape, _, rfl⟩ | ⟨j, _, hpush⟩ |
      ⟨d', _, hl, w', gone, hst, hs', _⟩
  · refine Or.inl (hkeep ?_)
    unfold Writers.put
    simp only
    split
    · rfl
    · split <;> rfl
  · -- a push only touches the ring
    obtain ⟨r, todo, _, _, _, rfl⟩ := push_cases hpush
    refine Or.inl ⟨isCur, ?_⟩
    have hb : batchOf (ws.pushed j r todo) d isCur = batchOf ws d isCur := by
      by_cases hd : d = r.dev
      · subst hd
        simp [batchOf, Writers.pushed, Writers.setShard, Shard.enqueue]
      · simp [batchOf, Writers.pushed, Writers.setShard, hd]
    exact ⟨hb ▸ hbusy, hb⟩
  by_cases hd : d = d'
  · subst hd
    have hw' : ws'.shards d = w' := by
      rw [hs']
      simp [Writers.setShard]
    have hb : batchOf ws' d isCur = if isCur then w'.cur else w'.other := by rw [batchOf, hw']
    rw [hb] at hbusy ⊢
    rcases inflight_of_shardStep (hsh d) hst (hof w') hbusy with hold | ⟨d1, rfl, hreqs, hsub⟩
    · obtain ⟨isCur', hold⟩ := hside _ hold
      rw [hold] at hbusy ⊢
      exact Or.inl ⟨isCur', hbusy, rfl⟩
    · obtain rfl : d1 = d := Option.some.inj hl
      exact Or.inr ⟨rfl, hreqs, hsub⟩
  · refine Or.inl (hkeep ?_)
    rw [hs']
    simp [Writers.setShard, hd]

theorem refs_later_step {l : WLabel} (hlater : ∀ i, ws.nPuts ≤ i → (ws.ctx i).refs ≤ 0)
    (h : ws.step l = some ws') (i : Nat) (hi : ws'.nPuts ≤ i) : (ws'.ctx i).refs ≤ 0 := by
  rcases writers_step_cases h with ⟨a, ver, shape, _, rfl⟩ | ⟨j, _, hpush⟩ |
      ⟨d, _, _, w', gone, _, hs', hrel⟩
  · have hadd : ∀ st c, (ws.addPut st c).nPuts ≤ i → ((ws.addPut st c).ctx i).refs ≤ 0 := by
      intro st c hi
      have hne : i ≠ ws.nPuts := by
        simp only [Writers.addPut] at hi
        omega
      simp only [Writers.addPut, Function.update_of_ne hne] at hi ⊢
      exact hlater i (by omega)
    unfold Writers.put at hi ⊢
    simp only at hi ⊢
    split at hi
    · rename_i hbad
      rw [if_pos hbad]
      exact hadd _ _ hi
    · rename_i hbad
      rw [if_neg hbad]
      split at hi <;> exact hadd _ _ hi
  · obtain ⟨r, todo, _, _, _, rfl⟩ := push_cases hpush
    exact hlater i hi
  have hputs : ws'.nPuts = ws.nPuts := by rw [hs']; rfl
  have := hlater i (hputs ▸ hi)
  rw [hrel.refs i]
  omega

theorem append_split {α : Type} {old new pre post : List α} {x : α}
    (h : old ++ new = pre ++ x :: post) :
    (∃ post', old = pre ++ x :: post') ∨ ∃ a, pre = old ++ a ∧ x ∈ new := by
  rcases append_eq_append_iff.1 h with ⟨a, rfl, hnew⟩ | ⟨c, hold, hpost⟩
  · exact Or.inr ⟨a, rfl, by rw [hnew]; simp⟩
  cases c with
  | nil =>
    refine Or.inr ⟨[], by simpa using hold.symm, ?_⟩
    rw [← nil_append new, ← hpost]
    exact mem_cons_self
  | cons y c =>
    obtain ⟨rfl, -⟩ := List.cons.inj hpost
    exact Or.inl ⟨c, hold⟩

theorem traceOk_start (cfg : WriterConfig) (syncMode : Bool) :
    TraceOk (BatchIo.start cfg syncMode) where
  shards _ := ⟨rfl, inFlight_empty⟩
  later _ _ := le_rfl
  inflight d isCur hbusy := by cases isCur <;> cases hbusy
  preceded pre i post h := absurd h.symm (by simp [BatchIo.start])
  unflushed _ := not_mem_nil

theorem TraceOk.step (hs : TraceOk s) (h : s.step l = some s') : TraceOk s' := by
  obtain ⟨new, htrace, hacks, hflush⟩ := trace_step hs h
  have hstep := batch_step_cases h
  obtain ⟨wl, hwl⟩ := hstep.writers
  refine ⟨(cfg_shards_step hs.shards hwl).2, refs_later_step hs.later hwl, ?_, ?_, ?_⟩
  · intro d isCur hbusy
    have hold : ∀ isCur', (batchOf s.ws d isCur').busy = true ∧
        batchOf s'.ws d isCur = batchOf s.ws d isCur' →
        .chunk d (batchOf s'.ws d isCur).reqs ∈ s'.trace := by
      rintro isCur' ⟨hbusy', hsame⟩
      rw [htrace, hsame]
      exact mem_append_left _ (hs.inflight d isCur' hbusy')
    cases hstep with
    | plain hl hws hsub =>
      rcases inflight_of_step hs.shards hws hbusy with ⟨isCur', hb⟩ | ⟨rfl, hreqs, -⟩
      · exact hold isCur' hb
      · exact absurd (hsub.symm.trans (if_neg hreqs)) (by simp)
    | submit hws hreqs =>
      rcases inflight_of_step hs.shards hws hbusy with ⟨isCur', hb⟩ | ⟨hd, -, hsame⟩
      · exact hold isCur' hb
      · -- the batch that was just handed to the device
        cases hd
        simp [hsame]
    | done hws =>
      rcases inflight_of_step hs.shards hws hbusy with ⟨isCur', hb⟩ | ⟨hd, -⟩
      · exact hold isCur' hb
      · cases hd
  · intro pre i post hsplit
    rw [htrace] at hsplit
    rcases append_split hsplit with ⟨post', hold⟩ | ⟨a, rfl, hnew⟩
    · exact hs.preceded pre i post' hold
    -- the batch that ends the put was written before
    have hlast := (hacks i).1 hnew
    cases hstep with
    | plain hl hws hsub => exact hlast.elim
    | submit hws hreqs => exact hlast.elim
    | done hws =>
      rename_i d isCur res noNode ws
      have hbusy := (complete_step hws).1
      have hcount : 0 < ((batchOf s.ws d isCur).reqs.map (·.put)).count i := by
        have := hlast.1
        simp only [countOf] at this
        omega
      obtain ⟨r, hr, hput⟩ := mem_map.1 (count_pos_iff.1 hcount)
      exact ⟨d, _, mem_append_left _ (hs.inflight d isCur hbusy), r, hr, hput⟩
  intro d hmem
  rw [htrace] at hmem
  rcases mem_append.1 hmem with hmem | hmem
  · exact hs.unflushed d hmem
  · exact hflush d hmem

theorem TraceOk.flushedFirst_iff (hs : TraceOk s) :
    FlushedFirst s.trace ↔ ∀ i, .ack i none ∉ s.trace := by
  constructor
  · intro hfirst i hmem
    obtain ⟨pre, post, hsplit⟩ := append_of_mem hmem
    obtain ⟨d, reqs, hchunk, hput⟩ := hs.preceded pre i post hsplit
    obtain ⟨a, b, hpre⟩ := append_of_mem hchunk
    obtain ⟨b1, b2, hb, hflush⟩ := hfirst pre i post hsplit a d reqs b hpre hput
    refine hs.unflushed d ?_
    rw [hsplit, hpre, hb]
    simp [hflush]
  · intro hnone pre i post hsplit
    exact absurd (by rw [hsplit]; simp) (hnone i)

theorem unacked_iff {ls : List BatchLabel} (hs : TraceOk s)
    (h : RunOf BatchIo.step (fun _ _ => True) s ls s') :
    (∀ i, .ack i none ∉ s'.trace) ↔ (∀ i, .ack i none ∉ s.trace) ∧
      RunOf BatchIo.step (fun s l => ∀ i, ¬ LastOf s i l) s ls s' := by
  induction h with
  | nil s => exact ⟨fun hnone => ⟨hnone, .nil s⟩, fun hnone => hnone.1⟩
  | cons hok hst hrest ih =>
    rename_i s s1 s' l ls
    obtain ⟨new, htrace, hacks, -⟩ := trace_step hs hst
    rw [ih (hs.step hst)]
    have hfirst : (∀ i, .ack i none ∉ s1.trace) ↔
        (∀ i, .ack i none ∉ s.trace) ∧ ∀ i, ¬ LastOf s i l := by
      simp only [htrace, mem_append, hacks, not_or, forall_and]
    rw [hfirst, and_assoc]
    refine and_congr_right fun _ => ⟨fun hrun => .cons hrun.1 hst hrun.2, fun hrun => ?_⟩
    cases hrun with
    | cons hok' hst' hrest' =>
      cases hst.symm.trans hst'
      exact ⟨hok', hrest'⟩

/-- In synchronous mode acks of success come behind a flush exactly if there are none: `batch_done`
acks before the device is flushed. -/
theorem sync_acks_flushed_iff {cfg : WriterConfig} {ls : List BatchLabel} {s : BatchIo}
    (h : RunOf BatchIo.step (fun _ _ => True) (BatchIo.start cfg true) ls s) :
    FlushedFirst s.trace ↔
      RunOf BatchIo.step (fun s l => ∀ i, ¬ LastOf s i l) (BatchIo.start cfg true) ls s := by
  have hstart := traceOk_start cfg true
  have hs : TraceOk s := RunOf.invariant TraceOk (fun _ _ _ hs _ hst => hs.step hst) h hstart
  rw [hs.flushedFirst_iff, unacked_iff hstart h]
  refine and_iff_right fun i => ?_
  exact not_mem_nil

theorem writeThrough_trace (res : Int) (o : Option AckErr)
    (hsome : ((writeThrough 0 res).foldlM BatchIo.step (BatchIo.start oneWriter true)).map
      (·.trace) = some [.chunk 0 [⟨0, refillReq⟩], .journal 0, .ack 0 o]) :
    ∃ s, RunOf BatchIo.step (fun _ _ => True) (BatchIo.start oneWriter true) (writeThrough 0 res) s ∧
      s.trace = [.chunk 0 [⟨0, refillReq⟩], .journal 0, .ack 0 o] := by
  obtain ⟨s, hs, hval⟩ := Option.map_eq_some_iff.1 hsome
  exact ⟨s, RunOf.of_foldlM hs fun _ _ _ => trivial, hval⟩

/-- A write that fails is acknowledged as such, and nothing has to be flushed. -/
theorem failed_write_unflushed :
    ∃ s, RunOf BatchIo.step (fun s l => ∀ i, ¬ LastOf s i l) (BatchIo.start oneWriter true)
        (writeThrough 0 (-5)) s ∧
      s.trace = [.chunk 0 [⟨0, refillReq⟩], .journal 0, .ack 0 (some .ewrite)] := by
  obtain ⟨s, hrun, htrace⟩ := writeThrough_trace (-5) (some .ewrite) (by decide +kernel)
  refine ⟨s, (sync_acks_flushed_iff hrun).1 ?_, htrace⟩
  intro pre i post hsplit
  have hmem : DevEvent.ack i none ∈ s.trace := by
    rw [hsplit]
    simp
  rw [htrace] at hmem
  simp at hmem

/-- With `sync_mode` a put is acknowledged after the writes of its batch and of the journal page,
and no flush. -/
theorem sync_ack_without_flush :
    ∃ s, RunOf BatchIo.step (fun _ _ => True) (BatchIo.start oneWriter true) (writeThrough 0 0) s ∧
      s.trace = [.chunk 0 [⟨0, refillReq⟩], .journal 0, .ack 0 none] ∧ ¬ FlushedFirst s.trace := by
  obtain ⟨s, hrun, htrace⟩ := writeThrough_trace 0 none (by decide +kernel)
  refine ⟨s, hrun, htrace, fun hfirst => ?_⟩
  obtain ⟨b1, b2, hb, hflush⟩ := hfirst [.chunk 0 [⟨0, refillReq⟩], .journal 0] 0 [] htrace [] 0
    [⟨0, refillReq⟩] [.journal 0] rfl ⟨_, mem_singleton_self _, rfl⟩
  have hmem : DevEvent.flush 0 ∈ [DevEvent.journal 0] := by
    rw [hb]
    simp [hflush]
  simp at hmem

end KvTier.Analysis
