import KvTier.Analysis.Placement
import KvTier.Model.Shutdown

/-!
# Whether batches fit their buffers

A batch has room for 512 requests and for the bytes `batch_buf_size` says.
-/

namespace KvTier.Analysis

open Function KvTier.Lib KvTier.Model List Option

variable {a : PutArgs} {d n : Nat} {shape : Shape}

/-! ## Bytes of batches -/

/-- The bytes of a request in the buffer: whole pages. -/
def reqBytes (r : QReq) : Nat := payloadNpages r.req.dataLen * pageSize

/-- The bytes of a batch in the buffer. -/
def batchPageBytes (b : Batch) : Nat := batchPages b.reqs * pageSize

/-- The batch fits the array of requests and the buffer. -/
def Fits (cfg : WriterConfig) (b : Batch) : Prop :=
  b.reqs.length ≤ batchMaxReqs ∧ batchPageBytes b ≤ batchBufSize cfg

/-- The batches of all writers fit. -/
def BatchesFit (s : Shutdown) : Prop :=
  ∀ d, Fits s.ws.cfg (s.ws.shards d).cur ∧ Fits s.ws.cfg (s.ws.shards d).other

/-- `used` is the bytes of the batch, in 32 bits. -/
def Counted (b : Batch) : Prop := b.used = batchPageBytes b % 2 ^ 32

section Bytes

variable {cfg : WriterConfig} {b b' : Batch} {r : QReq}

theorem batchPageBytes_append (rs : List QReq) (h : b'.reqs = b.reqs ++ rs) :
    batchPageBytes b' = batchPageBytes b + (rs.map reqBytes).sum := by
  have hrs : (rs.map reqBytes).sum = batchPages rs * pageSize := by
    unfold batchPages reqBytes
    rw [sum_map_mul_right]
  rw [hrs]
  unfold batchPageBytes batchPages
  rw [h, map_append, sum_append, Nat.add_mul]

theorem batchPageBytes_add (b : Batch) (r : QReq) :
    batchPageBytes (b.add r) = batchPageBytes b + reqBytes r := by
  rw [batchPageBytes_append (b := b) [r] rfl]
  simp

theorem batchPageBytes_drainAdd (b : Batch) (r : QReq) :
    batchPageBytes (b.drainAdd r) = batchPageBytes b + reqBytes r := by
  rw [batchPageBytes_append (b := b) [r] rfl]
  simp

theorem batchPageBytes_of_nil (h : b.reqs = []) : batchPageBytes b = 0 := by
  simp [batchPageBytes, h, batchPages]

theorem batchBufSize_lt (cfg : WriterConfig) : batchBufSize cfg < 2 ^ 32 := Nat.mod_lt _ (by decide)

theorem Fits.of_reqs (h : Fits cfg b) (hreqs : b'.reqs = b.reqs) : Fits cfg b' := by
  unfold Fits batchPageBytes at h ⊢
  rwa [hreqs]

theorem fits_of_nil (cfg : WriterConfig) (h : b.reqs = []) : Fits cfg b := by
  refine ⟨?_, ?_⟩
  · rw [h]
    exact Nat.zero_le _
  · rw [batchPageBytes_of_nil h]
    exact Nat.zero_le _

theorem Counted.add (h : Counted b) (r : QReq) : Counted (b.add r) := by
  unfold Counted at h ⊢
  rw [batchPageBytes_add]
  change (b.used + reqBytes r) % 2 ^ 32 = _
  rw [h, Nat.mod_add_mod]

theorem Counted.used_eq (h : Counted b) (hfits : Fits cfg b) : b.used = batchPageBytes b := by
  rw [h]
  exact Nat.mod_eq_of_lt (hfits.2.trans_lt (batchBufSize_lt cfg))

theorem fits_add_iff (hb : Fits cfg b) (hcount : Counted b) (hlen : b.reqs.length < batchMaxReqs)
    (hfits : Writers.fits cfg b r = true) :
    Fits cfg (b.add r) ↔ (b.reqs = [] → reqBytes r ≤ batchBufSize cfg) ∧
      (b.reqs ≠ [] → batchPageBytes b + reqBytes r < 2 ^ 32) := by
  have hused := hcount.used_eq hb
  have hbuf := batchBufSize_lt cfg
  have hlen' : (b.add r).reqs.length ≤ batchMaxReqs := by
    simp only [Batch.add, length_append, length_singleton]
    omega
  have hbytes := batchPageBytes_add b r
  unfold Fits
  rw [hbytes]
  by_cases hnil : b.reqs = []
  · rw [batchPageBytes_of_nil hnil, Nat.zero_add]
    simp [hlen', hnil]
  have hsum : (b.used + reqBytes r) % 2 ^ 32 ≤ batchBufSize cfg := by
    unfold Writers.fits at hfits
    simpa [hnil, reqBytes] using hfits
  rw [hused] at hsum
  simp only [hlen', hnil, false_implies, true_and, ne_eq, not_false_eq_true, true_implies]
  constructor
  · intro hle
    omega
  · intro hlt
    rwa [Nat.mod_eq_of_lt hlt] at hsum

theorem fits_drainAdd_iff (cfg : WriterConfig) (b : Batch) (r : QReq) :
    Fits cfg (b.drainAdd r) ↔
      b.reqs.length < batchMaxReqs ∧ batchPageBytes b + reqBytes r ≤ batchBufSize cfg := by
  unfold Fits
  rw [batchPageBytes_drainAdd]
  simp only [Batch.drainAdd, length_append, length_singleton, Nat.add_one_le_iff]

end Bytes

/-! ## Steps -/

/-- A drain finds room for the request it takes. -/
def DrainFits (s : Shutdown) : ShutdownLabel → Prop
  | .drain d => ∀ r ring, (s.ws.shards d).ring = r :: ring →
      (s.ws.shards d).cur.reqs.length < batchMaxReqs ∧
        batchPageBytes (s.ws.shards d).cur + reqBytes r ≤ batchBufSize s.ws.cfg
  | _ => True

/-- A request that passes the 32-bit test fits in truth. -/
def PlaceFits (s : Shutdown) : ShutdownLabel → Prop
  | .run (.place d) => ∀ r, (s.ws.shards d).pc = .place r →
      Writers.fits s.ws.cfg (s.ws.shards d).cur r = true →
      ((s.ws.shards d).cur.reqs = [] → reqBytes r ≤ batchBufSize s.ws.cfg) ∧
        ((s.ws.shards d).cur.reqs ≠ [] →
          batchPageBytes (s.ws.shards d).cur + reqBytes r < 2 ^ 32)
  | _ => True

/-- What a step asks for. -/
def StepFits (s : Shutdown) (l : ShutdownLabel) : Prop := PlaceFits s l ∧ DrainFits s l

/-- Until shutdown the counts of the batches are right, and only a batch with room is added to. -/
structure BooksOk (s : Shutdown) : Prop where
  counted : ∀ d, s.phase d = .main →
    Counted (s.ws.shards d).cur ∧ Counted (s.ws.shards d).other
  placing : ∀ d r, s.phase d = .main → (s.ws.shards d).pc = .place r →
    ¬ BatchFull s.ws.cfg (s.ws.shards d).cur

section Steps

variable {cfg : WriterConfig} {w w' : Shard} {gone : List QReq}

theorem ShardStep.batches {l : WLabel} (h : ShardStep cfg w l w' gone) :
    (∃ d r, l = .place d ∧ w.pc = .place r ∧ Writers.fits cfg w.cur r = true ∧
      w'.cur = w.cur.add r ∧ w'.other = w.other) ∨
    ((w'.cur.reqs = w.cur.reqs ∨ w'.cur.reqs = w.other.reqs ∨ w'.cur.reqs = []) ∧
      (w'.other.reqs = w.cur.reqs ∨ w'.other.reqs = w.other.reqs ∨ w'.other.reqs = []) ∧
      ∀ d r, l = .place d → w.pc = .place r → Writers.fits cfg w.cur r = false) := by
  cases h with
  | add hpc hfits => exact .inl ⟨_, _, rfl, hpc, hfits, rfl, rfl⟩
  | back hpc hfits hroom | lose hpc hfits hroom =>
    refine .inr ⟨.inl rfl, .inr (.inl rfl), fun _ _ _ hpc' => ?_⟩
    rw [hpc] at hpc'
    cases hpc'
    exact hfits
  | submit hpc hbusy hreqs => exact .inr ⟨.inr (.inl rfl), .inl rfl, nofun⟩
  | refuse hpc hbusy hreqs | swap hpc hbusy | reapCur hbusy =>
    exact .inr ⟨.inr (.inr rfl), .inr (.inl rfl), nofun⟩
  | reapOther hbusy => exact .inr ⟨.inl rfl, .inr (.inr rfl), nofun⟩
  | _ => exact .inr ⟨.inl rfl, .inr (.inl rfl), nofun⟩

theorem counted_empty : Counted .empty := rfl

theorem ShardStep.counted {l : WLabel} (h : ShardStep cfg w l w' gone) (hcur : Counted w.cur)
    (hother : Counted w.other) : Counted w'.cur ∧ Counted w'.other := by
  cases h with
  | add hpc hfits => exact ⟨hcur.add _, hother⟩
  | submit hpc hbusy hreqs => exact ⟨hother, hcur⟩
  | refuse hpc hbusy hreqs | swap hpc hbusy | reapCur hbusy => exact ⟨counted_empty, hother⟩
  | reapOther hbusy => exact ⟨hcur, counted_empty⟩
  | _ => exact ⟨hcur, hother⟩

theorem not_full_of_fill {s s' : Writers} {found : Bool} {r : QReq}
    (h : s.step (.fill d found) = some s') (hpc : (s'.shards d).pc = .place r) :
    ¬ BatchFull s.cfg (s'.shards d).cur := by
  simp only [Writers.step, Writers.shardOf, Writers.writerStep] at h
  split at h
  · split at h
    · obtain ⟨w', hw', rfl⟩ := map_eq_some_iff.1 h
      simp only [Writers.setShard, update_self] at hpc ⊢
      unfold Writers.fillStep at hw'
      split at hw'
      · cases hw'
        cases hpc
      · rename_i hnot
        split at hw' <;> cases hw' <;> exact hnot
    · cases h
  · cases h

theorem not_full_step {s s' : Writers} {l : WLabel} (h : s.step l = some s')
    (hold : ∀ r, (s.shards d).pc = .place r → ¬ BatchFull s.cfg (s.shards d).cur) {r : QReq}
    (hpc : (s'.shards d).pc = .place r) : ¬ BatchFull s.cfg (s'.shards d).cur := by
  rcases shard_of_step h d with ⟨gone, hl, hstep⟩ | hsame | ⟨q, hpush⟩
  · generalize hw : s.shards d = w at hstep hold
    generalize hw' : s'.shards d = w' at hstep hpc
    cases hstep with
    | poll hpc' => exact hold r hpc
    | first hpc' | next hpc' hring =>
      cases hl
      rw [← hw']
      exact not_full_of_fill h (hw'.symm ▸ hpc)
    | reapCur hbusy => exact not_batchFull_empty s.cfg
    | reapOther hbusy => exact hold r hpc
    | _ => cases hpc
  · rw [hsame] at hpc ⊢
    exact hold r hpc
  · rw [hpush] at hpc ⊢
    exact hold r hpc

theorem submitStep_batches {s s' : Writers} {room : Bool}
    (h : Writers.submitStep s d (s.shards d) room = some s') :
    s'.cfg = s.cfg ∧ s'.status = s.status ∧ (∀ d', d' ≠ d → s'.shards d' = s.shards d') ∧
      (s'.shards d).ring = (s.shards d).ring ∧ (s'.shards d).pc.hand = [] ∧
      ((s'.shards d).cur.reqs = (s.shards d).cur.reqs ∨
        (s'.shards d).cur.reqs = (s.shards d).other.reqs ∨ (s'.shards d).cur.reqs = []) ∧
      ((s'.shards d).other.reqs = (s.shards d).cur.reqs ∨
        (s'.shards d).other.reqs = (s.shards d).other.reqs ∨ (s'.shards d).other.reqs = []) := by
  have hne : ∀ (w : Shard) (d' : Nat), d' ≠ d → (s.setShard d w).shards d' = s.shards d' :=
    fun w d' hd => update_of_ne hd ..
  have hself : ∀ w : Shard, (s.setShard d w).shards d = w := fun w => update_self ..
  unfold Writers.submitStep at h
  split at h
  · cases h
  split at h
  · cases h
    refine ⟨rfl, rfl, hne _, ?_, ?_, .inl ?_, .inr (.inl ?_)⟩ <;> rw [hself]
    rfl
  split at h
  · cases h
    refine ⟨rfl, rfl, hne _, ?_, ?_, .inr (.inl ?_), .inl ?_⟩ <;> rw [hself]
    rfl
  · cases h
    refine ⟨rfl, rfl, hne _, ?_, ?_, .inr (.inr ?_), .inr (.inl ?_)⟩ <;>
      simp only [hself] <;> rfl

/-- What a step does. -/
inductive ShutdownCase (s : Shutdown) : ShutdownLabel → Shutdown → Prop
  | run {l : WLabel} {ws : Writers} (hruns : s.runs l = true) (hstep : s.ws.step l = some ws) :
      ShutdownCase s (.run l) { s with ws := ws }
  | close : ShutdownCase s .close { s with closing := true }
  | stop {d : Nat} : ShutdownCase s (.stop d) { s with stop := update s.stop d true }
  | leave {d : Nat} :
      ShutdownCase s (.leave d) { s with phase := update s.phase d .drain }
  | drain {d : Nat} {r : QReq} {ring : List QReq} (hring : (s.ws.shards d).ring = r :: ring)
      (hphase : s.phase d = .drain) :
      ShutdownCase s (.drain d) { s with ws := s.ws.setShard d { s.ws.shards d with
        ring := ring
        cur := (s.ws.shards d).cur.drainAdd r } }
  | finish {d : Nat} {room : Bool} {ws : Writers} (hphase : s.phase d = .drain)
      (hsubmit : Writers.submitStep s.ws d (s.ws.shards d) room = some ws) :
      ShutdownCase s (.finish d room)
        { s with ws := ws, phase := update s.phase d .done }

theorem shutdown_cases {s s' : Shutdown} {l : ShutdownLabel} (h : s.step l = some s') :
    ShutdownCase s l s' := by
  cases l with
  | run l =>
    simp only [Shutdown.step] at h
    split at h
    · rename_i hruns
      obtain ⟨ws, hws, rfl⟩ := map_eq_some_iff.1 h
      exact .run hruns hws
    · cases h
  | close =>
    cases h
    exact .close
  | stop d =>
    simp only [Shutdown.step] at h
    split at h
    · cases h
      exact .stop
    · cases h
  | leave d =>
    simp only [Shutdown.step] at h
    split at h
    · cases h
      exact .leave
    · cases h
  | drain d =>
    simp only [Shutdown.step, Shutdown.drainStep] at h
    split at h
    · cases h
    rename_i r ring hring
    split at h
    · rename_i hphase
      cases h
      exact .drain hring hphase
    · cases h
  | finish d room =>
    simp only [Shutdown.step] at h
    split at h
    · rename_i hphase
      obtain ⟨ws, hws, rfl⟩ := map_eq_some_iff.1 h
      exact .finish hphase hws
    · cases h

variable {s s' : Shutdown} {l : ShutdownLabel}

theorem cfg_shutdown_step (h : s.step l = some s') : s'.ws.cfg = s.ws.cfg := by
  cases shutdown_cases h with
  | run hruns hstep => exact cfg_writers_step hstep
  | finish hphase hsubmit => exact (submitStep_batches hsubmit).1
  | _ => rfl

theorem BooksOk.step (h : BooksOk s) (hst : s.step l = some s') : BooksOk s' := by
  have hcfg := cfg_shutdown_step hst
  suffices hone : ∀ d, s'.phase d = .main →
      (Counted (s'.ws.shards d).cur ∧ Counted (s'.ws.shards d).other) ∧
        ∀ r, (s'.ws.shards d).pc = .place r → ¬ BatchFull s.ws.cfg (s'.ws.shards d).cur by
    refine ⟨fun d hd => (hone d hd).1, fun d r hd hpc => ?_⟩
    rw [hcfg]
    exact (hone d hd).2 r hpc
  intro d hd
  -- a writer that is not touched
  have hkeep : s.phase d = .main → s'.ws.shards d = s.ws.shards d →
      (Counted (s'.ws.shards d).cur ∧ Counted (s'.ws.shards d).other) ∧
        ∀ r, (s'.ws.shards d).pc = .place r → ¬ BatchFull s.ws.cfg (s'.ws.shards d).cur := by
    intro hmain hsame
    rw [hsame]
    exact ⟨h.counted d hmain, fun r hpc => h.placing d r hmain hpc⟩
  cases shutdown_cases hst with
  | @run l ws hruns hstep =>
    refine ⟨?_, fun r hpc => not_full_step hstep (fun r' => h.placing d r' hd) hpc⟩
    obtain ⟨hcur, hother⟩ := h.counted d hd
    change Counted (ws.shards d).cur ∧ Counted (ws.shards d).other
    rcases shard_of_step hstep d with ⟨gone, _, hshard⟩ | hsame | ⟨q, hpush⟩
    · exact hshard.counted hcur hother
    · rw [hsame]
      exact ⟨hcur, hother⟩
    · rw [hpush]
      exact ⟨hcur, hother⟩
  | close => exact hkeep hd rfl
  | stop => exact hkeep hd rfl
  | @leave d' =>
    have hd : update s.phase d' .drain d = .main := hd
    rw [update_apply] at hd
    split at hd
    · cases hd
    · exact hkeep hd rfl
  | @drain d' r ring hring hphase =>
    have hne : d ≠ d' := by
      rintro rfl
      have hd : s.phase d = .main := hd
      rw [hphase] at hd
      cases hd
    exact hkeep hd (update_of_ne hne ..)
  | @finish d' room ws hphase hsubmit =>
    have hd : update s.phase d' .done d = .main := hd
    rw [update_apply] at hd
    split at hd
    · cases hd
    · rename_i hne
      exact hkeep hd ((submitStep_batches hsubmit).2.2.1 d hne)

/-- A step keeps the batches inside their buffers exactly if what it adds fits. -/
theorem batchesFit_step_iff (hbooks : BooksOk s) (hfit : BatchesFit s) (hst : s.step l = some s') :
    BatchesFit s' ↔ StepFits s l := by
  have hcfg := cfg_shutdown_step hst
  unfold BatchesFit
  rw [hcfg]
  have hfrom : ∀ {b : Batch} {d : Nat}, b.reqs = (s.ws.shards d).cur.reqs ∨
      b.reqs = (s.ws.shards d).other.reqs ∨ b.reqs = [] → Fits s.ws.cfg b := by
    rintro b d (hreqs | hreqs | hreqs)
    · exact (hfit d).1.of_reqs hreqs
    · exact (hfit d).2.of_reqs hreqs
    · exact fits_of_nil _ hreqs
  cases shutdown_cases hst with
  | @run l ws hruns hstep =>
    -- the writer a label is about, if it adds to a batch
    by_cases hadd : ∃ d r, l = .place d ∧ (s.ws.shards d).pc = .place r ∧
        Writers.fits s.ws.cfg (s.ws.shards d).cur r = true
    · obtain ⟨d, r, rfl, hpc, hfits⟩ := hadd
      have hmain : s.phase d = .main := by simpa [Shutdown.runs] using hruns
      have hnot := hbooks.placing d r hmain hpc
      have hlen : (s.ws.shards d).cur.reqs.length < batchMaxReqs :=
        Nat.lt_of_not_le fun hle => hnot (.inl hle)
      have hiff := fits_add_iff (hfit d).1 (hbooks.counted d hmain).1 hlen hfits
      have hself : ∃ gone, ShardStep s.ws.cfg (s.ws.shards d) (.place d) (ws.shards d) gone := by
        rcases writers_step_cases hstep with ⟨_, _, _, hl, _⟩ | ⟨_, hl, _⟩ | ⟨d', _, hl, hw⟩
        · cases hl
        · cases hl
        cases hl
        obtain ⟨w', gone, hshard, heq, _⟩ := hw
        rw [heq]
        refine ⟨gone, ?_⟩
        simp only [Writers.setShard, update_self]
        exact hshard
      obtain ⟨gone, hshard⟩ := hself
      have hnew : (ws.shards d).cur = (s.ws.shards d).cur.add r ∧
          (ws.shards d).other = (s.ws.shards d).other := by
        rcases hshard.batches with ⟨_, r', _, hpc', _, hcur, hother⟩ | ⟨_, _, hno⟩
        · rw [hpc] at hpc'
          cases hpc'
          exact ⟨hcur, hother⟩
        · rw [hno d r rfl hpc] at hfits
          cases hfits
      constructor
      · intro hall
        refine ⟨fun r' hpc' _ => ?_, trivial⟩
        rw [hpc] at hpc'
        cases hpc'
        have hcur := (hall d).1
        change Fits s.ws.cfg (ws.shards d).cur at hcur
        rw [hnew.1] at hcur
        exact hiff.1 hcur
      rintro ⟨hplace, _⟩ d'
      change Fits s.ws.cfg (ws.shards d').cur ∧ Fits s.ws.cfg (ws.shards d').other
      by_cases hd : d' = d
      · subst hd
        rw [hnew.1, hnew.2]
        exact ⟨hiff.2 (hplace r hpc hfits), (hfit d').2⟩
      rcases shard_of_step hstep d' with ⟨_, hl, _⟩ | hsame | ⟨q, hpush⟩
      · cases hl
        exact absurd rfl hd
      · rw [hsame]
        exact hfit d'
      · rw [hpush]
        exact hfit d'
    -- every other step only moves batches
    have hstay : ∀ d, Fits s.ws.cfg (ws.shards d).cur ∧ Fits s.ws.cfg (ws.shards d).other := by
      intro d
      rcases shard_of_step hstep d with ⟨gone, hl, hshard⟩ | hsame | ⟨q, hpush⟩
      · rcases hshard.batches with ⟨d', r, rfl, hpc, hfits, _, _⟩ | ⟨hcur, hother, _⟩
        · cases hl
          exact absurd ⟨d, r, rfl, hpc, hfits⟩ hadd
        · exact ⟨hfrom hcur, hfrom hother⟩
      · rw [hsame]
        exact hfit d
      · rw [hpush]
        exact hfit d
    refine ⟨fun _ => ⟨?_, trivial⟩, fun _ => hstay⟩
    unfold PlaceFits
    split
    · rename_i d hl
      cases hl
      exact fun r hpc hfits => absurd ⟨d, r, rfl, hpc, hfits⟩ hadd
    · trivial
  | close | stop | leave => exact ⟨fun _ => ⟨trivial, trivial⟩, fun _ => hfit⟩
  | @drain d r ring hring hphase =>
    have hiff := fits_drainAdd_iff s.ws.cfg (s.ws.shards d).cur r
    constructor
    · intro hall
      refine ⟨trivial, fun r' ring' hring' => ?_⟩
      rw [hring] at hring'
      cases hring'
      have hcur := (hall d).1
      simp only [Writers.setShard, update_self] at hcur
      exact hiff.1 hcur
    rintro ⟨_, hdrain⟩ d'
    simp only [Writers.setShard, update_apply]
    split
    · exact ⟨hiff.2 (hdrain r ring hring), (hfit d).2⟩
    · exact hfit d'
  | @finish d room ws hphase hsubmit =>
    obtain ⟨_, _, hne, _, _, hcur, hother⟩ := submitStep_batches hsubmit
    refine ⟨fun _ => ⟨trivial, trivial⟩, fun _ d' => ?_⟩
    change Fits s.ws.cfg (ws.shards d').cur ∧ Fits s.ws.cfg (ws.shards d').other
    by_cases hd : d' = d
    · subst hd
      exact ⟨hfrom hcur, hfrom hother⟩
    · rw [hne d' hd]
      exact hfit d'

end Steps

/-! ## Configurations of 32 bits -/

theorem booksOk_start (cfg : WriterConfig) : BooksOk (Shutdown.start cfg) where
  counted _ _ := ⟨counted_empty, counted_empty⟩
  placing _ _ _ hpc := by cases hpc

theorem batchesFit_start (cfg : WriterConfig) : BatchesFit (Shutdown.start cfg) := fun _ =>
  ⟨fits_of_nil _ rfl, fits_of_nil _ rfl⟩

theorem pending_shutdown_step {Q : PutReq → Prop} {s s' : Shutdown} {l : ShutdownLabel}
    (h : PendingAll Q s.ws)
    (hput : ∀ a ver shape reqs, cachePutReqs s.ws.cfg.toConfig a ver shape = some reqs →
      ∀ r ∈ reqs, Q r) (hst : s.step l = some s') : PendingAll Q s'.ws := by
  cases shutdown_cases hst with
  | run hruns hstep => exact h.step hput hstep
  | @drain d r ring hring hphase =>
    have hold := h.ring d
    rw [hring] at hold
    refine ⟨fun d' q hq => ?_, fun d' q hq => ?_, h.todo⟩
    · simp only [Writers.setShard, update_apply] at hq
      split at hq
      · exact (forall_mem_cons.1 hold).2 q hq
      · exact h.ring d' q hq
    simp only [Writers.setShard, update_apply] at hq
    split at hq
    · exact h.hand d q hq
    · exact h.hand d' q hq
  | @finish d room ws hphase hsubmit =>
    obtain ⟨_, hstatus, hne, hring, hhand, _, _⟩ := submitStep_batches hsubmit
    refine ⟨fun d' => ?_, fun d' => ?_, fun i => ?_⟩
    · change ∀ q ∈ (ws.shards d').ring, Q q.req
      by_cases hd : d' = d
      · subst hd
        rw [hring]
        exact h.ring d'
      · rw [hne d' hd]
        exact h.ring d'
    · change ∀ q ∈ (ws.shards d').pc.hand, Q q.req
      by_cases hd : d' = d
      · subst hd
        rw [hhand]
        simp
      · rw [hne d' hd]
        exact h.hand d'
    · change ∀ r ∈ (ws.status i).todo, Q r
      rw [hstatus]
      exact h.todo i
  | _ => exact h

theorem reqBytes_bounds {r : QReq} (h32 : r.req.dataLen < 2 ^ 32) :
    r.req.dataLen ≤ reqBytes r ∧ reqBytes r ≤ r.req.dataLen + pageSize - 1 ∧
      reqBytes r % pageSize = 0 := by
  have hmod : (r.req.dataLen + pageSize - 1) / pageSize % 2 ^ 32 =
      (r.req.dataLen + pageSize - 1) / pageSize := by
    apply Nat.mod_eq_of_lt
    unfold pageSize
    omega
  unfold reqBytes payloadNpages
  rw [hmod]
  refine ⟨?_, Nat.div_mul_le_self _ _, Nat.mul_mod_left _ _⟩
  unfold pageSize
  omega

/-- Buffer sizes and sums of bytes stay in 32 bits. -/
def BuffersOk (cfg : WriterConfig) : Prop :=
  max cfg.stripeThreshold cfg.stripeUnit + 4 * pageSize < 2 ^ 32 ∧
    cfg.batchMinBytes + max cfg.stripeThreshold cfg.stripeUnit ≤ 2 ^ 32

section Config

variable {cfg : WriterConfig}

theorem BuffersOk.placeFits (h : BuffersOk cfg) (hpage : cfg.batchMinBytes % pageSize = 0)
    {s : Shutdown} (hcfg : s.ws.cfg = cfg) (hbooks : BooksOk s) (hfit : BatchesFit s)
    (hlen : PendingAll (fun r => r.dataLen ≤ max cfg.stripeThreshold cfg.stripeUnit) s.ws)
    {l : ShutdownLabel} {s' : Shutdown} (hst : s.step l = some s') : PlaceFits s l := by
  unfold PlaceFits
  split
  · rename_i d
    intro r hpc hfits
    have hmain : s.phase d = .main := by
      cases shutdown_cases hst with
      | run hruns _ => simpa [Shutdown.runs] using hruns
    have hdata := hlen.hand d
    rw [hpc] at hdata
    have hdata := hdata r (mem_singleton.2 rfl)
    obtain ⟨hbuf, hsum⟩ := h
    obtain ⟨_, hle, _⟩ := reqBytes_bounds (r := r) (by omega)
    have hsize : batchBufSize cfg = max cfg.stripeThreshold cfg.stripeUnit + 4 * pageSize :=
      Nat.mod_eq_of_lt hbuf
    rw [hcfg]
    unfold pageSize at hpage hbuf hsize hle
    refine ⟨fun _ => by omega, fun _ => ?_⟩
    -- the batch is not full, and its bytes and the minimum are whole pages
    have hnot := hbooks.placing d r hmain hpc
    have hused : (s.ws.shards d).cur.used < cfg.batchMinBytes := by
      rw [← hcfg]
      exact Nat.lt_of_not_le fun hle => hnot (.inr hle)
    rw [(hbooks.counted d hmain).1.used_eq (hfit d).1] at hused
    have hwhole : batchPageBytes (s.ws.shards d).cur % 4096 = 0 := Nat.mul_mod_left _ _
    omega
  · trivial

/-- What holds while the batches fit. -/
structure BuffersInv (cfg : WriterConfig) (t : Shutdown) : Prop where
  cfgEq : t.ws.cfg = cfg
  books : BooksOk t
  fit : BatchesFit t
  lens : PendingAll (fun r => r.dataLen ≤ max cfg.stripeThreshold cfg.stripeUnit) t.ws

theorem BuffersInv.start (cfg : WriterConfig) : BuffersInv cfg (Shutdown.start cfg) :=
  ⟨rfl, booksOk_start cfg, batchesFit_start cfg, PendingAll.start _ cfg⟩

/-- Batches go on to fit, if those of the drains do. -/
theorem BuffersInv.step {t t' : Shutdown} (hinv : BuffersInv cfg t) (h : BuffersOk cfg)
    (hpage : cfg.batchMinBytes % pageSize = 0) {l : ShutdownLabel} (hdrain : DrainFits t l)
    (hst : t.step l = some t') : BuffersInv cfg t' := by
  obtain ⟨hcfg, hbooks, hfit, hlen⟩ := hinv
  refine ⟨(cfg_shutdown_step hst).trans hcfg, hbooks.step hst, ?_, ?_⟩
  · exact (batchesFit_step_iff hbooks hfit hst).2
      ⟨h.placeFits hpage hcfg hbooks hfit hlen hst, hdrain⟩
  · refine pending_shutdown_step hlen (fun a ver shape reqs hreqs => ?_) hst
    rw [hcfg] at hreqs
    exact dataLen_cachePutReqs_le hreqs

theorem BuffersOk.run (h : BuffersOk cfg) (hpage : cfg.batchMinBytes % pageSize = 0)
    {ls : List ShutdownLabel} {s : Shutdown}
    (hrun : RunOf Shutdown.step DrainFits (Shutdown.start cfg) ls s) : BatchesFit s :=
  (hrun.invariant (P := BuffersInv cfg) (fun _ _ _ hinv hdrain hst => hinv.step h hpage hdrain hst)
    (.start cfg)).fit

/-- The arguments of a put of one record. -/
def putOf (len : Nat) : PutArgs := ⟨0, 0, [0], 0, [len], false, 0⟩

theorem exists_putOf (hlayers : 0 < cfg.maxLayers) (hthr : cfg.stripeThreshold < 2 ^ 32)
    (hunit : cfg.stripeUnit < 2 ^ 32) (len : Nat)
    (hlen : len ≤ max cfg.stripeThreshold cfg.stripeUnit) :
    ∃ r, cachePutReqs cfg.toConfig (putOf len) 1 ⟨0, [len]⟩ = some [r] ∧ r.dataLen = len ∧
      r.dev = baseDev cfg.nDevs 0 % cfg.nDevs := by
  have hadm : ¬ (maxGroups ≤ (putOf len).groupIdx ∨ cfg.maxLayers < (putOf len).lens.length) := by
    simp only [putOf, length_singleton, maxGroups]
    omega
  have hsum : (putOf len).lens.sum = len := by simp [putOf]
  have hmod : len % 2 ^ 32 = len := Nat.mod_eq_of_lt (by omega)
  unfold cachePutReqs
  rw [if_neg hadm, hsum, Nat.mod_eq_of_lt hthr]
  by_cases hlong : cfg.stripeThreshold < len
  · -- one part is enough
    have hdiv : (len + cfg.stripeUnit - 1) / cfg.stripeUnit = 1 :=
      Nat.div_eq_of_lt_le (by omega) (by omega)
    have hsplit : stripeSplit len cfg.stripeUnit = some 1 := by
      unfold stripeSplit
      rw [Nat.mod_eq_of_lt hunit, if_neg (by omega), hdiv]
      rfl
    have hslice : sliceLen cfg.stripeUnit len 0 = len := by
      unfold sliceLen
      omega
    rw [if_pos hlong]
    simp only [hmod, hsplit]
    rw [if_neg (by decide)]
    exact ⟨_, rfl, hslice, by simp [stripeReq, putOf]⟩
  rw [if_neg hlong]
  refine ⟨plainReq cfg.toConfig (putOf len) 1 ⟨0, [len]⟩ Flags.empty 0, rfl, ?_,
    by simp [plainReq, putOf]⟩
  change (putOf len).lens.sum % 2 ^ 32 = len
  rw [hsum, hmod]

end Config

/-! ## Runs that outgrow a buffer -/

section Overrun

variable {cfg : WriterConfig} {s : Shutdown}

/-- The put is called, with these requests to push. -/
def withPut (s : Shutdown) (reqs : List PutReq) : Shutdown :=
  { s with ws := s.ws.addPut (.pushing reqs) ⟨reqs.length, none, []⟩ }

theorem step_run {l : WLabel} (hruns : s.runs l = true) :
    s.step (.run l) = (s.ws.step l).map fun ws => { s with ws := ws } := if_pos hruns

theorem step_put (hopen : s.closing = false) {ver : Nat} {reqs : List PutReq}
    (hreqs : cachePutReqs s.ws.cfg.toConfig a ver shape = some reqs) :
    s.step (.run (.put a ver shape)) = some (withPut s reqs) := by
  have hadm : ¬ (maxGroups ≤ a.groupIdx ∨ s.ws.cfg.maxLayers < a.lens.length) := by
    intro hno
    unfold cachePutReqs at hreqs
    rw [if_pos hno] at hreqs
    cases hreqs
  have hruns : s.runs (.put a ver shape) = true := by simp [Shutdown.runs, hopen]
  have hws : s.ws.step (.put a ver shape) =
      some (s.ws.addPut (.pushing reqs) ⟨reqs.length, none, []⟩) := by
    simp only [Writers.step, Writers.put, if_neg hadm, hreqs]
  rw [step_run hruns, hws]
  rfl

theorem step_push (i : Nat) (r : PutReq) (todo : List PutReq)
    (hstatus : s.ws.status i = .pushing (r :: todo)) (hi : i < s.ws.nPuts)
    (hroom : (s.ws.shards r.dev).ring.length < ringCap) :
    s.step (.run (.push i)) = some { s with ws := s.ws.pushed i r todo } := by
  rw [step_run rfl]
  simp only [Writers.step, Writers.push, hstatus, if_pos (And.intro hi hroom), map_some]

theorem exists_loaded {a₁ a₂ : PutArgs} {sh₁ sh₂ : Shape} {r₁ r₂ : PutReq}
    (h₁ : cachePutReqs cfg.toConfig a₁ 1 sh₁ = some [r₁])
    (h₂ : cachePutReqs cfg.toConfig a₂ 1 sh₂ = some [r₂]) (hd₁ : r₁.dev = d) (hd₂ : r₂.dev = d) :
    ∃ ls s, RunOf Shutdown.step DrainFits (Shutdown.start cfg) ls s ∧ s.ws.cfg = cfg ∧
      s.phase d = .main ∧
      s.ws.shards d = ⟨[⟨0, r₁⟩, ⟨1, r₂⟩], .top, .empty, .empty⟩ := by
  have hput₁ := step_put (s := Shutdown.start cfg) rfl h₁
  have hput₂ := step_put (s := withPut (Shutdown.start cfg) [r₁]) rfl h₂
  generalize hs : withPut (withPut (Shutdown.start cfg) [r₁]) [r₂] = s at hput₂
  have hshards : s.ws.shards = fun _ => ⟨[], .top, .empty, .empty⟩ := by
    rw [← hs]
    rfl
  have hpush₁ := step_push (s := s) 0 r₁ [] (by rw [← hs]; rfl) (by rw [← hs]; exact Nat.succ_pos 1) (by
    rw [hshards]
    exact (by decide : 0 < ringCap))
  have hpush₂ := step_push (s := { s with ws := s.ws.pushed 0 r₁ [] }) 1 r₂ []
    (by rw [← hs]; rfl) (by rw [← hs]; exact Nat.lt_succ_self 1) (by
      simp only [Writers.pushed, Writers.setShard, hd₁, hd₂, update_self, Shard.enqueue, hshards]
      exact (by decide : 1 < ringCap))
  have hrun : RunOf Shutdown.step DrainFits (Shutdown.start cfg)
      [.run (.put a₁ 1 sh₁), .run (.put a₂ 1 sh₂), .run (.push 0), .run (.push 1)] _ :=
    .cons trivial hput₁ (.cons trivial hput₂ (.cons trivial hpush₁ (.cons trivial hpush₂ (.nil _))))
  refine ⟨_, _, hrun, by rw [← hs]; rfl, by rw [← hs]; rfl, ?_⟩
  simp only [Writers.pushed, Writers.setShard, hd₁, hd₂, update_self, Shard.enqueue, hshards]
  rfl

theorem take_first (hd : d < s.ws.cfg.nDevs) (hphase : s.phase d = .main) {q : QReq}
    {ring : List QReq} {o : Batch} (hw : s.ws.shards d = ⟨q :: ring, .top, .empty, o⟩) :
    ∃ ls s', RunOf Shutdown.step DrainFits s ls s' ∧ s'.ws.cfg = s.ws.cfg ∧ s'.phase = s.phase ∧
      s'.ws.shards d = ⟨ring, .fill none, Batch.empty.add q, o⟩ := by
  have hpop : s.step (.run (.pop d)) =
      some { s with ws := s.ws.setShard d ⟨ring, .fill (some q), .empty, o⟩ } := by
    rw [step_run (by simp [Shutdown.runs, hphase])]
    simp only [Writers.step, Writers.shardOf, if_pos hd, Writers.writerStep, hw, map_some]
  have hfill : Shutdown.step { s with ws := s.ws.setShard d ⟨ring, .fill (some q), .empty, o⟩ }
      (.run (.fill d true)) =
      some { s with ws := s.ws.setShard d ⟨ring, .place q, .empty, o⟩ } := by
    have hnot : ¬ (batchMaxReqs ≤ Batch.empty.reqs.length ∨
        s.ws.cfg.batchMinBytes ≤ Batch.empty.used) := not_batchFull_empty s.ws.cfg
    rw [step_run (by simp [Shutdown.runs, hphase])]
    simp only [Writers.step, Writers.shardOf, Writers.setShard, if_pos hd, Writers.writerStep,
      update_self, Writers.fillStep, if_neg hnot, map_some, update_idem]
  have hplace : Shutdown.step { s with ws := s.ws.setShard d ⟨ring, .place q, .empty, o⟩ }
      (.run (.place d)) =
      some { s with ws := s.ws.setShard d ⟨ring, .fill none, Batch.empty.add q, o⟩ } := by
    have hfits : Writers.fits s.ws.cfg .empty q = true := by simp [Writers.fits, Batch.empty]
    rw [step_run (by simp [Shutdown.runs, hphase])]
    simp only [Writers.step, Writers.shardOf, Writers.setShard, if_pos hd, Writers.writerStep,
      update_self, Writers.placeStep, hfits, if_true, map_some, update_idem]
  refine ⟨[.run (.pop d), .run (.fill d true), .run (.place d)], _,
    .cons trivial hpop (.cons trivial hfill (.cons trivial hplace (.nil _))), rfl, rfl, ?_⟩
  exact update_self ..

theorem take_next (hd : d < s.ws.cfg.nDevs) (hphase : s.phase d = .main) {q : QReq}
    {ring : List QReq} {b o : Batch} (hw : s.ws.shards d = ⟨q :: ring, .fill none, b, o⟩)
    (hnot : ¬ BatchFull s.ws.cfg b) (hfits : Writers.fits s.ws.cfg b q = true) :
    ∃ ls s', RunOf Shutdown.step DrainFits s ls s' ∧ s'.ws.cfg = s.ws.cfg ∧
      s'.ws.shards d = ⟨ring, .fill none, b.add q, o⟩ := by
  have hnot : ¬ (batchMaxReqs ≤ b.reqs.length ∨ s.ws.cfg.batchMinBytes ≤ b.used) := hnot
  have hfill : s.step (.run (.fill d true)) =
      some { s with ws := s.ws.setShard d ⟨ring, .place q, b, o⟩ } := by
    rw [step_run (by simp [Shutdown.runs, hphase])]
    simp only [Writers.step, Writers.shardOf, if_pos hd, Writers.writerStep, hw, Writers.fillStep,
      if_neg hnot, map_some]
  have hplace : Shutdown.step { s with ws := s.ws.setShard d ⟨ring, .place q, b, o⟩ }
      (.run (.place d)) =
      some { s with ws := s.ws.setShard d ⟨ring, .fill none, b.add q, o⟩ } := by
    rw [step_run (by simp [Shutdown.runs, hphase])]
    simp only [Writers.step, Writers.shardOf, Writers.setShard, if_pos hd, Writers.writerStep,
      update_self, Writers.placeStep, hfits, if_true, map_some, update_idem]
  refine ⟨[.run (.fill d true), .run (.place d)], _,
    .cons trivial hfill (.cons trivial hplace (.nil _)), rfl, ?_⟩
  exact update_self ..

theorem accepted_bounds {k : Option KvConfig} {devPages : Option Nat}
    (hopen : cacheOpenConfig k n devPages = some cfg) :
    0 < cfg.maxLayers ∧ cfg.batchMinBytes % pageSize = 0 ∧
      cfg.batchMinBytes ≤ cfg.stripeThreshold := by
  unfold cacheOpenConfig at hopen
  simp only at hopen
  split at hopen
  · split at hopen
    · cases hopen
    rename_i hacc
    obtain ⟨_, _, hpage, hmin, _⟩ : _ ∧ _ ∧ _ ∧ _ ∧ _ := by simpa only [not_or] using hacc
    cases hopen
    exact ⟨orDefault_pos (by decide), not_not.1 hpage, Nat.le_of_not_lt hmin⟩
  · cases hopen

theorem buffersOk_of_runs {k : Option KvConfig} {devPages : Option Nat}
    (hopen : cacheOpenConfig k n devPages = some cfg) (hthr : cfg.stripeThreshold < 2 ^ 32)
    (hunit : cfg.stripeUnit < 2 ^ 32)
    (hall : ∀ ls s, RunOf Shutdown.step DrainFits (Shutdown.start cfg) ls s → BatchesFit s) :
    BuffersOk cfg := by
  obtain ⟨hlayers, hpage, hmin⟩ := accepted_bounds hopen
  have hpos := cfg.minPos
  -- two puts of given lengths, the first of which is in a batch
  have hfirst : ∀ x₁ x₂, x₁ ≤ max cfg.stripeThreshold cfg.stripeUnit →
      x₂ ≤ max cfg.stripeThreshold cfg.stripeUnit → ∃ q₁ q₂ : QReq, q₁.req.dataLen = x₁ ∧
        q₂.req.dataLen = x₂ ∧ ∃ d ls s, d < cfg.nDevs ∧
        RunOf Shutdown.step DrainFits (Shutdown.start cfg) ls s ∧ s.ws.cfg = cfg ∧
        s.phase d = .main ∧ s.ws.shards d = ⟨[q₂], .fill none, Batch.empty.add q₁, .empty⟩ := by
    intro x₁ x₂ hx₁ hx₂
    obtain ⟨r₁, hr₁, hlen₁, hdev₁⟩ := exists_putOf hlayers hthr hunit x₁ hx₁
    obtain ⟨r₂, hr₂, hlen₂, hdev₂⟩ := exists_putOf hlayers hthr hunit x₂ hx₂
    obtain ⟨ls, s, hrun, hcfg, hphase, hw⟩ := exists_loaded hr₁ hr₂ hdev₁ hdev₂
    have hd : baseDev cfg.nDevs 0 % cfg.nDevs < cfg.nDevs := Nat.mod_lt _ cfg.devsPos
    obtain ⟨ls', s', hrun', hcfg', hphase', hw'⟩ := take_first (hcfg.symm ▸ hd) hphase hw
    exact ⟨⟨0, r₁⟩, ⟨1, r₂⟩, hlen₁, hlen₂, _, _, s', hd, hrun.append hrun', hcfg'.trans hcfg,
      by rw [hphase']; exact hphase, hw'⟩
  have hfits : ∀ {d : Nat} {s : Shutdown} {b o : Batch} {pc : Pc} {ring : List QReq},
      BatchesFit s → s.ws.cfg = cfg → s.ws.shards d = ⟨ring, pc, b, o⟩ →
        batchPageBytes b ≤ batchBufSize cfg := by
    intro d s b o pc ring hfit hcfg hw
    have hcur := (hfit d).1
    rw [hw, hcfg] at hcur
    exact hcur.2
  have hbuf : max cfg.stripeThreshold cfg.stripeUnit + 4 * pageSize < 2 ^ 32 := by
    by_contra hbig
    have hsize : batchBufSize cfg < 4 * pageSize := by
      unfold batchBufSize
      omega
    have hfour : 4 * pageSize ≤ max cfg.stripeThreshold cfg.stripeUnit := by
      unfold pageSize at hbig ⊢
      omega
    obtain ⟨q₁, q₂, hlen₁, _, d, ls, s, _, hrun, hcfg, _, hw⟩ := hfirst _ _ hfour hfour
    have hle := hfits (hall ls s hrun) hcfg hw
    rw [batchPageBytes_add, batchPageBytes_of_nil rfl] at hle
    have hlow := (reqBytes_bounds (r := q₁) (by omega)).1
    omega
  have hsize : batchBufSize cfg = max cfg.stripeThreshold cfg.stripeUnit + 4 * pageSize :=
    Nat.mod_eq_of_lt hbuf
  refine ⟨hbuf, ?_⟩
  by_contra hbig
  obtain ⟨q₁, q₂, hlen₁, hlen₂, d, ls, s, hd, hrun, hcfg, hphase, hw⟩ :=
    hfirst (cfg.batchMinBytes - pageSize) (max cfg.stripeThreshold cfg.stripeUnit) (by omega)
      (Nat.le_refl _)
  obtain ⟨hlow₁, hhigh₁, hwhole₁⟩ := reqBytes_bounds (r := q₁) (by omega)
  obtain ⟨hlow₂, hhigh₂, hwhole₂⟩ := reqBytes_bounds (r := q₂) (by omega)
  rw [hlen₁] at hlow₁ hhigh₁
  rw [hlen₂] at hlow₂ hhigh₂
  unfold pageSize at hbuf hpage hsize hlow₁ hhigh₁ hwhole₁ hhigh₂ hwhole₂
  have hexact : reqBytes q₁ = cfg.batchMinBytes - 4096 := by omega
  have hused : (Batch.empty.add q₁).used = cfg.batchMinBytes - 4096 := by
    change (0 + reqBytes q₁) % 2 ^ 32 = _
    omega
  -- the sum of the two wraps, and the second is let in
  obtain ⟨ls', s', hrun', hcfg', hw'⟩ := take_next (hcfg.symm ▸ hd) hphase hw
    (by
      rw [hcfg]
      rintro (hfull | hfull)
      · exact absurd hfull (by simp [Batch.add, Batch.empty, batchMaxReqs])
      · rw [hused] at hfull
        omega)
    (by
      rw [hcfg]
      unfold Writers.fits
      rw [hused, hsize, Bool.or_eq_true, decide_eq_true_eq]
      refine .inr ?_
      change (_ + reqBytes q₂) % 2 ^ 32 ≤ _
      omega)
  have hle := hfits (hall _ s' (hrun.append hrun')) (hcfg'.trans hcfg) hw'
  rw [batchPageBytes_add, batchPageBytes_add, batchPageBytes_of_nil rfl, hexact, hsize] at hle
  omega

end Overrun

/-- The batches of a run fit exactly if each of its steps meets its condition; and with thresholds
and units of 32 bits, those of all runs whose drains meet theirs fit exactly if the buffers are not
cut to 32 bits and sums of bytes do not wrap. -/
theorem batches_fit_iff (cfg : WriterConfig) :
    (∀ ls s, RunOf Shutdown.step (fun _ _ => True) (Shutdown.start cfg) ls s →
      ((RunOf Shutdown.step (fun t _ => BatchesFit t) (Shutdown.start cfg) ls s ∧ BatchesFit s) ↔
        RunOf Shutdown.step StepFits (Shutdown.start cfg) ls s)) ∧
    ∀ k n devPages, cacheOpenConfig k n devPages = some cfg → cfg.stripeThreshold < 2 ^ 32 →
      cfg.stripeUnit < 2 ^ 32 →
      ((∀ ls s, RunOf Shutdown.step DrainFits (Shutdown.start cfg) ls s → BatchesFit s) ↔
        BuffersOk cfg) := by
  refine ⟨fun ls s hrun => ?_, fun k n devPages hopen hthr hunit => ⟨?_, ?_⟩⟩
  · exact RunOf.always_iff (P := BatchesFit) (I := BooksOk) (C := StepFits)
      (fun _ _ _ hbooks _ hst => hbooks.step hst)
      (fun _ _ _ hbooks _ hfit hst => batchesFit_step_iff hbooks hfit hst) hrun (booksOk_start cfg)
      (batchesFit_start cfg)
  · exact buffersOk_of_runs hopen hthr hunit
  · exact fun hok ls s hrun => hok.run (accepted_bounds hopen).2.1 hrun

/-- A put of one page that the writer finds in its ring after the end of its loop. -/
def drainedPut : List ShutdownLabel :=
  [.run (.put (putOf 100) 1 ⟨0, [100]⟩), .close, .stop 0, .leave 0, .run (.push 0), .drain 0]

/-- The batch the drain makes of it fits. -/
theorem batches_fit_one_record :
    ∃ s, RunOf Shutdown.step DrainFits (Shutdown.start smallRegions) drainedPut s ∧
      (s.ws.shards 0).cur.reqs.length = 1 ∧ BatchesFit s := by
  have hopen : cacheOpenConfig (some { kvConfigDefault with regionSizePages := 64 }) 1 none =
      some smallRegions := rfl
  have hrun : RunOf Shutdown.step DrainFits (Shutdown.start smallRegions) drainedPut _ :=
    .cons trivial rfl (.cons trivial rfl (.cons trivial rfl (.cons trivial rfl
      (.cons trivial rfl (.cons (fun r ring hr => by cases hr; exact ⟨by decide, by decide⟩) rfl
        (.nil _))))))
  have hok : BuffersOk smallRegions := ⟨by decide, by decide⟩
  exact ⟨_, hrun, by decide,
    ((batches_fit_iff smallRegions).2 _ _ _ hopen (by decide) (by decide)).2 hok _ _ hrun⟩

/-! ## What a drain collects -/

section Drain

/-- `k` of `n` requests are drained into the batch. -/
structure Draining (r : PutReq) (n k : Nat) (s : Shutdown) : Prop where
  cfgEq : s.ws.cfg = smallRegions
  phase : s.phase 0 = .drain
  nPuts : s.ws.nPuts = n
  todo : ∀ i, k ≤ i → i < n → s.ws.status i = .pushing [r]
  ring : (s.ws.shards 0).ring = []
  cur : (s.ws.shards 0).cur.reqs = (List.range k).map fun i => ⟨i, r⟩

theorem exists_called {r : PutReq} (hr : cachePutReqs smallRegions.toConfig a 1 shape = some [r])
    (n : Nat) :
    ∃ ls s, RunOf Shutdown.step (fun _ _ => True) (Shutdown.start smallRegions) ls s ∧
      s.ws.cfg = smallRegions ∧ s.closing = false ∧ s.ws.nPuts = n ∧
      (∀ i, i < n → s.ws.status i = .pushing [r]) ∧
      s.ws.shards = (Shutdown.start smallRegions).ws.shards ∧
      s.phase = (Shutdown.start smallRegions).phase := by
  induction n with
  | zero => exact ⟨[], _, .nil _, rfl, rfl, rfl, nofun, rfl, rfl⟩
  | succ n ih =>
    obtain ⟨ls, s, hrun, hcfg, hopen, hn, hstatus, hshards, hphase⟩ := ih
    have hput := step_put hopen (hcfg.symm ▸ hr)
    refine ⟨ls ++ [_], _, hrun.append (.cons trivial hput (.nil _)), hcfg, hopen, ?_, ?_, hshards,
      hphase⟩
    · exact congrArg (· + 1) hn
    intro i hi
    simp only [withPut, Writers.addPut, hn, update_apply]
    split
    · rfl
    · exact hstatus i (by omega)

theorem exists_draining {r : PutReq} (hr : cachePutReqs smallRegions.toConfig a 1 shape = some [r])
    (hdev : r.dev = 0) (n : Nat) :
    ∀ k, k ≤ n → ∃ ls s, RunOf Shutdown.step (fun _ _ => True) (Shutdown.start smallRegions) ls s ∧
      Draining r n k s := by
  intro k
  induction k with
  | zero =>
    intro _
    obtain ⟨ls, s, hrun, hcfg, _, hn, hstatus, hshards, hphase⟩ := exists_called hr n
    have hstop : Shutdown.step { s with closing := true } (.stop 0) =
        some { s with closing := true, stop := update s.stop 0 true } := by
      refine if_pos ⟨rfl, ?_, rfl⟩
      rw [hcfg]
      decide
    have hleave : Shutdown.step
        { s with closing := true, stop := update s.stop 0 true } (.leave 0) =
        some { s with
          closing := true
          stop := update s.stop 0 true
          phase := update s.phase 0 .drain } := by
      refine if_pos ⟨by simp, ?_, ?_⟩
      · simp only [hphase]
        rfl
      · simp only [hshards]
        rfl
    refine ⟨ls ++ [.close, .stop 0, .leave 0], _, hrun.append (.cons trivial rfl
      (.cons trivial hstop (.cons trivial hleave (.nil _)))), ?_⟩
    refine ⟨hcfg, by simp, hn, fun i _ hi => hstatus i hi, ?_, ?_⟩
    · simp only [hshards]
      rfl
    · simp only [hshards]
      rfl
  | succ k ih =>
    intro hk
    obtain ⟨ls, s, hrun, hs⟩ := ih (by omega)
    have hpush := step_push (s := s) k r [] (hs.todo k (Nat.le_refl _) (by omega))
      (by rw [hs.nPuts]; omega) (by rw [hdev, hs.ring]; decide)
    have hring : ((s.ws.pushed k r []).shards 0).ring = [⟨k, r⟩] := by
      simp only [Writers.pushed, Writers.setShard, hdev, update_self, Shard.enqueue,
        hs.ring, nil_append]
    have hdrain : Shutdown.step { s with ws := s.ws.pushed k r [] } (.drain 0) =
        some { s with ws := (s.ws.pushed k r []).setShard 0 { (s.ws.pushed k r []).shards 0 with
          ring := []
          cur := ((s.ws.pushed k r []).shards 0).cur.drainAdd ⟨k, r⟩ } } := by
      simp only [Shutdown.step, Shutdown.drainStep, hring, if_pos hs.phase]
    refine ⟨ls ++ [.run (.push k), .drain 0], _, hrun.append (.cons trivial hpush
      (.cons trivial hdrain (.nil _))), ?_⟩
    refine ⟨hs.cfgEq, hs.phase, hs.nPuts, fun i hi hin => ?_, ?_, ?_⟩
    · simp only [Writers.setShard, Writers.pushed]
      rw [update_of_ne (by omega)]
      exact hs.todo i (by omega) hin
    · simp only [Writers.setShard, update_self]
    · simp only [Writers.setShard, update_self, Batch.drainAdd, Writers.pushed, hdev,
        Shard.enqueue, hs.cur, range_succ, map_append, map_cons, map_nil]

theorem Draining.bytes {r : PutReq} {n k : Nat} {s : Shutdown} (h : Draining r n k s) :
    batchPageBytes (s.ws.shards 0).cur = k * reqBytes ⟨0, r⟩ := by
  unfold batchPageBytes batchPages
  rw [h.cur, List.map_map]
  have hconst : ((fun q : QReq => payloadNpages q.req.dataLen) ∘ fun i => (⟨i, r⟩ : QReq)) =
      fun _ : Nat => payloadNpages r.dataLen := rfl
  rw [hconst, map_const', sum_replicate, length_range, smul_eq_mul, Nat.mul_assoc]
  rfl

end Drain

/-- A drain of 513 puts of one page runs over the end of the array of requests, and one of two puts
of 1 MiB over the end of the buffer. -/
theorem drain_overruns_batch :
    cacheOpenConfig (some { kvConfigDefault with regionSizePages := 64 }) 1 none =
        some smallRegions ∧
      (∃ ls s, RunOf Shutdown.step (fun _ _ => True) (Shutdown.start smallRegions) ls s ∧
        (s.ws.shards 0).cur.reqs.length = 513 ∧ ¬ BatchesFit s) ∧
      ∃ ls s, RunOf Shutdown.step (fun _ _ => True) (Shutdown.start smallRegions) ls s ∧
        (s.ws.shards 0).cur.reqs.length = 2 ∧ batchBufSize smallRegions = 1064960 ∧
        batchPageBytes (s.ws.shards 0).cur = 2097152 ∧ ¬ BatchesFit s := by
  have hlayers : 0 < smallRegions.maxLayers := by decide
  have hsize : batchBufSize smallRegions = 1064960 := by decide
  refine ⟨rfl, ?_, ?_⟩
  · obtain ⟨r, hr, _, hdev⟩ := exists_putOf hlayers (by decide) (by decide) 1 (by decide)
    obtain ⟨ls, s, hrun, hs⟩ := exists_draining hr (hdev.trans (by decide)) 513 513 (Nat.le_refl _)
    have hlen : (s.ws.shards 0).cur.reqs.length = 513 := by
      rw [hs.cur, length_map, length_range]
    refine ⟨ls, s, hrun, hlen, fun hfit => ?_⟩
    have hle := (hfit 0).1.1
    rw [hlen] at hle
    exact absurd hle (by decide)
  obtain ⟨r, hr, hdata, hdev⟩ := exists_putOf hlayers (by decide) (by decide) 1048576
    (by decide)
  obtain ⟨ls, s, hrun, hs⟩ := exists_draining hr (hdev.trans (by decide)) 2 2 (Nat.le_refl _)
  have hbytes : batchPageBytes (s.ws.shards 0).cur = 2097152 := by
    rw [hs.bytes, reqBytes, hdata]
    decide
  refine ⟨ls, s, hrun, ?_, hsize, hbytes, fun hfit => ?_⟩
  · rw [hs.cur, length_map, length_range]
  · have hle := (hfit 0).1.2
    rw [hbytes, hs.cfgEq, hsize] at hle
    exact absurd hle (by decide)

end KvTier.Analysis
