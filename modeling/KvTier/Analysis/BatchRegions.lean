import KvTier.Analysis.BatchBuffers

/-!
# Whether a batch stays in its region

Every batch that `writer_submit_batch` submits, in the loop of a writer and behind it.
-/

namespace KvTier.Analysis

open KvTier.Lib KvTier.Model Option

/-- What a drain collects fits the buffer. -/
def DrainsFit (s : Lifetime) : LifetimeLabel → Prop
  | .writer l => DrainFits s.sh l
  | _ => True

section Step

variable {cfg : WriterConfig} {s s' : Lifetime}

/-- A submission behind the loop is one of `Shutdown`. -/
theorem submitStep_of_entered {ws ws' : Writers} {d : Nat} {room : Bool}
    (h : (ws.setShard d { ws.shards d with pc := .submit }).step (.submit d room) = some ws') :
    Writers.submitStep ws d (ws.shards d) room = some ws' := by
  simp only [Writers.step, Writers.shardOf, Writers.writerStep, Writers.setShard,
    Function.update_self, if_true] at h
  split at h
  · unfold Writers.submitStep at h ⊢
    simpa only [Writers.setShard, Function.update_idem] using h
  · cases h

theorem lifetime_writer {l : ShutdownLabel} (h : s.step (.writer l) = some s') :
    ∃ sh, s.sh.step l = some sh ∧ s' = { s with sh := sh } := by
  have hstep : (s.sh.step l).map (fun sh => { s with sh := sh }) = some s' := by
    cases l with
    | finish d room => cases h
    | run l =>
      cases l with
      | submit d room => cases h
      | _ => exact h
    | _ => exact h
  obtain ⟨sh, hsh, rfl⟩ := map_eq_some_iff.1 hstep
  exact ⟨sh, hsh, rfl⟩

/-- A submission writes the current batch, or nothing. -/
theorem writes_of_submit {p p' : Placing} {d now : Nat} (hp : p.submit d now = some p') :
    ∃ room, p.ws.step (.submit d room) = some p'.ws ∧
      ∀ w ∈ p'.writes, w ∈ p.writes ∨ w.reqs = (p.ws.shards d).cur.reqs := by
  rcases submit_cases hp with ⟨hwr, room, hws, _⟩ | ⟨_, w, hws, hwr, hreqs, _, _⟩
  · exact ⟨room, hws, fun w hw => .inl (hwr ▸ hw)⟩
  refine ⟨true, hws, fun w' hw' => ?_⟩
  rw [hwr, List.mem_append, List.mem_singleton] at hw'
  rcases hw' with hw' | rfl
  · exact .inl hw'
  · exact .inr hreqs

/-- What the step of a lifetime is for the writers, and what it writes. -/
theorem lifetime_cases {l : LifetimeLabel} (h : s.step l = some s') :
    (s'.sh = s.sh ∧ s'.writes = s.writes) ∨
      ∃ l', s.sh.step l' = some s'.sh ∧ (DrainsFit s l → DrainFits s.sh l') ∧
        ∀ w ∈ s'.writes, w ∈ s.writes ∨ ∃ d, w.reqs = (s.sh.ws.shards d).cur.reqs := by
  cases l with
  | writer l =>
    obtain ⟨sh, hsh, rfl⟩ := lifetime_writer h
    exact .inr ⟨l, hsh, id, fun w hw => .inl hw⟩
  | submit d now =>
    simp only [Lifetime.step] at h
    split at h
    · rename_i hphase
      obtain ⟨p, hp, rfl⟩ := map_eq_some_iff.1 h
      obtain ⟨room, hws, hw⟩ := writes_of_submit hp
      have hruns : s.sh.runs (.submit d room) = true := by simp [Shutdown.runs, hphase]
      refine .inr ⟨.run (.submit d room), ?_, fun _ => trivial, fun w hm => ?_⟩
      · rw [step_run hruns, show s.sh.ws.step (.submit d room) = some p.ws from hws]
        rfl
      · exact (hw w hm).imp_right fun he => ⟨d, he⟩
    · cases h
  | finish d now =>
    simp only [Lifetime.step] at h
    split at h
    · rename_i hphase
      obtain ⟨p, hp, rfl⟩ := map_eq_some_iff.1 h
      obtain ⟨room, hws, hw⟩ := writes_of_submit hp
      refine .inr ⟨.finish d room, ?_, fun _ => trivial, fun w hm => ?_⟩
      · simp only [Shutdown.step, if_pos hphase, submitStep_of_entered hws, map_some]
      · refine (hw w hm).imp_right fun he => ⟨d, he.trans ?_⟩
        simp [Lifetime.entered, Writers.setShard]
    · cases h
  | index l =>
    obtain ⟨led, _, rfl⟩ := map_eq_some_iff.1 h
    exact .inl ⟨rfl, rfl⟩
  | trim d i =>
    cases h
    exact .inl ⟨rfl, rfl⟩

/-- Batches lie inside their regions if they are smaller than one. -/
theorem PlacingOk.lifetime (h : PlacingOk cfg s.placing) (hcnt : 0 < cfg.regionCnt)
    {l : LifetimeLabel} (hs : s.step l = some s') : PlacingOk cfg s'.placing := by
  cases l with
  | submit d now =>
    simp only [Lifetime.step] at hs
    split at hs
    · obtain ⟨p, hp, rfl⟩ := map_eq_some_iff.1 hs
      exact h.submit hcnt hp
    · cases hs
  | finish d now =>
    simp only [Lifetime.step] at hs
    split at hs
    · obtain ⟨p, hp, rfl⟩ := map_eq_some_iff.1 hs
      have hentered : PlacingOk cfg (s.entered d) := ⟨h.wsCfg, h.spCfg, h.cursor, h.writes⟩
      exact hentered.submit hcnt hp
    · cases hs
  | writer l =>
    obtain ⟨sh, hsh, rfl⟩ := lifetime_writer hs
    exact ⟨(cfg_shutdown_step hsh).trans h.wsCfg, h.spCfg, h.cursor, h.writes⟩
  | index l =>
    obtain ⟨led, hled, rfl⟩ := map_eq_some_iff.1 hs
    exact ⟨h.wsCfg, (cfg_ledger_step hled).trans h.spCfg, h.cursor, h.writes⟩
  | trim d i =>
    cases hs
    exact ⟨h.wsCfg, h.spCfg, h.cursor, h.writes⟩

end Step

/-- A batch stays inside its region exactly when it is smaller than one. The cache is open with any
configuration `cache_open_impl` accepts, its cursors stand where an open leaves them, and the index
and the regions are arbitrary. All batches are smaller than a region if the buffer is, its size has
32 bits, and what the drains collect fits it. -/
theorem writes_inside_iff {k : Option KvConfig} {n : Nat} {devPages : Option Nat}
    {cfg : WriterConfig} (hopen : cacheOpenConfig k n devPages = some cfg) {sp : Space}
    (hsp : sp.cfg = cfg.toConfig)
    (hcur : ∀ d, d < cfg.nDevs → (sp.cur d).nextPage = 1 ∧ (sp.cur d).region < cfg.regionCnt)
    {ls : List LifetimeLabel} {s : Lifetime}
    (hrun : RunOf Lifetime.step (fun _ _ => True) ⟨Shutdown.start cfg, sp, []⟩ ls s) :
    (∀ w ∈ s.writes, w.Inside cfg.toConfig ↔ batchPages w.reqs + 1 ≤ cfg.regionSizePages) ∧
      (BuffersOk cfg → batchBufSize cfg / pageSize + 1 ≤ cfg.regionSizePages →
        RunOf Lifetime.step DrainsFit ⟨Shutdown.start cfg, sp, []⟩ ls s →
        ∀ w ∈ s.writes, w.Inside cfg.toConfig) := by
  have hcnt := regionCnt_pos hopen
  have hok : PlacingOk cfg s.placing := by
    refine RunOf.invariant (fun s : Lifetime => PlacingOk cfg s.placing)
      (fun _ _ _ h _ hs => h.lifetime hcnt hs) hrun ?_
    refine ⟨rfl, hsp, fun d hd => ?_, by simp [Lifetime.placing]⟩
    obtain ⟨hpage, hreg⟩ := hcur d hd
    exact ⟨hpage.ge, hreg⟩
  refine ⟨hok.writes, fun hbuf hfit hdrains w hw => (hok.writes w hw).mpr ?_⟩
  -- every batch was one that fits the buffer
  have hsmall : BuffersInv cfg s.sh ∧
      ∀ w ∈ s.writes, batchPages w.reqs * pageSize ≤ batchBufSize cfg := by
    refine RunOf.invariant (fun s : Lifetime => BuffersInv cfg s.sh ∧
      ∀ w ∈ s.writes, batchPages w.reqs * pageSize ≤ batchBufSize cfg) ?_ hdrains
      ⟨.start cfg, by simp⟩
    rintro t l t' ⟨hinv, hle⟩ hl hst
    rcases lifetime_cases hst with ⟨hsh, hwr⟩ | ⟨l', hstep, hdrain, hwr⟩
    · rw [hsh, hwr]
      exact ⟨hinv, hle⟩
    refine ⟨hinv.step hbuf (accepted_bounds hopen).2.1 (hdrain hl) hstep, fun w hw => ?_⟩
    rcases hwr w hw with hw | ⟨d, hreqs⟩
    · exact hle w hw
    · rw [hreqs, ← hinv.cfgEq]
      exact (hinv.fit d).1.2
  have hpages : batchPages w.reqs ≤ batchBufSize cfg / pageSize :=
    (Nat.le_div_iff_mul_le (by decide)).mpr (hsmall.2 w hw)
  omega

/-- A put of one record, popped, placed and submitted. -/
def placeRecord (len : Nat) : List LifetimeLabel :=
  [.writer (.run (.put (recordPut len) 1 ⟨0, [len]⟩)), .writer (.run (.push 0)),
    .writer (.run (.pop 0)), .writer (.run (.fill 0 true)), .writer (.run (.place 0)),
    .writer (.run (.fill 0 false)), .submit 0 1]

/-- A put that the writer finds behind its loop. -/
def drainRecord (len : Nat) : List LifetimeLabel :=
  [.writer (.run (.put (recordPut len) 1 ⟨0, [len]⟩)), .writer .close, .writer (.stop 0),
    .writer (.leave 0), .writer (.run (.push 0)), .writer (.drain 0), .finish 0 1]

/-- The write of the record. -/
def recordWrite (len region start : Nat) : Write :=
  ⟨0, region, start, payloadNpages len,
    [⟨0, plainReq smallRegions.toConfig (recordPut len) 1 ⟨0, [len]⟩ Flags.empty 0⟩]⟩

/-- The formatted cache. -/
def lifetimeStart : Lifetime :=
  ⟨Shutdown.start smallRegions, Space.format smallRegions.toConfig 1, []⟩

/-- A put of 64 pages runs over the end of a region of 64 pages: the configuration is accepted, the
batch is put behind the header of the fresh region 1, and its last page is the header of region 2.
-/
theorem batch_over_region_end :
    cacheOpenConfig (some { kvConfigDefault with regionSizePages := 64 }) 1 none =
        some smallRegions ∧
      ∃ s w, RunOf Lifetime.step (fun _ _ => True) lifetimeStart (placeRecord (64 * 4096)) s ∧
        w ∈ s.writes ∧ ¬ w.Inside smallRegions.toConfig ∧
        w.region = 1 ∧ w.start + w.npages = pageBase smallRegions.toConfig 2 + 1 := by
  refine ⟨rfl, _, recordWrite (64 * 4096) 1 67,
    .cons trivial rfl (.cons trivial rfl (.cons trivial rfl (.cons trivial rfl
      (.cons trivial rfl (.cons trivial rfl (.cons trivial rfl (.nil _))))))), ?_, ?_, ?_, ?_⟩
  · decide
  · decide
  · decide
  · decide

/-- A put of 63 pages that is drained just fits. -/
theorem batch_fills_region :
    ∃ s w, RunOf Lifetime.step (fun _ _ => True) lifetimeStart (drainRecord (63 * 4096)) s ∧
      w ∈ s.writes ∧ w.npages = 63 ∧ w.Inside smallRegions.toConfig := by
  have hopen : cacheOpenConfig (some { kvConfigDefault with regionSizePages := 64 }) 1 none =
      some smallRegions := rfl
  have hrun : RunOf Lifetime.step (fun _ _ => True) lifetimeStart (drainRecord (63 * 4096)) _ :=
    .cons trivial rfl (.cons trivial rfl (.cons trivial rfl (.cons trivial rfl
      (.cons trivial rfl (.cons trivial rfl (.cons trivial rfl (.nil _)))))))
  have hcur : ∀ d, d < smallRegions.nDevs →
      ((Space.format smallRegions.toConfig 1).cur d).nextPage = 1 ∧
        ((Space.format smallRegions.toConfig 1).cur d).region < smallRegions.regionCnt :=
    fun d _ => ⟨rfl, Nat.zero_lt_succ 5⟩
  have hiff := (writes_inside_iff hopen rfl hcur hrun).1 (recordWrite (63 * 4096) 0 3) (by decide)
  exact ⟨_, _, hrun, by decide, rfl, hiff.mpr (by decide)⟩

end KvTier.Analysis
