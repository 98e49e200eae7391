import KvTier.Analysis.PinFacts

/-!
# Batches in flight and trims

A batch counts in `live_bytes` from its completion on.
-/

namespace KvTier.Analysis

open Function KvTier.Lib KvTier.Model Option

/-- The batch is in flight on device `d`. -/
def Flying (s : Threads) (d : Nat) (f : Flight) : Prop := s.cur d = some f ∨ s.other d = some f

/-- The region of every batch in flight is in use, and was not freed since the submission. -/
def FlightsSafe (s : Threads) : Prop :=
  ∀ d f, Flying s d f → (s.rg d f.write.region).state ≠ .free ∧
    (s.rg d f.write.region).epoch = f.epoch

/-- The step trims no region with a batch in flight, and submits no batch into a free region. -/
def SparesFlights (s : Threads) : ThreadLabel → Prop
  | .gcTrim => ∀ d i, s.gc = .trim d i → ∀ f, Flying s d f → f.write.region ≠ i
  | .submit d _ =>
    (s.pl.ws.shards d).cur.reqs ≠ [] →
    (s.pl.sp.cur d).nextPage + batchPages (s.pl.ws.shards d).cur.reqs ≤
      s.pl.sp.cfg.regionSizePages →
    (s.rg d (s.pl.sp.cur d).region).state ≠ .free
  | _ => True

section Flying

variable {s s' : Threads} {d d' : Nat} {f g : Flight}

/-- After a submission the batches of before are in flight, and one more. -/
theorem flying_of_submit (hcur : s'.cur = update s.cur d (s.other d))
    (hother : s'.other = update s.other d (some g)) (hf : Flying s' d' f) :
    Flying s d' f ∨ (d' = d ∧ f = g) := by
  unfold Flying at hf
  rw [hcur, hother] at hf
  by_cases hd : d' = d
  · subst hd
    rcases hf with hf | hf
    · exact .inl (.inr (by simpa using hf))
    · exact .inr ⟨rfl, by simpa using hf.symm⟩
  · rw [update_of_ne hd, update_of_ne hd] at hf
    exact .inl hf

/-- A batch that is in flight after a completion was so before. -/
theorem flying_of_complete {isCur : Bool}
    (hcur : s'.cur = if isCur then update s.cur d none else s.cur)
    (hother : s'.other = if isCur then s.other else update s.other d none)
    (hf : Flying s' d' f) : Flying s d' f := by
  have hkeep : ∀ {g : Nat → Option Flight}, update g d none d' = some f →
      g d' = some f := by
    intro g hg
    by_cases hd : d' = d
    · subst hd
      simp at hg
    · rwa [update_of_ne hd] at hg
  unfold Flying at hf
  rw [hcur, hother] at hf
  cases isCur with
  | true => exact hf.imp hkeep id
  | false => exact hf.imp id hkeep

end Flying

section Step

variable {s s' : Threads}

theorem FlightsSafe.mono (h : FlightsSafe s) (hrg : ∀ d i, s'.rg d i = s.rg d i)
    (hfly : ∀ d f, Flying s' d f → Flying s d f) : FlightsSafe s' := by
  intro d f hf
  rw [hrg]
  exact h d f (hfly d f hf)

theorem FlightsSafe.submit (h : FlightsSafe s) (hok : FlightsOk s) {d now : Nat} {pl : Placing}
    (hpl : s.pl.submit d now = some pl) {d' : Nat} {f : Flight} (hf : Flying s d' f) :
    (pl.sp.rg d' f.write.region).state ≠ .free ∧ (pl.sp.rg d' f.write.region).epoch = f.epoch := by
  have hregion : d' = d → f.write.region = (s.pl.sp.cur d).region := by
    intro hd
    subst hd
    rcases hf with hf | hf
    · rw [hok.cur_none hpl] at hf
      cases hf
    · exact (hok.other d' f hf).2
  have hkept := submit_kept hpl hregion
  exact ⟨hkept.used (h d' f hf).1, hkept.epoch.trans (h d' f hf).2⟩

theorem reqs_of_submit (hok : FlightsOk s) {d now : Nat} {pl : Placing} {w : Write}
    (hpl : s.pl.submit d now = some pl) (hw : pl.writes = s.pl.writes ++ [w]) :
    (s.pl.ws.shards d).cur.reqs ≠ [] := by
  obtain ⟨w', gone, hshard, _⟩ :=
    shards_of_writerStep rfl ((ws_of_submit hpl).2 (by rw [hw]; simp))
  have hcur := (hok.shards d).cur
  cases hshard with
  | skip hpc hnil =>
    rw [hpc] at hcur
    exact hcur.1
  | submit _ _ hreqs => exact hreqs

/-- The regions of the batches in flight stay in use. -/
theorem FlightsSafe.step (h : FlightsSafe s) (hok : FlightsOk s) {l : ThreadLabel}
    (hstep : ThreadCase s l s') (hspare : SparesFlights s l) : FlightsSafe s' := by
  cases hstep with
  | refused d now pl hpl hsame => exact fun d' f hf => h.submit hok hpl hf
  | submit d now pl w hpl hw =>
    intro d' f hf
    rcases flying_of_submit rfl rfl hf with hold | ⟨rfl, rfl⟩
    · exact h.submit hok hpl hold
    refine ⟨?_, rfl⟩
    show (pl.sp.rg d' w.region).state ≠ .free
    rcases region_of_submit hpl hw with ⟨hfits, hregion, hrg⟩ | ⟨_, hopen⟩
    · rw [hrg, hregion]
      exact hspare (reqs_of_submit hok hpl hw) hfits
    · rw [hopen]
      nofun
  | complete d isCur ioErr noNode crcs now ws f led readers hws hf hpub =>
    exact h.mono (fun _ _ => rfl) fun _ _ hf' => flying_of_complete rfl rfl hf'
  | gcTrim d i hgc =>
    intro d' f hf
    show ((s.pl.sp.trimRegion d i).rg d' f.write.region).state ≠ .free ∧
      ((s.pl.sp.trimRegion d i).rg d' f.write.region).epoch = f.epoch
    rw [Space.rg_trimRegion, if_neg]
    · exact h d' f hf
    · rintro ⟨rfl, hregion⟩
      exact hspare d' i hgc f hf hregion
  | _ => exact h.mono (fun _ _ => rfl) fun _ _ hf => hf

theorem inside_of_submit {cfg : WriterConfig} {d now : Nat} {pl : Placing} {w : Write}
    (h : PlacingOk cfg s.pl) (hcnt : 0 < cfg.regionCnt) (hpl : s.pl.submit d now = some pl)
    (hw : pl.writes = s.pl.writes ++ [w])
    (hfits : batchPages (s.pl.ws.shards d).cur.reqs + 1 ≤ s.led.cfg.regionSizePages) :
    w.dev = d ∧ w.Inside cfg.toConfig ∧ w.npages = batchPages w.reqs := by
  obtain ⟨hdev, _, hreqs, _⟩ := cur_of_submit hpl hw
  refine ⟨hdev, ((h.submit hcnt hpl).writes w (by rw [hw]; simp)).2 ?_, ?_⟩
  · rw [hreqs, ← h.spCfg]
    exact hfits
  rcases submit_cases hpl with ⟨hsame, _⟩ | ⟨sp, w', _, hw', _, hplace, _⟩
  · rw [hw] at hsame
    exact absurd hsame (by simp)
  obtain rfl : w' = w := by
    rw [hw'] at hw
    exact List.singleton_inj.1 (List.append_cancel_left hw)
  nth_rewrite 1 [(Prod.mk.inj hplace).2]
  rfl

end Step

/-! ## Batches that complete in time -/

/-- `gc_tick` is between its look at the region and the trim. -/
def GcAt (s : Threads) (d i : Nat) : Prop :=
  s.gc = .drop d i ∨ s.gc = .check d i ∨ s.gc = .trim d i

/-- Batches are smaller than a region and complete in time: while one is in flight in a region that
was frozen, the trim pass finds the region too young and no generation of its device is dropped; a
batch that needs no rotation finds the region of the cursor OPEN, and a rotation does not fall
between a look of `gc_tick` at the device and the trim. -/
def InTime (s : Threads) : ThreadLabel → Prop
  | .gcLook d _ now => ∀ f, Flying s d f → (s.rg d f.write.region).state = .frozen →
      now ≤ (s.rg d f.write.region).baseTs + s.epochSecs
  | .gcPick d _ => ∀ f, Flying s d f → (s.rg d f.write.region).state ≠ .frozen
  | .submit d _ =>
    batchPages (s.pl.ws.shards d).cur.reqs + 1 ≤ s.led.cfg.regionSizePages ∧
    ((s.pl.sp.cur d).nextPage + batchPages (s.pl.ws.shards d).cur.reqs ≤
        s.led.cfg.regionSizePages → (s.rg d (s.pl.sp.cur d).region).state = .opened) ∧
    (s.led.cfg.regionSizePages <
        (s.pl.sp.cur d).nextPage + batchPages (s.pl.ws.shards d).cur.reqs → ∀ i, ¬ GcAt s d i)
  | _ => True

/-- Every page of the batch that is published lies in a region in use. -/
def PublishesInUse (s : Threads) : ThreadLabel → Prop
  | .complete d isCur ioErr _ _ _ => ioErr = false → ∀ f, s.flight d isCur = some f →
      ∀ p, f.write.start ≤ p → p < f.write.start + batchPages f.write.reqs →
        ∃ i, regionOfPage s.led.cfg p = some i ∧ (s.rg f.write.dev i).state ≠ .free
  | _ => True

/-- What holds in a run of such steps. -/
structure TimelyInv (cfg : WriterConfig) (s : Threads) : Prop where
  placing : PlacingOk cfg s.pl
  flights : FlightsOk s
  safe : FlightsSafe s
  inside : ∀ d f, Flying s d f → f.write.dev = d ∧ f.write.Inside cfg.toConfig ∧
    f.write.npages = batchPages f.write.reqs
  gc : ∀ d i, GcAt s d i → (s.rg d i).state = .frozen ∧ ∀ f, Flying s d f → f.write.region ≠ i

section Timely

variable {cfg : WriterConfig} {s s' : Threads}

theorem TimelyInv.keep (h : TimelyInv cfg s) (hpl : PlacingOk cfg s'.pl) (hok : FlightsOk s')
    (hsafe : FlightsSafe s') (hrg : ∀ d i, s'.rg d i = s.rg d i)
    (hfly : ∀ d f, Flying s' d f → Flying s d f) (hgc : ∀ d i, GcAt s' d i → GcAt s d i) :
    TimelyInv cfg s' := by
  refine ⟨hpl, hok, hsafe, fun d f hf => h.inside d f (hfly d f hf), fun d i hat => ?_⟩
  obtain ⟨hstate, hno⟩ := h.gc d i (hgc d i hat)
  exact ⟨(hrg d i).symm ▸ hstate, fun f hf => hno f (hfly d f hf)⟩

theorem cfg_publishBatch {c : Completion} {k page : Nat} {rs : List QReq}
    {st st' : Ledger × List Reader} (h : publishBatch c k page rs st = some st') :
    st'.1.cfg = st.1.cfg := by
  induction rs generalizing k page st with
  | nil =>
    cases h
    rfl
  | cons r rs ih =>
    obtain ⟨st1, h1, h2⟩ := bind_eq_some_iff.1 h
    refine (ih h2).trans ?_
    unfold publishNth at h1
    split at h1
    · cases h1
      rfl
    · obtain ⟨led, hled, rfl⟩ := map_eq_some_iff.1 h1
      exact cfg_ledger_step hled

theorem cfg_publish {f : Flight} {ioErr : Bool} {noNode crcs : List Nat} {now : Nat} {led : Ledger}
    {readers : List Reader} (h : s.publish f ioErr noNode crcs now = some (led, readers)) :
    led.cfg = s.led.cfg := by
  unfold Threads.publish at h
  split at h
  · cases h
    rfl
  · exact cfg_publishBatch h

/-- No step trims the region of a batch that completes in time. -/
theorem TimelyInv.spares (h : TimelyInv cfg s) {l : ThreadLabel} (hl : InTime s l) :
    SparesFlights s l := by
  cases l with
  | gcTrim => exact fun d i hgc f hf => (h.gc d i (.inr (.inr hgc))).2 f hf
  | submit d now =>
    intro _ hfits hfree
    rw [hl.2.1 hfits] at hfree
    cases hfree
  | _ => trivial

theorem TimelyInv.gc_submit (h : TimelyInv cfg s) {d now : Nat} (hl : InTime s (.submit d now))
    {pl : Placing} (hpl : s.pl.submit d now = some pl) {d' i : Nat} (hat : GcAt s d' i) :
    (pl.sp.rg d' i).state = .frozen := by
  rw [rg_of_submit hpl i]
  · exact (h.gc d' i hat).1
  · rintro rfl
    exact Nat.not_lt.1 fun hover => hl.2.2 hover i hat

/-- A step in time keeps all this. -/
theorem TimelyInv.step (h : TimelyInv cfg s) (hcnt : 0 < cfg.regionCnt) {l : ThreadLabel}
    (hl : InTime s l) (hstep : ThreadCase s l s') : TimelyInv cfg s' := by
  have hok := h.flights.step hstep
  have hsafe := h.safe.step h.flights hstep (h.spares hl)
  have hled : ∀ {led : Ledger}, led.cfg = s.led.cfg →
      PlacingOk cfg { s.pl with sp := { s.pl.sp with led := led } } := by
    intro led hcfg
    exact ⟨h.placing.wsCfg, hcfg.trans h.placing.spCfg, h.placing.cursor, h.placing.writes⟩
  cases hstep with
  | writer l ws hws hsub hcomp =>
    refine h.keep ?_ hok hsafe (fun _ _ => rfl) (fun _ _ hf => hf) fun _ _ hat => hat
    exact ⟨(cfg_writers_step hws).trans h.placing.wsCfg, h.placing.spCfg, h.placing.cursor,
      h.placing.writes⟩
  | refused d now pl hpl hsame =>
    exact ⟨h.placing.submit hcnt hpl, hok, hsafe, h.inside,
      fun d' i hat => ⟨h.gc_submit hl hpl hat, (h.gc d' i hat).2⟩⟩
  | submit d now pl w hpl hw =>
    refine ⟨h.placing.submit hcnt hpl, hok, hsafe, fun d' f hf => ?_, fun d' i hat =>
      ⟨h.gc_submit hl hpl hat, fun f hf => ?_⟩⟩
    · rcases flying_of_submit rfl rfl hf with hold | ⟨rfl, rfl⟩
      · exact h.inside d' f hold
      · exact inside_of_submit h.placing hcnt hpl hw hl.1
    rcases flying_of_submit rfl rfl hf with hold | ⟨rfl, rfl⟩
    · exact (h.gc d' i hat).2 f hold
    -- the new batch is in an OPEN region
    rintro rfl
    rcases region_of_submit hpl hw with ⟨hfits, hregion, _⟩ | ⟨hover, _⟩
    · have hfrozen := (h.gc d' w.region hat).1
      rw [hregion, hl.2.1 hfits] at hfrozen
      cases hfrozen
    · exact hl.2.2 hover _ hat
  | complete d isCur ioErr noNode crcs now ws f led readers hws hf hpub =>
    refine h.keep ?_ hok hsafe (fun _ _ => rfl) (fun _ _ hf' => flying_of_complete rfl rfl hf')
      fun _ _ hat => hat
    exact ⟨(cfg_writers_step hws).trans h.placing.wsCfg, (cfg_publish hpub).trans h.placing.spCfg,
      h.placing.cursor, h.placing.writes⟩
  | evict path led hs | ttl now led hs | pin path lf led _ hs =>
    exact h.keep (hled (cfg_ledger_step hs)) hok hsafe (fun _ _ => rfl) (fun _ _ hf => hf)
      fun _ _ hat => hat
  | unpin i r led hr hs =>
    refine h.keep (hled ?_) hok hsafe (fun _ _ => rfl) (fun _ _ hf => hf) fun _ _ hat => hat
    unfold Threads.unpinned at hs
    split at hs
    · exact cfg_ledger_step hs
    · cases hs
      rfl
  | gcLook d i now hd hi hstate hlive hold =>
    refine ⟨h.placing, hok, hsafe, h.inside, fun d' i' hat => ?_⟩
    rcases hat with hat | hat | hat <;> cases hat
    refine ⟨hstate, fun f hf he => ?_⟩
    subst he
    exact absurd (hl f hf hstate) (Nat.not_le.2 hold)
  | gcPick d i hd hi hstate =>
    refine ⟨h.placing, hok, hsafe, h.inside, fun d' i' hat => ?_⟩
    rcases hat with hat | hat | hat <;> cases hat
    refine ⟨hstate, fun f hf he => ?_⟩
    subst he
    exact hl f hf hstate
  | gcDrop d i led hgc hs =>
    refine h.keep (hled (cfg_ledger_step hs)) hok hsafe (fun _ _ => rfl) (fun _ _ hf => hf)
      fun d' i' hat => ?_
    rcases hat with hat | hat | hat <;> cases hat
    exact .inl hgc
  | gcCheck d i hgc =>
    refine h.keep h.placing hok hsafe (fun _ _ => rfl) (fun _ _ hf => hf) fun d' i' hat => ?_
    rcases hat with hat | hat | hat <;> split at hat <;> cases hat
    exact .inr (.inl hgc)
  | gcTrim d i hgc =>
    refine ⟨⟨h.placing.wsCfg, h.placing.spCfg, h.placing.cursor, h.placing.writes⟩, hok, hsafe,
      h.inside, fun d' i' hat => ?_⟩
    rcases hat with hat | hat | hat <;> cases hat

theorem TimelyInv.publishes (h : TimelyInv cfg s) (l : ThreadLabel) : PublishesInUse s l := by
  cases l with
  | complete d isCur ioErr noNode crcs now =>
    intro _ f hf p hlo hhi
    have hfly : Flying s d f := by
      unfold Threads.flight at hf
      cases isCur with
      | true => exact .inl hf
      | false => exact .inr hf
    obtain ⟨rfl, ⟨_, hstart, hend⟩, hnp⟩ := h.inside d f hfly
    refine ⟨f.write.region, ?_, (h.safe _ f hfly).1⟩
    rw [show s.led.cfg = cfg.toConfig from h.placing.spCfg]
    exact regionOfPage_of_between (by omega) (by omega)
  | _ => trivial

end Timely

/-! ## Runs -/

/-- In a run of the threads of a cache whose batches are smaller than a region and complete in time,
no region is freed between the submission of a batch into it and its completion, and no completion
publishes into a free region. The index and the regions are arbitrary, with the cursors where an
open leaves them. -/
theorem publishes_in_use {cfg : WriterConfig} (hcnt : 0 < cfg.regionCnt) {sp : Space}
    (hsp : sp.cfg = cfg.toConfig)
    (hcur : ∀ d, d < cfg.nDevs → 1 ≤ (sp.cur d).nextPage ∧ (sp.cur d).region < cfg.regionCnt)
    {epochSecs : Nat} {ls : List ThreadLabel} {s : Threads}
    (hrun : RunOf Threads.step InTime (Threads.start cfg sp epochSecs) ls s) :
    RunOf Threads.step (fun s l => FlightsSafe s ∧ PublishesInUse s l)
        (Threads.start cfg sp epochSecs) ls s ∧ FlightsSafe s := by
  have hnone : ∀ d f, ¬ Flying (Threads.start cfg sp epochSecs) d f := by
    rintro d f (hf | hf) <;> cases hf
  have hstart : TimelyInv cfg (Threads.start cfg sp epochSecs) := by
    refine ⟨⟨rfl, hsp, hcur, nofun⟩, FlightsOk.start cfg sp epochSecs,
      fun d f hf => absurd hf (hnone d f), fun d f hf => absurd hf (hnone d f), ?_⟩
    rintro d i (hat | hat | hat) <;> cases hat
  refine (hrun.strengthen (TimelyInv cfg) ?_ hstart).imp_right TimelyInv.safe
  intro s l s' h hl hs
  exact ⟨h.step hcnt hl (thread_step_cases hs), h.safe, h.publishes l⟩

/-- A put of 40 pages, up to its submission. -/
def flyRecord (i : Nat) (h : UInt64) (now : Nat) : List ThreadLabel :=
  [.writer (.put ⟨h, 0, [h], 0, [163840], false, 0⟩ (i + 1) ⟨0, [163840]⟩), .writer (.push i),
    .writer (.pop 0), .writer (.fill 0 true), .writer (.place 0), .writer (.fill 0 false),
    .submit 0 now]

/-- Two such puts, the second of which rotates. -/
def rotatedRun : List ThreadLabel := flyRecord 0 7 1 ++ [.writer (.swap 0)] ++ flyRecord 1 8 5000

/-- The cache they are put into. -/
def flightStart : Threads := Threads.start smallRegions (Space.format smallRegions.toConfig 1) 3600

/-- Region 0 is trimmed before the first batch completes. -/
def trimmedRun : List ThreadLabel :=
  rotatedRun ++ [.gcLook 0 0 10000, .gcTrim, .complete 0 true false [] [] 10001]

/-- The first batch completes, and its generation is dropped while the second is in flight. -/
def droppedRun : List ThreadLabel :=
  rotatedRun ++ [.complete 0 true false [] [] 5001, .gcPick 0 0, .gcDrop, .gcCheck, .gcTrim,
    .complete 0 false false [] [] 5002]

/-- A test for that run. -/
def plainlyInTime (s : Threads) : ThreadLabel → Bool
  | .gcLook _ _ _ => false
  | .gcPick d _ => (s.cur d).isNone &&
    (s.other d).all fun f => (s.rg d f.write.region).state != .frozen
  | .submit d _ =>
    decide (batchPages (s.pl.ws.shards d).cur.reqs + 1 ≤ s.led.cfg.regionSizePages) &&
      (s.rg d (s.pl.sp.cur d).region).state == .opened && s.gc == .idle
  | _ => true

theorem inTime_of_plainly (s : Threads) (l : ThreadLabel) (h : plainlyInTime s l = true) :
    InTime s l := by
  cases l with
  | gcLook d i now => cases h
  | gcPick d i =>
    simp only [plainlyInTime, Bool.and_eq_true, isNone_iff_eq_none] at h
    rintro f (hf | hf)
    · rw [h.1] at hf
      cases hf
    · simpa [hf] using h.2
  | submit d now =>
    simp only [plainlyInTime, Bool.and_eq_true, decide_eq_true_eq, beq_iff_eq] at h
    obtain ⟨⟨hfits, hopen⟩, hidle⟩ := h
    refine ⟨hfits, fun _ => hopen, fun _ i hat => ?_⟩
    unfold GcAt at hat
    rw [hidle] at hat
    rcases hat with hat | hat | hat <;> cases hat
  | _ => trivial

/-- The region of the dropped generation is free at the end, and both completions published into
regions in use. -/
theorem dropped_in_time :
    ∃ s, RunOf Threads.step (fun s l => FlightsSafe s ∧ PublishesInUse s l) flightStart droppedRun s ∧
      (s.rg 0 0).state = .free ∧ s.led.idx.tree.leafAt [7] = none ∧
      (s.led.idx.tree.leafAt [8]).isSome := by
  have hrun : (droppedRun.foldlM (fun s l => if plainlyInTime s l then s.step l else none)
      flightStart).map (fun s : Threads => decide ((s.rg 0 0).state = .free ∧
        s.led.idx.tree.leafAt [7] = none ∧ (s.led.idx.tree.leafAt [8]).isSome)) =
      some true := by decide +kernel
  obtain ⟨s, hs, hres⟩ := map_eq_some_iff.1 hrun
  have hrun : RunOf Threads.step InTime flightStart droppedRun s :=
    RunOf.of_checked plainlyInTime inTime_of_plainly hs
  exact ⟨s, (publishes_in_use (by decide) rfl (fun _ _ => ⟨le_refl 1, Nat.zero_lt_succ _⟩) hrun).1,
    of_decide_eq_true hres⟩

/-- A batch is published into a region that was trimmed while the batch was in flight. -/
theorem flight_trimmed :
    ∃ s, RunOf Threads.step (fun _ _ => True) flightStart trimmedRun s ∧
      (s.rg 0 0).state = .free ∧
      ∃ lf, s.led.idx.tree.leafAt [7] = some lf ∧ lf.addr0.extent = ⟨0, 3, 40⟩ ∧
        regionOfPage s.led.cfg 3 = some 0 := by
  have hrun : (trimmedRun.foldlM Threads.step flightStart).map (fun s : Threads =>
      ((s.rg 0 0).state, (s.led.idx.tree.leafAt [7]).map (·.addr0.extent),
        regionOfPage s.led.cfg 3)) = some (.free, some ⟨0, 3, 40⟩, some 0) := by decide +kernel
  obtain ⟨s, hs, hres⟩ := map_eq_some_iff.1 hrun
  simp only [Prod.mk.injEq] at hres
  obtain ⟨lf, hlf, hext⟩ := map_eq_some_iff.1 hres.2.1
  exact ⟨s, RunOf.of_foldlM hs fun _ _ _ => trivial, hres.1, lf, hlf, hext, hres.2.2⟩

end KvTier.Analysis
