import KvTier.Analysis.Flights

/-!
# Regions with pinned pages

A reader holds the leaf it pinned from the increment of `refcnt` to the decrement.
-/

namespace KvTier.Analysis

open Function KvTier.Lib KvTier.Model Option

/-! ## What a submission does to the regions -/

section Submit

variable {s s' : Placing} {d now : Nat}

theorem submit_regions (h : s.submit d now = some s') :
    (s'.sp.led = s.sp.led ∧ ∀ d' i, Kept (s.sp.rg d' i) (s'.sp.rg d' i)) ∨
    (s.sp.cfg.regionSizePages < (s.sp.cur d).nextPage + batchPages (s.ws.shards d).cur.reqs ∧
      ∃ s1 next, (s.sp.freeze d now).nextRegion d = some (s1, some next) ∧
        s'.sp.led = (s1.openRegion d next now).led ∧
        ∀ d' i, (d' = d → i ≠ next) → Kept (s.sp.rg d' i) (s'.sp.rg d' i)) := by
  unfold Placing.submit at h
  simp only at h
  split at h
  · obtain ⟨ws, _, rfl⟩ := map_eq_some_iff.mp h
    exact .inl ⟨rfl, fun _ _ => Kept.refl _⟩
  obtain ⟨⟨sp, room⟩, hroom, h⟩ := bind_eq_some_iff.mp h
  obtain ⟨ws, _, h⟩ := bind_eq_some_iff.mp h
  -- Placing the batch moves the cursor only.
  have hsp : s'.sp.led = sp.led ∧ s'.sp.rms = sp.rms := by
    cases room with
    | false | true => cases h; exact ⟨rfl, rfl⟩
  have hrg : ∀ d' i, s'.sp.rg d' i = sp.rg d' i := by
    intro d' i
    show (s'.sp.rms d').rg i = (sp.rms d').rg i
    rw [hsp.2]
  rw [hsp.1]
  simp only [hrg]
  unfold Placing.makeRoom at hroom
  split at hroom
  · rename_i hover
    unfold Space.freezeAndRotate at hroom
    obtain ⟨⟨s1, r⟩, hnext, hroom⟩ := bind_eq_some_iff.mp hroom
    have hcase := nextRegion_cases hnext
    cases r with
    | none =>
      cases hroom
      refine .inl ⟨?_, fun d' i => ?_⟩
      · cases hcase
        rfl
      · rw [hcase.rg_of_ne fun _ => nofun]
        exact freeze_kept _ _ _ _ _
    | some next =>
      cases hroom
      refine .inr ⟨hover, s1, next, hnext, rfl, fun d' i hne => ?_⟩
      rw [Space.rg_openRegion, if_neg fun hc => hne hc.1 hc.2, hcase.rg_of_ne fun hd => ?_]
      · exact freeze_kept _ _ _ _ _
      · exact fun he => hne hd (Option.some.inj he).symm
  · cases hroom
    exact .inl ⟨rfl, fun _ _ => Kept.refl _⟩

end Submit

/-! ## The condition -/

/-- The regions a rotation may drop have no page of a pinned leaf. -/
def VictimsUnpinned (s : Threads) (d : Nat) : Prop :=
  ∀ v, v < s.led.cfg.regionCnt → v ≠ (s.pl.sp.cur d).region → (s.rg d v).state = .frozen →
    (∀ i, i < s.led.cfg.regionCnt → i ≠ (s.pl.sp.cur d).region → (s.rg d i).state = .frozen →
      s.pl.sp.live d v ≤ s.pl.sp.live d i) →
    ∀ r ∈ s.readers, ¬ HoldsPage s.led.cfg r.leaf d v

/-- What is asked of a step. -/
def SparesPins (s : Threads) : ThreadLabel → Prop
  | .gcTrim => SparesFlights s .gcTrim ∧ ∀ d i, s.gc = .trim d i → s.pl.sp.live d i = 0
  | .submit d now =>
    SparesFlights s (.submit d now) ∧
    batchPages (s.pl.ws.shards d).cur.reqs + 1 ≤ s.led.cfg.regionSizePages ∧
    (s.led.cfg.regionSizePages <
        (s.pl.sp.cur d).nextPage + batchPages (s.pl.ws.shards d).cur.reqs →
      (s.rg d (((s.pl.sp.cur d).region + 1) % s.led.cfg.regionCnt)).state ≠ .free →
      VictimsUnpinned s d)
  | .complete d isCur ioErr _ _ _ =>
    ioErr = false → ∀ f, s.flight d isCur = some f →
      SparesPinned s.led.idx f.write.reqs s.readers
  | _ => True

/-- Regions with pages of pinned leaves stay as they are. -/
def PinsKept (s s' : Threads) : Prop :=
  ∀ r ∈ s.readers, ∀ d i, HoldsPage s.led.cfg r.leaf d i →
    (s'.rg d i).state ≠ .free ∧ (s'.rg d i).epoch = (s.rg d i).epoch

/-! ## The invariant -/

/-- The regions that are not free. -/
def InUse (s : Threads) (d i : Nat) : Prop := (s.rg d i).state ≠ .free

/-- What holds in a run of such steps. -/
structure PinsInv (cfg : WriterConfig) (s : Threads) : Prop where
  cnt : 0 < cfg.regionCnt
  size : 0 < cfg.regionSizePages
  ledger : LedgerOk s.led
  placing : PlacingOk cfg s.pl
  flights : FlightsOk s
  safe : FlightsSafe s
  inside : ∀ d f, Flying s d f → f.write.dev = d ∧ f.write.Inside cfg.toConfig ∧
    f.write.npages = batchPages f.write.reqs
  pins : PinsOk s.led s.readers
  leaves : ∀ q lf, s.led.idx.tree.leafAt q = some lf → LeafIn cfg.toConfig (InUse s) lf
  gcRange : ∀ d i, s.gc = .drop d i ∨ s.gc = .check d i ∨ s.gc = .trim d i →
    d < cfg.nDevs ∧ i < cfg.regionCnt

section Inv

variable {cfg : WriterConfig} {s s' : Threads}

section Kept

variable (h : PinsInv cfg s)
include h

theorem PinsInv.cfgEq : s.led.cfg = cfg.toConfig := h.placing.spCfg

/-- The region of a pinned page is in use. -/
theorem PinsInv.holds {r : Reader} (hr : r ∈ s.readers) {d i : Nat}
    (hp : HoldsPage s.led.cfg r.leaf d i) :
    InUse s d i ∧ ∃ lf, s.led.idx.tree.leafAt r.path = some lf ∧ 0 < lf.refcnt ∧
      ∃ e ∈ lf.extents, e.devId = d ∧ regionOfPage s.led.cfg e.pageNo = some i ∧
        0 < e.lenPages := by
  obtain ⟨lf, hl, hbare⟩ := h.pins.leaf r hr
  rw [h.cfgEq] at hp ⊢
  have hp' : HoldsPage cfg.toConfig lf d i := by
    unfold HoldsPage
    rw [extents_eq_of_bareLeaf hbare]
    exact hp
  obtain ⟨hused, hext⟩ := (h.leaves r.path lf hl).holds hp'
  exact ⟨hused, lf, hl, h.pins.pinned hr hl, hext⟩

theorem PinsInv.not_holds {led : Ledger} (hs : Shrinks s.led led) (hcfg : led.cfg = s.led.cfg)
    {d i : Nat} (hno : NoPages led d i) {r : Reader} (hr : r ∈ s.readers) :
    ¬ HoldsPage s.led.cfg r.leaf d i := by
  intro hp
  obtain ⟨_, lf, hl, hpin, e, he, hd, hreg, hpos⟩ := h.holds hr hp
  have hzero := hno r.path lf (hs.pinned hl hpin) e he hd (hcfg ▸ hreg)
  omega

theorem PinsInv.kept_of_rg (hrg : ∀ d i, s'.rg d i = s.rg d i) :
    PinsKept s s' := by
  intro r hr d i hp
  rw [hrg]
  exact ⟨(h.holds hr hp).1, rfl⟩

theorem PinsInv.shrinks {led : Ledger} (hok : LedgerOk led) (hcfg : led.cfg = s.led.cfg)
    (hs : Shrinks s.led led) : PinsInv cfg (s.setLed led) where
  cnt := h.cnt
  size := h.size
  ledger := hok
  placing := ⟨h.placing.wsCfg, hcfg.trans h.cfgEq, h.placing.cursor, h.placing.writes⟩
  flights := h.flights.congr rfl rfl rfl rfl
  safe := h.safe.mono (fun _ _ => rfl) fun _ _ hf => hf
  inside := h.inside
  pins := h.pins.shrinks hs
  leaves q lf hl := h.leaves q lf (hs.left hl)
  gcRange := h.gcRange

theorem PinsInv.setGc {pc : GcPc}
    (hpc : ∀ d i, pc = .drop d i ∨ pc = .check d i ∨ pc = .trim d i →
      d < cfg.nDevs ∧ i < cfg.regionCnt) :
    PinsInv cfg { s with gc := pc } where
  cnt := h.cnt
  size := h.size
  ledger := h.ledger
  placing := h.placing
  flights := h.flights.congr rfl rfl rfl rfl
  safe := h.safe.mono (fun _ _ => rfl) fun _ _ hf => hf
  inside := h.inside
  pins := h.pins
  leaves := h.leaves
  gcRange := hpc

theorem PinsInv.leaves_setPins {led : Ledger} {node : Path} {f : Nat → Nat}
    (hs : s.led.setPins node f = some led) (q : Path) (lf : RadixLeaf)
    (hl : led.idx.tree.leafAt q = some lf) : LeafIn cfg.toConfig (InUse s) lf := by
  obtain ⟨lf0, hl0, hbare⟩ := leafAt_of_setPins hs hl
  unfold LeafIn
  rw [extents_eq_of_bareLeaf hbare]
  exact h.leaves q lf0 hl0

end Kept

end Inv

/-! ## Rotations -/

section Rotate

theorem led_clearLive {s : Space} {d i : Nat} (h0 : s.live d i = 0) :
    (s.clearLive d i).led = s.led := by
  show { s.led with
    live := update s.led.live d (update (s.led.live d) i 0) } = s.led
  rw [← show s.led.live d i = 0 from h0, update_eq_self, update_eq_self]

theorem led_trimRegion {s : Space} {d i : Nat} (h0 : s.live d i = 0) :
    (s.trimRegion d i).led = s.led := led_clearLive h0

theorem led_openRegion {s : Space} {d i now : Nat} (h0 : s.live d i = 0) :
    (s.openRegion d i now).led = s.led := led_clearLive h0

variable {cfg : WriterConfig} {s : Threads} {d now : Nat}

theorem PinsInv.noPages_of_free (h : PinsInv cfg s) {i : Nat} (hfree : (s.rg d i).state = .free) :
    NoPages s.led d i := by
  intro q lf hl e he hd hreg
  rcases Nat.eq_zero_or_pos e.lenPages with hzero | hpos
  · exact hzero
  rw [h.cfgEq] at hreg
  have hp : HoldsPage cfg.toConfig lf d i :=
    ⟨e, he, hd, e.pageNo, le_refl _, by omega, hreg⟩
  exact absurd hfree ((h.leaves q lf hl).holds hp).1

theorem PinsInv.noPages_of_drop (h : PinsInv cfg s) {v : Nat} {led : Ledger}
    (hdrop : s.led.dropRegion d v = some led) (hcfg : led.cfg = s.led.cfg)
    (hno : ∀ r ∈ s.readers, ¬ HoldsPage s.led.cfg r.leaf d v) : NoPages led d v := by
  intro q lf hl e he hd hreg
  rcases Nat.eq_zero_or_pos e.lenPages with hzero | hpos
  · exact hzero
  rw [hcfg] at hreg
  have hpin := dropRegion_left h.ledger hdrop hl he hd (by rw [h.cfgEq]; exact h.size) hreg
  -- A leaf that was passed over is that of a reader.
  obtain ⟨r, hr, _, hbare⟩ := h.pins.reader ((shrinks_sweepSlots _ hdrop).left hl) hpin
  refine absurd ?_ (hno r hr)
  exact ⟨e, extents_eq_of_bareLeaf hbare ▸ he, hd, e.pageNo, le_refl _, by omega, hreg⟩

/-- A rotation drops what the new region held, and no pinned leaf. -/
theorem PinsInv.rotate (h : PinsInv cfg s) (hd : d < cfg.nDevs) {s1 : Space} {next : Nat}
    (hnext : (s.pl.sp.freeze d now).nextRegion d = some (s1, some next))
    (hvictim : (s.rg d (((s.pl.sp.cur d).region + 1) % s.led.cfg.regionCnt)).state ≠ .free →
      VictimsUnpinned s d) :
    LedgerOk (s1.openRegion d next now).led ∧
      (s1.openRegion d next now).led.cfg = s.led.cfg ∧
      Shrinks s.led (s1.openRegion d next now).led ∧
      NoPages (s1.openRegion d next now).led d next := by
  have hcur := (h.placing.cursor d hd).2
  have hdn : d < s.led.cfg.nDevs := by rw [h.cfgEq]; exact hd
  have hcfgn : s.led.cfg.regionCnt = cfg.regionCnt := by rw [h.cfgEq]
  have hlt : next < s.led.cfg.regionCnt :=
    (nextRegion_cases hnext).lt (show 0 < s.led.cfg.regionCnt by rw [hcfgn]; exact h.cnt)
  -- It is enough that the counter of the region is 0 when it is opened.
  have hzero : ∀ {t : Space}, t.led = s.led → NoPages s.led d next →
      LedgerOk (t.openRegion d next now).led ∧ (t.openRegion d next now).led.cfg = s.led.cfg ∧
        Shrinks s.led (t.openRegion d next now).led ∧
        NoPages (t.openRegion d next now).led d next := by
    intro t ht hno
    have hlive : t.live d next = 0 := by
      show t.led.live d next = 0
      rw [ht]
      exact (h.ledger.live_eq_zero_iff hdn hlt).2 hno
    rw [led_openRegion hlive, ht]
    exact ⟨h.ledger, rfl, .refl _, hno⟩
  by_cases hfree : ((s.pl.sp.freeze d now).rg d
      (((s.pl.sp.cur d).region + 1) % s.led.cfg.regionCnt)).state = .free
  · have heq : (s.pl.sp.freeze d now).nextRegion d = some (s.pl.sp.freeze d now,
        some (((s.pl.sp.cur d).region + 1) % s.led.cfg.regionCnt)) := if_pos hfree
    obtain ⟨rfl, hn⟩ := Prod.mk.inj (Option.some.inj (heq.symm.trans hnext))
    obtain rfl := Option.some.inj hn
    refine hzero rfl (h.noPages_of_free ?_)
    by_contra hne
    exact (freeze_kept s.pl.sp d now d _).used hne hfree
  generalize hn : some next = n at hnext
  have hcase := nextRegion_cases hnext
  cases hcase with
  | inOrder hfree' => exact absurd hfree' hfree
  | @empty i hi hne hstate hlive =>
    cases hn
    refine hzero (led_trimRegion hlive) ?_
    exact (h.ledger.live_eq_zero_iff hdn hlt).1 hlive
  | full => cases hn
  | @victim v led hnone hv hdrop =>
    cases hn
    obtain ⟨hvlt, hvne, hvstate, hvleast⟩ := victimRegion_spec hv
    have hvne' : next ≠ (s.pl.sp.cur d).region := hvne
    have hvlt' : next < cfg.regionCnt := by rw [← hcfgn]; exact hvlt
    have hfrozen : ∀ i, i ≠ (s.pl.sp.cur d).region →
        (s.pl.sp.freeze d now).rg d i = s.rg d i := by
      intro i hi
      rw [Space.rg_freeze, if_neg fun hc => hi hc.2]
      rfl
    -- With a second region the next one in order is not the one that is frozen.
    have hord : ((s.pl.sp.cur d).region + 1) % s.led.cfg.regionCnt ≠ (s.pl.sp.cur d).region := by
      rw [hcfgn]
      intro hc
      rcases Nat.lt_or_ge ((s.pl.sp.cur d).region + 1) cfg.regionCnt with hlt' | hge
      · rw [Nat.mod_eq_of_lt hlt'] at hc
        omega
      · have hcnt : (s.pl.sp.cur d).region + 1 = cfg.regionCnt := by omega
        rw [hcnt, Nat.mod_self] at hc
        omega
    have hspare := hvictim (by rw [← hfrozen _ hord]; exact hfree) next hvlt hvne'
      (by rw [← hfrozen next hvne']; exact hvstate)
      (fun i hi hine his => hvleast i hi hine (by rw [hfrozen i hine]; exact his))
    have hstep := h.ledger.step (show s.led.step (.dropRegion d next) = some led from hdrop)
    have hno := h.noPages_of_drop hdrop hstep.2 hspare
    have hlive : led.live d next = 0 :=
      (hstep.1.live_eq_zero_iff (by rw [hstep.2]; exact hdn) (by rw [hstep.2]; exact hlt)).2 hno
    have htrim : (Space.trimRegion { s.pl.sp.freeze d now with led := led } d next).led = led :=
      led_trimRegion (show Space.live { s.pl.sp.freeze d now with led := led } d next = 0
        from hlive)
    have hled : ((Space.trimRegion { s.pl.sp.freeze d now with led := led } d next).openRegion
        d next now).led = led := by
      rw [led_openRegion, htrim]
      show (Space.trimRegion { s.pl.sp.freeze d now with led := led } d next).led.live d next = 0
      rw [htrim]
      exact hlive
    rw [hled]
    exact ⟨hstep.1, hstep.2, shrinks_sweepSlots _ hdrop, hno⟩

theorem PinsInv.submit (h : PinsInv cfg s) {pl : Placing} (hpl : s.pl.submit d now = some pl)
    (hl : SparesPins s (.submit d now)) (s' : Threads) (hs' : s'.pl = pl) :
    PinsKept s s' ∧ LedgerOk pl.sp.led ∧ PinsOk pl.sp.led s.readers ∧
      ∀ q lf, pl.sp.led.idx.tree.leafAt q = some lf → LeafIn cfg.toConfig (InUse s') lf := by
  subst hs'
  rcases submit_regions hpl with ⟨hled, hkept⟩ | ⟨hover, s1, next, hnext, hled, hkept⟩
  · rw [hled]
    refine ⟨fun r hr d' i hp => ?_, h.ledger, h.pins, fun q lf hq => ?_⟩
    · exact ⟨(hkept d' i).used (h.holds hr hp).1, (hkept d' i).epoch⟩
    · exact (h.leaves q lf hq).mono fun d' i _ hu => (hkept d' i).used hu
  obtain ⟨⟨room, hws⟩, _⟩ := ws_of_submit hpl
  have hd : d < cfg.nDevs := h.placing.wsCfg ▸ lt_of_submit hws
  obtain ⟨hok, hcfg, hshrinks, hno⟩ := h.rotate hd hnext (hl.2.2 hover)
  rw [← hled] at hok hcfg hshrinks hno
  refine ⟨fun r hr d' i hp => ?_, hok, h.pins.shrinks hshrinks, fun q lf hq => ?_⟩
  · have hne : d' = d → i ≠ next := by
      rintro rfl rfl
      exact h.not_holds hshrinks hcfg hno hr hp
    exact ⟨(hkept d' i hne).used (h.holds hr hp).1, (hkept d' i hne).epoch⟩
  have hin := h.leaves q lf (hshrinks.left hq)
  refine hin.mono fun d' i hp hu => (hkept d' i ?_).used hu
  rintro rfl rfl
  obtain ⟨_, e, he, hdev, hreg, hpos⟩ := hin.holds hp
  have hzero := hno q lf hq e he hdev (by rw [hcfg, h.cfgEq]; exact hreg)
  omega

end Rotate

/-! ## Steps and runs -/

section Step

variable {cfg : WriterConfig} {s s' : Threads}

/-- A step that spares pins keeps their regions and the invariant. -/
theorem PinsInv.step (h : PinsInv cfg s) {l : ThreadLabel} (hl : SparesPins s l)
    (hstep : ThreadCase s l s') : PinsInv cfg s' ∧ PinsKept s s' := by
  have hflights := h.flights.step hstep
  have hsafe : SparesFlights s l → FlightsSafe s' := h.safe.step h.flights hstep
  cases hstep with
  | writer l ws hws hsub hcomp =>
    refine ⟨?_, h.kept_of_rg fun _ _ => rfl⟩
    exact ⟨h.cnt, h.size, h.ledger, ⟨(cfg_writers_step hws).trans h.placing.wsCfg,
      h.placing.spCfg, h.placing.cursor, h.placing.writes⟩, hflights, hsafe trivial, h.inside,
      h.pins, h.leaves, h.gcRange⟩
  | refused d now pl hpl hsame =>
    obtain ⟨hkept, hok, hpins, hleaves⟩ := h.submit hpl hl { s with pl := pl } rfl
    exact ⟨⟨h.cnt, h.size, hok, h.placing.submit h.cnt hpl, hflights, hsafe hl.1, h.inside, hpins,
      hleaves, h.gcRange⟩, hkept⟩
  | submit d now pl w hpl hw =>
    obtain ⟨hkept, hok, hpins, hleaves⟩ := h.submit hpl hl
      { s with
        pl := pl
        cur := update s.cur d (s.other d)
        other := update s.other d (some ⟨w, (pl.sp.rg d w.region).epoch⟩) } rfl
    refine ⟨⟨h.cnt, h.size, hok, h.placing.submit h.cnt hpl, hflights, hsafe hl.1, ?_, hpins,
      hleaves, h.gcRange⟩, hkept⟩
    intro d' f hf
    rcases flying_of_submit rfl rfl hf with hold | ⟨rfl, rfl⟩
    · exact h.inside d' f hold
    · exact inside_of_submit h.placing h.cnt hpl hw hl.2.1
  | complete d isCur ioErr noNode crcs now ws f led readers hws hf hpub =>
    have hfly : Flying s d f := by
      unfold Threads.flight at hf
      cases isCur with
      | true => exact .inl hf
      | false => exact .inr hf
    obtain ⟨hdev, hin, hnp⟩ := h.inside d f hfly
    have hbatch : BatchInv cfg.toConfig s.led.idx f.write.reqs (InUse s) (led, readers) ∨
        (led, readers) = (s.led, s.readers) := by
      unfold Threads.publish at hpub
      cases ioErr with
      | true =>
        cases hpub
        exact .inr rfl
      | false =>
        refine .inl (BatchInv.batch hin ?_ f.write.reqs (fun _ hr => hr) 0 f.write.start
          (le_refl _) (by rw [hnp]) ?_ hpub)
        · show InUse s f.write.dev f.write.region
          rw [hdev]
          exact (h.safe d f hfly).1
        · exact ⟨h.cfgEq, h.ledger, h.pins, fun _ _ _ hq => .inl hq, hl rfl f hf, h.leaves⟩
    have hall : led.cfg = cfg.toConfig ∧ LedgerOk led ∧ PinsOk led readers ∧
        ∀ q lf, led.idx.tree.leafAt q = some lf → LeafIn cfg.toConfig (InUse s) lf := by
      rcases hbatch with hb | heq
      · exact ⟨hb.cfgEq, hb.ledger, hb.pins, hb.leaves⟩
      · obtain ⟨rfl, rfl⟩ := Prod.mk.inj heq
        exact ⟨h.cfgEq, h.ledger, h.pins, h.leaves⟩
    obtain ⟨hcfg, hok, hpins, hleaves⟩ := hall
    exact ⟨⟨h.cnt, h.size, hok, ⟨(cfg_writers_step hws).trans h.placing.wsCfg, hcfg,
      h.placing.cursor, h.placing.writes⟩, hflights, hsafe trivial,
      fun d' f' hf' => h.inside d' f' (flying_of_complete rfl rfl hf'), hpins, hleaves, h.gcRange⟩,
      h.kept_of_rg fun _ _ => rfl⟩
  | evict path led hled =>
    have hok := h.ledger.step hled
    exact ⟨h.shrinks hok.1 hok.2 (shrinks_evict hled), h.kept_of_rg fun _ _ => rfl⟩
  | ttl now led hled =>
    have hok := h.ledger.step hled
    exact ⟨h.shrinks hok.1 hok.2 (shrinks_sweepSlots _ hled), h.kept_of_rg fun _ _ => rfl⟩
  | pin path lf led hleaf hled =>
    have hok := h.ledger.step hled
    refine ⟨⟨h.cnt, h.size, hok.1, ⟨h.placing.wsCfg, hok.2.trans h.cfgEq, h.placing.cursor,
      h.placing.writes⟩, hflights, hsafe trivial, h.inside, h.pins.pin hleaf hled, ?_, h.gcRange⟩,
      h.kept_of_rg fun _ _ => rfl⟩
    exact h.leaves_setPins (show s.led.setPins path (· + 1) = some led from hled)
  | unpin i r led hr hled =>
    have hmem := List.mem_of_getElem? hr
    have hled' : s.led.step (.unpin r.path) = some led := by
      simpa only [Threads.unpinned, h.pins.attached r hmem, if_true] using hled
    have hok := h.ledger.step hled'
    refine ⟨⟨h.cnt, h.size, hok.1, ⟨h.placing.wsCfg, hok.2.trans h.cfgEq, h.placing.cursor,
      h.placing.writes⟩, hflights, hsafe trivial, h.inside, h.pins.unpin hr hled', ?_, h.gcRange⟩,
      h.kept_of_rg fun _ _ => rfl⟩
    exact h.leaves_setPins (show s.led.setPins r.path (· - 1) = some led from hled')
  | gcLook d i now hd hi hstate hlive hold | gcPick d i hd hi hstate =>
    refine ⟨h.setGc fun d' i' hgc' => ?_, h.kept_of_rg fun _ _ => rfl⟩
    rw [h.cfgEq] at hd hi
    rcases hgc' with hgc' | hgc' | hgc' <;> cases hgc'
    exact ⟨hd, hi⟩
  | gcDrop d i led hgc hled =>
    have hok := h.ledger.step hled
    have hshr := h.shrinks hok.1 hok.2 (shrinks_sweepSlots _ hled)
    refine ⟨hshr.setGc fun d' i' hgc' => ?_, h.kept_of_rg fun _ _ => rfl⟩
    rcases hgc' with hgc' | hgc' | hgc' <;> cases hgc'
    exact h.gcRange d i (.inl hgc)
  | gcCheck d i hgc =>
    refine ⟨h.setGc fun d' i' hgc' => ?_, h.kept_of_rg fun _ _ => rfl⟩
    have hrange := h.gcRange d i (.inr (.inl hgc))
    rcases hgc' with hgc' | hgc' | hgc' <;> split at hgc' <;> cases hgc'
    exact hrange
  | gcTrim d i hgc =>
    have hlive := hl.2 d i hgc
    obtain ⟨hd, hi⟩ := h.gcRange d i (.inr (.inr hgc))
    have hno : NoPages s.led d i :=
      (h.ledger.live_eq_zero_iff (by rw [h.cfgEq]; exact hd) (by rw [h.cfgEq]; exact hi)).1 hlive
    have hled : (s.pl.sp.trimRegion d i).led = s.led := led_trimRegion hlive
    have hrg : ∀ d' i', ¬ (d' = d ∧ i' = i) →
        (s.pl.sp.trimRegion d i).rg d' i' = s.rg d' i' := by
      intro d' i' hne
      rw [Space.rg_trimRegion, if_neg hne]
      rfl
    refine ⟨⟨h.cnt, h.size, ?_, ⟨h.placing.wsCfg, ?_, h.placing.cursor, h.placing.writes⟩,
      hflights, hsafe hl.1, h.inside, ?_, ?_, fun d' i' hgc' => ?_⟩, fun r hr d' i' hp => ?_⟩
    · show LedgerOk (s.pl.sp.trimRegion d i).led
      rw [hled]
      exact h.ledger
    · show (s.pl.sp.trimRegion d i).led.cfg = cfg.toConfig
      rw [hled]
      exact h.cfgEq
    · show PinsOk (s.pl.sp.trimRegion d i).led s.readers
      rw [hled]
      exact h.pins
    · intro q lf hq
      change (s.pl.sp.trimRegion d i).led.idx.tree.leafAt q = some lf at hq
      rw [hled] at hq
      refine (h.leaves q lf hq).mono fun d' i' hp hu => ?_
      show ((s.pl.sp.trimRegion d i).rg d' i').state ≠ .free
      rw [hrg]
      · exact hu
      rintro ⟨rfl, rfl⟩
      obtain ⟨_, e, he, hdev, hreg, hpos⟩ := (h.leaves q lf hq).holds hp
      have hzero := hno q lf hq e he hdev (by rw [h.cfgEq]; exact hreg)
      omega
    · rcases hgc' with hgc' | hgc' | hgc' <;> cases hgc'
    show ((s.pl.sp.trimRegion d i).rg d' i').state ≠ .free ∧
      ((s.pl.sp.trimRegion d i).rg d' i').epoch = (s.rg d' i').epoch
    rw [hrg]
    · exact ⟨(h.holds hr hp).1, rfl⟩
    · rintro ⟨rfl, rfl⟩
      exact h.not_holds (.refl _) rfl hno hr hp

end Step

/-- Regions and index as an open leaves them. -/
structure SpaceOk (cfg : WriterConfig) (sp : Space) : Prop where
  cnt : 0 < cfg.regionCnt
  size : 0 < cfg.regionSizePages
  cfgEq : sp.cfg = cfg.toConfig
  ledger : LedgerOk sp.led
  cursor : ∀ d, d < cfg.nDevs → 1 ≤ (sp.cur d).nextPage ∧ (sp.cur d).region < cfg.regionCnt
  pins : ∀ q lf, sp.led.idx.tree.leafAt q = some lf → lf.refcnt = 0
  leaves : ∀ q lf, sp.led.idx.tree.leafAt q = some lf →
    LeafIn cfg.toConfig (fun d i => (sp.rg d i).state ≠ .free) lf

theorem SpaceOk.format {cfg : WriterConfig} (hdevs : cfg.nDevs ≤ invalidDev)
    (hcnt : 0 < cfg.regionCnt) (hsize : 0 < cfg.regionSizePages) (now : Nat) :
    SpaceOk cfg (Space.format cfg.toConfig now) where
  cnt := hcnt
  size := hsize
  cfgEq := rfl
  ledger := LedgerOk.empty hdevs
  cursor _ _ := ⟨le_refl 1, hcnt⟩
  pins q lf h := by simp [Space.format, Ledger.empty, Index.empty] at h
  leaves q lf h := by simp [Space.format, Ledger.empty, Index.empty] at h

theorem PinsInv.start {cfg : WriterConfig} {sp : Space} (h : SpaceOk cfg sp) (epochSecs : Nat) :
    PinsInv cfg (Threads.start cfg sp epochSecs) where
  cnt := h.cnt
  size := h.size
  ledger := h.ledger
  placing := ⟨rfl, h.cfgEq, h.cursor, nofun⟩
  flights := FlightsOk.start cfg sp epochSecs
  safe d f hf := by rcases hf with hf | hf <;> cases hf
  inside d f hf := by rcases hf with hf | hf <;> cases hf
  pins := ⟨nofun, nofun, fun q lf hl => h.pins q lf hl⟩
  leaves := h.leaves
  gcRange d i hgc := by rcases hgc with hgc | hgc | hgc <;> cases hgc

/-- In every run whose steps spare the pins, no step trims, frees or opens a region that holds a
page of a leaf a reader has pinned, and all these regions are in use at the end. The readers,
publishes, evicts, sweeps, looks and trims of `gc_tick` and rotations may be interleaved in any way.
-/
theorem pinned_pages_kept {cfg : WriterConfig} {sp : Space} (hsp : SpaceOk cfg sp)
    {epochSecs : Nat} {ls : List ThreadLabel} {s : Threads}
    (hrun : RunOf Threads.step SparesPins (Threads.start cfg sp epochSecs) ls s) :
    RunOf Threads.step (fun s l => ∀ s', s.step l = some s' → PinsKept s s')
        (Threads.start cfg sp epochSecs) ls s ∧
      ∀ r ∈ s.readers, ∀ d i, HoldsPage s.led.cfg r.leaf d i → (s.rg d i).state ≠ .free := by
  have hstep : ∀ s l s', PinsInv cfg s → SparesPins s l → s.step l = some s' →
      PinsInv cfg s' ∧ ∀ s', s.step l = some s' → PinsKept s s' := by
    intro s l s' h hl hs
    obtain ⟨h', hkept⟩ := h.step hl (thread_step_cases hs)
    refine ⟨h', fun s1 hs1 => ?_⟩
    obtain rfl := Option.some.inj (hs.symm.trans hs1)
    exact hkept
  obtain ⟨hall, hend⟩ := hrun.strengthen (PinsInv cfg) hstep (PinsInv.start hsp epochSecs)
  exact ⟨hall, fun r hr d i hp => (hend.holds hr hp).1⟩

/-- A put whose batch completes. -/
def storeRecord (i : Nat) (h : UInt64) (now : Nat) : List ThreadLabel :=
  flyRecord i h now ++ [.complete 0 false false [] [] now]

def pinnedWriteRun : List ThreadLabel :=
  storeRecord 0 7 1 ++ [.pin [7], .writer (.swap 0)] ++ storeRecord 1 8 5000

def plainlySparesPins (s : Threads) : ThreadLabel → Bool
  | .gcTrim => false
  | .submit d _ =>
    (s.rg d (s.pl.sp.cur d).region).state != .free &&
      decide (batchPages (s.pl.ws.shards d).cur.reqs + 1 ≤ s.led.cfg.regionSizePages) &&
      (s.rg d (((s.pl.sp.cur d).region + 1) % s.led.cfg.regionCnt)).state == .free
  | .complete d isCur _ _ _ _ => (s.flight d isCur).all fun f => f.write.reqs.all fun r =>
    s.readers.all fun rd => r.req.path != rd.path &&
      sideGet s.led.idx.side r.req.prefixId r.req.groupIdx != some rd.path
  | _ => true

theorem sparesPins_of_plainly (s : Threads) (l : ThreadLabel)
    (h : plainlySparesPins s l = true) : SparesPins s l := by
  cases l with
  | gcTrim => cases h
  | submit d now =>
    simp only [plainlySparesPins, Bool.and_eq_true, bne_iff_ne, ne_eq, decide_eq_true_eq,
      beq_iff_eq] at h
    exact ⟨fun _ _ => h.1.1, h.1.2, fun _ hne => absurd h.2 hne⟩
  | complete d isCur ioErr noNode crcs now =>
    intro _ f hf rd hrd r hr hreach
    simp only [plainlySparesPins, hf, all_some, List.all_eq_true, Bool.and_eq_true,
      bne_iff_ne, ne_eq] at h
    rcases hreach with hside | ⟨r0, hr0, _, _, hpath⟩
    · exact absurd hside (h r hr rd hrd).2
    · exact absurd hpath (h r0 hr0 rd hrd).1
  | _ => trivial

/-- A rotation, and a publish of another key, while a leaf is pinned. -/
theorem pinned_pages_kept_rotation :
    ∃ s, RunOf Threads.step SparesPins flightStart pinnedWriteRun s ∧
      s.readers.map (fun r => (r.path, r.leaf.extents)) = [([7], [⟨0, 3, 40⟩])] ∧
      (s.pl.sp.cur 0).region = 1 ∧
      ∀ r ∈ s.readers, ∀ d i, HoldsPage s.led.cfg r.leaf d i → (s.rg d i).state ≠ .free := by
  have hrun : (pinnedWriteRun.foldlM (fun s l => if plainlySparesPins s l then s.step l else none)
      flightStart).map (fun s : Threads =>
        (s.readers.map (fun r => (r.path, r.leaf.extents)), (s.pl.sp.cur 0).region)) =
      some ([([7], [⟨0, 3, 40⟩])], 1) := by decide +kernel
  obtain ⟨s, hs, hres⟩ := map_eq_some_iff.1 hrun
  have hspare : RunOf Threads.step SparesPins flightStart pinnedWriteRun s :=
    RunOf.of_checked plainlySparesPins sparesPins_of_plainly hs
  have hsp : SpaceOk smallRegions (Space.format smallRegions.toConfig 1) :=
    SpaceOk.format (by decide) (by decide) (by decide) 1
  exact ⟨s, hspare, congrArg Prod.fst hres, congrArg Prod.snd hres,
    (pinned_pages_kept hsp hspare).2⟩

/-- Two regions instead of six. -/
def twoRegions : WriterConfig := { smallRegions with regionCnt := 2 }

def forcedRun : List ThreadLabel :=
  pinnedWriteRun ++ [.writer (.swap 0)] ++ (flyRecord 2 9 6000).dropLast

def replacedRun : List ThreadLabel :=
  storeRecord 0 7 1 ++ [.pin [7], .writer (.swap 0)] ++ storeRecord 1 7 5000 ++ [.gcLook 0 0 10000]

theorem not_pinsKept {s s' : Threads} {e : Extent} {i : Nat}
    (hr : s.readers.map (fun r => r.leaf.extents) = [[e]]) (hpos : 0 < e.lenPages)
    (hreg : regionOfPage s.led.cfg e.pageNo = some i)
    (hlost : (s'.rg e.devId i).epoch ≠ (s.rg e.devId i).epoch) : ¬ PinsKept s s' := by
  intro hkept
  obtain ⟨r, hread, hext⟩ := List.map_eq_singleton_iff.1 hr
  refine hlost (hkept r (by rw [hread]; simp) e.devId i ?_).2
  exact ⟨e, by rw [hext]; simp, rfl, e.pageNo, le_refl _, by omega, hreg⟩

/-- Regions with pinned pages are freed in two ways. With two regions, the third put takes region 0
by force: the drop passes over the pinned leaf, the region is opened again, and the new batch is
written over the pinned pages. -/
theorem pinned_page_freed :
    cacheOpenConfig (some { kvConfigDefault with regionCnt := 2, regionSizePages := 64 }) 1 none =
        some twoRegions ∧
      (∃ s s' f, RunOf Threads.step (fun _ _ => True)
          (Threads.start twoRegions (Space.format twoRegions.toConfig 1) 3600) forcedRun s ∧
        s.step (.submit 0 6000) = some s' ∧ ¬ PinsKept s s' ∧
        s'.other 0 = some f ∧ f.write.start = 3) ∧
      ∃ s s', RunOf Threads.step (fun _ _ => True) flightStart replacedRun s ∧
        s.step .gcTrim = some s' ∧ ¬ PinsKept s s' ∧ (s'.rg 0 0).state = .free := by
  refine ⟨rfl, ?_, ?_⟩
  · have hrun : (forcedRun.foldlM Threads.step
        (Threads.start twoRegions (Space.format twoRegions.toConfig 1) 3600)).bind
        (fun s : Threads => (s.step (.submit 0 6000)).map fun s' : Threads =>
          (s.readers.map (fun r => r.leaf.extents), regionOfPage s.led.cfg 3, (s.rg 0 0).epoch,
            (s'.rg 0 0).epoch, (s'.other 0).map (·.write.start))) =
        some ([[⟨0, 3, 40⟩]], some 0, 1, 3, some 3) := by decide +kernel
    obtain ⟨s, hs, hrest⟩ := bind_eq_some_iff.1 hrun
    obtain ⟨s', hs', hres⟩ := map_eq_some_iff.1 hrest
    simp only [Prod.mk.injEq] at hres
    obtain ⟨hr, hreg, hepoch, hepoch', hother⟩ := hres
    obtain ⟨f, hf, hstart⟩ := map_eq_some_iff.1 hother
    have hall : RunOf Threads.step (fun _ _ => True)
        (Threads.start twoRegions (Space.format twoRegions.toConfig 1) 3600) forcedRun s :=
      RunOf.of_foldlM hs fun _ _ _ => trivial
    refine ⟨s, s', f, hall, hs', not_pinsKept hr (by decide) hreg ?_, hf, hstart⟩
    show (s'.rg 0 0).epoch ≠ (s.rg 0 0).epoch
    rw [hepoch, hepoch']
    decide
  have hrun : (replacedRun.foldlM Threads.step flightStart).bind
      (fun s : Threads => (s.step .gcTrim).map fun s' : Threads =>
        (s.readers.map (fun r => r.leaf.extents), regionOfPage s.led.cfg 3, (s.rg 0 0).epoch,
          (s'.rg 0 0).epoch, (s'.rg 0 0).state)) =
      some ([[⟨0, 3, 40⟩]], some 0, 1, 0, .free) := by decide +kernel
  obtain ⟨s, hs, hrest⟩ := bind_eq_some_iff.1 hrun
  obtain ⟨s', hs', hres⟩ := map_eq_some_iff.1 hrest
  simp only [Prod.mk.injEq] at hres
  obtain ⟨hr, hreg, hepoch, hepoch', hstate⟩ := hres
  have hall : RunOf Threads.step (fun _ _ => True) flightStart replacedRun s :=
    RunOf.of_foldlM hs fun _ _ _ => trivial
  refine ⟨s, s', hall, hs', not_pinsKept hr (by decide) hreg ?_, hstate⟩
  show (s'.rg 0 0).epoch ≠ (s.rg 0 0).epoch
  rw [hepoch, hepoch']
  decide

end KvTier.Analysis
