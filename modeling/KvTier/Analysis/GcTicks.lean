import KvTier.Model.GcTick
import KvTier.Analysis.RegionFacts

/-!
# What a tick of the garbage collector drops

A round of `gc_tick` looks for the oldest epoch among the frozen regions that are old enough, and
then drops every frozen region with that epoch.
-/

namespace KvTier.Analysis

open KvTier.Lib KvTier.Model List Option

variable {minAge now : Nat} {s s' : Space}

/-! ## The first scan -/

theorem oldest_fold (f : Nat × Nat → Bool) (ep : Nat × Nat → Nat) (rs : List (Nat × Nat))
    (start : Nat) :
    let oldest := rs.foldl (fun o r => if f r = true ∧ ep r < o then ep r else o) start
    (oldest = start ∨ ∃ r ∈ rs, f r = true ∧ ep r = oldest) ∧ oldest ≤ start ∧
      ∀ r ∈ rs, f r = true → oldest ≤ ep r := by
  induction rs generalizing start with
  | nil => exact ⟨.inl rfl, le_rfl, by simp⟩
  | cons r rs ih =>
    simp only [foldl_cons]
    by_cases hr : f r = true ∧ ep r < start
    · rw [if_pos hr]
      obtain ⟨hfrom, hle, hall⟩ := ih (ep r)
      refine ⟨.inr ?_, hle.trans hr.2.le, ?_⟩
      · rcases hfrom with heq | ⟨q, hq, hfq, heq⟩
        · exact ⟨r, by simp, hr.1, heq.symm⟩
        · exact ⟨q, by simp [hq], hfq, heq⟩
      intro q hq hfq
      rcases mem_cons.1 hq with rfl | hq
      · exact hle
      · exact hall q hq hfq
    rw [if_neg hr]
    obtain ⟨hfrom, hle, hall⟩ := ih start
    refine ⟨?_, hle, ?_⟩
    · rcases hfrom with heq | ⟨q, hq, hfq, heq⟩
      · exact .inl heq
      · exact .inr ⟨q, by simp [hq], hfq, heq⟩
    intro q hq hfq
    rcases mem_cons.1 hq with rfl | hq
    · exact hle.trans (not_lt.1 fun hlt => hr ⟨hfq, hlt⟩)
    · exact hall q hq hfq

/-- A region's header, by device and number. -/
def hdrOf (s : Space) (r : Nat × Nat) : RegionHdr := s.rg r.1 r.2

/-- A frozen region of the oldest eligible generation. -/
def OfOldest (minAge now : Nat) (s : Space) (r : Nat × Nat) : Prop :=
  (hdrOf s r).state = .frozen ∧ ∃ q ∈ s.regions, genEligible minAge now (hdrOf s q) = true ∧
    (∀ q' ∈ s.regions, genEligible minAge now (hdrOf s q') = true →
      (hdrOf s q).epoch ≤ (hdrOf s q').epoch) ∧
    (hdrOf s r).epoch = (hdrOf s q).epoch

/-- What the two scans of a round meet. -/
theorem ofOldest_iff (h : oldestEpoch s minAge now ≠ 2 ^ 64 - 1) (r : Nat × Nat) :
    OfOldest minAge now s r ↔
      (hdrOf s r).state = .frozen ∧ (hdrOf s r).epoch = oldestEpoch s minAge now := by
  obtain ⟨hfrom, -, hall⟩ := oldest_fold (fun r => genEligible minAge now (hdrOf s r))
    (fun r => (hdrOf s r).epoch) s.regions (2 ^ 64 - 1)
  change (oldestEpoch s minAge now = _ ∨ ∃ r ∈ s.regions, _ ∧ _ = oldestEpoch s minAge now) at hfrom
  change ∀ r ∈ s.regions, _ → oldestEpoch s minAge now ≤ _ at hall
  obtain ⟨q, hq, helig, hepoch⟩ := hfrom.resolve_left h
  refine and_congr_right fun _ => ⟨?_, ?_⟩
  · rintro ⟨q', hq', helig', hleast, heq⟩
    have hle := hleast q hq helig
    have hge := hall q' hq' helig'
    omega
  · intro heq
    refine ⟨q, hq, helig, fun q' hq' helig' => ?_, heq.trans hepoch.symm⟩
    exact hepoch.trans_le (hall q' hq' helig')

/-! ## The second scan -/

theorem hdrOf_trimRegion (s : Space) (r q : Nat × Nat) :
    hdrOf (s.trimRegion r.1 r.2) q = hdrOf s q ∨
      q = r ∧ (hdrOf (s.trimRegion r.1 r.2) q).state = .free := by
  simp only [hdrOf, Space.rg_trimRegion]
  by_cases hq : q.1 = r.1 ∧ q.2 = r.2
  · exact .inr ⟨Prod.ext hq.1 hq.2, by rw [if_pos hq]⟩
  · exact .inl (by rw [if_neg hq])

theorem dropGeneration_cases {oldest : Nat} {st st' : Space × List GcDrop} {r : Nat × Nat}
    (h : dropGeneration oldest st r = some st') :
    st'.1.cfg = st.1.cfg ∧
      (∀ q, hdrOf st'.1 q = hdrOf st.1 q ∨ q = r ∧ (hdrOf st'.1 q).state = .free) ∧
      st'.2 = st.2 ++ if (hdrOf st.1 r).state = .frozen ∧ (hdrOf st.1 r).epoch = oldest then
        [⟨r.1, r.2, hdrOf st.1 r⟩] else [] := by
  change (if (hdrOf st.1 r).state = .frozen ∧ (hdrOf st.1 r).epoch = oldest then _ else _) = _ at h
  by_cases hv : (hdrOf st.1 r).state = .frozen ∧ (hdrOf st.1 r).epoch = oldest
  · rw [if_pos hv] at h
    obtain ⟨led, hdrop, rfl⟩ := map_eq_some_iff.1 h
    have hcfg : led.cfg = st.1.led.cfg := cfg_sweepSlots _ hdrop
    rw [if_pos hv]
    dsimp only
    split_ifs with hlive
    · exact ⟨hcfg, hdrOf_trimRegion { st.1 with led := led } r, rfl⟩
    · exact ⟨hcfg, fun q => .inl rfl, rfl⟩
  · rw [if_neg hv] at h
    obtain rfl := Option.some.inj h
    exact ⟨rfl, fun q => .inl rfl, by rw [if_neg hv]; simp⟩

/-- Headers are kept, or their regions free. -/
def Freed (s s' : Space) : Prop :=
  s'.cfg = s.cfg ∧ ∀ q, hdrOf s' q = hdrOf s q ∨ (hdrOf s' q).state = .free

theorem Freed.refl (s : Space) : Freed s s := ⟨rfl, fun _ => .inl rfl⟩

theorem Freed.trans {s s' s'' : Space} (h : Freed s s') (h' : Freed s' s'') : Freed s s'' := by
  refine ⟨h'.1.trans h.1, fun q => ?_⟩
  rcases h'.2 q with heq | hfree
  · rw [heq]
    exact h.2 q
  · exact .inr hfree

theorem Freed.regions (h : Freed s s') : s'.regions = s.regions := by
  simp only [Space.regions, h.1]

theorem dropGenerations_eq {oldest : Nat} (rs : List (Nat × Nat)) (hnd : rs.Nodup) :
    ∀ {st st' : Space × List GcDrop}, (∀ r ∈ rs, hdrOf st.1 r = hdrOf s r) →
      rs.foldlM (dropGeneration oldest) st = some st' →
        Freed st.1 st'.1 ∧ st'.2 = st.2 ++
          ((rs.filter fun r => (hdrOf s r).state = .frozen ∧ (hdrOf s r).epoch = oldest).map
            fun r => ⟨r.1, r.2, hdrOf s r⟩) := by
  induction rs with
  | nil =>
    intro st st' _ h
    obtain rfl := Option.some.inj h
    exact ⟨Freed.refl _, by simp⟩
  | cons r rs ih =>
    intro st st' hsame h
    rw [foldlM_cons] at h
    obtain ⟨st1, hone, hrest⟩ := bind_eq_some_iff.1 h
    obtain ⟨hcfg, hhdr, hlog⟩ := dropGeneration_cases hone
    obtain ⟨hnot, hnd⟩ := nodup_cons.1 hnd
    have hfreed : Freed st.1 st1.1 := ⟨hcfg, fun q => (hhdr q).imp_right And.right⟩
    have hsame1 : ∀ q ∈ rs, hdrOf st1.1 q = hdrOf s q := by
      intro q hq
      rcases hhdr q with heq | ⟨rfl, -⟩
      · exact heq.trans (hsame q (mem_cons_of_mem _ hq))
      · exact absurd hq hnot
    obtain ⟨hfreed', hlog'⟩ := ih hnd hsame1 hrest
    refine ⟨hfreed.trans hfreed', ?_⟩
    rw [hlog', hlog, hsame r mem_cons_self, filter_cons]
    by_cases hv : (hdrOf s r).state = .frozen ∧ (hdrOf s r).epoch = oldest
    · simp [hv]
    · simp [hv]

theorem nodup_regions (s : Space) : s.regions.Nodup := by
  unfold Space.regions
  rw [nodup_flatMap]
  refine ⟨fun d _ => (nodup_range).map fun i j h => by simpa using h, ?_⟩
  refine (nodup_range (n := s.cfg.nDevs)).imp ?_
  intro d d' hne p hp hp'
  obtain ⟨i, -, rfl⟩ := List.mem_map.1 hp
  obtain ⟨j, -, heq⟩ := List.mem_map.1 hp'
  exact hne (congrArg Prod.fst heq).symm

/-! ## Rounds and ticks -/

/-- The regions a round may drop are all old enough. -/
def OldestAged (minAge now : Nat) (s : Space) : Prop :=
  ∀ r ∈ s.regions, OfOldest minAge now s r → (hdrOf s r).baseTs + minAge ≤ now

/-- Every drop is of an old enough region. -/
def DropsAged (minAge now : Nat) (drops : List GcDrop) : Prop :=
  ∀ e ∈ drops, e.hdr.baseTs + minAge ≤ now

/-- A generation with an eligible region is old on every device. -/
def EpochsAged (minAge now : Nat) (s : Space) : Prop :=
  ∀ q ∈ s.regions, genEligible minAge now (hdrOf s q) = true → ∀ r ∈ s.regions,
    (hdrOf s r).state = .frozen → (hdrOf s r).epoch = (hdrOf s q).epoch →
      (hdrOf s r).baseTs + minAge ≤ now

theorem EpochsAged.oldest (h : EpochsAged minAge now s) : OldestAged minAge now s := by
  rintro r hr ⟨hfrozen, q, hq, helig, -, hepoch⟩
  exact h q hq helig r hr hfrozen hepoch

theorem EpochsAged.freed (h : EpochsAged minAge now s) (hf : Freed s s') :
    EpochsAged minAge now s' := by
  have hsame : ∀ q, (hdrOf s' q).state = .frozen → hdrOf s' q = hdrOf s q := by
    intro q hq
    exact (hf.2 q).resolve_right fun hfree => by rw [hfree] at hq; cases hq
  intro q hq helig r hr hfrozen hepoch
  have hqf : (hdrOf s' q).state = .frozen := by
    simp only [genEligible, Bool.and_eq_true, beq_iff_eq] at helig
    exact helig.1.1
  rw [hf.regions] at hq hr
  have hr' := hsame r hfrozen
  rw [hsame q hqf] at helig hepoch
  rw [hr'] at hfrozen hepoch ⊢
  exact h q hq helig r hr hfrozen hepoch

/-- One round. -/
theorem gcRound_aged_iff {drops : List GcDrop} (h : gcRound minAge now s = some (some (s', drops))) :
    Freed s s' ∧ (DropsAged minAge now drops ↔ OldestAged minAge now s) := by
  simp only [gcRound] at h
  by_cases hnone : oldestEpoch s minAge now = 2 ^ 64 - 1
  · rw [if_pos hnone] at h
    cases h
  rw [if_neg hnone] at h
  obtain ⟨st, hfold, heq⟩ := map_eq_some_iff.1 h
  obtain rfl := Option.some.inj heq
  obtain ⟨hfreed, hlog⟩ := dropGenerations_eq s.regions (nodup_regions s) (fun _ _ => rfl) hfold
  simp only [nil_append] at hlog
  refine ⟨hfreed, ?_⟩
  rw [hlog]
  constructor
  · intro haged r hr hold
    have hv := (ofOldest_iff hnone r).1 hold
    exact haged ⟨r.1, r.2, hdrOf s r⟩
      (List.mem_map.2 ⟨r, mem_filter.2 ⟨hr, by simpa using hv⟩, rfl⟩)
  intro haged e he
  obtain ⟨r, hr, rfl⟩ := List.mem_map.1 he
  obtain ⟨hr, hv⟩ := mem_filter.1 hr
  exact haged r hr ((ofOldest_iff hnone r).2 (by simpa using hv))

theorem gcRounds_spec (n : Nat) :
    ∀ {s s' : Space} {rounds : List (Space × List GcDrop)},
      gcRounds minAge now n s = some (s', rounds) →
        ∀ rd ∈ rounds, Freed s rd.1 ∧
          (DropsAged minAge now rd.2 ↔ OldestAged minAge now rd.1) := by
  induction n with
  | zero =>
    intro s s' rounds h
    obtain ⟨-, rfl⟩ := Prod.mk.inj (Option.some.inj h)
    simp
  | succ n ih =>
    intro s s' rounds h
    simp only [gcRounds] at h
    obtain ⟨r, hround, h⟩ := bind_eq_some_iff.1 h
    match r, h with
    | none, h =>
      obtain ⟨-, rfl⟩ := Prod.mk.inj (Option.some.inj h)
      simp
    | some (s1, drops), h =>
      obtain ⟨⟨s2, rest⟩, hrest, h⟩ := bind_eq_some_iff.1 h
      obtain ⟨-, rfl⟩ := Prod.mk.inj (Option.some.inj h)
      obtain ⟨hfreed, hiff⟩ := gcRound_aged_iff hround
      intro rd hrd
      rcases mem_cons.1 hrd with rfl | hrd
      · exact ⟨Freed.refl _, hiff⟩
      · obtain ⟨hfreed', hiff'⟩ := ih hrest rd hrd
        exact ⟨hfreed.trans hfreed', hiff'⟩

theorem freed_trimPass (s : Space) (epochSecs now : Nat) : Freed s (s.trimPass epochSecs now) := by
  unfold Space.trimPass
  generalize s.regions = rs
  induction rs generalizing s with
  | nil => exact Freed.refl s
  | cons r rs ih =>
    rw [foldl_cons]
    refine Freed.trans ?_ (ih _)
    split_ifs with hdue
    · exact ⟨rfl, fun q => (hdrOf_trimRegion s r q).imp_right And.right⟩
    · exact Freed.refl s

theorem freed_gcSwept {cfg : GcConfig} {ttl : Bool} (h : gcSwept cfg now ttl s = some s') :
    Freed s s' := by
  obtain ⟨led, hled, rfl⟩ := map_eq_some_iff.1 h
  have hcfg : led.cfg = s.led.cfg := by
    cases ttl with
    | false => exact congrArg _ (Option.some.inj hled).symm
    | true => exact cfg_sweepSlots _ hled
  have hswept : Freed s { s with led := led } := ⟨hcfg, fun _ => .inl rfl⟩
  exact hswept.trans (freed_trimPass { s with led := led } cfg.epochSecs now)

/-- The minimum age of dropped generations. The drops of a tick are all of regions that
are old enough exactly if each of its rounds starts from a state whose oldest generation is old on
every device. -/
theorem gc_drops_aged_iff (cfg : GcConfig) (now : Nat) (ttl : Bool) (m : GcMarks) (s : Space)
    (t : GcDrain) (ht : gcTick cfg now ttl m s = some t) :
    ((∀ rd ∈ t.rounds, DropsAged cfg.minGenAgeSecs now rd.2) ↔
        ∀ rd ∈ t.rounds, OldestAged cfg.minGenAgeSecs now rd.1) ∧
      (EpochsAged cfg.minGenAgeSecs now s →
        ∀ rd ∈ t.rounds, DropsAged cfg.minGenAgeSecs now rd.2) := by
  obtain ⟨s1, hswept, hdrain⟩ := bind_eq_some_iff.1 ht
  have hspec : ∀ rd ∈ t.rounds, Freed s rd.1 ∧
      (DropsAged cfg.minGenAgeSecs now rd.2 ↔ OldestAged cfg.minGenAgeSecs now rd.1) := by
    simp only [gcDrain] at hdrain
    split_ifs at hdrain with hran
    · obtain ⟨r, hrounds, rfl⟩ := map_eq_some_iff.1 hdrain
      intro rd hrd
      obtain ⟨hfreed, hiff⟩ := gcRounds_spec _ hrounds rd hrd
      exact ⟨(freed_gcSwept hswept).trans hfreed, hiff⟩
    · obtain rfl := Option.some.inj hdrain
      simp
  refine ⟨forall₂_congr fun rd hrd => (hspec rd hrd).2, fun hep rd hrd => ?_⟩
  exact (hspec rd hrd).2.2 (hep.freed (hspec rd hrd).1).oldest

/-- A put of 50 pages in region 1 of a device. -/
def generationPut (d : Nat) : PublishArgs where
  prefixId := UInt64.ofNat (d + 1)
  groupIdx := 0
  ver := d + 1
  addr := ⟨d, 67, 0, 50, 0, 0, 0⟩
  slot := 0
  flags := Flags.empty
  stripeIdx := 0
  stripeCnt := 0
  stripeTotal := 0
  dataLen := 8
  shape := some ⟨0, [8]⟩
  path := [UInt64.ofNat (d + 1)]

def generationOn (d opened : Nat) (s : Space) : Option Space := do
  let (s, _) ← s.freezeAndRotate d opened
  let led ← s.led.publish (generationPut d)
  let (s, _) ← { s with led := led }.freezeAndRotate d (opened + 10)
  pure s

def twoGenerations (opened opened' : Nat) : Option Space :=
  (generationOn 0 opened (Space.format ⟨2, 3, 64, 512, 1048576, 262144, 128⟩ 0)).bind
    (generationOn 1 opened')

def gcConfig100 : GcConfig := ⟨60, 20, 10, 1, 100⟩

instance (minAge now : Nat) (drops : List GcDrop) : Decidable (DropsAged minAge now drops) :=
  inferInstanceAs (Decidable (∀ e ∈ drops, _))

instance (minAge now : Nat) (s : Space) : Decidable (EpochsAged minAge now s) :=
  inferInstanceAs (Decidable (∀ q ∈ s.regions, _ → ∀ r ∈ s.regions, _))

/-- A tick at time 1000, when generation 2 of the second device is 150 seconds old: both regions of
the generation are dropped, and both are old enough. -/
theorem gc_drops_aged_late : ∃ s t, twoGenerations 100 850 = some s ∧
    gcTick gcConfig100 1000 false ⟨false, 0⟩ s = some t ∧ t.rounds.map (·.2.length) = [2] ∧
      ∀ rd ∈ t.rounds, DropsAged 100 1000 rd.2 := by
  have hrun : (twoGenerations 100 850).bind (fun s : Space =>
      (gcTick gcConfig100 1000 false ⟨false, 0⟩ s).map fun t : GcDrain =>
        (decide (EpochsAged 100 1000 s), t.rounds.map (·.2.length))) = some (true, [2]) := by
    decide +kernel
  obtain ⟨s, hs, htick⟩ := bind_eq_some_iff.1 hrun
  obtain ⟨t, ht, hres⟩ := map_eq_some_iff.1 htick
  obtain ⟨haged, hlen⟩ := Prod.mk.inj hres
  have hcond : EpochsAged gcConfig100.minGenAgeSecs 1000 s := of_decide_eq_true haged
  exact ⟨s, t, hs, ht, hlen,
    (gc_drops_aged_iff gcConfig100 1000 false ⟨false, 0⟩ s t ht).2 hcond⟩

/-- A generation is dropped before its time. Generation 2 of the second device was opened 20 seconds
ago; that of the first device is old enough, so the tick drops both. -/
theorem young_region_dropped : ∃ s t, twoGenerations 100 980 = some s ∧
    gcTick gcConfig100 1000 false ⟨false, 0⟩ s = some t ∧
      ∃ rd ∈ t.rounds, ∃ e ∈ rd.2, e.dev = 1 ∧ e.hdr.baseTs = 980 ∧
        ¬ e.hdr.baseTs + gcConfig100.minGenAgeSecs ≤ 1000 := by
  have hrun : (twoGenerations 100 980).bind (fun s : Space =>
      (gcTick gcConfig100 1000 false ⟨false, 0⟩ s).map fun t : GcDrain =>
        decide (∃ rd ∈ t.rounds, ∃ e ∈ rd.2, e.dev = 1 ∧ e.hdr.baseTs = 980)) = some true := by
    decide +kernel
  obtain ⟨s, hs, htick⟩ := bind_eq_some_iff.1 hrun
  obtain ⟨t, ht, hres⟩ := map_eq_some_iff.1 htick
  obtain ⟨rd, hrd, e, he, hdev, hbase⟩ := of_decide_eq_true hres
  refine ⟨s, t, hs, ht, rd, hrd, e, he, hdev, hbase, ?_⟩
  rw [hbase]
  decide

/-! ## The watermarks -/

/-- The bytes of all regions. -/
def capacity (s : Space) : Nat :=
  (s.regions.map fun _ => s.cfg.regionSizePages * pageSize).sum

/-- What a region counts for. -/
def regionBytes (s : Space) (r : Nat × Nat) : Nat :=
  if (s.rg r.1 r.2).state ≠ .free then (s.live r.1 r.2).toNat else 0

/-- The live bytes of all regions. -/
def liveBytes (s : Space) : Nat := (s.regions.map (regionBytes s)).sum

/-- The counters are not negative and the products do not wrap. -/
structure Measurable (cfg : GcConfig) (s : Space) : Prop where
  nonneg : ∀ d i, 0 ≤ s.live d i
  live : liveBytes s * 100 < 2 ^ 64
  start : capacity s * cfg.startPct < 2 ^ 64
  stop : capacity s * cfg.stopPct < 2 ^ 64

/-- The level of a state is above a percentage. -/
def AbovePct (pct : Nat) (s : Space) : Prop := capacity s * pct < liveBytes s * 100

theorem startPct_pos (cfg : GcConfig) : 0 < cfg.startPct := by
  simp only [GcConfig.startPct, orDefault]
  split_ifs <;> omega

theorem liveTotal_eq {cfg : GcConfig} (h : Measurable cfg s) : s.liveTotal = liveBytes s := by
  have hsum : liveBytes s < 2 ^ 64 := by have := h.live; omega
  have hterms : ∀ r ∈ s.regions,
      (if (s.rg r.1 r.2).state ≠ .free then ((s.live r.1 r.2) % 2 ^ 64).toNat else 0) =
        regionBytes s r := by
    intro r hr
    have hle : regionBytes s r ≤ liveBytes s :=
      single_le_sum (by simp) _ (List.mem_map_of_mem hr)
    unfold regionBytes at hle ⊢
    split_ifs with hfree
    · rw [if_pos hfree] at hle
      have hnn := h.nonneg r.1 r.2
      have hlt : (s.live r.1 r.2).toNat < 2 ^ 64 := lt_of_le_of_lt hle hsum
      rw [Int.emod_eq_of_lt hnn (by omega)]
    · rfl
  unfold Space.liveTotal
  rw [map_congr_left hterms]
  exact Nat.mod_eq_of_lt hsum

theorem overPct_iff {cfg : GcConfig} (h : Measurable cfg s) {pct : Nat}
    (hpct : capacity s * pct < 2 ^ 64) :
    overPct s.capBytes s.liveTotal pct = true ↔ capacity s ≠ 0 ∧ AbovePct pct s := by
  have hcap : s.capBytes = capacity s := by
    have hpos := startPct_pos cfg
    have hle : capacity s ≤ capacity s * cfg.startPct := Nat.le_mul_of_pos_right _ hpos
    exact Nat.mod_eq_of_lt (lt_of_le_of_lt hle h.start)
  rw [hcap, liveTotal_eq h]
  simp only [overPct, Bool.and_eq_true, bne_iff_ne, decide_eq_true_eq, AbovePct,
    Nat.mod_eq_of_lt hpct, Nat.mod_eq_of_lt h.live]

theorem marks_tick_cases (m : GcMarks) (overStart overStop : Bool) :
    ((m.tick overStart overStop).draining = true →
        (overStart = true ∧ m.draining = false) ∨ (overStop = true ∧ m.draining = true)) ∧
      (m.tick overStart overStop).triggers = m.triggers +
        if m.draining = false ∧ (m.tick overStart overStop).draining = true then 1 else 0 := by
  obtain ⟨draining, triggers⟩ := m
  cases draining <;> cases overStart <;> cases overStop <;> simp [GcMarks.tick]

/-- A call of `gc_tick`. -/
structure GcCall where
  now : Nat
  ttl : Bool
  space : Space

/-- What a call does to the marks. -/
def marksStep (cfg : GcConfig) (m : GcMarks) (c : GcCall) : Option GcMarks :=
  (gcTick cfg c.now c.ttl m c.space).map (·.marks)

/-- What holds behind the sweeps, where the marks are read. -/
def AtMarks (cfg : GcConfig) (P : Space → Prop) (c : GcCall) : Prop :=
  ∃ s, gcSwept cfg c.now c.ttl c.space = some s ∧ P s

theorem gcTick_marks {cfg : GcConfig} {m : GcMarks} {c : GcCall} {t : GcDrain}
    (h : gcTick cfg c.now c.ttl m c.space = some t) :
    ∃ s, gcSwept cfg c.now c.ttl c.space = some s ∧
      t.marks = m.tick (overPct s.capBytes s.liveTotal cfg.startPct)
        (overPct s.capBytes s.liveTotal cfg.stopPct) ∧
      t.ran = (t.marks.draining && overPct s.capBytes s.liveTotal cfg.stopPct) := by
  obtain ⟨s, hs, hdrain⟩ := bind_eq_some_iff.1 h
  refine ⟨s, hs, ?_⟩
  simp only [gcDrain] at hdrain
  split_ifs at hdrain with hran
  · obtain ⟨r, -, rfl⟩ := map_eq_some_iff.1 hdrain
    exact ⟨rfl, hran.symm⟩
  · obtain rfl := Option.some.inj hdrain
    exact ⟨rfl, (Bool.not_eq_true _ ▸ hran).symm⟩

theorem AbovePct.mono {pct pct' : Nat} (hle : pct ≤ pct') (h : AbovePct pct' s) : AbovePct pct s :=
  lt_of_le_of_lt (Nat.mul_le_mul_left _ hle) h

section Hysteresis

variable {cfg : GcConfig}

/-- Above the start mark once, and above the stop mark since. -/
def Drained (cfg : GcConfig) (past : List GcCall) : Prop :=
  Since (AtMarks cfg (AbovePct cfg.startPct)) (AtMarks cfg (AbovePct cfg.stopPct)) past

theorem drained_step (horder : cfg.stopPct ≤ cfg.startPct) {past : List GcCall} {m m' : GcMarks}
    {c : GcCall} (hpast : m.draining = true → Drained cfg past)
    (hc : AtMarks cfg (Measurable cfg) c) (hstep : marksStep cfg m c = some m') :
    m'.draining = true → Drained cfg (past ++ [c]) := by
  obtain ⟨t, ht, rfl⟩ := map_eq_some_iff.1 hstep
  obtain ⟨s, hs, hmarks, -⟩ := gcTick_marks ht
  obtain ⟨s', hs', hmeas⟩ := hc
  obtain rfl := Option.some.inj (hs.symm.trans hs')
  intro hdrain
  rw [hmarks] at hdrain
  rcases (marks_tick_cases m _ _).1 hdrain with ⟨hstart, -⟩ | ⟨hstop, hbit⟩
  · have habove := ((overPct_iff hmeas hmeas.start).1 hstart).2
    exact Since.now past ⟨s, hs, habove⟩ ⟨s, hs, habove.mono horder⟩
  · exact (hpast hbit).more ⟨s, hs, ((overPct_iff hmeas hmeas.stop).1 hstop).2⟩

end Hysteresis

/-- The hysteresis over whole runs. A call drops generations only above the lower
threshold, with a call at or before it above the upper one and all calls from that one on above the
lower; the counter of triggers grows by one exactly when the bit is set. -/
theorem gc_hysteresis (cfg : GcConfig) (past : List GcCall) (m : GcMarks) (c : GcCall) (t : GcDrain)
    (hrun : RunOf (marksStep cfg) (fun _ c => AtMarks cfg (Measurable cfg) c) ⟨false, 0⟩ past m)
    (hc : AtMarks cfg (Measurable cfg) c)
    (ht : gcTick cfg c.now c.ttl m c.space = some t) :
    (t.ran = true → AtMarks cfg (AbovePct cfg.stopPct) c ∧
        Since (AtMarks cfg (AbovePct cfg.startPct)) (AtMarks cfg (AbovePct cfg.stopPct))
          (past ++ [c])) ∧
      t.marks.triggers = m.triggers +
        if m.draining = false ∧ t.marks.draining = true then 1 else 0 := by
  obtain ⟨s, hs, hmarks, hran⟩ := gcTick_marks ht
  have hstep : marksStep cfg m c = some t.marks := map_eq_some_iff.2 ⟨t, ht, rfl⟩
  refine ⟨?_, ?_⟩
  · intro hyes
    rw [hran, Bool.and_eq_true] at hyes
    obtain ⟨hbit, hstop⟩ := hyes
    obtain ⟨s', hs', hmeas⟩ := id hc
    obtain rfl := Option.some.inj (hs.symm.trans hs')
    have habove : AbovePct cfg.stopPct s := ((overPct_iff hmeas hmeas.stop).1 hstop).2
    refine ⟨⟨s, hs, habove⟩, ?_⟩
    rcases Nat.le_total cfg.stopPct cfg.startPct with horder | horder
    · have hnone : (⟨false, 0⟩ : GcMarks).draining = true → Drained cfg [] := fun h => nomatch h
      have hpast : m.draining = true → Drained cfg ([] ++ past) :=
        RunOf.history (fun past (m : GcMarks) => m.draining = true → Drained cfg past)
          (fun past m c m' hp hc hst => drained_step horder hp hc hst) hrun hnone
      exact drained_step horder hpast hc hstep hbit
    · exact Since.now past ⟨s, hs, habove.mono horder⟩ ⟨s, hs, habove⟩
  · rw [hmarks]
    exact (marks_tick_cases m _ _).2

/-- One region of 64 pages, open, with some live bytes. -/
def levelSpace (bytes : Nat) : Space :=
  { Space.format ⟨1, 1, 64, 512, 1048576, 262144, 128⟩ 0 with
    led := { Ledger.empty ⟨1, 1, 64, 512, 1048576, 262144, 128⟩ with
      live := fun _ _ => (bytes : Int) } }

/-- A collector with the default percentages. -/
def gcDefaults : GcConfig := ⟨3600, 0, 0, 0, 0⟩

theorem measurable_level {bytes : Nat} (h : bytes ≤ 64 * 4096) :
    AtMarks gcDefaults (Measurable gcDefaults) ⟨1, false, levelSpace bytes⟩ := by
  have hlive : liveBytes (levelSpace bytes) = bytes := by
    simp [liveBytes, regionBytes, levelSpace, Space.regions, Space.cfg, Ledger.empty, Space.rg,
      Space.format, Space.live]
  have hcap : capacity (levelSpace bytes) = 64 * pageSize := by
    simp [capacity, levelSpace, Space.regions, Space.cfg, Ledger.empty]
  have hswept : gcSwept gcDefaults 1 false (levelSpace bytes) = some (levelSpace bytes) := by
    simp [gcSwept, Space.trimPass, Space.trimmable, Space.regions, Space.rg, Space.cfg, levelSpace,
      Ledger.empty, Space.format]
  refine ⟨levelSpace bytes, hswept, fun _ _ => Int.natCast_nonneg _, ?_, ?_, ?_⟩
  · rw [hlive]
    omega
  · rw [hcap]
    decide
  · rw [hcap]
    decide

/-- A drain that starts above the start mark goes on between the marks. -/
theorem gc_hysteresis_between : ∃ m t,
    marksStep gcDefaults ⟨false, 0⟩ ⟨1, false, levelSpace 245760⟩ = some m ∧
      gcTick gcDefaults 1 false m (levelSpace 204800) = some t ∧ t.ran = true ∧
      Since (AtMarks gcDefaults (AbovePct gcDefaults.startPct))
        (AtMarks gcDefaults (AbovePct gcDefaults.stopPct))
        [⟨1, false, levelSpace 245760⟩, ⟨1, false, levelSpace 204800⟩] := by
  have hfirst : marksStep gcDefaults ⟨false, 0⟩ ⟨1, false, levelSpace 245760⟩ = some ⟨true, 1⟩ := by
    decide +kernel
  have hsecond : (gcTick gcDefaults 1 false ⟨true, 1⟩ (levelSpace 204800)).map (·.ran) = some true := by
    decide +kernel
  obtain ⟨t, ht, hran⟩ := map_eq_some_iff.1 hsecond
  have hrun : RunOf (marksStep gcDefaults) (fun _ c => AtMarks gcDefaults (Measurable gcDefaults) c)
      ⟨false, 0⟩ [⟨1, false, levelSpace 245760⟩] ⟨true, 1⟩ :=
    .cons (measurable_level (by decide)) hfirst (.nil _)
  exact ⟨⟨true, 1⟩, t, hfirst, ht, hran,
    ((gc_hysteresis gcDefaults _ _ ⟨1, false, levelSpace 204800⟩ t hrun (measurable_level (by decide))
      ht).1 hran).2⟩

end KvTier.Analysis
