import KvTier.Analysis.RegionFacts
import KvTier.Model.Placement

/-!
# Rotations that fail

`writer_freeze_and_rotate` freezes the region of the cursor before it looks for the next one.
-/

namespace KvTier.Analysis

open KvTier.Lib KvTier.Model

/-! ## When a rotation fails -/

/-- The next region is not free, and none can be forced free. -/
def RotationFails (s : Space) (d : Nat) : Prop :=
  (((s.cur d).region + 1) % s.cfg.regionCnt = (s.cur d).region ∨
      (s.rg d (((s.cur d).region + 1) % s.cfg.regionCnt)).state ≠ .free) ∧
    ∀ i, i < s.cfg.regionCnt → i ≠ (s.cur d).region → (s.rg d i).state = .frozen →
      2 ^ 63 - 1 ≤ s.live d i

section Fail

variable {s : Space} {d : Nat}

theorem victimRegion_eq_none_iff {avoid : Nat} : s.victimRegion d avoid = none ↔
    ∀ i, i < s.cfg.regionCnt → i ≠ avoid → (s.rg d i).state = .frozen → 2 ^ 63 - 1 ≤ s.live d i := by
  have hscan : LeastOf (fun i => i ≠ avoid ∧ (s.rg d i).state = .frozen) (s.live d) (2 ^ 63 - 1)
      (List.range s.cfg.regionCnt) ((List.range s.cfg.regionCnt).foldl
        (fun best i => if i ≠ avoid ∧ (s.rg d i).state = .frozen ∧ s.live d i < best.2 then
          (some i, s.live d i) else best) ((none : Option Nat), (2 ^ 63 - 1 : Int))) := by
    refine foldl_leastOf ?_ ?_ _ _
    · exact fun best i hp hlt => if_pos ⟨hp.1, hp.2, hlt⟩
    · exact fun best i hnot => if_neg fun hx => hnot ⟨⟨hx.1, hx.2.1⟩, hx.2.2⟩
  unfold Space.victimRegion
  generalize (List.range s.cfg.regionCnt).foldl (fun (best : Option Nat × Int) i =>
    if i ≠ avoid ∧ (s.rg d i).state = .frozen ∧ s.live d i < best.2 then (some i, s.live d i)
    else best) (none, 2 ^ 63 - 1) = best at hscan ⊢
  obtain ⟨found, k⟩ := best
  cases found with
  | none =>
    cases hscan with
    | none hall =>
      exact ⟨fun _ i hi hne hst => hall i (List.mem_range.2 hi) ⟨hne, hst⟩, fun _ => rfl⟩
  | some v =>
    obtain ⟨hm, ⟨hne, hst⟩, hlt, _⟩ := hscan.mem
    refine ⟨nofun, fun hall => ?_⟩
    have hge := hall v (List.mem_range.1 hm) hne hst
    omega

theorem emptyRegion_eq_none {avoid : Nat} (h : ∀ i, i < s.cfg.regionCnt → i ≠ avoid →
    (s.rg d i).state = .frozen → 2 ^ 63 - 1 ≤ s.live d i) : s.emptyRegion d avoid = none := by
  cases hempty : s.emptyRegion d avoid with
  | none => rfl
  | some i =>
    obtain ⟨hi, hne, hst, hlive⟩ := emptyRegion_spec hempty
    have hge := h i hi hne hst
    omega

theorem rg_freeze_of_ne {now i : Nat} (h : i ≠ (s.cur d).region) :
    (s.freeze d now).rg d i = s.rg d i := by
  rw [Space.rg_freeze, if_neg fun hx => h hx.2]

theorem rotationFails_freeze_iff (now : Nat) :
    RotationFails (s.freeze d now) d ↔ RotationFails s d := by
  have hcur : (s.freeze d now).cur d = s.cur d := rfl
  have hcfg : (s.freeze d now).cfg = s.cfg := rfl
  unfold RotationFails
  rw [hcur, hcfg]
  refine and_congr ?_ (forall₃_congr fun i _ hne => ?_)
  · refine or_congr_right' fun hne => ?_
    rw [rg_freeze_of_ne hne]
  · rw [rg_freeze_of_ne hne]
    rfl

/-- A rotation fails exactly if there is no region for it; the old one is frozen all the same. -/
theorem freezeAndRotate_failed_iff {now : Nat} {s' : Space} :
    s.freezeAndRotate d now = some (s', false) ↔ RotationFails s d ∧ s' = s.freeze d now := by
  have hfrozen : ((s.freeze d now).rg d (s.cur d).region).state = .frozen := by
    rw [Space.rg_freeze, if_pos ⟨rfl, rfl⟩]
  -- the next region is not free after the freeze exactly if it is not free, or the cursor's own
  have hnext : ((s.freeze d now).rg d (((s.cur d).region + 1) % s.cfg.regionCnt)).state ≠ .free ↔
      (((s.cur d).region + 1) % s.cfg.regionCnt = (s.cur d).region ∨
        (s.rg d (((s.cur d).region + 1) % s.cfg.regionCnt)).state ≠ .free) := by
    by_cases hown : ((s.cur d).region + 1) % s.cfg.regionCnt = (s.cur d).region
    · simp [hown, hfrozen]
    · rw [rg_freeze_of_ne hown]
      simp [hown]
  have hvictim : (s.freeze d now).victimRegion d (s.cur d).region = none ↔
      ∀ i, i < s.cfg.regionCnt → i ≠ (s.cur d).region → (s.rg d i).state = .frozen →
        2 ^ 63 - 1 ≤ s.live d i := by
    rw [victimRegion_eq_none_iff]
    refine forall₃_congr fun i _ hne => ?_
    rw [rg_freeze_of_ne hne]
    rfl
  unfold RotationFails
  rw [← hnext, ← hvictim]
  constructor
  · intro h
    unfold Space.freezeAndRotate at h
    obtain ⟨⟨s1, r⟩, h1, h2⟩ := Option.bind_eq_some_iff.1 h
    cases r with
    | some next => cases h2
    | none =>
      cases h2
      unfold Space.nextRegion at h1
      simp only at h1
      split at h1
      · cases h1
      rename_i hbusy
      unfold Space.forceFreeRegion at h1
      split at h1
      · cases h1
      split at h1
      · rename_i hnone
        cases h1
        exact ⟨⟨hbusy, hnone⟩, rfl⟩
      · obtain ⟨led, _, hx⟩ := Option.bind_eq_some_iff.1 h1
        cases hx
  rintro ⟨⟨hbusy, hnone⟩, rfl⟩
  have hempty := emptyRegion_eq_none (victimRegion_eq_none_iff.1 hnone)
  have hforce : (s.freeze d now).forceFreeRegion d (s.cur d).region =
      some (s.freeze d now, none) := by
    unfold Space.forceFreeRegion
    rw [hempty, hnone]
  have hrest : (s.freeze d now).nextRegion d = some (s.freeze d now, none) := by
    unfold Space.nextRegion
    exact (if_neg hbusy).trans hforce
  unfold Space.freezeAndRotate
  rw [hrest]
  rfl

end Fail

/-! ## What a failed rotation leaves -/

/-- Cursors, states and epoch counters are the same. -/
def SameRegions (s s' : Space) : Prop :=
  s'.cur = s.cur ∧ (∀ d i, (s'.rg d i).state = (s.rg d i).state) ∧
    ∀ d, (s'.rms d).epochCounter = (s.rms d).epochCounter

/-- A submission of so many pages. -/
def submitPages (d : Nat) (s : Space) (sub : Nat × Nat) : Option Space :=
  (Placing.makeRoom s d sub.1 sub.2).map fun (sp, room) =>
    if room then (Placing.place sp d sub.1 []).1 else sp

/-- Every later batch is placed in an OPEN region. -/
def LaterOpen (d : Nat) (s : Space) : Prop :=
  ∀ subs s1, RunOf (submitPages d) (fun _ _ => True) s subs s1 →
    ∀ need now sp, Placing.makeRoom s1 d need now = some (sp, true) →
      (sp.rg d (sp.cur d).region).state = .opened

section Left

variable {s : Space} {d : Nat}

/-- Past the end of its region, the cursor places nothing until a rotation succeeds. -/
theorem laterOpen_of_stuck (hfail : RotationFails s d)
    (hpast : s.cfg.regionSizePages < (s.cur d).nextPage) : LaterOpen d s := by
  have hroom : ∀ (t : Space) (need now : Nat), RotationFails t d →
      t.cfg.regionSizePages < (t.cur d).nextPage →
        Placing.makeRoom t d need now = some (t.freeze d now, false) := by
    intro t need now hf hp
    unfold Placing.makeRoom
    rw [if_pos (by omega)]
    exact freezeAndRotate_failed_iff.2 ⟨hf, rfl⟩
  intro subs s1 hrun need now sp hsp
  obtain ⟨hf, hp⟩ := hrun.invariant
    (fun t => RotationFails t d ∧ t.cfg.regionSizePages < (t.cur d).nextPage)
    (fun t sub t' ht _ hst => by
      have hstep : submitPages d t sub = some (t.freeze d sub.2) := by
        unfold submitPages
        rw [hroom t sub.1 sub.2 ht.1 ht.2]
        rfl
      obtain rfl := Option.some.inj (hstep.symm.trans hst)
      exact ⟨(rotationFails_freeze_iff sub.2).2 ht.1, ht.2⟩) ⟨hfail, hpast⟩
  rw [hroom s1 need now hf hp] at hsp
  cases hsp

theorem not_laterOpen_of_frozen (hst : (s.rg d (s.cur d).region).state = .frozen)
    (hfits : (s.cur d).nextPage ≤ s.cfg.regionSizePages) : ¬ LaterOpen d s := by
  intro hlater
  have hroom : Placing.makeRoom s d 0 0 = some (s, true) := by
    unfold Placing.makeRoom
    rw [if_neg (by omega)]
  have hopen := hlater [] s (.nil s) 0 0 s hroom
  rw [hst] at hopen
  cases hopen

end Left

/-- A rotation that fails leaves the regions as they were, and every later batch in a region that is
open, exactly if it does not fail — or its region was frozen by an earlier failure and the cursor is
past its end, so that no batch is ever submitted again. -/
theorem failed_rotation_intact_iff (s : Space) (d now : Nat) :
    (∀ s', s.freezeAndRotate d now = some (s', false) → SameRegions s s' ∧ LaterOpen d s') ↔
      ¬ RotationFails s d ∨ (s.rg d (s.cur d).region).state = .frozen ∧
        s.cfg.regionSizePages < (s.cur d).nextPage := by
  have hfrozen : ((s.freeze d now).rg d (s.cur d).region).state = .frozen := by
    rw [Space.rg_freeze, if_pos ⟨rfl, rfl⟩]
  constructor
  · intro hall
    by_contra hno
    obtain ⟨hfail, hno⟩ := not_or.1 hno
    have hfail := not_not.1 hfail
    obtain ⟨⟨_, hstates, _⟩, hlater⟩ := hall _ (freezeAndRotate_failed_iff.2 ⟨hfail, rfl⟩)
    -- the region was frozen before, so the cursor is not past its end
    have hbefore : (s.rg d (s.cur d).region).state = .frozen :=
      (hstates d (s.cur d).region).symm.trans hfrozen
    refine not_laterOpen_of_frozen (s := s.freeze d now) (d := d) hfrozen ?_ hlater
    exact Nat.le_of_not_lt fun hlt => hno ⟨hbefore, hlt⟩
  rintro hcond s' hs'
  obtain ⟨hfail, rfl⟩ := freezeAndRotate_failed_iff.1 hs'
  obtain ⟨hbefore, hpast⟩ := hcond.resolve_left (not_not.2 hfail)
  refine ⟨⟨rfl, fun d' i => ?_, fun d' => ?_⟩,
    laterOpen_of_stuck ((rotationFails_freeze_iff now).2 hfail) hpast⟩
  · rw [Space.rg_freeze]
    split
    · rename_i hx
      rw [hx.1, hx.2, hbefore]
    · rfl
  unfold Space.freeze Space.setRg
  by_cases hd : d' = d
  · subst hd
    simp
  · simp [hd]

/-- A cache with one region of 64 pages. -/
def oneRegionDisk : Config := ⟨1, 1, 64, 4, 65536, 65536, 256⟩

/-- The formatted cache after a first batch of 59 pages. -/
def nearlyFull : Space := { Space.format oneRegionDisk 1 with cur := fun _ => ⟨0, 60⟩ }

/-- A batch of ten pages fails for want of a region, and one of two pages is then written to the
region it froze. The collector may trim that region: it is frozen and has no live bytes. -/
theorem batch_into_frozen_region :
    Placing.makeRoom nearlyFull 0 10 5 = some (nearlyFull.freeze 0 5, false) ∧
      (nearlyFull.rg 0 0).state = .opened ∧ ((nearlyFull.freeze 0 5).rg 0 0).state = .frozen ∧
      Placing.makeRoom (nearlyFull.freeze 0 5) 0 2 6 = some (nearlyFull.freeze 0 5, true) ∧
      (Placing.place (nearlyFull.freeze 0 5) 0 2 []).2 = ⟨0, 0, 62, 2, []⟩ ∧
      (nearlyFull.freeze 0 5).trimmable 0 0 = true := by
  have hfail : RotationFails nearlyFull 0 := by
    refine ⟨.inl rfl, fun i hi hne => ?_⟩
    have hi : i < 1 := hi
    have hne : i ≠ 0 := hne
    omega
  have hrotate : Placing.makeRoom nearlyFull 0 10 5 = some (nearlyFull.freeze 0 5, false) := by
    unfold Placing.makeRoom
    rw [if_pos (by decide)]
    exact freezeAndRotate_failed_iff.2 ⟨hfail, rfl⟩
  exact ⟨hrotate, by decide, by decide, if_neg (by decide), by decide, by decide⟩

end KvTier.Analysis
