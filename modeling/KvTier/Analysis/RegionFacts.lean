import KvTier.Analysis.LiveBytes
import KvTier.Lib.LeastScan
import KvTier.Model.Region

/-!
# What a rotation does to the regions

Each operation on the regions, region by region: what it changes and what it leaves alone.
-/

namespace KvTier.Analysis

open KvTier.Lib KvTier.Model

/-! ## The configuration does not change -/

theorem cfg_publishAt {s s' : Ledger} {node : Path} {a : PublishArgs}
    (h : s.publishAt node a = some s') : s'.cfg = s.cfg := by
  obtain ⟨_, _, _, rfl⟩ := (publishAt_eq_some_iff s s' node a).mp h
  rfl

theorem cfg_dropAt {s s' : Ledger} {node : Path} (h : s.dropAt node = some s') :
    s'.cfg = s.cfg := by
  unfold Ledger.dropAt at h
  split at h
  · cases h; rfl
  · obtain ⟨lv, _, hs⟩ := Option.bind_eq_some_iff.mp h
    cases hs
    rfl

theorem cfg_sweepSlots {due : RadixLeaf → Bool} (slots : List SideSlot) {s s' : Ledger}
    (h : slots.foldlM (Ledger.sweepSlot due) s = some s') : s'.cfg = s.cfg := by
  induction slots generalizing s with
  | nil => cases h; rfl
  | cons slot slots ih =>
    rw [List.foldlM_cons] at h
    obtain ⟨s1, h1, h2⟩ := Option.bind_eq_some_iff.mp h
    have hslot : s1.cfg = s.cfg := by
      unfold Ledger.sweepSlot at h1
      split at h1
      · cases h1; rfl
      · split at h1
        · exact cfg_dropAt h1
        · cases h1; rfl
    exact (ih h2).trans hslot

theorem cfg_ledger_step {s s' : Ledger} {l : LiveLabel} (h : s.step l = some s') :
    s'.cfg = s.cfg := by
  have hpins : ∀ {node : Path} {f : Nat → Nat}, s.setPins node f = some s' → s'.cfg = s.cfg := by
    intro node f h
    unfold Ledger.setPins at h
    split at h <;> cases h <;> rfl
  cases l with
  | publish a =>
    simp only [Ledger.step] at h
    split at h
    · cases h
    · unfold Ledger.publish at h
      exact (cfg_publishAt h).trans rfl
  | drop node => exact cfg_dropAt h
  | evict path =>
    simp only [Ledger.step, Ledger.evict] at h
    split at h
    · cases h; rfl
    · split at h
      · cases h; rfl
      · exact cfg_dropAt h
  | ttl now | dropRegion d region => exact cfg_sweepSlots _ h
  | gcTrim d region =>
    simp only [Ledger.step, Ledger.gcTrim] at h
    split at h <;> cases h <;> rfl
  | recompute =>
    obtain ⟨lv, _, hs⟩ := Option.bind_eq_some_iff.mp h
    cases hs
    rfl
  | pin node => exact hpins (f := (· + 1)) h
  | unpin node => exact hpins (f := (· - 1)) h

namespace Space

/-! ## Region by region -/

variable (s : Space) (d i : Nat)

@[simp] theorem cfg_setRg (h : RegionHdr) : (s.setRg d i h).cfg = s.cfg := rfl
@[simp] theorem cur_setRg (h : RegionHdr) : (s.setRg d i h).cur = s.cur := rfl
@[simp] theorem led_setRg (h : RegionHdr) : (s.setRg d i h).led = s.led := rfl
@[simp] theorem cfg_clearLive : (s.clearLive d i).cfg = s.cfg := rfl
@[simp] theorem cur_clearLive : (s.clearLive d i).cur = s.cur := rfl
@[simp] theorem rms_clearLive : (s.clearLive d i).rms = s.rms := rfl
@[simp] theorem idx_clearLive : (s.clearLive d i).led.idx = s.led.idx := rfl
@[simp] theorem cfg_trimRegion : (s.trimRegion d i).cfg = s.cfg := rfl
@[simp] theorem cur_trimRegion : (s.trimRegion d i).cur = s.cur := rfl
@[simp] theorem idx_trimRegion : (s.trimRegion d i).led.idx = s.led.idx := rfl
@[simp] theorem cfg_openRegion (now : Nat) : (s.openRegion d i now).cfg = s.cfg := rfl
@[simp] theorem idx_openRegion (now : Nat) : (s.openRegion d i now).led.idx = s.led.idx := rfl
@[simp] theorem cfg_freeze (now : Nat) : (s.freeze d now).cfg = s.cfg := rfl
@[simp] theorem cur_freeze (now : Nat) : (s.freeze d now).cur = s.cur := rfl
@[simp] theorem led_freeze (now : Nat) : (s.freeze d now).led = s.led := rfl

theorem rg_setRg (h : RegionHdr) (d' i' : Nat) :
    (s.setRg d i h).rg d' i' = if d' = d ∧ i' = i then h else s.rg d' i' := by
  by_cases hd : d' = d
  · subst hd
    simp [Space.rg, Space.setRg, Function.update_apply]
  · simp [Space.rg, Space.setRg, hd]

theorem rg_trimRegion (d' i' : Nat) :
    (s.trimRegion d i).rg d' i' =
      if d' = d ∧ i' = i then { s.rg d i with state := .free, epoch := 0, closeTs := 0 }
      else s.rg d' i' :=
  rg_setRg s d i _ d' i'

theorem rg_freeze (now d' i' : Nat) :
    (s.freeze d now).rg d' i' =
      if d' = d ∧ i' = (s.cur d).region then
        { s.rg d (s.cur d).region with closeTs := now, state := .frozen }
      else s.rg d' i' :=
  rg_setRg s d _ _ d' i'

theorem rg_openRegion (now d' i' : Nat) :
    (s.openRegion d i now).rg d' i' =
      if d' = d ∧ i' = i then ⟨(s.rms d).epochCounter + 1, now, 0, .opened⟩ else s.rg d' i' := by
  by_cases hd : d' = d
  · subst hd
    simp [Space.rg, Space.openRegion, Space.clearLive, Space.setRg, Function.update_apply]
  · simp [Space.rg, Space.openRegion, Space.clearLive, Space.setRg, hd]

theorem cur_openRegion (now d' : Nat) :
    (s.openRegion d i now).cur d' = if d' = d then ⟨i, 1⟩ else s.cur d' := by
  simp [Space.openRegion, Function.update_apply]

end Space

/-! ## The region a rotation goes on with -/

section Next

variable {s s' : Space} {d avoid : Nat}

theorem emptyRegion_spec {i : Nat} (h : s.emptyRegion d avoid = some i) :
    i < s.cfg.regionCnt ∧ i ≠ avoid ∧ (s.rg d i).state = .frozen ∧ s.live d i = 0 := by
  have hp := List.find?_some h
  have hm := List.mem_of_find?_eq_some h
  simp only [Bool.and_eq_true, bne_iff_ne, ne_eq, beq_iff_eq] at hp
  exact ⟨List.mem_range.mp hm, hp.1.1, hp.1.2, hp.2⟩

theorem victimRegion_spec {v : Nat} (h : s.victimRegion d avoid = some v) :
    v < s.cfg.regionCnt ∧ v ≠ avoid ∧ (s.rg d v).state = .frozen ∧
      ∀ i, i < s.cfg.regionCnt → i ≠ avoid → (s.rg d i).state = .frozen →
        s.live d v ≤ s.live d i := by
  obtain ⟨_, hscan⟩ : ∃ k, LeastOf (fun i => i ≠ avoid ∧ (s.rg d i).state = .frozen) (s.live d)
      (2 ^ 63 - 1) (List.range s.cfg.regionCnt) (some v, k) := by
    refine exists_leastOf ?_ ?_ h
    · exact fun best i hp hlt => if_pos ⟨hp.1, hp.2, hlt⟩
    · exact fun best i hnot => if_neg fun hx => hnot ⟨⟨hx.1, hx.2.1⟩, hx.2.2⟩
  obtain ⟨hm, ⟨hne, hst⟩, -, hmin⟩ := hscan.mem
  exact ⟨List.mem_range.1 hm, hne, hst, fun i hi hia his => hmin i (List.mem_range.2 hi) ⟨hia, his⟩⟩

/-- The ways of `next_region`. -/
inductive NextCase (s : Space) (d : Nat) : Space → Option Nat → Prop
  | inOrder (hfree : (s.rg d (((s.cur d).region + 1) % s.cfg.regionCnt)).state = .free) :
      NextCase s d s (some (((s.cur d).region + 1) % s.cfg.regionCnt))
  | empty {i : Nat} (hi : i < s.cfg.regionCnt) (hne : i ≠ (s.cur d).region)
      (hstate : (s.rg d i).state = .frozen) (hlive : s.live d i = 0) :
      NextCase s d (s.trimRegion d i) (some i)
  | victim {v : Nat} {led : Ledger} (hnone : s.emptyRegion d (s.cur d).region = none)
      (hv : s.victimRegion d (s.cur d).region = some v)
      (hdrop : s.led.dropRegion d v = some led) :
      NextCase s d (Space.trimRegion { s with led := led } d v) (some v)
  | full (hnone : s.emptyRegion d (s.cur d).region = none)
      (hv : s.victimRegion d (s.cur d).region = none) : NextCase s d s none

/-- Where a rotation goes on. -/
theorem nextRegion_cases {r : Option Nat} (h : s.nextRegion d = some (s', r)) :
    NextCase s d s' r := by
  unfold Space.nextRegion at h
  simp only at h
  split at h
  · rename_i hfree
    cases h
    exact .inOrder hfree
  unfold Space.forceFreeRegion at h
  split at h
  · rename_i i hi
    cases h
    obtain ⟨h1, h2, h3, h4⟩ := emptyRegion_spec hi
    exact .empty h1 h2 h3 h4
  rename_i hnone
  split at h
  · rename_i hv
    cases h
    exact .full hnone hv
  rename_i v hv
  obtain ⟨led, hdrop, hs⟩ := Option.bind_eq_some_iff.mp h
  cases hs
  exact .victim hnone hv hdrop

theorem NextCase.cfg {r : Option Nat} (h : NextCase s d s' r) : s'.cfg = s.cfg := by
  cases h with
  | inOrder _ => rfl
  | empty _ _ _ _ => rfl
  | @victim v led _ _ hdrop =>
    have hcfg : led.cfg = s.led.cfg := cfg_sweepSlots _ hdrop
    exact hcfg
  | full _ _ => rfl

theorem NextCase.cur {r : Option Nat} (h : NextCase s d s' r) : s'.cur = s.cur := by
  cases h <;> rfl

theorem NextCase.lt {i : Nat} (h : NextCase s d s' (some i)) (hcnt : 0 < s.cfg.regionCnt) :
    i < s.cfg.regionCnt := by
  cases h with
  | inOrder _ => exact Nat.mod_lt _ hcnt
  | empty hi _ _ _ => exact hi
  | victim _ hv _ => exact (victimRegion_spec hv).1

theorem NextCase.ne_cursor {now next : Nat} (h : NextCase (s.freeze d now) d s' (some next)) :
    next ≠ (s.cur d).region := by
  cases h with
  | inOrder hfree =>
    intro he
    rw [Space.cur_freeze] at hfree
    rw [Space.cur_freeze, Space.cfg_freeze] at he
    rw [Space.cfg_freeze, he, Space.rg_freeze, if_pos ⟨rfl, rfl⟩] at hfree
    cases hfree
  | empty _ hne _ _ => exact hne
  | victim _ hv _ => exact (victimRegion_spec hv).2.1

theorem NextCase.rg_of_ne {r : Option Nat} (h : NextCase s d s' r) {d' i : Nat}
    (hne : d' = d → r ≠ some i) : s'.rg d' i = s.rg d' i := by
  have htrim : ∀ (t : Space) (k : Nat), r = some k → (t.trimRegion d k).rg d' i = t.rg d' i := by
    intro t k hr
    rw [Space.rg_trimRegion, if_neg]
    rintro ⟨hd, hi⟩
    exact hne hd (by rw [hr, hi])
  cases h with
  | inOrder _ => rfl
  | empty _ _ _ _ => exact htrim s _ rfl
  | victim _ _ _ => exact htrim _ _ rfl
  | full _ _ => rfl

theorem freezeAndRotate_cases {now : Nat} {ok : Bool}
    (h : s.freezeAndRotate d now = some (s', ok)) :
    (ok = false ∧ NextCase (s.freeze d now) d s' none) ∨
      ∃ s1 next, ok = true ∧ NextCase (s.freeze d now) d s1 (some next) ∧
        s' = s1.openRegion d next now := by
  unfold Space.freezeAndRotate at h
  obtain ⟨⟨s1, r⟩, h1, h2⟩ := Option.bind_eq_some_iff.mp h
  have hcase := nextRegion_cases h1
  cases r with
  | none =>
    cases h2
    exact Or.inl ⟨rfl, hcase⟩
  | some next =>
    cases h2
    exact Or.inr ⟨s1, next, rfl, hcase, rfl⟩

end Next

end KvTier.Analysis
