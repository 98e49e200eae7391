import KvTier.Analysis.VolumeFacts

/-!
# The region an open hands to the writer

An open gives the writer of each device the first region that is FREE, else the oldest FROZEN one,
whose leaves it drops, else region 0, as it is.
-/

namespace KvTier.Analysis

open KvTier.Lib KvTier.Model Option

/-! ## What an open finds -/

/-- The checkpoint and the journals bring the leaf back. -/
def BringsBack (s : Volume) (q : Path) (lf : RadixLeaf) : Prop :=
  (Session.reopen s.sess.store s.cfg).store.idx.tree.leafAt q = some lf

/-- The header says OPEN and no TRIM record frees the region. -/
def OpenOnDisk (s : Volume) (d i : Nat) : Prop :=
  ((s.disk d).hdrs i).state = .opened ∧ (d, i) ∉ s.recovered.trims

/-- A leaf that is brought back has a page in the region. -/
def Occupied (s : Volume) (d i : Nat) : Prop :=
  ∃ q lf, BringsBack s q lf ∧ HoldsPage s.cfg lf d i

/-- Every region of the device is open on disk or occupied. -/
def NoneFree (s : Volume) (d : Nat) : Prop :=
  ∀ i, i < s.cfg.regionCnt → OpenOnDisk s d i ∨ Occupied s d i

/-- A region that is not OPEN and has an epoch. -/
def Aged (s : Volume) (d i : Nat) : Prop :=
  ¬ OpenOnDisk s d i ∧ ((s.disk d).hdrs i).epoch ≠ 0

/-- The device has no region an open could free. -/
def NothingToFree (s : Volume) (d : Nat) : Prop :=
  NoneFree s d ∧ ∀ i, i < s.cfg.regionCnt → Aged s d i → 2 ^ 64 - 1 ≤ ((s.disk d).hdrs i).epoch

/-- For want of a free region the open drops this one, the oldest that is not OPEN. -/
def DropsOnOpen (s : Volume) (d v : Nat) : Prop :=
  NoneFree s d ∧ v < s.cfg.regionCnt ∧ Aged s d v ∧ ((s.disk d).hdrs v).epoch < 2 ^ 64 - 1 ∧
    ∀ j, j < s.cfg.regionCnt → Aged s d j →
      ((s.disk d).hdrs v).epoch ≤ ((s.disk d).hdrs j).epoch ∧
        (j < v → ((s.disk d).hdrs v).epoch < ((s.disk d).hdrs j).epoch)

section Found

variable {cfg : Config} {s : Volume} {o : Opening}

theorem found_store (h : s.found = some o) {q : Path} {lf : RadixLeaf} :
    o.store.idx.tree.leafAt q = some lf ↔ BringsBack s q lf := by
  obtain ⟨led, _, hx⟩ := bind_eq_some_iff.1 h
  cases hx
  rfl

theorem found_live (hinv : StoreInv cfg s.sess.store) (h : s.found = some o) {d i : Nat}
    (hd : d < cfg.nDevs) (hi : i < cfg.regionCnt) : o.sp.live d i = 0 ↔ ¬ Occupied s d i := by
  have hcfg : s.cfg = cfg := hinv.cfgEq
  obtain ⟨led, hled, hx⟩ := bind_eq_some_iff.1 h
  cases hx
  have hre : StoreInv cfg (Session.reopen s.sess.store s.cfg).store := by
    rw [hcfg]
    exact hinv.reopen
  have hdevs : s.cfg.nDevs ≤ invalidDev := by
    have hint := hinv.ok.cfg.devsInt
    rw [hinv.cfgEq, ← hcfg] at hint
    unfold invalidDev
    omega
  have hok : LedgerOk led := LedgerOk.of_recompute hdevs hre.ok.index.side hled
  have hledCfg : led.cfg = cfg := (cfg_ledger_step (l := .recompute) hled).trans hcfg
  have hidx : led.idx = (Session.reopen s.sess.store s.cfg).store.idx := by
    obtain ⟨lv, _, hx⟩ := bind_eq_some_iff.1 hled
    cases hx
    rfl
  refine (hok.live_eq_zero_iff (hledCfg ▸ hd) (hledCfg ▸ hi)).trans ?_
  constructor
  · rintro hno ⟨q, lf, hl, hp⟩
    rw [hcfg] at hp
    obtain ⟨_, e, he, hed, hreg, hpos⟩ := (hre.leafIn hl).holds hp
    have hzero := hno q lf (by rw [hidx]; exact hl) e he hed (by rw [hledCfg]; exact hreg)
    omega
  intro hno q lf hl e he hed hreg
  rw [hidx] at hl
  by_contra hlen
  refine hno ⟨q, lf, hl, e, he, hed, e.pageNo, le_refl _, by omega, ?_⟩
  rw [hcfg, ← hledCfg]
  exact hreg

theorem found_epoch (h : s.found = some o) (d i : Nat) :
    (o.sp.rg d i).epoch = ((s.disk d).hdrs i).epoch := by
  obtain ⟨led, _, hx⟩ := bind_eq_some_iff.1 h
  cases hx
  simp only [Space.rg, classify, Volume.loaded, loadRegions]
  split <;> rfl

section Found

variable {d : Nat} (hinv : StoreInv cfg s.sess.store) (h : s.found = some o) (hd : d < cfg.nDevs)
include hinv h hd

/-- The states of the regions an open finds. -/
theorem found_state {i : Nat} (hi : i < cfg.regionCnt) :
    ((o.sp.rg d i).state = .opened ↔ OpenOnDisk s d i) ∧
      ((o.sp.rg d i).state = .free ↔ ¬ OpenOnDisk s d i ∧ ¬ Occupied s d i) ∧
      ((o.sp.rg d i).state = .frozen ↔ ¬ OpenOnDisk s d i ∧ Occupied s d i) := by
  have hocc : Occupied s d i ↔ o.sp.live d i ≠ 0 := by
    rw [Ne, found_live hinv h hd hi, not_not]
  have hloaded : ((s.loaded d).rg i).state = .opened ↔ OpenOnDisk s d i := by
    unfold OpenOnDisk Volume.loaded loadRegions
    by_cases htrim : (d, i) ∈ s.recovered.trims <;> simp [htrim]
  have hstate : (o.sp.rg d i).state =
      classifyState (o.sp.live d i) ((s.loaded d).rg i).state := by
    obtain ⟨led, _, hx⟩ := bind_eq_some_iff.1 h
    cases hx
    rfl
  rw [hstate, hocc, ← hloaded]
  unfold classifyState
  by_cases hopen : ((s.loaded d).rg i).state = .opened <;>
    by_cases hzero : o.sp.live d i = 0 <;> simp [hopen, hzero]

theorem noneFree_iff :
    (∀ i, i < cfg.regionCnt → (o.sp.rg d i).state ≠ .free) ↔ NoneFree s d := by
  unfold NoneFree
  rw [show s.cfg = cfg from hinv.cfgEq]
  refine forall₂_congr fun i hi => ?_
  rw [Ne, (found_state hinv h hd hi).2.1]
  tauto

theorem found_reuse :
    (reuse cfg.regionCnt (o.sp.rms d) = .zero ↔ NothingToFree s d) ∧
      ∀ v, reuse cfg.regionCnt (o.sp.rms d) = .oldest v ↔ DropsOnOpen s d v := by
  have hcfg : s.cfg = cfg := hinv.cfgEq
  have hnone := noneFree_iff hinv h hd
  -- on a device without free regions, the frozen regions with an epoch are the aged ones
  have haged : NoneFree s d → ∀ i, i < cfg.regionCnt →
      (((o.sp.rms d).rg i).state = .frozen ∧ ((o.sp.rms d).rg i).epoch ≠ 0 ↔ Aged s d i) := by
    intro hno i hi
    rw [show ((o.sp.rms d).rg i).epoch = _ from found_epoch h d i]
    refine and_congr_left fun _ => (found_state hinv h hd hi).2.2.trans ⟨fun hx => hx.1, ?_⟩
    intro hopen
    exact ⟨hopen, (hno i (hcfg.symm ▸ hi)).resolve_left hopen⟩
  have hchoice := reuse_choice cfg.regionCnt (o.sp.rms d) fun hfree => haged (hnone.1 hfree)
  have hepoch : ∀ i, ((o.sp.rms d).rg i).epoch = ((s.disk d).hdrs i).epoch := found_epoch h d
  simp only [hepoch] at hchoice
  unfold NothingToFree DropsOnOpen
  rw [hcfg, ← hnone]
  exact hchoice

end Found

end Found

/-! ## What the writer is given -/

/-- No leaf has a page in the region of a cursor. -/
def CursorsClear (cfg : Config) (s : Volume) : Prop :=
  ∀ d, d < cfg.nDevs → ∀ q lf, s.sess.store.idx.tree.leafAt q = some lf →
    ¬ HoldsPage cfg lf d (s.cur d).region

/-- An open hands no live page to a writer exactly if, on each device without a region it could
free, every leaf with a page in region 0 goes with the region that another device drops. In any
history of formatted devices whose puts are written to one region each and have no hash 0 on their
paths, the regions of all writers are compared with all leaves that stay. -/
theorem reopen_cursors_clear_iff {cfg : Config} (hcfg : ConfigOk cfg)
    (hsize : 0 < cfg.regionSizePages) {now now' : Nat} {ls : List VolumeLabel} {s s' : Volume}
    (hrun : VolumeRun cfg now ls s) (hstep : s.step (.reopen now') = some s') :
    CursorsClear cfg s' ↔ ∀ d, d < cfg.nDevs → NothingToFree s d → ∀ q lf, BringsBack s q lf →
      HoldsPage cfg lf d 0 →
      ∃ d' v, d' < cfg.nDevs ∧ DropsOnOpen s d' v ∧ inRegion cfg d' v lf = true := by
  have hinv := (hrun.inv hcfg).store
  obtain ⟨o, o', hfound, hopened, hstore, _, _, hcur, _⟩ := reopened_of_step hinv hstep
  -- a leaf stays exactly if it is brought back and in no region that is dropped
  have hstays : ∀ q lf, s'.sess.store.idx.tree.leafAt q = some lf ↔ BringsBack s q lf ∧
      ∀ d v, d < cfg.nDevs → DropsOnOpen s d v → inRegion cfg d v lf = false := by
    intro q lf
    rw [hstore, hopened.leaf, found_store hfound]
    refine and_congr_right fun _ => ⟨fun hx d v hd hold => ?_, fun hx d hd v hre => ?_⟩
    · exact hx d (List.mem_range.2 hd) v (((found_reuse hinv hfound hd).2 v).2 hold)
    · have hd := List.mem_range.1 hd
      exact hx d v hd (((found_reuse hinv hfound hd).2 v).1 hre)
  have hregion : ∀ d, d < cfg.nDevs →
      (s'.cur d).region = (reuse cfg.regionCnt (o.sp.rms d)).region := by
    intro d hd
    rw [hcur, hopened.cur d (List.mem_range.2 hd)]
  constructor
  · intro hclear d hd hstuck q lf hback hp
    by_contra hnone
    have hstay : s'.sess.store.idx.tree.leafAt q = some lf := by
      refine (hstays q lf).2 ⟨hback, fun d' v hd' hold => ?_⟩
      exact Bool.eq_false_iff.2 fun hin => hnone ⟨d', v, hd', hold, hin⟩
    refine hclear d hd q lf hstay ?_
    rw [hregion d hd, (found_reuse hinv hfound hd).1.2 hstuck]
    exact hp
  intro hcond d hd q lf hl hp
  obtain ⟨hback, hkept⟩ := (hstays q lf).1 hl
  rw [hregion d hd] at hp
  have hcase := reuse_cases cfg.regionCnt (o.sp.rms d)
  generalize hr : reuse cfg.regionCnt (o.sp.rms d) = r at hcase hp
  cases hcase with
  | @free i hi hstate =>
    -- a free region is not occupied
    have hno := ((found_state hinv hfound hd hi).2.1.1 hstate).2
    exact hno ⟨q, lf, hback, (show s.cfg = cfg from hinv.cfgEq) ▸ hp⟩
  | @oldest v _ _ _ _ _ _ =>
    -- the leaves of the region were dropped
    have hold := ((found_reuse hinv hfound hd).2 v).1 hr
    have hleaf := (hopened.inv.leafIn (hstore ▸ hl)).holds hp
    obtain ⟨_, e, he, hed, hreg, _⟩ := hleaf
    have hin : inRegion cfg d v lf = true := inRegion_of_extent he hed hsize hreg
    rw [hkept d v hd hold] at hin
    cases hin
  | zero _ _ =>
    have hstuck := (found_reuse hinv hfound hd).1.1 hr
    obtain ⟨d', v, hd', hold, hin⟩ := hcond d hd hstuck q lf hback hp
    rw [hkept d' v hd' hold] at hin
    cases hin

/-- One device with two regions. -/
def twoRegionDisk : Config := ⟨1, 2, 64, 4, 65536, 65536, 256⟩

theorem twoRegionDisk_ok : ConfigOk twoRegionDisk := ⟨by decide, by decide, by decide⟩

/-- A test for the runs below. -/
def onePageInside (cfg : Config) (s : Volume) : VolumeLabel → Bool
  | .op (.put a) => decide (0 ∉ a.path)
  | .op (.publish i page _ _) => (s.sess.store.pending[i]?).all fun r =>
    decide (r.dev < cfg.nDevs) && payloadNpages r.dataLen == 1 &&
      (regionOfPage cfg page).any fun j => decide (j < cfg.regionCnt)
  | _ => true

theorem volumeInside_of_onePage {cfg : Config} (s : Volume) (l : VolumeLabel)
    (h : onePageInside cfg s l = true) : VolumeInside cfg s l := by
  cases l with
  | op l =>
    cases l with
    | put a => exact ⟨trivial, show 0 ∉ a.path from of_decide_eq_true h⟩
    | publish i page crc now =>
      refine ⟨fun r hr _ => ?_, trivial⟩
      simp only [onePageInside, hr, all_some, Bool.and_eq_true, decide_eq_true_eq,
        beq_iff_eq, any_eq_true] at h
      obtain ⟨⟨hdev, hone⟩, j, hj, hcnt⟩ := h
      refine ⟨j, ⟨hdev, hcnt⟩, fun p hlo hhi => ?_⟩
      have hpage : p = page := by
        simp only [hone] at hlo hhi
        omega
      rw [hpage]
      exact hj
    | _ => exact ⟨trivial, trivial⟩
  | _ => trivial

/-- The writes of headers and superblocks reach device 0. -/
def drainMeta (n : Nat) : List VolumeLabel := List.replicate n (.write 0)

/-- A put of one page to region 0, acknowledged. -/
def putAcked : List VolumeLabel :=
  [.op (.put ⟨7, 0, [7], 0, [100], false, 0⟩), .op (.publish 0 3 0 0), .op (.flush 0), .op (.ack 1)]

/-- Opened once, the writer goes on in region 1, and the page of the put is not touched. -/
theorem reopened_beside_put : ∃ s s' lf, VolumeRun twoRegionDisk 1 putAcked s ∧
    s.step (.reopen 5) = some s' ∧ s'.sess.store.idx.tree.leafAt [7] = some lf ∧
    lf.extents = [⟨0, 3, 1⟩] ∧ CursorsClear twoRegionDisk s' := by
  have hrun : (putAcked.foldlM
      (fun s l => if onePageInside twoRegionDisk s l then s.step l else none)
      (Volume.format twoRegionDisk 1)).bind (fun s => s.found.bind fun o =>
        (s.step (.reopen 5)).map fun s' => decide ((o.sp.rg 0 1).state = .free ∧
          (s'.sess.store.idx.tree.leafAt [7]).map RadixLeaf.extents = some [⟨0, 3, 1⟩])) =
      some true := by decide +kernel
  obtain ⟨s, hs, hrest⟩ := bind_eq_some_iff.1 hrun
  obtain ⟨o, hfound, hrest⟩ := bind_eq_some_iff.1 hrest
  obtain ⟨s', hstep, hend⟩ := map_eq_some_iff.1 hrest
  obtain ⟨hfree, hleaf⟩ := of_decide_eq_true hend
  obtain ⟨lf, hl, hext⟩ := map_eq_some_iff.1 hleaf
  have hrun : VolumeRun twoRegionDisk 1 putAcked s := RunOf.of_checked _ volumeInside_of_onePage hs
  have hinv := (hrun.inv twoRegionDisk_ok).store
  refine ⟨s, s', lf, hrun, hstep, hl, hext, ?_⟩
  refine (reopen_cursors_clear_iff twoRegionDisk_ok (by decide) hrun hstep).2 ?_
  -- region 1 is free
  intro d hd hstuck
  obtain rfl : d = 0 := Nat.lt_one_iff.1 hd
  exact absurd hfree ((noneFree_iff hinv hfound hd).2 hstuck.1 1 (by decide))

/-- The put, and two opens. -/
def putAndReopenTwice : List VolumeLabel :=
  putAcked ++ [.reopen 5] ++ drainMeta 4 ++ [.op .ckpt] ++ List.replicate 5 (.op .reset) ++
    [.reopen 9]

/-- The second open makes region 0 the writer's, with its cursor on the page of the put. -/
theorem reopened_over_acked_put :
    ∃ s, VolumeRun twoRegionDisk 1 putAndReopenTwice s ∧ 1 ∈ s.sess.store.acked ∧
      s.cur 0 = ⟨0, 1⟩ ∧ s.live 0 0 = 0 ∧ (s.rg 0 0).state = .opened ∧
      ∃ lf, s.sess.store.idx.tree.leafAt [7] = some lf ∧ lf.extents = [⟨0, 3, 1⟩] ∧
        HoldsPage twoRegionDisk lf 0 0 := by
  have hrun : (putAndReopenTwice.foldlM
      (fun s l => if onePageInside twoRegionDisk s l then s.step l else none)
      (Volume.format twoRegionDisk 1)).map (fun s => decide (1 ∈ s.sess.store.acked ∧
        s.cur 0 = ⟨0, 1⟩ ∧ s.live 0 0 = 0 ∧ (s.rg 0 0).state = .opened ∧
        (s.sess.store.idx.tree.leafAt [7]).map RadixLeaf.extents = some [⟨0, 3, 1⟩])) =
      some true := by decide +kernel
  obtain ⟨s, hs, hend⟩ := map_eq_some_iff.1 hrun
  obtain ⟨hacked, hcur, hlive, hstate, hleaf⟩ := of_decide_eq_true hend
  obtain ⟨lf, hl, hext⟩ := map_eq_some_iff.1 hleaf
  refine ⟨s, RunOf.of_checked _ volumeInside_of_onePage hs, hacked, hcur, hlive, hstate, lf, hl,
    hext, ?_⟩
  exact ⟨⟨0, 3, 1⟩, by rw [hext]; simp, rfl, 3, by decide, by decide, by decide⟩

end KvTier.Analysis
