import KvTier.Analysis.LeafExtents
import KvTier.Model.Volume

/-!
# What the steps of a volume do

The sweeps over the side table, leaf by leaf (`leafAt_sweepIdx`), the choice of the region an open
goes on with (`ReuseCase`), and what an open leaves of the regions and of the index, device by
device (`openDevices_opened`).
-/

namespace KvTier.Analysis

open KvTier.Lib KvTier.Model List Option

/-! ## Sweeps over the side table -/

section Sweep

variable {s s' : Store} {due : RadixLeaf → Bool}

theorem idx_drop_store {node : Path} (h : s.drop node = some s') : s'.idx = s.idx.drop node := by
  have hstep : s.step (.drop node) = some s' := h
  cases step_cases hstep with
  | drop _ lf _ _ _ _ => rfl

theorem idx_sweepSlot {slot : SideSlot} (h : s.sweepSlot due slot = some s') :
    s'.idx = sweepIdxSlot due s.idx slot := by
  unfold Store.sweepSlot at h
  unfold sweepIdxSlot
  cases hl : s.idx.tree.leafAt slot.node with
  | none =>
    rw [hl] at h
    cases h
    rfl
  | some lf =>
    rw [hl] at h
    simp only at h ⊢
    split at h
    · rename_i hdue
      rw [if_pos hdue]
      exact idx_drop_store h
    · rename_i hdue
      cases h
      rw [if_neg hdue]

theorem idx_sweepSlots (slots : List SideSlot)
    (h : slots.foldlM (Store.sweepSlot due) s = some s') :
    s'.idx = slots.foldl (sweepIdxSlot due) s.idx :=
  foldlM_project idx_sweepSlot h

theorem sweepSlots_keeps {P : Store → Prop}
    (hdrop : ∀ {s s' : Store} {node : Path}, P s → s.step (.drop node) = some s' → P s')
    (slots : List SideSlot) (hs : P s) (h : slots.foldlM (Store.sweepSlot due) s = some s') :
    P s' := by
  induction slots generalizing s with
  | nil =>
    cases h
    exact hs
  | cons slot slots ih =>
    rw [foldlM_cons] at h
    obtain ⟨s1, h1, h2⟩ := bind_eq_some_iff.1 h
    refine ih ?_ h2
    unfold Store.sweepSlot at h1
    split at h1
    · cases h1
      exact hs
    split at h1
    · exact hdrop hs h1
    · cases h1
      exact hs

end Sweep

/-! ## The store -/

/-- An extent has its pages in one region of one device. -/
def OneRegion (cfg : Config) (e : Extent) : Prop :=
  ∃ i, (e.devId < cfg.nDevs ∧ i < cfg.regionCnt) ∧
    ∀ p, e.pageNo ≤ p → p < e.pageNo + e.lenPages → regionOfPage cfg p = some i

/-- What holds of the index and its files. -/
structure StoreInv (cfg : Config) (s : Store) : Prop where
  cfgEq : s.cfg = cfg
  ok : SessionOk s
  extents : ExtentsOk (OneRegion cfg) s

/-- A request that is published was written to one region. -/
def WrittenInside (cfg : Config) (s : Store) : Label → Prop
  | .publish i page _ _ => ∀ r, s.pending[i]? = some r → 0 < payloadNpages r.dataLen →
    OneRegion cfg ⟨r.dev, page, payloadNpages r.dataLen⟩
  | _ => True

theorem cfg_store_step {s s' : Store} {l : Label} (h : s.step l = some s') : s'.cfg = s.cfg := by
  cases step_cases h <;> rfl

section Inv

variable {cfg : Config} {s s' : Store}

theorem StoreInv.step {l : Label} (h : StoreInv cfg s) (hl : WrittenInside cfg s l)
    (hst : s.step l = some s') : StoreInv cfg s' := by
  refine ⟨(cfg_store_step hst).trans h.cfgEq, h.ok.step hst, ?_⟩
  refine h.extents.step (publishKeeps_extents (OneRegion cfg)) h.ok ?_ hst
  cases l with
  | publish i page crc now => exact fun r hr => ⟨hl r hr, fun _ => hl r hr⟩
  | _ => trivial

theorem StoreInv.dropRegion {d i : Nat} (h : StoreInv cfg s) (hst : s.dropRegion d i = some s') :
    StoreInv cfg s' :=
  sweepSlots_keeps (fun h hst => h.step (l := .drop _) trivial hst) s.idx.side h hst

theorem StoreInv.leafAt_dropRegion {d i : Nat} (h : StoreInv cfg s)
    (hst : s.dropRegion d i = some s') {q : Path} {lf : RadixLeaf} :
    s'.idx.tree.leafAt q = some lf ↔
      s.idx.tree.leafAt q = some lf ∧ inRegion cfg d i lf = false := by
  rw [idx_sweepSlots s.idx.side hst, leafAt_sweepIdx, h.cfgEq]
  refine and_congr_right fun hl => ?_
  have hslot := mem_of_sideGet (h.ok.index.side.leaf q lf hl)
  have hpin := h.ok.index.unpinned q lf hl
  simp [hslot, hpin]

theorem StoreInv.leafIn (h : StoreInv cfg s) {q : Path} {lf : RadixLeaf}
    (hl : s.idx.tree.leafAt q = some lf) :
    LeafIn cfg (fun d i => d < cfg.nDevs ∧ i < cfg.regionCnt) lf :=
  h.extents.leaves q lf hl

theorem StoreInv.session_step {s s' : Session} {l : Label} (h : StoreInv cfg s.store)
    (hl : WrittenInside cfg s.store l) (hst : s.step (.op l) = some s') :
    StoreInv cfg s'.store := by
  refine session_step_keeps (P := StoreInv cfg) (C := WrittenInside cfg)
    (fun h hl hs => h.step hl hs) (fun v h => ?_) (fun _ => trivial) h ?_ ?_ hst
  · exact ⟨h.cfgEq, h.ok.congr rfl h.ok.index h.ok.reqs rfl rfl,
      h.extents.congr h.extents.leaves rfl rfl⟩
  · rintro l' hx
    cases hx
    exact hl
  · rintro cfg' hx
    cases hx

theorem StoreInv.format (hcfg : ConfigOk cfg) : StoreInv cfg (Store.format cfg) :=
  ⟨rfl, SessionOk.format hcfg, LeavesOk.format cfg⟩

theorem StoreInv.reopen (h : StoreInv cfg s) : StoreInv cfg (Session.reopen s cfg).store := by
  refine ⟨?_, h.ok.reopen (h.cfgEq ▸ h.ok.cfg), ExtentsOk.reopen h.ok h.extents cfg⟩
  unfold Session.reopen
  split <;> rfl

end Inv

/-! ## The region an open goes on with -/

/-- How the region was found. -/
inductive ReuseCase (cnt : Nat) (rm : RegionMgr) : Reuse → Prop
  | free {i : Nat} (hi : i < cnt) (hstate : (rm.rg i).state = .free) : ReuseCase cnt rm (.free i)
  | oldest {i : Nat} (hfree : ∀ j, j < cnt → (rm.rg j).state ≠ .free) (hi : i < cnt)
      (hstate : (rm.rg i).state = .frozen) (hage : (rm.rg i).epoch ≠ 0)
      (hmax : (rm.rg i).epoch < 2 ^ 64 - 1)
      (hleast : ∀ j, j < cnt → (rm.rg j).state = .frozen → (rm.rg j).epoch ≠ 0 →
        (rm.rg i).epoch ≤ (rm.rg j).epoch ∧ (j < i → (rm.rg i).epoch < (rm.rg j).epoch)) :
      ReuseCase cnt rm (.oldest i)
  | zero (hfree : ∀ j, j < cnt → (rm.rg j).state ≠ .free)
      (hnone : ∀ j, j < cnt → (rm.rg j).state = .frozen → (rm.rg j).epoch ≠ 0 →
        2 ^ 64 - 1 ≤ (rm.rg j).epoch) : ReuseCase cnt rm .zero

/-- Which region an open goes on with. -/
theorem reuse_cases (cnt : Nat) (rm : RegionMgr) : ReuseCase cnt rm (reuse cnt rm) := by
  unfold reuse
  cases hfind : (List.range cnt).find? fun i => (rm.rg i).state == .free with
  | some i =>
    have hst := List.find?_some hfind
    exact .free (mem_range.1 (List.mem_of_find?_eq_some hfind)) (by simpa using hst)
  | none =>
    have hfree : ∀ j, j < cnt → (rm.rg j).state ≠ .free := by
      intro j hj hx
      have hnot := List.find?_eq_none.1 hfind j (mem_range.2 hj)
      exact hnot (by simp [hx])
    -- the loop looks for the first frozen region with the least epoch that is not 0
    have hscan : LeastOf (fun i => (rm.rg i).state = .frozen ∧ (rm.rg i).epoch ≠ 0)
        (fun i => (rm.rg i).epoch) (2 ^ 64 - 1) (List.range cnt)
        ((List.range cnt).foldl (fun best i =>
          if (rm.rg i).state = .frozen ∧ (rm.rg i).epoch ≠ 0 ∧ (rm.rg i).epoch < best.2 then
            (some i, (rm.rg i).epoch)
          else best) ((none : Option Nat), 2 ^ 64 - 1)) := by
      refine foldl_leastOf ?_ ?_ _ _
      · exact fun best i hp hlt => if_pos ⟨hp.1, hp.2, hlt⟩
      · exact fun best i hnot => if_neg fun hx => hnot ⟨⟨hx.1, hx.2.1⟩, hx.2.2⟩
    simp only
    unfold oldestFrozen
    generalize (List.range cnt).foldl (fun (best : Option Nat × Nat) i =>
      if (rm.rg i).state = .frozen ∧ (rm.rg i).epoch ≠ 0 ∧ (rm.rg i).epoch < best.2 then
        (some i, (rm.rg i).epoch)
      else best) (none, 2 ^ 64 - 1) = best at hscan
    obtain ⟨found, k⟩ := best
    cases found with
    | some i =>
      obtain ⟨hm, ⟨hst, hage⟩, hmax, hleast⟩ := hscan.mem
      exact .oldest hfree (mem_range.1 hm) hst hage hmax fun j hj hjst hjage =>
        ⟨hleast j (mem_range.2 hj) ⟨hjst, hjage⟩, fun hlt => hscan.lt_of_lt hlt ⟨hjst, hjage⟩⟩
    | none =>
      cases hscan with
      | none hall =>
        exact .zero hfree fun j hj hst hage => hall j (mem_range.2 hj) ⟨hst, hage⟩

/-- The choice, region by region. -/
theorem reuse_choice (cnt : Nat) (rm : RegionMgr) {P : Nat → Prop}
    (haged : (∀ i, i < cnt → (rm.rg i).state ≠ .free) → ∀ i, i < cnt →
      ((rm.rg i).state = .frozen ∧ (rm.rg i).epoch ≠ 0 ↔ P i)) :
    (reuse cnt rm = .zero ↔ (∀ i, i < cnt → (rm.rg i).state ≠ .free) ∧
      ∀ i, i < cnt → P i → 2 ^ 64 - 1 ≤ (rm.rg i).epoch) ∧
      ∀ v, reuse cnt rm = .oldest v ↔ (∀ i, i < cnt → (rm.rg i).state ≠ .free) ∧ v < cnt ∧
        P v ∧ (rm.rg v).epoch < 2 ^ 64 - 1 ∧ ∀ j, j < cnt → P j →
          (rm.rg v).epoch ≤ (rm.rg j).epoch ∧ (j < v → (rm.rg v).epoch < (rm.rg j).epoch) := by
  have hcase := reuse_cases cnt rm
  generalize reuse cnt rm = r at hcase
  cases hcase with
  | free hi hstate =>
    exact ⟨⟨nofun, fun hst => absurd hstate (hst.1 _ hi)⟩,
      fun v => ⟨nofun, fun hold => absurd hstate (hold.1 _ hi)⟩⟩
  | @oldest w hfree hw hstate hage hmax hleast =>
    have hwAged := (haged hfree w hw).1 ⟨hstate, hage⟩
    have hleast : ∀ j, j < cnt → P j → (rm.rg w).epoch ≤ (rm.rg j).epoch ∧
        (j < w → (rm.rg w).epoch < (rm.rg j).epoch) := by
      intro j hj hjAged
      obtain ⟨hst, hep⟩ := (haged hfree j hj).2 hjAged
      exact hleast j hj hst hep
    refine ⟨⟨nofun, fun hst => ?_⟩, fun v => ⟨fun hx => ?_, fun hold => ?_⟩⟩
    · have hge := hst.2 w hw hwAged
      omega
    · cases hx
      exact ⟨hfree, hw, hwAged, hmax, hleast⟩
    -- two regions that are both the first of the least epoch are one
    obtain ⟨_, hv, hvAged, _, hvLeast⟩ := hold
    have hwv := hvLeast w hw hwAged
    have hvw := hleast v hv hvAged
    have heq : w = v := by
      rcases Nat.lt_trichotomy w v with hlt | heq | hlt
      · have := hwv.2 hlt
        omega
      · exact heq
      · have := hvw.2 hlt
        omega
    rw [heq]
  | zero hfree hage =>
    have hall : ∀ i, i < cnt → P i → 2 ^ 64 - 1 ≤ (rm.rg i).epoch := by
      intro i hi hiAged
      obtain ⟨hst, hep⟩ := (haged hfree i hi).2 hiAged
      exact hage i hi hst hep
    refine ⟨⟨fun _ => ⟨hfree, hall⟩, fun _ => rfl⟩, fun v => ⟨nofun, fun hold => ?_⟩⟩
    obtain ⟨_, hv, hvAged, hlt, _⟩ := hold
    have hge := hall v hv hvAged
    omega

theorem reuse_region_lt {cnt : Nat} (hcnt : 0 < cnt) (rm : RegionMgr) :
    (reuse cnt rm).region < cnt := by
  have h := reuse_cases cnt rm
  generalize reuse cnt rm = r at h
  cases h with
  | free hi _ => exact hi
  | oldest _ hi _ _ _ _ => exact hi
  | zero _ _ => exact hcnt

/-! ## Device by device -/

/-- What the open does to the devices so far. -/
structure DevicesOpened (cfg : Config) (now : Nat) (o : Opening) (ds : List Nat) (o' : Opening) :
    Prop where
  inv : StoreInv cfg o'.store
  cfgEq : o'.sp.cfg = cfg
  leaf : ∀ q lf, o'.store.idx.tree.leafAt q = some lf ↔ o.store.idx.tree.leafAt q = some lf ∧
    ∀ d ∈ ds, ∀ v, reuse cfg.regionCnt (o.sp.rms d) = .oldest v → inRegion cfg d v lf = false
  rg : ∀ d ∈ ds, ∀ i, o'.sp.rg d i =
    if i = (reuse cfg.regionCnt (o.sp.rms d)).region then
      ⟨(o.sp.rms d).epochCounter + 1, now, 0, .opened⟩
    else o.sp.rg d i
  cur : ∀ d ∈ ds, o'.sp.cur d = ⟨(reuse cfg.regionCnt (o.sp.rms d)).region, 1⟩
  rest : ∀ d, d ∉ ds → o'.sp.rms d = o.sp.rms d ∧ o'.sp.cur d = o.sp.cur d

section Open

variable {cfg : Config} {now : Nat} {o o' : Opening}

theorem rms_openRegion_of_ne (sp : Space) {d d' : Nat} (i : Nat) (h : d' ≠ d) :
    (sp.openRegion d i now).rms d' = sp.rms d' := by
  simp [Space.openRegion, Space.setRg, Space.clearLive, h]

theorem opening_drop (h : StoreInv cfg o.store) (hcfg : o.sp.cfg = cfg) {d : Nat} {r : Reuse}
    (hd : o.drop d r = some o') : StoreInv cfg o'.store ∧ o'.sp.cfg = cfg ∧
      o'.sp.rms = o.sp.rms ∧ o'.sp.cur = o.sp.cur ∧
      ∀ q lf, o'.store.idx.tree.leafAt q = some lf ↔ o.store.idx.tree.leafAt q = some lf ∧
        ∀ v, r = .oldest v → inRegion cfg d v lf = false := by
  cases r with
  | oldest i =>
    obtain ⟨store, hstore, hd⟩ := bind_eq_some_iff.1 hd
    obtain ⟨led, hled, hd⟩ := bind_eq_some_iff.1 hd
    cases hd
    have hledCfg : led.cfg = o.sp.led.cfg := cfg_sweepSlots _ hled
    refine ⟨h.dropRegion hstore, hledCfg.trans hcfg, rfl, rfl, fun q lf => ?_⟩
    rw [h.leafAt_dropRegion hstore]
    simp
  | free i | zero =>
    cases hd
    exact ⟨h, hcfg, rfl, rfl, fun q lf => by simp⟩

theorem opened_device (h : StoreInv cfg o.store) (hcfg : o.sp.cfg = cfg) {d : Nat}
    (hd : o.device now d = some o') : DevicesOpened cfg now o [d] o' := by
  obtain ⟨o1, hdrop, hd⟩ := bind_eq_some_iff.1 hd
  cases hd
  rw [hcfg] at hdrop ⊢
  obtain ⟨hinv, hcfg1, hrms, hcur, hleaf⟩ := opening_drop h hcfg hdrop
  refine ⟨hinv, hcfg1, fun q lf => ?_, ?_, ?_, ?_⟩
  · rw [hleaf]
    simp
  · intro d' hd' i
    obtain rfl := mem_singleton.1 hd'
    rw [Space.rg_openRegion, hrms]
    simp [Space.rg, hrms]
  · intro d' hd'
    obtain rfl := mem_singleton.1 hd'
    rw [Space.cur_openRegion, if_pos rfl]
  intro d' hd'
  have hne : d' ≠ d := fun hx => hd' (mem_singleton.2 hx)
  rw [rms_openRegion_of_ne _ _ hne, Space.cur_openRegion, if_neg hne, hrms, hcur]
  exact ⟨rfl, rfl⟩

/-- All devices. -/
theorem openDevices_opened {ds : List Nat} (hds : ds.Nodup) (h : StoreInv cfg o.store)
    (hcfg : o.sp.cfg = cfg) (hd : ds.foldlM (Opening.device now) o = some o') :
    DevicesOpened cfg now o ds o' := by
  induction ds generalizing o with
  | nil =>
    cases hd
    exact ⟨h, hcfg, by simp, by simp, by simp, fun _ _ => ⟨rfl, rfl⟩⟩
  | cons d ds ih =>
    rw [foldlM_cons] at hd
    obtain ⟨o1, h1, h2⟩ := bind_eq_some_iff.1 hd
    obtain ⟨hnot, hds⟩ := nodup_cons.1 hds
    have hfirst := opened_device h hcfg h1
    have hrest := ih hds hfirst.inv hfirst.cfgEq h2
    -- the regions of the devices that come later are as they were
    have hlater : ∀ d' ∈ ds, o1.sp.rms d' = o.sp.rms d' := by
      intro d' hd'
      refine (hfirst.rest d' fun hx => ?_).1
      exact hnot (mem_singleton.1 hx ▸ hd')
    obtain ⟨hsame, hsameCur⟩ := hrest.rest d hnot
    refine ⟨hrest.inv, hrest.cfgEq, fun q lf => ?_, ?_, ?_, ?_⟩
    · rw [hrest.leaf, hfirst.leaf, forall_mem_singleton, forall_mem_cons, and_assoc]
      refine and_congr_right fun _ => and_congr_right fun _ => ?_
      refine forall₂_congr fun d' hd' => ?_
      rw [hlater d' hd']
    · intro d' hd' i
      rcases mem_cons.1 hd' with rfl | hd'
      · rw [Space.rg, hsame]
        exact hfirst.rg d' (by simp) i
      · rw [hrest.rg d' hd', hlater d' hd', Space.rg, Space.rg, hlater d' hd']
    · intro d' hd'
      rcases mem_cons.1 hd' with rfl | hd'
      · rw [hsameCur]
        exact hfirst.cur d' (by simp)
      · rw [hrest.cur d' hd', hlater d' hd']
    intro d' hd'
    obtain ⟨hne, hd'⟩ := not_or.1 (mem_cons.not.1 hd')
    obtain ⟨hr1, hc1⟩ := hrest.rest d' hd'
    obtain ⟨hr2, hc2⟩ := hfirst.rest d' (by simpa using hne)
    exact ⟨hr1.trans hr2, hc1.trans hc2⟩

end Open

/-! ## Volumes -/

/-- What holds of a volume. -/
structure VolumeInv (cfg : Config) (s : Volume) : Prop where
  store : StoreInv cfg s.sess.store
  look : ∀ d i, s.look = some (d, i) → d < cfg.nDevs ∧ i < cfg.regionCnt

/-- Puts have no hash 0 on their paths and are written to one region each. -/
def VolumeInside (cfg : Config) (s : Volume) : VolumeLabel → Prop
  | .op l => WrittenInside cfg s.sess.store l ∧ NonzeroPut l
  | _ => True

section Volume

variable {cfg : Config} {s s' : Volume}

/-- What a rotation is made of. -/
structure Rotated (s : Volume) (d now : Nat) (s' : Volume) : Prop where
  dev : d < s.cfg.nDevs
  next : ∃ freed i, NextCase (s.space.freeze d now) d freed (some i) ∧
    s'.rms = (freed.openRegion d i now).rms ∧ s'.cur = (freed.openRegion d i now).cur
  look : s'.look = s.look
  keeps : ∀ {P : Store → Prop} (_ : ∀ {s s' : Store} {l : Label}, P s →
      (∀ i page crc now, l ≠ .publish i page crc now) → s.step l = some s' → P s'),
    P s.sess.store → P s'.sess.store

theorem rotated_of_step {d now : Nat} (h : s.rotate d now = some s') : Rotated s d now s' := by
  unfold Volume.rotate at h
  split at h
  · cases h
  rename_i hguard
  obtain ⟨store1, htrim, h⟩ := bind_eq_some_iff.1 h
  obtain ⟨store2, hflush, h⟩ := bind_eq_some_iff.1 h
  obtain ⟨store3, hdrop, h⟩ := bind_eq_some_iff.1 h
  obtain ⟨⟨freed, found⟩, hnext, h⟩ := bind_eq_some_iff.1 h
  obtain ⟨i, hfound, h⟩ := bind_eq_some_iff.1 h
  cases h
  have hfound : found = some i := hfound
  subst hfound
  refine ⟨by omega, ⟨freed, i, nextRegion_cases hnext, rfl, rfl⟩, rfl, fun hstep hP => ?_⟩
  have h1 := hstep (l := .trim d _ _) hP (fun _ _ _ _ => nofun) htrim
  have h2 := hstep (l := .flush d) h1 (fun _ _ _ _ => nofun) hflush
  cases hvictim : Volume.rotationVictim (s.space.freeze d now) d with
  | none =>
    rw [hvictim] at hdrop
    cases hdrop
    exact h2
  | some v =>
    rw [hvictim] at hdrop
    refine sweepSlots_keeps (fun hP hs => ?_) _ h2 hdrop
    exact hstep (l := .drop _) hP (fun _ _ _ _ => nofun) hs

/-- What a step of the store is made of. -/
theorem op_cases {l : Label} (h : s.op l = some s') : ∃ sess live,
    s.sess.step (.op l) = some sess ∧ s.liveAfter l = some live ∧
      s' = { s with sess := sess, live := live } := by
  unfold Volume.op at h
  split at h
  · cases h
  obtain ⟨sess, hsess, h⟩ := bind_eq_some_iff.1 h
  obtain ⟨live, hlive, h⟩ := bind_eq_some_iff.1 h
  cases h
  exact ⟨sess, live, hsess, hlive, rfl⟩

theorem reopened_of_step {now : Nat} (hinv : StoreInv cfg s.sess.store)
    (h : s.reopen now = some s') : ∃ o o', s.found = some o ∧
      DevicesOpened cfg now o (List.range cfg.nDevs) o' ∧ s'.sess.store = o'.store ∧
      s'.live = o'.sp.led.live ∧ s'.rms = o'.sp.rms ∧ s'.cur = o'.sp.cur ∧ s'.look = none := by
  obtain ⟨o, hfound, h⟩ := bind_eq_some_iff.1 h
  obtain ⟨o', hdevs, h⟩ := bind_eq_some_iff.1 h
  cases h
  have hcfg : s.cfg = cfg := hinv.cfgEq
  rw [hcfg] at hdevs
  obtain ⟨led, hled, hx⟩ := bind_eq_some_iff.1 hfound
  refine ⟨o, o', hfound, openDevices_opened (nodup_range) ?_ ?_ hdevs, rfl, rfl, rfl, rfl, rfl⟩
  · cases hx
    rw [hcfg]
    exact hinv.reopen
  · cases hx
    exact (cfg_ledger_step (l := .recompute) hled).trans hcfg

theorem VolumeInv.format (hcfg : ConfigOk cfg) (now : Nat) :
    VolumeInv cfg (Volume.format cfg now) :=
  ⟨StoreInv.format hcfg, nofun⟩

/-- Every step keeps the invariant. -/
theorem VolumeInv.step {l : VolumeLabel} (h : VolumeInv cfg s) (hl : VolumeInside cfg s l)
    (hst : s.step l = some s') : VolumeInv cfg s' := by
  cases l with
  | op l =>
    obtain ⟨sess, live, hsess, _, rfl⟩ := op_cases hst
    exact ⟨h.store.session_step hl.1 hsess, h.look⟩
  | rotate d now =>
    have hrot := rotated_of_step hst
    refine ⟨hrot.keeps (P := StoreInv cfg) (fun {s s' l} hP hl hs => hP.step ?_ hs) h.store, ?_⟩
    · cases l with
      | publish i page crc now => exact absurd rfl (hl i page crc now)
      | _ => trivial
    · rw [hrot.look]
      exact h.look
  | gcLook d i =>
    simp only [Volume.step, Volume.gcLook] at hst
    split at hst
    · rename_i hguard
      cases hst
      refine ⟨h.store, fun d' i' hx => ?_⟩
      cases hx
      rw [← show s.cfg = cfg from h.store.cfgEq]
      exact ⟨hguard.1, hguard.2.1⟩
    · cases hst
  | gcTrim =>
    simp only [Volume.step, Volume.gcTrim] at hst
    split at hst
    · cases hst
    · cases hst
      exact ⟨h.store, nofun⟩
  | write d =>
    simp only [Volume.step, Volume.write] at hst
    split at hst
    · cases hst
    · cases hst
      exact ⟨h.store, h.look⟩
  | reopen now =>
    obtain ⟨o, o', _, hopened, hstore, _, _, _, hlook⟩ := reopened_of_step h.store hst
    refine ⟨?_, ?_⟩
    · rw [hstore]
      exact hopened.inv
    · rw [hlook]
      nofun

/-- A history of a volume. -/
def VolumeRun (cfg : Config) (now : Nat) (ls : List VolumeLabel) (s : Volume) : Prop :=
  RunOf Volume.step (VolumeInside cfg) (Volume.format cfg now) ls s

theorem VolumeRun.inv {now : Nat} {ls : List VolumeLabel} (h : VolumeRun cfg now ls s)
    (hcfg : ConfigOk cfg) : VolumeInv cfg s :=
  RunOf.invariant (VolumeInv cfg) (fun _ _ _ h hl hst => h.step hl hst) h (.format hcfg now)

end Volume

end KvTier.Analysis
