import KvTier.Analysis.Reopening

/-!
# The states of the regions

While a cache is open, each device has one OPEN region, the one of its cursor, and every other
region with live pages is FROZEN: a rotation freezes the region it leaves before it opens another,
and the region it opens is a free one or one it has emptied (`regionsOk_rotate`).
-/

namespace KvTier.Analysis

open KvTier.Lib KvTier.Model

/-- One OPEN region, the cursor's; other regions with pages are FROZEN. -/
structure DeviceOk (cfg : Config) (s : Volume) (d : Nat) : Prop where
  cursor : (s.cur d).region < cfg.regionCnt
  opened : ∀ i, i < cfg.regionCnt → ((s.rg d i).state = .opened ↔ i = (s.cur d).region)
  frozen : ∀ i, i ≠ (s.cur d).region → ∀ q lf, s.sess.store.idx.tree.leafAt q = some lf →
    HoldsPage cfg lf d i → (s.rg d i).state = .frozen

/-- The regions of all devices. -/
def RegionsOk (cfg : Config) (s : Volume) : Prop := ∀ d, d < cfg.nDevs → DeviceOk cfg s d

/-- What a step needs to keep the regions in order. -/
def KeepsRegions (cfg : Config) (s : Volume) : VolumeLabel → Prop
  | .op (.publish i page crc now) => ∀ r, s.sess.store.pending[i]? = some r →
    ¬ Outdated (s.sess.store.idx.tree.leafAt (resolvedNode s.sess.store r)) (r.args page crc now) →
    0 < payloadNpages r.dataLen → ∀ j, regionOfPage cfg page = some j → (s.rg r.dev j).state ≠ .free
  | .gcTrim => ∀ d i, s.look = some (d, i) → i ≠ (s.cur d).region ∧
    ∀ q lf, s.sess.store.idx.tree.leafAt q = some lf → ¬ HoldsPage cfg lf d i
  | .reopen _ => ∀ d i, d < cfg.nDevs → i < cfg.regionCnt → OpenOnDisk s d i →
    i = 0 ∧ NothingToFree s d
  | _ => True

section Step

variable {cfg : Config} {s s' : Volume}

theorem DeviceOk.mono {d : Nat} (h : DeviceOk cfg s d) (hrg : ∀ i, s'.rg d i = s.rg d i)
    (hcur : s'.cur d = s.cur d) (hleaf : ∀ q lf, s'.sess.store.idx.tree.leafAt q = some lf →
      s.sess.store.idx.tree.leafAt q = some lf) : DeviceOk cfg s' d where
  cursor := by rw [hcur]; exact h.cursor
  opened i hi := by rw [hrg, hcur]; exact h.opened i hi
  frozen i hne q lf hl hp := by
    rw [hrg]
    rw [hcur] at hne
    exact h.frozen i hne q lf (hleaf q lf hl) hp

theorem leafAt_of_store_step {t t' : Store} {l : Label}
    (hl : ∀ i page crc now, l ≠ .publish i page crc now) (h : t.step l = some t') {q : Path}
    {lf : RadixLeaf} (hq : t'.idx.tree.leafAt q = some lf) : t.idx.tree.leafAt q = some lf := by
  cases step_cases h with
  | publish i page crc now | publishRejected i page crc now => exact absurd rfl (hl i page crc now)
  | drop node lf0 _ _ _ _ =>
    have hq : (t.idx.drop node).tree.leafAt q = some lf := hq
    rw [leafAt_drop] at hq
    split at hq
    · cases hq
    · exact hq
  | _ => exact hq

theorem leafAt_of_session_step {t t' : Session} {l : Label}
    (hl : ∀ i page crc now, l ≠ .publish i page crc now) (h : t.step (.op l) = some t') (q : Path)
    (lf : RadixLeaf) (hq : t'.store.idx.tree.leafAt q = some lf) :
    t.store.idx.tree.leafAt q = some lf := by
  refine session_step_keeps
    (P := fun u => ∀ q lf, u.idx.tree.leafAt q = some lf → t.store.idx.tree.leafAt q = some lf)
    (C := fun _ l => ∀ i page crc now, l ≠ .publish i page crc now)
    (fun hP hl hs q lf hq => hP q lf (leafAt_of_store_step hl hs hq)) (fun v hP => hP) ?_
    (fun _ _ hq => hq) ?_ ?_ h q lf hq
  · exact fun _ _ _ _ _ => nofun
  · rintro l' hx
    cases hx
    exact hl
  · rintro cfg' hx
    cases hx

theorem led_publish_op {i page crc now : Nat} (h : s.op (.publish i page crc now) = some s') :
    ∃ r, s.sess.store.pending[i]? = some r ∧ s.led.publish (r.args page crc now) = some s'.led ∧
      s'.rms = s.rms ∧ s'.cur = s.cur := by
  obtain ⟨sess, live, hsess, hlive, rfl⟩ := op_cases h
  have hstore : s.sess.store.step (.publish i page crc now) = some sess.store := by
    simp only [Session.step] at hsess
    split at hsess
    · obtain ⟨t, ht, rfl⟩ := Option.map_eq_some_iff.1 hsess
      exact ht
    · cases hsess
  have hcfg := cfg_store_step hstore
  have hidx : ∃ r, s.sess.store.pending[i]? = some r ∧ sess.store.idx =
      (resolvedIdx s.sess.store r).publish (resolvedNode s.sess.store r) (r.args page crc now) := by
    generalize sess.store = t at hstore
    cases step_cases hstore with
    | publish _ _ _ _ r _ hr _ => exact ⟨r, hr, rfl⟩
    | publishRejected _ _ _ _ r _ hr _ => exact ⟨r, hr, rfl⟩
  obtain ⟨r, hr, hidx⟩ := hidx
  refine ⟨r, hr, ?_, rfl, rfl⟩
  simp only [Volume.liveAfter, hr] at hlive
  obtain ⟨led, hled, rfl⟩ := Option.map_eq_some_iff.1 hlive
  rw [hled]
  obtain ⟨_, _, _, rfl⟩ := (publishAt_eq_some_iff _ _ _ _).1 hled
  unfold Volume.led Volume.cfg
  rw [hidx, hcfg]
  rfl

theorem publish_of_op {i page crc now : Nat} (h : s.op (.publish i page crc now) = some s') :
    ∃ r, s.sess.store.pending[i]? = some r ∧
      (leafPublish (s.sess.store.idx.tree.leafAt (resolvedNode s.sess.store r))
        (r.args page crc now)).oob = false ∧
      s'.sess.store.idx = (resolvedIdx s.sess.store r).publish (resolvedNode s.sess.store r)
        (r.args page crc now) ∧ s'.rms = s.rms ∧ s'.cur = s.cur := by
  obtain ⟨r, hr, hled, hrms, hcur⟩ := led_publish_op h
  have hled : Ledger.publishAt { s.led with idx := resolvedIdx s.sess.store r }
      (resolvedNode s.sess.store r) (r.args page crc now) = some s'.led := hled
  obtain ⟨hoob, _, _, hledEq⟩ := (publishAt_eq_some_iff _ _ _ _).1 hled
  -- the accounting of the publish stays inside the part array
  simp only [resolvedIdx, leafAt_resolveNode] at hoob
  exact ⟨r, hr, hoob, congrArg Ledger.idx hledEq, hrms, hcur⟩

/-- Publishes. -/
theorem regionsOk_publish_iff (hinv : VolumeInv cfg s) (h : RegionsOk cfg s) {i page crc now : Nat}
    (hin : VolumeInside cfg s (.op (.publish i page crc now)))
    (hst : s.op (.publish i page crc now) = some s') :
    RegionsOk cfg s' ↔ KeepsRegions cfg s (.op (.publish i page crc now)) := by
  obtain ⟨r, hr, hoob, hidx, hrms, hcur⟩ := publish_of_op hst
  have hreq := hinv.store.ok.reqs r (List.mem_of_getElem? hr)
  have hdev : r.dev < cfg.nDevs := by
    have hdev := hreq.dev
    rwa [hinv.store.cfgEq] at hdev
  have hinvalid : r.dev ≠ invalidDev := by
    have hint := hinv.store.ok.cfg.devsInt
    rw [hinv.store.cfgEq] at hint
    unfold invalidDev
    omega
  have hrg : ∀ d i, s'.rg d i = s.rg d i := fun d i => by rw [Volume.rg, hrms]; rfl
  have hleaf : ∀ q, s'.sess.store.idx.tree.leafAt q =
      if q = resolvedNode s.sess.store r then
        (leafPublish (s.sess.store.idx.tree.leafAt (resolvedNode s.sess.store r))
          (r.args page crc now)).leaf
      else s.sess.store.idx.tree.leafAt q := by
    intro q
    rw [hidx]
    exact leafAt_published hinv.store.ok.index.side hreq.path _ q
  constructor
  · intro hok r' hr' hnew hpos j hj hfree
    obtain rfl := Option.some.inj (hr.symm.trans hr')
    -- the new leaf has the pages of the publish
    obtain ⟨lf, hlf, _⟩ := leafPublish_fresh_cases
      (s.sess.store.idx.tree.leafAt (resolvedNode s.sess.store r)) (r.args page crc now)
    have hmem := extent_mem_leafPublish hnew hoob hinvalid hlf
    have hl : s'.sess.store.idx.tree.leafAt (resolvedNode s.sess.store r) = some lf := by
      rw [hleaf, if_pos rfl, hlf]
    have hholds : HoldsPage cfg lf r.dev j :=
      ⟨_, hmem, rfl, page, le_refl _, Nat.lt_add_of_pos_right hpos, hj⟩
    have hok := hok r.dev hdev
    have hstate := (h r.dev hdev).opened
    by_cases hcursor : j = (s'.cur r.dev).region
    · have hopen := (hok.opened j (hcursor ▸ hok.cursor)).2 hcursor
      rw [hrg, hfree] at hopen
      cases hopen
    · have hfrozen := hok.frozen j hcursor _ lf hl hholds
      rw [hrg, hfree] at hfrozen
      cases hfrozen
  intro hkeeps d hd
  have hold := h d hd
  refine ⟨?_, ?_, ?_⟩
  · rw [hcur]
    exact hold.cursor
  · intro j hj
    rw [hrg, hcur]
    exact hold.opened j hj
  intro j hne q lf hl hp
  rw [hrg]
  rw [hcur] at hne
  by_cases hq : q = resolvedNode s.sess.store r
  · rw [hleaf, if_pos hq] at hl
    by_cases hlate : Outdated
        (s.sess.store.idx.tree.leafAt (resolvedNode s.sess.store r)) (r.args page crc now)
    · rw [leafPublish_of_outdated hlate] at hl
      exact hold.frozen j hne _ lf hl hp
    obtain ⟨e, he, hed, p, hlo, hhi, hreg⟩ := hp
    rcases mem_extents_leafPublish hl he (by omega) with ⟨lf0, hlf0, he0⟩ | rfl
    · exact hold.frozen j hne _ lf0 hlf0 ⟨e, he0, hed, p, hlo, hhi, hreg⟩
    -- the pages of the publish lie in one region, which is in use
    have hpos : 0 < payloadNpages r.dataLen := by
      change p < page + payloadNpages r.dataLen at hhi
      change page ≤ p at hlo
      omega
    obtain ⟨k, ⟨_, hk⟩, hall⟩ := hin.1 r hr hpos
    have hkj : k = j := Option.some.inj ((hall p hlo hhi).symm.trans hreg)
    subst hkj
    have hdd : r.dev = d := hed
    subst hdd
    have hfree := hkeeps r hr hlate hpos k (hall page (le_refl _) (by
      change page < page + payloadNpages r.dataLen
      omega))
    have hopen : (s.rg r.dev k).state ≠ .opened := fun hx => hne ((hold.opened k hk).1 hx)
    cases hstate : (s.rg r.dev k).state with
    | free => exact absurd hstate hfree
    | opened => exact absurd hstate hopen
    | frozen => rfl
  · rw [hleaf, if_neg hq] at hl
    exact hold.frozen j hne q lf hl hp

/-- A rotation keeps the regions in order. -/
theorem regionsOk_rotate (hcnt : 0 < cfg.regionCnt) (hinv : VolumeInv cfg s) (h : RegionsOk cfg s)
    {d now : Nat} (hst : s.rotate d now = some s') : RegionsOk cfg s' := by
  have hrot := rotated_of_step hst
  have hleaf : ∀ q lf, s'.sess.store.idx.tree.leafAt q = some lf →
      s.sess.store.idx.tree.leafAt q = some lf := by
    refine hrot.keeps (P := fun t => ∀ q lf, t.idx.tree.leafAt q = some lf →
      s.sess.store.idx.tree.leafAt q = some lf) (fun hP hl hs q lf hq => ?_) fun _ _ hq => hq
    exact hP q lf (leafAt_of_store_step hl hs hq)
  obtain ⟨freed, next, hnext, hrms, hcur⟩ := hrot.next
  have hne : next ≠ (s.cur d).region := hnext.ne_cursor
  have hcfg : (s.space.freeze d now).cfg = cfg := hinv.store.cfgEq
  have hnextLt : next < cfg.regionCnt := by
    have hlt := hnext.lt (by rw [hcfg]; exact hcnt)
    rwa [hcfg] at hlt
  -- every region after the rotation
  have hrg : ∀ d' i, s'.rg d' i =
      if d' = d ∧ i = next then ⟨(freed.rms d).epochCounter + 1, now, 0, .opened⟩
      else if d' = d ∧ i = (s.cur d).region then
        { s.rg d (s.cur d).region with closeTs := now, state := .frozen }
      else s.rg d' i := by
    intro d' i
    have hrg' : s'.rg d' i = (freed.openRegion d next now).rg d' i := by
      rw [Volume.rg, hrms]
      rfl
    rw [hrg', Space.rg_openRegion]
    by_cases hd : d' = d ∧ i = next
    · rw [if_pos hd, if_pos hd]
    · rw [if_neg hd, if_neg hd, hnext.rg_of_ne fun hd' hi => hd ⟨hd', (Option.some.inj hi).symm⟩,
        Space.rg_freeze]
      rfl
  intro d' hd'
  have hold := h d' hd'
  by_cases hd : d' = d
  · subst hd
    have hcur' : s'.cur d' = ⟨next, 1⟩ := by
      rw [hcur, Space.cur_openRegion, if_pos rfl]
    refine ⟨by rw [hcur']; exact hnextLt, fun i hi => ?_, fun i hi q lf hl hp => ?_⟩
    · rw [hrg, hcur']
      by_cases hin : i = next
      · simp [hin]
      by_cases hio : i = (s.cur d').region
      · simp [hio, hne.symm]
      · simp only [hin, hio, and_false, if_false, iff_false]
        exact fun hx => hio ((hold.opened i hi).1 hx)
    rw [hcur'] at hi
    rw [hrg, if_neg fun hx => hi hx.2]
    by_cases hio : i = (s.cur d').region
    · simp [hio]
    · rw [if_neg fun hx => hio hx.2]
      exact hold.frozen i hio q lf (hleaf q lf hl) hp
  refine hold.mono (fun i => ?_) ?_ hleaf
  · rw [hrg, if_neg fun hx => hd hx.1, if_neg fun hx => hd hx.1]
  · rw [hcur, Space.cur_openRegion, if_neg hd, hnext.cur]
    rfl

/-- Trims of `gc_tick`. -/
theorem regionsOk_gcTrim_iff (hinv : VolumeInv cfg s) (h : RegionsOk cfg s)
    (hst : s.gcTrim = some s') : RegionsOk cfg s' ↔ KeepsRegions cfg s .gcTrim := by
  unfold Volume.gcTrim at hst
  cases hlook : s.look with
  | none =>
    rw [hlook] at hst
    cases hst
  | some di =>
    obtain ⟨d, i⟩ := di
    rw [hlook] at hst
    cases hst
    obtain ⟨hd, hi⟩ := hinv.look d i hlook
    generalize hs' : ({ s with
      live := (s.space.trimRegion d i).led.live
      rms := (s.space.trimRegion d i).rms
      look := none
      todo := Function.update s.todo d (s.todo d ++
        [.header i ((s.space.trimRegion d i).rg d i)]) } : Volume) = t
    have hcur : t.cur = s.cur := by rw [← hs']
    have hleaf : t.sess = s.sess := by rw [← hs']
    have hrg : ∀ d' i', t.rg d' i' =
        if d' = d ∧ i' = i then { s.rg d i with state := .free, epoch := 0, closeTs := 0 }
        else s.rg d' i' := by
      intro d' i'
      rw [← hs']
      exact Space.rg_trimRegion s.space d i d' i'
    have hfree : (t.rg d i).state = .free := by rw [hrg, if_pos ⟨rfl, rfl⟩]
    constructor
    · intro hok d' i' hlook'
      obtain ⟨rfl, rfl⟩ : d' = d ∧ i' = i := by
        rw [hlook] at hlook'
        cases hlook'
        exact ⟨rfl, rfl⟩
      have hne : i' ≠ (s.cur d').region := by
        intro hx
        have hopen := ((hok d' hd).opened i' hi).2 (by rw [hcur]; exact hx)
        rw [hfree] at hopen
        cases hopen
      refine ⟨hne, fun q lf hl hp => ?_⟩
      have hfrozen :=
        (hok d' hd).frozen i' (by rw [hcur]; exact hne) q lf (by rw [hleaf]; exact hl) hp
      rw [hfree] at hfrozen
      cases hfrozen
    intro hkeeps d' hd'
    obtain ⟨hne, hempty⟩ := hkeeps d i hlook
    have hold := h d' hd'
    refine ⟨by rw [hcur]; exact hold.cursor, fun j hj => ?_, fun j hj q lf hl hp => ?_⟩
    · rw [hrg, hcur]
      split
      · rename_i hx
        obtain ⟨rfl, rfl⟩ := hx
        exact ⟨nofun, fun hx => absurd hx hne⟩
      · exact hold.opened j hj
    rw [hleaf] at hl
    rw [hcur] at hj
    rw [hrg, if_neg]
    · exact hold.frozen j hj q lf hl hp
    · rintro ⟨rfl, rfl⟩
      exact hempty q lf hl hp

/-- Opens. -/
theorem regionsOk_reopen_iff (hcnt : 0 < cfg.regionCnt) (hinv : VolumeInv cfg s) {now : Nat}
    (hst : s.reopen now = some s') :
    RegionsOk cfg s' ↔ KeepsRegions cfg s (.reopen now) := by
  obtain ⟨o, o', hfound, hopened, hstore, _, hrms, hcur, _⟩ := reopened_of_step hinv.store hst
  have hregion : ∀ d, d < cfg.nDevs →
      (s'.cur d).region = (reuse cfg.regionCnt (o.sp.rms d)).region := by
    intro d hd
    rw [hcur, hopened.cur d (List.mem_range.2 hd)]
  have hrg : ∀ d, d < cfg.nDevs → ∀ i, s'.rg d i =
      if i = (s'.cur d).region then ⟨(o.sp.rms d).epochCounter + 1, now, 0, .opened⟩
      else o.sp.rg d i := by
    intro d hd i
    rw [hregion d hd, Volume.rg, hrms]
    exact hopened.rg d (List.mem_range.2 hd) i
  -- a region that is OPEN already is gone on with only if nothing else is left
  have hzero : ∀ d, d < cfg.nDevs → ∀ i, i < cfg.regionCnt → OpenOnDisk s d i →
      (i = (s'.cur d).region ↔ i = 0 ∧ NothingToFree s d) := by
    intro d hd i hi hopen
    have hstate := (found_state hinv.store hfound hd hi).1.2 hopen
    rw [hregion d hd, ← (found_reuse hinv.store hfound hd).1]
    have hcase := reuse_cases cfg.regionCnt (o.sp.rms d)
    generalize reuse cfg.regionCnt (o.sp.rms d) = r at hcase
    cases hcase with
    | free hj hfree =>
      refine ⟨fun hx => ?_, fun hx => nomatch hx.2⟩
      subst hx
      exact nomatch hstate.symm.trans hfree
    | oldest _ hj hfrozen _ _ _ =>
      refine ⟨fun hx => ?_, fun hx => nomatch hx.2⟩
      subst hx
      exact nomatch hstate.symm.trans hfrozen
    | zero _ _ => exact ⟨fun hx => ⟨hx, rfl⟩, fun hx => hx.1⟩
  constructor
  · intro hok d i hd hi hopen
    refine (hzero d hd i hi hopen).1 ?_
    by_contra hne
    refine hne (((hok d hd).opened i hi).1 ?_)
    rw [hrg d hd, if_neg hne]
    exact (found_state hinv.store hfound hd hi).1.2 hopen
  intro hkeeps d hd
  have hnotOpen : ∀ i, i < cfg.regionCnt → i ≠ (s'.cur d).region → ¬ OpenOnDisk s d i :=
    fun i hi hne hopen => hne ((hzero d hd i hi hopen).2 (hkeeps d i hd hi hopen))
  refine ⟨?_, fun i hi => ?_, fun i hne q lf hl hp => ?_⟩
  · rw [hregion d hd]
    exact reuse_region_lt hcnt _
  · rw [hrg d hd]
    by_cases hx : i = (s'.cur d).region
    · simp [hx]
    · rw [if_neg hx]
      refine ⟨fun hopen => ?_, fun hy => absurd hy hx⟩
      exact absurd ((found_state hinv.store hfound hd hi).1.1 hopen) (hnotOpen i hi hx)
  rw [hrg d hd, if_neg hne]
  rw [hstore] at hl
  have hback := (found_store hfound).1 ((hopened.leaf q lf).1 hl).1
  have hi := ((hopened.inv.leafIn hl).holds hp).1.2
  refine (found_state hinv.store hfound hd hi).2.2.2 ⟨hnotOpen i hi hne, q, lf, hback, ?_⟩
  rw [show s.cfg = cfg from hinv.store.cfgEq]
  exact hp

/-- A step keeps the regions in order exactly if it meets its condition. -/
theorem regionsOk_step_iff (hcnt : 0 < cfg.regionCnt) (hinv : VolumeInv cfg s) (h : RegionsOk cfg s)
    {l : VolumeLabel} (hin : VolumeInside cfg s l) (hst : s.step l = some s') :
    RegionsOk cfg s' ↔ KeepsRegions cfg s l := by
  cases l with
  | op l =>
    by_cases hpub : ∃ i page crc now, l = .publish i page crc now
    · obtain ⟨i, page, crc, now, rfl⟩ := hpub
      exact regionsOk_publish_iff hinv h hin hst
    have hnot : ∀ i page crc now, l ≠ .publish i page crc now :=
      fun i page crc now hx => hpub ⟨i, page, crc, now, hx⟩
    have hkeeps : KeepsRegions cfg s (.op l) := by
      cases l with
      | publish i page crc now => exact absurd rfl (hnot i page crc now)
      | _ => trivial
    refine ⟨fun _ => hkeeps, fun _ d hd => ?_⟩
    obtain ⟨sess, live, hsess, _, rfl⟩ := op_cases hst
    exact (h d hd).mono (fun _ => rfl) rfl (leafAt_of_session_step hnot hsess)
  | rotate d now => exact ⟨fun _ => trivial, fun _ => regionsOk_rotate hcnt hinv h hst⟩
  | gcLook d i =>
    refine ⟨fun _ => trivial, fun _ d' hd' => ?_⟩
    simp only [Volume.step, Volume.gcLook] at hst
    split at hst
    · cases hst
      exact (h d' hd').mono (fun _ => rfl) rfl fun _ _ hl => hl
    · cases hst
  | gcTrim => exact regionsOk_gcTrim_iff hinv h hst
  | write d =>
    refine ⟨fun _ => trivial, fun _ d' hd' => ?_⟩
    simp only [Volume.step, Volume.write] at hst
    split at hst
    · cases hst
    · cases hst
      exact (h d' hd').mono (fun _ => rfl) rfl fun _ _ hl => hl
  | reopen now => exact regionsOk_reopen_iff hcnt hinv hst

end Step

theorem regionsOk_format {cfg : Config} (hcnt : 0 < cfg.regionCnt) (now : Nat) :
    RegionsOk cfg (Volume.format cfg now) := by
  refine fun d _ => ⟨hcnt, fun i _ => ?_, fun i _ q lf hl => ?_⟩
  · by_cases hi : i = 0 <;> simp [Volume.format, Space.format, Volume.rg, RegionHdr.init, hi]
  · simp [Volume.format, Session.format, Store.format, Index.empty] at hl

/-- In a history of formatted devices, whose puts are written to one region each and have no hash 0
on their paths, every state has one OPEN region on each device, that of the cursor, and all others
with live pages FROZEN, exactly if each step keeps the regions: no open finds a region OPEN whose
state it will leave so, no publish is into a region that was freed, and no trim of `gc_tick` is of
the writer's region or of one with pages. -/
theorem regions_in_order_iff {cfg : Config} (hcfg : ConfigOk cfg) (hcnt : 0 < cfg.regionCnt)
    {now : Nat} {ls : List VolumeLabel} {s : Volume} (hrun : VolumeRun cfg now ls s) :
    (RunOf Volume.step (fun s _ => RegionsOk cfg s) (Volume.format cfg now) ls s ∧
        RegionsOk cfg s) ↔
      RunOf Volume.step (KeepsRegions cfg) (Volume.format cfg now) ls s :=
  hrun.always_iff (I := VolumeInv cfg) (fun _ _ _ hinv hin hst => hinv.step hin hst)
    (fun _ _ _ hinv hin h hst => regionsOk_step_iff hcnt hinv h hin hst) (.format hcfg now)
    (regionsOk_format hcnt now)

def plainlyKeeps (s : Volume) : VolumeLabel → Bool
  | .op (.publish i page _ _) => (s.sess.store.pending[i]?).all fun r =>
    (regionOfPage s.cfg page).all fun j => (s.rg r.dev j).state != .free
  | .gcTrim => false
  | .reopen _ => false
  | _ => true

theorem keepsRegions_of_plainly {s : Volume} {cfg : Config} (hcfg : s.cfg = cfg) {l : VolumeLabel}
    (h : plainlyKeeps s l = true) : KeepsRegions cfg s l := by
  cases l with
  | op l =>
    cases l with
    | publish i page crc now =>
      intro r hr _ _ j hj
      simpa [plainlyKeeps, hr, hcfg, hj] using h
    | _ => trivial
  | gcTrim => cases h
  | reopen now => cases h
  | _ => trivial

/-- A put, and a rotation. -/
def putAndRotate : List VolumeLabel := putAcked ++ [.rotate 0 2]

/-- Region 0 is frozen then. -/
theorem rotated_in_order : ∃ s, VolumeRun twoRegionDisk 1 putAndRotate s ∧
    RegionsOk twoRegionDisk s ∧ (s.rg 0 0).state = .frozen ∧ (s.cur 0).region = 1 := by
  have hrun : (putAndRotate.foldlM
      (fun s l => if onePageInside twoRegionDisk s l && (plainlyKeeps s l &&
        decide (s.cfg = twoRegionDisk)) then s.step l else none)
      (Volume.format twoRegionDisk 1)).map (fun s => decide ((s.rg 0 0).state = .frozen ∧
        (s.cur 0).region = 1)) = some true := by decide +kernel
  obtain ⟨s, hs, hend⟩ := Option.map_eq_some_iff.1 hrun
  obtain ⟨hstate, hcur⟩ := of_decide_eq_true hend
  have hboth : RunOf Volume.step (fun s l => VolumeInside twoRegionDisk s l ∧
      KeepsRegions twoRegionDisk s l) (Volume.format twoRegionDisk 1) putAndRotate s := by
    refine RunOf.of_checked _ (fun s l hcheck => ?_) hs
    simp only [Bool.and_eq_true, decide_eq_true_eq] at hcheck
    exact ⟨volumeInside_of_onePage s l hcheck.1, keepsRegions_of_plainly hcheck.2.2 hcheck.2.1⟩
  have hin : VolumeRun twoRegionDisk 1 putAndRotate s := hboth.mono fun _ _ hx => hx.1
  have hkeeps : RunOf Volume.step (KeepsRegions twoRegionDisk) (Volume.format twoRegionDisk 1)
      putAndRotate s := hboth.mono fun _ _ hx => hx.2
  exact ⟨s, hin, ((regions_in_order_iff twoRegionDisk_ok (by decide) hin).2 hkeeps).2, hstate, hcur⟩

/-- A put, and an open. -/
def putAndReopen : List VolumeLabel := putAcked ++ [.reopen 5]

/-- Both regions are OPEN then, and the one with the page of the put is not the writer's. -/
theorem reopened_two_open : ∃ s, VolumeRun twoRegionDisk 1 putAndReopen s ∧
    (s.rg 0 0).state = .opened ∧ (s.rg 0 1).state = .opened ∧ (s.cur 0).region = 1 ∧
    (∃ lf, s.sess.store.idx.tree.leafAt [7] = some lf ∧ HoldsPage twoRegionDisk lf 0 0) ∧
    ¬ RegionsOk twoRegionDisk s := by
  have hrun : (putAndReopen.foldlM
      (fun s l => if onePageInside twoRegionDisk s l then s.step l else none)
      (Volume.format twoRegionDisk 1)).map (fun s => decide ((s.rg 0 0).state = .opened ∧
        (s.rg 0 1).state = .opened ∧ (s.cur 0).region = 1 ∧
        (s.sess.store.idx.tree.leafAt [7]).map RadixLeaf.extents = some [⟨0, 3, 1⟩])) =
      some true := by decide +kernel
  obtain ⟨s, hs, hend⟩ := Option.map_eq_some_iff.1 hrun
  obtain ⟨h0, h1, hcur, hleaf⟩ := of_decide_eq_true hend
  obtain ⟨lf, hl, hext⟩ := Option.map_eq_some_iff.1 hleaf
  refine ⟨s, RunOf.of_checked _ volumeInside_of_onePage hs, h0, h1, hcur, ⟨lf, hl, ?_⟩, ?_⟩
  · exact ⟨⟨0, 3, 1⟩, by rw [hext]; simp, rfl, 3, by decide, by decide, by decide⟩
  intro hok
  have hzero := ((hok 0 (by decide)).opened 0 (by decide)).1 h0
  rw [hcur] at hzero
  cases hzero

end KvTier.Analysis
