import KvTier.Analysis.Reopening

/-!
# The epoch of the region an open goes on with

An open restores the epoch counter from the superblock and the epochs of the regions from their
headers, and gives the next epoch to the region it goes on with.
-/

namespace KvTier.Analysis

open Function KvTier.Lib KvTier.Model List Option

variable {d' now : Nat} {l : VolumeLabel}

/-! ## What an open makes of the regions -/

/-- The region is opened with the next epoch. -/
def openedMgr (rm : RegionMgr) (i now : Nat) : RegionMgr :=
  ⟨update rm.rg i ⟨rm.epochCounter + 1, now, 0, .opened⟩, rm.epochCounter + 1⟩

theorem rms_openRegion (sp : Space) (d i now : Nat) :
    (sp.openRegion d i now).rms = update sp.rms d (openedMgr (sp.rms d) i now) := by
  simp [Space.openRegion, Space.setRg, Space.clearLive, openedMgr]

theorem opened_regions {ds : List Nat} (hds : ds.Nodup) {o o' : Opening}
    (h : ds.foldlM (Opening.device now) o = some o') :
    (o'.sp.cfg = o.sp.cfg ∧ o'.store.cfg = o.store.cfg) ∧
      (∀ d ∈ ds, o'.sp.rms d =
          openedMgr (o.sp.rms d) (reuse o.sp.cfg.regionCnt (o.sp.rms d)).region now ∧
        o'.sp.cur d = ⟨(reuse o.sp.cfg.regionCnt (o.sp.rms d)).region, 1⟩) ∧
      ∀ d, d ∉ ds → o'.sp.rms d = o.sp.rms d ∧ o'.sp.cur d = o.sp.cur d := by
  induction ds generalizing o with
  | nil =>
    cases h
    exact ⟨⟨rfl, rfl⟩, by simp, fun _ _ => ⟨rfl, rfl⟩⟩
  | cons d ds ih =>
    rw [foldlM_cons] at h
    obtain ⟨o1, h1, h2⟩ := bind_eq_some_iff.1 h
    obtain ⟨hnot, hds⟩ := nodup_cons.1 hds
    obtain ⟨⟨hcfg, hstore⟩, hin, hout⟩ := ih hds h2
    -- the first device
    obtain ⟨o0, hdrop, h1⟩ := bind_eq_some_iff.1 h1
    cases h1
    have hsame : (o0.sp.cfg = o.sp.cfg ∧ o0.store.cfg = o.store.cfg) ∧ o0.sp.rms = o.sp.rms ∧
        o0.sp.cur = o.sp.cur := by
      cases hr : reuse o.sp.cfg.regionCnt (o.sp.rms d) with
      | oldest i =>
        rw [hr] at hdrop
        obtain ⟨store, hst, hdrop⟩ := bind_eq_some_iff.1 hdrop
        obtain ⟨led, hled, hdrop⟩ := bind_eq_some_iff.1 hdrop
        cases hdrop
        have hcfg : store.cfg = o.store.cfg :=
          sweepSlots_keeps (P := fun t => t.cfg = o.store.cfg)
            (fun hP hs => (cfg_store_step (l := .drop _) hs).trans hP) _ rfl hst
        exact ⟨⟨cfg_sweepSlots _ hled, hcfg⟩, rfl, rfl⟩
      | free i | zero =>
        rw [hr] at hdrop
        cases hdrop
        exact ⟨⟨rfl, rfl⟩, rfl, rfl⟩
    obtain ⟨⟨hcfg0, hstore0⟩, hrms0, hcur0⟩ := hsame
    have hother : ∀ d', d' ≠ d → (o0.sp.openRegion d
        (reuse o.sp.cfg.regionCnt (o.sp.rms d)).region now).rms d' = o.sp.rms d' := by
      intro d' hne
      rw [rms_openRegion, update_of_ne hne, hrms0]
    refine ⟨⟨hcfg.trans hcfg0, hstore.trans hstore0⟩, fun d' hd' => ?_, fun d' hd' => ?_⟩
    · rcases mem_cons.1 hd' with rfl | hd'
      · obtain ⟨hr, hc⟩ := hout d' hnot
        rw [hr, hc, rms_openRegion, update_self, hrms0, Space.cur_openRegion, if_pos rfl]
        exact ⟨rfl, rfl⟩
      have hne : d' ≠ d := fun he => hnot (he ▸ hd')
      obtain ⟨hr, hc⟩ := hin d' hd'
      rw [Space.cfg_openRegion, hcfg0, hother d' hne] at hr hc
      exact ⟨hr, hc⟩
    obtain ⟨hne, hd'⟩ := not_or.1 (mem_cons.not.1 hd')
    obtain ⟨hr, hc⟩ := hout d' hd'
    rw [hr, hc, hother d' hne, Space.cur_openRegion, if_neg hne, hcur0]
    exact ⟨rfl, rfl⟩

theorem reopen_regions {s s' : Volume} (h : s.reopen now = some s') :
    ∃ o, s.found = some o ∧ o.sp.cfg = s.cfg ∧ s'.cfg = s.cfg ∧ s'.disk = s.disk ∧
      ∀ d, d < s.cfg.nDevs →
        s'.rms d = openedMgr (o.sp.rms d) (reuse s.cfg.regionCnt (o.sp.rms d)).region now ∧
        (s'.cur d).region = (reuse s.cfg.regionCnt (o.sp.rms d)).region ∧
        s'.todo d = (List.range s.cfg.regionCnt).map (fun i => .header i (o.sp.rg d i)) ++
          [.header (s'.cur d).region (s'.rg d (s'.cur d).region), .super (s'.rms d).epochCounter] := by
  obtain ⟨o, hfound, h⟩ := bind_eq_some_iff.1 h
  obtain ⟨o', hdevs, h⟩ := bind_eq_some_iff.1 h
  cases h
  obtain ⟨led, hled, hx⟩ := bind_eq_some_iff.1 hfound
  have hcfg : o.sp.cfg = s.cfg := by
    cases hx
    exact cfg_ledger_step (l := .recompute) hled
  have hstore : o.store.cfg = s.cfg := by
    cases hx
    unfold Session.reopen
    split <;> rfl
  obtain ⟨⟨_, hstore'⟩, hin, _⟩ := opened_regions nodup_range hdevs
  refine ⟨o, hfound, hcfg, hstore'.trans hstore, rfl, fun d hd => ?_⟩
  obtain ⟨hrms, hcur⟩ := hin d (mem_range.2 hd)
  rw [hcfg] at hrms hcur
  exact ⟨hrms, congrArg Cursor.region hcur, rfl⟩

/-! ## Devices and the writes on their way -/

/-- No header is ahead of the superblock. -/
def HeadersSettled (m : DevMeta) : Prop := ∀ i, (m.hdrs i).epoch ≤ m.epoch

/-- Headers get ahead of the superblock only while its write is due next. -/
def EpochOrder : DevMeta → List MetaWrite → Prop
  | m, [] => HeadersSettled m
  | m, w :: ws => (HeadersSettled m ∨ ∃ e, w = .super e) ∧ EpochOrder (w.apply m) ws

/-- The device when all writes have reached it. -/
def drained (m : DevMeta) (ws : List MetaWrite) : DevMeta := ws.foldl MetaWrite.apply m

section Order

variable {m : DevMeta} {ws : List MetaWrite}

theorem EpochOrder.drained (h : EpochOrder m ws) : HeadersSettled (drained m ws) := by
  induction ws generalizing m with
  | nil => exact h
  | cons w ws ih => exact ih h.2

theorem EpochOrder.append (h : EpochOrder m ws) {ws' : List MetaWrite}
    (h' : EpochOrder (KvTier.Analysis.drained m ws) ws') : EpochOrder m (ws ++ ws') := by
  induction ws generalizing m with
  | nil => exact h'
  | cons w ws ih => exact ⟨h.1, ih h.2 h'⟩

theorem HeadersSettled.header (h : HeadersSettled m) {i : Nat} {hdr : RegionHdr}
    (hle : hdr.epoch ≤ m.epoch) :
    HeadersSettled (MetaWrite.apply m (.header i hdr)) := by
  intro j
  simp only [MetaWrite.apply, update_apply]
  split
  · exact hle
  · exact h j

theorem epochOrder_headers (h : HeadersSettled m) (hs : List (Nat × RegionHdr))
    (hle : ∀ x ∈ hs, x.2.epoch ≤ m.epoch) :
    EpochOrder m (hs.map fun x => .header x.1 x.2) ∧
      (KvTier.Analysis.drained m (hs.map fun x => .header x.1 x.2)).epoch = m.epoch := by
  induction hs generalizing m with
  | nil => exact ⟨h, rfl⟩
  | cons x hs ih =>
    obtain ⟨hfirst, hrest⟩ := forall_mem_cons.1 hle
    obtain ⟨hord, hend⟩ := ih (h.header (i := x.1) hfirst) hrest
    exact ⟨⟨.inl h, hord⟩, hend⟩

theorem epochOrder_open (h : HeadersSettled m) {i : Nat} {hdr : RegionHdr} {e : Nat}
    (hhdr : hdr.epoch = e) (he : e = m.epoch + 1) :
    EpochOrder m [.header i hdr, .super e] ∧
      (KvTier.Analysis.drained m [.header i hdr, .super e]).epoch = e := by
  refine ⟨⟨.inl h, .inr ⟨e, rfl⟩, fun j => ?_⟩, rfl⟩
  simp only [MetaWrite.apply, update_apply]
  split
  · omega
  · have := h j
    omega

end Order

/-- The counter is the epoch on disk after all writes, and bounds all epochs. -/
structure EpochsOk (s : Volume) (d : Nat) : Prop where
  order : EpochOrder (s.disk d) (s.todo d)
  counter : (drained (s.disk d) (s.todo d)).epoch = (s.rms d).epochCounter
  mem : ∀ i, (s.rg d i).epoch ≤ (s.rms d).epochCounter

/-- The write of the superblock is due next. -/
def BetweenWrites (s : Volume) (d : Nat) : Prop := ∃ e ws, s.todo d = .super e :: ws

/-- No open finds a device between the two writes. -/
def OutsideWindow (s : Volume) : HistoryLabel → Prop
  | .reopen lost _ => ∀ d, d < s.cfg.nDevs → ¬ BetweenWrites (s.reformat lost) d
  | _ => True

/-! ## Steps -/

section Steps

variable {cfg : Config} {s s' : Volume} {d : Nat}

theorem EpochsOk.push (h : EpochsOk s d) {ws : List MetaWrite} (hdisk : s'.disk d = s.disk d)
    (htodo : s'.todo d = s.todo d ++ ws)
    (hws : ∀ m, HeadersSettled m → m.epoch = (s.rms d).epochCounter →
      EpochOrder m ws ∧ (drained m ws).epoch = (s'.rms d).epochCounter)
    (hmem : ∀ i, (s'.rg d i).epoch ≤ (s'.rms d).epochCounter) : EpochsOk s' d := by
  obtain ⟨hord, hend⟩ := hws _ h.order.drained h.counter
  refine ⟨?_, ?_, hmem⟩
  · rw [hdisk, htodo]
    exact h.order.append hord
  · rw [hdisk, htodo, drained, foldl_append]
    exact hend

theorem EpochsOk.congr (h : EpochsOk s d) (hdisk : s'.disk d = s.disk d)
    (htodo : s'.todo d = s.todo d) (hrms : s'.rms d = s.rms d) : EpochsOk s' d := by
  refine ⟨by rw [hdisk, htodo]; exact h.order, by rw [hdisk, htodo, hrms]; exact h.counter, ?_⟩
  intro i
  rw [Volume.rg, hrms]
  exact h.mem i

theorem epochCounter_setRg (sp : Space) (d i : Nat) (hdr : RegionHdr) (d' : Nat) :
    ((sp.setRg d i hdr).rms d').epochCounter = (sp.rms d').epochCounter := by
  unfold Space.setRg
  by_cases hd : d' = d
  · subst hd
    simp
  · simp [hd]

theorem rms_setRg_of_ne (sp : Space) {d d' : Nat} (hne : d ≠ d') (i : Nat) (hdr : RegionHdr) :
    (sp.setRg d' i hdr).rms d = sp.rms d := by
  simp [Space.setRg, hne]

theorem NextCase.epochs {sp sp' : Space} {r : Option Nat} (h : NextCase sp d sp' r) :
    (sp'.rms d).epochCounter = (sp.rms d).epochCounter ∧
      ∀ i, (sp'.rg d i).epoch ≤ (sp.rg d i).epoch := by
  have htrim : ∀ (t : Space) (k : Nat),
      ((t.trimRegion d k).rms d).epochCounter = (t.rms d).epochCounter ∧
        ∀ i, ((t.trimRegion d k).rg d i).epoch ≤ (t.rg d i).epoch := by
    intro t k
    refine ⟨epochCounter_setRg t d k _ d, fun i => ?_⟩
    rw [Space.rg_trimRegion]
    split
    · exact Nat.zero_le _
    · exact Nat.le_refl _
  cases h with
  | inOrder _ | full _ _ => exact ⟨rfl, fun _ => Nat.le_refl _⟩
  | empty _ _ _ _ => exact htrim sp _
  | victim _ _ _ => exact htrim _ _

theorem epoch_freeze (s : Volume) (d now i : Nat) :
    ((s.space.freeze d now).rg d i).epoch = (s.rg d i).epoch := by
  rw [Space.rg_freeze]
  split
  · rename_i hx
    rw [hx.2]
    rfl
  · rfl

theorem epochsOk_rotate (h : EpochsOk s d) (hst : s.rotate d now = some s') : EpochsOk s' d := by
  unfold Volume.rotate at hst
  split at hst
  · cases hst
  obtain ⟨store1, _, hst⟩ := bind_eq_some_iff.1 hst
  obtain ⟨store2, _, hst⟩ := bind_eq_some_iff.1 hst
  obtain ⟨store3, _, hst⟩ := bind_eq_some_iff.1 hst
  obtain ⟨⟨freed, found⟩, hnext, hst⟩ := bind_eq_some_iff.1 hst
  obtain ⟨next, hfound, hst⟩ := bind_eq_some_iff.1 hst
  have hfound : found = some next := hfound
  subst hfound
  obtain ⟨hctr, hle⟩ := (nextRegion_cases hnext).epochs
  have hctr : (freed.rms d).epochCounter = (s.rms d).epochCounter :=
    hctr.trans (epochCounter_setRg _ d _ _ d)
  have hfreed : ∀ i, (freed.rg d i).epoch ≤ (s.rms d).epochCounter := fun i =>
    ((hle i).trans (Nat.le_of_eq (epoch_freeze s d now i))).trans (h.mem i)
  have hrms : (freed.openRegion d next now).rms d = openedMgr (freed.rms d) next now := by
    rw [rms_openRegion, update_self]
  have hnew : ((freed.openRegion d next now).rg d next).epoch =
      ((freed.openRegion d next now).rms d).epochCounter := by
    rw [Space.rg, hrms]
    simp [openedMgr]
  have hcounter : ((freed.openRegion d next now).rms d).epochCounter =
      (s.rms d).epochCounter + 1 := by
    rw [hrms, openedMgr, hctr]
  cases hst
  refine h.push rfl ((update_self ..).trans (by rw [List.append_assoc, List.append_assoc]))
    (fun m hm hepoch => ?_) fun i => ?_
  · -- the frozen region, and perhaps the one that was freed
    have hhead : ∃ hs : List (Nat × RegionHdr), (∀ x ∈ hs, x.2.epoch ≤ m.epoch) ∧
        hs.map (fun x => MetaWrite.header x.1 x.2) =
          [.header (s.cur d).region ((s.space.freeze d now).rg d (s.cur d).region)] ++
            if (s.rg d next).state = .free then [] else [.header next (freed.rg d next)] := by
      have hold : ((s.space.freeze d now).rg d (s.cur d).region).epoch ≤ m.epoch := by
        rw [epoch_freeze, hepoch]
        exact h.mem _
      have hnext' : (freed.rg d next).epoch ≤ m.epoch := hepoch ▸ hfreed next
      split
      · exact ⟨[(_, _)], forall_mem_singleton.2 hold, rfl⟩
      · exact ⟨[(_, _), (_, _)], forall_mem_cons.2 ⟨hold, forall_mem_singleton.2 hnext'⟩, rfl⟩
    obtain ⟨hs, hsle, hseq⟩ := hhead
    obtain ⟨hord, hend⟩ := epochOrder_headers hm hs hsle
    obtain ⟨hopen, hlast⟩ := epochOrder_open hord.drained (i := next) hnew
      (by rw [hcounter, hend, hepoch])
    rw [← List.append_assoc, ← hseq]
    refine ⟨hord.append hopen, ?_⟩
    rw [drained, foldl_append]
    exact hlast
  change ((freed.openRegion d next now).rg d i).epoch ≤
    ((freed.openRegion d next now).rms d).epochCounter
  rw [hcounter, Space.rg_openRegion]
  split
  · exact Nat.le_of_eq (congrArg (· + 1) hctr)
  · exact (hfreed i).trans (Nat.le_succ _)

theorem epochsOk_gcTrim (h : EpochsOk s d) (hst : s.gcTrim = some s') : EpochsOk s' d := by
  unfold Volume.gcTrim at hst
  split at hst
  · cases hst
  rename_i d' i hlook
  cases hst
  by_cases hd : d = d'
  · subst hd
    have hctr : ((s.space.trimRegion d i).rms d).epochCounter = (s.rms d).epochCounter :=
      epochCounter_setRg s.space d i _ d
    have hle : ∀ j, ((s.space.trimRegion d i).rg d j).epoch ≤ (s.rms d).epochCounter := by
      intro j
      rw [Space.rg_trimRegion]
      split
      · exact Nat.zero_le _
      · exact h.mem j
    refine h.push rfl (update_self ..) (fun m hm hepoch => ?_) fun j => ?_
    · have hone := epochOrder_headers hm [(i, (s.space.trimRegion d i).rg d i)]
        (forall_mem_singleton.2 (hepoch ▸ hle i))
      exact ⟨hone.1, (hone.2.trans hepoch).trans hctr.symm⟩
    · exact (hle j).trans (Nat.le_of_eq hctr.symm)
  · exact h.congr rfl (update_of_ne hd ..) (rms_setRg_of_ne s.space hd i _)

theorem epochsOk_write (h : EpochsOk s d) (hst : s.write d' = some s') : EpochsOk s' d := by
  unfold Volume.write at hst
  split at hst
  · cases hst
  rename_i w ws hw
  cases hst
  by_cases hd : d = d'
  · subst hd
    have hord := h.order
    have hctr := h.counter
    rw [hw] at hord hctr
    refine ⟨?_, ?_, h.mem⟩
    · simpa using hord.2
    · simpa [drained] using hctr
  · exact h.congr (update_of_ne hd ..) (update_of_ne hd ..) rfl

theorem found_counter {o : Opening} (h : s.found = some o) (d : Nat) :
    (o.sp.rms d).epochCounter = (s.disk d).epoch := by
  obtain ⟨led, _, hx⟩ := bind_eq_some_iff.1 h
  cases hx
  rfl

theorem epochsOk_reopen (hset : HeadersSettled (s.disk d)) (hd : d < s.cfg.nDevs)
    (hst : s.reopen now = some s') : EpochsOk s' d := by
  obtain ⟨o, hfound, hcfg, _, hdisk, hdevs⟩ := reopen_regions hst
  obtain ⟨hrms, hcur, htodo⟩ := hdevs d hd
  have hctr : (s'.rms d).epochCounter = (s.disk d).epoch + 1 := by
    rw [hrms, openedMgr, found_counter hfound]
  have hold : ∀ i, (o.sp.rg d i).epoch ≤ (s.disk d).epoch := fun i =>
    (Nat.le_of_eq (found_epoch hfound d i)).trans (hset i)
  have hnew : (s'.rg d (s'.cur d).region).epoch = (s'.rms d).epochCounter := by
    rw [Volume.rg, hcur, hrms]
    simp [openedMgr]
  obtain ⟨hord, hend⟩ := epochOrder_headers hset
    ((List.range s.cfg.regionCnt).map fun i => (i, o.sp.rg d i)) (by
      intro x hx
      obtain ⟨i, _, rfl⟩ := List.mem_map.1 hx
      exact hold i)
  rw [List.map_map] at hord hend
  obtain ⟨hopen, hlast⟩ := epochOrder_open hord.drained (i := (s'.cur d).region) hnew
    (by rw [hctr, hend])
  refine ⟨?_, ?_, fun i => ?_⟩
  · rw [hdisk, htodo]
    exact hord.append hopen
  · rw [hdisk, htodo, drained, foldl_append]
    exact hlast
  rw [Volume.rg, hctr, hrms]
  simp only [openedMgr, update_apply]
  split
  · exact Nat.le_of_eq (by rw [found_counter hfound])
  · exact (hold i).trans (Nat.le_succ _)

theorem cfg_volume_step (h : s.step l = some s') : s'.cfg = s.cfg := by
  cases l with
  | op l =>
    obtain ⟨sess, live, hsess, _, rfl⟩ := op_cases h
    exact session_step_keeps (P := fun t => t.cfg = s.cfg) (C := fun _ _ => True)
      (fun hP _ hs => (cfg_store_step hs).trans hP) (fun _ hP => hP) (fun _ => trivial) rfl
      (fun _ _ => trivial) (fun _ hx => by cases hx) hsess
  | rotate d now =>
    exact (rotated_of_step h).keeps (P := fun t => t.cfg = s.cfg)
      (fun hP _ hs => (cfg_store_step hs).trans hP) rfl
  | gcLook d i =>
    simp only [Volume.step, Volume.gcLook] at h
    split at h
    · cases h
      rfl
    · cases h
  | gcTrim =>
    simp only [Volume.step, Volume.gcTrim] at h
    split at h
    · cases h
    · cases h
      rfl
  | write d =>
    simp only [Volume.step, Volume.write] at h
    split at h
    · cases h
    · cases h
      rfl
  | reopen now =>
    obtain ⟨_, _, _, hcfg, _⟩ := reopen_regions h
    exact hcfg

theorem rotate_other_device (hne : d ≠ d') (hst : s.rotate d' now = some s') :
    s'.disk d = s.disk d ∧ s'.todo d = s.todo d ∧ s'.rms d = s.rms d := by
  obtain ⟨freed, next, hnext, hrms, _⟩ := (rotated_of_step hst).next
  have hfrozen : (s.space.freeze d' now).rms d = s.rms d := rms_setRg_of_ne s.space hne _ _
  have hfreed : freed.rms d = (s.space.freeze d' now).rms d := by
    cases hnext with
    | inOrder _ => rfl
    | empty _ _ _ _ | victim _ _ _ => exact rms_setRg_of_ne _ hne _ _
  have htodo : s'.disk d = s.disk d ∧ s'.todo d = s.todo d := by
    unfold Volume.rotate at hst
    split at hst
    · cases hst
    obtain ⟨_, _, hst⟩ := bind_eq_some_iff.1 hst
    obtain ⟨_, _, hst⟩ := bind_eq_some_iff.1 hst
    obtain ⟨_, _, hst⟩ := bind_eq_some_iff.1 hst
    obtain ⟨_, _, hst⟩ := bind_eq_some_iff.1 hst
    obtain ⟨_, _, hst⟩ := bind_eq_some_iff.1 hst
    cases hst
    exact ⟨rfl, update_of_ne hne ..⟩
  refine ⟨htodo.1, htodo.2, ?_⟩
  rw [hrms, rms_openRegion, update_of_ne hne]
  exact hfreed.trans hfrozen

theorem epochsOk_step (hl : ∀ now, l ≠ .reopen now) (hst : s.step l = some s') (h : EpochsOk s d) :
    EpochsOk s' d := by
  cases l with
  | op l =>
    obtain ⟨sess, live, _, _, rfl⟩ := op_cases hst
    exact h.congr rfl rfl rfl
  | rotate d' now =>
    by_cases hne : d = d'
    · subst hne
      exact epochsOk_rotate h hst
    · obtain ⟨hdisk, htodo, hrms⟩ := rotate_other_device hne hst
      exact h.congr hdisk htodo hrms
  | gcLook d' i =>
    simp only [Volume.step, Volume.gcLook] at hst
    split at hst
    · cases hst
      exact h.congr rfl rfl rfl
    · cases hst
  | gcTrim => exact epochsOk_gcTrim h hst
  | write d' => exact epochsOk_write h hst
  | reopen now => exact absurd rfl (hl now)

theorem rotateFails_spec (hst : s.rotateFails d' now = some s') :
    s'.cfg = s.cfg ∧ s'.disk = s.disk ∧ s'.rms = (s.space.freeze d' now).rms ∧
      s'.todo = update s.todo d' (s.todo d' ++
        [.header (s.cur d').region ((s.space.freeze d' now).rg d' (s.cur d').region)]) := by
  unfold Volume.rotateFails at hst
  split at hst
  · cases hst
  obtain ⟨store1, htrim, hst⟩ := bind_eq_some_iff.1 hst
  obtain ⟨store2, hflush, hst⟩ := bind_eq_some_iff.1 hst
  obtain ⟨⟨freed, found⟩, hnext, hst⟩ := bind_eq_some_iff.1 hst
  have hcfg : store2.cfg = s.cfg := (cfg_store_step hflush).trans (cfg_store_step htrim)
  cases found with
  | some next => cases hst
  | none =>
    cases hst
    cases nextRegion_cases hnext with
    | full _ _ => exact ⟨hcfg, rfl, rfl, rfl⟩

theorem epochsOk_rotateFails (h : EpochsOk s d) (hst : s.rotateFails d' now = some s') :
    EpochsOk s' d := by
  obtain ⟨_, hdisk, hrms, htodo⟩ := rotateFails_spec hst
  by_cases hd : d = d'
  · subst hd
    have hctr : (s'.rms d).epochCounter = (s.rms d).epochCounter := by
      rw [hrms]
      exact epochCounter_setRg _ d _ _ d
    refine h.push (congrFun hdisk d) ((congrFun htodo d).trans (update_self ..))
      (fun m hm hepoch => ?_) fun i => ?_
    · have hone := epochOrder_headers hm
        [((s.cur d).region, (s.space.freeze d now).rg d (s.cur d).region)]
        (forall_mem_singleton.2 (by rw [epoch_freeze, hepoch]; exact h.mem _))
      exact ⟨hone.1, (hone.2.trans hepoch).trans hctr.symm⟩
    · rw [hctr, Volume.rg, hrms]
      exact (Nat.le_of_eq (epoch_freeze s d now i)).trans (h.mem i)
  refine h.congr (congrFun hdisk d) ?_ ?_
  · rw [htodo, update_of_ne hd]
  · rw [hrms]
    exact rms_setRg_of_ne s.space hd _ _

theorem epochsOk_format (cfg : Config) (now d : Nat) : EpochsOk (Volume.format cfg now) d := by
  have hle : ∀ i, ((Volume.format cfg now).rg d i).epoch ≤ 1 := by
    intro i
    simp only [Volume.format, Volume.rg, Space.format]
    split
    · exact Nat.le_refl _
    · exact Nat.zero_le _
  exact ⟨hle, rfl, hle⟩

theorem EpochsOk.settled (h : EpochsOk s d) {lost : List Nat}
    (hout : ¬ BetweenWrites (s.reformat lost) d) : HeadersSettled ((s.reformat lost).disk d) := by
  have hord : EpochOrder ((s.reformat lost).disk d) ((s.reformat lost).todo d) := by
    simp only [Volume.reformat]
    split
    · exact fun _ => Nat.le_refl _
    · exact h.order
  cases hw : (s.reformat lost).todo d with
  | nil =>
    rw [hw] at hord
    exact hord
  | cons w ws =>
    rw [hw] at hord
    refine hord.1.resolve_right ?_
    rintro ⟨e, rfl⟩
    exact hout ⟨e, ws, hw⟩

theorem step_of_history (hst : s.history (.step l) = some s') :
    (∀ now, l ≠ .reopen now) ∧ s.step l = some s' := by
  cases l with
  | reopen now => cases hst
  | _ => exact ⟨fun _ => nofun, hst⟩

theorem epochsOk_history {l : HistoryLabel} (hout : OutsideWindow s l)
    (hst : s.history l = some s') (h : ∀ d, d < s.cfg.nDevs → EpochsOk s d) :
    ∀ d, d < s'.cfg.nDevs → EpochsOk s' d := by
  cases l with
  | step l =>
    obtain ⟨hl, hstep⟩ := step_of_history hst
    rw [cfg_volume_step hstep]
    exact fun d hd => epochsOk_step hl hstep (h d hd)
  | rotateFails d' now =>
    rw [(rotateFails_spec hst).1]
    exact fun d hd => epochsOk_rotateFails (h d hd) hst
  | format now =>
    cases hst
    exact fun d _ => epochsOk_format _ now d
  | reopen lost now =>
    have hcfg : s'.cfg = (s.reformat lost).cfg := cfg_volume_step (l := .reopen now) hst
    intro d hd
    rw [hcfg] at hd
    exact epochsOk_reopen ((h d hd).settled (hout d hd)) hd hst

end Steps

/-! ## The newest region -/

/-- The open finds the region OPEN or with a page. -/
def RegionInUse (s : Volume) (d i : Nat) : Prop :=
  OpenOnDisk s d i ∨ ∃ e ∈ treeExtents (Session.reopen s.sess.store s.cfg).store.idx.tree,
    e.devId = d ∧ regionOfPage s.cfg e.pageNo = some i ∧ e.lenPages ≠ 0

/-- The region the open goes on with, for want of a free one. -/
def Reopens (s : Volume) (d i : Nat) : Prop :=
  (∀ j, j < s.cfg.regionCnt → RegionInUse s d j) ∧
    (i = 0 ∧ (∀ j, j < s.cfg.regionCnt → Aged s d j → 2 ^ 64 - 1 ≤ ((s.disk d).hdrs j).epoch) ∨
      Aged s d i ∧ ((s.disk d).hdrs i).epoch < 2 ^ 64 - 1 ∧
        ∀ j, j < s.cfg.regionCnt → Aged s d j →
          ((s.disk d).hdrs i).epoch ≤ ((s.disk d).hdrs j).epoch ∧
            (j < i → ((s.disk d).hdrs i).epoch < ((s.disk d).hdrs j).epoch))

/-- The superblock is not behind the header of a region in use. -/
def HeadersBehind (s : Volume) : Prop :=
  ∀ d, d < s.cfg.nDevs → ∀ i, i < s.cfg.regionCnt → RegionInUse s d i → ¬ Reopens s d i →
    ((s.disk d).hdrs i).epoch ≤ (s.disk d).epoch

/-- The region of the cursor has the newest epoch. -/
def NewestOpened (s : Volume) : Prop :=
  ∀ d, d < s.cfg.nDevs → ∀ i, i < s.cfg.regionCnt → i ≠ (s.cur d).region →
    (s.rg d i).state ≠ .free → (s.rg d i).epoch < (s.rg d (s.cur d).region).epoch

section Newest

variable {s s' : Volume} {o : Opening} {d i : Nat}

theorem found_inUse (h : s.found = some o) (hd : d < s.cfg.nDevs) (hi : i < s.cfg.regionCnt) :
    ((o.sp.rg d i).state ≠ .free ↔ RegionInUse s d i) ∧
      ((o.sp.rg d i).state = .frozen ↔ RegionInUse s d i ∧ ¬ OpenOnDisk s d i) := by
  obtain ⟨led, hled, hx⟩ := bind_eq_some_iff.1 h
  cases hx
  rw [recompute_eq_ite] at hled
  split at hled
  · cases hled
    have hlive : bytesOf s.cfg
        (treeExtents (Session.reopen s.sess.store s.cfg).store.idx.tree) d i ≠ 0 ↔
        ∃ e ∈ treeExtents (Session.reopen s.sess.store s.cfg).store.idx.tree,
          e.devId = d ∧ regionOfPage s.cfg e.pageNo = some i ∧ e.lenPages ≠ 0 := by
      rw [Ne, bytesOf_eq_zero_iff]
      push Not
      rfl
    have hopen : ((s.loaded d).rg i).state = .opened ↔ OpenOnDisk s d i := by
      unfold OpenOnDisk Volume.loaded loadRegions
      by_cases htrim : (d, i) ∈ s.recovered.trims <;> simp [htrim]
    unfold RegionInUse
    rw [← hlive, ← hopen]
    simp only [Space.rg, classify, classifyState, if_pos (And.intro hd hi), zero_add, one_mul]
    by_cases hst : ((s.loaded d).rg i).state = .opened <;>
      by_cases hz : bytesOf s.cfg
        (treeExtents (Session.reopen s.sess.store s.cfg).store.idx.tree) d i = 0 <;>
      simp [hst, hz]
  · cases hled

theorem reopens_iff (h : s.found = some o) (hd : d < s.cfg.nDevs) (hi : i < s.cfg.regionCnt)
    (huse : RegionInUse s d i) : Reopens s d i ↔ i = (reuse s.cfg.regionCnt (o.sp.rms d)).region := by
  have hfree : (∀ j, j < s.cfg.regionCnt → ((o.sp.rms d).rg j).state ≠ .free) ↔
      ∀ j, j < s.cfg.regionCnt → RegionInUse s d j :=
    forall₂_congr fun j hj => (found_inUse h hd hj).1
  have hchoice := reuse_choice s.cfg.regionCnt (o.sp.rms d) (P := Aged s d) (by
    intro hno j hj
    rw [show ((o.sp.rms d).rg j).epoch = _ from found_epoch h d j]
    refine and_congr_left fun _ => (found_inUse h hd hj).2.trans ?_
    exact and_iff_right (hfree.1 hno j hj))
  have hepoch : ∀ j, ((o.sp.rms d).rg j).epoch = ((s.disk d).hdrs j).epoch := found_epoch h d
  simp only [hepoch] at hchoice
  rw [hfree] at hchoice
  obtain ⟨hzero, hold⟩ := hchoice
  constructor
  · rintro ⟨hall, ⟨rfl, hmax⟩ | ⟨haged, hlt, hleast⟩⟩
    · rw [hzero.2 ⟨hall, hmax⟩]
      rfl
    · rw [(hold i).2 ⟨hall, hi, haged, hlt, hleast⟩]
      rfl
  intro heq
  cases hr : reuse s.cfg.regionCnt (o.sp.rms d) with
  | free k =>
    -- a free region is not in use
    have hcase := reuse_cases s.cfg.regionCnt (o.sp.rms d)
    rw [hr] at hcase heq
    cases hcase with
    | free _ hstate =>
      rw [show k = i from heq.symm] at hstate
      exact absurd hstate ((found_inUse h hd hi).1.2 huse)
  | oldest v =>
    rw [hr] at heq
    obtain ⟨hall, _, haged, hlt, hleast⟩ := (hold v).1 hr
    rw [show v = i from heq.symm] at haged hlt hleast
    exact ⟨hall, .inr ⟨haged, hlt, hleast⟩⟩
  | zero =>
    rw [hr] at heq
    obtain ⟨hall, hmax⟩ := hzero.1 hr
    exact ⟨hall, .inl ⟨heq, hmax⟩⟩

/-- An open leaves the newest epoch to the cursor exactly if no header was ahead. -/
theorem newestOpened_iff (h : s.reopen now = some s') : NewestOpened s' ↔ HeadersBehind s := by
  obtain ⟨o, hfound, _, hcfg, _, hdevs⟩ := reopen_regions h
  unfold NewestOpened HeadersBehind
  rw [hcfg]
  refine forall₂_congr fun d hd => forall₂_congr fun i hi => ?_
  obtain ⟨hrms, hcur, _⟩ := hdevs d hd
  have hnew : (s'.rg d (s'.cur d).region).epoch = (s.disk d).epoch + 1 := by
    rw [Volume.rg, hrms, hcur]
    simp [openedMgr, found_counter hfound]
  rw [hnew]
  have hother : i ≠ (s'.cur d).region → s'.rg d i = o.sp.rg d i := by
    intro hne
    rw [Volume.rg, hrms]
    simp only [openedMgr]
    exact update_of_ne (by rwa [← hcur]) ..
  have hpick : RegionInUse s d i → (Reopens s d i ↔ i = (s'.cur d).region) := fun huse =>
    (reopens_iff hfound hd hi huse).trans (by rw [hcur])
  constructor
  · intro hx huse hnot
    have hne : i ≠ (s'.cur d).region := fun he => hnot ((hpick huse).2 he)
    have hlt := hx hne (by rw [hother hne]; exact (found_inUse hfound hd hi).1.2 huse)
    rw [hother hne, found_epoch hfound] at hlt
    omega
  intro hx hne hstate
  rw [hother hne] at hstate ⊢
  have huse := (found_inUse hfound hd hi).1.1 hstate
  have hle := hx huse fun hre => hne ((hpick huse).1 hre)
  rw [found_epoch hfound]
  omega

end Newest

/-- The region an open goes on with is the newest exactly if the superblock is not behind the header
of another region in use, and in every history of formats, rotations and opens in which no open
falls between the write of a new region's header and that of the superblock, it is. -/
theorem new_epoch_newest_iff {s s' : Volume} {lost : List Nat} {now : Nat}
    (hstep : s.history (.reopen lost now) = some s') :
    (NewestOpened s' ↔ HeadersBehind (s.reformat lost)) ∧
      ∀ cfg now₀ ls, RunOf Volume.history OutsideWindow (Volume.format cfg now₀) ls s →
        OutsideWindow s (.reopen lost now) → NewestOpened s' := by
  have hiff : NewestOpened s' ↔ HeadersBehind (s.reformat lost) := newestOpened_iff hstep
  refine ⟨hiff, fun cfg now₀ ls hrun hout => hiff.2 fun d hd i _ _ _ => ?_⟩
  have hok : ∀ d, d < s.cfg.nDevs → EpochsOk s d :=
    hrun.invariant (P := fun t => ∀ d, d < t.cfg.nDevs → EpochsOk t d)
      (fun _ _ _ h hl hst => epochsOk_history hl hst h) fun d _ => epochsOk_format cfg now₀ d
  exact (hok d hd).settled (hout d hd) i

/-- A rotation whose three writes reach the device. -/
def rotateAndWrite : List HistoryLabel :=
  [.step (.rotate 0 3), .step (.write 0), .step (.write 0), .step (.write 0)]

/-- The open gives the epoch 3 to region 0, and region 1 is OPEN with the epoch 2. -/
theorem new_epoch_newest_rotated :
    ∃ s s', RunOf Volume.history OutsideWindow (Volume.format twoRegionDisk 1) rotateAndWrite s ∧
      s.history (.reopen [] 5) = some s' ∧ (s'.cur 0).region = 0 ∧ (s'.rg 0 0).epoch = 3 ∧
      s'.rg 0 1 = ⟨2, 3, 0, .opened⟩ ∧ NewestOpened s' := by
  have hrun : (rotateAndWrite.foldlM Volume.history (Volume.format twoRegionDisk 1)).bind
      (fun s => (s.history (.reopen [] 5)).map fun s' => decide (s.cfg.nDevs = 1 ∧
        ((s.reformat []).todo 0).isEmpty ∧ (s'.cur 0).region = 0 ∧ (s'.rg 0 0).epoch = 3 ∧
        s'.rg 0 1 = ⟨2, 3, 0, .opened⟩)) = some true := by decide +kernel
  obtain ⟨s, hs, hstep⟩ := bind_eq_some_iff.1 hrun
  obtain ⟨s', hstep, hend⟩ := map_eq_some_iff.1 hstep
  obtain ⟨hdevs, hdone, hcur, hnew, hold⟩ := of_decide_eq_true hend
  have hhist : RunOf Volume.history OutsideWindow (Volume.format twoRegionDisk 1) rotateAndWrite s :=
    RunOf.of_foldlM hs (by simp [rotateAndWrite, OutsideWindow])
  refine ⟨s, s', hhist, hstep, hcur, hnew, hold,
    (new_epoch_newest_iff hstep).2 twoRegionDisk 1 _ hhist ?_⟩
  rintro d hd ⟨e, ws, hw⟩
  obtain rfl : d = 0 := by omega
  rw [hw] at hdone
  cases hdone

def rotateAndCrash : List HistoryLabel :=
  [.step (.rotate 0 3), .step (.write 0), .step (.write 0), .reopen [] 5]

/-- The open gives the epoch 2 to region 0, and region 1 is OPEN with the same epoch. -/
theorem reopened_with_old_epoch :
    ∃ s, RunOf Volume.history (fun _ _ => True) (Volume.format twoRegionDisk 1) rotateAndCrash s ∧
      (s.cur 0).region = 0 ∧ (s.rg 0 0).epoch = 2 ∧ s.rg 0 1 = ⟨2, 3, 0, .opened⟩ ∧
      ¬ NewestOpened s := by
  have hrun : (rotateAndCrash.foldlM
      (fun s l => if true then s.history l else none)
      (Volume.format twoRegionDisk 1)).map (fun s => decide (s.cfg = twoRegionDisk ∧
        (s.cur 0).region = 0 ∧ (s.rg 0 0).epoch = 2 ∧ s.rg 0 1 = ⟨2, 3, 0, .opened⟩)) =
      some true := by decide +kernel
  obtain ⟨s, hs, hend⟩ := map_eq_some_iff.1 hrun
  obtain ⟨hcfg, hcur, hnew, hold⟩ := of_decide_eq_true hend
  refine ⟨s, RunOf.of_checked (fun _ _ => true) (fun _ _ _ => trivial) hs, hcur, hnew, hold, ?_⟩
  intro hnewest
  have hlt := hnewest 0 (by rw [hcfg]; decide) 1 (by rw [hcfg]; decide) (by rw [hcur]; decide)
    (by rw [hold]; decide)
  rw [hcur, hnew, hold] at hlt
  exact absurd hlt (by decide)

end KvTier.Analysis
