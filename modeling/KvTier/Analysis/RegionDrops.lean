import KvTier.Analysis.Epochs
import KvTier.Analysis.RegionStates

/-!
# What the drop of a region takes away

`cache_drop_region` goes over the slots of the side table and drops the leaves with an address or a
part that starts in the region.
-/

namespace KvTier.Analysis

open KvTier.Lib KvTier.Model List Option

/-! ## The index without its counters -/

/-- What holds of the index whatever the counters are. -/
structure LedgerCounted (s : Ledger) : Prop where
  sound : LedgerSound s
  count : s.idx.nLeaves = s.idx.tree.total fun _ => 1

section Steps

variable {s s' : Ledger}

theorem count_sweepIdx (due : RadixLeaf → Bool) (slots : List SideSlot) {idx : Index}
    (hc : idx.nLeaves = idx.tree.total fun _ => 1) :
    (slots.foldl (sweepIdxSlot due) idx).nLeaves =
      (slots.foldl (sweepIdxSlot due) idx).tree.total fun _ => 1 := by
  induction slots generalizing idx with
  | nil => exact hc
  | cons slot slots ih =>
    rw [foldl_cons]
    refine ih ?_
    unfold sweepIdxSlot
    split
    · exact hc
    · split
      · exact count_drop hc slot.node
      · exact hc

section Counted

variable (h : LedgerCounted s)
include h

theorem LedgerCounted.publish {a : PublishArgs} (hlen : a.path.length = a.groupIdx + 1)
    (hp : s.publish a = some s') : LedgerCounted s' := by
  refine ⟨h.sound.publish hlen hp, ?_⟩
  have hresolved := h.sound.resolve a.prefixId a.groupIdx hlen
  have hside := sideGet_resolveNode_self s.idx a.prefixId a.groupIdx a.path
  have hp : Ledger.publishAt { s with idx := (resolveNode s.idx a.prefixId a.groupIdx a.path).1 }
      (resolveNode s.idx a.prefixId a.groupIdx a.path).2 a = some s' := hp
  obtain ⟨_, _, _, rfl⟩ := (publishAt_eq_some_iff _ _ _ _).1 hp
  exact count_publish (hresolved.side.node _ _ _ hside) (count_resolve h.count _ _ _) a

theorem LedgerCounted.dropAt {node : Path} (hp : s.dropAt node = some s') :
    LedgerCounted s' := by
  refine ⟨(h.sound.dropAt hp).sound, ?_⟩
  rw [idx_dropAt hp]
  exact count_drop h.count node

theorem LedgerCounted.sweep {due : RadixLeaf → Bool} (hp : s.sweep due = some s') :
    LedgerCounted s' := by
  obtain ⟨s1, h1, hdropped⟩ := h.sound.sweepSlots due s.idx.side
  cases h1.symm.trans hp
  refine ⟨hdropped.sound, ?_⟩
  rw [idx_ledger_sweepSlots s.idx.side hp]
  exact count_sweepIdx due s.idx.side h.count

theorem LedgerCounted.setPins {node : Path} {f : Nat → Nat} (hp : s.setPins node f = some s') :
    LedgerCounted s' := by
  refine ⟨h.sound.setPins hp, ?_⟩
  rw [(setPins_rest hp).2.2, total_setPins hp fun _ _ => rfl]
  exact h.count

theorem LedgerCounted.congr (hcfg : s'.cfg = s.cfg) (hidx : s'.idx = s.idx) : LedgerCounted s' := by
  refine ⟨⟨by rw [hidx]; exact h.sound.side, ?_⟩, by rw [hidx]; exact h.count⟩
  rw [hidx, hcfg]
  exact h.sound.placed

theorem LedgerCounted.step {l : ResetLabel} (hst : s.stepOrReset l = some s') :
    LedgerCounted s' := by
  cases l with
  | clear d region =>
    cases hst
    exact h.congr rfl rfl
  | op l =>
    have hst : s.step l = some s' := hst
    cases l with
    | publish a =>
      simp only [Ledger.step] at hst
      split at hst
      · cases hst
      · rename_i hlen
        exact h.publish (not_not.1 hlen) hst
    | drop node => exact h.dropAt hst
    | evict path =>
      simp only [Ledger.step, Ledger.evict] at hst
      split at hst
      · cases hst
        exact h
      split at hst
      · cases hst
        exact h
      · exact h.dropAt hst
    | ttl now => exact h.sweep hst
    | dropRegion d region => exact h.sweep hst
    | gcTrim d region =>
      obtain rfl := eq_of_gcTrim hst
      exact h
    | recompute =>
      have hst : s.recompute = some s' := hst
      rw [recompute_eq_ite] at hst
      split at hst
      · cases hst
        exact h.congr rfl rfl
      · cases hst
    | pin node => exact h.setPins (f := (· + 1)) hst
    | unpin node => exact h.setPins (f := (· - 1)) hst

end Counted

end Steps

/-! ## The histories of the devices -/

/-- A volume whose leaves begin in regions. -/
structure VolumeSound (cfg : Config) (s : Volume) : Prop where
  cfgEq : s.cfg = cfg
  store : SessionOk s.sess.store
  placed : ∀ q lf, s.sess.store.idx.tree.leafAt q = some lf → Placed cfg lf

section Volume

variable {cfg : Config} {s s' : Volume}

theorem VolumeSound.led (h : VolumeSound cfg s) : LedgerCounted s.led :=
  ⟨⟨h.store.index.side, show ∀ _ lf, _ → Placed s.cfg lf from h.cfgEq.symm ▸ h.placed⟩,
    h.store.index.count⟩

theorem VolumeSound.format (hcfg : ConfigOk cfg) (now : Nat) :
    VolumeSound cfg (Volume.format cfg now) :=
  ⟨rfl, SessionOk.format hcfg, fun _ _ hl => by
    simp [Volume.format, Session.format, Store.format, Index.empty] at hl⟩

theorem VolumeSound.fewer (h : VolumeSound cfg s) (hcfg : s'.cfg = s.cfg)
    (hstore : SessionOk s'.sess.store)
    (hleaf : ∀ q lf, s'.sess.store.idx.tree.leafAt q = some lf →
      s.sess.store.idx.tree.leafAt q = some lf) : VolumeSound cfg s' :=
  ⟨hcfg.trans h.cfgEq, hstore, fun q lf hl => h.placed q lf (hleaf q lf hl)⟩

/-- The steps of the open cache. -/
theorem VolumeSound.op {l : Label} (h : VolumeSound cfg s) (hst : s.op l = some s') :
    VolumeSound cfg s' := by
  have hcfg : s'.cfg = s.cfg := cfg_volume_step (l := .op l) hst
  have hsess : s.sess.step (.op l) = some s'.sess := by
    obtain ⟨sess, live, hsess, _, rfl⟩ := op_cases hst
    exact hsess
  have hstore := h.store.session_step (l := .op l) trivial hsess
  by_cases hpub : ∃ i page crc now, l = .publish i page crc now
  · obtain ⟨i, page, crc, now, rfl⟩ := hpub
    obtain ⟨r, hr, hled, _, _⟩ := led_publish_op hst
    have hreq := h.store.reqs r (mem_of_getElem? hr)
    have hplaced := (h.led.sound.publish hreq.path hled).placed
    refine ⟨hcfg.trans h.cfgEq, hstore, ?_⟩
    rw [← hcfg.trans h.cfgEq]
    exact hplaced
  · refine h.fewer hcfg hstore fun q lf hl => ?_
    refine leafAt_of_session_step (fun i page crc now hl => ?_) hsess q lf hl
    exact hpub ⟨i, page, crc, now, hl⟩

theorem opening_keeps {P : Store → Prop}
    (hdrop : ∀ {t t' : Store} {node : Path}, P t → t.step (.drop node) = some t' → P t')
    {now : Nat} (ds : List Nat) {o o' : Opening} (hP : P o.store)
    (h : ds.foldlM (Opening.device now) o = some o') : P o'.store := by
  induction ds generalizing o with
  | nil =>
    cases h
    exact hP
  | cons d ds ih =>
    rw [foldlM_cons] at h
    obtain ⟨o1, h1, h2⟩ := bind_eq_some_iff.1 h
    refine ih ?_ h2
    obtain ⟨o2, hd, h1⟩ := bind_eq_some_iff.1 h1
    cases h1
    change P o2.store
    cases hr : reuse o.sp.cfg.regionCnt (o.sp.rms d) with
    | oldest i =>
      rw [hr] at hd
      obtain ⟨store, hstore, hd⟩ := bind_eq_some_iff.1 hd
      obtain ⟨led, _, hd⟩ := bind_eq_some_iff.1 hd
      cases hd
      exact sweepSlots_keeps hdrop o.store.idx.side hP hstore
    | free i | zero =>
      rw [hr] at hd
      cases hd
      exact hP

/-- An open. -/
theorem VolumeSound.reopen {now : Nat} (hcfg : s.cfg = cfg) (hok : SessionOk s.sess.store)
    (hst : s.reopen now = some s') : VolumeSound cfg s' := by
  have hcfg' : s'.cfg = cfg := (cfg_volume_step (l := .reopen now) hst).trans hcfg
  obtain ⟨o, hfound, hst⟩ := bind_eq_some_iff.1 hst
  obtain ⟨o', hdevs, hst⟩ := bind_eq_some_iff.1 hst
  cases hst
  obtain ⟨led, hled, ho⟩ := bind_eq_some_iff.1 hfound
  cases ho
  have hreopened : SessionOk (Session.reopen s.sess.store s.cfg).store := hok.reopen hok.cfg
  -- what is found of the leaves lies inside the arrays
  have hplaced : ∀ q lf, (Session.reopen s.sess.store s.cfg).store.idx.tree.leafAt q = some lf →
      Placed s.cfg lf := by
    rw [recompute_eq_ite] at hled
    split at hled
    · rename_i hin
      intro q lf hl e he
      exact hin e ((mem_treeExtents hreopened.index.side.distinct).2 ⟨q, lf, hl, he⟩)
    · cases hled
  have hkeeps := opening_keeps
    (P := fun t => SessionOk t ∧ ∀ q lf, t.idx.tree.leafAt q = some lf → Placed s.cfg lf)
    (fun {t t' node} hP hs => ⟨hP.1.step hs, fun q lf hl =>
      hP.2 q lf (leafAt_of_store_step (l := .drop node) (fun _ _ _ _ => nofun) hs hl)⟩)
    _ ⟨hreopened, hplaced⟩ hdevs
  exact ⟨hcfg', hkeeps.1, hcfg ▸ hkeeps.2⟩

theorem VolumeSound.step {l : VolumeLabel} (h : VolumeSound cfg s) (hst : s.step l = some s') :
    VolumeSound cfg s' := by
  have hcfg := cfg_volume_step hst
  cases l with
  | op l => exact h.op hst
  | rotate d now =>
    have hkeeps := (rotated_of_step hst).keeps
      (P := fun t => SessionOk t ∧ ∀ q lf, t.idx.tree.leafAt q = some lf →
        s.sess.store.idx.tree.leafAt q = some lf)
      (fun hP hl hs => ⟨hP.1.step hs, fun q lf hx => hP.2 q lf (leafAt_of_store_step hl hs hx)⟩)
      ⟨h.store, fun _ _ hx => hx⟩
    exact h.fewer hcfg hkeeps.1 hkeeps.2
  | gcLook d i =>
    simp only [Volume.step, Volume.gcLook] at hst
    split at hst
    · cases hst
      exact h.fewer rfl h.store fun _ _ hx => hx
    · cases hst
  | gcTrim =>
    simp only [Volume.step, Volume.gcTrim] at hst
    split at hst
    · cases hst
    · cases hst
      exact h.fewer rfl h.store fun _ _ hx => hx
  | write d =>
    simp only [Volume.step, Volume.write] at hst
    split at hst
    · cases hst
    · cases hst
      exact h.fewer rfl h.store fun _ _ hx => hx
  | reopen now => exact .reopen h.cfgEq h.store hst

theorem RecsAll.reset {P : JournalRec → Prop} {j : Journal} (h : RecsAll P j) :
    RecsAll P (journalReset j) := by
  refine RecsAll.resetDone ?_
  induction List.range j.journalPages generalizing j with
  | nil => exact h
  | cons p ps ih => exact ih (h.resetPage p)

/-- Every step of a history keeps the invariant. -/
theorem VolumeSound.history {l : HistoryLabel} (h : VolumeSound cfg s)
    (hst : s.history l = some s') : VolumeSound cfg s' := by
  cases l with
  | step l => exact h.step (step_of_history hst).2
  | rotateFails d now =>
    have hcfg := (rotateFails_spec hst).1
    simp only [Volume.history, Volume.rotateFails] at hst
    split at hst
    · cases hst
    obtain ⟨store1, htrim, hst⟩ := bind_eq_some_iff.1 hst
    obtain ⟨store2, hflush, hst⟩ := bind_eq_some_iff.1 hst
    obtain ⟨⟨freed, found⟩, _, hst⟩ := bind_eq_some_iff.1 hst
    cases found with
    | some next => cases hst
    | none =>
      cases hst
      refine h.fewer hcfg ((h.store.step htrim).step hflush) fun q lf hx => ?_
      have hx := leafAt_of_store_step (l := .flush d) (fun _ _ _ _ => nofun) hflush hx
      exact leafAt_of_store_step (l := .trim d _ _) (fun _ _ _ _ => nofun) htrim hx
  | format now =>
    cases hst
    rw [h.cfgEq]
    exact .format (h.cfgEq ▸ h.store.cfg) now
  | reopen lost now =>
    have hok : SessionOk (s.reformat lost).sess.store := by
      refine ⟨h.store.cfg, h.store.index, h.store.reqs, fun d => ?_, h.store.ckpt⟩
      simp only [Volume.reformat]
      split
      · exact (h.store.recs d).reset
      · exact h.store.recs d
    exact VolumeSound.reopen (s := s.reformat lost) h.cfgEq hok hst

end Volume

/-! ## The leaves of a region -/

/-- The leaves with a page in the region. -/
def leavesIn (cfg : Config) (t : Radix) (d i : Nat) : List (Path × RadixLeaf) :=
  (t.entries []).filter fun x => x.2.extents.any fun e =>
    decide (e.devId = d ∧ regionOfPage cfg e.pageNo = some i)

/-- The leaves with a page in the region are gone, the others stay. -/
structure RegionDropped (s : Ledger) (d i : Nat) (s' : Ledger) : Prop where
  gone : ∀ q lf, s'.idx.tree.leafAt q = some lf →
    ∀ e ∈ lf.extents, ¬ (e.devId = d ∧ regionOfPage s.cfg e.pageNo = some i)
  kept : ∀ q lf, s.idx.tree.leafAt q = some lf →
    (∀ e ∈ lf.extents, ¬ (e.devId = d ∧ regionOfPage s.cfg e.pageNo = some i)) →
    s'.idx.tree.leafAt q = some lf
  old : ∀ q lf, s'.idx.tree.leafAt q = some lf → s.idx.tree.leafAt q = some lf
  live : ∀ d' r, s'.live d' r = s.live d' r -
    ((leavesIn s.cfg s.idx.tree d i).map fun x => leafBytes s.cfg d' r x.2).sum
  count : s'.idx.nLeaves + (leavesIn s.cfg s.idx.tree d i).length = s.idx.nLeaves

theorem inRegion_iff {cfg : Config} (hsize : 0 < cfg.regionSizePages) {d : Nat}
    (hd : d < invalidDev) (i : Nat) (lf : RadixLeaf) : inRegion cfg d i lf =
      lf.extents.any fun e => decide (e.devId = d ∧ regionOfPage cfg e.pageNo = some i) := by
  have hstarts : ∀ e, Extent.startsIn cfg d i e =
      decide (e.devId = d ∧ regionOfPage cfg e.pageNo = some i) := by
    intro e
    rw [Bool.eq_iff_iff, startsIn_iff hsize, decide_eq_true_iff]
  have haddr : ∀ a : KvAddr, (if a.devId ≠ invalidDev then [a.extent] else []).any
      (Extent.startsIn cfg d i) = Extent.startsIn cfg d i a.extent := by
    intro a
    split
    · simp
    rename_i hinvalid
    have hne : a.extent.devId ≠ d := by
      have hdev : a.devId = invalidDev := not_not.1 hinvalid
      change a.devId ≠ d
      omega
    simp [Extent.startsIn, hne]
  simp only [← hstarts]
  unfold RadixLeaf.extents inRegion
  rw [any_append, any_append, haddr, haddr]


section Drop

variable {s : Ledger} {d i : Nat}

theorem livePages_eq_zero {cfg : Config} {t : Radix} (ht : t.Distinct)
    (h : ∀ q lf, t.leafAt q = some lf →
      ∀ e ∈ lf.extents, ¬ (e.devId = d ∧ regionOfPage cfg e.pageNo = some i)) :
    livePages cfg t d i = 0 := by
  have hnone : (treeExtents t).filter
      (fun e => decide (e.devId = d ∧ regionOfPage cfg e.pageNo = some i)) = [] := by
    refine filter_eq_nil_iff.2 fun e he hin => ?_
    obtain ⟨q, lf, hl, he⟩ := (mem_treeExtents ht).1 he
    exact h q lf hl e he (of_decide_eq_true hin)
  change (((treeExtents t).filter _).map _).sum = 0
  rw [hnone]
  rfl

/-- With no leaf pinned a region drop removes its leaves and their bytes. -/
theorem LedgerCounted.dropRegion (h : LedgerCounted s) (hdevs : s.cfg.nDevs ≤ invalidDev)
    (hsize : 0 < s.cfg.regionSizePages)
    (hpins : ∀ q lf, s.idx.tree.leafAt q = some lf → lf.refcnt = 0) (hd : d < s.cfg.nDevs) :
    ∃ s', s.dropRegion d i = some s' ∧ RegionDropped s d i s' ∧
      s'.live d i = s.live d i - pageSize * livePages s.cfg s.idx.tree d i := by
  obtain ⟨s', hdrop, hdropped⟩ := h.sound.sweepSlots (inRegion s.cfg d i) s.idx.side
  have hcount := (h.sweep hdrop).count
  refine ⟨s', hdrop, ?_⟩
  -- every leaf has a slot, so exactly the leaves of the region are gone
  have hleaf : ∀ q lf, s'.idx.tree.leafAt q = some lf ↔ s.idx.tree.leafAt q = some lf ∧
      (lf.extents.any fun e =>
        decide (e.devId = d ∧ regionOfPage s.cfg e.pageNo = some i)) = false := by
    intro q lf
    rw [idx_ledger_sweepSlots s.idx.side hdrop, leafAt_sweepIdx,
      ← inRegion_iff hsize (lt_of_lt_of_le hd hdevs)]
    refine and_congr_right fun hl => ?_
    have hslot := mem_of_sideGet (h.sound.side.leaf q lf hl)
    simp [hslot, hpins q lf hl]
  have hsum : ∀ {M : Type} [AddCommMonoid M] (f : RadixLeaf → M),
      s'.idx.tree.total f + ((leavesIn s.cfg s.idx.tree d i).map fun x => f x.2).sum =
        s.idx.tree.total f :=
    fun f => Trie.total_add_sum_removed h.sound.side.distinct hdropped.sound.side.distinct _ hleaf f
  have hgone : ∀ q lf, s'.idx.tree.leafAt q = some lf →
      ∀ e ∈ lf.extents, ¬ (e.devId = d ∧ regionOfPage s.cfg e.pageNo = some i) := by
    intro q lf hl e he hin
    have hfalse := ((hleaf q lf).1 hl).2
    rw [List.any_eq_false] at hfalse
    exact hfalse e he (decide_eq_true hin)
  refine ⟨⟨hgone, ?_, fun q lf hl => ((hleaf q lf).1 hl).1, ?_, ?_⟩, ?_⟩
  · intro q lf hl hnot
    refine (hleaf q lf).2 ⟨hl, List.any_eq_false.2 fun e he => ?_⟩
    rw [decide_eq_true_iff]
    exact hnot e he
  · intro d' r
    have hlive := hdropped.live d' r
    have hbytes := hsum (leafBytes s.cfg d' r)
    omega
  · have hones := hsum fun _ => 1
    rw [← hcount, ← h.count] at hones
    simpa using hones
  -- what is left has no bytes in the region
  have hlive := hdropped.live d i
  have hzero : s'.idx.tree.total (leafBytes s.cfg d i) = 0 := by
    rw [total_leafBytes, livePages_eq_zero hdropped.sound.side.distinct hgone]
    rfl
  rw [total_leafBytes s.cfg s.idx.tree, hzero] at hlive
  omega

end Drop

section Runs

variable {cfg : Config} {now : Nat} {hs : List HistoryLabel} {v : Volume} {ls : List ResetLabel}
  {s : Ledger}

theorem volumeSound_of_run (hcfg : ConfigOk cfg)
    (hvol : RunOf Volume.history (fun _ _ => True) (Volume.format cfg now) hs v) :
    VolumeSound cfg v :=
  RunOf.invariant (VolumeSound cfg) (fun _ _ _ h _ hst => h.history hst) hvol (.format hcfg now)

theorem ledgerCounted_of_run (hcfg : ConfigOk cfg)
    (hvol : RunOf Volume.history (fun _ _ => True) (Volume.format cfg now) hs v)
    (hrun : RunOf Ledger.stepOrReset (fun _ _ => True) v.led ls s) :
    LedgerCounted s ∧ s.cfg = cfg := by
  have hsound := volumeSound_of_run hcfg hvol
  refine RunOf.invariant (fun t => LedgerCounted t ∧ t.cfg = cfg) ?_ hrun
    ⟨hsound.led, hsound.cfgEq⟩
  rintro t l t' ⟨ht, htcfg⟩ _ hst
  refine ⟨ht.step hst, ?_⟩
  cases l with
  | op l => exact (cfg_ledger_step hst).trans htcfg
  | clear d i =>
    cases hst
    exact htcfg

/-- The drop of a region is exact, and leaves its counter at 0 exactly if the counter was right. The
state is one that any history of the devices leads to, followed by any operations on the index, with
pins that readers take and give back, and with counters that are set to 0 on the way. -/
theorem region_drop_exact_iff (hcfg : ConfigOk cfg) (hsize : 0 < cfg.regionSizePages)
    (hvol : RunOf Volume.history (fun _ _ => True) (Volume.format cfg now) hs v)
    (hrun : RunOf Ledger.stepOrReset (fun _ _ => True) v.led ls s)
    (hpins : ∀ q lf, s.idx.tree.leafAt q = some lf → lf.refcnt = 0) {d : Nat}
    (hd : d < cfg.nDevs) (i : Nat) :
    ∃ s', s.dropRegion d i = some s' ∧ RegionDropped s d i s' ∧
      (s'.live d i = 0 ↔ s.live d i = pageSize * livePages cfg s.idx.tree d i) := by
  obtain ⟨hcounted, rfl⟩ := ledgerCounted_of_run hcfg hvol hrun
  have hdevs : s.cfg.nDevs ≤ invalidDev := by
    have hint := hcfg.devsInt
    unfold invalidDev
    omega
  obtain ⟨s', hdrop, hdropped, hlive⟩ := hcounted.dropRegion (i := i) hdevs hsize hpins hd
  refine ⟨s', hdrop, hdropped, ?_⟩
  rw [hlive]
  omega

end Runs

/-- A leaf is published to region 1, pinned and given back. -/
def pinnedOnce : List ResetLabel :=
  [.op (.publish (ledgerArgs 2 70 false 0 0)), .op (.pin [7]), .op (.unpin [7])]

/-- The drop of region 1 takes the leaf away, and its counter back to 0. -/
theorem region_drop_exact_one_leaf :
    ∃ s s', RunOf Ledger.stepOrReset (fun _ _ => True) (Volume.format ledgerCfg 1).led pinnedOnce s ∧
      s.idx.nLeaves = 1 ∧ s.live 0 1 = 4096 ∧ s.dropRegion 0 1 = some s' ∧
      RegionDropped s 0 1 s' ∧ s'.live 0 1 = 0 := by
  have hcheck : (pinnedOnce.foldlM (fun s l => if true then s.stepOrReset l else none)
      (Volume.format ledgerCfg 1).led).map (fun s => decide (s.idx.nLeaves = 1 ∧
        s.live 0 1 = 4096 ∧ livePages ledgerCfg s.idx.tree 0 1 = 1 ∧
        ∀ x ∈ s.idx.tree.entries [], x.2.refcnt = 0)) = some true := by decide +kernel
  obtain ⟨s, hs, hend⟩ := map_eq_some_iff.1 hcheck
  obtain ⟨hleaves, hlive, hpages, hpins⟩ := of_decide_eq_true hend
  have hcfg : ConfigOk ledgerCfg := ⟨by decide, by decide, by decide⟩
  have hrun : RunOf Ledger.stepOrReset (fun _ _ => True) (Volume.format ledgerCfg 1).led pinnedOnce s :=
    RunOf.of_checked (fun _ _ => true) (fun _ _ _ => trivial) hs
  have hdistinct := (ledgerCounted_of_run hcfg (RunOf.nil _) hrun).1.sound.side.distinct
  obtain ⟨s', hdrop, hdropped, hiff⟩ := region_drop_exact_iff hcfg (by decide) (RunOf.nil _) hrun
    (fun q lf hl => hpins (q, lf) ((Trie.mem_entries_root _ hdistinct q lf).2 hl))
    (d := 0) (by decide) 1
  refine ⟨s, s', hrun, hleaves, hlive, hdrop, hdropped, hiff.2 ?_⟩
  rw [hlive, hpages]
  rfl

def putAndOpenTwice : List HistoryLabel :=
  putAndReopenTwice.map fun l =>
    match l with
    | .reopen now => .reopen [] now
    | l => .step l

/-- The second open goes on with region 0 and sets its counter to 0, with the page of the put in it.
The drop of the region subtracts that page. -/
theorem region_drop_below_zero :
    ∃ v s', RunOf Volume.history (fun _ _ => True) (Volume.format twoRegionDisk 1) putAndOpenTwice v ∧
      (∀ q lf, v.led.idx.tree.leafAt q = some lf → lf.refcnt = 0) ∧
      v.led.idx.nLeaves = 1 ∧ v.led.live 0 0 = 0 ∧ v.led.dropRegion 0 0 = some s' ∧
      s'.idx.nLeaves = 0 ∧ s'.live 0 0 = -4096 := by
  have hrun : (putAndOpenTwice.foldlM
      (fun s l => if true then s.history l else none)
      (Volume.format twoRegionDisk 1)).map (fun v => decide (v.led.idx.nLeaves = 1 ∧
        v.led.live 0 0 = 0 ∧ (v.led.dropRegion 0 0).map (fun s' => (s'.idx.nLeaves, s'.live 0 0)) =
          some (0, -4096))) = some true := by decide +kernel
  obtain ⟨v, hv, hend⟩ := map_eq_some_iff.1 hrun
  obtain ⟨hleaves, hlive, hdrop⟩ := of_decide_eq_true hend
  obtain ⟨s', hs', hpair⟩ := map_eq_some_iff.1 hdrop
  have hvol : RunOf Volume.history (fun _ _ => True) (Volume.format twoRegionDisk 1)
      putAndOpenTwice v := RunOf.of_checked (fun _ _ => true) (fun _ _ _ => trivial) hv
  have hsound := volumeSound_of_run twoRegionDisk_ok hvol
  exact ⟨v, s', hvol, hsound.store.index.unpinned, hleaves, hlive, hs', congrArg Prod.fst hpair,
    congrArg Prod.snd hpair⟩

end KvTier.Analysis
