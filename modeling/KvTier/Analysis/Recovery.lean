import KvTier.Analysis.StoreFacts

/-!
# What recovery starts from

The durable side of a store: the checkpoint stands for an index (`CkptOk`), the journals on the
device are initial parts of what was appended to them, and the rest of a journal is its unflushed
tail.
-/

namespace KvTier.Analysis

open Function KvTier.Lib KvTier.Model List

variable {d : Nat} {idx : Index} {j : Journal} {l : Label} {r : JournalRec} {s s' : Store}

/-- The checkpoint loads as this index. -/
def CkptOk (s : Store) (idx : Index) : Prop :=
  LoadedFrom idx (sideBuild (ckptLoad s.ckpt s.cfg.nDevs s.cfg.regionCnt
    s.cfg.regionSizePages).1)

theorem CkptOk.congr (h : CkptOk s idx) (hcfg : s'.cfg = s.cfg) (hck : s'.ckpt = s.ckpt) :
    CkptOk s' idx := by
  unfold CkptOk
  rw [hcfg, hck]
  exact h

/-- A store behind an open: checkpointed, with empty journals. -/
structure Opened (s : Store) : Prop where
  ok : StoreOk s
  ckpt : CkptOk s s.idx
  idle : s.phase = .idle
  recs : ∀ d, (s.jours d).recs = []
  pending : s.pending = []
  waiting : s.waiting = []
  acked : s.acked = []
  hist : s.hist = []

theorem loadable_empty : Loadable Index.empty where
  height := by simp [Index.empty, Trie.height, ckptStackCap]
  pool := PoolOk.nil
  shape q lf h := by simp [Index.empty] at h

theorem opened_format {cfg : Config} (hcfg : ConfigOk cfg) : Opened (Store.format cfg) := by
  have hj : ∀ d, JourOk ((Store.format cfg).jours d) := fun d =>
    ⟨PagedLog.tracks_of_empty _ _ (fun _ => rfl) rfl rfl, by simp [Store.format]⟩
  refine ⟨⟨hcfg, SideOk.empty, ?_, ⟨fun d _ => hj d, ?_, ?_⟩, fun _ => rfl, ?_, ?_⟩, ?_, rfl, ?_,
    rfl, rfl, rfl, rfl⟩
  · intro r hr
    simp [Store.format] at hr
  · intro d p hp
    cases hp
  · intro d hp
    cases hp
  · intro d r hr
    simp [Store.format, Journal.recs, PagedLog.appended] at hr
  · intro d p hp
    cases hp
  · exact loadedFrom_sideBuild SideOk.empty loadable_empty 0 _ _ _
  · intro d
    simp [Store.format, Journal.recs, PagedLog.appended]

def twoDevs : Config := ⟨2, 2, 64, 4, 4096, 4096, 256⟩

def smallPut : PutArgs := ⟨0, 0, [7], 0, [100], false, 0⟩

theorem opened_twoDevs : Opened (Store.format twoDevs) := opened_format ⟨by decide, by decide, by decide⟩

/-- The appended records that a crash would lose. -/
def unflushed (j : Journal) : List JournalRec := j.recs.drop (journalRead j).length

theorem JourOk.read_append_unflushed (h : JourOk j) : journalRead j ++ unflushed j = j.recs := by
  obtain ⟨t, ht⟩ := h.read_initial
  unfold unflushed
  rw [← ht]
  simp

theorem unflushed_journalFlush (h : JourOk j) : unflushed (journalFlush j) = [] := by
  unfold unflushed
  rw [read_journalFlush h, recs_journalFlush]
  simp

theorem AppendSpec.mem_unflushed {j j' : Journal} {r x : JournalRec} (hj : JourOk j)
    (h : AppendSpec j r j') (hx : x ∈ unflushed j') :
    x ∈ unflushed j ∨ x = { r with devId := j.devId } := by
  obtain ⟨t, ht⟩ := hj.read_initial
  have hun : unflushed j = t := by
    unfold unflushed
    rw [← ht]
    simp
  unfold unflushed at hx
  rcases h.outcome with ⟨_, hrecs⟩ | ⟨_, hrecs⟩
  · rw [hrecs] at hx
    rcases h.read with hr | hr
    · rw [hr, ← ht] at hx
      simp only [List.append_assoc, drop_left, mem_append, mem_singleton] at hx
      rw [hun]
      exact hx
    · rw [hr] at hx
      simp only [drop_left, mem_singleton] at hx
      exact Or.inr hx
  rw [hrecs] at hx
  rcases h.read with hr | hr
  · rw [hr] at hx
    exact Or.inl hx
  · rw [hr] at hx
    simp at hx

theorem recs_append (hj : JourOk (s.jours d)) (hr : jrecTotal r ≤ pageSize)
    (hno : ((s.append d r).jours d).dropped = (s.jours d).dropped) (d' : Nat) :
    ((s.append d r).jours d').recs =
      if d' = d then (s.jours d).recs ++ [{ r with devId := (s.jours d).devId }]
      else (s.jours d').recs := by
  have hspec := journalAppend_spec hj hr
  by_cases he : d' = d
  · subst he
    simp only [Store.append, update_self] at hno ⊢
    rcases hspec.outcome with ⟨_, hrecs⟩ | ⟨hd, _⟩
    · simpa using hrecs
    · omega
  · simp [Store.append, he]

theorem recs_append_extends (hj : JourOk (s.jours d)) (hr : jrecTotal r ≤ pageSize)
    (hno : ((s.append d r).jours d).dropped = (s.jours d).dropped) (d' : Nat) :
    ∃ rs, ((s.append d r).jours d').recs = (s.jours d').recs ++ rs ∧
      ∀ x ∈ rs, x = { r with devId := (s.jours d).devId } := by
  rw [recs_append hj hr hno]
  split
  · rename_i he
    exact ⟨_, by rw [he], fun x hx => mem_singleton.mp hx⟩
  · exact ⟨[], by simp, by simp⟩

/-! ## The history -/

/-- The last event of a key in a history, newest first. -/
def lastEvent (hist : List Event) (k : UInt64 × Nat) : Option Event :=
  hist.find? fun e => decide (e.key = k)

theorem lastEvent_cons (e : Event) (hist : List Event) (k : UInt64 × Nat) :
    lastEvent (e :: hist) k = if e.key = k then some e else lastEvent hist k := by
  by_cases h : e.key = k <;> simp [lastEvent, h]

theorem leafAt_afterPublish_of_rejected (h : StoreOk s) {i : Nat} {r : PutReq}
    (hr : s.pending[i]? = some r) {page crc now : Nat}
    (hrej : (leafPublish (s.idx.tree.leafAt (resolvedNode s r)) (r.args page crc now)).accepted
      = false)
    (q : Path) :
    (afterPublish s i r (r.args page crc now)).idx.tree.leafAt q = s.idx.tree.leafAt q := by
  have hreq := h.reqs r (mem_of_getElem? hr)
  simp only [afterPublish]
  rw [leafAt_published h.side hreq.path, leafPublish_of_rejected hrej]
  split
  · rename_i hq
    rw [hq]
  · rfl

/-! ## Overflow -/

/-- No record was dropped so far. -/
def NoOverflow (s : Store) : Prop := ∀ d, (s.jours d).dropped = 0

theorem dropped_append_le (hj : JourOk (s.jours d)) (hr : jrecTotal r ≤ pageSize) (d' : Nat) :
    (s.jours d').dropped ≤ ((s.append d r).jours d').dropped := by
  simp only [Store.append]
  by_cases he : d' = d
  · subst he
    rw [update_self]
    exact (journalAppend_spec hj hr).dropped_le
  · rw [update_of_ne he]

theorem dropped_le_step (h : StoreOk s) (hstep : s.step l = some s') (d : Nat) :
    (s.jours d).dropped ≤ (s'.jours d).dropped := by
  cases step_cases hstep with
  | putRejected a => exact Nat.le_refl _
  | put a reqs => exact Nat.le_refl _
  | publish i page crc now r hidle hr hacc =>
    exact dropped_append_le (s := afterPublish s i r (r.args page crc now))
      (h.jours.ok r.dev (NotCleared.of_idle hidle _))
      (jrecTotal_journalPutRec_le (h.reqs r (mem_of_getElem? hr)) page crc now) d
  | publishRejected => exact Nat.le_refl _
  | flush d' hd hfree =>
    exact (jours_flush_go s d' d).2.2.ge
  | ack => exact Nat.le_refl _
  | drop node lf hidle =>
    exact dropped_append_le (s := afterDrop s node lf)
      (h.jours.ok lf.delJournal (NotCleared.of_idle hidle _)) (jrecTotal_journalDelRec_le _ _) d
  | trim d' regionIdx epoch hd hfree =>
    exact dropped_append_le (h.jours.ok d' hfree) (jrecTotal_journalTrimRec_le _ _) d
  | ckpt => exact Nat.le_refl _
  | resetPage d' p =>
    by_cases he : d = d'
    · subst he; simp [journalResetPage]
    · simp [update_of_ne he]
  | resetDone d' p =>
    by_cases he : d = d'
    · subst he; simp [journalResetDone]
    · simp [update_of_ne he]

theorem NoOverflow.of_step (h : StoreOk s) (hstep : s.step l = some s') (hno : NoOverflow s') :
    NoOverflow s := by
  intro d
  have := dropped_le_step h hstep d
  have := hno d
  omega

/-! ## Checkpoints -/

/-- A checkpoint can hold the index and what is pending. -/
structure Storable (s : Store) : Prop where
  idx : Loadable s.idx
  reqs : ∀ r ∈ s.pending, r.path.length < ckptStackCap ∧ r.shape ∈ s.idx.shapes

theorem Storable.congr (h : Storable s) (hidx : s'.idx = s.idx)
    (hreqs : ∀ r ∈ s'.pending, r ∈ s.pending) : Storable s' where
  idx := by rw [hidx]; exact h.idx
  reqs r hr := by rw [hidx]; exact h.reqs r (hreqs r hr)

/-- A put whose leaf a checkpoint can hold. -/
def ShallowPut : Label → Prop
  | .put a => a.groupIdx < 127
  | _ => True

theorem Storable.step (hok : StoreOk s) (h : Storable s) (hl : ShallowPut l)
    (hstep : s.step l = some s') : Storable s' := by
  have hpub : ∀ {i : Nat} {r : PutReq}, s.pending[i]? = some r → ∀ page crc now,
      Storable (afterPublish s i r (r.args page crc now)) := by
    intro i r hr page crc now
    have hreq := hok.reqs r (mem_of_getElem? hr)
    obtain ⟨hlen, hshape⟩ := h.reqs r (mem_of_getElem? hr)
    have hside := hok.side.resolveNode r.prefixId r.groupIdx hreq.path
    refine ⟨?_, ?_⟩
    · refine (h.idx.resolveNode r.prefixId r.groupIdx hlen).publish
        (hside.node _ _ _ (sideGet_resolveNode_self s.idx r.prefixId r.groupIdx r.path)) ?_
      intro sh hsh
      cases hsh
      simpa using hshape
    · intro r' hr'
      have hmem : r' ∈ s.pending := mem_of_mem_eraseIdx hr'
      simpa [afterPublish, resolvedIdx] using h.reqs r' hmem
  cases step_cases hstep with
  | putRejected a => exact h
  | put a reqs hlen hg hlens hreqs =>
    refine ⟨h.idx.intern (hlens.trans hok.cfg.layers), ?_⟩
    intro r hr
    rcases mem_append.mp hr with hr | hr
    · obtain ⟨h1, h2⟩ := h.reqs r hr
      exact ⟨h1, subset_shapePoolIntern _ _ h2⟩
    rw [hreqs] at hr
    obtain ⟨_, hrp, _, hrs, _, _⟩ := mem_cachePutReqs hr
    have hshallow : a.groupIdx < 127 := hl
    refine ⟨?_, ?_⟩
    · rw [hrp, hlen]
      unfold ckptStackCap
      omega
    · rw [hrs]
      exact mem_shapePoolIntern _ _
  | publish i page crc now r hidle hr hacc =>
    exact (hpub hr page crc now).congr rfl (fun _ h => h)
  | publishRejected i page crc now r hidle hr hrej => exact hpub hr page crc now
  | flush | ack | trim | ckpt | resetPage | resetDone => exact h.congr rfl (fun _ h => h)
  | drop node lf =>
    refine ⟨h.idx.drop node, ?_⟩
    intro r hr
    obtain ⟨h1, h2⟩ := h.reqs r hr
    refine ⟨h1, ?_⟩
    simpa [Store.append, afterDrop] using h2

theorem ckptOk_writeCkpt (hside : SideOk s.idx) (hl : Loadable s.idx) (phase : CkptPhase) :
    CkptOk { s with
      ckpt := some (ckptWrite s.idx s.verCounter s.cfg.nDevs s.cfg.regionCnt
        s.cfg.regionSizePages)
      phase := phase } s.idx :=
  loadedFrom_sideBuild hside hl _ _ _ _

/-! ## The start of replay -/

theorem range_cut {b n : Nat} (h : b < n) :
    List.range n = List.range b ++ b :: List.range' (b + 1) (n - (b + 1)) := by
  have h1 : n = b + (n - (b + 1) + 1) := by omega
  conv_lhs => rw [h1, range_eq_range', ← range'_append_1]
  rw [range_eq_range', range'_succ]
  simp

theorem CkptOk.replayOk (h : CkptOk s idx) :
    ReplayOk (replayInit s.ckpt s.cfg.nDevs s.cfg.regionCnt s.cfg.regionSizePages).idx := by
  refine ⟨h.ok, ?_⟩
  intro q lf hl
  have htree : (replayInit s.ckpt s.cfg.nDevs s.cfg.regionCnt s.cfg.regionSizePages).idx.tree =
      idx.tree.map unpinned := h.tree
  rw [htree, Trie.leafAt_map] at hl
  obtain ⟨lf0, _, rfl⟩ := Option.map_eq_some_iff.mp hl
  rfl

theorem CkptOk.hasKey (h : CkptOk s idx) (k : UInt64 × Nat) :
    HasKey (replayInit s.ckpt s.cfg.nDevs s.cfg.regionCnt s.cfg.regionSizePages).idx k ↔
      HasKey idx k := by
  have htree : (replayInit s.ckpt s.cfg.nDevs s.cfg.regionCnt s.cfg.regionSizePages).idx.tree =
      idx.tree.map unpinned := h.tree
  constructor
  · rintro ⟨q, lf, hl, hk⟩
    rw [htree, Trie.leafAt_map] at hl
    obtain ⟨lf0, h0, rfl⟩ := Option.map_eq_some_iff.mp hl
    exact ⟨q, lf0, h0, hk⟩
  rintro ⟨q, lf, hl, hk⟩
  refine ⟨q, unpinned lf, ?_, hk⟩
  rw [htree, Trie.leafAt_map, hl]
  rfl

theorem StoreOk.read_initial (h : StoreOk s) (d : Nat) :
    journalRead (s.jours d) <+: (s.jours d).recs := by
  by_cases hfree : NotCleared s d
  · exact (h.jours.ok d hfree).read_initial
  simp only [NotCleared, not_forall, not_not] at hfree
  obtain ⟨p, hp⟩ := hfree
  rcases Nat.eq_zero_or_pos p with rfl | hpos
  · exact (h.jours.whole d hp).read_initial
  · rw [(h.jours.wiping d p hp).read_eq_nil hpos]
    exact nil_prefix

theorem StoreOk.read_pathOk (h : StoreOk s) :
    ∀ r ∈ (List.range s.cfg.nDevs).flatMap (fun d => journalRead (s.jours d)), PathOk r := by
  intro r hr
  obtain ⟨d, _, hd⟩ := mem_flatMap.mp hr
  exact h.recs d r ((h.read_initial d).subset hd)

theorem recovered_eq (s : Store) :
    s.recovered = replayJournal s.cfg.nDevs s.cfg.regionCnt
      (replayInit s.ckpt s.cfg.nDevs s.cfg.regionCnt s.cfg.regionSizePages)
      ((List.range s.cfg.nDevs).flatMap fun d => journalRead (s.jours d)) :=
  recover_eq _ _ _ _ _

end KvTier.Analysis
