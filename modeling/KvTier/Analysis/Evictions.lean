import KvTier.Analysis.Recovery

/-!
# Evictions after recovery

A drop journals a DEL record that names the key and no version, in the journal of the leaf's first
address (journal 0 for a striped leaf), while the PUT records of the key lie in the journals of its
replicas and parts.
-/

namespace KvTier.Analysis

open KvTier.Lib KvTier.Model List

variable {ckpt : Index} {k : UInt64 × Nat} {s : Store}

/-! ## Journals that leave a key gone -/

/-- The records hold no PUT of the key. -/
def NoPut (k : UInt64 × Nat) (rs : List JournalRec) : Prop :=
  ∀ r ∈ rs, r.op = .put → recKey r ≠ k

theorem NoPut.append {rs rs' : List JournalRec} (h : NoPut k rs) (h' : NoPut k rs') :
    NoPut k (rs ++ rs') := by
  intro r hr
  rcases mem_append.mp hr with hr | hr
  · exact h r hr
  · exact h' r hr

theorem NoPut.of_subset {rs rs' : List JournalRec} (h : NoPut k rs) (hs : rs' ⊆ rs) :
    NoPut k rs' := fun r hr => h r (hs hr)

/-- Replay ends without the key: no PUT of it, or none behind a DEL. -/
def Gone (ckpt : Index) (nDevs : Nat) (recs : Nat → List JournalRec) (k : UInt64 × Nat) : Prop :=
  (¬ HasKey ckpt k ∧ ∀ d < nDevs, NoPut k (recs d)) ∨
  ∃ jd < nDevs, ∃ xs r ys, recs jd = xs ++ r :: ys ∧ r.op = .del ∧ recKey r = k ∧
    NoPut k ys ∧ ∀ d, jd < d → d < nDevs → NoPut k (recs d)

theorem Gone.append {nDevs : Nat} {recs recs' : Nat → List JournalRec} (h : Gone ckpt nDevs recs k)
    (hr : ∀ d, ∃ rs, recs' d = recs d ++ rs ∧ NoPut k rs) : Gone ckpt nDevs recs' k := by
  have hno : ∀ d, NoPut k (recs d) → NoPut k (recs' d) := by
    intro d hd
    obtain ⟨rs, he, hrs⟩ := hr d
    rw [he]
    exact hd.append hrs
  rcases h with ⟨hck, hput⟩ | ⟨jd, hjd, xs, r, ys, he, hop, hk, hys, hlater⟩
  · exact Or.inl ⟨hck, fun d hd => hno d (hput d hd)⟩
  obtain ⟨rs, he', hrs⟩ := hr jd
  refine Or.inr ⟨jd, hjd, xs, r, ys ++ rs, ?_, hop, hk, hys.append hrs,
    fun d h1 h2 => hno d (hlater d h1 h2)⟩
  rw [he', he]
  simp

/-- Recovery does not find a key whose DEL record is kept. -/
theorem Gone.not_hasKey (hok : StoreOk s) (hck : CkptOk s ckpt)
    (hgone : Gone ckpt s.cfg.nDevs (fun d => (s.jours d).recs) k)
    (hkept : ∀ d < s.cfg.nDevs, ∀ xs r ys, (s.jours d).recs = xs ++ r :: ys → r.op = .del →
      recKey r = k → ∃ zs, journalRead (s.jours d) = xs ++ r :: zs ∧ zs ⊆ ys) :
    ¬ HasKey s.recovered.idx k := by
  rw [recovered_eq]
  have hstart := hck.replayOk
  have hpath := hok.read_pathOk
  have hsub : ∀ d, journalRead (s.jours d) ⊆ (s.jours d).recs :=
    fun d => (hok.read_initial d).subset
  rcases hgone with ⟨hno, hput⟩ | ⟨jd, hjd, xs, r, ys, he, hop, rfl, hys, hlater⟩
  · refine not_hasKey_journal hstart hpath ?_ (fun h => hno ((hck.hasKey k).mp h))
    intro r hr
    obtain ⟨d, hd, hrd⟩ := mem_flatMap.mp hr
    exact hput d (mem_range.mp hd) r (hsub d hrd)
  obtain ⟨zs, hz, hzs⟩ := hkept jd hjd xs r ys he hop rfl
  -- cut the joined journals at the DEL
  have hsplit : (List.range s.cfg.nDevs).flatMap (fun d => journalRead (s.jours d)) =
      ((List.range jd).flatMap (fun d => journalRead (s.jours d)) ++ xs) ++ r ::
        (zs ++ (List.range' (jd + 1) (s.cfg.nDevs - (jd + 1))).flatMap
          (fun d => journalRead (s.jours d))) := by
    rw [range_cut hjd]
    simp only [flatMap_append, flatMap_cons, hz]
    simp
  rw [hsplit] at hpath ⊢
  refine not_hasKey_of_del hstart hpath hop ?_
  refine NoPut.append (hys.of_subset hzs) ?_
  intro y hy
  obtain ⟨d, hd, hyd⟩ := mem_flatMap.mp hy
  obtain ⟨i, hi, rfl⟩ := mem_range'.mp hd
  exact hlater _ (by omega) (by omega) y (hsub _ hyd)

/-! ## The invariant of a run -/

/-- The last event of the key is a drop. -/
def LastDropped (s : Store) (k : UInt64 × Nat) : Prop :=
  lastEvent s.hist k = some (.drop k.1 k.2)

/-- No later journal has a PUT of the key that is dropped. -/
def DropOk (s : Store) : Label → Prop
  | .drop node => ∀ lf, s.idx.tree.leafAt node = some lf → ∀ d, lf.delJournal < d →
      d < s.cfg.nDevs → NoPut (lf.prefixId, groupOf node) (s.jours d).recs
  | _ => True

/-- A key whose last event is a drop is in no index, and replay ends without it. -/
structure DroppedGone (s : Store) (ckpt : Index) : Prop where
  ck : CkptOk s ckpt
  live : ∀ k, LastDropped s k → ¬ HasKey s.idx k
  idle : s.phase = .idle → ∀ k, LastDropped s k →
    Gone ckpt s.cfg.nDevs (fun d => (s.jours d).recs) k
  clearing : ∀ d p, s.phase = .resetting d p → ∀ k, LastDropped s k →
    ¬ HasKey ckpt k ∧ ∀ d' < d, NoPut k (s.jours d').recs

theorem DroppedGone.congr {s s' : Store} (h : DroppedGone s ckpt) (hcfg : s'.cfg = s.cfg)
    (hck : s'.ckpt = s.ckpt) (hphase : s'.phase = s.phase) (hhist : s'.hist = s.hist)
    (hidx : ∀ q, s'.idx.tree.leafAt q = s.idx.tree.leafAt q)
    (hrecs : ∀ d, ∃ rs, (s'.jours d).recs = (s.jours d).recs ++ rs ∧ ∀ r ∈ rs, r.op ≠ .put) :
    DroppedGone s' ckpt := by
  have hlast : ∀ k, LastDropped s' k ↔ LastDropped s k := by
    intro k
    simp [LastDropped, hhist]
  have hrecs' : ∀ (k : UInt64 × Nat) d, ∃ rs, (s'.jours d).recs = (s.jours d).recs ++ rs ∧
      NoPut k rs := by
    intro k d
    obtain ⟨rs, he, hrs⟩ := hrecs d
    exact ⟨rs, he, fun r hr hop => absurd hop (hrs r hr)⟩
  refine ⟨h.ck.congr hcfg hck, ?_, ?_, ?_⟩
  · intro k hk
    rw [hasKey_congr hidx]
    exact h.live k ((hlast k).mp hk)
  · intro hidle k hk
    rw [hcfg]
    exact (h.idle (hphase ▸ hidle) k ((hlast k).mp hk)).append (hrecs' k)
  intro d p hp k hk
  obtain ⟨hno, hput⟩ := h.clearing d p (hphase ▸ hp) k ((hlast k).mp hk)
  refine ⟨hno, fun d' hd' => ?_⟩
  obtain ⟨rs, he, hrs⟩ := hrecs' k d'
  rw [he]
  exact (hput d' hd').append hrs

theorem DroppedGone.step {s s' : Store} {l : Label} (hok : StoreOk s) (h : DroppedGone s ckpt)
    (hdrop : DropOk s l) (hload : l = .ckpt → Loadable s.idx) (hno' : NoOverflow s')
    (hstep : s.step l = some s') : ∃ ckpt', DroppedGone s' ckpt' := by
  have hno : NoOverflow s := hno'.of_step hok hstep
  have hsame : ∀ d, ∃ rs, (s.jours d).recs = (s.jours d).recs ++ rs ∧
      ∀ r ∈ rs, r.op ≠ .put := fun d => ⟨[], by simp, by simp⟩
  cases step_cases hstep with
  | putRejected a => exact ⟨ckpt, h⟩
  | put a reqs =>
    exact ⟨ckpt, h.congr rfl rfl rfl rfl (fun _ => rfl) hsame⟩
  | publish i page crc now r hidle hr hacc =>
    have hreq := hok.reqs r (mem_of_getElem? hr)
    have hside := hok.side.resolveNode r.prefixId r.groupIdx hreq.path
    have hslot := sideGet_resolveNode_self s.idx r.prefixId r.groupIdx r.path
    have hjour := hok.jours.ok r.dev (NotCleared.of_idle hidle _)
    have hrecs := recs_append_extends (s := afterPublish s i r (r.args page crc now)) hjour
      (jrecTotal_journalPutRec_le hreq page crc now)
      ((hno' r.dev).trans (hno r.dev).symm)
    -- other keys keep their last event, the published one is not dropped any more
    have hlast : ∀ k, LastDropped { (afterPublish s i r (r.args page crc now)).append r.dev
          (journalPutRec (r.args page crc now)) with
          hist := .publish r (r.args page crc now) :: s.hist } k →
        (r.prefixId, r.groupIdx) ≠ k ∧ LastDropped s k := by
      intro k hk
      rw [LastDropped, lastEvent_cons] at hk
      split at hk
      · cases hk
      · rename_i hne
        exact ⟨hne, hk⟩
    refine ⟨ckpt, h.ck.congr rfl rfl, ?_, ?_, ?_⟩
    · intro k hk
      obtain ⟨hne, hk'⟩ := hlast k hk
      refine not_hasKey_publish hside hslot hne ?_
      rw [hasKey_congr (fun q => leafAt_resolveNode s.idx r.prefixId r.groupIdx r.path q)]
      exact h.live k hk'
    · intro _ k hk
      obtain ⟨hne, hk'⟩ := hlast k hk
      refine (h.idle hidle k hk').append fun d => ?_
      obtain ⟨rs, he, hrs⟩ := hrecs d
      refine ⟨rs, he, fun x hx _ => ?_⟩
      rw [hrs x hx]
      exact hne
    intro d p hp
    have : s.phase = .resetting d p := hp
    rw [hidle] at this
    cases this
  | publishRejected i page crc now r hidle hr hrej =>
    exact ⟨ckpt, h.congr rfl rfl rfl rfl (leafAt_afterPublish_of_rejected hok hr hrej) hsame⟩
  | flush d hd hfree =>
    refine ⟨ckpt, h.congr rfl rfl rfl rfl (fun _ => rfl) fun d' => ⟨[], ?_, by simp⟩⟩
    rw [(jours_flush_go s d d').1, List.append_nil]
  | ack => exact ⟨ckpt, h.congr rfl rfl rfl rfl (fun _ => rfl) hsame⟩
  | drop node lf hidle hleaf hpin hdev =>
    have hjour := hok.jours.ok lf.delJournal (NotCleared.of_idle hidle _)
    have hdropped := (hno' lf.delJournal).trans (hno lf.delJournal).symm
    have hrecs := recs_append (s := afterDrop s node lf) hjour
      (jrecTotal_journalDelRec_le lf.prefixId (groupOf node)) hdropped
    have hlast : ∀ k, (lf.prefixId, groupOf node) ≠ k →
        LastDropped ((afterDrop s node lf).append lf.delJournal
          (journalDelRec lf.prefixId (groupOf node))) k → LastDropped s k := by
      intro k hne hk
      have hk : lastEvent (.drop lf.prefixId (groupOf node) :: s.hist) k = _ := hk
      rw [lastEvent_cons, if_neg (by exact hne)] at hk
      exact hk
    refine ⟨ckpt, h.ck.congr rfl rfl, ?_, ?_, ?_⟩
    · intro k hk
      by_cases he : (lf.prefixId, groupOf node) = k
      · subst he
        exact not_hasKey_drop_self hok.side hleaf
      · exact not_hasKey_drop (h.live k (hlast k he hk)) node
    · intro _ k hk
      by_cases he : (lf.prefixId, groupOf node) = k
      · -- the key that is dropped: its DEL is the last record of its journal
        subst he
        refine Or.inr ⟨lf.delJournal, hdev, (s.jours lf.delJournal).recs,
          { journalDelRec lf.prefixId (groupOf node) with
            devId := (s.jours lf.delJournal).devId }, [], ?_, rfl, rfl, by simp [NoPut], ?_⟩
        · have := hrecs lf.delJournal
          rw [if_pos rfl] at this
          exact this
        intro d h1 h2
        have hd := hrecs d
        rw [if_neg (by omega)] at hd
        intro x hx
        exact hdrop lf hleaf d h1 h2 x (hd ▸ hx)
      refine (h.idle hidle k (hlast k he hk)).append fun d => ?_
      obtain ⟨rs, hd, hrs⟩ := recs_append_extends (s := afterDrop s node lf) hjour
        (jrecTotal_journalDelRec_le lf.prefixId (groupOf node)) hdropped d
      refine ⟨rs, hd, fun x hx hop => ?_⟩
      rw [hrs x hx] at hop
      cases hop
    intro d p hp
    have : s.phase = .resetting d p := hp
    rw [hidle] at this
    cases this
  | trim d regionIdx epoch hd hfree =>
    refine ⟨ckpt, h.congr rfl rfl rfl rfl (fun _ => rfl) fun d' => ?_⟩
    obtain ⟨rs, hd, hrs⟩ := recs_append_extends (hok.jours.ok d hfree)
      (jrecTotal_journalTrimRec_le regionIdx epoch) ((hno' d).trans (hno d).symm) d'
    refine ⟨rs, hd, fun x hx hop => ?_⟩
    rw [hrs x hx] at hop
    cases hop
  | ckpt hidle =>
    refine ⟨s.idx, ckptOk_writeCkpt hok.side (hload rfl) _, h.live, ?_, ?_⟩
    · intro hp
      cases hp
    · intro d p hp k hk
      cases hp
      exact ⟨h.live k hk, fun d' hd' => absurd hd' (Nat.not_lt_zero d')⟩
  | resetPage d p hphase hp =>
    refine ⟨ckpt, h.ck.congr rfl rfl, h.live, ?_, ?_⟩
    · intro hp'
      cases hp'
    intro d' p' hp' k hk
    cases hp'
    obtain ⟨hnk, hput⟩ := h.clearing d p hphase k hk
    refine ⟨hnk, fun d' hd' => ?_⟩
    simpa [Function.update_of_ne (Nat.ne_of_lt hd')] using hput d' hd'
  | resetDone d p hphase hp =>
    have hput : ∀ k, LastDropped s k → ¬ HasKey ckpt k ∧ ∀ d' < d + 1,
        NoPut k (Function.update s.jours d (journalResetDone (s.jours d)) d').recs := by
      intro k hk
      obtain ⟨hnk, hput⟩ := h.clearing d p hphase k hk
      refine ⟨hnk, fun d' hd' => ?_⟩
      by_cases he : d' = d
      · subst he
        simp [recs_journalResetDone, NoPut]
      · rw [Function.update_of_ne he]
        exact hput d' (by omega)
    refine ⟨ckpt, h.ck.congr rfl rfl, h.live, ?_, ?_⟩
    · intro hp' k hk
      simp only at hp'
      split at hp'
      · cases hp'
      rename_i hlast
      exact Or.inl ⟨(hput k hk).1, fun d' hd' => (hput k hk).2 d' (by
        have hd' : d' < s.cfg.nDevs := hd'
        omega)⟩
    intro d' p' hp' k hk
    simp only at hp'
    split at hp'
    · cases hp'
      exact hput k hk
    · cases hp'

theorem Opened.droppedGone (h : Opened s) : DroppedGone s s.idx where
  ck := h.ckpt
  live k hk := by simp [LastDropped, lastEvent, h.hist] at hk
  idle _ k hk := by simp [LastDropped, lastEvent, h.hist] at hk
  clearing _ _ _ k hk := by simp [LastDropped, lastEvent, h.hist] at hk

/-! ## Runs whose journals were flushed -/

/-- Replay respects evictions: in every run of puts, drops and flushes whose drops are journaled
where no later journal holds a PUT record of the key, once all journals are flushed, a key that was
dropped last has no leaf after recovery. -/
theorem evicted_gone_of_flushed {s0 s : Store} {ls : List Label} (h0 : Opened s0)
    (hrun : RunOf Store.step (fun s l => l ≠ .ckpt ∧ DropOk s l) s0 ls s) (hno : NoOverflow s)
    (hflushed : ∀ d < s.cfg.nDevs, journalRead (s.jours d) = (s.jours d).recs)
    {k : UInt64 × Nat} (hk : LastDropped s k) : ¬ HasKey s.recovered.idx k := by
  have hinv : StoreOk s ∧ s.phase = .idle ∧ (NoOverflow s → ∃ ckpt, DroppedGone s ckpt) := by
    refine hrun.invariant
      (fun s => StoreOk s ∧ s.phase = .idle ∧ (NoOverflow s → ∃ ckpt, DroppedGone s ckpt)) ?_
      ⟨h0.ok, h0.idle, fun _ => ⟨s0.idx, h0.droppedGone⟩⟩
    rintro s l s' ⟨hok, hidle, hgone⟩ ⟨hl, hdrop⟩ hstep
    refine ⟨hok.step hstep, ?_, ?_⟩
    · -- without a checkpoint there is nothing to reset
      cases step_cases hstep with
      | ckpt => exact absurd rfl hl
      | resetPage d p hphase | resetDone d p hphase => rw [hidle] at hphase; cases hphase
      | putRejected | put | publish | publishRejected | flush | ack | drop | trim => exact hidle
    · intro hno'
      obtain ⟨ckpt, hg⟩ := hgone (hno'.of_step hok hstep)
      exact hg.step hok hdrop (fun he => absurd he hl) hno' hstep
  obtain ⟨hok, hidle, hgone⟩ := hinv
  obtain ⟨ckpt, hg⟩ := hgone hno
  refine (hg.idle hidle k hk).not_hasKey hok hg.ck ?_
  intro d hd xs r ys he _ _
  exact ⟨ys, by rw [hflushed d hd, he], fun _ h => h⟩

/-- A plain put on two devices, evicted and flushed. -/
def evictRun : List Label := [.put smallPut, .publish 0 64 5 1, .drop [7], .flush 0]

/-- The run meets the condition, and the key stays gone. -/
theorem evicted_single_copy_gone : ∃ s, (Store.format twoDevs).run evictRun = some s ∧
    LastDropped s (0, 0) ∧ ¬ HasKey s.recovered.idx (0, 0) := by
  have hlast : ∀ s, (Store.format twoDevs).run evictRun = some s → LastDropped s (0, 0) := by
    intro s hs
    cases hs
    unfold LastDropped
    decide +kernel
  refine ⟨_, rfl, hlast _ rfl, ?_⟩
  refine @evicted_gone_of_flushed (Store.format twoDevs) _ evictRun opened_twoDevs ?_ ?_ ?_ _
    (hlast _ rfl)
  · refine .cons ⟨by decide, trivial⟩ rfl (.cons ⟨by decide, trivial⟩ rfl
      (.cons ⟨by decide, ?_⟩ rfl (.cons ⟨by decide, trivial⟩ rfl (.nil _))))
    -- the only later journal is that of device 1, which is empty
    intro lf _ d h1 h2 r hr
    have h2 : d < 2 := h2
    obtain rfl : d = 1 := by omega
    have hr : r ∈ ([] : List JournalRec) := hr
    simp at hr
  · intro d
    rcases d with _ | _ | d <;> rfl
  · decide +kernel

def evictReplicaRun : List Label :=
  [.put { smallPut with hot := true }, .publish 0 64 5 1, .publish 0 64 5 1, .flush 0, .flush 1,
    .ack 1, .drop [7], .flush 0]

/-- An evicted replicated put comes back: its DEL is in journal 0, and the PUT of its second replica
in journal 1. -/
theorem evicted_replica_comes_back : ∃ s, (Store.format twoDevs).run evictReplicaRun = some s ∧
    NoOverflow s ∧ (∀ d < s.cfg.nDevs, journalRead (s.jours d) = (s.jours d).recs) ∧
    LastDropped s (0, 0) ∧ HasKey s.recovered.idx (0, 0) := by
  refine ⟨_, rfl, ?_, ?_, ?_, ?_⟩
  · intro d
    rcases d with _ | _ | d <;> rfl
  · decide +kernel
  · unfold LastDropped
    decide +kernel
  · exact ⟨[7], _, rfl, rfl⟩

/-! ## Runs that end with a close -/

/-- Evictions survive a close, if the DEL record of the key was written by then: the key has no leaf
after the next open. Puts are for groups that a checkpoint can hold, and drops are journaled as
above. -/
theorem evicted_gone_after_close {s0 s : Store} {ls : List Label} (h0 : Opened s0)
    (hl0 : Loadable s0.idx) (hrun : RunOf Store.step (fun s l => ShallowPut l ∧ DropOk s l) s0 ls s)
    (hclosed : s.phase = .idle) (hno : NoOverflow s) {k : UInt64 × Nat} (hk : LastDropped s k)
    (hwritten : ∀ d < s.cfg.nDevs, ∀ r ∈ unflushed (s.jours d), r.op = .del → recKey r ≠ k) :
    ¬ HasKey s.recovered.idx k := by
  have hinv : StoreOk s ∧ Storable s ∧ (NoOverflow s → ∃ ckpt, DroppedGone s ckpt) := by
    refine hrun.invariant
      (fun s => StoreOk s ∧ Storable s ∧ (NoOverflow s → ∃ ckpt, DroppedGone s ckpt)) ?_
      ⟨h0.ok, ⟨hl0, by simp [h0.pending]⟩, fun _ => ⟨s0.idx, h0.droppedGone⟩⟩
    rintro s l s' ⟨hok, hst, hgone⟩ ⟨hshallow, hdrop⟩ hstep
    refine ⟨hok.step hstep, hst.step hok hshallow hstep, fun hno' => ?_⟩
    obtain ⟨ckpt, hg⟩ := hgone (hno'.of_step hok hstep)
    exact hg.step hok hdrop (fun _ => hst.idx) hno' hstep
  obtain ⟨hok, _, hgone⟩ := hinv
  obtain ⟨ckpt, hg⟩ := hgone hno
  refine (hg.idle hclosed k hk).not_hasKey hok hg.ck ?_
  intro d hd xs r ys he hop hrk
  -- the DEL is not in the unflushed tail, so it is among the records that were read
  have hread := (hok.jours.ok d (NotCleared.of_idle hclosed d)).read_append_unflushed
  rw [he] at hread
  rcases append_eq_append_iff.mp hread with ⟨zs, hxs, hr⟩ | ⟨zs, hrd, hr⟩
  · exact absurd hrk (hwritten d hd r (by rw [hr]; simp) hop)
  cases zs with
  | nil => exact absurd hrk (hwritten d hd r (by simp at hr; rw [← hr]; simp) hop)
  | cons z zs =>
    simp only [cons_append, List.cons.injEq] at hr
    obtain ⟨rfl, hys⟩ := hr
    exact ⟨zs, hrd, by rw [hys]; simp⟩

/-- The flushed eviction survives the close. -/
theorem evicted_flushed_gone_after_close :
    ∃ s, (Store.format twoDevs).run evictRun = some s ∧ s.phase = .idle ∧
      LastDropped s (0, 0) ∧ ¬ HasKey s.recovered.idx (0, 0) := by
  have hlast : ∀ s, (Store.format twoDevs).run evictRun = some s → LastDropped s (0, 0) := by
    intro s hs
    cases hs
    unfold LastDropped
    decide +kernel
  refine ⟨_, rfl, rfl, hlast _ rfl, ?_⟩
  refine @evicted_gone_after_close (Store.format twoDevs) _ evictRun opened_twoDevs loadable_empty
    ?_ rfl ?_ _ (hlast _ rfl) ?_
  · refine .cons ⟨by simp [ShallowPut, smallPut], trivial⟩ rfl (.cons ⟨trivial, trivial⟩ rfl
      (.cons ⟨trivial, ?_⟩ rfl (.cons ⟨trivial, trivial⟩ rfl (.nil _))))
    intro lf _ d h1 h2 r hr
    have h2 : d < 2 := h2
    obtain rfl : d = 1 := by omega
    have hr : r ∈ ([] : List JournalRec) := hr
    simp at hr
  · intro d
    rcases d with _ | _ | d <;> rfl
  · decide +kernel

def evictAtCloseRun : List Label := [.put smallPut, .publish 0 64 5 1, .flush 0, .ack 1, .drop [7]]

/-- An eviction that nothing flushed is undone by a close: the staged DEL is lost, and the PUT is
replayed. -/
theorem evicted_comes_back_after_close :
    ∃ s, (Store.format twoDevs).run evictAtCloseRun = some s ∧ s.phase = .idle ∧ NoOverflow s ∧
      LastDropped s (0, 0) ∧ HasKey s.recovered.idx (0, 0) := by
  refine ⟨_, rfl, rfl, ?_, ?_, ?_⟩
  · intro d
    rcases d with _ | _ | d <;> rfl
  · unfold LastDropped
    decide +kernel
  · exact ⟨[7], _, rfl, rfl⟩

end KvTier.Analysis
