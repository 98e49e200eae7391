import KvTier.Analysis.JournalWrites

/-!
# Acknowledged requests and their journal records

Which completions of a batch leave every request that is not told an error with its record on a page
of the journal that was written.
-/

namespace KvTier.Analysis

open KvTier.Lib KvTier.Model List

/-! ## Numbered records -/

/-- Record number `k` is `r`, on a page whose write succeeded. -/
def OnPage (s : JournalIo) (k : Nat) (r : JournalRec) : Prop :=
  ∃ w ∈ s.writes, w.ok = true ∧ w.first ≤ k ∧ w.recs[k - w.first]? = some r

/-- Record number `k` is on a page or staged. -/
def RecKept (s : JournalIo) (k : Nat) (r : JournalRec) : Prop :=
  OnPage s k r ∨
    s.jour.curOff ≠ 0 ∧ s.first ≤ k ∧ s.jour.log.stage[k - s.first]? = some r

/-- No record from number `m` on is on a page. -/
def Numbered (m : Nat) (s : JournalIo) : Prop := ∀ w ∈ s.writes, w.first + w.recs.length ≤ m

/-- The append of a record stages it. -/
def StagesRec (s : JournalIo) (r : JournalRec) (o : PageOutcome) : Prop :=
  jrecTotal r ≤ pageSize ∧ s.jour.log.curPage < s.jour.journalPages ∧
    (s.jour.curOff + jrecTotal r ≤ pageSize ∨
      o = .done ∧ s.jour.log.curPage + 1 < s.jour.journalPages)

instance (s : JournalIo) (r : JournalRec) (o : PageOutcome) : Decidable (StagesRec s r o) :=
  inferInstanceAs (Decidable (_ ∧ _ ∧ (_ ∨ _ ∧ _)))

section Numbers

variable {s : JournalIo} {k : Nat} {r : JournalRec}

theorem mem_written {w : PageWrite} {o : PageOutcome} (h : w ∈ (written s o).writes) :
    w ∈ s.writes ∨ w = ⟨s.journalPage + s.jour.log.curPage, s.first, s.jour.log.stage,
      decide (o = .done)⟩ := by
  rcases mem_append.1 h with h | h
  · exact .inl h
  · exact .inr (mem_singleton.1 h)

theorem RecKept.onPage_written (h : RecKept s k r) : OnPage (written s .done) k r := by
  rcases h with ⟨w, hw, hrest⟩ | ⟨_, hfirst, hget⟩
  · exact ⟨w, mem_append_left _ hw, hrest⟩
  · exact ⟨_, mem_append_right _ (mem_singleton.2 rfl), rfl, hfirst, hget⟩

theorem RecKept.afterWrite (h : RecKept s k r) (o : PageOutcome) : RecKept (written s o) k r := by
  rcases h with ⟨w, hw, hrest⟩ | hstaged
  · exact .inl ⟨w, mem_append_left _ hw, hrest⟩
  · exact .inr hstaged

theorem RecKept.stage (h : RecKept s k r) (r' : JournalRec) : RecKept (s.stage r') k r := by
  rcases h with hon | ⟨hoff, hfirst, hget⟩
  · exact .inl hon
  refine .inr ⟨?_, hfirst, ?_⟩
  · have : s.jour.curOff + jrecTotal r' ≠ 0 := by omega
    exact this
  obtain ⟨hlt, _⟩ := List.getElem?_eq_some_iff.1 hget
  have happ : (s.jour.log.stage ++ [{ r' with devId := s.jour.devId }])[k - s.first]? = some r := by
    rw [List.getElem?_append_left hlt, hget]
  exact happ

theorem RecKept.append (h : RecKept s k r) (r' : JournalRec) (o : PageOutcome) :
    RecKept (s.append r' o).1 k r := by
  generalize hres : s.append r' o = res
  cases append_cases hres with
  | tooLong => exact h
  | full => exact h
  | writeFails => exact h.afterWrite o
  | lastPage _ _ _ ho _ | turned _ _ ho _ =>
    subst ho
    exact .inl h.onPage_written
  | staged => exact h.stage r'

theorem RecKept.stage_self (s : JournalIo) (r : JournalRec) :
    RecKept (s.stage r) s.nextNo { r with devId := s.jour.devId } := by
  have hpos := jrecTotal_pos r
  refine .inr ⟨?_, Nat.le_add_right _ _, ?_⟩
  · have : s.jour.curOff + jrecTotal r ≠ 0 := by omega
    exact this
  have hget : (s.jour.log.stage ++ [{ r with devId := s.jour.devId }])[s.nextNo - s.first]? =
      some { r with devId := s.jour.devId } := by
    unfold JournalIo.nextNo
    rw [Nat.add_sub_cancel_left, List.getElem?_append_right (Nat.le_refl _), Nat.sub_self]
    rfl
  exact hget

theorem append_staged_iff (s : JournalIo) (r : JournalRec) (o : PageOutcome) :
    ((s.append r o).2 = kvEok ↔ StagesRec s r o) ∧
      (StagesRec s r o → RecKept (s.append r o).1 s.nextNo { r with devId := s.jour.devId }) := by
  have hinval : -kvEinval ≠ kvEok := by decide
  have hefull : kvEfull ≠ kvEok := by decide
  unfold StagesRec
  generalize hres : s.append r o = res
  cases append_cases hres with
  | tooLong hlong => exact ⟨⟨fun h => absurd h hinval, fun h => by omega⟩, fun h => by omega⟩
  | full hfit hfull => exact ⟨⟨fun h => absurd h hefull, fun h => by omega⟩, fun h => by omega⟩
  | writeFails hfit hroom hpage ho =>
    have hno : ¬ (s.jour.curOff + jrecTotal r ≤ pageSize ∨
        o = .done ∧ s.jour.log.curPage + 1 < s.jour.journalPages) := by
      rintro (h | ⟨h, _⟩)
      · omega
      · exact ho h
    refine ⟨⟨fun h => absurd ((rc_eq_kvEok_iff o).1 h) ho, fun h => absurd h.2.2 hno⟩,
      fun h => absurd h.2.2 hno⟩
  | lastPage hfit hroom hpage ho hlast =>
    exact ⟨⟨fun h => absurd h hefull, fun h => by omega⟩, fun h => by omega⟩
  | turned hfit hpage ho hnext =>
    refine ⟨⟨fun _ => ⟨hfit, by omega, .inr ⟨ho, hnext⟩⟩, fun _ => rfl⟩, fun _ => ?_⟩
    exact RecKept.stage_self (written s o).turnPage r
  | staged hroom hpage =>
    exact ⟨⟨fun _ => ⟨by omega, hroom, .inl hpage⟩, fun _ => rfl⟩, fun _ => RecKept.stage_self s r⟩

theorem Numbered.mono {m m' : Nat} (h : Numbered m s) (hle : m ≤ m') : Numbered m' s :=
  fun w hw => (h w hw).trans hle

theorem Numbered.afterWrite (h : Numbered s.nextNo s) (o : PageOutcome) :
    Numbered s.nextNo (written s o) := by
  intro w hw
  rcases mem_written hw with hw | rfl
  · exact h w hw
  · exact Nat.le_refl _

theorem Numbered.append (h : Numbered s.nextNo s) (r : JournalRec) (o : PageOutcome) :
    Numbered s.nextNo (s.append r o).1 ∧ s.nextNo ≤ (s.append r o).1.nextNo := by
  have hturn : ∀ j : JournalIo, j.turnPage.nextNo = j.nextNo := fun j => Nat.add_zero _
  have hstage : ∀ j : JournalIo, j.nextNo ≤ (j.stage r).nextNo := by
    intro j
    have hlen : (j.jour.log.stage ++ [{ r with devId := j.jour.devId }]).length =
        j.jour.log.stage.length + 1 := length_append
    have hno : (j.stage r).nextNo = j.first + (j.jour.log.stage.length + 1) :=
      congrArg (j.first + ·) hlen
    rw [hno]
    exact Nat.le_succ _
  generalize hres : s.append r o = res
  cases append_cases hres with
  | tooLong | full => exact ⟨h, Nat.le_refl _⟩
  | writeFails => exact ⟨h.afterWrite o, Nat.le_refl _⟩
  | lastPage => exact ⟨h.afterWrite o, Nat.le_of_eq (hturn _).symm⟩
  | turned => exact ⟨h.afterWrite o, (Nat.le_of_eq (hturn (written s o)).symm).trans (hstage _)⟩
  | staged => exact ⟨h, hstage s⟩

theorem Numbered.wipeFrom (os : Nat → PageOutcome) (p n : Nat) (h : Numbered s.nextNo s) :
    Numbered s.nextNo (JournalIo.wipeFrom os s p n).1 ∧
      (JournalIo.wipeFrom os s p n).1.nextNo = s.nextNo := by
  induction n generalizing s p with
  | zero => exact ⟨h, rfl⟩
  | succ n ih =>
    have hone : Numbered s.nextNo (s.writePage p s.nextNo [] (os p)).1 := by
      intro w hw
      rcases mem_append.1 hw with hw | hw
      · exact h w hw
      · obtain rfl := mem_singleton.1 hw
        exact Nat.le_refl _
    simp only [JournalIo.wipeFrom]
    split
    · exact ⟨hone, rfl⟩
    · exact ih (p + 1) hone

theorem Numbered.step (h : Numbered s.nextNo s) (op : JournalCall) :
    Numbered (s.step op).nextNo (s.step op) := by
  cases op with
  | append r o =>
    obtain ⟨hn, hle⟩ := h.append r o
    exact hn.mono hle
  | flush o =>
    unfold JournalIo.step JournalIo.flush
    simp only
    split
    · exact h
    · exact h.afterWrite o
  | reset os =>
    obtain ⟨hn, hno⟩ := h.wipeFrom os 0 s.jour.journalPages
    unfold JournalIo.step JournalIo.reset
    simp only
    split
    · rw [hno]
      exact hn
    · exact hn.mono (Nat.le_of_eq hno.symm)

end Numbers

theorem devId_step (s : JournalIo) (op : JournalCall) : (s.step op).jour.devId = s.jour.devId := by
  cases op with
  | append r o =>
    simp only [JournalIo.step]
    generalize hres : s.append r o = res
    cases append_cases hres <;> rfl
  | flush o =>
    unfold JournalIo.step JournalIo.flush
    simp only
    split <;> rfl
  | reset os =>
    have hwipe : ∀ (p n : Nat) (j : JournalIo),
        (JournalIo.wipeFrom os j p n).1.jour.devId = j.jour.devId := by
      intro p n
      induction n generalizing p with
      | zero => intro j; rfl
      | succ n ih =>
        intro j
        simp only [JournalIo.wipeFrom]
        split
        · rfl
        · exact ih (p + 1) _
    unfold JournalIo.step JournalIo.reset
    simp only
    split
    · exact hwipe 0 _ s
    · exact hwipe 0 _ s

/-! ## The requests of a batch -/

/-- The publish of a request stages its record. -/
def StagesReq (s : JournalStore) (d : Nat) (r : DoneReq) : Prop :=
  PublishRec s d r.req r.page r.crc r.now ∧
    StagesRec (s.jours d) (reqRec d r.req r.page r.crc r.now) r.io

instance (s : JournalStore) (d : Nat) (r : DoneReq) : Decidable (StagesReq s d r) :=
  inferInstanceAs (Decidable (_ ∧ _))

/-- Every request of the batch has its record staged. -/
def StagesAll (d : Nat) : JournalStore → List DoneReq → Prop
  | _, [] => True
  | s, r :: rs => (r.node = true → StagesReq s d r) ∧ StagesAll d (s.doneReq d r).1 rs

/-- The record of a request in the journal of device `d`. -/
def doneRec (d : Nat) (r : DoneReq) : JournalRec :=
  { reqRec d r.req r.page r.crc r.now with devId := d }

section Batch

variable {s : JournalStore} {d : Nat}

theorem doneReq_jour (s : JournalStore) (d : Nat) (r : DoneReq) :
    (s.doneReq d r).1.jours d =
      if r.node = true ∧ PublishRec s d r.req r.page r.crc r.now then
        ((s.jours d).append (reqRec d r.req r.page r.crc r.now) r.io).1
      else s.jours d := by
  unfold JournalStore.doneReq
  by_cases hnode : r.node = true
  · have hspec := (publish_spec s d r.req r.page r.crc r.now r.io).2.2.2
    simp only [hnode, if_true, true_and]
    split at hspec
    · rename_i hrec
      rw [hspec.1, Function.update_self, if_pos hrec]
    · rename_i hrec
      rw [hspec.1, if_neg hrec]
  · simp only [hnode, Bool.false_eq_true, if_false, false_and]

theorem doneReq_end (s : JournalStore) (d : Nat) (r : DoneReq) :
    (s.doneReq d r).2 = if r.node = true then
        ⟨none, if StagesReq s d r then some (s.jours d).nextNo else none⟩
      else ⟨some .enomem, none⟩ := by
  unfold JournalStore.doneReq
  by_cases hnode : r.node = true
  · have hspec := (publish_spec s d r.req r.page r.crc r.now r.io).2.2.2
    have hstaged := (append_staged_iff (s.jours d) (reqRec d r.req r.page r.crc r.now) r.io).1
    simp only [hnode, if_true]
    split at hspec
    · rename_i hrec
      simp only [hspec.2, hstaged, StagesReq, hrec, true_and]
    · rename_i hrec
      simp only [hspec.2, StagesReq, hrec, false_and, if_false]
  · simp only [hnode, Bool.false_eq_true, if_false]

theorem doneReq_devId (s : JournalStore) (d : Nat) (r : DoneReq) :
    ((s.doneReq d r).1.jours d).jour.devId = (s.jours d).jour.devId := by
  rw [doneReq_jour]
  split
  · exact devId_step _ (.append _ _)
  · rfl

theorem RecKept.doneReq {k : Nat} {rec : JournalRec} (h : RecKept (s.jours d) k rec) (r : DoneReq) :
    RecKept ((s.doneReq d r).1.jours d) k rec := by
  rw [doneReq_jour]
  split
  · exact h.append _ _
  · exact h

theorem RecKept.doneReqs {k : Nat} {rec : JournalRec} (rs : List DoneReq)
    (h : RecKept (s.jours d) k rec) : RecKept ((JournalStore.doneReqs d s rs).1.jours d) k rec := by
  induction rs generalizing s with
  | nil => exact h
  | cons r rs ih => exact ih (h.doneReq r)

theorem Numbered.doneReq (h : Numbered (s.jours d).nextNo (s.jours d)) (r : DoneReq) :
    Numbered (s.jours d).nextNo ((s.doneReq d r).1.jours d) ∧
      (s.jours d).nextNo ≤ ((s.doneReq d r).1.jours d).nextNo := by
  rw [doneReq_jour]
  split
  · exact h.append _ _
  · exact ⟨h, Nat.le_refl _⟩

theorem doneReqs_kept {rs : List DoneReq} (hall : StagesAll d s rs)
    (hdev : (s.jours d).jour.devId = d) {p : DoneReq × ReqEnd}
    (hp : p ∈ rs.zip (JournalStore.doneReqs d s rs).2) (htold : p.2.told = none) :
    ∃ k, p.2.recNo = some k ∧
      RecKept ((JournalStore.doneReqs d s rs).1.jours d) k (doneRec d p.1) := by
  induction rs generalizing s with
  | nil => cases hp
  | cons r rs ih =>
    obtain ⟨hone, hrest⟩ := hall
    simp only [JournalStore.doneReqs, zip_cons_cons] at hp ⊢
    rcases mem_cons.1 hp with rfl | hp
    · simp only at htold ⊢
      rw [doneReq_end] at htold ⊢
      by_cases hnode : r.node = true
      · have hstages := hone hnode
        have hkept := (append_staged_iff (s.jours d) _ r.io).2 hstages.2
        rw [hdev] at hkept
        have hjour : RecKept ((s.doneReq d r).1.jours d) (s.jours d).nextNo (doneRec d r) := by
          rw [doneReq_jour, if_pos ⟨hnode, hstages.1⟩]
          exact hkept
        rw [if_pos hnode, if_pos hstages]
        exact ⟨_, rfl, hjour.doneReqs rs⟩
      · rw [if_neg hnode] at htold
        cases htold
    · exact ih hrest ((doneReq_devId s d r).trans hdev) hp

theorem node_of_told {rs : List DoneReq} {p : DoneReq × ReqEnd}
    (hp : p ∈ rs.zip (JournalStore.doneReqs d s rs).2) (htold : p.2.told = none) :
    p.1.node = true := by
  induction rs generalizing s with
  | nil => cases hp
  | cons r rs ih =>
    simp only [JournalStore.doneReqs, zip_cons_cons] at hp
    rcases mem_cons.1 hp with rfl | hp
    · simp only at htold ⊢
      rw [doneReq_end] at htold
      by_contra hno
      rw [if_neg hno] at htold
      cases htold
    · exact ih hp

theorem stagesAll_of_recNo {rs : List DoneReq}
    (h : ∀ p ∈ rs.zip (JournalStore.doneReqs d s rs).2, p.2.told = none → ∃ k, p.2.recNo = some k) :
    StagesAll d s rs := by
  induction rs generalizing s with
  | nil => trivial
  | cons r rs ih =>
    simp only [JournalStore.doneReqs, zip_cons_cons] at h
    refine ⟨fun hnode => ?_, ih fun p hp => h p (mem_cons_of_mem _ hp)⟩
    have hhead := h _ mem_cons_self
    simp only [doneReq_end, hnode, if_true, true_imp_iff] at hhead
    by_contra hno
    rw [if_neg hno] at hhead
    obtain ⟨k, hk⟩ := hhead
    cases hk

theorem doneReqs_of_noNode {rs : List DoneReq} (h : ∀ r ∈ rs, r.node = false) :
    (JournalStore.doneReqs d s rs).1 = s := by
  induction rs with
  | nil => rfl
  | cons r rs ih =>
    have hr := h r mem_cons_self
    have hone : (s.doneReq d r).1 = s := by
      unfold JournalStore.doneReq
      rw [if_neg (by rw [hr]; decide)]
    simp only [JournalStore.doneReqs, hone]
    exact ih fun r' hr' => h r' (mem_cons_of_mem _ hr')

/-- The last record of a batch is still staged when the batch is told success. -/
theorem last_record_unwritten {rs : List DoneReq} (hall : StagesAll d s rs)
    (hnum : Numbered (s.jours d).nextNo (s.jours d)) (hnode : ∃ r ∈ rs, r.node = true) :
    ∃ p ∈ rs.zip (JournalStore.doneReqs d s rs).2, p.2.told = none ∧
      ∃ k, p.2.recNo = some k ∧ Numbered k ((JournalStore.doneReqs d s rs).1.jours d) := by
  induction rs generalizing s with
  | nil =>
    obtain ⟨r, hr, _⟩ := hnode
    cases hr
  | cons r rs ih =>
    obtain ⟨hone, hrest⟩ := hall
    obtain ⟨hnum', hle⟩ := hnum.doneReq r
    simp only [JournalStore.doneReqs, zip_cons_cons]
    by_cases hlater : ∃ r' ∈ rs, r'.node = true
    · obtain ⟨p, hp, hfacts⟩ := ih hrest (hnum'.mono hle) hlater
      exact ⟨p, mem_cons_of_mem _ hp, hfacts⟩
    -- the requests behind this one do nothing
    have hnone : ∀ r' ∈ rs, r'.node = false := by
      intro r' hr'
      by_contra hno
      exact hlater ⟨r', hr', by simpa using hno⟩
    have hr : r.node = true := by
      obtain ⟨r', hr', hn⟩ := hnode
      rcases mem_cons.1 hr' with rfl | hr'
      · exact hn
      · exact absurd ⟨r', hr', hn⟩ hlater
    refine ⟨_, mem_cons_self, ?_⟩
    rw [doneReqs_of_noNode hnone, doneReq_end, if_pos hr, if_pos (hone hr)]
    exact ⟨rfl, _, rfl, hnum'⟩

end Batch

/-- Every request that is told success has its record on a page, or a checkpoint was written. -/
def BatchJournaled (d : Nat) (reqs : List DoneReq)
    (ckpt : Option (Bool × (Nat → Nat → PageOutcome))) (res : JournalStore × List ReqEnd) : Prop :=
  ∀ p ∈ reqs.zip res.2, p.2.told = none →
    (∃ os, ckpt = some (true, os)) ∨ ∃ k, p.2.recNo = some k ∧ OnPage (res.1.jours d) k (doneRec d p.1)

theorem onPage_flush_iff {s : JournalIo} {k : Nat} {r : JournalRec} {o : PageOutcome} (ho : o ≠ .done) :
    OnPage (s.flush o).1 k r ↔ OnPage s k r := by
  unfold JournalIo.flush
  split
  · rfl
  constructor
  · rintro ⟨w, hw, hok, hrest⟩
    rcases mem_written hw with hw | rfl
    · exact ⟨w, hw, hok, hrest⟩
    · exact absurd (of_decide_eq_true hok) ho
  · rintro ⟨w, hw, hrest⟩
    exact ⟨w, mem_append_left _ hw, hrest⟩

theorem RecKept.flush_done {s : JournalIo} {k : Nat} {r : JournalRec} (h : RecKept s k r) :
    OnPage (s.flush .done).1 k r := by
  by_cases hoff : s.jour.curOff = 0
  · unfold JournalIo.flush
    rw [if_pos hoff]
    exact h.resolve_right fun hstaged => hstaged.1 hoff
  · rw [flush_eq hoff]
    exact h.onPage_written

theorem jours_of_run {nDevs journalPage n : Nat} {idx : Index}
    {pages : Nat → Nat → List JournalRec} {ls : List JsLabel} {s : JournalStore}
    (h : RunOf JournalStore.step (fun _ _ => True) (.start nDevs journalPage n idx pages) ls s)
    (d : Nat) : (s.jours d).jour.devId = d ∧ Numbered (s.jours d).nextNo (s.jours d) := by
  refine h.invariant
    (fun s => ∀ d, (s.jours d).jour.devId = d ∧ Numbered (s.jours d).nextNo (s.jours d))
    (fun s l s' hs _ hst d => ?_) (fun d => ⟨rfl, fun w hw => absurd hw not_mem_nil⟩) d
  exact jours_step
    (P := fun d j => j.jour.devId = d ∧ Numbered j.nextNo j)
    (fun d j op hj => ⟨(devId_step j op).trans hj.1, hj.2.step op⟩) hst hs d

/-- Which completions of a batch leave the record of every request that is told no error on a page
that was written, or covered by a checkpoint: those of a failed batch; those with a checkpoint
behind their publishes; and those in which every publish replaces or makes a leaf and stages its
record, which takes room in the journal and the write of a page that is turned, and then the flush
succeeds. Nothing a failed write, a full journal or a stale version does to a record is told to its
request. -/
theorem batch_journaled_iff {nDevs journalPage n : Nat} {idx : Index}
    {pages : Nat → Nat → List JournalRec} {ls : List JsLabel} {s : JournalStore}
    (h : RunOf JournalStore.step (fun _ _ => True) (.start nDevs journalPage n idx pages) ls s)
    (d : Nat) (ioErr : Bool) (reqs : List DoneReq)
    (ckpt : Option (Bool × (Nat → Nat → PageOutcome))) (o : PageOutcome) :
    BatchJournaled d reqs ckpt (s.batchDone d ioErr reqs ckpt o) ↔
      ioErr = true ∨ (∃ os, ckpt = some (true, os)) ∨
        StagesAll d s reqs ∧ (o = .done ∨ ∀ r ∈ reqs, r.node = false) := by
  obtain ⟨hdev, hnum⟩ := jours_of_run h d
  by_cases hio : ioErr = true
  · -- a failed batch is told so
    refine ⟨fun _ => .inl hio, fun _ p hp htold => ?_⟩
    have hends : (s.batchDone d ioErr reqs ckpt o).2 = reqs.map fun _ => ⟨some .ewrite, none⟩ := by
      unfold JournalStore.batchDone
      rw [if_pos hio]
    rw [hends] at hp
    obtain ⟨r, _, hr⟩ := mem_map.1 (of_mem_zip hp).2
    rw [← hr] at htold
    cases htold
  by_cases hck : ∃ os, ckpt = some (true, os)
  · exact ⟨fun _ => .inr (.inl hck), fun _ p _ _ => .inl hck⟩
  -- without a checkpoint the flush is what follows the publishes
  have hres : s.batchDone d ioErr reqs ckpt o =
      ((JournalStore.doneReqs d s reqs).1.setJour d
        (((JournalStore.doneReqs d s reqs).1.jours d).flush o).1, (JournalStore.doneReqs d s reqs).2) := by
    unfold JournalStore.batchDone
    rw [if_neg hio]
    match ckpt with
    | none => rfl
    | some (false, os) => rfl
    | some (true, os) => exact absurd ⟨os, rfl⟩ hck
  rw [hres]
  unfold BatchJournaled JournalStore.setJour
  simp only [Function.update_self, hck, hio, Bool.false_eq_true, false_or]
  constructor
  · intro hall
    have hstages : StagesAll d s reqs := stagesAll_of_recNo fun p hp htold => by
      obtain ⟨k, hk, _⟩ := hall p hp htold
      exact ⟨k, hk⟩
    refine ⟨hstages, ?_⟩
    by_contra hneither
    rw [not_or] at hneither
    obtain ⟨ho, hsome⟩ := hneither
    have hnode : ∃ r ∈ reqs, r.node = true := by
      by_contra hno
      refine hsome fun r hr => ?_
      by_contra hn
      exact hno ⟨r, hr, by simpa using hn⟩
    -- the last record is on no page, and the flush fails
    obtain ⟨p, hp, htold, k, hk, hbelow⟩ := last_record_unwritten hstages hnum hnode
    obtain ⟨k', hk', honp⟩ := hall p hp htold
    obtain rfl := Option.some.inj (hk.symm.trans hk')
    obtain ⟨w, hw, _, hfirst, hget⟩ := (onPage_flush_iff ho).1 honp
    obtain ⟨hlt, _⟩ := List.getElem?_eq_some_iff.1 hget
    have hle := hbelow w hw
    omega
  rintro ⟨hstages, hend⟩ p hp htold
  obtain ⟨k, hk, hkept⟩ := doneReqs_kept hstages hdev hp htold
  refine ⟨k, hk, ?_⟩
  rcases hend with rfl | hnone
  · exact hkept.flush_done
  -- a request that is told no error has a node
  have hnode := node_of_told hp htold
  rw [hnone p.1 (of_mem_zip hp).1] at hnode
  cases hnode

/-- A request of the put with 256 records, done. -/
def wideDone (ver : Nat) : DoneReq := ⟨wideReq ver, 8 * ver, 0, 0, true, .done⟩

/-- A batch of three such requests whose flush succeeds. -/
theorem batch_journaled_three :
    BatchJournaled 0 [wideDone 1, wideDone 2, wideDone 3] none
      (onePageStore.batchDone 0 false [wideDone 1, wideDone 2, wideDone 3] none .done) := by
  have hstages : StagesAll 0 onePageStore [wideDone 1, wideDone 2, wideDone 3] :=
    ⟨fun _ => by decide +kernel, fun _ => by decide +kernel, fun _ => by decide +kernel, trivial⟩
  exact (batch_journaled_iff (.nil onePageStore) 0 false _ none .done).2
    (.inr (.inr ⟨hstages, .inl rfl⟩))

/-- A request whose journal page could not be written is told no error, and neither is the last of
four whose record no longer fits the journal. -/
theorem unjournaled_request_told_ok :
    ((onePageStore.batchDone 0 false [wideDone 1] none (.failed 5 [])).2 = [⟨none, some 0⟩] ∧
      ((onePageStore.batchDone 0 false [wideDone 1] none (.failed 5 [])).1.jours 0).writes.map (·.ok) =
        [false] ∧
      ¬ BatchJournaled 0 [wideDone 1] none
        (onePageStore.batchDone 0 false [wideDone 1] none (.failed 5 []))) ∧
    (onePageStore.batchDone 0 false [wideDone 1, wideDone 2, wideDone 3, wideDone 4] none .done).2 =
      [⟨none, some 0⟩, ⟨none, some 1⟩, ⟨none, some 2⟩, ⟨none, none⟩] := by
  have hends : (onePageStore.batchDone 0 false [wideDone 1] none (.failed 5 [])).2 =
      [⟨none, some 0⟩] := by decide +kernel
  have hwrites : ((onePageStore.batchDone 0 false [wideDone 1] none
      (.failed 5 [])).1.jours 0).writes.map (·.ok) = [false] := by decide +kernel
  refine ⟨⟨hends, hwrites, fun hall => ?_⟩, by decide +kernel⟩
  rcases hall (wideDone 1, ⟨none, some 0⟩) (by rw [hends]; exact mem_cons_self) rfl with
    ⟨os, hos⟩ | ⟨k, _, w, hw, hok, _⟩
  · cases hos
  · have hmem := mem_map_of_mem (f := (·.ok)) hw
    rw [hwrites, hok] at hmem
    exact absurd (mem_singleton.1 hmem) (by decide)

end KvTier.Analysis
