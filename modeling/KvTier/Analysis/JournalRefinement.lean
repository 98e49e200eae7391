import KvTier.Analysis.JournalCodec

/-!
# The journal of records and the journal of bytes

The store works with journals whose pages are lists of records (`KvTier.Model.Journal`).
-/

namespace KvTier.Analysis

open KvTier.Lib KvTier.Model

/-- The flags of a record. -/
def seenFlags (flags : UInt32) : Flags where
  replica := flags &&& (1 : UInt32) <<< 0 != 0
  stripe := flags &&& (1 : UInt32) <<< 1 != 0
  hot := flags &&& (1 : UInt32) <<< 2 != 0
  slot1 := flags &&& (1 : UInt32) <<< 9 != 0
  uniform := flags &&& jflagUniform != 0

/-- A record as `replay_apply` sees it. -/
def seenRec (d : Delivered) : JournalRec where
  op := if d.raw.op = jopPut then .put else if d.raw.op = jopDel then .del else .trim
  devId := d.raw.devId.toNat
  prefixId := d.raw.prefixId
  groupIdx := d.raw.groupIdx.toNat
  ver := d.raw.ver.toNat
  addrDev := d.raw.addrDev.toNat
  addrPage := d.raw.addrPage.toNat
  addrOff := d.dataLen.toNat
  addrLen := d.raw.addrLen.toNat
  stripeIdx := d.raw.stripeIdx.toNat
  stripeCnt := d.raw.stripeCnt.toNat
  flags := seenFlags d.raw.flags
  expireTs := d.raw.expireTs.toNat
  nRecs := d.raw.nRecs.toNat
  dataCrc := d.dataCrc.toNat
  lens := (d.lens.getD []).map UInt32.toNat
  path := d.path.getD []

theorem jrecTotal_seenRec (e : Entry) : jrecTotal (seenRec e.delivered) = e.raw.total := by
  have hop : (seenRec e.delivered).op = .put ↔ e.raw.op = jopPut := by
    simp only [seenRec, Entry.delivered]
    grind
  have hrecs : (seenRec e.delivered).nRecs = 0 ↔ e.raw.nRecs = 0 := by
    rw [← UInt16.toNat_inj]
    rfl
  have huni : (seenRec e.delivered).flags.uniform = true ↔ e.raw.flags &&& jflagUniform ≠ 0 := by
    simp [seenRec, seenFlags, Entry.delivered]
  have hlens : jrecNLens (seenRec e.delivered) = e.raw.nLens := by
    unfold jrecNLens RawRec.nLens
    simp only [ne_eq, hop, hrecs, huni]
    rfl
  have hpath : (seenRec e.delivered).path.length = e.raw.pathLen.toNat := by
    have hlen := e.path_length
    simp only [seenRec, Entry.delivered]
    split_ifs <;> simp_all
  unfold jrecTotal RawRec.total RawRec.dlen
  rw [hlens, hpath]
  simp only [hop]

/-- The journal of records in a journal of bytes; device numbers have 16 bits there. -/
def seenJournal (j : RawJournal) (log : PagedLog Entry) : Journal where
  devId := j.devId % 2 ^ 16
  journalPages := j.journalPages
  log := log.map fun e => seenRec e.delivered
  curOff := j.curOff
  dropped := j.dropped

theorem append_refines {j : RawJournal} {log : PagedLog Entry} (h : Holds j log)
    {r : RawRec} {dataCrc : UInt32} {lens : Option (List UInt32)} {path : Option (List UInt64)}
    (hc : CallOk r dataCrc lens path) :
    ∃ log', Holds (j.append r dataCrc lens path).1 log' ∧
      journalAppend (seenJournal j log)
          (seenRec (recordOf (j.complete r dataCrc lens path) dataCrc lens path)) =
        (seenJournal (j.append r dataCrc lens path).1 log', (j.append r dataCrc lens path).2) := by
  obtain ⟨log', hj', hcase⟩ := h.append_cases hc
  refine ⟨log', hj', ?_⟩
  rw [recordOf_eq j hc]
  have htotal := jrecTotal_seenRec (callEntry j hc)
  have hle := total_callEntry_le j hc
  -- the device number is written into the record at both levels
  have hid : ({ seenRec (callEntry j hc).delivered with devId := j.devId % 2 ^ 16 } : JournalRec) =
      seenRec (callEntry j hc).delivered := by
    simp only [seenRec, Entry.delivered, callEntry, RawJournal.complete, UInt16.toNat_ofNat']
  have hfits : ¬ pageSize < jrecTotal (seenRec (callEntry j hc).delivered) := by omega
  have hcur : (seenJournal j log).log.curPage = j.curPage := h.curPage.symm
  have hpagesEq : (seenJournal j log).journalPages = j.journalPages := rfl
  generalize j.append r dataCrc lens path = res at hcase hj'
  unfold journalAppend
  rw [if_neg hfits, htotal, hcur, hpagesEq, show (seenJournal j log).curOff = j.curOff from rfl]
  cases hcase with
  | full hcap =>
    rw [if_pos hcap]
    rfl
  | nextFull hcap hpage hend hoff =>
    rw [if_neg (by omega), if_pos hpage, journalNextPage_eq (j := seenJournal j log) hoff]
    have hfull : j.journalPages ≤ (seenJournal j log).log.advance.curPage := by
      simpa [PagedLog.advance, PagedLog.flush, hcur] using hend
    simp only [hpagesEq, hfull, if_true]
    simp only [seenJournal, nextPage_eq hoff, PagedLog.map_advance]
  | next hcap hpage hoff j' hnew =>
    rw [if_neg (by omega), if_pos hpage, journalNextPage_eq (j := seenJournal j log) hoff]
    have hroom : ¬ j.journalPages ≤ (seenJournal j log).log.advance.curPage := by
      simp only [PagedLog.advance, PagedLog.flush, hcur]
      omega
    simp only [hpagesEq, hroom, if_false]
    rw [hnew]
    simp only [journalStage, seenJournal, nextPage_eq hoff, PagedLog.map_push, PagedLog.map_advance,
      hid, htotal, Nat.zero_add]
  | stage hcap hroom j' hnew =>
    rw [if_neg (by omega), if_neg (by omega), hnew]
    simp only [journalStage, seenJournal, PagedLog.map_push, hid, htotal]

theorem flush_refines {j : RawJournal} {log : PagedLog Entry} (h : Holds j log) :
    Holds j.flush log.flush ∧ journalFlush (seenJournal j log) = seenJournal j.flush log.flush := by
  refine ⟨h.flush, ?_⟩
  simp only [journalFlush, RawJournal.flush, show (seenJournal j log).curOff = j.curOff from rfl]
  split
  · rename_i hoff
    rw [h.flush_eq_self hoff]
  · simp only [seenJournal, PagedLog.map_flush]

theorem replay_refines {j : RawJournal} {log : PagedLog Entry} (h : Holds j log) :
    journalRead (seenJournal j log) = (journalReplay j).map seenRec := by
  rw [h.replay, List.map_map]
  exact PagedLog.read_map _ _ _

/-! ## Runs of calls -/

/-- A call on the journal of records: what the call on bytes writes, as `replay_apply` sees it. -/
def seenExec (s : RawJournal × Journal) (op : JournalOp) : Journal × JRc :=
  match op.records s.1 with
  | [] => (journalFlush s.2, .ok)
  | d :: _ => journalAppend s.2 (seenRec d)

/-- A call on both journals. -/
def execBoth (s : RawJournal × Journal) (op : JournalOp) : RawJournal × Journal :=
  ((op.exec s.1).1, (seenExec s op).1)

/-- The second journal stands for the first one. -/
def Stands (s : RawJournal × Journal) : Prop := ∃ log, Holds s.1 log ∧ s.2 = seenJournal s.1 log

theorem Stands.exec {s : RawJournal × Journal} (h : Stands s) {op : JournalOp}
    (hop : JournalOpOk op) :
    Stands (execBoth s op) ∧ (seenExec s op).2 = (op.exec s.1).2 := by
  obtain ⟨j, seen⟩ := s
  obtain ⟨log, hj, hseen : seen = seenJournal j log⟩ := h
  subst hseen
  have hcall : ∃ log', Holds (op.exec j).1 log' ∧
      seenExec (j, seenJournal j log) op = (seenJournal (op.exec j).1 log', (op.exec j).2) := by
    cases op with
    | put a => exact append_refines hj (callOk_put hop)
    | del prefixId groupIdx => exact append_refines hj (callOk_del prefixId groupIdx)
    | trim regionIdx epoch => exact append_refines hj (callOk_trim regionIdx epoch)
    | flush => exact ⟨_, (flush_refines hj).1, Prod.ext (flush_refines hj).2 rfl⟩
  obtain ⟨log', hj', heq⟩ := hcall
  exact ⟨⟨log', hj', congrArg Prod.fst heq⟩, congrArg Prod.snd heq⟩

/-- Pages of records stand for pages of bytes over every sequence of calls on a journal that was
reset: every call has the same result, as much is dropped, and a replay delivers the same records. -/
theorem journal_runs_refine (j : RawJournal) (ops : List JournalOp)
    (hops : ∀ op ∈ ops, JournalOpOk op) :
    let s := ops.foldl execBoth
      (j.reset, ⟨j.devId % 2 ^ 16, j.journalPages, ⟨fun _ => [], 0, []⟩, 0, j.dropped⟩)
    (∀ op, JournalOpOk op → (seenExec s op).2 = (op.exec s.1).2) ∧
      s.2.curOff = s.1.curOff ∧ s.2.dropped = s.1.dropped ∧
      journalRead s.2 = (journalReplay s.1).map seenRec := by
  intro s
  have h : Stands s := List.foldlRecOn ops execBoth ⟨_, Holds.reset j, rfl⟩
    fun _ hs op hop => (Stands.exec hs (hops op hop)).1
  refine ⟨fun op hop => (h.exec hop).2, ?_⟩
  obtain ⟨log, hj, hseen⟩ := h
  rw [hseen]
  exact ⟨rfl, rfl, replay_refines hj⟩

/-- One put is on the device, as a record and as bytes. -/
theorem journal_runs_refine_sample :
    let s := sampleCalls.foldl execBoth
      (RawJournal.reset ⟨0, 4, fun _ => [], 0, 0, [], 0⟩, ⟨0, 4, ⟨fun _ => [], 0, []⟩, 0, 0⟩)
    journalRead s.2 = (journalReplay s.1).map seenRec ∧ (journalRead s.2).length = 1 ∧
      s.2.curOff = s.1.curOff ∧ s.1.curOff ≠ 0 := by
  obtain ⟨-, hoff, -, hread⟩ :=
    journal_runs_refine ⟨0, 4, fun _ => [], 0, 0, [], 0⟩ sampleCalls sampleCalls_ok
  exact ⟨hread, by decide +kernel, hoff, by decide +kernel⟩

end KvTier.Analysis
