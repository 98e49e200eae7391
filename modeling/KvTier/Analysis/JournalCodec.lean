import KvTier.Analysis.JournalFacts
import KvTier.Model.JournalBytes

/-!
# The journal codec

What `journal_append` writes is what `journal_replay` reads.
-/

namespace KvTier.Analysis

open Function KvTier.Lib KvTier.Model List

/-! ## The layout of a record -/

section Layout

variable (r : RawRec)

/-- The bytes before the checksum. -/
def headBytes : List UInt8 :=
  Codec.u8.enc r.op ++ (Codec.u8.enc r.pad ++ (Codec.u16.enc r.devId ++ (Codec.u64.enc r.prefixId ++
    (Codec.u32.enc r.groupIdx ++ (Codec.u32.enc r.ver ++ (Codec.u32.enc r.addrDev ++
    (Codec.u64.enc r.addrPage ++ (Codec.u32.enc r.addrOff ++ (Codec.u32.enc r.addrLen ++
    (Codec.u32.enc r.stripeIdx ++ (Codec.u32.enc r.stripeCnt ++ (Codec.u32.enc r.flags ++
    Codec.u32.enc r.expireTs))))))))))))

theorem enc_eq : RawRec.codec.enc r =
    headBytes r ++ (Codec.u32.enc r.crc32 ++ (Codec.u16.enc r.pathLen ++ Codec.u16.enc r.nRecs)) := by
  simp only [RawRec.codec, Codec.iso, Codec.pair, headBytes, List.append_assoc]

theorem length_headBytes : (headBytes r).length = 56 := by
  simp [headBytes, Codec.u8, Codec.u16, Codec.u32, Codec.u64, Codec.num]

theorem take_enc : (RawRec.codec.enc r).take 56 = headBytes r := by
  rw [enc_eq, take_left' (length_headBytes r)]

theorem drop_enc : (RawRec.codec.enc r).drop 60 =
    Codec.u16.enc r.pathLen ++ Codec.u16.enc r.nRecs := by
  rw [enc_eq, ← List.append_assoc, drop_left']
  rw [length_append, length_headBytes, Codec.length_enc]
  rfl

theorem jrecCrc_crc32 (c : UInt32) (dataCrc : UInt32) (lens : Option (List UInt32))
    (path : Option (List UInt64)) :
    jrecCrc { r with crc32 := c } dataCrc lens path = jrecCrc r dataCrc lens path := by
  unfold jrecCrc
  simp only [take_enc, drop_enc]
  rfl

end Layout

/-! ## Entries of a page -/

/-- A record in a page. -/
structure Entry where
  raw : RawRec
  dataCrc : UInt32
  lens : List UInt32
  path : List UInt64
  op_pos : raw.op ≠ 0
  op_le : raw.op ≤ jopTrim
  path_le : raw.pathLen.toNat ≤ 256
  recs_le : raw.nRecs.toNat ≤ maxLayersCap
  lens_length : lens.length = raw.nLens
  path_length : path.length = raw.pathLen.toNat
  no_data : raw.op ≠ jopPut → dataCrc = 0
  crc : raw.crc32 = jrecCrc raw dataCrc (some lens) (some path)

namespace Entry

variable (e : Entry)

/-- The bytes of an entry. -/
def bytes : List UInt8 :=
  RawRec.codec.enc e.raw ++ ((if e.raw.dlen ≠ 0 then Codec.u32.enc e.dataCrc else []) ++
    (Codec.u32.encAll e.lens ++ Codec.u64.encAll e.path))

/-- What the callback is called with for an entry. -/
def delivered : Delivered where
  raw := e.raw
  dataCrc := e.dataCrc
  lens := if e.raw.nLens ≠ 0 then some e.lens else none
  nLens := e.raw.nLens
  dataLen := e.raw.addrOff
  path := if e.raw.pathLen ≠ 0 then some e.path else none

theorem length_data :
    (if e.raw.dlen ≠ 0 then Codec.u32.enc e.dataCrc else []).length = e.raw.dlen := by
  unfold RawRec.dlen
  split
  · exact Codec.length_enc _ _
  · rfl

theorem length_bytes : e.bytes.length = e.raw.total := by
  unfold bytes RawRec.total
  rw [length_append, length_append, length_append, e.length_data,
    Codec.length_enc, Codec.length_encAll, Codec.length_encAll, e.lens_length, e.path_length]
  simp only [RawRec.codec, Codec.iso, Codec.pair, Codec.u8, Codec.u16, Codec.u32, Codec.u64,
    Codec.num]
  omega

theorem crc_delivered :
    jrecCrc e.raw e.dataCrc e.delivered.lens e.delivered.path = e.raw.crc32 := by
  rw [e.crc]
  unfold jrecCrc delivered
  by_cases hl : e.raw.nLens = 0 <;> by_cases hp : e.raw.pathLen = 0 <;> simp [hl, hp]

/-- The scan finds an entry where it starts. -/
theorem deliveredAt_eq (pre post : List UInt8) (hfit : pre.length + e.raw.total ≤ pageSize) :
    deliveredAt (pre ++ (e.bytes ++ post)) pre.length = some e.delivered := by
  have hdec : RawRec.codec.dec ((pre ++ (e.bytes ++ post)).drop pre.length) = e.raw := by
    rw [drop_left' rfl, bytes, List.append_assoc, Codec.dec_enc]
  have hsize : RawRec.codec.size = 64 := rfl
  have htail : (pre ++ (e.bytes ++ post)).drop (pre.length + 64) =
      (if e.raw.dlen ≠ 0 then Codec.u32.enc e.dataCrc else []) ++
        (Codec.u32.encAll e.lens ++ (Codec.u64.encAll e.path ++ post)) := by
    rw [← drop_drop, drop_left' rfl, bytes, List.append_assoc,
      drop_left' (by rw [Codec.length_enc, hsize])]
    simp only [List.append_assoc]
  have hdata : (if e.raw.dlen ≠ 0 then
      Codec.u32.dec ((if e.raw.dlen ≠ 0 then Codec.u32.enc e.dataCrc else []) ++
        (Codec.u32.encAll e.lens ++ (Codec.u64.encAll e.path ++ post))) else 0) = e.dataCrc := by
    by_cases hd : e.raw.dlen = 0
    · have hop : e.raw.op ≠ jopPut := by
        intro hop
        simp [RawRec.dlen, hop] at hd
      rw [if_neg (by simpa using hd), e.no_data hop]
    · rw [if_pos hd, if_pos hd, Codec.dec_enc]
  have hlens : Codec.u32.decAll e.raw.nLens
      (Codec.u32.encAll e.lens ++ (Codec.u64.encAll e.path ++ post)) = e.lens := by
    rw [← e.lens_length, Codec.decAll_encAll]
  have hpath : Codec.u64.decAll e.raw.pathLen.toNat (Codec.u64.encAll e.path ++ post) = e.path := by
    rw [← e.path_length, Codec.decAll_encAll]
  have hlensLen : (Codec.u32.encAll e.lens).length = e.raw.nLens * 4 := by
    rw [Codec.length_encAll, e.lens_length]
    rfl
  have hcrc := e.crc_delivered
  unfold deliveredAt
  simp only [hdec, htail, hdata]
  rw [if_neg, if_neg (by omega), drop_left' e.length_data, hlens, drop_left' hlensLen,
    hpath, if_neg]
  · rfl
  · exact fun h => h hcrc.symm
  · simp only [not_or, not_lt]
    exact ⟨UInt8.not_lt.mpr e.op_le, e.path_le, e.recs_le⟩

theorem total_pos : 64 ≤ e.raw.total := by
  unfold RawRec.total
  omega

end Entry

/-! ## Pages -/

/-- The bytes of some entries, one behind the other. -/
def entryBytes (es : List Entry) : List UInt8 := es.flatMap Entry.bytes

/-- A page with some entries: zeros behind them. -/
def pageBytes (es : List Entry) : List UInt8 :=
  entryBytes es ++ List.replicate (pageSize - (entryBytes es).length) 0

theorem entryBytes_concat (es : List Entry) (e : Entry) :
    entryBytes (es ++ [e]) = entryBytes es ++ e.bytes := by
  simp [entryBytes]

theorem op_dec_zeros {n : Nat} (h : 0 < n) :
    (RawRec.codec.dec (List.replicate n 0)).op = 0 := by
  obtain ⟨m, rfl⟩ := Nat.exists_eq_succ_of_ne_zero (Nat.ne_of_gt h)
  rfl

theorem replayPage_from (es : List Entry) (pre : List UInt8)
    (hfit : (pre ++ entryBytes es).length ≤ pageSize) :
    replayPage (pre ++ (entryBytes es ++
        List.replicate (pageSize - (pre ++ entryBytes es).length) 0)) pre.length =
      (es.map Entry.delivered, pre.length == 0 && es.isEmpty) := by
  induction es generalizing pre with
  | nil =>
    simp only [entryBytes, flatMap_nil, List.append_nil, nil_append, map_nil,
      isEmpty_nil, Bool.and_true] at hfit ⊢
    rw [replayPage]
    split
    · rw [drop_left' rfl, op_dec_zeros (by omega), if_pos rfl]
    rename_i hend
    have hpos : pre.length ≠ 0 := by
      intro h0
      simp [h0, pageSize] at hend
    simp [hpos]
  | cons e es ih =>
    have hbytes : entryBytes (e :: es) = e.bytes ++ entryBytes es := by simp [entryBytes]
    have hlen := e.length_bytes
    have hpos := e.total_pos
    rw [hbytes, length_append, length_append] at hfit
    have hroom : pre.length + e.raw.total ≤ pageSize := by omega
    have hat := e.deliveredAt_eq pre
      (entryBytes es ++ List.replicate (pageSize - (pre ++ entryBytes (e :: es)).length) 0) hroom
    have hop : (RawRec.codec.dec ((pre ++ (e.bytes ++ (entryBytes es ++
        List.replicate (pageSize - (pre ++ entryBytes (e :: es)).length) 0))).drop
        pre.length)).op ≠ 0 := by
      rw [drop_left' rfl, Entry.bytes, List.append_assoc, Codec.dec_enc]
      exact e.op_pos
    -- the scan goes on behind the entry
    have hrest := ih (pre ++ e.bytes) (by
      rw [length_append, length_append]
      omega)
    have hoff : pre.length + e.raw.total = (pre ++ e.bytes).length := by
      rw [length_append, hlen]
    have hne : ((pre ++ e.bytes).length == 0) = false := by
      rw [← hoff]
      simp only [beq_eq_false_iff_ne, ne_eq]
      omega
    rw [hbytes, List.append_assoc, ← hbytes, replayPage, if_pos (by omega), if_neg hop, hat]
    simp only [Entry.delivered] at hoff ⊢
    rw [hoff, ← List.append_assoc pre, hbytes, ← List.append_assoc pre, hrest, hne]
    simp [Entry.delivered]

theorem replayPage_eq {es : List Entry} (hfit : (entryBytes es).length ≤ pageSize) :
    replayPage (pageBytes es) 0 = (es.map Entry.delivered, es.isEmpty) := by
  have h := replayPage_from es [] (by simpa using hfit)
  simpa [pageBytes] using h

/-- Replay is the reader of the log. -/
theorem replayPages_eq {pages : Nat → List UInt8} {log : Nat → List Entry} (p n : Nat)
    (h : ∀ q, p ≤ q → q < p + n →
      pages q = pageBytes (log q) ∧ (entryBytes (log q)).length ≤ pageSize) :
    replayPages pages p n = (PagedLog.readFrom log p n).map Entry.delivered := by
  induction n generalizing p with
  | zero => rfl
  | succ n ih =>
    obtain ⟨hpage, hfit⟩ := h p (Nat.le_refl p) (by omega)
    have hrest := ih (p + 1) fun q h1 h2 => h q (by omega) (by omega)
    rw [replayPages, hpage, replayPage_eq hfit, PagedLog.readFrom]
    cases hlog : log p with
    | nil => rfl
    | cons e es => simp [hrest]

/-! ## Calls -/

/-- The arguments of a call are in their ranges. -/
structure CallOk (r : RawRec) (dataCrc : UInt32) (lens : Option (List UInt32))
    (path : Option (List UInt64)) : Prop where
  op_pos : r.op ≠ 0
  op_le : r.op ≤ jopTrim
  path_le : r.pathLen.toNat ≤ 256
  recs_le : r.nRecs.toNat ≤ maxLayersCap
  lens_length : r.nLens ≤ (lens.getD []).length
  path_length : r.pathLen.toNat ≤ (path.getD []).length
  no_data : r.op ≠ jopPut → dataCrc = 0

theorem jrecCrc_take {r : RawRec} {dataCrc : UInt32} {lens : Option (List UInt32)}
    {path : Option (List UInt64)} (h : CallOk r dataCrc lens path) :
    jrecCrc r dataCrc (some ((lens.getD []).take r.nLens))
      (some ((path.getD []).take r.pathLen.toNat)) = jrecCrc r dataCrc lens path := by
  have hl : lens = none → r.nLens = 0 := by
    rintro rfl
    simpa using h.lens_length
  have hp : path = none → r.pathLen = 0 := by
    rintro rfl
    have := h.path_length
    exact UInt16.toNat_inj.mp (by simpa using this)
  have hlens : (lens.isSome ∧ r.nLens ≠ 0) ↔ r.nLens ≠ 0 := by
    cases lens <;> simp_all
  have hpath : (path.isSome ∧ r.pathLen ≠ 0) ↔ r.pathLen ≠ 0 := by
    cases path <;> simp_all
  unfold jrecCrc
  simp only [Option.isSome_some, true_and, Option.getD_some, take_take, min_self, hlens, hpath]

section Calls

variable (j : RawJournal) {r : RawRec} {dataCrc : UInt32} {lens : Option (List UInt32)}
variable {path : Option (List UInt64)}

/-- The entry a call writes. -/
def callEntry (h : CallOk r dataCrc lens path) : Entry where
  raw := j.complete r dataCrc lens path
  dataCrc := dataCrc
  lens := (lens.getD []).take r.nLens
  path := (path.getD []).take r.pathLen.toNat
  op_pos := h.op_pos
  op_le := h.op_le
  path_le := h.path_le
  recs_le := h.recs_le
  lens_length := List.length_take_of_le h.lens_length
  path_length := List.length_take_of_le h.path_length
  no_data := h.no_data
  crc := by
    have hdev : CallOk { r with devId := UInt16.ofNat j.devId, crc32 := 0 } dataCrc lens path :=
      ⟨h.op_pos, h.op_le, h.path_le, h.recs_le, h.lens_length, h.path_length, h.no_data⟩
    exact (jrecCrc_take hdev).symm.trans (jrecCrc_crc32 _ _ _ _ _).symm

theorem total_callEntry_le (h : CallOk r dataCrc lens path) :
    (callEntry j h).raw.total ≤ pageSize := by
  have hn : (callEntry j h).raw.nLens ≤ 256 := by
    have := (callEntry j h).recs_le
    unfold maxLayersCap at this
    unfold RawRec.nLens
    split
    · omega
    · split <;> omega
  have hp := (callEntry j h).path_le
  unfold RawRec.total RawRec.dlen pageSize
  split <;> omega

theorem copy_callEntry (j' : RawJournal) (h : CallOk r dataCrc lens path)
    (hoff : j'.curOff ≤ j'.stage.length) :
    j'.copy (j.complete r dataCrc lens path) dataCrc lens path =
      { j' with
        stage := overwrite j'.stage j'.curOff (callEntry j h).bytes
        curOff := j'.curOff + (callEntry j h).raw.total } := by
  have hlens : (if r.nLens ≠ 0 ∧ lens.isSome then
      Codec.u32.encAll ((lens.getD []).take r.nLens) else []) =
      Codec.u32.encAll ((lens.getD []).take r.nLens) := by
    split
    · rfl
    · rename_i hc
      cases lens <;> simp_all [Codec.encAll]
  have hpath : (if r.pathLen ≠ 0 ∧ path.isSome then
      Codec.u64.encAll ((path.getD []).take r.pathLen.toNat) else []) =
      Codec.u64.encAll ((path.getD []).take r.pathLen.toNat) := by
    split
    · rfl
    · rename_i hc
      cases path <;> simp_all [Codec.encAll]
  -- each copy starts where the one before it ended, also when it copies nothing
  have hcopy : ∀ raw : RawRec, raw.nLens = r.nLens → raw.pathLen = r.pathLen →
      j'.copy raw dataCrc lens path =
        { j' with
          stage := overwrite j'.stage j'.curOff (RawRec.codec.enc raw ++
            ((if raw.dlen ≠ 0 then Codec.u32.enc dataCrc else []) ++
              (Codec.u32.encAll ((lens.getD []).take r.nLens) ++
                Codec.u64.encAll ((path.getD []).take r.pathLen.toNat))))
          curOff := j'.curOff + raw.total } := by
    intro raw hn hp
    unfold RawJournal.copy
    simp only [copyTo_if hoff, hn, hp, hlens, hpath]
    simp only [copyTo, List.append_assoc]
  exact hcopy _ rfl rfl

end Calls

/-! ## The journal as a log of entries -/

/-- The pages and the stage are the bytes of the log. -/
structure Holds (j : RawJournal) (log : PagedLog Entry) : Prop where
  pages : ∀ p < j.journalPages, j.pages p = pageBytes (log.pages p)
  fit : ∀ p, (entryBytes (log.pages p)).length ≤ pageSize
  stage : j.stage = pageBytes log.stage
  stageFit : (entryBytes log.stage).length ≤ pageSize
  curPage : j.curPage = log.curPage
  curOff : j.curOff = (entryBytes log.stage).length
  tracks : log.Tracks j.journalPages

theorem entryBytes_eq_nil_iff {es : List Entry} : (entryBytes es).length = 0 ↔ es = [] := by
  cases es with
  | nil => simp [entryBytes]
  | cons e es =>
    have hpos := e.total_pos
    have hlen := e.length_bytes
    simp only [entryBytes, flatMap_cons, length_append, reduceCtorEq, iff_false]
    omega

section Holds

variable {j : RawJournal} {log : PagedLog Entry}

theorem Holds.reset (j : RawJournal) : Holds j.reset ⟨fun _ => [], 0, []⟩ where
  pages p hp := by
    have hp : p < j.journalPages := hp
    simp [RawJournal.reset, hp, RawJournal.zeroPage, pageBytes, entryBytes]
  fit p := by simp [entryBytes]
  stage := by simp [RawJournal.reset, RawJournal.zeroPage, pageBytes, entryBytes]
  stageFit := by simp [entryBytes]
  curPage := rfl
  curOff := rfl
  tracks := PagedLog.tracks_of_empty _ _ (fun _ => rfl) rfl rfl

/-- Replay delivers what the log's reader finds. -/
theorem Holds.replay (h : Holds j log) :
    journalReplay j = (log.read j.journalPages).map Entry.delivered :=
  replayPages_eq 0 j.journalPages fun q _ hq => ⟨h.pages q (by omega), h.fit q⟩

theorem Holds.curOff_eq_zero_iff (h : Holds j log) : j.curOff = 0 ↔ log.stage = [] := by
  rw [h.curOff]
  exact entryBytes_eq_nil_iff

theorem Holds.writePage (h : Holds j log) :
    Holds { j with pages := update j.pages j.curPage j.stage } log.flush where
  pages p hp := by
    simp only [PagedLog.flush, h.curPage, update_apply]
    split
    · exact h.stage
    · exact h.pages p hp
  fit p := by
    simp only [PagedLog.flush, update_apply]
    split
    · exact h.stageFit
    · exact h.fit p
  stage := h.stage
  stageFit := h.stageFit
  curPage := h.curPage
  curOff := h.curOff
  tracks := h.tracks.flush

theorem Holds.flush_eq_self (h : Holds j log) (hoff : j.curOff = 0) : log.flush = log := by
  have hstage := h.curOff_eq_zero_iff.mp hoff
  have hcur : log.pages log.curPage = [] := by
    have := h.tracks.cur
    rw [hstage] at this
    exact prefix_nil.mp this
  unfold PagedLog.flush
  rw [hstage, ← hcur, update_eq_self, hcur, ← hstage]

/-- A flush makes everything durable. -/
theorem Holds.flush (h : Holds j log) : Holds j.flush log.flush := by
  unfold RawJournal.flush
  split
  · rename_i hoff
    rw [h.flush_eq_self hoff]
    exact h
  · exact h.writePage

theorem nextPage_eq (hoff : j.curOff ≠ 0) : j.nextPage = { j with
    pages := update j.pages j.curPage j.stage
    curPage := j.curPage + 1
    curOff := 0
    stage := RawJournal.zeroPage } := by
  unfold RawJournal.nextPage RawJournal.flush
  rw [if_neg hoff]

theorem Holds.nextPage (h : Holds j log) (hoff : j.curOff ≠ 0) (hcap : j.curPage < j.journalPages) :
    Holds j.nextPage log.advance := by
  have hw := h.writePage
  have hstage : log.stage ≠ [] := fun hs => hoff (h.curOff_eq_zero_iff.mpr hs)
  rw [nextPage_eq hoff]
  refine ⟨hw.pages, hw.fit, ?_, ?_, ?_, rfl, h.tracks.advance hstage (h.curPage ▸ hcap)⟩
  · simp [PagedLog.advance, RawJournal.zeroPage, pageBytes, entryBytes]
  · simp [PagedLog.advance, entryBytes]
  · simp [PagedLog.advance, PagedLog.flush, h.curPage]

theorem Holds.copy {j₀ : RawJournal} (h : Holds j log) {r : RawRec} {dataCrc : UInt32}
    {lens : Option (List UInt32)} {path : Option (List UInt64)} (hc : CallOk r dataCrc lens path)
    (hroom : j.curOff + (callEntry j₀ hc).raw.total ≤ pageSize)
    (hcap : j.curPage < j.journalPages) :
    Holds (j.copy (j₀.complete r dataCrc lens path) dataCrc lens path)
      (log.push (callEntry j₀ hc)) := by
  have hlen : (entryBytes (log.stage ++ [callEntry j₀ hc])).length =
      j.curOff + (callEntry j₀ hc).raw.total := by
    rw [entryBytes_concat, length_append, Entry.length_bytes, h.curOff]
  rw [copy_callEntry j₀ j hc (by
    rw [h.stage, h.curOff, pageBytes, length_append]
    omega)]
  refine ⟨h.pages, h.fit, ?_, ?_, h.curPage, hlen.symm, h.tracks.push _ (h.curPage ▸ hcap)⟩
  · simp only [PagedLog.push]
    rw [h.stage, h.curOff, pageBytes, overwrite_zeros, pageBytes, entryBytes_concat,
      length_append, Nat.sub_sub]
  · simp only [PagedLog.push]
    omega

/-- The ways of an append on bytes. -/
inductive CallCase (j : RawJournal) (log : PagedLog Entry) (e : Entry) :
    RawJournal × JRc → PagedLog Entry → Prop
  | full (hcap : j.journalPages ≤ j.curPage) :
      CallCase j log e ({ j with dropped := j.dropped + 1 }, .efull) log
  | nextFull (hcap : j.curPage < j.journalPages) (hpage : pageSize < j.curOff + e.raw.total)
      (hend : j.journalPages ≤ j.curPage + 1) (hoff : j.curOff ≠ 0) :
      CallCase j log e ({ j.nextPage with dropped := j.dropped + 1 }, .efull) log.advance
  | next (hcap : j.curPage + 1 < j.journalPages) (hpage : pageSize < j.curOff + e.raw.total)
      (hoff : j.curOff ≠ 0) (j' : RawJournal) (hj' : j' = { j.nextPage with
        stage := j'.stage, curOff := e.raw.total }) :
      CallCase j log e (j', .ok) (log.advance.push e)
  | stage (hcap : j.curPage < j.journalPages) (hroom : j.curOff + e.raw.total ≤ pageSize)
      (j' : RawJournal) (hj' : j' = { j with
        stage := j'.stage, curOff := j.curOff + e.raw.total }) :
      CallCase j log e (j', .ok) (log.push e)

theorem Holds.append_cases (h : Holds j log) {r : RawRec} {dataCrc : UInt32}
    {lens : Option (List UInt32)} {path : Option (List UInt64)}
    (hc : CallOk r dataCrc lens path) :
    ∃ log', Holds (j.append r dataCrc lens path).1 log' ∧
      CallCase j log (callEntry j hc) (j.append r dataCrc lens path) log' := by
  have htotal := total_callEntry_le j hc
  have hsame : (j.complete r dataCrc lens path).total = (callEntry j hc).raw.total := rfl
  unfold RawJournal.append
  simp only [hsame]
  rw [if_neg (by omega)]
  split
  · rename_i hcap
    exact ⟨log, ⟨h.pages, h.fit, h.stage, h.stageFit, h.curPage, h.curOff, h.tracks⟩, .full hcap⟩
  rename_i hcap
  split
  · rename_i hpage
    have hoff : j.curOff ≠ 0 := by omega
    have hnext := h.nextPage hoff (by omega)
    have hcur : j.nextPage.curPage = j.curPage + 1 := by rw [nextPage_eq hoff]
    have hpages : j.nextPage.journalPages = j.journalPages := by rw [nextPage_eq hoff]
    have hdrop : j.nextPage.dropped = j.dropped := by rw [nextPage_eq hoff]
    have hzero : j.nextPage.curOff = 0 := rfl
    split
    · rw [hdrop]
      exact ⟨log.advance, ⟨hnext.pages, hnext.fit, hnext.stage, hnext.stageFit, hnext.curPage,
        hnext.curOff, hnext.tracks⟩, .nextFull (by omega) hpage (by omega) hoff⟩
    refine ⟨log.advance.push (callEntry j hc), hnext.copy hc (by omega) (by omega),
      .next (by omega) hpage hoff _ ?_⟩
    simp only [RawJournal.copy, hzero, Nat.zero_add]
    rfl
  · exact ⟨log.push (callEntry j hc), h.copy hc (by omega) (by omega),
      .stage (by omega) (by omega) _ rfl⟩

theorem CallCase.contents (h : Holds j log) {e : Entry} {res : RawJournal × JRc} {log' : PagedLog Entry}
    (hcase : CallCase j log e res log') :
    res.1.journalPages = j.journalPages ∧
    log'.appended = (if res.2 = .ok then log.appended ++ [e] else log.appended) ∧
    log'.read j.journalPages =
      if res.1.curPage ≠ j.curPage then log.appended else log.read j.journalPages := by
  have hread : j.curOff ≠ 0 → j.curPage < j.journalPages →
      log.advance.read j.journalPages = log.appended := by
    intro hoff hcap
    exact h.tracks.read_advance (fun hs => hoff (h.curOff_eq_zero_iff.mpr hs)) (h.curPage ▸ hcap)
  cases hcase with
  | full hcap => simp
  | nextFull hcap hpage hend hoff => simp [nextPage_eq hoff, hread hoff hcap]
  | next hcap hpage hoff j' hj' =>
    rw [hj']
    have hadv : (log.advance.push e).read j.journalPages = log.appended := hread hoff (by omega)
    simp [nextPage_eq hoff, hadv]
  | stage hcap hroom j' hj' =>
    rw [hj']
    refine ⟨rfl, PagedLog.appended_push .., ?_⟩
    exact (if_neg (not_not.2 rfl)).symm

end Holds

/-! ## Runs -/

/-- A call whose arrays are as long as their counts. -/
def JournalOpOk : JournalOp → Prop
  | .put a => a.pathLen.toNat ≤ 256 ∧ a.nRecs.toNat ≤ 256 ∧
      a.rawRec.nLens ≤ (a.recLens.getD []).length ∧ a.pathLen.toNat ≤ (a.path.getD []).length
  | _ => True

theorem callOk_put {a : JournalPutArgs} (h : JournalOpOk (.put a)) :
    CallOk a.rawRec ((a.addr.map (·.crc)).getD 0) a.recLens a.path := by
  obtain ⟨hcap, hrecs, hlens, hpath⟩ := h
  have hlen : a.rawRec.pathLen.toNat = a.pathLen.toNat := by
    have : a.rawRec.pathLen = a.pathLen.toUInt16 := by
      cases haddr : a.addr <;> simp [JournalPutArgs.rawRec]
    rw [this, UInt32.toNat_toUInt16, Nat.mod_eq_of_lt (by omega)]
  have hop : a.rawRec.op = jopPut := by
    cases haddr : a.addr <;> simp [JournalPutArgs.rawRec, haddr]
  exact ⟨by rw [hop]; decide, by rw [hop]; decide, by omega, hrecs, hlens, by omega,
    fun hne => absurd hop hne⟩

theorem callOk_del (prefixId : UInt64) (groupIdx : UInt32) :
    CallOk (rawDelRec prefixId groupIdx) 0 none none := by
  refine ⟨by simp [rawDelRec, jopDel], by simp [rawDelRec, jopDel, jopTrim], ?_, ?_, ?_, ?_, ?_⟩ <;>
    simp [rawDelRec, RawRec.zero, RawRec.nLens, jopDel, jopPut]

theorem callOk_trim (regionIdx : UInt32) (epoch : UInt64) :
    CallOk (rawTrimRec regionIdx epoch) 0 none none := by
  refine ⟨by simp [rawTrimRec, jopTrim], by simp [rawTrimRec], ?_, ?_, ?_, ?_, ?_⟩ <;>
    simp [rawTrimRec, RawRec.zero, RawRec.nLens, jopTrim, jopPut]

theorem recordOf_eq (j : RawJournal) {r : RawRec} {dataCrc : UInt32} {lens : Option (List UInt32)}
    {path : Option (List UInt64)} (hc : CallOk r dataCrc lens path) :
    recordOf (j.complete r dataCrc lens path) dataCrc lens path = (callEntry j hc).delivered := by
  unfold recordOf Entry.delivered
  simp only [ne_eq, ite_not]
  rfl

/-- What is known of a journal and the records it accepted. -/
def TracedOk (t : Traced) : Prop :=
  ∃ log, Holds t.j log ∧ t.accepted = log.appended.map Entry.delivered ∧
    t.durable = (log.read t.j.journalPages).map Entry.delivered

theorem TracedOk.call {t : Traced} (h : TracedOk t) {r : RawRec} {dataCrc : UInt32}
    {lens : Option (List UInt32)} {path : Option (List UInt64)} (hc : CallOk r dataCrc lens path)
    {op : JournalOp} (hop : op ≠ .flush) (hexec : op.exec t.j = t.j.append r dataCrc lens path)
    (hrec : op.records t.j = [recordOf (t.j.complete r dataCrc lens path) dataCrc lens path]) :
    TracedOk (t.step op) := by
  obtain ⟨log, hj, hacc, hdur⟩ := h
  obtain ⟨log', hj', hcase⟩ := hj.append_cases hc
  obtain ⟨hpages, happ, hread⟩ := hcase.contents hj
  rw [recordOf_eq t.j hc] at hrec
  refine ⟨log', ?_, ?_, ?_⟩
  · simpa only [Traced.step, hexec] using hj'
  · simp only [Traced.step, hexec, hrec, happ, hacc]
    split
    · rw [map_append]
      rfl
    · rfl
  simp only [Traced.step, hexec, hop, false_or]
  rw [hpages, hread]
  split
  · exact hacc
  · exact hdur

/-- Every call keeps it. -/
theorem TracedOk.step {t : Traced} (h : TracedOk t) {op : JournalOp} (hop : JournalOpOk op) :
    TracedOk (t.step op) := by
  cases op with
  | put a =>
    exact h.call (callOk_put hop) (by simp) rfl rfl
  | del prefixId groupIdx => exact h.call (callOk_del prefixId groupIdx) (by simp) rfl rfl
  | trim regionIdx epoch => exact h.call (callOk_trim regionIdx epoch) (by simp) rfl rfl
  | flush =>
    obtain ⟨log, hj, hacc, hdur⟩ := h
    have hpages : t.j.flush.journalPages = t.j.journalPages := by
      unfold RawJournal.flush
      split <;> rfl
    refine ⟨log.flush, hj.flush, ?_, ?_⟩
    · simp [Traced.step, JournalOp.exec, JournalOp.records, hacc]
    · simp only [Traced.step, JournalOp.exec, true_or, if_true]
      rw [hpages, hj.tracks.read_flush]
      exact hacc

/-- After a crash, replay delivers exactly the records that were accepted up to the last flush or
page advance, in order and as they were given, for every sequence of calls on a journal that was
reset. -/
theorem replay_delivers_durable (j : RawJournal) (ops : List JournalOp)
    (hops : ∀ op ∈ ops, JournalOpOk op) :
    journalReplay (ops.foldl Traced.step ⟨j.reset, [], []⟩).j.reinit =
      (ops.foldl Traced.step ⟨j.reset, [], []⟩).durable := by
  have hstart : TracedOk ⟨j.reset, [], []⟩ :=
    ⟨_, Holds.reset j, by simp [PagedLog.appended], by
      rw [PagedLog.read_of_first_empty _ _ rfl]
      rfl⟩
  have hrun : ∀ t, TracedOk t → TracedOk (ops.foldl Traced.step t) := by
    induction ops with
    | nil => exact fun t ht => ht
    | cons op ops ih =>
      intro t ht
      exact ih (fun op' h' => hops op' (by simp [h'])) _ (ht.step (hops op (by simp)))
  obtain ⟨log, hj, _, hdur⟩ := hrun _ hstart
  rw [hdur]
  exact hj.replay

def sampleCalls : List JournalOp :=
  [.put ⟨5, 1, 9, some ⟨0, 70, 2, 77⟩, 0, 0, 0, 0, some [100, 200], 2, 300, some [7, 8], 2⟩, .flush,
    .del 5 1, .trim 3 1]

theorem sampleCalls_ok : ∀ op ∈ sampleCalls, JournalOpOk op := by
  intro op hop
  simp only [sampleCalls, mem_cons, not_mem_nil, or_false] at hop
  rcases hop with rfl | rfl | rfl | rfl
  · exact ⟨by decide, by decide, by decide, by decide⟩
  all_goals trivial

/-- Of three records that were accepted, the one before the flush is replayed. -/
theorem replay_after_flush :
    journalReplay (sampleCalls.foldl Traced.step
        ⟨RawJournal.reset ⟨0, 4, fun _ => [], 0, 0, [], 0⟩, [], []⟩).j.reinit =
      (sampleCalls.foldl Traced.step
        ⟨RawJournal.reset ⟨0, 4, fun _ => [], 0, 0, [], 0⟩, [], []⟩).durable ∧
    (sampleCalls.foldl Traced.step
        ⟨RawJournal.reset ⟨0, 4, fun _ => [], 0, 0, [], 0⟩, [], []⟩).durable.length = 1 ∧
    (sampleCalls.foldl Traced.step
        ⟨RawJournal.reset ⟨0, 4, fun _ => [], 0, 0, [], 0⟩, [], []⟩).accepted.length = 3 :=
  ⟨replay_delivers_durable _ _ sampleCalls_ok, by decide +kernel, by decide +kernel⟩

end KvTier.Analysis
