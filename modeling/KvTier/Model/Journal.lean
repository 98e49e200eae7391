import KvTier.Lib.PagedLog
import KvTier.Model.Index

/-!
# The journal of one device

`journal.cpp` at the level of records: a journal page is the list of records it holds, a page of
zeros is the empty list, and the space a record takes is the size the code computes for it.
-/

namespace KvTier.Model

open KvTier.Lib

/-- `struct journal` (journal.hpp:83-93) with the pages of its area on the device. -/
structure Journal where
  devId : Nat
  journalPages : Nat
  log : PagedLog JournalRec
  curOff : Nat
  dropped : Nat

/-- The results of the journal calls. -/
inductive JRc where
  | ok
  | einval
  | efull
deriving DecidableEq, Repr

/-- `jrec_n_lens` (journal.cpp:28-32). -/
def jrecNLens (r : JournalRec) : Nat :=
  if r.op ≠ .put ∨ r.nRecs = 0 then 0 else if r.flags.uniform then 1 else r.nRecs

/-- The bytes a record takes in its page (journal.cpp:71-74). -/
def jrecTotal (r : JournalRec) : Nat :=
  64 + (if r.op = .put then 4 else 0) + jrecNLens r * 4 + r.path.length * 8

/-- `journal_flush` and `journal_flush_page` (journal.cpp:48-53, 216-219). -/
def journalFlush (j : Journal) : Journal :=
  if j.curOff = 0 then j else { j with log := j.log.flush }

/-- `journal_next_page` (journal.cpp:55-63). -/
def journalNextPage (j : Journal) : Journal :=
  let j := journalFlush j
  { j with
    log := { j.log with curPage := j.log.curPage + 1, stage := [] }
    curOff := 0 }

/-- The last part of `journal_append`: the record is copied into the staged page. -/
def journalStage (j : Journal) (r : JournalRec) : Journal :=
  { j with
    log := j.log.push { r with devId := j.devId }
    curOff := j.curOff + jrecTotal r }

/-- `journal_append` (journal.cpp:65-106). -/
def journalAppend (j : Journal) (r : JournalRec) : Journal × JRc :=
  if pageSize < jrecTotal r then (j, .einval)
  else if j.journalPages ≤ j.log.curPage then ({ j with dropped := j.dropped + 1 }, .efull)
  else if pageSize < j.curOff + jrecTotal r then
    let j := journalNextPage j
    if j.journalPages ≤ j.log.curPage then ({ j with dropped := j.dropped + 1 }, .efull)
    else (journalStage j r, .ok)
  else (journalStage j r, .ok)

/-- One page write of `journal_reset` (journal.cpp:205-209). -/
def journalResetPage (j : Journal) (p : Nat) : Journal := { j with log := j.log.wipe p }

/-- The end of `journal_reset`, after its page writes (journal.cpp:210-213). -/
def journalResetDone (j : Journal) : Journal := { j with log := j.log.rewind, curOff := 0 }

/-- `journal_reset` as a whole (journal.cpp:201-214). -/
def journalReset (j : Journal) : Journal :=
  journalResetDone ((List.range j.journalPages).foldl journalResetPage j)

/-- The records `journal_replay` delivers (journal.cpp:155-199). -/
def journalRead (j : Journal) : List JournalRec := j.log.read j.journalPages

/-- The records a journal was given since it was last reset. -/
def Journal.recs (j : Journal) : List JournalRec := j.log.appended

/-! ## The records the index writes -/

/-- Whether `leaf_journal` stores one length for all records (cache.cpp:252-257). -/
def uniformLens (lens : List Nat) : Bool := lens.all (· == lens.headD 0)

/-- The record of `leaf_journal` and `journal_put` (cache.cpp:241-276, journal.cpp:108-133). -/
def journalPutRec (a : PublishArgs) : JournalRec :=
  let lens := (a.shape.map (·.lens)).getD []
  let uni := !lens.isEmpty && uniformLens lens
  { op := .put
    devId := 0
    prefixId := a.prefixId
    groupIdx := a.groupIdx
    ver := a.ver
    addrDev := a.addr.devId
    addrPage := a.addr.pageNo
    addrOff := a.dataLen
    addrLen := a.addr.lenPages
    stripeIdx := if a.flags.stripe then a.stripeIdx else 0
    stripeCnt := if a.flags.stripe then a.stripeCnt else 0
    flags := { a.flags with slot1 := a.flags.slot1 || decide (a.slot = 1), uniform := uni }
    expireTs := a.addr.expireTs
    nRecs := lens.length
    dataCrc := a.addr.crc
    lens := if uni then [lens.headD 0] else lens
    path := a.path }

/-- The record of `journal_del` (journal.cpp:135-143). -/
def journalDelRec (prefixId : UInt64) (groupIdx : Nat) : JournalRec where
  op := .del
  devId := 0
  prefixId := prefixId
  groupIdx := groupIdx
  ver := 0
  addrDev := 0
  addrPage := 0
  addrOff := 0
  addrLen := 0
  stripeIdx := 0
  stripeCnt := 0
  flags := Flags.empty
  expireTs := 0
  nRecs := 0
  dataCrc := 0
  lens := []
  path := []

/-- The record of `journal_trim` (journal.cpp:145-153). -/
def journalTrimRec (regionIdx epoch : Nat) : JournalRec :=
  { journalDelRec 0 0 with op := .trim, addrPage := regionIdx, addrLen := epoch % 2 ^ 32 }

end KvTier.Model
