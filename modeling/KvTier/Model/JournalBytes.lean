import KvTier.Lib.Codec
import KvTier.Model.Journal
import KvTier.Model.Payload

/-!
# The journal of one device, byte by byte

`journal.cpp` on the bytes of its pages: the packed records with their checksums, the staged page
records are copied into, the page that is rewritten in place as it fills, and the scan of
`journal_replay` over what is on the device.
-/

namespace KvTier.Model

open KvTier.Lib

/-! ## Records -/

/-- `struct journal_rec` (journal.hpp:22-41). -/
structure RawRec where
  op : UInt8
  pad : UInt8
  devId : UInt16
  prefixId : UInt64
  groupIdx : UInt32
  ver : UInt32
  addrDev : UInt32
  addrPage : UInt64
  addrOff : UInt32
  addrLen : UInt32
  stripeIdx : UInt32
  stripeCnt : UInt32
  flags : UInt32
  expireTs : UInt32
  crc32 : UInt32
  pathLen : UInt16
  nRecs : UInt16
deriving DecidableEq, Repr

/-- A record as `memset` leaves it. -/
def RawRec.zero : RawRec := ⟨0, 0, 0, 0, 0, 0, 0, 0, 0, 0, 0, 0, 0, 0, 0, 0, 0⟩

/-- The layout of a record: packed, in the order of its fields (journal.hpp:20-41). -/
def RawRec.codec : Codec RawRec :=
  (.pair .u8 <| .pair .u8 <| .pair .u16 <| .pair .u64 <| .pair .u32 <| .pair .u32 <|
    .pair .u32 <| .pair .u64 <| .pair .u32 <| .pair .u32 <| .pair .u32 <| .pair .u32 <|
    .pair .u32 <| .pair .u32 <| .pair .u32 <| .pair .u16 .u16 : Codec _).iso
  (fun (op, pad, devId, prefixId, groupIdx, ver, addrDev, addrPage, addrOff, addrLen, stripeIdx,
      stripeCnt, flags, expireTs, crc32, pathLen, nRecs) =>
    ⟨op, pad, devId, prefixId, groupIdx, ver, addrDev, addrPage, addrOff, addrLen, stripeIdx,
      stripeCnt, flags, expireTs, crc32, pathLen, nRecs⟩)
  (fun r => (r.op, r.pad, r.devId, r.prefixId, r.groupIdx, r.ver, r.addrDev, r.addrPage,
    r.addrOff, r.addrLen, r.stripeIdx, r.stripeCnt, r.flags, r.expireTs, r.crc32, r.pathLen,
    r.nRecs))
  (fun _ => rfl)

/-- `KV_JOP_PUT` (kvtier.h:54). -/
def jopPut : UInt8 := 1

/-- `KV_JOP_DEL` (kvtier.h:55). -/
def jopDel : UInt8 := 2

/-- `KV_JOP_TRIM` (kvtier.h:56). -/
def jopTrim : UInt8 := 3

/-- `KV_JFLAG_UNIFORM` (journal.hpp:18). -/
def jflagUniform : UInt32 := (1 : UInt32) <<< 10

/-- `jrec_n_lens` (journal.cpp:28-32). -/
def RawRec.nLens (r : RawRec) : Nat :=
  if r.op ≠ jopPut ∨ r.nRecs = 0 then 0
  else if r.flags &&& jflagUniform ≠ 0 then 1 else r.nRecs.toNat

/-- The bytes of the data checksum behind a record (journal.cpp:72). -/
def RawRec.dlen (r : RawRec) : Nat := if r.op = jopPut then 4 else 0

/-- The bytes a record takes in its page (journal.cpp:71-74). -/
def RawRec.total (r : RawRec) : Nat := 64 + r.dlen + r.nLens * 4 + r.pathLen.toNat * 8

/-- `jrec_crc` (journal.cpp:34-46): all of the record but its checksum, then what follows it. -/
def jrecCrc (r : RawRec) (dataCrc : UInt32) (lens : Option (List UInt32))
    (path : Option (List UInt64)) : UInt32 :=
  let crc := crc32Partial 0 ((RawRec.codec.enc r).take 56)
  let crc := crc32Partial crc (((RawRec.codec.enc r).drop 60).take 4)
  let crc := if r.op = jopPut then crc32Partial crc (Codec.u32.enc dataCrc) else crc
  let crc :=
    if lens.isSome ∧ r.nLens ≠ 0 then
      crc32Partial crc (Codec.u32.encAll ((lens.getD []).take r.nLens))
    else crc
  let crc :=
    if path.isSome ∧ r.pathLen ≠ 0 then
      crc32Partial crc (Codec.u64.encAll ((path.getD []).take r.pathLen.toNat))
    else crc
  ⟨crc⟩

/-! ## Appending -/

/-- `struct journal` (journal.hpp:83-93) with the pages of its area on the device. -/
structure RawJournal where
  devId : Nat
  journalPages : Nat
  pages : Nat → List UInt8
  curPage : Nat
  curOff : Nat
  stage : List UInt8
  dropped : Nat

namespace RawJournal

/-- A page of zeros. -/
def zeroPage : List UInt8 := List.replicate pageSize 0

/-- `journal_flush_page` and `journal_flush` (journal.cpp:48-53, 216-219). -/
def flush (j : RawJournal) : RawJournal :=
  if j.curOff = 0 then j else { j with pages := Function.update j.pages j.curPage j.stage }

/-- `journal_next_page` (journal.cpp:55-63). -/
def nextPage (j : RawJournal) : RawJournal :=
  let j := j.flush
  { j with curPage := j.curPage + 1, curOff := 0, stage := zeroPage }

/-- The record as `journal_append` completes it (journal.cpp:67-69). -/
def complete (j : RawJournal) (r : RawRec) (dataCrc : UInt32) (lens : Option (List UInt32))
    (path : Option (List UInt64)) : RawRec :=
  let r := { r with devId := UInt16.ofNat j.devId, crc32 := 0 }
  { r with crc32 := jrecCrc r dataCrc lens path }

/-- The copies of `journal_append` into the staged page (journal.cpp:90-103). -/
def copy (j : RawJournal) (r : RawRec) (dataCrc : UInt32) (lens : Option (List UInt32))
    (path : Option (List UInt64)) : RawJournal :=
  let dst := copyTo (j.stage, j.curOff) (RawRec.codec.enc r)
  let dst := if r.dlen ≠ 0 then copyTo dst (Codec.u32.enc dataCrc) else dst
  let dst :=
    if r.nLens ≠ 0 ∧ lens.isSome then
      copyTo dst (Codec.u32.encAll ((lens.getD []).take r.nLens))
    else dst
  let dst :=
    if r.pathLen ≠ 0 ∧ path.isSome then
      copyTo dst (Codec.u64.encAll ((path.getD []).take r.pathLen.toNat))
    else dst
  { j with stage := dst.1, curOff := j.curOff + r.total }

/-- `journal_append` (journal.cpp:65-106). -/
def append (j : RawJournal) (r : RawRec) (dataCrc : UInt32) (lens : Option (List UInt32))
    (path : Option (List UInt64)) : RawJournal × JRc :=
  let r := j.complete r dataCrc lens path
  if pageSize < r.total then (j, .einval)
  else if j.journalPages ≤ j.curPage then ({ j with dropped := j.dropped + 1 }, .efull)
  else if pageSize < j.curOff + r.total then
    let j := j.nextPage
    if j.journalPages ≤ j.curPage then ({ j with dropped := j.dropped + 1 }, .efull)
    else (j.copy r dataCrc lens path, .ok)
  else (j.copy r dataCrc lens path, .ok)

/-- `journal_reset` (journal.cpp:201-214). -/
def reset (j : RawJournal) : RawJournal :=
  { j with
    pages := fun p => if p < j.journalPages then zeroPage else j.pages p
    curPage := 0
    curOff := 0
    stage := zeroPage }

/-- `journal_init` on the same area in a later process (journal.cpp:9-19): what was staged is lost.
-/
def reinit (j : RawJournal) : RawJournal :=
  { j with curPage := 0, curOff := 0, stage := zeroPage, dropped := 0 }

end RawJournal

/-- The part of a `kv_addr` that `journal_put` reads (radix.hpp:17-25). -/
structure RawAddr where
  devId : UInt32
  pageNo : UInt64
  lenPages : UInt32
  crc : UInt32
deriving DecidableEq, Repr

/-- The arguments of `journal_put` (journal.cpp:108-112). -/
structure JournalPutArgs where
  prefixId : UInt64
  groupIdx : UInt32
  ver : UInt32
  addr : Option RawAddr
  expireTs : UInt32
  stripeIdx : UInt32
  stripeCnt : UInt32
  flags : UInt32
  recLens : Option (List UInt32)
  nRecs : UInt16
  dataLen : UInt32
  path : Option (List UInt64)
  pathLen : UInt32
deriving DecidableEq, Repr

/-- The record of `journal_put` (journal.cpp:113-130). -/
def JournalPutArgs.rawRec (a : JournalPutArgs) : RawRec :=
  let r := { RawRec.zero with
    op := jopPut
    prefixId := a.prefixId
    groupIdx := a.groupIdx
    ver := a.ver
    expireTs := a.expireTs }
  let r := match a.addr with
    | some addr => { r with
        addrDev := addr.devId
        addrPage := addr.pageNo
        addrOff := a.dataLen
        addrLen := addr.lenPages }
    | none => r
  { r with
    stripeIdx := a.stripeIdx
    stripeCnt := a.stripeCnt
    flags := a.flags
    pathLen := a.pathLen.toUInt16
    nRecs := a.nRecs }

/-- `journal_put` (journal.cpp:108-133). -/
def journalPut (j : RawJournal) (a : JournalPutArgs) : RawJournal × JRc :=
  j.append a.rawRec ((a.addr.map (·.crc)).getD 0) a.recLens a.path

/-- The record of `journal_del` (journal.cpp:136-140). -/
def rawDelRec (prefixId : UInt64) (groupIdx : UInt32) : RawRec :=
  { RawRec.zero with op := jopDel, prefixId := prefixId, groupIdx := groupIdx }

/-- `journal_del` (journal.cpp:135-143). -/
def journalDel (j : RawJournal) (prefixId : UInt64) (groupIdx : UInt32) : RawJournal × JRc :=
  j.append (rawDelRec prefixId groupIdx) 0 none none

/-- The record of `journal_trim` (journal.cpp:146-150). -/
def rawTrimRec (regionIdx : UInt32) (epoch : UInt64) : RawRec :=
  { RawRec.zero with
    op := jopTrim
    addrPage := regionIdx.toUInt64
    addrLen := epoch.toUInt32 }

/-- `journal_trim` (journal.cpp:145-153). -/
def journalTrim (j : RawJournal) (regionIdx : UInt32) (epoch : UInt64) : RawJournal × JRc :=
  j.append (rawTrimRec regionIdx epoch) 0 none none

/-! ## Replay -/

/-- The arguments of one call of the replay callback (journal.hpp:107-110). -/
structure Delivered where
  raw : RawRec
  dataCrc : UInt32
  lens : Option (List UInt32)
  nLens : Nat
  dataLen : UInt32
  path : Option (List UInt64)
deriving DecidableEq, Repr

/-- What `journal_replay` finds at an offset of a page, if the record there is in order
(journal.cpp:169-191). -/
def deliveredAt (page : List UInt8) (off : Nat) : Option Delivered :=
  let r := RawRec.codec.dec (page.drop off)
  if jopTrim < r.op ∨ 256 < r.pathLen.toNat ∨ maxLayersCap < r.nRecs.toNat then none
  else if pageSize < off + r.total then none
  else
    let tail := page.drop (off + 64)
    let dataCrc := if r.dlen ≠ 0 then Codec.u32.dec tail else 0
    let tail := tail.drop r.dlen
    let lens := if r.nLens ≠ 0 then some (Codec.u32.decAll r.nLens tail) else none
    let tail := tail.drop (r.nLens * 4)
    let path := if r.pathLen ≠ 0 then some (Codec.u64.decAll r.pathLen.toNat tail) else none
    if r.crc32 ≠ jrecCrc r dataCrc lens path then none
    else some ⟨r, dataCrc, lens, r.nLens, r.addrOff, path⟩

/-- The records of one page from an offset on, and whether `journal_replay` returns there
(journal.cpp:161-195). -/
def replayPage (page : List UInt8) (off : Nat) : List Delivered × Bool :=
  if off + 64 ≤ pageSize then
    if (RawRec.codec.dec (page.drop off)).op = 0 then ([], off == 0)
    else match deliveredAt page off with
      | none => ([], true)
      | some d =>
        let (ds, stop) := replayPage page (off + d.raw.total)
        (d :: ds, stop)
  else ([], false)
termination_by pageSize - off
decreasing_by
  have : 64 ≤ d.raw.total := by unfold RawRec.total; omega
  omega

/-- `journal_replay` over `n` pages from page `p` on (journal.cpp:155-199): the calls of its
callback. -/
def replayPages (pages : Nat → List UInt8) : Nat → Nat → List Delivered
  | _, 0 => []
  | p, n + 1 =>
    let (ds, stop) := replayPage (pages p) 0
    if stop then ds else ds ++ replayPages pages (p + 1) n

/-- `journal_replay` (journal.cpp:155-199). -/
def journalReplay (j : RawJournal) : List Delivered := replayPages j.pages 0 j.journalPages

/-! ## Calls and what they leave -/

/-- A call on a journal. -/
inductive JournalOp where
  | put (a : JournalPutArgs)
  | del (prefixId : UInt64) (groupIdx : UInt32)
  | trim (regionIdx : UInt32) (epoch : UInt64)
  | flush
deriving DecidableEq, Repr

/-- The call itself. -/
def JournalOp.exec (j : RawJournal) : JournalOp → RawJournal × JRc
  | .put a => journalPut j a
  | .del prefixId groupIdx => journalDel j prefixId groupIdx
  | .trim regionIdx epoch => journalTrim j regionIdx epoch
  | .flush => (j.flush, .ok)

/-- The record of a call, with as much of its arrays as the record counts. -/
def recordOf (r : RawRec) (dataCrc : UInt32) (lens : Option (List UInt32))
    (path : Option (List UInt64)) : Delivered where
  raw := r
  dataCrc := dataCrc
  lens := if r.nLens = 0 then none else some ((lens.getD []).take r.nLens)
  nLens := r.nLens
  dataLen := r.addrOff
  path := if r.pathLen = 0 then none else some ((path.getD []).take r.pathLen.toNat)

/-- The record a call adds, if it is accepted. -/
def JournalOp.records (j : RawJournal) : JournalOp → List Delivered
  | .put a =>
    let dataCrc := (a.addr.map (·.crc)).getD 0
    [recordOf (j.complete a.rawRec dataCrc a.recLens a.path) dataCrc a.recLens a.path]
  | .del prefixId groupIdx =>
    [recordOf (j.complete (rawDelRec prefixId groupIdx) 0 none none) 0 none none]
  | .trim regionIdx epoch =>
    [recordOf (j.complete (rawTrimRec regionIdx epoch) 0 none none) 0 none none]
  | .flush => []

/-- A journal with the records it accepted, and those it had accepted at the last flush or page
advance. -/
structure Traced where
  j : RawJournal
  accepted : List Delivered
  durable : List Delivered

/-- A call, and what it adds to the two lists. -/
def Traced.step (t : Traced) (op : JournalOp) : Traced :=
  let (j, rc) := op.exec t.j
  { j := j
    accepted := if rc = .ok then t.accepted ++ op.records t.j else t.accepted
    durable := if op = .flush ∨ j.curPage ≠ t.j.curPage then t.accepted else t.durable }

end KvTier.Model
