import Mathlib.Data.PNat.Basic
import KvTier.Model.Journal
import KvTier.Model.Writer

/-!
# Journals whose page writes fail

The journals of the devices with the result codes of `journal.cpp`, for any pattern of page writes
that fail: `write_pages` returns `-errno` then, and what the page holds afterwards is open.
-/

namespace KvTier.Model

open KvTier.Lib

/-- `KV_EOK` (kvtier.h:67). -/
def kvEok : Int := 0

/-- `KV_EFULL` (kvtier.h:75). -/
def kvEfull : Int := -8

/-- `KV_EINVAL` (kvtier.h:78). -/
def kvEinval : Int := -11

/-- What a page write does. One that fails leaves anything in its page. -/
inductive PageOutcome where
  | done
  | failed (errno : ℕ+) (left : List JournalRec)
deriving DecidableEq, Repr

/-- The result of `write_pages` (device.cpp:55-74). -/
def PageOutcome.rc : PageOutcome → Int
  | .done => kvEok
  | .failed errno _ => -(errno : Nat)

/-- A page write: the page of the device, the number of the first record, and the records. -/
structure PageWrite where
  page : Nat
  first : Nat
  recs : List JournalRec
  ok : Bool
deriving DecidableEq, Repr

/-- A journal, where its area is on the device, and its page writes. -/
structure JournalIo where
  jour : Journal
  journalPage : Nat
  first : Nat
  writes : List PageWrite

namespace JournalIo

/-- The number of the next record that is staged. -/
def nextNo (s : JournalIo) : Nat := s.first + s.jour.log.stage.length

/-- `journal_init`, over what the area holds (journal.cpp:9-19). -/
def init (devId journalPage journalPages : Nat) (pages : Nat → List JournalRec) : JournalIo :=
  ⟨⟨devId, journalPages, ⟨pages, 0, []⟩, 0, 0⟩, journalPage, 0, []⟩

/-- `write_pages` of page `p` of the area; the records are numbered from `first` on. -/
def writePage (s : JournalIo) (p first : Nat) (recs : List JournalRec) (o : PageOutcome) :
    JournalIo × Int :=
  let left := match o with
    | .done => recs
    | .failed _ left => left
  ({ s with
      jour := { s.jour with
        log := { s.jour.log with pages := Function.update s.jour.log.pages p left } }
      writes := s.writes ++ [⟨s.journalPage + p, first, recs, decide (o = .done)⟩] }, o.rc)

/-- `journal_flush_page` and `journal_flush` (journal.cpp:48-53, 216-219). -/
def flush (s : JournalIo) (o : PageOutcome) : JournalIo × Int :=
  if s.jour.curOff = 0 then (s, kvEok)
  else s.writePage s.jour.log.curPage s.first s.jour.log.stage o

/-- The cursor behind a page that was written (journal.cpp:59-61). -/
def turnPage (s : JournalIo) : JournalIo :=
  { s with
    jour := { s.jour with
      log := { s.jour.log with curPage := s.jour.log.curPage + 1, stage := [] }
      curOff := 0 }
    first := s.nextNo }

/-- `journal_next_page` (journal.cpp:55-63). -/
def nextPage (s : JournalIo) (o : PageOutcome) : JournalIo × Int :=
  let (s', rc) := s.flush o
  if rc ≠ kvEok then (s', rc) else (s'.turnPage, kvEok)

/-- A record that is not staged is counted (journal.cpp:77-80, 85-88). -/
def drop (s : JournalIo) : JournalIo :=
  { s with jour := { s.jour with dropped := s.jour.dropped + 1 } }

/-- The record is copied into the staged page (journal.cpp:90-105). -/
def stage (s : JournalIo) (r : JournalRec) : JournalIo :=
  { s with jour := journalStage s.jour r }

/-- `journal_append` (journal.cpp:65-106). -/
def append (s : JournalIo) (r : JournalRec) (o : PageOutcome) : JournalIo × Int :=
  if pageSize < jrecTotal r then (s, -kvEinval)
  else if s.jour.journalPages ≤ s.jour.log.curPage then (s.drop, kvEfull)
  else if pageSize < s.jour.curOff + jrecTotal r then
    let (s', rc) := s.nextPage o
    if rc ≠ kvEok then (s', rc)
    else if s'.jour.journalPages ≤ s'.jour.log.curPage then (s'.drop, kvEfull)
    else (s'.stage r, kvEok)
  else (s.stage r, kvEok)

/-- The page writes of `journal_reset` from page `p` on, `n` of them, up to the first that fails
(journal.cpp:205-209). -/
def wipeFrom (os : Nat → PageOutcome) : JournalIo → Nat → Nat → JournalIo × Int
  | s, _, 0 => (s, kvEok)
  | s, p, n + 1 =>
    let (s', rc) := s.writePage p s.nextNo [] (os p)
    if rc ≠ kvEok then (s', rc) else wipeFrom os s' (p + 1) n

/-- `journal_reset` (journal.cpp:201-214). -/
def reset (s : JournalIo) (os : Nat → PageOutcome) : JournalIo × Int :=
  let (s', rc) := wipeFrom os s 0 s.jour.journalPages
  if rc ≠ kvEok then (s', rc)
  else ({ s' with jour := journalResetDone s'.jour, first := s'.nextNo }, kvEok)

end JournalIo

/-- A call of the journal, with the outcomes of its page writes. -/
inductive JournalCall where
  | append (r : JournalRec) (o : PageOutcome)
  | flush (o : PageOutcome)
  | reset (os : Nat → PageOutcome)

/-- The journal after a call. -/
def JournalIo.step (s : JournalIo) : JournalCall → JournalIo
  | .append r o => (s.append r o).1
  | .flush o => (s.flush o).1
  | .reset os => (s.reset os).1

/-- The places of staged records in their page: offset and size, from `off` on. -/
def stagedSpans : Nat → List JournalRec → List (Nat × Nat)
  | _, [] => []
  | off, r :: rs => (off, jrecTotal r) :: stagedSpans (off + jrecTotal r) rs

/-! ## The callers -/

/-- The index, the journals and the request for a checkpoint. -/
structure JournalStore where
  nDevs : Nat
  idx : Index
  jours : Nat → JournalIo
  ckptWanted : Bool
  gcCkpts : Nat

namespace JournalStore

/-- The cache when it is opened, with the index it rebuilt and what the journals hold on their
devices (cache.cpp:913). -/
def start (nDevs journalPage journalPages : Nat) (idx : Index)
    (pages : Nat → Nat → List JournalRec) : JournalStore :=
  ⟨nDevs, idx, fun d => .init d journalPage journalPages (pages d), false, 0⟩

/-- Replace the journal of a device. -/
def setJour (s : JournalStore) (d : Nat) (j : JournalIo) : JournalStore :=
  { s with jours := Function.update s.jours d j }

/-- `leaf_journal` (cache.cpp:241-276), and the number of the record if it was staged. -/
def leafJournal (s : JournalStore) (d : Nat) (a : PublishArgs) (o : PageOutcome) :
    JournalStore × Option Nat :=
  let (j, rc) := (s.jours d).append (journalPutRec a) o
  ({ s.setJour d j with ckptWanted := s.ckptWanted || decide (rc = -kvEfull) },
    if rc = kvEok then some (s.jours d).nextNo else none)

/-- The publish of a request of writer `d`. -/
def reqArgs (d : Nat) (r : PutReq) (page crc now : Nat) : PublishArgs :=
  { r with dev := d }.args page crc now

/-- The part of `on_batch_io_done` of writer `d` for one request that has a node
(writer.cpp:182-190, 218-231), and the number of the record `leaf_publish` staged. -/
def publish (s : JournalStore) (d : Nat) (r : PutReq) (page crc now : Nat) (o : PageOutcome) :
    JournalStore × Option Nat :=
  let a := reqArgs d r page crc now
  let (idx, node) := resolveNode s.idx r.prefixId r.groupIdx r.path
  let s' := { s with idx := idx.publish node a }
  if (leafPublish (idx.tree.leafAt node) a).accepted then s'.leafJournal d a o else (s', none)

/-- `leaf_drop` (cache.cpp:397-423). -/
def drop (s : JournalStore) (node : Path) (lf : RadixLeaf) (o : PageOutcome) : JournalStore :=
  { s with idx := s.idx.drop node }.setJour lf.delJournal
    ((s.jours lf.delJournal).append (journalDelRec lf.prefixId (groupOf node)) o).1

/-- `cache_checkpoint` (cache.cpp:790-802): if the file is written, all journals are reset. -/
def checkpoint (s : JournalStore) (ok : Bool) (os : Nat → Nat → PageOutcome) : JournalStore :=
  if ok then { s with jours := fun d => if d < s.nDevs then ((s.jours d).reset (os d)).1 else s.jours d }
  else s

/-- The head of an iteration of `gc_thread_main` (gc.cpp:125-126). -/
def gcIter (s : JournalStore) (ok : Bool) (os : Nat → Nat → PageOutcome) : JournalStore :=
  if s.ckptWanted then
    { s with ckptWanted := false, gcCkpts := s.gcCkpts + 1 }.checkpoint ok os
  else s

end JournalStore

/-- What may happen next. -/
inductive JsLabel where
  | publish (d : Nat) (r : PutReq) (page crc now : Nat) (o : PageOutcome)
  | drop (node : Path) (o : PageOutcome)
  | trim (d regionIdx epoch : Nat) (o : PageOutcome)
  | flush (d : Nat) (o : PageOutcome)
  | gc (ok : Bool) (os : Nat → Nat → PageOutcome)

/-- One step. -/
def JournalStore.step (s : JournalStore) : JsLabel → Option JournalStore
  | .publish d r page crc now o =>
    if d < s.nDevs then some (s.publish d r page crc now o).1 else none
  | .drop node o => (s.idx.tree.leafAt node).map fun lf => s.drop node lf o
  | .trim d regionIdx epoch o =>
    if d < s.nDevs then
      some (s.setJour d ((s.jours d).append (journalTrimRec regionIdx epoch) o).1)
    else none
  | .flush d o => if d < s.nDevs then some (s.setJour d ((s.jours d).flush o).1) else none
  | .gc ok os => some (s.gcIter ok os)

/-! ## The end of a batch -/

/-- A request of a batch that is done: where it was written, whether its node is found or made, and
the outcome of the page write its record may need. -/
structure DoneReq where
  req : PutReq
  page : Nat
  crc : Nat
  now : Nat
  node : Bool
  io : PageOutcome

/-- What a request was told, `none` for no error, and the number of its record if one was staged. -/
structure ReqEnd where
  told : Option AckErr
  recNo : Option Nat
deriving DecidableEq, Repr

namespace JournalStore

/-- One request (writer.cpp:180-231). -/
def doneReq (s : JournalStore) (d : Nat) (r : DoneReq) : JournalStore × ReqEnd :=
  if r.node then
    let (s', no) := s.publish d r.req r.page r.crc r.now r.io
    (s', ⟨none, no⟩)
  else (s, ⟨some .enomem, none⟩)

/-- The requests of a batch under the index lock (writer.cpp:179-234). -/
def doneReqs (d : Nat) : JournalStore → List DoneReq → JournalStore × List ReqEnd
  | s, [] => (s, [])
  | s, r :: rs =>
    let (s', e) := s.doneReq d r
    let (s'', es) := doneReqs d s' rs
    (s'', e :: es)

/-- `on_batch_io_done` (writer.cpp:160-254) as far as the journal goes. -/
def batchDone (s : JournalStore) (d : Nat) (ioErr : Bool) (reqs : List DoneReq)
    (ckpt : Option (Bool × (Nat → Nat → PageOutcome))) (o : PageOutcome) :
    JournalStore × List ReqEnd :=
  let (s', es) := if ioErr then (s, reqs.map fun _ => ⟨some .ewrite, none⟩) else doneReqs d s reqs
  let s'' := match ckpt with
    | none => s'
    | some (ok, os) => s'.checkpoint ok os
  (s''.setJour d ((s''.jours d).flush o).1, es)

end JournalStore

end KvTier.Model
