import KvTier.Model.Placement
import KvTier.Model.Reads

/-!
# The threads of an open cache

Producers and writers, the thread of `gc_tick`, readers and evicts over one index and the regions of
every device.
-/

namespace KvTier.Model

open KvTier.Lib

/-- A batch between its submission and its completion. -/
structure Flight where
  write : Write
  epoch : Nat
deriving DecidableEq, Repr

/-- A `cache_get` between the increment and the decrement of `refcnt`. -/
structure Reader where
  path : Path
  leaf : RadixLeaf
  attached : Bool
deriving DecidableEq, Repr

/-- Where the thread of `gc_tick` is. -/
inductive GcPc where
  | idle
  /-- About to drop the leaves of a region (gc.cpp:107-109). -/
  | drop (d i : Nat)
  /-- About to look at a region whose leaves it dropped (gc.cpp:111). -/
  | check (d i : Nat)
  /-- About to trim a region it found empty (gc.cpp:44, 112). -/
  | trim (d i : Nat)
deriving DecidableEq, Repr

/-- The state of all threads; `cur` and `other` are the batches in flight in the buffers of that
name. -/
structure Threads where
  pl : Placing
  cur : Nat → Option Flight
  other : Nat → Option Flight
  readers : List Reader
  gc : GcPc
  epochSecs : Nat

/-- What may happen next. -/
inductive ThreadLabel where
  /-- A step of a producer or a writer other than a submission or a completion. -/
  | writer (l : WLabel)
  /-- `writer_submit_batch` at a time. -/
  | submit (d now : Nat)
  /-- A batch is reaped: with an I/O error or without, with no node for the requests at some places,
  and with the checksums of its requests. -/
  | complete (d : Nat) (isCur ioErr : Bool) (noNode crcs : List Nat) (now : Nat)
  /-- `cache_evict` along a path. -/
  | evict (path : Path)
  /-- The TTL sweep of `gc_tick`. -/
  | ttl (now : Nat)
  /-- A reader pins the leaf of a node. -/
  | pin (path : Path)
  /-- A reader gives its pin back. -/
  | unpin (i : Nat)
  /-- The trim pass of `gc_tick` looks at a region. -/
  | gcLook (d i now : Nat)
  /-- The drop of a generation comes to a region of it. -/
  | gcPick (d i : Nat)
  /-- The leaves of the region are dropped. -/
  | gcDrop
  /-- The counter of the region is looked at. -/
  | gcCheck
  /-- The region is trimmed. -/
  | gcTrim
deriving DecidableEq, Repr

/-- What a publish at a node does to a reader. -/
def Reader.publish (node : Path) (fresh : Bool) (lf : Option RadixLeaf) (r : Reader) : Reader :=
  if r.path ≠ node ∨ r.attached = false then r
  else if fresh then { r with attached := false }
  else { r with leaf := lf.getD r.leaf }

/-- A completed request is published (writer.cpp:184-231). -/
def publishOne (st : Ledger × List Reader) (a : PublishArgs) : Option (Ledger × List Reader) :=
  let (idx, node) := resolveNode st.1.idx a.prefixId a.groupIdx a.path
  let fresh := publishesNew (idx.tree.leafAt node) a
  (st.1.step (.publish a)).map fun led =>
    (led, st.2.map (Reader.publish node fresh (led.idx.tree.leafAt node)))

/-- What a completion knows about its batch: its device, the requests without a node, the checksums
and the clock. -/
structure Completion where
  dev : Nat
  noNode : List Nat
  crcs : List Nat
  now : Nat
deriving DecidableEq, Repr

/-- The publish of the `k`-th request of a batch, with the device of the writer
(writer.cpp:218-231). -/
def Completion.args (c : Completion) (k page : Nat) (r : QReq) : PublishArgs :=
  { r.req with dev := c.dev }.args page (c.crcs.getD k 0) c.now

/-- The `k`-th request of a batch, which gets no node if the tree cannot grow (writer.cpp:191-192).
-/
def publishNth (c : Completion) (k page : Nat) (r : QReq) (st : Ledger × List Reader) :
    Option (Ledger × List Reader) :=
  if k ∈ c.noNode then some st else publishOne st (c.args k page r)

/-- The requests of a batch from the `k`-th on, whose pages start at `page`, are published
(writer.cpp:180-233). -/
def publishBatch (c : Completion) : Nat → Nat → List QReq → Ledger × List Reader →
    Option (Ledger × List Reader)
  | _, _, [], st => some st
  | k, page, r :: rs, st => do
    let st ← publishNth c k page r st
    publishBatch c (k + 1) (page + payloadNpages r.req.dataLen) rs st

namespace Threads

/-- The threads when the cache is open, over an index and regions as the open left them. -/
def start (cfg : WriterConfig) (sp : Space) (epochSecs : Nat) : Threads where
  pl := ⟨Writers.start cfg, sp, []⟩
  cur _ := none
  other _ := none
  readers := []
  gc := .idle
  epochSecs := epochSecs

/-- The index with its counters. -/
def led (s : Threads) : Ledger := s.pl.sp.led

/-- Replace the index. -/
def setLed (s : Threads) (led : Ledger) : Threads :=
  { s with pl := { s.pl with sp := { s.pl.sp with led := led } } }

/-- Region `i` of device `d`. -/
def rg (s : Threads) (d i : Nat) : RegionHdr := s.pl.sp.rg d i

/-- `writer_submit_batch`: a batch that is written is in flight from then on, in the buffer the
writer leaves. -/
def submit (s : Threads) (d now : Nat) : Option Threads := do
  let pl ← s.pl.submit d now
  match pl.writes.drop s.pl.writes.length with
  | [] => some { s with pl := pl }
  | w :: _ => some { s with
      pl := pl
      cur := Function.update s.cur d (s.other d)
      other := Function.update s.other d (some ⟨w, (pl.sp.rg d w.region).epoch⟩) }

/-- The batch in flight in one of the buffers. -/
def flight (s : Threads) (d : Nat) (isCur : Bool) : Option Flight :=
  if isCur then s.cur d else s.other d

/-- What a completion publishes: nothing after an I/O error. -/
def publish (s : Threads) (f : Flight) (ioErr : Bool) (noNode crcs : List Nat) (now : Nat) :
    Option (Ledger × List Reader) :=
  if ioErr then some (s.led, s.readers)
  else publishBatch ⟨f.write.dev, noNode, crcs, now⟩ 0 f.write.start f.write.reqs (s.led, s.readers)

/-- `on_batch_io_done` (writer.cpp:160-254). -/
def complete (s : Threads) (d : Nat) (isCur ioErr : Bool) (noNode crcs : List Nat) (now : Nat) :
    Option Threads := do
  let ws ← s.pl.ws.step (.complete d isCur ioErr noNode)
  let f ← s.flight d isCur
  let st ← s.publish f ioErr noNode crcs now
  some { s with
    pl := { s.pl with ws := ws, sp := { s.pl.sp with led := st.1 } }
    cur := if isCur then Function.update s.cur d none else s.cur
    other := if isCur then s.other else Function.update s.other d none
    readers := st.2 }

/-- `cache_get_impl` takes its pin (cache.cpp:1435-1459). -/
def pin (s : Threads) (path : Path) : Option Threads := do
  let lf ← s.led.idx.tree.leafAt path
  let led ← s.led.step (.pin path)
  some { s.setLed led with readers := s.readers ++ [⟨path, lf, true⟩] }

/-- The index after a reader gave its pin back. -/
def unpinned (s : Threads) (r : Reader) : Option Ledger :=
  if r.attached then s.led.step (.unpin r.path) else some s.led

/-- `cache_get_impl` gives its pin back (cache.cpp:1466, 1573). -/
def unpin (s : Threads) (i : Nat) : Option Threads := do
  let r ← s.readers[i]?
  let led ← s.unpinned r
  some { s.setLed led with readers := s.readers.eraseIdx i }

/-- The trim pass looks at a region (gc.cpp:38-43). -/
def gcLook (s : Threads) (d i now : Nat) : Option Threads :=
  if s.gc = .idle ∧ d < s.led.cfg.nDevs ∧ i < s.led.cfg.regionCnt ∧
      s.pl.sp.trimmable d i = true ∧ (s.rg d i).closeTs ≠ 0 ∧
      (s.rg d i).baseTs + s.epochSecs < now then
    some { s with gc := .trim d i }
  else none

/-- The drop of a generation comes to a region (gc.cpp:93-108). -/
def gcPick (s : Threads) (d i : Nat) : Option Threads :=
  if s.gc = .idle ∧ d < s.led.cfg.nDevs ∧ i < s.led.cfg.regionCnt ∧ (s.rg d i).state = .frozen ∧
      (s.rg d i).epoch ≠ 0 then
    some { s with gc := .drop d i }
  else none

/-- `cache_drop_region` by `gc_tick` (gc.cpp:109-110). -/
def gcDrop (s : Threads) : Option Threads :=
  match s.gc with
  | .drop d i => (s.led.step (.dropRegion d i)).map fun led => { s.setLed led with gc := .check d i }
  | _ => none

/-- The look at the counter after it (gc.cpp:111). -/
def gcCheck (s : Threads) : Option Threads :=
  match s.gc with
  | .check d i => some { s with gc := if s.pl.sp.live d i = 0 then .trim d i else .idle }
  | _ => none

/-- `trim_region` by `gc_tick` (gc.cpp:44, 112). -/
def gcTrim (s : Threads) : Option Threads :=
  match s.gc with
  | .trim d i => some { s with gc := .idle, pl := { s.pl with sp := s.pl.sp.trimRegion d i } }
  | _ => none

/-- One step. -/
def step (s : Threads) : ThreadLabel → Option Threads
  | .writer (.submit _ _) => none
  | .writer (.complete _ _ _ _) => none
  | .writer l => (s.pl.ws.step l).map fun ws => { s with pl := { s.pl with ws := ws } }
  | .submit d now => s.submit d now
  | .complete d isCur ioErr noNode crcs now => s.complete d isCur ioErr noNode crcs now
  | .evict path => (s.led.step (.evict path)).map s.setLed
  | .ttl now => (s.led.step (.ttl now)).map s.setLed
  | .pin path => s.pin path
  | .unpin i => s.unpin i
  | .gcLook d i now => s.gcLook d i now
  | .gcPick d i => s.gcPick d i
  | .gcDrop => s.gcDrop
  | .gcCheck => s.gcCheck
  | .gcTrim => s.gcTrim

end Threads

end KvTier.Model
