import KvTier.Lib.Latch
import KvTier.Model.Put

/-!
# Producers and shard writers

The path of a request from `cache_put` to its acknowledgement (cache.cpp:1187-1362,
writer.cpp:11-91, 160-407), as a state machine over any number of puts and one writer per device.
-/

namespace KvTier.Model

open KvTier.Lib

/-- What the writers read of the configuration besides `Config`. -/
structure WriterConfig extends Config where
  batchMinBytes : Nat
  devsPos : 0 < nDevs
  minPos : 0 < batchMinBytes

/-- `mpsc_init(&w->q, 12)` (writer.cpp:410). -/
def ringCap : Nat := 2 ^ 12

/-- `KV_BATCH_MAX_REQS`. -/
def batchMaxReqs : Nat := 512

/-- `batch_buf_size` (writer.cpp:10-15). -/
def batchBufSize (cfg : WriterConfig) : Nat :=
  (max cfg.stripeThreshold cfg.stripeUnit + 4 * pageSize) % 2 ^ 32

/-- A request in the writers' hands, with the put it belongs to. -/
structure QReq where
  put : Nat
  req : PutReq
deriving DecidableEq, Repr

/-- The errors a put is acknowledged with. -/
inductive AckErr where
  | efull
  | ewrite
  | enomem
deriving DecidableEq, Repr

/-- `batch_buf` (writer.hpp:91-104). -/
structure Batch where
  reqs : List QReq
  used : Nat
  busy : Bool
deriving DecidableEq, Repr

/-- A batch buffer with nothing in it. -/
def Batch.empty : Batch := ⟨[], 0, false⟩

/-- The batch with one more request (writer.cpp:386-387). -/
def Batch.add (b : Batch) (r : QReq) : Batch :=
  { b with
    reqs := b.reqs ++ [r]
    used := (b.used + payloadNpages r.req.dataLen * pageSize) % 2 ^ 32 }

/-- Where `writer_thread` is. -/
inductive Pc where
  /-- At the head of its loop, about to pop. -/
  | top
  /-- At the head of the inner loop, with `first` if it was not placed yet. -/
  | fill (first : Option QReq)
  /-- In the inner loop with a request to place. -/
  | place (r : QReq)
  /-- In `writer_submit_batch`, before the batch is submitted. -/
  | submit
  /-- In `writer_submit_batch`, waiting for the other buffer. -/
  | wait
deriving DecidableEq, Repr

/-- One shard writer. -/
structure Shard where
  ring : List QReq
  pc : Pc
  cur : Batch
  other : Batch
deriving DecidableEq, Repr

/-- A request at the end of the ring. -/
def Shard.enqueue (w : Shard) (r : QReq) : Shard := { w with ring := w.ring ++ [r] }

/-- A put, once `cache_put` was called: returned an error, still pushing requests, or returned
`KV_EOK`. -/
inductive PutStatus where
  | failed
  | pushing (todo : List PutReq)
  | returned
deriving DecidableEq, Repr

/-- A put with these requests still to push. -/
def PutStatus.after (todo : List PutReq) : PutStatus :=
  if todo = [] then .returned else .pushing todo

/-- The puts and the writers; put `i` is the `i`-th call. -/
structure Writers where
  cfg : WriterConfig
  nPuts : Nat
  status : Nat → PutStatus
  ctx : Nat → Latch AckErr
  shards : Nat → Shard

/-- What may happen next. -/
inductive WLabel where
  /-- `cache_put` up to its first push, or its error return. -/
  | put (a : PutArgs) (ver : Nat) (shape : Shape)
  /-- The next push of a put. -/
  | push (i : Nat)
  /-- The pop at the head of the writer's loop finds a request, or nothing. -/
  | pop (d : Nat)
  | poll (d : Nat)
  /-- The head of the inner loop; `found` tells whether a pop there finds a request. -/
  | fill (d : Nat) (found : Bool)
  /-- The rest of the inner loop. -/
  | place (d : Nat)
  /-- The batch is submitted, or fails since no region can be opened. -/
  | submit (d : Nat) (room : Bool)
  /-- The other buffer is free: back to the head of the loop. -/
  | swap (d : Nat)
  /-- A batch is reaped, with an I/O error or without, and with no node for the requests at some
  places. -/
  | complete (d : Nat) (isCur ioErr : Bool) (noNode : List Nat)
deriving DecidableEq, Repr

/-- The writers when the cache is opened. -/
def Writers.start (cfg : WriterConfig) : Writers where
  cfg := cfg
  nPuts := 0
  status _ := .failed
  ctx _ := ⟨0, none, []⟩
  shards _ := ⟨[], .top, .empty, .empty⟩

namespace Writers

/-- Replace one shard. -/
def setShard (s : Writers) (d : Nat) (w : Shard) : Writers :=
  { s with shards := Function.update s.shards d w }

/-- Add a put. -/
def addPut (s : Writers) (st : PutStatus) (c : Latch AckErr) : Writers :=
  { s with
    nPuts := s.nPuts + 1
    status := Function.update s.status s.nPuts st
    ctx := Function.update s.ctx s.nPuts c }

/-- `cache_put_impl` up to its first push (cache.cpp:1187-1275, 1309-1342). -/
def put (s : Writers) (a : PutArgs) (ver : Nat) (shape : Shape) : Writers :=
  let fresh : Latch AckErr := ⟨0, none, []⟩
  if maxGroups ≤ a.groupIdx ∨ s.cfg.maxLayers < a.lens.length then s.addPut .failed fresh
  else match cachePutReqs s.cfg.toConfig a ver shape with
    | none => s.addPut .failed fresh.unref
    | some reqs => s.addPut (.pushing reqs) { fresh with refs := reqs.length }

/-- Put `i` pushed `r` and has `todo` left. -/
def pushed (s : Writers) (i : Nat) (r : PutReq) (todo : List PutReq) : Writers :=
  { s.setShard r.dev ((s.shards r.dev).enqueue ⟨i, r⟩) with
    status := Function.update s.status i (.after todo) }

/-- `shard_writer_enqueue` (writer.cpp:466-475) when the ring has room; the put returns after its
last push. -/
def push (s : Writers) (i : Nat) : Option Writers :=
  match s.status i with
  | .pushing (r :: todo) =>
    if i < s.nPuts ∧ (s.shards r.dev).ring.length < ringCap then some (s.pushed i r todo)
    else none
  | _ => none

/-- Whether a request goes into the batch (writer.cpp:381-384), in 32-bit arithmetic. -/
def fits (cfg : WriterConfig) (b : Batch) (r : QReq) : Bool :=
  b.reqs.isEmpty ||
    decide ((b.used + payloadNpages r.req.dataLen * pageSize) % 2 ^ 32 ≤ batchBufSize cfg)

/-- The head of the inner loop (writer.cpp:369-379). -/
def fillStep (cfg : WriterConfig) (w : Shard) (first : Option QReq) (found : Bool) :
    Option Shard :=
  if batchMaxReqs ≤ w.cur.reqs.length ∨ cfg.batchMinBytes ≤ w.cur.used then
    some { w with pc := .submit }
  else match first, found, w.ring with
    | some r, _, _ => some { w with pc := .place r }
    | none, true, r :: ring => some { w with ring := ring, pc := .place r }
    | none, true, [] => none
    | none, false, _ => some { w with pc := .submit }

/-- The rest of the inner loop (writer.cpp:380-388): a request that does not fit is pushed back, and
the result of the push is not looked at. -/
def placeStep (cfg : WriterConfig) (w : Shard) (r : QReq) : Shard :=
  if fits cfg w.cur r then { w with pc := .fill none, cur := w.cur.add r }
  else
    { w with
      pc := .submit
      ring := if w.ring.length < ringCap then w.ring ++ [r] else w.ring }

/-- `writer_submit_batch` (writer.cpp:256-355) up to the wait for the other buffer. -/
def submitStep (s : Writers) (d : Nat) (w : Shard) (room : Bool) : Option Writers :=
  if w.cur.busy then none
  else if w.cur.reqs = [] then some (s.setShard d { w with pc := .top })
  else if room then
    some (s.setShard d { w with pc := .wait, cur := w.other, other := { w.cur with busy := true } })
  else
    some { s.setShard d { w with pc := .top, cur := .empty } with
      ctx := Latch.release s.ctx (w.cur.reqs.map fun r => (r.put, some .efull)) }

/-- The outcome of the requests of a batch (writer.cpp:169-172, 191-192). -/
def outcomes (b : Batch) (ioErr : Bool) (noNode : List Nat) : List (Nat × Option AckErr) :=
  b.reqs.zipIdx.map fun e =>
    (e.1.put, if ioErr then some .ewrite else if e.2 ∈ noNode then some .enomem else none)

/-- `on_batch_io_done` (writer.cpp:160-254) as far as the contexts go: errors are noted first, then
every request drops its reference. -/
def completeCtx (ctx : Nat → Latch AckErr) (b : Batch) (ioErr : Bool) (noNode : List Nat) :
    Nat → Latch AckErr :=
  Latch.release (Latch.setErrs ctx (outcomes b ioErr noNode)) (b.reqs.map fun r => (r.put, none))

/-- A batch is reaped. -/
def complete (s : Writers) (d : Nat) (isCur ioErr : Bool) (noNode : List Nat) : Option Writers :=
  let w := s.shards d
  let b := if isCur then w.cur else w.other
  if b.busy then
    some { s.setShard d (if isCur then { w with cur := .empty } else { w with other := .empty }) with
      ctx := completeCtx s.ctx b ioErr noNode }
  else none

/-- One step of one writer. -/
def writerStep (s : Writers) (d : Nat) : WLabel → Option Writers
  | .pop _ =>
    match (s.shards d).pc, (s.shards d).ring with
    | .top, r :: ring =>
      some (s.setShard d { s.shards d with ring := ring, pc := .fill (some r) })
    | _, _ => none
  | .poll _ => if (s.shards d).pc = .top then some s else none
  | .fill _ found =>
    match (s.shards d).pc with
    | .fill first => (fillStep s.cfg (s.shards d) first found).map (s.setShard d)
    | _ => none
  | .place _ =>
    match (s.shards d).pc with
    | .place r => some (s.setShard d (placeStep s.cfg (s.shards d) r))
    | _ => none
  | .submit _ room => if (s.shards d).pc = .submit then submitStep s d (s.shards d) room else none
  | .swap _ =>
    if (s.shards d).pc = .wait ∧ (s.shards d).cur.busy = false then
      some (s.setShard d { s.shards d with pc := .top, cur := .empty })
    else none
  | .complete _ isCur ioErr noNode => s.complete d isCur ioErr noNode
  | .put _ _ _ => none
  | .push _ => none

/-- The writer a label is about. -/
def shardOf : WLabel → Option Nat
  | .pop d | .poll d | .fill d _ | .place d | .submit d _ | .swap d | .complete d _ _ _ => some d
  | .put _ _ _ | .push _ => none

/-- One step: of a producer, or of one of the `n_devs` writers. -/
def step (s : Writers) (l : WLabel) : Option Writers :=
  match l with
  | .put a ver shape => some (s.put a ver shape)
  | .push i => s.push i
  | l =>
    match shardOf l with
    | some d => if d < s.cfg.nDevs then s.writerStep d l else none
    | none => none

end Writers

/-! ## Where the requests are -/

/-- The request a writer holds between its ring and its batch. -/
def Pc.hand : Pc → List QReq
  | .fill (some r) => [r]
  | .place r => [r]
  | _ => []

/-- All requests a writer has. -/
def Shard.held (w : Shard) : List QReq := w.ring ++ w.pc.hand ++ w.cur.reqs ++ w.other.reqs

/-- The requests a put has still to push. -/
def PutStatus.todo : PutStatus → List PutReq
  | .pushing todo => todo
  | _ => []

/-- How many requests of put `i` are open: to be pushed, or with some writer. -/
def Writers.outstanding (s : Writers) (i : Nat) : Nat :=
  (s.status i).todo.length +
    ∑ d ∈ Finset.range s.cfg.nDevs, ((s.shards d).held.map (·.put)).count i

end KvTier.Model
