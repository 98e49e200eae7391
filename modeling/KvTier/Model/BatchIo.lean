import KvTier.Model.IoRing
import KvTier.Model.Writer

/-!
# Batches and what their devices are asked to do

The producers and writers of `Writers`, with the two batch buffers of each writer told apart: a
buffer has an `IoCtx` of its own, which `shard_writer_start` prepares once (writer.cpp:409-426) and
every batch in the buffer uses (writer.cpp:343-346).
-/

namespace KvTier.Model

open KvTier.Lib

/-- What a device or a producer sees. -/
inductive DevEvent where
  /-- The pages of a batch are written. -/
  | chunk (d : Nat) (reqs : List QReq)
  /-- `journal_flush`: the current page of a journal is written, if it has records. -/
  | journal (d : Nat)
  /-- `Device::flush` returns `KV_EOK`. -/
  | flush (d : Nat)
  /-- The acknowledgement of a put; `none` is `KV_EOK`. -/
  | ack (i : Nat) (err : Option AckErr)
deriving DecidableEq, Repr

/-- A batch that is done: its device and buffer, the result of its write, what its requests were
told, and those that were published. -/
structure BatchEnd where
  dev : Nat
  buf : Bool
  res : Int
  batch : Batch
  noNode : List Nat
  told : List (Nat × Option AckErr)
  published : List QReq
deriving DecidableEq, Repr

/-- The writers, which buffer is `batch[cur_buf]`, the contexts of the buffers, and the history. -/
structure BatchIo where
  syncMode : Bool
  ws : Writers
  curBuf : Nat → Bool
  ictx : Nat → Bool → IoCtx
  ends : List BatchEnd
  trace : List DevEvent

/-- What may happen next. -/
inductive BatchLabel where
  /-- A step of a producer or a writer other than the completion of a batch. -/
  | writer (l : WLabel)
  /-- A batch is reaped; `res` is 0 or the error of its write. -/
  | complete (d : Nat) (isCur : Bool) (res : Int) (noNode : List Nat)
deriving DecidableEq, Repr

/-- `ref`. -/
def IoCtx.ref (c : IoCtx) : IoCtx := { c with inflight := c.inflight + 1 }

namespace BatchIo

/-- The writers when the cache is opened. -/
def start (cfg : WriterConfig) (syncMode : Bool) : BatchIo :=
  ⟨syncMode, Writers.start cfg, fun _ => false, fun _ _ => ⟨0, 0⟩, [], []⟩

/-- The requests of a batch that reach `leaf_publish` (writer.cpp:179-230). -/
def publishes (b : Batch) (ioErr : Bool) (noNode : List Nat) : List QReq :=
  if ioErr then [] else (b.reqs.zipIdx.filter fun e => e.2 ∉ noNode).map Prod.fst

/-- The acknowledgements of a step. -/
def newAcks (s s' : Writers) : List DevEvent :=
  (List.range s'.nPuts).flatMap fun i =>
    ((s'.ctx i).acks.drop (s.ctx i).acks.length).map (DevEvent.ack i)

/-- Change the context of a buffer. -/
def setIctx (s : BatchIo) (d : Nat) (b : Bool) (f : IoCtx → IoCtx) : Nat → Bool → IoCtx :=
  Function.update s.ictx d (Function.update (s.ictx d) b (f (s.ictx d b)))

/-- The writer a submission is of, if it hands a batch to the device (writer.cpp:261-281, 343-348).
-/
def submits (ws : Writers) : WLabel → Option Nat
  | .submit d true => if (ws.shards d).cur.reqs = [] then none else some d
  | _ => none

/-- One step of a producer or a writer. -/
def writerStep (s : BatchIo) (l : WLabel) : Option BatchIo :=
  (s.ws.step l).map fun ws =>
    match submits s.ws l with
    | none => { s with ws := ws, trace := s.trace ++ newAcks s.ws ws }
    | some d =>
      { s with
        ws := ws
        curBuf := Function.update s.curBuf d (!s.curBuf d)
        ictx := s.setIctx d (s.curBuf d) IoCtx.ref
        trace := s.trace ++ [.chunk d (s.ws.shards d).cur.reqs] ++ newAcks s.ws ws }

/-- A batch is reaped: its result goes into the context of its buffer, and the requests are told
what the context has (io.cpp:176-192, writer.cpp:160-254). -/
def complete (s : BatchIo) (d : Nat) (isCur : Bool) (res : Int) (noNode : List Nat) :
    Option BatchIo :=
  let b := if isCur then s.curBuf d else !s.curBuf d
  let batch := if isCur then (s.ws.shards d).cur else (s.ws.shards d).other
  let note (c : IoCtx) : IoCtx := if res ≠ 0 then c.setErr res else c
  let err := (note (s.ictx d b)).firstErr != 0
  (s.ws.step (.complete d isCur err noNode)).map fun ws =>
    { s with
      ws := ws
      ictx := s.setIctx d b fun c => (note c).unref
      ends := s.ends ++ [⟨d, b, res, batch, noNode, Writers.outcomes batch err noNode,
        publishes batch err noNode⟩]
      trace := s.trace ++ [.journal d] ++ newAcks s.ws ws }

/-- One step. -/
def step (s : BatchIo) : BatchLabel → Option BatchIo
  | .writer (.complete _ _ _ _) => none
  | .writer l => s.writerStep l
  | .complete d isCur res noNode => s.complete d isCur res noNode

end BatchIo

end KvTier.Model
