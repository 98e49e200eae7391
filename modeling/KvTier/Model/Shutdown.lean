import KvTier.Model.Placement

/-!
# Stopping the writers

`Writers` with the end of `writer_thread` (writer.cpp:357-407) and what makes it end:
`cache_stop_writers` (cache.cpp:1140-1145) sets the flag that new puts look at and then stops the
writers one after the other.
-/

namespace KvTier.Model

/-- Where the thread of a writer is. -/
inductive WriterPhase where
  /-- In its loop (writer.cpp:358-391). -/
  | main
  /-- Behind its loop (writer.cpp:393-406). -/
  | drain
  /-- It has returned. -/
  | done
deriving DecidableEq, Repr

/-- The writers, the flag of the cache and those of the writers, and where their threads are. -/
structure Shutdown where
  ws : Writers
  closing : Bool
  stop : Nat → Bool
  phase : Nat → WriterPhase

/-- What may happen next. -/
inductive ShutdownLabel where
  /-- A step of a producer, of a writer's loop, or of the completion of a batch. -/
  | run (l : WLabel)
  /-- `c->stop` is set. -/
  | close
  /-- `shard_writer_stop` sets `w->stop`. -/
  | stop (d : Nat)
  /-- A pop finds nothing and `w->stop` is set. -/
  | leave (d : Nat)
  /-- A pop behind the loop finds a request. -/
  | drain (d : Nat)
  /-- A pop behind the loop finds nothing: the batch is submitted, or fails since no region can be
  opened. -/
  | finish (d : Nat) (room : Bool)
deriving DecidableEq, Repr

/-- The writers when the cache is opened. -/
def Shutdown.start (cfg : WriterConfig) : Shutdown :=
  ⟨.start cfg, false, fun _ => false, fun _ => .main⟩

/-- A request that is popped behind the loop (writer.cpp:398-399): it counts as one page. -/
def Batch.drainAdd (b : Batch) (r : QReq) : Batch :=
  { b with reqs := b.reqs ++ [r], used := (b.used + pageSize) % 2 ^ 32 }

namespace Shutdown

/-- Whether the step may be taken: puts look at `c->stop`, and the loop of a writer is over when it
was left. -/
def runs (s : Shutdown) : WLabel → Bool
  | .put _ _ _ => !s.closing
  | .push _ | .complete _ _ _ _ => true
  | .pop d | .poll d | .fill d _ | .place d | .submit d _ | .swap d => s.phase d == .main

/-- The drain loop pops a request (writer.cpp:394-400). -/
def drainStep (s : Shutdown) (d : Nat) : Option Shutdown :=
  match (s.ws.shards d).ring with
  | [] => none
  | r :: ring =>
    if s.phase d = .drain then
      some { s with ws := s.ws.setShard d { s.ws.shards d with
        ring := ring
        cur := (s.ws.shards d).cur.drainAdd r } }
    else none

/-- One step. -/
def step (s : Shutdown) : ShutdownLabel → Option Shutdown
  | .run l => if s.runs l then (s.ws.step l).map fun ws => { s with ws := ws } else none
  | .close => some { s with closing := true }
  | .stop d =>
    if s.closing ∧ d < s.ws.cfg.nDevs ∧ (List.range d).all (fun d' => s.phase d' == .done) then
      some { s with stop := Function.update s.stop d true }
    else none
  | .leave d =>
    if s.stop d ∧ s.phase d = .main ∧ (s.ws.shards d).pc = .top then
      some { s with phase := Function.update s.phase d .drain }
    else none
  | .drain d => s.drainStep d
  | .finish d room =>
    if s.phase d = .drain then
      (Writers.submitStep s.ws d (s.ws.shards d) room).map fun ws =>
        { s with ws := ws, phase := Function.update s.phase d .done }
    else none

end Shutdown

/-! ## With the regions -/

/-- The writers until they have returned, with the regions they write to; `writes` is history. -/
structure Lifetime where
  sh : Shutdown
  sp : Space
  writes : List Write

/-- What may happen next. -/
inductive LifetimeLabel where
  /-- A step of a producer or a writer, or one that stops a writer; no submission. -/
  | writer (l : ShutdownLabel)
  /-- `writer_submit_batch` in the loop of a writer. -/
  | submit (d now : Nat)
  /-- `writer_submit_batch` behind the loop (writer.cpp:402-403). -/
  | finish (d now : Nat)
  /-- The index changes. -/
  | index (l : LiveLabel)
  /-- `trim_region` by `gc_tick`. -/
  | trim (d i : Nat)
deriving DecidableEq, Repr

namespace Lifetime

/-- The writers with their regions. -/
def placing (s : Lifetime) : Placing := ⟨s.sh.ws, s.sp, s.writes⟩

/-- The same, with a writer that has called `writer_submit_batch` behind its loop. -/
def entered (s : Lifetime) (d : Nat) : Placing :=
  { s.placing with ws := s.sh.ws.setShard d { s.sh.ws.shards d with pc := .submit } }

/-- One step. -/
def step (s : Lifetime) : LifetimeLabel → Option Lifetime
  | .writer (.run (.submit _ _)) | .writer (.finish _ _) => none
  | .writer l => (s.sh.step l).map fun sh => { s with sh := sh }
  | .submit d now =>
    if s.sh.phase d = .main then
      (s.placing.submit d now).map fun p => ⟨{ s.sh with ws := p.ws }, p.sp, p.writes⟩
    else none
  | .finish d now =>
    if s.sh.phase d = .drain then
      ((s.entered d).submit d now).map fun p =>
        ⟨{ s.sh with ws := p.ws, phase := Function.update s.sh.phase d .done }, p.sp, p.writes⟩
    else none
  | .index l => (s.sp.led.step l).map fun led => { s with sp := { s.sp with led := led } }
  | .trim d i => some { s with sp := s.sp.trimRegion d i }

end Lifetime

end KvTier.Model
