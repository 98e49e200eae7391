import KvTier.Model.Types

/-!
# The two I/O backends

`IoRing::submit` in its two modes (io.cpp:142-219). In the synchronous mode the call loops over
`pwrite` or `pread` (device.cpp:55-96) and completes the `IoCtx` before it returns.
-/

namespace KvTier.Model

/-- `IoCtx` (io.hpp:11-34). -/
structure IoCtx where
  inflight : Int
  firstErr : Int
deriving DecidableEq, Repr

namespace IoCtx

/-- A context as the callers prepare it (cache.cpp:607-610). -/
def prepared : IoCtx := ⟨1, 0⟩

/-- `unref`. -/
def unref (c : IoCtx) : IoCtx := { c with inflight := c.inflight - 1 }

/-- `set_err`: the first error, or the smallest. -/
def setErr (c : IoCtx) (err : Int) : IoCtx :=
  if c.firstErr = 0 ∨ err < c.firstErr then { c with firstErr := err } else c

end IoCtx

/-- The direction of a request. -/
inductive IoOp where
  | read
  | write
deriving DecidableEq, Repr

/-! ## The synchronous mode -/

/-- What `pread` or `pwrite` returns: a number of bytes, `EINTR`, or another error. -/
inductive SysResult where
  | bytes (n : Nat)
  | eintr
  | error (errno : Nat)
deriving DecidableEq, Repr

/-- `-KV_EREAD`: the codes are negative, so this is positive. -/
def minusEread : Int := 5

/-- The loops of `read_pages` and `write_pages` (device.cpp:55-96), with the results of the calls
they make: the return code and the bytes that were transferred, or `none` if the loop goes on after
these calls (or a call returned what it cannot). -/
def transferLoop (op : IoOp) (len : Nat) : Nat → List SysResult → Option (Int × Nat)
  | done, results =>
    if len ≤ done then some (0, done)
    else match results with
      | [] => none
      | .error errno :: _ => if errno = 0 then none else some (-(errno : Int), done)
      | .eintr :: rest => transferLoop op len done rest
      | .bytes n :: rest =>
        if len - done < n then none
        else if n = 0 ∧ op = .read then some (minusEread, done)
        else transferLoop op len (done + n) rest
termination_by structural _ results => results

/-- `sync_submit` (io.cpp:211-219). -/
def syncSubmit (op : IoOp) (npages : Nat) (results : List SysResult) : Option (IoCtx × Nat) :=
  (transferLoop op (npages * pageSize) 0 results).map fun (rc, done) =>
    ((if rc ≠ 0 then IoCtx.prepared.setErr rc else IoCtx.prepared).unref, done)

/-! ## The uring mode -/

/-- A request, with the number of its context. -/
structure IoReq where
  ctx : Nat
  npages : Nat
deriving DecidableEq, Repr

/-- A ring and the contexts of its requests. -/
structure Ring where
  qd : Nat
  waiting : Option IoReq
  sq : List IoReq
  kernel : List IoReq
  cq : List (IoReq × Int)
  ctxs : Nat → IoCtx
  submitted : List IoReq
  refused : List IoReq
  failures : Nat
  reaped : List (IoReq × Int)

/-- What may happen next. -/
inductive RingLabel where
  /-- `uring_submit` is called. -/
  | submit (r : IoReq)
  /-- The queue is full and the kernel is entered to wait; whether that fails. -/
  | full (fails : Bool)
  /-- The entry is queued and the kernel is entered, with an error or not. -/
  | queue (errno : Option Nat)
  /-- The kernel posts the result of a request it has taken. -/
  | complete (i : Nat) (res : Int)
  /-- One turn of the loop of `uring_reap`. -/
  | reap
deriving DecidableEq, Repr

namespace Ring

/-- A new ring. -/
def init (qd : Nat) : Ring := ⟨qd, none, [], [], [], fun _ => IoCtx.prepared, [], [], 0, []⟩

/-- Change one context. -/
def setCtx (s : Ring) (x : Nat) (f : IoCtx → IoCtx) : Ring :=
  { s with ctxs := Function.update s.ctxs x (f (s.ctxs x)) }

/-- One step. A submit needs a context that is in no other request. -/
def step (s : Ring) : RingLabel → Option Ring
  | .submit r =>
    if s.waiting = none ∧ ∀ r' ∈ s.submitted, r'.ctx ≠ r.ctx then
      some { s with waiting := some r, submitted := s.submitted ++ [r] }
    else none
  | .full fails =>
    match s.waiting with
    | none => none
    | some r =>
      if s.sq.length < s.qd then none
      else if fails then
        some { s with
          waiting := none
          refused := s.refused ++ [r]
          failures := s.failures + 1 }
      else some s
  | .queue errno =>
    match s.waiting with
    | none => none
    | some r =>
      if s.qd ≤ s.sq.length then none
      else match errno with
        | some e =>
          some ({ s with
            waiting := none
            sq := s.sq ++ [r]
            failures := s.failures + 1 }.setCtx r.ctx (·.setErr (-(e : Int))))
        | none =>
          some { s with
            waiting := none
            sq := (s.sq ++ [r]).tail
            kernel := s.kernel ++ (s.sq ++ [r]).head?.toList }
  | .complete i res =>
    match s.kernel[i]? with
    | none => none
    | some r => some { s with kernel := s.kernel.eraseIdx i, cq := s.cq ++ [(r, res)] }
  | .reap =>
    match s.cq with
    | [] => none
    | (r, res) :: rest =>
      some ({ s with cq := rest, reaped := s.reaped ++ [(r, res)] }.setCtx r.ctx fun c =>
        (if res < 0 then c.setErr res else c).unref)

end Ring

end KvTier.Model
