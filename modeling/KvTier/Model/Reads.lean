import KvTier.Model.Dram
import KvTier.Model.Session

/-!
# Readers and the DRAM cache over a running store

`cache_get_impl` as the four steps other threads can come between: the leaf is pinned under the
index lock, the DRAM cache is asked for the pinned version, the payload is read from the devices,
and what was read is put into the DRAM cache.
-/

namespace KvTier.Model

/-- Where a get is. -/
inductive GetStage where
  /-- The leaf is pinned. -/
  | pinned
  /-- The DRAM cache had nothing. -/
  | missed
  /-- The payload was read from the devices. -/
  | loaded (r : ReadResult)
deriving DecidableEq, Repr

/-- A get with its pinned leaf. -/
structure Pin where
  path : Path
  prefixId : UInt64
  leaf : RadixLeaf
  now : Nat
  attached : Bool
  stage : GetStage
deriving DecidableEq, Repr

/-- The prefix of the get, and `n_groups - 1`. -/
def Pin.key (p : Pin) : DramKey := (p.prefixId, groupOf p.path)

/-- What a get returned, for which version and at what time. -/
structure Served where
  ver : Nat
  now : Nat
  result : ReadResult
deriving DecidableEq, Repr

/-- The cache with its readers. -/
structure Reads where
  sess : Session
  dram : Option DramCache
  pins : List Pin
  served : List Served

/-- What may happen next. -/
inductive ReadsLabel where
  /-- A step of the session. -/
  | op (l : Label)
  /-- The process ends and the cache is opened again. -/
  | reopen (cfg : Config) (dramBytes dramEntryMax : Nat)
  /-- `cache_get` finds its leaf and pins it (cache.cpp:1436-1459). -/
  | pin (prefixId : UInt64) (path : Path) (now : Nat)
  /-- `dram_get` of a get (cache.cpp:1461-1484). -/
  | dramGet (i now : Nat) (alloc : Bool)
  /-- The read of a get (cache.cpp:1486-1579), with the devices and the memory it finds. -/
  | ssdRead (i : Nat) (disk : Disk) (m : ReadMem)
  /-- `dram_put` of a get (cache.cpp:1580-1592). -/
  | backfill (i : Nat) (alloc : Bool)

/-- Whether a publish makes a new leaf, which invalidates the DRAM entry (cache.cpp:313-317,
370-376). -/
def publishesNew (old : Option RadixLeaf) (a : PublishArgs) : Bool :=
  match old with
  | none => true
  | some lf => decide (lf.ver < a.ver) || (decide (lf.ver = a.ver) && a.flags.stripe && lf.stripe.isNone)

/-- What a publish at a node does to a pin: a new leaf retires the pinned one, and a further part is
added to the part array the reader looks at. -/
def Pin.publish (node : Path) (fresh : Bool) (lf : Option RadixLeaf) (p : Pin) : Pin :=
  if p.path ≠ node ∨ p.attached = false then p
  else if fresh then { p with attached := false }
  else
    { p with leaf := { p.leaf with
      stripe := p.leaf.stripe.map fun st => (lf.bind (·.stripe)).getD st } }

namespace Reads

/-- The first session. -/
def start (cfg : Config) (dramBytes dramEntryMax : Nat) : Reads :=
  ⟨Session.format cfg, dramInit dramBytes dramEntryMax, [], []⟩

/-- A reader is at this node: its leaf has `refcnt > 0`. -/
def pinnedAt (s : Reads) (node : Path) : Bool :=
  s.pins.any fun p => p.attached && decide (p.path = node)

/-- What a step of the session does to the DRAM cache and the pins. -/
def after (s : Reads) (sess : Session) : Label → Reads
  | .publish i page crc now =>
    match s.sess.store.pending[i]? with
    | none => { s with sess := sess }
    | some r =>
      let (idx, node) := resolveNode s.sess.store.idx r.prefixId r.groupIdx r.path
      let fresh := publishesNew (idx.tree.leafAt node) (r.args page crc now)
      { s with
        sess := sess
        dram := if fresh then s.dram.map (·.invalidate (r.prefixId, r.groupIdx)) else s.dram
        pins := s.pins.map (Pin.publish node fresh (sess.store.idx.tree.leafAt node)) }
  | .drop node =>
    match s.sess.store.idx.tree.leafAt node with
    | none => { s with sess := sess }
    | some lf => { s with sess := sess, dram := s.dram.map (·.invalidate (lf.prefixId, groupOf node)) }
  | _ => { s with sess := sess }

/-- A step of the session, for which a pinned leaf is busy. -/
def opStep (s : Reads) (l : Label) : Option Reads :=
  match l with
  | .drop node =>
    if s.pinnedAt node then none else (s.sess.step (.op (.drop node))).map fun t => s.after t l
  | _ => (s.sess.step (.op l)).map fun t => s.after t l

/-- `cache_get_impl` of an open cache up to its pin (cache.cpp:1414-1459). -/
def pin (s : Reads) (prefixId : UInt64) (path : Path) (now : Nat) : Option Reads :=
  if s.sess.opening ≠ none then none
  else if path.length = 0 ∨ maxGroups < path.length then some s
  else
    match s.sess.store.idx.tree.leafAt path with
    | none => some s
    | some lf =>
      if lf.ver = 0 ∨ (lf.addr0.expireTs ≠ 0 ∧ lf.addr0.expireTs < now) then some s
      else some { s with pins := s.pins ++ [⟨path, prefixId, lf, now, true, .pinned⟩] }

/-- The get returns: its pin is released, and a result is recorded. -/
def finish (s : Reads) (i : Nat) (p : Pin) (r : Option ReadResult) : Reads :=
  { s with
    pins := s.pins.eraseIdx i
    served := (r.map fun r => ⟨p.leaf.ver, p.now, r⟩).toList ++ s.served }

/-- The DRAM lookup of a get (cache.cpp:1461-1484). -/
def dramGet (s : Reads) (i now : Nat) (alloc : Bool) : Option Reads :=
  match s.pins[i]? with
  | some p =>
    if p.stage ≠ .pinned ∨ now < p.now then none
    else
      match s.dram with
      | none => some { s with pins := s.pins.set i { p with stage := .missed } }
      | some d =>
        match d.get p.key p.leaf.ver now alloc with
        | (d', some r) => some ({ s with dram := some d' }.finish i p (some r))
        | (d', none) =>
          some { s with dram := some d', pins := s.pins.set i { p with stage := .missed } }
  | none => none

/-- The read of a get (cache.cpp:1486-1579). -/
def ssdRead (s : Reads) (i : Nat) (disk : Disk) (m : ReadMem) : Option Reads :=
  match s.pins[i]? with
  | some p =>
    if p.stage ≠ .missed then none
    else
      match readLeaf s.sess.store.cfg disk m p.leaf with
      | .ok r => some { s with pins := s.pins.set i { p with stage := .loaded r } }
      | .error _ => some (s.finish i p none)
  | none => none

/-- The end of a get (cache.cpp:1580-1592): what was read goes to the DRAM cache. -/
def backfill (s : Reads) (i : Nat) (alloc : Bool) : Option Reads :=
  match s.pins[i]? with
  | some p =>
    match p.stage, s.dram with
    | .loaded r, none => some (s.finish i p (some r))
    | .loaded r, some d =>
      (d.put p.key p.leaf.ver p.leaf.addr0.expireTs r alloc).map fun d' =>
        { s with dram := some d' }.finish i p (some r)
    | _, _ => none
  | none => none

/-- One step. -/
def step (s : Reads) : ReadsLabel → Option Reads
  | .op l => s.opStep l
  | .reopen cfg dramBytes dramEntryMax =>
    (s.sess.step (.reopen cfg)).map fun t =>
      { s with sess := t, dram := dramInit dramBytes dramEntryMax, pins := [] }
  | .pin prefixId path now => s.pin prefixId path now
  | .dramGet i now alloc => s.dramGet i now alloc
  | .ssdRead i disk m => s.ssdRead i disk m
  | .backfill i alloc => s.backfill i alloc

end Reads

end KvTier.Model
