import KvTier.Model.Index

/-!
# Hotness

The hit counters of the radix nodes: a `cache_get` that finds a leaf adds to its node and to every
node above it (radix.cpp:160-166), `gc_tick` halves all of them from time to time
(radix.cpp:168-184), and `cache_put` looks at two of them to decide whether the put gets a second
copy (hot.cpp:6-44, cache.cpp:1210-1215).
-/

namespace KvTier.Model

open KvTier.Lib

/-- The index with the hit counters of its nodes. -/
structure HotState where
  idx : Index
  hits : Path → Nat

/-- What may happen to them. -/
inductive HotLabel where
  /-- A completed request is published. -/
  | publish (a : PublishArgs)
  /-- `leaf_drop` on a node. -/
  | drop (node : Path)
  /-- `cache_get` along a path. -/
  | get (path : Path) (now : Nat)
  /-- `hot_decay`. -/
  | decay
deriving DecidableEq, Repr

/-- `radix_hit_ascend` (radix.cpp:160-166), in 32 bits. -/
def radixHitAscend (hits : Path → Nat) (node : Path) (inc : Nat) : Path → Nat :=
  fun q => if q <+: node then (hits q + inc) % 2 ^ 32 else hits q

/-- `radix_hit_decay` from the root (radix.cpp:168-184). -/
def radixHitDecay (hits : Path → Nat) : Path → Nat := fun q => hits q / 2

/-- `hot_check_path` (hot.cpp:6-44): the node the first `depth` hashes lead to, or the one above it,
has more hits than the threshold. -/
def hotCheckPath (s : HotState) (hashes : List UInt64) (depth threshold : Nat) : Bool :=
  let cur := hashes.take depth
  if cur = [] then decide (threshold < s.hits cur)
  else if (s.idx.tree.node? cur).isSome then
    decide (threshold < s.hits cur) || decide (threshold < s.hits cur.dropLast)
  else false

namespace HotState

/-- The index an open leaves; the counters start at 0. -/
def start (idx : Index) : HotState := ⟨idx, fun _ => 0⟩

/-- `cache_get` up to its pin (cache.cpp:1436-1459). -/
def get (s : HotState) (path : Path) (now : Nat) : HotState :=
  match s.idx.tree.leafAt path with
  | none => s
  | some lf =>
    if lf.ver = 0 ∨ (lf.addr0.expireTs ≠ 0 ∧ lf.addr0.expireTs < now) then s
    else { s with hits := radixHitAscend s.hits path 1 }

/-- One step. -/
def step (s : HotState) : HotLabel → HotState
  | .publish a =>
    let (idx, node) := resolveNode s.idx a.prefixId a.groupIdx a.path
    { s with idx := idx.publish node a }
  | .drop node => { s with idx := s.idx.drop node }
  | .get path now => s.get path now
  | .decay => { s with hits := radixHitDecay s.hits }

/-- A history. -/
def run (s : HotState) (ls : List HotLabel) : HotState := ls.foldl step s

end HotState

end KvTier.Model
