import KvTier.Model.Live

/-!
# Tombstones

What lets a get tell `-KV_EVICTED` from `-KV_ENOENT`: `tomb_insert` and `tomb_lookup`
(cache.cpp:91-126, the build without the cuckoo filter), and the two places that write tombstones,
`cache_evict_impl` (cache.cpp:1594-1619) and the loop of `cache_drop_region` (cache.cpp:438-476).
-/

namespace KvTier.Model

open KvTier.Lib

/-- The table: `cap` slots of prefixes, zero in a free one; without slots there is no table. -/
structure Tombs where
  cap : Nat
  keys : Nat → UInt64

/-- The table of a session (cache.cpp:920-931): there is none unless the configured size is a power
of two. -/
def Tombs.init (evictTombCap : Nat) : Tombs :=
  ⟨if evictTombCap &&& (evictTombCap - 1) = 0 then evictTombCap else 0, fun _ => 0⟩

namespace Tombs

/-- Slot `k` from the home of a prefix, in 32 bits. -/
def slot (t : Tombs) (p : UInt64) (k : Nat) : Nat :=
  (((hashMix64 p).toNat &&& (t.cap - 1)) + k) % 2 ^ 32 &&& (t.cap - 1)

/-- Whether `tomb_insert` takes slot `k` (cache.cpp:105). -/
def takes (t : Tombs) (p : UInt64) (k : Nat) : Bool :=
  t.keys (t.slot p k) == 0 || t.keys (t.slot p k) == p

/-- Write a slot. -/
def write (t : Tombs) (p : UInt64) (k : Nat) : Tombs :=
  { t with keys := Function.update t.keys (t.slot p k) p }

/-- `tomb_insert` (cache.cpp:91-111); `tick` is `now_ns() >> 20`. -/
def insert (t : Tombs) (p : UInt64) (tick : Nat) : Tombs :=
  if t.cap = 0 ∨ p = 0 then t
  else
    match (List.range 4).find? (t.takes p) with
    | some k => t.write p k
    | none => t.write p tick

/-- `tomb_lookup` (cache.cpp:113-126). -/
def lookup (t : Tombs) (p : UInt64) : Bool :=
  t.cap != 0 && p != 0 && (List.range 4).any fun k => t.keys (t.slot p k) == p

end Tombs

/-- The index and the table, with the history of the session. -/
structure TombState where
  led : Ledger
  tombs : Tombs
  published : List (UInt64 × Path)
  discarded : List (UInt64 × Path)

/-- What may happen in a session. -/
inductive TombLabel where
  /-- A publish, a TTL sweep, a trim, a pin or its return. -/
  | index (l : LiveLabel)
  /-- `cache_evict` of a prefix and the node of its tokens. -/
  | evict (p : UInt64) (path : Path) (tick : Nat)
  /-- One side slot in the loop of `cache_drop_region`. -/
  | dropSlot (d region : Nat) (slot : SideSlot) (tick : Nat)
deriving DecidableEq, Repr

namespace TombState

/-- The start of a session: a new table, and an index whose leaves were published before. -/
def start (led : Ledger) (evictTombCap : Nat) : TombState :=
  ⟨led, Tombs.init evictTombCap, [], []⟩

/-- The leaf of a node. -/
def leafAt (s : TombState) (q : Path) : Option RadixLeaf := s.led.idx.tree.leafAt q

/-- The leaf of a node is dropped, with a tombstone if a prefix is given. -/
def discard (s : TombState) (node : Path) (lf : RadixLeaf) (tomb : Option UInt64) (tick : Nat) :
    Option TombState :=
  (s.led.dropAt node).map fun led =>
    { s with
      led := led
      tombs := match tomb with
        | some p => s.tombs.insert p tick
        | none => s.tombs
      discarded := s.discarded ++ [(lf.prefixId, node)] }

/-- The prefix `cache_drop_region` writes a tombstone for (cache.cpp:469-470). -/
def slotTomb (slot : SideSlot) : Option UInt64 :=
  if slot.prefixId ≤ 100 then some slot.prefixId else none

/-- One step. -/
def step (s : TombState) : TombLabel → Option TombState
  | .index (.publish a) =>
    (s.led.step (.publish a)).map fun led =>
      { s with
        led := led
        published := s.published ++
          [(a.prefixId, (resolveNode s.led.idx a.prefixId a.groupIdx a.path).2)] }
  | .index (.evict _) | .index (.drop _) | .index (.dropRegion _ _) | .index .recompute => none
  | .index l => (s.led.step l).map fun led => { s with led := led }
  | .evict p path tick =>
    match s.leafAt path with
    | none => some s
    | some lf => if 0 < lf.refcnt then some s else s.discard path lf (some p) tick
  | .dropSlot d region slot tick =>
    if slot ∈ s.led.idx.side then
      match s.leafAt slot.node with
      | none => some s
      | some lf =>
        if inRegion s.led.cfg d region lf && lf.refcnt == 0 then
          s.discard slot.node lf (slotTomb slot) tick
        else some s
    else none

/-- `cache_drop_region`: the steps of its loop, each at its own time. -/
def dropRegion (s : TombState) (d region : Nat) (tick : SideSlot → Nat) : Option TombState :=
  (s.led.idx.side.map fun slot => TombLabel.dropSlot d region slot (tick slot)).foldlM step s

end TombState

/-- How a get ends without reading anything. -/
inductive GetMiss where
  | enoent
  | evicted
deriving DecidableEq, Repr

/-- The miss of `cache_get_impl` (cache.cpp:1436-1452), or `none` where it goes on to read. -/
def getMiss (s : TombState) (p : UInt64) (path : Path) (now : Nat) : Option GetMiss :=
  match s.leafAt path with
  | none => some (if s.tombs.lookup p then .evicted else .enoent)
  | some lf =>
    if lf.ver = 0 ∨ (lf.addr0.expireTs ≠ 0 ∧ lf.addr0.expireTs < now) then some .enoent else none

end KvTier.Model
