import KvTier.Model.RadixNodes

/-!
# The slots of the side table

`side_tbl` as the code computes it (cache.cpp:38-89, 128-142): slots with a `used` flag that are
found with masks, capacity and count as 32-bit numbers, and probes that go on until they find their
slot.
-/

namespace KvTier.Model

/-- `KV_SIDE_INIT_CAP` (cache.hpp:25). -/
def sideInitCap : Nat := 4096

/-- `struct side_slot` (cache.hpp:37-42). -/
structure SideTbl.Slot where
  prefixId : UInt64 := 0
  groupIdx : Nat := 0
  node : Option Path := none
  used : Bool := false

/-- `struct side_tbl` (cache.hpp:44-48). -/
structure SideTbl where
  slots : Nat → SideTbl.Slot
  cap : Nat
  count : Nat

/-- The arguments of `side_put` behind the table. -/
structure SidePutArgs where
  prefixId : UInt64
  groupIdx : Nat
  node : Option Path
deriving DecidableEq, Repr

namespace SideTbl

/-- `side_init` (cache.cpp:38-42). -/
def init : SideTbl := ⟨fun _ => {}, sideInitCap, 0⟩

/-- The hash of a key, cast to `uint32_t`. -/
def home (prefixId : UInt64) (groupIdx : Nat) : Nat :=
  (hashMix64 (prefixId ^^^ (UInt64.ofNat groupIdx <<< 32))).toNat % 2 ^ 32

/-- Whether a slot has this key (cache.cpp:84, 139). -/
def Slot.hasKey (s : Slot) (prefixId : UInt64) (groupIdx : Nat) : Bool :=
  s.prefixId == prefixId && s.groupIdx == groupIdx

/-- The inner loop of `side_grow` (cache.cpp:54-60). -/
def place (fuel ncap : Nat) (ns : Nat → Slot) (s : Slot) : Option (Nat → Slot) := do
  let mask := maskOf ncap
  let j ← probeMask (fun j => !(ns j).used) mask fuel (home s.prefixId s.groupIdx &&& mask)
  pure (Function.update ns j s)

/-- `side_grow` (cache.cpp:46-65). -/
def grow (fuel : Nat) (t : SideTbl) : Option SideTbl := do
  let ncap := t.cap * 2 % 2 ^ 32
  let ns ← (List.range t.cap).foldlM
    (fun ns i => if (t.slots i).used then place fuel ncap ns (t.slots i) else pure ns)
    (fun _ => {})
  pure { t with slots := ns, cap := ncap }

/-- The first lines of `side_put` (cache.cpp:69-70). -/
def makeRoom (fuel : Nat) (t : SideTbl) : Option SideTbl :=
  if t.cap * 7 % 2 ^ 32 ≤ t.count * 10 % 2 ^ 32 then grow fuel t else pure t

/-- `side_put` (cache.cpp:67-89). -/
def put (fuel : Nat) (t : SideTbl) (a : SidePutArgs) : Option SideTbl := do
  let t ← makeRoom fuel t
  let mask := maskOf t.cap
  let j ← probeMask (fun j => !(t.slots j).used || (t.slots j).hasKey a.prefixId a.groupIdx) mask
    fuel (home a.prefixId a.groupIdx &&& mask)
  if (t.slots j).used then
    pure { t with slots := Function.update t.slots j { t.slots j with node := a.node } }
  else
    pure
      { t with
        slots := Function.update t.slots j ⟨a.prefixId, a.groupIdx, a.node, true⟩
        count := (t.count + 1) % 2 ^ 32 }

/-- `side_get` (cache.cpp:128-142). -/
def get (fuel : Nat) (t : SideTbl) (prefixId : UInt64) (groupIdx : Nat) : Option (Option Path) :=
  if t.cap = 0 then some none
  else do
    let mask := maskOf t.cap
    let j ← probeMask (fun j => !(t.slots j).used || (t.slots j).hasKey prefixId groupIdx) mask
      fuel (home prefixId groupIdx &&& mask)
    pure (if (t.slots j).used then (t.slots j).node else none)

/-- A sequence of calls of `side_put` on a new table. -/
def putAll (fuel : Nat) (ps : List SidePutArgs) : Option SideTbl := ps.foldlM (put fuel) init

end SideTbl

end KvTier.Model
