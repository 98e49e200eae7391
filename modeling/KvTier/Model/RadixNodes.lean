import KvTier.Model.EdgeStore

/-!
# The nodes of the radix tree

`radix_walk` over nodes that are reached through pointers (radix.cpp:8-159), as the code computes
it: the slots are found with masks, capacities and counts are 32-bit numbers, and a probe goes on
until it finds its slot.
-/

namespace KvTier.Model

open KvTier.Lib

/-- `for (uint32_t i = ...;; i = (i + 1) & mask)` up to the first slot that ends the loop. -/
def probeMask (stop : Nat → Bool) (mask : Nat) : Nat → Nat → Option Nat
  | 0, _ => none
  | fuel + 1, i => if stop i then some i else probeMask stop mask fuel ((i + 1) % 2 ^ 32 &&& mask)

/-- `cap - 1`, a `uint32_t`. -/
def maskOf (cap : Nat) : Nat := (cap + (2 ^ 32 - 1)) % 2 ^ 32

/-- The slots of a table. -/
abbrev EdgeSlots := Nat → UInt64 × Nat

/-- `struct radix_node` (radix.hpp:92-101). -/
structure RadixNode where
  depth : Nat
  nEdges : Nat
  parent : Option Nat
  edges : RadixEdges

namespace RadixNode

/-- `node_new` (radix.cpp:8-14). -/
def nodeNew (depth : Nat) : RadixNode := ⟨depth % 2 ^ 32, 0, none, RadixEdges.empty⟩

/-- `edge_find_ovf` (radix.cpp:33-44). -/
def edgeFindOvf (fuel : Nat) (o : RadixOvf) (h : UInt64) : Option (Option Nat) := do
  let mask := maskOf o.table.cap
  let i ← probeMask (fun i => (o.table.slots i).1 == 0 || (o.table.slots i).1 == h) mask fuel
    (edgeHome h &&& mask)
  pure (if (o.table.slots i).1 = 0 then none else some (o.table.slots i).2)

/-- `edge_get` (radix.cpp:46-50). -/
def edgeGet (fuel : Nat) (n : RadixNode) (h : UInt64) : Option (Option Nat) :=
  match n.edges.ovf with
  | some o => edgeFindOvf fuel o h
  | none => some (n.edges.edgeFind h)

/-- The loop that puts an edge into the first free slot (radix.cpp:66-71, 91-97, 122-135). -/
def place (fuel cap : Nat) (slots : EdgeSlots) (e : UInt64 × Nat) : Option EdgeSlots := do
  let mask := maskOf cap
  let i ← probeMask (fun i => (slots i).1 == 0) mask fuel (edgeHome e.1 &&& mask)
  pure (Function.update slots i e)

/-- The same with `o->used++` (radix.cpp:91-97, 122-135). -/
def placeUsed (fuel : Nat) (o : RadixOvf) (e : UInt64 × Nat) : Option RadixOvf := do
  let slots ← place fuel o.table.cap o.table.slots e
  pure ⟨(o.used + 1) % 2 ^ 32, ⟨o.table.cap, slots⟩⟩

/-- `ovf_grow` (radix.cpp:52-77). -/
def ovfGrow (fuel : Nat) (o : RadixOvf) : Option RadixOvf := do
  let newCap := if o.table.cap ≠ 0 then o.table.cap * 2 % 2 ^ 32 else 16
  let slots ← (List.range o.table.cap).foldlM
    (fun slots i =>
      if (o.table.slots i).1 ≠ 0 then place fuel newCap slots (o.table.slots i) else pure slots)
    (fun _ => (0, 0))
  pure { o with table := ⟨newCap, slots⟩ }

/-- `ovf_migrate` (radix.cpp:79-101): the table it makes of the inline slots. -/
def ovfMigrate (fuel : Nat) (n : RadixEdges) : Option RadixOvf := do
  let o ← ovfGrow fuel ⟨0, ⟨0, fun _ => (0, 0)⟩⟩
  (List.range inlineSlots).foldlM
    (fun o i => if (n.slots i).1 ≠ 0 then placeUsed fuel o (n.slots i) else pure o) o

/-- The second half of `edge_add` (radix.cpp:118-136); `n_del` is 0. -/
def ovfAdd (fuel : Nat) (o : RadixOvf) (e : UInt64 × Nat) : Option RadixOvf := do
  let o ← if o.table.cap * 7 % 2 ^ 32 / 10 < (o.used + 1) % 2 ^ 32 then ovfGrow fuel o else pure o
  placeUsed fuel o e

/-- `edge_add` (radix.cpp:103-137). -/
def edgeAdd (fuel : Nat) (n : RadixNode) (h : UInt64) (child : Nat) : Option RadixNode := do
  let edges ← match n.edges.ovf with
    | some o => do
      let o ← ovfAdd fuel o (h, child)
      pure { n.edges with ovf := some o }
    | none =>
      match n.edges.freeInline with
      | some i => pure { n.edges with slots := Function.update n.edges.slots i (h, child) }
      | none => do
        let o ← ovfMigrate fuel n.edges
        let o ← ovfAdd fuel o (h, child)
        pure ⟨fun _ => (0, 0), some o⟩
  pure { n with edges := edges, nEdges := (n.nEdges + 1) % 2 ^ 16 }

end RadixNode

/-- `struct radix_tree` (radix.hpp:103-106), with the nodes that were allocated. -/
structure RadixTree where
  nodes : List RadixNode

namespace RadixTree

open RadixNode

/-- `radix_init` (radix.cpp:16-23). -/
def init : RadixTree := ⟨[nodeNew 0]⟩

/-- The loop of `radix_walk` (radix.cpp:141-158) at node `cur` in round `k`, over the hashes that
are left: the nodes it leaves and what it returns. -/
def walkFrom (fuel : Nat) (create : Bool) :
    RadixTree → Nat → Nat → List UInt64 → Option (RadixTree × Option Nat)
  | t, cur, _, [] => some (t, some cur)
  | t, cur, k, h :: hs => do
    let n ← t.nodes[cur]?
    match ← n.edgeGet fuel h with
    | some child => walkFrom fuel create t child (k + 1) hs
    | none =>
      if create then
        let child := t.nodes.length
        let n ← n.edgeAdd fuel h child
        let nodes := t.nodes.set cur n ++ [{ nodeNew (k + 1) with parent := some cur }]
        walkFrom fuel create ⟨nodes⟩ child (k + 1) hs
      else pure (t, none)

/-- `radix_walk` (radix.cpp:139-159). -/
def radixWalk (fuel : Nat) (t : RadixTree) (create : Bool) (hashes : List UInt64) :
    Option (RadixTree × Option Nat) :=
  walkFrom fuel create t 0 0 hashes

/-- A tree after calls of `radix_walk` with `create`, one for each path. -/
def createAll (fuel : Nat) (paths : List Path) : Option RadixTree :=
  paths.foldlM (fun t p => (t.radixWalk fuel true p).map (·.1)) init

end RadixTree

end KvTier.Model
