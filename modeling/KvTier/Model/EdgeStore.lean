import KvTier.Lib.Probing
import KvTier.Model.Index
import Mathlib.Data.UInt

/-!
# The edges of a radix node

Where the edges of a `radix_node` are kept: eight inline slots, and from the ninth edge on a table
with linear probing that grows (radix.cpp:24-137).
-/

namespace KvTier.Model

open KvTier.Lib

/-- `KV_INLINE_SLOTS` (radix.hpp:12). -/
def inlineSlots : Nat := 8

/-- The home slot of a hash before it is cut to the table (radix.cpp:38). -/
def edgeHome (h : UInt64) : Nat := (hashMix64 h).toNat

/-- `struct radix_ovf` (radix.hpp:85-90). -/
structure RadixOvf where
  used : Nat
  table : ProbeTable UInt64 Nat

/-- The edges of a `radix_node` (radix.hpp:92-101); `ovf_flag` is set when `ovf` is. -/
structure RadixEdges where
  slots : Nat → UInt64 × Nat
  ovf : Option RadixOvf

namespace RadixEdges

/-- A node from `node_new` (radix.cpp:8-14). -/
def empty : RadixEdges := ⟨fun _ => (0, 0), none⟩

/-- `edge_find` (radix.cpp:24-31). The child of a free slot is null. -/
def edgeFind (n : RadixEdges) (h : UInt64) : Option Nat :=
  ((List.range inlineSlots).find? fun i => (n.slots i).1 == h).bind fun i =>
    if (n.slots i).1 = 0 then none else some (n.slots i).2

/-- `edge_get` (radix.cpp:33-50). -/
def edgeGet (n : RadixEdges) (h : UInt64) : Option Nat :=
  match n.ovf with
  | some o => o.table.find edgeHome h
  | none => n.edgeFind h

/-- The inline slot an edge is added in (radix.cpp:106-107). -/
def freeInline (n : RadixEdges) : Option Nat :=
  (List.range inlineSlots).find? fun i => (n.slots i).1 == 0

/-- The inline edges, slot by slot. -/
def inlineEdges (n : RadixEdges) : List (UInt64 × Nat) :=
  ((List.range inlineSlots).map n.slots).filter fun e => e.1 ≠ 0

/-- All edges in the order `ckpt_write_rec` and `radix_visit` go through the slots
(journal.cpp:269-285). -/
def edges (n : RadixEdges) : List (UInt64 × Nat) :=
  n.inlineEdges ++ ((n.ovf.map (·.table.items)).getD [])

/-- `ovf_grow` (radix.cpp:52-77). -/
def ovfGrow (o : RadixOvf) : RadixOvf :=
  let newCap := if o.table.cap ≠ 0 then o.table.cap * 2 else 16
  { o with table := .ofList edgeHome newCap 0 o.table.items }

/-- `ovf_migrate` (radix.cpp:79-101): the overflow table it makes of the inline slots. -/
def ovfMigrate (n : RadixEdges) : RadixOvf :=
  n.inlineEdges.foldl (fun o e => ⟨o.used + 1, o.table.insert edgeHome e.1 e.2⟩)
    (ovfGrow ⟨0, .empty 0 0⟩)

/-- The insertion of `edge_add` into the overflow table (radix.cpp:118-135). -/
def ovfAdd (o : RadixOvf) (h : UInt64) (child : Nat) : RadixOvf :=
  let o := if o.table.cap * 7 / 10 < o.used + 1 then ovfGrow o else o
  ⟨o.used + 1, o.table.insert edgeHome h child⟩

/-- `edge_add` (radix.cpp:103-137). -/
def edgeAdd (n : RadixEdges) (h : UInt64) (child : Nat) : RadixEdges :=
  match n.ovf with
  | some o => { n with ovf := some (ovfAdd o h child) }
  | none =>
    match n.freeInline with
    | some i => { n with slots := Function.update n.slots i (h, child) }
    | none => ⟨fun _ => (0, 0), some (ovfAdd (ovfMigrate n) h child)⟩

/-- The insertion of `ckpt_load` (journal.cpp:472-566). -/
def ckptEdgeAdd (n : RadixEdges) (h : UInt64) (child : Nat) : RadixEdges :=
  match n.ovf with
  | none =>
    match n.freeInline with
    | some i => { n with slots := Function.update n.slots i (h, child) }
    | none =>
      -- a table of 16 slots is filled from the inline slots, without a look at its load
      let o := n.inlineEdges.foldl (fun o e => ⟨o.used + 1, o.table.insert edgeHome e.1 e.2⟩)
        (⟨0, .empty 16 0⟩ : RadixOvf)
      ⟨fun _ => (0, 0), some ⟨o.used + 1, o.table.insert edgeHome h child⟩⟩
  | some o =>
    let table :=
      if o.used + 1 > o.table.cap * 7 / 10 then
        .ofList edgeHome (o.table.cap * 2) 0 o.table.items
      else o.table
    { n with ovf := some ⟨o.used + 1, table.insert edgeHome h child⟩ }

end RadixEdges

/-- The slots of a node after edges with these hashes were added, in order, by `add`. -/
def storeBy (add : RadixEdges → UInt64 → Nat → RadixEdges) (hs : List UInt64) : RadixEdges :=
  hs.zipIdx.foldl (fun n e => add n e.1 e.2) RadixEdges.empty

/-- The slots of a node `radix_walk` built. -/
def storeOf (hs : List UInt64) : RadixEdges := storeBy RadixEdges.edgeAdd hs

/-- The slots of a node `ckpt_load` built. -/
def ckptStoreOf (hs : List UInt64) : RadixEdges := storeBy RadixEdges.ckptEdgeAdd hs

/-- The payload and the edges of the child a pointer leads to. -/
def childNo : Radix → Nat → Option (Option RadixLeaf × Radix)
  | .nil, _ => none
  | .edge _ l kids _, 0 => some (l, kids)
  | .edge _ _ _ rest, k + 1 => childNo rest k

/-- `radix_walk` without `create` (radix.cpp:139-162), over nodes whose slots are given by `store`:
the leaf of the node it returns. -/
def radixWalk (store : List UInt64 → RadixEdges) : Radix → List UInt64 → Option (Option RadixLeaf)
  | _, [] => some none
  | t, h :: path =>
    match (store t.hashes).edgeGet h with
    | none => none
    | some k => match childNo t k with
      | none => none
      | some (l, kids) => if path = [] then some l else radixWalk store kids path

/-- Apply a function to the edges of a child. -/
def modifyChild (f : Radix → Radix) : Radix → Nat → Radix
  | .nil, _ => .nil
  | .edge h l kids rest, 0 => .edge h l (f kids) rest
  | .edge h l kids rest, k + 1 => .edge h l kids (modifyChild f rest k)

/-- `radix_walk` with `create` (radix.cpp:139-162): the tree it leaves. -/
def radixCreate : Radix → List UInt64 → Radix
  | t, [] => t
  | t, h :: path =>
    match (storeOf t.hashes).edgeGet h with
    | some k => modifyChild (fun kids => radixCreate kids path) t k
    | none => t.append (.edge h none (radixCreate .nil path) .nil)

end KvTier.Model
