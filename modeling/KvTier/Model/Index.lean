import KvTier.Model.Types

/-!
# The in-memory index

The radix tree, the side table and the shape pool of `struct cache`, with the operations the
completion path and recovery use on them: `side_get`, `side_put`, `radix_walk`, `shape_pool_intern`,
`leaf_publish` and `leaf_drop`.
-/

namespace KvTier.Model

open KvTier.Lib

/-- The index of a cache. `oob` records that some write went past an allocated part
array. -/
structure Index where
  tree : Radix
  side : List SideSlot
  shapes : List Shape
  nLeaves : Nat
  oob : Bool
deriving DecidableEq, Repr

/-- The index `cache_open_impl` starts from. -/
def Index.empty : Index := ⟨.nil, [], [], 0, false⟩

/-- `side_get` (cache.cpp:128-142). -/
def sideGet (t : List SideSlot) (prefixId : UInt64) (groupIdx : Nat) : Option Path :=
  (t.find? fun s => s.prefixId == prefixId && s.groupIdx == groupIdx).map (·.node)

/-- `side_put` (cache.cpp:67-89): the slot of the key is overwritten, or a new one taken. -/
def sidePut : List SideSlot → UInt64 → Nat → Path → List SideSlot
  | [], prefixId, groupIdx, node => [⟨prefixId, groupIdx, node⟩]
  | s :: t, prefixId, groupIdx, node =>
    if s.prefixId == prefixId && s.groupIdx == groupIdx then { s with node := node } :: t
    else s :: sidePut t prefixId groupIdx node

/-- `shape_pool_intern` (cache.cpp:144-167). -/
def shapePoolIntern (items : List Shape) (lens : List Nat) : List Shape × Shape :=
  match items.find? fun s => s.lens == lens with
  | some s => (items, s)
  | none => (items ++ [⟨items.length, lens⟩], ⟨items.length, lens⟩)

/-- The node of a key, as both the completion path and replay find it (writer.cpp:184-190,
cache.cpp:703-713): through the side table, else by walking and creating the path. -/
def resolveNode (idx : Index) (prefixId : UInt64) (groupIdx : Nat) (path : Path) :
    Index × Path :=
  match sideGet idx.side prefixId groupIdx with
  | some node => (idx, node)
  | none =>
    ({ idx with
        tree := idx.tree.insert path
        side := sidePut idx.side prefixId groupIdx path }, path)

/-! ## Publishing a leaf -/

/-- The arguments of `leaf_publish` after the node (cache.cpp:278-283). -/
structure PublishArgs where
  prefixId : UInt64
  groupIdx : Nat
  ver : Nat
  addr : KvAddr
  slot : Nat
  flags : Flags
  stripeIdx : Nat
  stripeCnt : Nat
  stripeTotal : Nat
  dataLen : Nat
  shape : Option Shape
  path : Path
deriving DecidableEq, Repr

/-- An extent the live-byte counters are told about: device, first page, pages. -/
abbrev Extent := StripePart

/-- The extent of an address. -/
def KvAddr.extent (a : KvAddr) : Extent := ⟨a.devId, a.pageNo, a.lenPages⟩

/-- The extents `leaf_sub_live` and `leaf_drop` subtract (cache.cpp:227-239, 404-414). -/
def RadixLeaf.extents (lf : RadixLeaf) : List Extent :=
  (if lf.addr0.devId ≠ invalidDev then [lf.addr0.extent] else []) ++
  (if lf.addr1.devId ≠ invalidDev then [lf.addr1.extent] else []) ++
  (lf.stripe.map (·.parts)).getD []

/-- What `leaf_publish` does to its node. -/
structure PublishResult where
  leaf : Option RadixLeaf
  accepted : Bool
  sub : List Extent
  add : List Extent
  oob : Bool
deriving DecidableEq, Repr

/-- The address slot `slot` of a leaf. -/
def RadixLeaf.addr (lf : RadixLeaf) (slot : Nat) : KvAddr :=
  if slot = 0 then lf.addr0 else lf.addr1

/-- Overwrite the address slot `slot` of a leaf. -/
def RadixLeaf.setAddr (lf : RadixLeaf) (slot : Nat) (a : KvAddr) : RadixLeaf :=
  if slot = 0 then { lf with addr0 := a } else { lf with addr1 := a }

/-- The striped leaf made from the first part that is published (cache.cpp:318-342). -/
def newStripeLeaf (a : PublishArgs) : RadixLeaf where
  refcnt := 0
  ver := a.ver
  prefixId := a.prefixId
  addr0 := { KvAddr.zero with crc := a.addr.crc }
  addr1 := KvAddr.zero
  stripe := some
    { nParts := a.stripeCnt
      totalLen := a.stripeTotal
      parts := (List.replicate a.stripeCnt StripePart.none).set a.stripeIdx a.addr.extent }
  shape := a.shape

/-- The leaf made from the first replica that is published (cache.cpp:378-387). -/
def newPlainLeaf (a : PublishArgs) : RadixLeaf :=
  RadixLeaf.setAddr
    { refcnt := 0
      ver := a.ver
      prefixId := a.prefixId
      addr0 := KvAddr.none
      addr1 := KvAddr.none
      stripe := none
      shape := a.shape }
    (if a.slot < replicaCnt then a.slot else 0) a.addr

/-- A further part of the version that is already there (cache.cpp:291-311). -/
def addStripePart (old : RadixLeaf) (st : StripeAddr) (a : PublishArgs) : RadixLeaf :=
  { old with
    addr0 := { old.addr0 with crc := a.addr.crc }
    stripe := some { st with parts := st.parts.set a.stripeIdx a.addr.extent }
    shape := old.shape <|> a.shape }

/-- A further replica of the version that is already there (cache.cpp:357-368). -/
def addReplica (old : RadixLeaf) (a : PublishArgs) : RadixLeaf :=
  { old.setAddr a.slot a.addr with shape := old.shape <|> a.shape }

/-- The extents of the leaf that is replaced. -/
def oldExtents (old : Option RadixLeaf) : List Extent := (old.map RadixLeaf.extents).getD []

/-- `leaf_publish` on the old leaf of the node (cache.cpp:284-395). -/
def leafPublish (old : Option RadixLeaf) (a : PublishArgs) : PublishResult :=
  let rejected : PublishResult := ⟨old, false, [], [], false⟩
  if a.flags.stripe then
    let fresh : PublishResult :=
      ⟨some (newStripeLeaf a), true, oldExtents old, [a.addr.extent],
        decide (a.stripeCnt ≤ a.stripeIdx)⟩
    match old with
    | none => fresh
    | some lf =>
      if lf.ver > a.ver then rejected
      else if lf.ver = a.ver then
        match lf.stripe with
        | some st =>
          let part := st.parts.getD a.stripeIdx StripePart.none
          ⟨some (addStripePart lf st a), true,
            if part.devId ≠ invalidDev then [part] else [], [a.addr.extent],
            decide (st.parts.length ≤ a.stripeIdx)⟩
        | none => fresh
      else fresh
  else
    let fresh : PublishResult :=
      ⟨some (newPlainLeaf a), true, oldExtents old, [a.addr.extent], false⟩
    match old with
    | none => fresh
    | some lf =>
      if lf.ver > a.ver then rejected
      else if lf.ver = a.ver then
        if a.slot < replicaCnt then
          let was := lf.addr a.slot
          ⟨some (addReplica lf a), true, if was.devId ≠ invalidDev then [was.extent] else [],
            [a.addr.extent], false⟩
        else rejected
      else fresh

/-- `leaf_publish` on a node of the index: the leaf is replaced and counted. -/
def Index.publish (idx : Index) (node : Path) (a : PublishArgs) : Index :=
  let old := idx.tree.leafAt node
  let r := leafPublish old a
  { idx with
    tree := idx.tree.setLeaf node r.leaf
    nLeaves := if old.isNone ∧ r.leaf.isSome then idx.nLeaves + 1 else idx.nLeaves
    oob := idx.oob || r.oob }

/-- `leaf_drop` on a node of the index (cache.cpp:397-423). -/
def Index.drop (idx : Index) (node : Path) : Index :=
  match idx.tree.leafAt node with
  | none => idx
  | some _ =>
    { idx with tree := idx.tree.setLeaf node none, nLeaves := idx.nLeaves - 1 }

/-- `cache_evict_impl` on the node its tokens lead to (cache.cpp:1608-1618): a pinned leaf is busy.
-/
def Index.evict (idx : Index) (path : Path) : Index :=
  match idx.tree.leafAt path with
  | none => idx
  | some lf => if 0 < lf.refcnt then idx else idx.drop path

/-- The journal `leaf_drop` writes its DEL record to (cache.cpp:415-417). -/
def RadixLeaf.delJournal (lf : RadixLeaf) : Nat :=
  if lf.addr0.devId = invalidDev then 0 else lf.addr0.devId

/-- The group index of a node, from its depth (cache.cpp:403, 419). -/
def groupOf (node : Path) : Nat := node.length - 1

end KvTier.Model
