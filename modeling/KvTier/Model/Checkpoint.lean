import KvTier.Model.Index

/-!
# The checkpoint file

`ckpt_write` and `ckpt_load` (journal.cpp:221-642) at the level of the records of the file.
-/

namespace KvTier.Model

open KvTier.Lib

/-- A leaf record (`CKPT_REC_LEAF` or `CKPT_REC_LEAF_STRIPE`) with the stripe parts that follow it.
-/
structure CkptLeafRec where
  depth : Nat
  childHash : UInt64
  prefixId : UInt64
  groupIdx : Nat
  ver : Nat
  expireTs : Nat
  lastWriteTs : Nat
  addr0 : KvAddr
  addr1 : KvAddr
  stripe : Option StripeAddr
  shapeId : Option Nat
deriving DecidableEq, Repr

/-- `ckpt_node_rec` (journal.hpp:62-79). -/
inductive CkptRec where
  | internal (depth : Nat) (childHash : UInt64)
  | leaf (rec : CkptLeafRec)
deriving DecidableEq, Repr

/-- A complete checkpoint file: header, shape table, node records. -/
structure CkptFile where
  nDevs : Nat
  regionCnt : Nat
  regionSizePages : Nat
  verCounter : Nat
  shapes : List (List Nat)
  recs : List CkptRec
deriving DecidableEq, Repr

/-- The leaf record of a node (journal.cpp:235-266). -/
def ckptLeafRec (depth : Nat) (childHash : UInt64) (lf : RadixLeaf) : CkptLeafRec where
  depth := depth
  childHash := childHash
  prefixId := lf.prefixId
  groupIdx := depth - 1
  ver := lf.ver
  expireTs := lf.addr0.expireTs
  lastWriteTs := lf.addr0.lastWriteTs
  addr0 := lf.addr0
  addr1 := lf.addr1
  stripe := lf.stripe
  shapeId := lf.shape.map (·.id)

/-- `ckpt_write_rec` over the edges of a node at depth `d - 1` (journal.cpp:221-287). -/
def ckptWriteRec : Nat → Radix → List CkptRec
  | _, .nil => []
  | d, .edge h l kids rest =>
    .internal d h :: (l.toList.map fun lf => .leaf (ckptLeafRec d h lf)) ++
      ckptWriteRec (d + 1) kids ++ ckptWriteRec d rest

/-- `ckpt_write` (journal.cpp:289-384). -/
def ckptWrite (idx : Index) (verCounter nDevs regionCnt regionSizePages : Nat) : CkptFile where
  nDevs := nDevs
  regionCnt := regionCnt
  regionSizePages := regionSizePages
  verCounter := verCounter
  shapes := idx.shapes.map (·.lens)
  recs := ckptWriteRec 1 idx.tree

/-- The results of `ckpt_load` other than success. -/
inductive CkptErr where
  | enoent
  | einval
  | eio
  | ecrc
  | fault
deriving DecidableEq, Repr

/-- The entries of the loader's node stack (journal.cpp:433-434). -/
def ckptStackCap : Nat := 128

/-- The loader's tree, node stack and leaf counter. -/
structure CkptLoad where
  tree : Radix
  stack : Nat → Option Path
  sp : Nat
  nLeaves : Nat

/-- The loader before the first record: only the root is on the stack. -/
def CkptLoad.init : CkptLoad where
  tree := .nil
  stack := fun i => if i = 0 then some [] else none
  sp := 1
  nLeaves := 0

/-- The leaf a record describes (journal.cpp:580-615). -/
def ckptLeaf (shapes : List Shape) (r : CkptLeafRec) : RadixLeaf where
  refcnt := 0
  ver := r.ver
  prefixId := r.prefixId
  addr0 := r.addr0
  addr1 := r.addr1
  stripe := r.stripe
  shape := r.shapeId.bind (shapes[·]?)

/-- One record of `ckpt_load` (journal.cpp:457-637). -/
def ckptLoadRec (shapes : List Shape) (s : CkptLoad) : CkptRec → Except CkptErr CkptLoad
  | .internal d h =>
    let sp := min s.sp d
    if sp = 0 then .error .eio
    else if ckptStackCap < d then .error .fault
    else match s.stack (d - 1) with
      | none => .error .fault
      | some parent =>
        let tree := s.tree.appendAt parent (.edge h none .nil .nil)
        if sp < ckptStackCap then
          .ok { s with
            tree := tree
            stack := Function.update s.stack sp (some (parent ++ [h]))
            sp := sp + 1 }
        else .ok { s with tree := tree, sp := sp }
  | .leaf r =>
    let sp := min s.sp (r.depth + 1)
    if sp < r.depth + 1 then .error .eio
    else match s.stack r.depth with
      | none => .error .fault
      | some node =>
        .ok { s with
          tree := s.tree.setLeaf node (some (ckptLeaf shapes r))
          sp := sp
          nLeaves := s.nLeaves + 1 }

/-- The record loop of `ckpt_load`: what was built before an error stays. -/
def ckptLoadRecs (shapes : List Shape) : CkptLoad → List CkptRec → CkptLoad × Option CkptErr
  | s, [] => (s, none)
  | s, r :: rs => match ckptLoadRec shapes s r with
    | .ok s' => ckptLoadRecs shapes s' rs
    | .error e => (s, some e)

/-- The shape table of the file is interned in order (journal.cpp:413-431). -/
def ckptLoadShapes : List Shape → List (List Nat) → List Shape × Option CkptErr
  | items, [] => (items, none)
  | items, lens :: rest =>
    if maxLayersCap < lens.length then (items, some .eio)
    else ckptLoadShapes (shapePoolIntern items lens).1 rest

/-- `ckpt_load` into an empty index (journal.cpp:386-642). -/
def ckptLoad (f : Option CkptFile) (nDevs regionCnt regionSizePages : Nat) :
    Index × Option CkptErr :=
  match f with
  | none => (Index.empty, some .enoent)
  | some f =>
    if f.nDevs ≠ nDevs ∨ f.regionCnt ≠ regionCnt ∨ f.regionSizePages ≠ regionSizePages then
      (Index.empty, some .einval)
    else match ckptLoadShapes [] f.shapes with
      | (shapes, some e) => ({ Index.empty with shapes := shapes }, some e)
      | (shapes, none) =>
        let (s, e) := ckptLoadRecs shapes CkptLoad.init f.recs
        ({ Index.empty with tree := s.tree, shapes := shapes, nLeaves := s.nLeaves }, e)

/-- `snprintf` into a buffer of `size` bytes: a name is cut to make room for the 0 at its end. -/
def snprintf (size : Nat) (name : List UInt8) : List UInt8 := name.take (size - 1)

/-- `cache::ckpt_path` (cache.cpp:1012, cache.hpp:88): the URI of device 0 and `.ckpt`. -/
def ckptPath (uri : List UInt8) : List UInt8 :=
  snprintf 1024 (uri ++ [0x2e, 0x63, 0x6b, 0x70, 0x74])

/-- The file `ckpt_write` opens for writing, to rename it later (journal.cpp:292-297): the path and
`.tmp`. -/
def ckptTmp (path : List UInt8) : List UInt8 := snprintf 512 (path ++ [0x2e, 0x74, 0x6d, 0x70])

/-- `radix_visit` with `side_build_cb` (cache.cpp:838-847, 1062-1063). -/
def sideBuild (idx : Index) : Index :=
  { idx with
    side := (idx.tree.entries []).foldl
      (fun t e => sidePut t e.2.prefixId (groupOf e.1) e.1) idx.side }

end KvTier.Model
