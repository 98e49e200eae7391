import KvTier.Lib.Codec
import KvTier.Model.Checkpoint
import KvTier.Model.EdgeStore
import KvTier.Model.Payload

/-!
# The checkpoint file, byte by byte

`ckpt_write` and `ckpt_load` (journal.cpp:221-642) on the bytes of the file: the header, the shape
table, and the packed node records with their checksums and stripe parts.
-/

namespace KvTier.Model

open KvTier.Lib

/-! ## Layouts -/

/-- `struct kv_addr` as it is stored: `dev_id`, `page_no`, `page_off`, `len_pages`, `last_write_ts`,
`expire_ts`, `crc` (radix.hpp:16-27). -/
abbrev RawKvAddr := UInt32 × UInt64 × UInt32 × UInt32 × UInt64 × UInt32 × UInt32

/-- The layout of a `kv_addr`, packed. -/
def addrCodec : Codec RawKvAddr :=
  .pair .u32 <| .pair .u64 <| .pair .u32 <| .pair .u32 <| .pair .u64 <| .pair .u32 .u32

/-- An address as it is stored. -/
def KvAddr.toRaw (a : KvAddr) : RawKvAddr :=
  (.ofNat a.devId, .ofNat a.pageNo, .ofNat a.pageOff, .ofNat a.lenPages, .ofNat a.lastWriteTs,
    .ofNat a.expireTs, .ofNat a.crc)

/-- An address as it is read. -/
def KvAddr.ofRaw : RawKvAddr → KvAddr
  | (devId, pageNo, pageOff, lenPages, lastWriteTs, expireTs, crc) =>
    ⟨devId.toNat, pageNo.toNat, pageOff.toNat, lenPages.toNat, lastWriteTs.toNat, expireTs.toNat,
      crc.toNat⟩

/-- `struct kv_stripe_part` as it is stored: `dev_id`, padding, `page_no`, `len_pages`, padding
(radix.hpp:29-33). -/
abbrev RawPart := UInt32 × UInt32 × UInt64 × UInt32 × UInt32

/-- The layout of a `kv_stripe_part`. -/
def partCodec : Codec RawPart := .pair .u32 <| .pair .u32 <| .pair .u64 <| .pair .u32 .u32

/-- A part as it is stored. -/
def StripePart.toRaw (p : StripePart) : RawPart :=
  (.ofNat p.devId, 0, .ofNat p.pageNo, .ofNat p.lenPages, 0)

/-- A part as it is read. -/
def StripePart.ofRaw : RawPart → StripePart
  | (devId, _, pageNo, lenPages, _) => ⟨devId.toNat, pageNo.toNat, lenPages.toNat⟩

/-- `struct ckpt_hdr` (journal.hpp:44-54). -/
structure RawCkptHdr where
  magic : UInt32
  version : UInt32
  nDevs : UInt32
  regionCnt : UInt32
  regionSizePages : UInt64
  nRecs : UInt64
  verCounter : UInt64
  crc32 : UInt32
  pad : UInt32
deriving DecidableEq, Repr

/-- The layout of the header, packed. -/
def RawCkptHdr.codec : Codec RawCkptHdr :=
  (.pair .u32 <| .pair .u32 <| .pair .u32 <| .pair .u32 <| .pair .u64 <| .pair .u64 <| .pair .u64 <|
    .pair .u32 .u32 : Codec _).iso
  (fun (magic, version, nDevs, regionCnt, regionSizePages, nRecs, verCounter, crc32, pad) =>
    ⟨magic, version, nDevs, regionCnt, regionSizePages, nRecs, verCounter, crc32, pad⟩)
  (fun h => (h.magic, h.version, h.nDevs, h.regionCnt, h.regionSizePages, h.nRecs, h.verCounter,
    h.crc32, h.pad))
  (fun _ => rfl)

/-- `struct ckpt_node_rec` (journal.hpp:62-79). -/
structure RawNodeRec where
  type : UInt8
  pad : UInt8 × UInt8 × UInt8
  depth : UInt32
  childHash : UInt64
  prefixId : UInt64
  groupIdx : UInt32
  ver : UInt32
  expireTs : UInt32
  lastWriteTs : UInt64
  addr0 : RawKvAddr
  addr1 : RawKvAddr
  nParts : UInt32
  totalLen : UInt32
  shapeId : UInt32
  crc32 : UInt32
deriving DecidableEq, Repr

/-- A record as `memset` leaves it. -/
def RawNodeRec.zero : RawNodeRec :=
  ⟨0, (0, 0, 0), 0, 0, 0, 0, 0, 0, 0, KvAddr.zero.toRaw, KvAddr.zero.toRaw, 0, 0, 0, 0⟩

/-- The layout of a node record, packed. -/
def RawNodeRec.codec : Codec RawNodeRec :=
  (.pair .u8 <| .pair (.pair .u8 <| .pair .u8 .u8) <| .pair .u32 <| .pair .u64 <| .pair .u64 <|
    .pair .u32 <| .pair .u32 <| .pair .u32 <| .pair .u64 <| .pair addrCodec <| .pair addrCodec <|
    .pair .u32 <| .pair .u32 <| .pair .u32 .u32 : Codec _).iso
  (fun (type, pad, depth, childHash, prefixId, groupIdx, ver, expireTs, lastWriteTs, addr0, addr1,
      nParts, totalLen, shapeId, crc32) =>
    ⟨type, pad, depth, childHash, prefixId, groupIdx, ver, expireTs, lastWriteTs, addr0, addr1,
      nParts, totalLen, shapeId, crc32⟩)
  (fun r => (r.type, r.pad, r.depth, r.childHash, r.prefixId, r.groupIdx, r.ver, r.expireTs,
    r.lastWriteTs, r.addr0, r.addr1, r.nParts, r.totalLen, r.shapeId, r.crc32))
  (fun _ => rfl)

/-- The checksum of a node record: all but its type and the checksum itself (journal.cpp:229-230).
-/
def RawNodeRec.checksum (r : RawNodeRec) : UInt32 :=
  ⟨Model.crc32 (((RawNodeRec.codec.enc r).drop 4).take 124)⟩

/-- The checksum of the header: all but its magic, the checksum and the shape count
(journal.cpp:351-352). -/
def RawCkptHdr.checksum (h : RawCkptHdr) : UInt32 :=
  ⟨Model.crc32 (((RawCkptHdr.codec.enc h).drop 4).take 36)⟩

/-- `KV_CP_MAGIC` (kvtier.h:40). -/
def ckptMagic : UInt32 := 0x504B435B

/-- `CKPT_REC_INTERNAL` (journal.hpp:56). -/
def ckptRecInternal : UInt8 := 1

/-- `CKPT_REC_LEAF` (journal.hpp:57). -/
def ckptRecLeaf : UInt8 := 2

/-- `CKPT_REC_LEAF_STRIPE` (journal.hpp:58). -/
def ckptRecLeafStripe : UInt8 := 3

/-- `KV_SHAPE_NONE` (journal.hpp:59). -/
def shapeNone : UInt32 := 0xFFFFFFFF

/-! ## Writing -/

/-- A node record with its checksum, as it is written. -/
def RawNodeRec.bytes (r : RawNodeRec) : List UInt8 :=
  RawNodeRec.codec.enc { r with crc32 := RawNodeRec.checksum { r with crc32 := 0 } }

/-- The fields of a leaf record (journal.cpp:237-257). -/
def rawLeafRec (r : CkptLeafRec) : RawNodeRec :=
  { RawNodeRec.zero with
    type := if r.stripe.isSome then ckptRecLeafStripe else ckptRecLeaf
    nParts := .ofNat ((r.stripe.map (·.nParts)).getD 0)
    totalLen := .ofNat ((r.stripe.map (·.totalLen)).getD 0)
    depth := .ofNat r.depth
    childHash := r.childHash
    prefixId := r.prefixId
    groupIdx := .ofNat r.groupIdx
    ver := .ofNat r.ver
    expireTs := .ofNat r.expireTs
    lastWriteTs := .ofNat r.lastWriteTs
    shapeId := (r.shapeId.map UInt32.ofNat).getD shapeNone
    addr0 := r.addr0.toRaw
    addr1 := r.addr1.toRaw }

/-- The fields of the record of a node (journal.cpp:223-227). -/
def rawInternalRec (depth : Nat) (childHash : UInt64) : RawNodeRec :=
  { RawNodeRec.zero with
    type := ckptRecInternal
    depth := .ofNat depth
    childHash := childHash }

/-- The stripe parts behind a leaf record (journal.cpp:261-266). -/
def partsBytes (r : CkptLeafRec) : List UInt8 :=
  match r.stripe with
  | none => []
  | some st => partCodec.encAll ((st.parts.take st.nParts).map StripePart.toRaw)

/-- The bytes of one record. -/
def CkptRec.bytes : CkptRec → List UInt8
  | .internal depth childHash => (rawInternalRec depth childHash).bytes
  | .leaf r => (rawLeafRec r).bytes ++ partsBytes r

/-- What stands for the edges of a node, in the order of its slots (journal.cpp:269-285). -/
def inSlotOrder {γ : Type} (hs : List UInt64) (xs : List γ) : List γ :=
  (storeOf hs).edges.filterMap fun e => xs[e.2]?

/-- `ckpt_write_rec` for each edge of a node at depth `d - 1` (journal.cpp:221-287). -/
def ckptWriteEdges : Nat → Radix → List (List CkptRec)
  | _, .nil => []
  | d, .edge h l kids rest =>
    (.internal d h :: (l.toList.map fun lf => .leaf (ckptLeafRec d h lf)) ++
      (inSlotOrder kids.hashes (ckptWriteEdges (d + 1) kids)).flatten) :: ckptWriteEdges d rest

/-- The records of a tree as they are written. -/
def ckptTreeRecs (t : Radix) : List CkptRec :=
  (inSlotOrder t.hashes (ckptWriteEdges 1 t)).flatten

/-- One shape of the table (journal.cpp:316-325). -/
def shapeBytes (lens : List Nat) : List UInt8 :=
  Codec.u32.enc (.ofNat lens.length) ++ Codec.u32.encAll (lens.map UInt32.ofNat)

/-- The header when the file is complete (journal.cpp:299-309, 350-352). -/
def ckptHdr (verCounter : UInt64) (nDevs regionCnt : UInt32) (regionSizePages : UInt64)
    (nShapes nRecs : Nat) : RawCkptHdr :=
  let h : RawCkptHdr :=
    { magic := ckptMagic
      version := 2
      nDevs := nDevs
      regionCnt := regionCnt
      regionSizePages := regionSizePages
      nRecs := .ofNat nRecs
      verCounter := verCounter
      crc32 := 0
      pad := .ofNat nShapes }
  { h with crc32 := h.checksum }

/-- `ckpt_write` (journal.cpp:289-384): the file it leaves. -/
def ckptWriteBytes (t : Radix) (shapes : List Shape) (verCounter : UInt64)
    (nDevs regionCnt : UInt32) (regionSizePages : UInt64) : List UInt8 :=
  RawCkptHdr.codec.enc (ckptHdr verCounter nDevs regionCnt regionSizePages shapes.length
      (ckptTreeRecs t).length) ++
    ((shapes.flatMap fun s => shapeBytes s.lens) ++ (ckptTreeRecs t).flatMap CkptRec.bytes)

/-! ## Loading -/

/-- The shape table of the file, `n` shapes (journal.cpp:413-431). -/
def ckptReadShapes : Nat → List Shape → List UInt8 → List Shape × Except CkptErr (List UInt8)
  | 0, items, bs => (items, .ok bs)
  | n + 1, items, bs =>
    let len := (Codec.u32.dec bs).toNat
    if bs.length < 4 ∨ maxLayersCap < len then (items, .error .eio)
    else if (bs.drop 4).length < len * 4 then (items, .error .eio)
    else
      let lens := (Codec.u32.decAll len (bs.drop 4)).map UInt32.toNat
      ckptReadShapes n (shapePoolIntern items lens).1 ((bs.drop 4).drop (len * 4))

/-- The leaf record that was read, with its stripe parts (journal.cpp:580-611). -/
def leafRecOf (r : RawNodeRec) (stripe : Option StripeAddr) : CkptLeafRec where
  depth := r.depth.toNat
  childHash := r.childHash
  prefixId := r.prefixId
  groupIdx := r.groupIdx.toNat
  ver := r.ver.toNat
  expireTs := r.expireTs.toNat
  lastWriteTs := r.lastWriteTs.toNat
  addr0 := .ofRaw r.addr0
  addr1 := .ofRaw r.addr1
  stripe := stripe
  shapeId := if r.shapeId = shapeNone then none else some r.shapeId.toNat

/-- The record at the front of the file, and what is behind it (journal.cpp:443-456, 592-610). -/
def ckptReadRec (bs : List UInt8) : Except CkptErr (CkptRec × List UInt8) :=
  if bs.length < 132 then .error .eio
  else
    let r := RawNodeRec.codec.dec bs
    let rest := bs.drop 132
    if r.crc32 ≠ r.checksum then .error .ecrc
    else if r.type = ckptRecInternal then .ok (.internal r.depth.toNat r.childHash, rest)
    else if r.type = ckptRecLeaf then .ok (.leaf (leafRecOf r none), rest)
    else if r.type = ckptRecLeafStripe then
      if rest.length < r.nParts.toNat * 24 then .error .eio
      else
        let parts := (partCodec.decAll r.nParts.toNat rest).map StripePart.ofRaw
        .ok (.leaf (leafRecOf r (some ⟨r.nParts.toNat, r.totalLen.toNat, parts⟩)),
          rest.drop (r.nParts.toNat * 24))
    else .error .einval

/-- The record loop of `ckpt_load`, `n` records (journal.cpp:442-637). -/
def ckptReadRecs (shapes : List Shape) : Nat → CkptLoad → List UInt8 → CkptLoad × Option CkptErr
  | 0, s, _ => (s, none)
  | n + 1, s, bs =>
    match ckptReadRec bs with
    | .error e => (s, some e)
    | .ok (r, rest) => match ckptLoadRec shapes s r with
      | .ok s' => ckptReadRecs shapes n s' rest
      | .error e => (s, some e)

/-- `ckpt_load` into an empty tree and an empty pool (journal.cpp:386-642): the tree, the pool and
the number of leaves. -/
def ckptLoadBytes (bs : List UInt8) (nDevs regionCnt : UInt32) (regionSizePages : UInt64) :
    Index × Option CkptErr :=
  let h := RawCkptHdr.codec.dec bs
  if bs.length < 48 then (Index.empty, some .eio)
  else if h.magic ≠ ckptMagic ∨ h.crc32 ≠ h.checksum then (Index.empty, some .ecrc)
  else if h.nDevs ≠ nDevs ∨ h.regionCnt ≠ regionCnt ∨ h.regionSizePages ≠ regionSizePages then
    (Index.empty, some .einval)
  else match ckptReadShapes h.pad.toNat [] (bs.drop 48) with
    | (shapes, .error e) => ({ Index.empty with shapes := shapes }, some e)
    | (shapes, .ok rest) =>
      let (s, e) := ckptReadRecs shapes h.nRecs.toNat CkptLoad.init rest
      ({ Index.empty with tree := s.tree, shapes := shapes, nLeaves := s.nLeaves }, e)

end KvTier.Model
