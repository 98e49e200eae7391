import KvTier.Lib.Buffer
import KvTier.Lib.Crc
import KvTier.Model.Put

/-!
# The bytes of a payload

What a put stages, what the writer lays out for the device, and what a get reads back: the checksums
(crc32.hpp, chunk.cpp:6-14), the staging of a striped put (cache.cpp:1246-1261), the pages of a
slice in the batch buffer (writer.cpp:296-305), and the read path of `cache_get_impl` behind the
index lookup (cache.cpp:1364-1410, 1487-1577).
-/

namespace KvTier.Model

open KvTier.Lib

/-- The memory from a pointer on. -/
abbrev Buf := Nat → UInt8

/-! ## Checksums -/

/-- The polynomial of `make_crc_table`. -/
def crcPoly : BitVec 32 := 0xEDB88320#32

/-- `crc32_partial` (crc32.hpp:27-33). -/
def crc32Partial (crc : BitVec 32) (data : List UInt8) : BitVec 32 :=
  Crc.remainder crcPoly (crc ^^^ 0xFFFFFFFF#32) (data.map UInt8.toBitVec) ^^^ 0xFFFFFFFF#32

/-- `crc32` (crc32.hpp:35-37). -/
def crc32 (data : List UInt8) : BitVec 32 := crc32Partial 0 data

-- the check value of this CRC, the one of the digits 1 to 9
example : crc32 [49, 50, 51, 52, 53, 54, 55, 56, 57] = 0xCBF43926#32 := by decide

/-- `pages_crc` (chunk.cpp:6-8). -/
def pagesCrc (buf : Buf) (npages : Nat) : Nat := (crc32 (window buf (npages * pageSize))).toNat

/-- Whether `pages_validate` (chunk.cpp:10-14) returns `KV_EOK`. -/
def pagesValidate (buf : Buf) (npages expected : Nat) : Bool :=
  decide (npages ≠ 0 ∧ pagesCrc buf npages = expected)

/-! ## Staging and laying out a striped put -/

/-- The staged stream: the records one behind the other in a fresh allocation (cache.cpp:1247-1260).
-/
def stageStream (fresh : Buf) (recs : List (List UInt8)) : Buf := layOut fresh recs

/-- `stream_len` (cache.cpp:1246). -/
def streamLen (recs : List (List UInt8)) : Nat := (recs.map List.length).sum % 2 ^ 32

/-- `stream_crc` (cache.cpp:1262). -/
def streamCrc (fresh : Buf) (recs : List (List UInt8)) : Nat :=
  pagesCrc (stageStream fresh recs) (payloadNpages (streamLen recs))

/-- A `memcpy` into the staging buffer: where to, and which bytes. -/
structure Memcpy where
  off : Nat
  bytes : List UInt8
deriving DecidableEq, Repr

/-- The copies of the staging loop, and its pointer (cache.cpp:1252-1260): an empty record is not
copied. -/
def stageCopies (recs : List (List UInt8)) : List Memcpy × Nat :=
  recs.foldl
    (fun (cs, p) l => (if l.length = 0 then cs else cs ++ [⟨p, l⟩], p + l.length)) ([], 0)

/-- What a put has done before its requests are queued: the size of its staging buffer with the
copies into it, and the requests, or `none` for an error. -/
structure PutStaging where
  buffer : Option (Nat × List Memcpy)
  reqs : Option (List PutReq)

/-- `cache_put_impl` with the memory it stages in (cache.cpp:1192-1307); `fresh` is the result of
`malloc`. -/
def cachePutStaged (cfg : Config) (a : PutArgs) (ver : Nat) (shape : Shape)
    (recs : List (List UInt8)) (fresh : Option Buf) : PutStaging :=
  let a := { a with lens := recs.map List.length }
  if maxGroups ≤ a.groupIdx ∨ cfg.maxLayers < a.lens.length then ⟨none, none⟩
  else if cfg.stripeThreshold % 2 ^ 32 < a.lens.sum then
    match fresh with
    | none => ⟨none, none⟩
    | some mem =>
      ⟨some (streamLen recs, (stageCopies recs).1),
        cachePutReqs cfg { a with streamCrc := streamCrc mem recs } ver shape⟩
  else ⟨none, cachePutReqs cfg a ver shape⟩

/-- `slice.base` of part `part` (cache.cpp:1288-1289). -/
def sliceBase (stripeUnit : Nat) (stream : Buf) (part : Nat) : Buf :=
  fun i => stream (part * stripeUnit % 2 ^ 64 + i)

/-- The pages of a striped request in the batch buffer (writer.cpp:298-304): its bytes, and zeros up
to the end of the last page. -/
def slicePages (base : Buf) (dataLen : Nat) : Buf := fun i => if i < dataLen then base i else 0

/-! ## Devices -/

/-- The pages of the devices; a page that cannot be read is `none`. -/
abbrev Disk := Nat → Nat → Option Buf

/-- `cache_sync_read` (cache.cpp:603-618): `npages` pages into `buf`, or `-KV_EREAD`. -/
def cacheSyncRead (disk : Disk) (dev page : Nat) (buf : Buf) (npages : Nat) : Option Buf :=
  if (List.range npages).all fun k => (disk dev (page + k)).isSome then
    some fun i =>
      if i < npages * pageSize then
        ((disk dev (page + i / pageSize)).map fun b => b (i % pageSize)).getD 0
      else buf i
  else none

/-! ## Reading a leaf -/

/-- The ways a read fails: the error codes of the source, and an access to the device array that the
source does not check. -/
inductive ReadErr where
  | eread
  | ecrc
  | badDevice
deriving DecidableEq, Repr

/-- A record of `cache_get_result` (kvtier.h:130-134). -/
structure RecDesc where
  layerId : Nat
  off : Nat
  len : Nat
deriving DecidableEq, Repr

/-- What the read path fills of `cache_get_result`: the first `buf_len` bytes of the buffer and the
records. -/
structure ReadResult where
  buf : List UInt8
  recs : List RecDesc
deriving DecidableEq, Repr

/-- The records of `shape_fill` (cache.cpp:1401-1407), from offset `off` and layer `i`. -/
def shapeRecs (off i : Nat) : List Nat → List RecDesc
  | [] => []
  | len :: lens => ⟨i, off, len⟩ :: shapeRecs ((off + len) % 2 ^ 32) (i + 1) lens

/-- `shape_fill` (cache.cpp:1394-1410): no records are known without a shape. -/
def shapeFill (shape : Option Shape) : Except ReadErr (List RecDesc) :=
  match shape with
  | none => .error .ecrc
  | some sh => .ok (shapeRecs 0 0 (sh.lens.take maxLayersCap))

/-- `shape_total` (cache.cpp:1384-1392). -/
def shapeTotal (shape : Option Shape) : Nat := ((shape.map (·.lens)).getD []).sum % 2 ^ 32

/-- The two allocations of a striped read: the stream and the page buffer. -/
structure ReadMem where
  stream : Buf
  tmp : Buf

/-- One part of a striped read (cache.cpp:1509-1531): the pages of the part into the page buffer,
and its bytes from there to their place in the stream. -/
def readPart (cfg : Config) (disk : Disk) (st : StripeAddr) (m : ReadMem) (p : Nat) :
    Except ReadErr ReadMem :=
  let part := st.parts.getD p StripePart.none
  if cfg.nDevs ≤ part.devId ∨ part.pageNo = 0 then .error .eread
  else
    match cacheSyncRead disk part.devId part.pageNo m.tmp part.lenPages with
    | none => .error .eread
    | some tmp =>
      let doff := p * cfg.stripeUnit % 2 ^ 32
      let partLen := min cfg.stripeUnit ((st.totalLen + 2 ^ 64 - doff) % 2 ^ 64) % 2 ^ 32
      let n := min partLen ((st.totalLen + 2 ^ 32 - doff) % 2 ^ 32)
      .ok ⟨blit m.stream doff tmp n, tmp⟩

/-- The stripe branch of `cache_get_impl` (cache.cpp:1487-1540). -/
def readStripe (cfg : Config) (disk : Disk) (m : ReadMem) (st : StripeAddr) (crc : Nat) :
    Except ReadErr (List UInt8) :=
  match (List.range st.nParts).foldlM (readPart cfg disk st) m with
  | .error e => .error e
  | .ok m =>
    if pagesValidate m.stream (payloadNpages st.totalLen) crc then
      .ok (window m.stream st.totalLen)
    else .error .ecrc

/-- `cache_read_chunk` (cache.cpp:1364-1382). -/
def cacheReadChunk (cfg : Config) (disk : Disk) (fresh : Buf) (a : KvAddr) :
    Except ReadErr Buf :=
  if cfg.nDevs ≤ a.devId then .error .badDevice
  else
    match cacheSyncRead disk a.devId a.pageNo fresh a.lenPages with
    | none => .error .eread
    | some buf => if pagesValidate buf a.lenPages a.crc then .ok buf else .error .ecrc

/-- The replicas of a leaf that is not striped, the second one when the first fails
(cache.cpp:1555-1565). -/
def readReplicas (cfg : Config) (disk : Disk) (m : ReadMem) (lf : RadixLeaf) :
    Except ReadErr (List UInt8) :=
  let first := cacheReadChunk cfg disk m.stream lf.addr0
  let chunk : Except ReadErr Buf :=
    match first with
    | .ok buf => .ok buf
    | .error .badDevice => .error .badDevice
    | .error e =>
      if lf.addr1.devId ≠ invalidDev then cacheReadChunk cfg disk m.tmp lf.addr1 else .error e
  chunk.map fun buf => window buf (shapeTotal lf.shape)

/-- The read path of `cache_get_impl` for a pinned leaf (cache.cpp:1486-1581). -/
def readLeaf (cfg : Config) (disk : Disk) (m : ReadMem) (lf : RadixLeaf) :
    Except ReadErr ReadResult := do
  let buf ← match lf.stripe with
    | some st => readStripe cfg disk m st lf.addr0.crc
    | none => readReplicas cfg disk m lf
  let recs ← shapeFill lf.shape
  .ok ⟨buf, recs⟩

end KvTier.Model
