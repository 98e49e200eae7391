import Mathlib.Data.List.Basic
import KvTier.Lib.Trie

/-!
# The data of the cache

Addresses, leaves, journal records and requests as the sources declare them (`kvtier.h`,
`radix.hpp`, `journal.hpp`, `writer.hpp`).
-/

namespace KvTier.Model

/-- `KV_PAGE_SIZE`. -/
def pageSize : Nat := 4096

/-- `KV_INVALID_DEV`, the device id of an address that is not there. -/
def invalidDev : Nat := 2 ^ 32 - 1

/-- `KV_MAX_LAYERS_CAP`. -/
def maxLayersCap : Nat := 256

/-- `KV_MAX_STRIPE_PARTS`. -/
def maxStripeParts : Nat := 1024

/-- `KV_MAX_GROUPS`. -/
def maxGroups : Nat := 256

/-- `KV_REPLICA_CNT`. -/
def replicaCnt : Nat := 2

/-- A path of group hashes from the root of the radix tree. -/
abbrev Path := List UInt64

/-- `kv_addr` (radix.hpp:17-25). -/
structure KvAddr where
  devId : Nat
  pageNo : Nat
  pageOff : Nat
  lenPages : Nat
  lastWriteTs : Nat
  expireTs : Nat
  crc : Nat
deriving DecidableEq, Repr

/-- An address as `calloc` leaves it. -/
def KvAddr.zero : KvAddr := ⟨0, 0, 0, 0, 0, 0, 0⟩

/-- An address slot with no replica in it. -/
def KvAddr.none : KvAddr := { KvAddr.zero with devId := invalidDev }

/-- `kv_stripe_part` (radix.hpp:29-33). -/
structure StripePart where
  devId : Nat
  pageNo : Nat
  lenPages : Nat
deriving DecidableEq, Repr

/-- A part slot before its part is published. -/
def StripePart.none : StripePart := ⟨invalidDev, 0, 0⟩

/-- `kv_stripe_addr` with the part array allocated behind it (radix.hpp:35-45). -/
structure StripeAddr where
  nParts : Nat
  totalLen : Nat
  parts : List StripePart
deriving DecidableEq, Repr

/-- `kv_shape` with its record lengths (radix.hpp:47-57). -/
structure Shape where
  id : Nat
  lens : List Nat
deriving DecidableEq, Repr

/-- `radix_leaf` (radix.hpp:68-75). -/
structure RadixLeaf where
  refcnt : Nat
  ver : Nat
  prefixId : UInt64
  addr0 : KvAddr
  addr1 : KvAddr
  stripe : Option StripeAddr
  shape : Option Shape
deriving DecidableEq, Repr

/-- The radix tree: its nodes carry leaves (radix.hpp:92-106). -/
abbrev Radix := Lib.Trie UInt64 RadixLeaf

/-- `KV_CHUNK_F_*` and `KV_JFLAG_*` (kvtier.h, journal.hpp:18-19). -/
structure Flags where
  replica : Bool
  stripe : Bool
  hot : Bool
  slot1 : Bool
  uniform : Bool
deriving DecidableEq, Repr

/-- No flag set. -/
def Flags.empty : Flags := ⟨false, false, false, false, false⟩

/-- `KV_JOP_*`. -/
inductive JOp where
  | put
  | del
  | trim
deriving DecidableEq, Repr

/-- `journal_rec` with the data crc, lengths and path stored behind it (journal.hpp:23-42). -/
structure JournalRec where
  op : JOp
  devId : Nat
  prefixId : UInt64
  groupIdx : Nat
  ver : Nat
  addrDev : Nat
  addrPage : Nat
  addrOff : Nat
  addrLen : Nat
  stripeIdx : Nat
  stripeCnt : Nat
  flags : Flags
  expireTs : Nat
  nRecs : Nat
  dataCrc : Nat
  lens : List Nat
  path : Path
deriving DecidableEq, Repr

/-- `side_slot` (cache.hpp:37-42); only used slots are listed. -/
structure SideSlot where
  prefixId : UInt64
  groupIdx : Nat
  node : Path
deriving DecidableEq, Repr

/-- `put_req` (writer.hpp:58-85): what the completion path reads of a request, with the device whose
queue it is in. -/
structure PutReq where
  prefixId : UInt64
  groupIdx : Nat
  path : Path
  expireTs : Nat
  ver : Nat
  flags : Flags
  stripeIdx : Nat
  stripeCnt : Nat
  stripeTotal : Nat
  dataLen : Nat
  crc : Nat
  slot : Nat
  shape : Shape
  dev : Nat
deriving DecidableEq, Repr

/-- `payload_npages` (chunk.hpp:43-46). -/
def payloadNpages (len : Nat) : Nat := ((len + pageSize - 1) / pageSize) % 2 ^ 32

/-- `hash_mix64` (hash.hpp:9-16). -/
def hashMix64 (x : UInt64) : UInt64 :=
  let x := x ^^^ (x >>> 30)
  let x := x * 0xbf58476d1ce4e5b9
  let x := x ^^^ (x >>> 27)
  let x := x * 0x94d049bb133111eb
  x ^^^ (x >>> 31)

/-- `base_dev` of a put (cache.cpp:1217-1218). -/
def baseDev (nDevs : Nat) (prefixId : UInt64) : Nat := (hashMix64 prefixId).toNat % nDevs

theorem baseDev_lt {nDevs : Nat} (h : 0 < nDevs) (p : UInt64) : baseDev nDevs p < nDevs :=
  Nat.mod_lt _ h

end KvTier.Model
