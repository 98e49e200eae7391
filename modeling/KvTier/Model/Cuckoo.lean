import KvTier.Model.Types

/-!
# The cuckoo filter

`cuckoo.cpp`, the tombstones of a build with `KV_USE_CUCKOO_TOMB`: eight-bit fingerprints in buckets
of four slots, each in one of two buckets that are found from the key, or from the other bucket and
the fingerprint.
-/

namespace KvTier.Model

/-- `CK_BUCKET_SLOTS`. -/
def ckBucketSlots : Nat := 4

/-- `CK_MAX_KICKS`. -/
def ckMaxKicks : Nat := 500

/-- `fp_of` (cuckoo.cpp:27-32). -/
def fpOf (key : UInt64) : UInt8 :=
  let fp := (hashMix64 (key ^^^ 0x9e3779b97f4a7c15)).toUInt8
  if fp = 0 then 1 else fp

/-- `alt_index` (cuckoo.cpp:34-36). -/
def altIndex (nBuckets i : Nat) (fp : UInt8) : Nat :=
  (i ^^^ (hashMix64 fp.toUInt64).toNat) &&& (nBuckets - 1)

/-- `bucket_has` (cuckoo.cpp:64-69). -/
def bucketHas (b : List UInt8) (fp : UInt8) : Bool := b.any (· == fp)

/-- `bucket_insert` (cuckoo.cpp:71-78): the first free slot is filled, or there is none. -/
def bucketInsert : List UInt8 → UInt8 → Option (List UInt8)
  | [], _ => none
  | x :: b, fp => if x = 0 then some (fp :: b) else (bucketInsert b fp).map (x :: ·)

/-- `bucket_remove` (cuckoo.cpp:80-87): the first slot with the fingerprint is freed. -/
def bucketRemove : List UInt8 → UInt8 → Option (List UInt8)
  | [], _ => none
  | x :: b, fp => if x = fp then some (0 :: b) else (bucketRemove b fp).map (x :: ·)

/-- `struct kv_cuckoo` (cuckoo.cpp:20-25). -/
structure Cuckoo where
  nBuckets : Nat
  count : Nat
  buckets : List (List UInt8)
deriving DecidableEq, Repr

/-- What the displacing loop carries: the buckets, where it is, and the fingerprint in hand. -/
structure Kick where
  buckets : List (List UInt8)
  cur : Nat
  fp : UInt8
deriving DecidableEq, Repr

namespace Kick

/-- One displacement (cuckoo.cpp:104-110). -/
def kick (nBuckets : Nat) (key : UInt64) (k : Nat) (s : Kick) : Kick :=
  let i := s.cur &&& (nBuckets - 1)
  let b := s.buckets.getD i []
  let slot := (hashMix64 (key + .ofNat k)).toNat % ckBucketSlots
  let victim := b.getD slot 0
  ⟨s.buckets.set i (b.set slot s.fp), altIndex nBuckets s.cur victim, victim⟩

/-- The loop from round `k` on with `n` rounds left (cuckoo.cpp:103-115), and whether it found a
free slot. -/
def kicks (nBuckets : Nat) (key : UInt64) : Nat → Nat → Kick → Kick × Bool
  | 0, _, s => (s, false)
  | n + 1, k, s =>
    let s := s.kick nBuckets key k
    match bucketInsert (s.buckets.getD s.cur []) s.fp with
    | some b => ({ s with buckets := s.buckets.set s.cur b }, true)
    | none => kicks nBuckets key n (k + 1) s

end Kick

namespace Cuckoo

/-- The loop of `kv_cuckoo_init` (cuckoo.cpp:41-43), at most `n` rounds. -/
def bucketCount (need : Nat) : Nat → Nat → Nat
  | 0, nb => nb
  | n + 1, nb => if nb < need then bucketCount need n (nb * 2 % 2 ^ 32) else nb

/-- `kv_cuckoo_init` (cuckoo.cpp:38-55). -/
def init (nEntries : Nat) : Option Cuckoo :=
  if nEntries = 0 then none
  else
    let nb := bucketCount (nEntries / ckBucketSlots * 100 % 2 ^ 32 / 85 + 1) 32 16
    some ⟨nb, 0, List.replicate nb (List.replicate ckBucketSlots 0)⟩

/-- `i1` of a key (cuckoo.cpp:91). -/
def index (cf : Cuckoo) (key : UInt64) : Nat := (hashMix64 key).toNat &&& (cf.nBuckets - 1)

/-- A bucket. -/
def bucket (cf : Cuckoo) (i : Nat) : List UInt8 := cf.buckets.getD i []

/-- A bucket is filled, and counted (cuckoo.cpp:95-99). -/
def added (cf : Cuckoo) (i : Nat) (b : List UInt8) : Cuckoo :=
  { cf with buckets := cf.buckets.set i b, count := (cf.count + 1) % 2 ^ 32 }

/-- `kv_cuckoo_insert` (cuckoo.cpp:89-116), and whether it returns 0. -/
def insert (cf : Cuckoo) (key : UInt64) (odd : Bool) : Cuckoo × Bool :=
  let fp := fpOf key
  let i1 := cf.index key
  let i2 := altIndex cf.nBuckets i1 fp
  match bucketInsert (cf.bucket i1) fp with
  | some b => (cf.added i1 b, true)
  | none =>
    match bucketInsert (cf.bucket i2) fp with
    | some b => (cf.added i2 b, true)
    | none =>
      match Kick.kicks cf.nBuckets key ckMaxKicks 0 ⟨cf.buckets, if odd then i1 else i2, fp⟩ with
      | (s, true) => ({ cf with buckets := s.buckets, count := (cf.count + 1) % 2 ^ 32 }, true)
      | (s, false) => ({ cf with buckets := s.buckets }, false)

/-- `kv_cuckoo_lookup` (cuckoo.cpp:118-124). -/
def lookup (cf : Cuckoo) (key : UInt64) : Bool :=
  let fp := fpOf key
  let i1 := cf.index key
  let i2 := altIndex cf.nBuckets i1 fp
  bucketHas (cf.bucket i1) fp || bucketHas (cf.bucket i2) fp

/-- A bucket from which a fingerprint was taken (cuckoo.cpp:131-134). -/
def removed (cf : Cuckoo) (i : Nat) (b : List UInt8) : Cuckoo :=
  { cf with buckets := cf.buckets.set i b, count := if cf.count = 0 then 0 else cf.count - 1 }

/-- `kv_cuckoo_delete` (cuckoo.cpp:126-135), and what it returns. -/
def delete (cf : Cuckoo) (key : UInt64) : Cuckoo × Bool :=
  let fp := fpOf key
  let i1 := cf.index key
  let i2 := altIndex cf.nBuckets i1 fp
  match bucketRemove (cf.bucket i1) fp with
  | some b => (cf.removed i1 b, true)
  | none =>
    match bucketRemove (cf.bucket i2) fp with
    | some b => (cf.removed i2 b, true)
    | none => (cf, false)

/-- The slots in use. -/
def occupied (cf : Cuckoo) : Nat := (cf.buckets.map fun b => b.countP (· != 0)).sum

end Cuckoo

/-- The calls of a filter. -/
inductive CuckooLabel where
  /-- `kv_cuckoo_insert` that returns 0. -/
  | insert (key : UInt64) (odd : Bool)
  /-- `kv_cuckoo_delete`. -/
  | delete (key : UInt64)
deriving DecidableEq, Repr

/-- One call; there is none for an insert that fails. -/
def Cuckoo.step (cf : Cuckoo) : CuckooLabel → Option Cuckoo
  | .insert key odd => if (cf.insert key odd).2 then some (cf.insert key odd).1 else none
  | .delete key => some (cf.delete key).1

end KvTier.Model
