import KvTier.Model.Payload

/-!
# The DRAM read cache

`dram.cpp`: payloads by prefix and group, in shards with a queue each, from which SIEVE evicts when
a shard is above its budget.
-/

namespace KvTier.Model

/-- `sizeof(dram_entry)` (dram.hpp:32-45). -/
def dramEntrySize : Nat := 56

/-- `sizeof(dram_rec)` (dram.hpp:26-30). -/
def dramRecSize : Nat := 12

/-- `KV_DRAM_DEFAULT_ENTRY_MAX`. -/
def dramDefaultEntryMax : Nat := 8 * 1024 * 1024

/-- The prefix and group of an entry. -/
abbrev DramKey := UInt64 × Nat

/-- `dram_entry` with the records and the payload behind it. -/
structure DramEntry where
  key : DramKey
  ver : Nat
  expireTs : Nat
  data : ReadResult
  visited : Bool
deriving DecidableEq, Repr

/-- `entry_total` before its cast (dram.cpp:81-86). -/
def entrySize (r : ReadResult) : Nat :=
  dramEntrySize + r.recs.length * dramRecSize + r.buf.length

/-- `entry_total` (dram.cpp:81-86). -/
def entryTotal (r : ReadResult) : Nat := entrySize r % 2 ^ 32

/-- `dram_shard`. -/
structure DramShard where
  budget : Nat
  queue : List DramEntry
  hand : Option DramKey
  bytes : Nat
deriving DecidableEq, Repr

namespace DramShard

/-- `entry_find` (dram.cpp:265-271). -/
def find (sh : DramShard) (k : DramKey) : Option DramEntry := sh.queue.find? fun e => e.key == k

/-- The entry behind another one in the queue, its `snext`. -/
def next (sh : DramShard) (k : DramKey) : Option DramKey :=
  ((sh.queue.dropWhile fun e => e.key != k).drop 1).head?.map (·.key)

/-- An entry is taken out of its chain and the queue and freed (dram.cpp:133-145, 157-166). -/
def remove (sh : DramShard) (e : DramEntry) : DramShard :=
  { sh with
    queue := sh.queue.filter fun x => x.key != e.key
    hand := if sh.hand = some e.key then sh.next e.key else sh.hand
    bytes := sh.bytes - entryTotal e.data }

/-- `dram_invalidate` on the shard of its key (dram.cpp:355-369). -/
def invalidate (sh : DramShard) (k : DramKey) : DramShard :=
  match sh.find k with
  | none => sh
  | some e => sh.remove e

/-- A bit of an entry is set or cleared. -/
def setVisited (sh : DramShard) (k : DramKey) (v : Bool) : DramShard :=
  { sh with queue := sh.queue.map fun e => if e.key = k then { e with visited := v } else e }

/-- One turn of the loop of `sieve_evict` (dram.cpp:171-196): the hand passes over the entry that
was just put and over visited ones, whose bit it clears, and takes out the others. -/
def sieveStep (protect : DramKey) (sh : DramShard) : DramShard :=
  match sh.hand.bind sh.find <|> sh.queue.head? with
  | none => sh
  | some e =>
    if e.key = protect then { sh with hand := sh.next e.key }
    else if e.visited then { sh.setVisited e.key false with hand := sh.next e.key }
    else { sh.remove e with hand := sh.next e.key }

/-- The loop of `sieve_evict`, at most `n` turns. -/
def sieveLoop (protect : DramKey) : Nat → DramShard → DramShard
  | 0, sh => sh
  | n + 1, sh =>
    if sh.budget < sh.bytes ∧ sh.queue ≠ [] then sieveLoop protect n (sh.sieveStep protect) else sh

/-- `sieve_evict` (dram.cpp:168-200). -/
def sieveEvict (sh : DramShard) (protect : DramKey) : DramShard :=
  let sh := sieveLoop protect 4096 sh
  if sh.queue = [] then { sh with hand := none } else sh

/-- A new entry at the tail of the queue (dram.cpp:329-348). -/
def insert (sh : DramShard) (e : DramEntry) : DramShard :=
  { sh with queue := sh.queue ++ [e], bytes := sh.bytes + entryTotal e.data }

end DramShard

/-- `dram_cache`. -/
structure DramCache where
  budget : Nat
  entryMax : Nat
  nShards : Nat
  shards : Nat → DramShard

/-- `n_shards` (dram.cpp:214-216): halved until a shard has a MiB. -/
def dramShardCount (budget : Nat) : Nat → Nat
  | 0 => 1
  | k + 1 => if budget / 2 ^ (k + 1) < 1024 * 1024 then dramShardCount budget k else 2 ^ (k + 1)

/-- `dram_init` (dram.cpp:202-230): there is no cache without a budget. -/
def dramInit (budget entryMax : Nat) : Option DramCache :=
  if budget = 0 then none
  else some
    { budget := budget
      entryMax := if entryMax = 0 then dramDefaultEntryMax else min entryMax budget
      nShards := dramShardCount budget 6
      shards := fun _ => ⟨budget / dramShardCount budget 6, [], none, 0⟩ }

namespace DramCache

/-- `shard_of` (dram.cpp:253-257). -/
def shardOf (d : DramCache) (k : DramKey) : Nat :=
  (hashMix64 (k.1 ^^^ (UInt64.ofNat k.2 <<< 32))).toNat % d.nShards

/-- The shard of a key is replaced. -/
def update (d : DramCache) (k : DramKey) (sh : DramShard) : DramCache :=
  { d with shards := Function.update d.shards (d.shardOf k) sh }

/-- `dram_get` (dram.cpp:273-299): another version, an expired entry or a failed allocation is a
miss. -/
def get (d : DramCache) (k : DramKey) (expectVer now : Nat) (alloc : Bool) :
    DramCache × Option ReadResult :=
  match (d.shards (d.shardOf k)).find k with
  | none => (d, none)
  | some e =>
    if e.ver ≠ expectVer ∨ (e.expireTs ≠ 0 ∧ e.expireTs < now) ∨ alloc = false then (d, none)
    else
      (d.update k ((d.shards (d.shardOf k)).setVisited k true),
        some { e.data with recs := e.data.recs.take maxLayersCap })

/-- `dram_put` (dram.cpp:301-353): an entry of the same version or a newer one stays. -/
def put (d : DramCache) (k : DramKey) (ver expireTs : Nat) (r : ReadResult) (alloc : Bool) :
    Option DramCache :=
  if r.buf.length = 0 ∨ d.entryMax < entryTotal r ∨ d.budget < entryTotal r then some d
  else
    let sh := d.shards (d.shardOf k)
    if (sh.find k).any fun old => decide (ver ≤ old.ver) then some d
    else
      let sh := sh.invalidate k
      if alloc = false then some (d.update k sh)
      else if entryTotal r ≠ entrySize r then none
      else some (d.update k ((sh.insert ⟨k, ver, expireTs, r, false⟩).sieveEvict k))

/-- `dram_invalidate` (dram.cpp:355-369). -/
def invalidate (d : DramCache) (k : DramKey) : DramCache :=
  d.update k ((d.shards (d.shardOf k)).invalidate k)

end DramCache

/-- The calls of the cache. -/
inductive DramCall where
  | put (k : DramKey) (ver expireTs : Nat) (r : ReadResult) (alloc : Bool)
  | get (k : DramKey) (expectVer now : Nat) (alloc : Bool)
  | invalidate (k : DramKey)

/-- One call. -/
def DramCache.step (d : DramCache) : DramCall → Option DramCache
  | .put k ver expireTs r alloc => d.put k ver expireTs r alloc
  | .get k expectVer now alloc => some (d.get k expectVer now alloc).1
  | .invalidate k => some (d.invalidate k)

end KvTier.Model
