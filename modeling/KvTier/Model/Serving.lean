import KvTier.Model.BatchLayout
import KvTier.Model.Hash
import KvTier.Model.Reads

/-!
# Puts and gets by their tokens

The cache between its callers and its devices, for puts of one copy: `cache_put` with its tokens and
records, the writer that lays a request out and writes its pages, the completion that publishes it
under the page and the checksum it was given, and `cache_get` with its tokens.
-/

namespace KvTier.Model

/-- The arguments of `cache_put` (kvtier.h). -/
structure TokenPut where
  prefixId : UInt64
  groupIdx : Nat
  tokens : List UInt32
  expireTs : Nat
  recs : List (List UInt8)
deriving DecidableEq, Repr

namespace TokenPut

/-- The prefix and group of a put. -/
def key (x : TokenPut) : UInt64 × Nat := (x.prefixId, x.groupIdx)

/-- `hashes` (cache.cpp:1197-1202). -/
def path (x : TokenPut) : Path :=
  groupPath x.prefixId x.tokens x.tokens.length (x.groupIdx + 1)

/-- `lens` (cache.cpp:1236-1238). -/
def lens (x : TokenPut) : List Nat := x.recs.map List.length

/-- The put as its requests are made from it: `hot_check_path` said no. -/
def args (x : TokenPut) : PutArgs :=
  ⟨x.prefixId, x.groupIdx, x.path, x.expireTs, x.lens, false, 0⟩

end TokenPut

/-- `n_groups` (cache.cpp:1418-1419). -/
def nGroups (nTokensTotal : Nat) : Nat := (nTokensTotal + tokensPerGroup - 1) % 2 ^ 32 / tokensPerGroup

/-- The `hashes` of a get (cache.cpp:1420-1427). -/
def tokenPath (prefixId : UInt64) (tokens : List UInt32) : Path :=
  groupPath prefixId tokens tokens.length (nGroups tokens.length)

/-- `cache_get_impl` behind its path hashes, without another thread in between
(cache.cpp:1436-1592): it stops where its pin is released. -/
def Reads.cacheGet (s : Reads) (prefixId : UInt64) (path : Path) (now : Nat) (alloc : Bool)
    (disk : Disk) (m : ReadMem) : Option Reads :=
  (s.pin prefixId path now).bind fun s =>
    if s.pins.isEmpty then some s
    else (s.dramGet 0 now alloc).bind fun s =>
      if s.pins.isEmpty then some s
      else (s.ssdRead 0 disk m).bind fun s =>
        if s.pins.isEmpty then some s else s.backfill 0 alloc

/-- The cache, its devices, and what the writers filled in of the requests they wrote. -/
structure Serving where
  reads : Reads
  disk : Disk
  puts : List (Nat × TokenPut)
  laid : List (Nat × LaidReq)

/-- What may happen next. -/
inductive ServingLabel where
  /-- `cache_put`. -/
  | put (x : TokenPut)
  /-- Request `i` is laid out in a batch buffer and written from a page on. -/
  | write (i page : Nat) (buf : Buf)
  /-- Request `i`, which is on its device, is published. -/
  | publish (i now : Nat)
  /-- Another step of the open cache. -/
  | op (l : Label)
  /-- `cache_get`. -/
  | get (prefixId : UInt64) (tokens : List UInt32) (now : Nat) (alloc : Bool) (m : ReadMem)

namespace Serving

/-- The index and the journals. -/
def store (s : Serving) : Store := s.reads.sess.store

/-- An open cache from which the history is recorded, with nothing in its DRAM cache. -/
def start (store : Store) (dramBytes dramEntryMax : Nat) (disk : Disk) : Serving :=
  ⟨⟨⟨{ store with waiting := [], acked := [], hist := [] }, none⟩,
    dramInit dramBytes dramEntryMax, [], []⟩, disk, [], []⟩

/-- `cache_put` of one copy (cache.cpp:1187-1362); a put that is rejected takes no version. -/
def put (s : Serving) (x : TokenPut) : Option Serving :=
  if s.store.cfg.stripeThreshold % 2 ^ 32 < x.lens.sum then none
  else (s.reads.step (.op (.put x.args))).map fun t =>
    { s with
      reads := t
      puts := if t.sess.store.verCounter = s.store.verCounter then s.puts
        else ((s.store.verCounter + 1) % 2 ^ 32, x) :: s.puts }

/-- A request is laid out and written (writer.cpp:289-330). -/
def write (s : Serving) (i page : Nat) (buf : Buf) : Option Serving := do
  let r ← s.store.pending[i]?
  let x ← s.puts.lookup r.ver
  if (s.laid.lookup r.ver).isSome then none
  else
    let (buf, l) := layReq buf 0 page (.records x.recs)
    some { s with
      disk := s.disk.writePages r.dev page buf l.npages
      laid := (r.ver, l) :: s.laid }

/-- A request that was written is published (writer.cpp:182-232). -/
def publish (s : Serving) (i now : Nat) : Option Serving := do
  let r ← s.store.pending[i]?
  let l ← s.laid.lookup r.ver
  (s.reads.step (.op (.publish i l.pageNo l.crc now))).map fun t => { s with reads := t }

/-- A step that is neither a put nor a publish. -/
def op (s : Serving) (l : Label) : Option Serving :=
  match l with
  | .put _ => none
  | .publish _ _ _ _ => none
  | l => (s.reads.step (.op l)).map fun t => { s with reads := t }

/-- `cache_get` (cache.cpp:1412-1592): the cache after it, and what it returned. -/
def get (s : Serving) (prefixId : UInt64) (tokens : List UInt32) (now : Nat) (alloc : Bool)
    (m : ReadMem) : Option (Serving × Option Served) :=
  ({ s.reads with served := [] }.cacheGet prefixId (tokenPath prefixId tokens) now alloc s.disk
    m).map fun t => ({ s with reads := t }, t.served.head?)

/-- One step. -/
def step (s : Serving) : ServingLabel → Option Serving
  | .put x => s.put x
  | .write i page buf => s.write i page buf
  | .publish i now => s.publish i now
  | .op l => s.op l
  | .get prefixId tokens now alloc m => (s.get prefixId tokens now alloc m).map (·.1)

end Serving

end KvTier.Model
