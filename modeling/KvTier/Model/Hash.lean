import KvTier.Model.Types

/-!
# Path hashes

`hash_path` (hash.hpp:28-40) and the hashes along the path of a key, one for each group of tokens,
as `cache_put_impl`, `cache_get_impl` and `cache_evict_impl` compute them (cache.cpp:1179-1202,
1418-1429, 1594-1606).
-/

namespace KvTier.Model

/-- `KV_TOKENS_PER_GROUP`. -/
def tokensPerGroup : Nat := 32

/-- One byte of a token. -/
def hashByte (h b : UInt64) : UInt64 := (h ^^^ b) * 0x100000001b3

/-- The four bytes of a token, from the lowest on. -/
def hashToken (h : UInt64) (token : UInt32) : UInt64 :=
  ([0, 8, 16, 24] : List UInt64).foldl (fun h b => hashByte h ((token.toUInt64 >>> b) &&& 0xFF)) h

/-- The state before the first token: the offset basis with the prefix, shifted up to make room for
the group. -/
def hashSeed (prefixId : UInt64) (groupIdx : UInt32) : UInt64 :=
  ((0xcbf29ce484222325 ^^^ prefixId) <<< 1) ^^^ groupIdx.toUInt64

/-- `hash_path` (hash.hpp:28-40). -/
def hashPath (prefixId : UInt64) (tokens : List UInt32) (groupIdx : UInt32) : UInt64 :=
  hashMix64 (tokens.foldl hashToken (hashSeed prefixId groupIdx))

/-- `group_token_count` (cache.cpp:1179-1185). -/
def groupTokenCount (nTokensTotal k : Nat) : Nat :=
  let start := k * tokensPerGroup
  if nTokensTotal ≤ start then 0
  else
    let cnt := nTokensTotal - start
    if tokensPerGroup < cnt then tokensPerGroup else cnt

/-- The tokens of group `k`. -/
def groupTokens (tokens : List UInt32) (nTokensTotal k : Nat) : List UInt32 :=
  (tokens.drop (k * tokensPerGroup)).take (groupTokenCount nTokensTotal k)

/-- The hash of group `k` of a key. -/
def groupHash (prefixId : UInt64) (tokens : List UInt32) (nTokensTotal k : Nat) : UInt64 :=
  hashPath prefixId (groupTokens tokens nTokensTotal k) (UInt32.ofNat k)

/-- The path of the first `nGroups` groups (cache.cpp:1196-1202, 1423-1429). -/
def groupPath (prefixId : UInt64) (tokens : List UInt32) (nTokensTotal nGroups : Nat) :
    List UInt64 :=
  (List.range nGroups).map (groupHash prefixId tokens nTokensTotal)

end KvTier.Model
