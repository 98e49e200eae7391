import Mathlib.Data.Nat.Bitwise
import KvTier.Lib.Words
import KvTier.Model.EdgeStore
import KvTier.Model.Hash

/-!
# When two prefixes have different paths

`hash_path` mixes the prefix into the state before the first token.
-/

namespace KvTier.Analysis

open Function KvTier.Lib KvTier.Model

/-! ## The steps of the hash -/

theorem xorShift_injective {k : UInt64} (hk : 0 < k.toNat % 64) :
    Injective fun x : UInt64 => x ^^^ (x >>> k) := by
  intro x y h
  apply UInt64.toBitVec_inj.1
  have hbits := congrArg UInt64.toBitVec h
  simp only [UInt64.toBitVec_xor, UInt64.toBitVec_shiftRight, BitVec.ushiftRight_eq'] at hbits
  exact Words.xorShiftRight_injective (by simpa using hk) hbits

theorem mulOdd_injective {c : UInt64} (hc : c.toNat % 2 = 1) :
    Injective fun x : UInt64 => x * c := by
  intro x y h
  apply UInt64.toBitVec_inj.1
  have hbits := congrArg UInt64.toBitVec h
  simp only [UInt64.toBitVec_mul] at hbits
  exact Words.mul_odd_injective hc hbits

theorem xorRight_injective (c : UInt64) : Injective fun x : UInt64 => x ^^^ c := by
  intro x y h
  apply UInt64.toBitVec_inj.1
  have hbits := congrArg UInt64.toBitVec h
  simp only [UInt64.toBitVec_xor] at hbits
  exact Words.xor_right_injective c.toBitVec hbits

/-- The finalizer is injective. -/
theorem hashMix64_injective : Injective hashMix64 := by
  have h30 : Injective fun x : UInt64 => x ^^^ (x >>> 30) :=
    xorShift_injective (by decide)
  have h27 : Injective fun x : UInt64 => x ^^^ (x >>> 27) :=
    xorShift_injective (by decide)
  have h31 : Injective fun x : UInt64 => x ^^^ (x >>> 31) :=
    xorShift_injective (by decide)
  have hm1 : Injective fun x : UInt64 => x * 0xbf58476d1ce4e5b9 :=
    mulOdd_injective (by decide)
  have hm2 : Injective fun x : UInt64 => x * 0x94d049bb133111eb :=
    mulOdd_injective (by decide)
  exact h31.comp (hm2.comp (h27.comp (hm1.comp h30)))

theorem hashByte_injective (b : UInt64) : Injective fun h => hashByte h b := by
  have hmul : Injective fun x : UInt64 => x * 0x100000001b3 := mulOdd_injective (by decide)
  exact hmul.comp (xorRight_injective b)

theorem foldl_injective {σ α : Type} {f : σ → α → σ}
    (hf : ∀ a, Injective fun s => f s a) (as : List α) :
    Injective fun s => as.foldl f s := by
  induction as with
  | nil => exact Function.injective_id
  | cons a as ih => exact ih.comp (hf a)

theorem foldl_hashToken_injective (tokens : List UInt32) :
    Injective fun h => tokens.foldl hashToken h :=
  foldl_injective (fun _ => foldl_injective (fun _ => hashByte_injective _) _) tokens

theorem hashSeed_eq_iff (p q : UInt64) (g : UInt32) :
    hashSeed p g = hashSeed q g ↔ p.toNat % 2 ^ 63 = q.toNat % 2 ^ 63 := by
  -- A shift distributes over an exclusive or, so the basis and the group cancel.
  have hseed : ∀ r : UInt64,
      hashSeed r g = (r <<< 1) ^^^ (((0xcbf29ce484222325 : UInt64) <<< 1) ^^^ g.toUInt64) := by
    intro r
    unfold hashSeed
    rw [UInt64.shiftLeft_xor, UInt64.xor_comm ((0xcbf29ce484222325 : UInt64) <<< 1) (r <<< 1),
      UInt64.xor_assoc]
  rw [hseed, hseed, (xorRight_injective _).eq_iff, ← UInt64.toBitVec_inj, UInt64.toBitVec_shiftLeft,
    UInt64.toBitVec_shiftLeft]
  exact Words.shiftLeft_one_eq_iff p.toBitVec q.toBitVec

theorem hashPath_eq_iff (p q : UInt64) (tokens : List UInt32) (g : UInt32) :
    hashPath p tokens g = hashPath q tokens g ↔ p.toNat % 2 ^ 63 = q.toNat % 2 ^ 63 := by
  rw [← hashSeed_eq_iff p q g]
  exact (hashMix64_injective.comp (foldl_hashToken_injective tokens)).eq_iff

/-- Two prefixes have different hashes for a group, and so share no node below the root, exactly if
they differ below their top bit, whatever the tokens. The nodes on the path of a key are those of
its first groups. -/
theorem prefixes_separated_iff (p q : UInt64) (tokens : List UInt32) (g : UInt32) :
    (hashPath p tokens g ≠ hashPath q tokens g ↔ p.toNat % 2 ^ 63 ≠ q.toNat % 2 ^ 63) ∧
      ∀ nTokens k, groupPath p tokens nTokens (k + 1) ≠ groupPath q tokens nTokens (k + 1) ↔
        p.toNat % 2 ^ 63 ≠ q.toNat % 2 ^ 63 := by
  refine ⟨not_congr (hashPath_eq_iff p q tokens g), fun nTokens k => not_congr ?_⟩
  unfold groupPath
  rw [List.map_inj_left]
  constructor
  · intro hall
    exact (hashPath_eq_iff p q _ _).1 (hall 0 (List.mem_range.2 (Nat.succ_pos k)))
  · intro hmod j _
    exact (hashPath_eq_iff p q _ _).2 hmod

/-- A publish of a one-group put of the prefix. -/
def prefixArgs (p : UInt64) (tokens : List UInt32) : PublishArgs where
  prefixId := p
  groupIdx := 0
  ver := 1
  addr := ⟨0, 3, 0, 1, 0, 0, 0⟩
  slot := 0
  flags := Flags.empty
  stripeIdx := 0
  stripeCnt := 0
  stripeTotal := 0
  dataLen := 8
  shape := some ⟨0, [8]⟩
  path := groupPath p tokens tokens.length 1

/-- Prefixes 1 and 2^63 + 1 share their nodes: the leaf of a put of the first is what a get of the
second finds for the same tokens. -/
theorem prefixes_share_node :
    hashPath 1 [5, 6, 7] 0 = hashPath 0x8000000000000001 [5, 6, 7] 0 ∧
      ∃ lf, ((resolveNode Index.empty 1 0 (groupPath 1 [5, 6, 7] 3 1)).1.publish
          (groupPath 1 [5, 6, 7] 3 1) (prefixArgs 1 [5, 6, 7])).tree.leafAt
            (groupPath 0x8000000000000001 [5, 6, 7] 3 1) = some lf ∧ lf.prefixId = 1 := by
  refine ⟨by decide +kernel, ?_⟩
  have hleaf : (((resolveNode Index.empty 1 0 (groupPath 1 [5, 6, 7] 3 1)).1.publish
      (groupPath 1 [5, 6, 7] 3 1) (prefixArgs 1 [5, 6, 7])).tree.leafAt
        (groupPath 0x8000000000000001 [5, 6, 7] 3 1)).map (·.prefixId) = some 1 := by
    decide +kernel
  exact Option.map_eq_some_iff.1 hleaf

/-! ## The hash zero -/

def hashPrimeInv : UInt64 := 0xce965057aff6957b

/-- The state before a byte, from the state behind it. -/
def unhashByte (b h : UInt64) : UInt64 := (h * hashPrimeInv) ^^^ b

/-- The state before a token. -/
def unhashToken (token : UInt32) (h : UInt64) : UInt64 :=
  ([0, 8, 16, 24] : List UInt64).foldr (fun b => unhashByte ((token.toUInt64 >>> b) &&& 0xFF)) h

/-- The state that the tokens lead to zero. -/
def zeroState (tokens : List UInt32) : UInt64 := tokens.foldr unhashToken 0

/-- The prefix with this seed. -/
def prefixOfSeed (h : UInt64) (g : UInt32) : UInt64 :=
  ((h ^^^ g.toUInt64) >>> 1) ^^^ 0xcbf29ce484222325

theorem hashByte_unhashByte (h b : UInt64) : hashByte (unhashByte b h) b = h := by
  have hinv : hashPrimeInv * 0x100000001b3 = 1 := by decide +kernel
  unfold hashByte unhashByte
  rw [UInt64.xor_assoc, UInt64.xor_self, UInt64.xor_zero, UInt64.mul_assoc, hinv, UInt64.mul_one]

theorem foldl_foldr_cancel {σ α : Type} {f : σ → α → σ} {g : α → σ → σ}
    (hfg : ∀ a s, f (g a s) a = s) (as : List α) (s : σ) : as.foldl f (as.foldr g s) = s := by
  induction as with
  | nil => rfl
  | cons a as ih => rw [List.foldr_cons, List.foldl_cons, hfg, ih]

theorem foldl_hashToken_zeroState (tokens : List UInt32) :
    tokens.foldl hashToken (zeroState tokens) = 0 := by
  have htoken : ∀ token h, hashToken (unhashToken token h) token = h := by
    intro token h
    unfold hashToken unhashToken
    exact foldl_foldr_cancel (g := fun b => unhashByte ((token.toUInt64 >>> b) &&& 0xFF))
      (fun _ s => hashByte_unhashByte s _) _ h
  exact foldl_foldr_cancel htoken tokens 0

theorem hashPath_eq_zero_iff_seed (p : UInt64) (tokens : List UInt32) (g : UInt32) :
    hashPath p tokens g = 0 ↔ hashSeed p g = zeroState tokens := by
  have hmix : hashMix64 0 = 0 := by decide +kernel
  unfold hashPath
  constructor
  · intro h
    have hstate : tokens.foldl hashToken (hashSeed p g) = 0 :=
      hashMix64_injective (h.trans hmix.symm)
    exact foldl_hashToken_injective tokens (hstate.trans (foldl_hashToken_zeroState tokens).symm)
  · intro h
    rw [h, foldl_hashToken_zeroState, hmix]

theorem hashSeed_mod_two (p : UInt64) (g : UInt32) :
    (hashSeed p g).toNat % 2 = g.toNat % 2 := by
  have hshift : ∀ x : UInt64, (x <<< 1).toNat % 2 = 0 := by
    intro x
    rw [UInt64.toNat_shiftLeft]
    simp only [Nat.shiftLeft_eq]
    have h1 : (1 : UInt64).toNat % 64 = 1 := rfl
    rw [h1]
    omega
  unfold hashSeed
  rw [UInt64.toNat_xor, Nat.xor_mod_two_eq, UInt32.toNat_toUInt64, Nat.add_mod, hshift]
  omega

theorem hashSeed_prefixOfSeed {h : UInt64} {g : UInt32} (hbit : h.toNat % 2 = g.toNat % 2) :
    hashSeed (prefixOfSeed h g) g = h := by
  have heven : (h ^^^ g.toUInt64).toNat % 2 = 0 := by
    rw [UInt64.toNat_xor, Nat.xor_mod_two_eq, UInt32.toNat_toUInt64]
    omega
  have hback : ((h ^^^ g.toUInt64) >>> 1) <<< 1 = h ^^^ g.toUInt64 := by
    apply UInt64.toBitVec_inj.1
    rw [UInt64.toBitVec_shiftLeft, UInt64.toBitVec_shiftRight]
    exact Words.shiftRight_one_shiftLeft_one heven
  unfold hashSeed prefixOfSeed
  rw [UInt64.xor_comm _ 0xcbf29ce484222325, ← UInt64.xor_assoc, UInt64.xor_self, UInt64.zero_xor,
    hback, UInt64.xor_assoc, UInt64.xor_self, UInt64.xor_zero]

theorem hashPath_eq_zero_iff (p : UInt64) (tokens : List UInt32) (g : UInt32) :
    hashPath p tokens g = 0 ↔ (zeroState tokens).toNat % 2 = g.toNat % 2 ∧
      p.toNat % 2 ^ 63 = (prefixOfSeed (zeroState tokens) g).toNat % 2 ^ 63 := by
  rw [hashPath_eq_zero_iff_seed]
  constructor
  · intro h
    have hbit : (zeroState tokens).toNat % 2 = g.toNat % 2 := by rw [← h, hashSeed_mod_two]
    exact ⟨hbit, (hashSeed_eq_iff p _ g).1 (h.trans (hashSeed_prefixOfSeed hbit).symm)⟩
  · rintro ⟨hbit, hp⟩
    exact ((hashSeed_eq_iff p _ g).2 hp).trans (hashSeed_prefixOfSeed hbit)

/-- No hash on the path of a key is the mark of a free slot, exactly if for none of its groups the
prefix is, below its top bit, the one that the tokens of the group lead to zero. The tokens are run
backwards from zero; of the state they start from, the lowest bit has to be that of the group. -/
theorem hashPath_ne_zero_iff (p : UInt64) :
    (∀ (tokens : List UInt32) (g : UInt32), hashPath p tokens g ≠ 0 ↔
      ((zeroState tokens).toNat % 2 = g.toNat % 2 →
        p.toNat % 2 ^ 63 ≠ (prefixOfSeed (zeroState tokens) g).toNat % 2 ^ 63)) ∧
    ∀ (tokens : List UInt32) (nTokens nGroups : Nat), 0 ∉ groupPath p tokens nTokens nGroups ↔
      ∀ k < nGroups,
        (zeroState (groupTokens tokens nTokens k)).toNat % 2 = (UInt32.ofNat k).toNat % 2 →
          p.toNat % 2 ^ 63 ≠ (prefixOfSeed (zeroState (groupTokens tokens nTokens k))
            (UInt32.ofNat k)).toNat % 2 ^ 63 := by
  have hhash : ∀ (tokens : List UInt32) (g : UInt32), hashPath p tokens g ≠ 0 ↔
      ((zeroState tokens).toNat % 2 = g.toNat % 2 →
        p.toNat % 2 ^ 63 ≠ (prefixOfSeed (zeroState tokens) g).toNat % 2 ^ 63) := by
    intro tokens g
    rw [ne_eq, hashPath_eq_zero_iff, not_and]
  refine ⟨hhash, fun tokens nTokens nGroups => ?_⟩
  have hpath : 0 ∉ groupPath p tokens nTokens nGroups ↔
      ∀ k < nGroups, hashPath p (groupTokens tokens nTokens k) (UInt32.ofNat k) ≠ 0 := by
    simp [groupPath, groupHash]
  rw [hpath]
  exact forall₂_congr fun k _ => hhash _ _

/-- The prefix that is the offset basis and 32 zero tokens have the hash zero. The edge is no edge
to a visit or a checkpoint, and the next child takes its slot. -/
theorem zero_tokens_hash_zero :
    hashPath 0xcbf29ce484222325 (List.replicate 32 0) 0 = 0 ∧
      (RadixEdges.empty.edgeAdd
        (hashPath 0xcbf29ce484222325 (List.replicate 32 0) 0) 1).edges = [] ∧
      ((RadixEdges.empty.edgeAdd
        (hashPath 0xcbf29ce484222325 (List.replicate 32 0) 0) 1).edgeAdd
          (hashPath 1 [5] 0) 2).slots 0 = (hashPath 1 [5] 0, 2) ∧ hashPath 1 [5] 0 ≠ 0 := by
  have hzero : hashPath 0xcbf29ce484222325 (List.replicate 32 0) 0 = 0 := by decide +kernel
  rw [hzero]
  exact ⟨rfl, by decide +kernel, by decide +kernel, by decide +kernel⟩

end KvTier.Analysis
