import KvTier.Lib.Partners
import KvTier.Model.Cuckoo
import Mathlib.Data.UInt

/-!
# What a cuckoo filter holds

The buckets of a filter as a table of paired buckets: `alt_index` is an involution on the indices of
a filter whose number of buckets is a power of two (`paired_altIndex`), so each fingerprint has one
pair of buckets, from whichever of the two it is looked at.
-/

namespace KvTier.Analysis

open KvTier.Lib KvTier.Lib.Partners KvTier.Model List

/-! ## Buckets -/

section Bucket

variable {b b' : List UInt8} {fp : UInt8}

theorem bucketInsert_some (hfp : fp ≠ 0) (h : bucketInsert b fp = some b') :
    held b' = fp ::ₘ held b ∧ b'.length = b.length := by
  induction b generalizing b' with
  | nil => cases h
  | cons x b ih =>
    unfold bucketInsert at h
    split at h
    · rename_i hx
      cases h
      rw [hx, held_cons hfp, held_cons_zero]
      exact ⟨rfl, rfl⟩
    rename_i hx
    obtain ⟨b₁, h₁, rfl⟩ := Option.map_eq_some_iff.1 h
    obtain ⟨hheld, hlen⟩ := ih h₁
    rw [held_cons hx, held_cons hx, hheld, Multiset.cons_swap, length_cons, length_cons, hlen]
    exact ⟨rfl, rfl⟩

theorem bucketInsert_none (h : bucketInsert b fp = none) : ∀ x ∈ b, x ≠ 0 := by
  induction b with
  | nil => exact fun _ hx => absurd hx not_mem_nil
  | cons x b ih =>
    unfold bucketInsert at h
    split at h
    · cases h
    · rename_i hx
      exact forall_mem_cons.2 ⟨hx, ih (Option.map_eq_none_iff.1 h)⟩

theorem bucketRemove_some (hfp : fp ≠ 0) (h : bucketRemove b fp = some b') :
    held b = fp ::ₘ held b' ∧ b'.length = b.length := by
  induction b generalizing b' with
  | nil => cases h
  | cons x b ih =>
    unfold bucketRemove at h
    split at h
    · rename_i hx
      cases h
      rw [hx, held_cons hfp, held_cons_zero]
      exact ⟨rfl, rfl⟩
    obtain ⟨b₁, h₁, rfl⟩ := Option.map_eq_some_iff.1 h
    obtain ⟨hheld, hlen⟩ := ih h₁
    refine ⟨?_, by rw [length_cons, length_cons, hlen]⟩
    by_cases hx : x = 0
    · rw [hx, held_cons_zero, held_cons_zero, hheld]
    · rw [held_cons hx, held_cons hx, hheld, Multiset.cons_swap]

theorem bucketRemove_none (h : bucketRemove b fp = none) : fp ∉ b := by
  induction b with
  | nil => exact not_mem_nil
  | cons x b ih =>
    unfold bucketRemove at h
    split at h
    · cases h
    · rename_i hx
      rw [mem_cons, not_or]
      exact ⟨fun he => hx he.symm, ih (Option.map_eq_none_iff.1 h)⟩

theorem bucketHas_eq_true_iff (hfp : fp ≠ 0) : bucketHas b fp = true ↔ fp ∈ held b := by
  rw [mem_held, and_iff_left hfp, bucketHas, any_eq_true]
  simp

end Bucket

theorem fpOf_ne_zero (key : UInt64) : fpOf key ≠ 0 := by
  unfold fpOf
  simp only
  split
  · decide
  · assumption

/-! ## Pairs of buckets -/

theorem paired_altIndex (k : Nat) : Paired (Finset.range (2 ^ k)) (altIndex (2 ^ k)) where
  mem i _ f := by
    rw [Finset.mem_range, altIndex, Nat.and_two_pow_sub_one_eq_mod]
    exact Nat.mod_lt _ (Nat.two_pow_pos k)
  alt_alt i hi f := by
    rw [Finset.mem_range] at hi
    unfold altIndex
    rw [Nat.and_two_pow_sub_one_eq_mod, Nat.and_two_pow_sub_one_eq_mod, Nat.xor_mod_two_pow,
      Nat.mod_mod, Nat.xor_mod_two_pow, Nat.xor_assoc, Nat.xor_self, Nat.xor_zero,
      Nat.mod_eq_of_lt hi]

/-- The buckets of a filter with `n` of them. -/
structure BucketsOk (n : Nat) (bs : List (List UInt8)) : Prop where
  length : bs.length = n
  slots : ∀ b ∈ bs, b.length = ckBucketSlots

/-- What the buckets store. -/
def pairsIn (n : Nat) (bs : List (List UInt8)) : Multiset (Sym2 Nat × UInt8) :=
  stored (altIndex n) (Finset.range n) fun i => bs.getD i []

theorem getD_set_update {bs : List (List UInt8)} {i : Nat} (hi : i < bs.length) (b : List UInt8) :
    (fun j => (bs.set i b).getD j []) = Function.update (fun j => bs.getD j []) i b := by
  funext j
  by_cases hj : j = i
  · rw [hj, Function.update_self, List.getD_eq_getElem?_getD, List.getElem?_set_self hi]
    rfl
  · rw [Function.update_of_ne hj, List.getD_eq_getElem?_getD, List.getD_eq_getElem?_getD,
      List.getElem?_set_ne (Ne.symm hj)]

section Buckets

variable {n : Nat} {bs : List (List UInt8)}

theorem BucketsOk.getD_mem (h : BucketsOk n bs) {i : Nat} (hi : i < n) : bs.getD i [] ∈ bs := by
  rw [List.getD_eq_getElem?_getD, List.getElem?_eq_getElem (h.length.symm ▸ hi)]
  exact getElem_mem _

theorem BucketsOk.length_getD (h : BucketsOk n bs) {i : Nat} (hi : i < n) :
    (bs.getD i []).length = ckBucketSlots := h.slots _ (h.getD_mem hi)

theorem BucketsOk.set (h : BucketsOk n bs) (i : Nat) {b : List UInt8}
    (hb : b.length = ckBucketSlots) : BucketsOk n (bs.set i b) where
  length := by rw [length_set, h.length]
  slots x hx := by
    rcases mem_or_eq_of_mem_set hx with hx | rfl
    · exact h.slots x hx
    · exact hb

theorem pairsIn_insert (h : BucketsOk n bs) {i : Nat} (hi : i < n) {fp : UInt8} (hfp : fp ≠ 0)
    {b : List UInt8} (hins : bucketInsert (bs.getD i []) fp = some b) :
    BucketsOk n (bs.set i b) ∧
      pairsIn n (bs.set i b) = pairOf (altIndex n) i fp ::ₘ pairsIn n bs := by
  obtain ⟨hheld, hlen⟩ := bucketInsert_some hfp hins
  refine ⟨h.set i (hlen.trans (h.length_getD hi)), ?_⟩
  unfold pairsIn
  rw [getD_set_update (h.length.symm ▸ hi)]
  exact stored_gain (Finset.mem_range.2 hi) hheld

theorem pairsIn_remove (h : BucketsOk n bs) {i : Nat} (hi : i < n) {fp : UInt8} (hfp : fp ≠ 0)
    {b : List UInt8} (hrem : bucketRemove (bs.getD i []) fp = some b) :
    BucketsOk n (bs.set i b) ∧
      pairOf (altIndex n) i fp ::ₘ pairsIn n (bs.set i b) = pairsIn n bs := by
  obtain ⟨hheld, hlen⟩ := bucketRemove_some hfp hrem
  refine ⟨h.set i (hlen.trans (h.length_getD hi)), ?_⟩
  unfold pairsIn
  rw [getD_set_update (h.length.symm ▸ hi)]
  exact stored_loss (Finset.mem_range.2 hi) hheld

end Buckets

/-! ## Displacing -/

/-- A kick loop inside the table, with a fingerprint in hand. -/
structure KickOk (n : Nat) (s : Kick) : Prop where
  buckets : BucketsOk n s.buckets
  cur : s.cur < n
  fp : s.fp ≠ 0

/-- What the buckets store and what is in hand. -/
def withHand (n : Nat) (s : Kick) : Multiset (Sym2 Nat × UInt8) :=
  pairOf (altIndex n) s.cur s.fp ::ₘ pairsIn n s.buckets

section Kicks

variable {k : Nat} {s : Kick}

theorem kick_spec (h : KickOk (2 ^ k) s) (hfull : ∀ x ∈ s.buckets.getD s.cur [], x ≠ 0)
    (key : UInt64) (j : Nat) :
    KickOk (2 ^ k) (s.kick (2 ^ k) key j) ∧
      withHand (2 ^ k) (s.kick (2 ^ k) key j) = withHand (2 ^ k) s := by
  have hpaired := paired_altIndex k
  have hcur := Finset.mem_range.2 h.cur
  have hmask : s.cur &&& (2 ^ k - 1) = s.cur := by
    rw [Nat.and_two_pow_sub_one_eq_mod, Nat.mod_eq_of_lt h.cur]
  have hlen := h.buckets.length_getD h.cur
  have hslot : (hashMix64 (key + .ofNat j)).toNat % ckBucketSlots <
      (s.buckets.getD s.cur []).length := by
    rw [hlen]
    exact Nat.mod_lt _ (by decide)
  have hkick : s.kick (2 ^ k) key j =
      ⟨s.buckets.set s.cur ((s.buckets.getD s.cur []).set
          ((hashMix64 (key + .ofNat j)).toNat % ckBucketSlots) s.fp),
        altIndex (2 ^ k) s.cur ((s.buckets.getD s.cur []).getD
          ((hashMix64 (key + .ofNat j)).toNat % ckBucketSlots) 0),
        (s.buckets.getD s.cur []).getD
          ((hashMix64 (key + .ofNat j)).toNat % ckBucketSlots) 0⟩ := by
    simp only [Kick.kick, hmask]
  rw [hkick]
  generalize (hashMix64 (key + .ofNat j)).toNat % ckBucketSlots = slot at hslot
  have hvictim : (s.buckets.getD s.cur []).getD slot 0 ≠ 0 := by
    rw [List.getD_eq_getElem?_getD, List.getElem?_eq_getElem hslot]
    exact hfull _ (getElem_mem hslot)
  have hswap := held_set hslot h.fp hvictim
  refine ⟨⟨h.buckets.set _ (by rw [length_set, hlen]), ?_, hvictim⟩, ?_⟩
  · exact Finset.mem_range.1 (hpaired.mem _ hcur _)
  unfold withHand pairsIn
  simp only
  rw [pairOf_alt hpaired hcur, getD_set_update (h.buckets.length.symm ▸ h.cur)]
  exact stored_swap hcur hswap

theorem kicks_spec (h : KickOk (2 ^ k) s) (hfull : ∀ x ∈ s.buckets.getD s.cur [], x ≠ 0)
    (key : UInt64) (m j : Nat) :
    BucketsOk (2 ^ k) (Kick.kicks (2 ^ k) key m j s).1.buckets ∧
      ((Kick.kicks (2 ^ k) key m j s).2 = true →
        pairsIn (2 ^ k) (Kick.kicks (2 ^ k) key m j s).1.buckets = withHand (2 ^ k) s) ∧
      ((Kick.kicks (2 ^ k) key m j s).2 = false →
        withHand (2 ^ k) (Kick.kicks (2 ^ k) key m j s).1 = withHand (2 ^ k) s) := by
  induction m generalizing s j with
  | zero => exact ⟨h.buckets, fun hb => (Bool.false_ne_true hb).elim, fun _ => rfl⟩
  | succ m ih =>
    obtain ⟨h₁, hall⟩ := kick_spec h hfull key j
    unfold Kick.kicks
    simp only
    split
    · rename_i b hins
      obtain ⟨hok, hpairs⟩ := pairsIn_insert h₁.buckets h₁.cur h₁.fp hins
      refine ⟨hok, fun _ => ?_, fun hb => (Bool.false_ne_true hb.symm).elim⟩
      rw [← hall]
      exact hpairs
    · rename_i hnone
      rw [← hall]
      exact ih h₁ (bucketInsert_none hnone) (j + 1)

end Kicks

/-! ## Filters -/

/-- A filter with a power of two of buckets. -/
structure CuckooOk (cf : Cuckoo) : Prop where
  size : ∃ k < 30, cf.nBuckets = 2 ^ k
  buckets : BucketsOk cf.nBuckets cf.buckets

/-- The fingerprint of a key with its pair of buckets. -/
def keyPair (cf : Cuckoo) (key : UInt64) : Sym2 Nat × UInt8 :=
  pairOf (altIndex cf.nBuckets) (cf.index key) (fpOf key)

/-- What a filter stores. -/
def pairsOf (cf : Cuckoo) : Multiset (Sym2 Nat × UInt8) := pairsIn cf.nBuckets cf.buckets

section Filter

variable {cf : Cuckoo}

theorem CuckooOk.paired (h : CuckooOk cf) :
    Paired (Finset.range cf.nBuckets) (altIndex cf.nBuckets) := by
  obtain ⟨k, -, hk⟩ := h.size
  rw [hk]
  exact paired_altIndex k

theorem CuckooOk.index_lt (h : CuckooOk cf) (key : UInt64) : cf.index key < cf.nBuckets := by
  obtain ⟨k, -, hk⟩ := h.size
  unfold Cuckoo.index
  rw [hk, Nat.and_two_pow_sub_one_eq_mod]
  exact Nat.mod_lt _ (Nat.two_pow_pos k)

theorem CuckooOk.alt_lt (h : CuckooOk cf) (key : UInt64) :
    altIndex cf.nBuckets (cf.index key) (fpOf key) < cf.nBuckets :=
  Finset.mem_range.1 (h.paired.mem _ (Finset.mem_range.2 (h.index_lt key)) _)

theorem CuckooOk.keyPair_alt (h : CuckooOk cf) (key : UInt64) :
    pairOf (altIndex cf.nBuckets) (altIndex cf.nBuckets (cf.index key) (fpOf key)) (fpOf key) =
      keyPair cf key :=
  pairOf_alt h.paired (Finset.mem_range.2 (h.index_lt key)) _

/-- A lookup finds the keys whose pair is stored. -/
theorem CuckooOk.lookup_iff (h : CuckooOk cf) (key : UInt64) :
    cf.lookup key = true ↔ keyPair cf key ∈ pairsOf cf := by
  have hfp := fpOf_ne_zero key
  unfold Cuckoo.lookup keyPair pairsOf pairsIn
  rw [mem_stored h.paired (Finset.mem_range.2 (h.index_lt key)), Bool.or_eq_true,
    bucketHas_eq_true_iff hfp, bucketHas_eq_true_iff hfp]
  rfl

/-- What an insert does: it adds the pair, or loses one. -/
structure Inserted (cf : Cuckoo) (key : UInt64) (cf' : Cuckoo) (ok : Bool) : Prop where
  size : cf'.nBuckets = cf.nBuckets
  buckets : BucketsOk cf.nBuckets cf'.buckets
  stored : ok = true →
    pairsOf cf' = keyPair cf key ::ₘ pairsOf cf ∧ cf'.count = (cf.count + 1) % 2 ^ 32
  failed : ok = false →
    (∃ c, c ::ₘ pairsOf cf' = keyPair cf key ::ₘ pairsOf cf) ∧ cf'.count = cf.count

theorem CuckooOk.inserted_added (h : CuckooOk cf) (key : UInt64) {i : Nat} (hi : i < cf.nBuckets)
    (hpair : pairOf (altIndex cf.nBuckets) i (fpOf key) = keyPair cf key) {b : List UInt8}
    (hins : bucketInsert (cf.bucket i) (fpOf key) = some b) :
    Inserted cf key (cf.added i b) true := by
  obtain ⟨hok, hpairs⟩ := pairsIn_insert h.buckets hi (fpOf_ne_zero key) hins
  rw [hpair] at hpairs
  exact ⟨rfl, hok, fun _ => ⟨hpairs, rfl⟩, fun hb => (Bool.false_ne_true hb.symm).elim⟩

theorem CuckooOk.inserted_kicks (h : CuckooOk cf) (key : UInt64) {i : Nat} (hi : i < cf.nBuckets)
    (hfull : ∀ x ∈ cf.bucket i, x ≠ 0)
    (hpair : pairOf (altIndex cf.nBuckets) i (fpOf key) = keyPair cf key) {m : Nat} {s : Kick}
    {ok : Bool} (hkicks : Kick.kicks cf.nBuckets key m 0 ⟨cf.buckets, i, fpOf key⟩ = (s, ok)) :
    (ok = true →
      Inserted cf key { cf with buckets := s.buckets, count := (cf.count + 1) % 2 ^ 32 } true) ∧
    (ok = false → Inserted cf key { cf with buckets := s.buckets } false) := by
  obtain ⟨k, -, hk⟩ := h.size
  have hkick : KickOk (2 ^ k) ⟨cf.buckets, i, fpOf key⟩ :=
    ⟨hk ▸ h.buckets, hk ▸ hi, fpOf_ne_zero key⟩
  have hspec := kicks_spec hkick hfull key m 0
  have hall : withHand cf.nBuckets ⟨cf.buckets, i, fpOf key⟩ = keyPair cf key ::ₘ pairsOf cf := by
    unfold withHand
    rw [hpair]
    rfl
  rw [← hk, hall, hkicks] at hspec
  obtain ⟨hbuckets, hstored, hfailed⟩ := hspec
  refine ⟨fun hok => ?_, fun hok => ?_⟩
  · exact ⟨rfl, hbuckets, fun _ => ⟨hstored hok, rfl⟩, fun hb => (Bool.false_ne_true hb.symm).elim⟩
  · exact ⟨rfl, hbuckets, fun hb => (Bool.false_ne_true hb).elim, fun _ => ⟨⟨_, hfailed hok⟩, rfl⟩⟩

/-- What an insert does. -/
theorem CuckooOk.insert_spec (h : CuckooOk cf) (key : UInt64) (odd : Bool) :
    Inserted cf key (cf.insert key odd).1 (cf.insert key odd).2 := by
  cases hins1 : bucketInsert (cf.bucket (cf.index key)) (fpOf key) with
  | some b =>
    have heq : cf.insert key odd = (cf.added (cf.index key) b, true) := by
      simp only [Cuckoo.insert, hins1]
    rw [heq]
    exact h.inserted_added key (h.index_lt key) rfl hins1
  | none =>
    set i2 := altIndex cf.nBuckets (cf.index key) (fpOf key) with hi2
    cases hins2 : bucketInsert (cf.bucket i2) (fpOf key) with
    | some b =>
      have heq : cf.insert key odd = (cf.added i2 b, true) := by
        simp only [Cuckoo.insert, hins1, ← hi2, hins2]
      rw [heq]
      exact h.inserted_added key (h.alt_lt key) (h.keyPair_alt key) hins2
    | none =>
      -- both buckets of the key are full, whichever the loop starts with
      obtain ⟨i, hstart, hi, hfull, hpair⟩ : ∃ i, (if odd then cf.index key else i2) = i ∧
          i < cf.nBuckets ∧ (∀ x ∈ cf.bucket i, x ≠ 0) ∧
          pairOf (altIndex cf.nBuckets) i (fpOf key) = keyPair cf key := by
        cases odd
        · exact ⟨i2, if_neg Bool.false_ne_true, h.alt_lt key, bucketInsert_none hins2,
            h.keyPair_alt key⟩
        · exact ⟨cf.index key, if_pos rfl, h.index_lt key, bucketInsert_none hins1, rfl⟩
      obtain ⟨⟨s, ok⟩, hkicks⟩ :
          ∃ r, Kick.kicks cf.nBuckets key ckMaxKicks 0 ⟨cf.buckets, i, fpOf key⟩ = r := ⟨_, rfl⟩
      obtain ⟨hstored, hfailed⟩ := h.inserted_kicks key hi hfull hpair hkicks
      cases ok with
      | true =>
        have heq : cf.insert key odd =
            ({ cf with buckets := s.buckets, count := (cf.count + 1) % 2 ^ 32 }, true) := by
          simp only [Cuckoo.insert, hins1, ← hi2, hins2, hstart, hkicks]
        rw [heq]
        exact hstored rfl
      | false =>
        have heq : cf.insert key odd = ({ cf with buckets := s.buckets }, false) := by
          simp only [Cuckoo.insert, hins1, ← hi2, hins2, hstart, hkicks]
        rw [heq]
        exact hfailed rfl

/-- What a delete of a stored key leaves. -/
structure Deleted (cf : Cuckoo) (key : UInt64) (cf' : Cuckoo) : Prop where
  size : cf'.nBuckets = cf.nBuckets
  buckets : BucketsOk cf.nBuckets cf'.buckets
  stored : keyPair cf key ::ₘ pairsOf cf' = pairsOf cf
  count : cf'.count = cf.count - 1

theorem CuckooOk.deleted_removed (h : CuckooOk cf) (key : UInt64) {i : Nat} (hi : i < cf.nBuckets)
    (hpair : pairOf (altIndex cf.nBuckets) i (fpOf key) = keyPair cf key) {b : List UInt8}
    (hrem : bucketRemove (cf.bucket i) (fpOf key) = some b) :
    Deleted cf key (cf.removed i b) := by
  obtain ⟨hok, hpairs⟩ := pairsIn_remove h.buckets hi (fpOf_ne_zero key) hrem
  rw [hpair] at hpairs
  refine ⟨rfl, hok, hpairs, ?_⟩
  change (if cf.count = 0 then 0 else cf.count - 1) = cf.count - 1
  split
  · omega
  · rfl

theorem CuckooOk.delete_spec (h : CuckooOk cf) (key : UInt64)
    (hmem : keyPair cf key ∈ pairsOf cf) : Deleted cf key (cf.delete key).1 := by
  unfold Cuckoo.delete
  simp only
  split
  · rename_i b hrem
    exact h.deleted_removed key (h.index_lt key) rfl hrem
  rename_i hno1
  split
  · rename_i b hrem
    exact h.deleted_removed key (h.alt_lt key) (h.keyPair_alt key) hrem
  rename_i hno2
  rcases (mem_stored h.paired (Finset.mem_range.2 (h.index_lt key))).1 hmem with hf | hf
  · exact absurd (mem_held.1 hf).1 (bucketRemove_none hno1)
  · exact absurd (mem_held.1 hf).1 (bucketRemove_none hno2)

end Filter

end KvTier.Analysis
