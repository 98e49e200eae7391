import KvTier.Analysis.StripeBytes

/-!
# What a checksum detects

`crc32` goes over a buffer byte by byte with a table of 256 words.
-/

namespace KvTier.Analysis

open KvTier.Lib KvTier.Model List

theorem split_burst (a : List UInt8) (s : Nat) :
    a = a.take s ++ (a.drop s).take 4 ++ a.drop (s + 4) := by
  rw [List.append_assoc, ← drop_drop, take_append_drop, take_append_drop]

theorem crc32Partial_append (crc : BitVec 32) (a b : List UInt8) :
    crc32Partial crc (a ++ b) = crc32Partial (crc32Partial crc a) b := by
  unfold crc32Partial
  rw [map_append, Crc.remainder_append, BitVec.xor_assoc _ 0xFFFFFFFF#32, BitVec.xor_self,
    BitVec.xor_zero]

/-- A checksum sees every change within four consecutive bytes, and is the checksum of a buffer's
parts. -/
theorem crc32_detects_bursts :
    (∀ (a b : List UInt8) (s : Nat), a.length = b.length → a ≠ b →
      (∀ i : Nat, a[i]? ≠ b[i]? → s ≤ i ∧ i < s + 4) → crc32 a ≠ crc32 b) ∧
    ∀ a b : List UInt8, crc32 (a ++ b) = crc32Partial (crc32 a) b := by
  refine ⟨fun a b s hlen hne hburst => ?_, fun a b => crc32Partial_append 0 a b⟩
  have hsame : ∀ i : Nat, ¬ (s ≤ i ∧ i < s + 4) → a[i]? = b[i]? :=
    fun i hi => not_not.1 fun h => hi (hburst i h)
  have hbefore : a.take s = b.take s := by
    apply ext_getElem?
    intro i
    rw [List.getElem?_take, List.getElem?_take]
    split
    · exact hsame i (by omega)
    · rfl
  have hbehind : a.drop (s + 4) = b.drop (s + 4) := by
    apply ext_getElem?
    intro i
    rw [List.getElem?_drop, List.getElem?_drop]
    exact hsame _ (by omega)
  have hmid : (a.drop s).take 4 ≠ (b.drop s).take 4 := by
    intro hmid
    apply hne
    rw [split_burst a s, split_burst b s, hbefore, hmid, hbehind]
  rw [split_burst a s, split_burst b s, hbefore, hbehind]
  refine crc32_ne_of_burst ?_ ?_ hmid _ _
  · rw [length_take, length_take, length_drop, length_drop, hlen]
  · rw [length_take]
    omega

/-- Four changed bytes in the middle of six. -/
theorem crc32_detects_four :
    crc32 [1, 2, 3, 4, 5, 6] ≠ crc32 [1, 9, 9, 9, 9, 6] ∧
      crc32 ([1, 2, 3] ++ [4, 5, 6]) = crc32Partial (crc32 [1, 2, 3]) [4, 5, 6] := by
  refine ⟨crc32_detects_bursts.1 _ _ 1 rfl (by decide) (fun i hi => ?_), crc32_detects_bursts.2 _ _⟩
  match i with
  | 0 => exact absurd rfl hi
  | 1 | 2 | 3 | 4 => decide
  | 5 => exact absurd rfl hi
  | _ + 6 => exact absurd rfl hi

end KvTier.Analysis
