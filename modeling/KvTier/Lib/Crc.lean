import Mathlib.Logic.Function.Iterate
import Mathlib.Data.List.Basic

/-!
# Reflected cyclic redundancy checks

The table-driven CRC over a polynomial given in reflected order: a table entry is eight bit steps,
and a byte moves the register down eight places and adds the entry its low byte selects.
-/

namespace KvTier.Lib.Crc

open List

variable {w : Nat} (poly : BitVec w)

def bitStep (c : BitVec w) : BitVec w :=
  if c.getLsbD 0 then poly ^^^ (c >>> 1) else c >>> 1

/-- Eight bit steps: the table entry of an index. -/
def entry (i : BitVec w) : BitVec w := (bitStep poly)^[8] i

/-- The index a register and a byte select. -/
def index (c : BitVec w) (b : BitVec 8) : BitVec w :=
  (c ^^^ b.setWidth w) &&& (0xFF#8).setWidth w

/-- One byte through the register. -/
def byteStep (c : BitVec w) (b : BitVec 8) : BitVec w := (c >>> 8) ^^^ entry poly (index c b)

/-- The register after some bytes. -/
def remainder (c : BitVec w) (data : List (BitVec 8)) : BitVec w := data.foldl (byteStep poly) c

theorem remainder_append (c : BitVec w) (a b : List (BitVec 8)) :
    remainder poly c (a ++ b) = remainder poly (remainder poly c a) b :=
  foldl_append

variable {poly}

theorem getLsbD_bitStep_top (hpoly : poly.msb = true) (c : BitVec w) :
    (bitStep poly c).getLsbD (w - 1) = c.getLsbD 0 := by
  have hw : 0 < w := by
    rcases Nat.eq_zero_or_pos w with rfl | hw
    · simp [BitVec.msb] at hpoly
    · exact hw
  have htop : poly.getLsbD (w - 1) = true := by
    rw [BitVec.msb_eq_getLsbD_last] at hpoly
    exact hpoly
  have hshift : (c >>> 1).getLsbD (w - 1) = false := by
    rw [BitVec.getLsbD_ushiftRight]
    exact BitVec.getLsbD_of_ge _ _ (by omega)
  unfold bitStep
  split
  · rename_i hc
    rw [BitVec.getLsbD_xor, htop, hshift, hc]
    rfl
  · rename_i hc
    rw [hshift]
    simpa using hc

theorem bitStep_injective (hpoly : poly.msb = true) : Function.Injective (bitStep poly) := by
  intro x y hxy
  have hlow : x.getLsbD 0 = y.getLsbD 0 := by
    rw [← getLsbD_bitStep_top hpoly x, ← getLsbD_bitStep_top hpoly y, hxy]
  have hshift : x >>> 1 = y >>> 1 := by
    unfold bitStep at hxy
    rw [hlow] at hxy
    split at hxy
    · exact (BitVec.xor_right_inj poly).mp hxy
    · exact hxy
  -- the low bits agree, and so do all bits above them
  apply BitVec.eq_of_getLsbD_eq
  intro i _
  cases i with
  | zero => exact hlow
  | succ i =>
    have hbit := congrArg (fun v : BitVec w => v.getLsbD i) hshift
    simp only [BitVec.getLsbD_ushiftRight] at hbit
    rwa [Nat.add_comm 1 i] at hbit

theorem entry_injective (hpoly : poly.msb = true) : Function.Injective (entry poly) :=
  (bitStep_injective hpoly).iterate 8

/-! ## Bursts -/

theorem bitStep_xor (a b : BitVec w) :
    bitStep poly (a ^^^ b) = bitStep poly a ^^^ bitStep poly b := by
  unfold bitStep
  simp only [BitVec.getLsbD_xor, BitVec.ushiftRight_xor_distrib]
  apply BitVec.eq_of_getLsbD_eq
  intro i _
  cases a.getLsbD 0 <;> cases b.getLsbD 0 <;> simp [Bool.xor_left_comm]

theorem iterate_bitStep_xor (n : Nat) (a b : BitVec w) :
    (bitStep poly)^[n] (a ^^^ b) = (bitStep poly)^[n] a ^^^ (bitStep poly)^[n] b := by
  induction n generalizing a b with
  | zero => rfl
  | succ n ih => rw [Function.iterate_succ_apply, bitStep_xor, ih]; rfl

theorem iterate_bitStep_high {n : Nat} {y : BitVec w} (hy : ∀ i < n, y.getLsbD i = false) :
    (bitStep poly)^[n] y = y >>> n := by
  induction n with
  | zero => simp
  | succ n ih =>
    rw [Function.iterate_succ_apply', ih fun i hi => hy i (by omega), BitVec.shiftRight_add]
    have hlow : (y >>> n).getLsbD 0 = false := by simpa using hy n (by omega)
    unfold bitStep
    rw [hlow]
    rfl

theorem getLsbD_mask (i : Nat) :
    ((0xFF#8).setWidth w).getLsbD i = (decide (i < w) && decide (i < 8)) := by
  rw [BitVec.getLsbD_setWidth, show (0xFF#8) = BitVec.allOnes 8 from rfl, BitVec.getLsbD_allOnes]

theorem entry_eq (x : BitVec w) :
    entry poly x = (x >>> 8) ^^^ entry poly (x &&& (0xFF#8).setWidth w) := by
  have hsplit : x = (x &&& ~~~ (0xFF#8).setWidth w) ^^^ (x &&& (0xFF#8).setWidth w) := by
    apply BitVec.eq_of_getLsbD_eq
    intro i hi
    simp only [BitVec.getLsbD_xor, BitVec.getLsbD_and, BitVec.getLsbD_not, getLsbD_mask]
    by_cases h8 : i < 8
    · simp [hi, h8]
    · simp [hi, h8]
  have hhigh : entry poly (x &&& ~~~ (0xFF#8).setWidth w) = x >>> 8 := by
    rw [entry, iterate_bitStep_high]
    · apply BitVec.eq_of_getLsbD_eq
      intro i _
      simp only [BitVec.getLsbD_ushiftRight, BitVec.getLsbD_and, BitVec.getLsbD_not, getLsbD_mask]
      by_cases hw : 8 + i < w
      · simp [hw]
      · rw [BitVec.getLsbD_of_ge x (8 + i) (by omega), Bool.false_and]
    · intro i hi
      simp only [BitVec.getLsbD_and, BitVec.getLsbD_not, getLsbD_mask]
      simp [hi]
  conv_lhs => rw [hsplit, entry, iterate_bitStep_xor]
  rw [← hhigh]
  rfl

theorem byteStep_eq (c : BitVec w) (b : BitVec 8) :
    byteStep poly c b = entry poly (c ^^^ b.setWidth w) := by
  have hbyte : b.setWidth w >>> 8 = 0#w := by
    apply BitVec.eq_of_getLsbD_eq
    intro i _
    rw [BitVec.getLsbD_ushiftRight, BitVec.getLsbD_setWidth, BitVec.getLsbD_of_ge b _ (by omega)]
    simp
  rw [entry_eq, BitVec.ushiftRight_xor_distrib, hbyte, BitVec.xor_zero]
  rfl

/-- No bytes make two registers one. -/
theorem remainder_injective (hpoly : poly.msb = true) (data : List (BitVec 8)) :
    Function.Injective fun c => remainder poly c data := by
  induction data with
  | nil => exact Function.injective_id
  | cons b data ih =>
    intro c c' h
    have hstep : byteStep poly c b = byteStep poly c' b := ih h
    rw [byteStep_eq, byteStep_eq] at hstep
    exact (BitVec.xor_left_inj _).mp (entry_injective hpoly hstep)

/-- Bytes as a word, the first one lowest. -/
def word : List (BitVec 8) → BitVec w
  | [] => 0#w
  | b :: bs => b.setWidth w ^^^ (word bs <<< 8)

theorem getLsbD_word_of_ge {bs : List (BitVec 8)} {i : Nat} (hi : 8 * bs.length ≤ i) :
    (word bs : BitVec w).getLsbD i = false := by
  induction bs generalizing i with
  | nil => exact BitVec.getLsbD_zero
  | cons b bs ih =>
    rw [length_cons] at hi
    rw [word, BitVec.getLsbD_xor, BitVec.getLsbD_setWidth, BitVec.getLsbD_of_ge b i (by omega),
      BitVec.getLsbD_shiftLeft, ih (by omega)]
    simp

theorem entry_shiftLeft {v : BitVec w} (hv : ∀ i, w ≤ i + 8 → v.getLsbD i = false) :
    entry poly (v <<< 8) = v := by
  rw [entry, iterate_bitStep_high]
  · apply BitVec.eq_of_getLsbD_eq
    intro i hi
    rw [BitVec.getLsbD_ushiftRight, BitVec.getLsbD_shiftLeft, Nat.add_sub_cancel_left]
    by_cases htop : 8 + i < w
    · simp [htop]
    · rw [hv i (by omega), Bool.and_false]
  · intro i hi
    rw [BitVec.getLsbD_shiftLeft]
    simp [hi]

/-- Equal remainders of one word have equal registers before it. -/
theorem xor_word_of_remainder (hpoly : poly.msb = true) {x y : List (BitVec 8)}
    (hlen : x.length = y.length) (hfit : 8 * x.length ≤ w) {c c' : BitVec w}
    (h : remainder poly c x = remainder poly c' y) : c ^^^ word x = c' ^^^ word y := by
  induction x generalizing y c c' with
  | nil =>
    obtain rfl := length_eq_zero_iff.1 hlen.symm
    simpa [remainder, word] using h
  | cons a x ih =>
    cases y with
    | nil => cases hlen
    | cons b y =>
      rw [length_cons] at hfit
      rw [length_cons, length_cons, Nat.succ_inj] at hlen
      have hrest : byteStep poly c a ^^^ word x = byteStep poly c' b ^^^ word y :=
        ih hlen (by omega) h
      have hx : entry poly (word x <<< 8) = word x :=
        entry_shiftLeft fun i hi => getLsbD_word_of_ge (by omega)
      have hy : entry poly (word y <<< 8) = word y :=
        entry_shiftLeft fun i hi => getLsbD_word_of_ge (by omega)
      -- both sides are eight bit steps of what was to be compared
      rw [byteStep_eq, byteStep_eq, ← hx, ← hy, entry, entry, entry, entry, ← iterate_bitStep_xor,
        ← iterate_bitStep_xor] at hrest
      have hword := entry_injective hpoly hrest
      rwa [BitVec.xor_assoc, BitVec.xor_assoc] at hword

/-- Bytes that fit a word are determined by it. -/
theorem word_injective {x y : List (BitVec 8)} (hlen : x.length = y.length)
    (hfit : 8 * x.length ≤ w) (h : (word x : BitVec w) = word y) : x = y := by
  induction x generalizing y with
  | nil => exact (length_eq_zero_iff.1 hlen.symm).symm
  | cons a x ih =>
    cases y with
    | nil => cases hlen
    | cons b y =>
      rw [length_cons] at hfit
      rw [length_cons, length_cons, Nat.succ_inj] at hlen
      have hbit := fun i => congrArg (fun v : BitVec w => v.getLsbD i) h
      simp only [word, BitVec.getLsbD_xor, BitVec.getLsbD_setWidth, BitVec.getLsbD_shiftLeft]
        at hbit
      have hhead : a = b := by
        apply BitVec.eq_of_getLsbD_eq
        intro i hi
        simpa [hi, show i < w by omega] using hbit i
      have htail : (word x : BitVec w) = word y := by
        apply BitVec.eq_of_getLsbD_eq
        intro i hi
        by_cases htop : i + 8 < w
        · have hshift := hbit (i + 8)
          rw [hhead] at hshift
          simpa [htop, show ¬ i + 8 < 8 by omega] using hshift
        · rw [getLsbD_word_of_ge (by omega), getLsbD_word_of_ge (by omega)]
      rw [hhead, ih hlen (by omega) htail]

theorem remainder_ne_of_burst (hpoly : poly.msb = true) (c : BitVec w)
    {x y : List (BitVec 8)} (hlen : x.length = y.length) (hfit : 8 * x.length ≤ w) (hne : x ≠ y)
    (before behind : List (BitVec 8)) :
    remainder poly c (before ++ x ++ behind) ≠ remainder poly c (before ++ y ++ behind) := by
  intro h
  rw [remainder_append, remainder_append, remainder_append, remainder_append] at h
  have hmid := xor_word_of_remainder hpoly hlen hfit (remainder_injective hpoly behind h)
  exact hne (word_injective hlen hfit ((BitVec.xor_right_inj _).mp hmid))

end KvTier.Lib.Crc
