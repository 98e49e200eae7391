import Mathlib.Tactic
import Mathlib.Data.Nat.ModEq

/-!
# Bijections of machine words

The steps non-cryptographic hashes are made of, over words of any width: an exclusive or with a
constant, an exclusive or with the word shifted down, and a product with an odd constant.
-/

namespace KvTier.Lib.Words

variable {w : Nat}

theorem xorShiftRight_injective {k : Nat} (hk : 0 < k) :
    Function.Injective fun x : BitVec w => x ^^^ (x >>> k) := by
  intro x y h
  have hbit : ∀ n i, w - i = n → x.getLsbD i = y.getLsbD i := by
    intro n
    induction n using Nat.strongRecOn with
    | ind n ih =>
      intro i hi
      by_cases hw : w ≤ i
      · rw [BitVec.getLsbD_of_ge x i hw, BitVec.getLsbD_of_ge y i hw]
      have habove : x.getLsbD (k + i) = y.getLsbD (k + i) :=
        ih (w - (k + i)) (by omega) (k + i) rfl
      have hi := congrArg (fun v : BitVec w => v.getLsbD i) h
      simp only [BitVec.getLsbD_xor, BitVec.getLsbD_ushiftRight, habove] at hi
      exact (Bool.xor_left_inj).1 hi
  exact BitVec.eq_of_getLsbD_eq fun i _ => hbit (w - i) i rfl

theorem mul_odd_injective {c : BitVec w} (hc : c.toNat % 2 = 1) :
    Function.Injective fun x : BitVec w => x * c := by
  intro x y h
  have hmod : x.toNat * c.toNat ≡ y.toNat * c.toNat [MOD 2 ^ w] := by
    have hnat := congrArg BitVec.toNat h
    simp only [BitVec.toNat_mul] at hnat
    exact hnat
  have hcop : Nat.gcd (2 ^ w) c.toNat = 1 :=
    Nat.Coprime.pow_left w ((Nat.coprime_two_left).2 (Nat.odd_iff.2 hc))
  have hcancel := Nat.ModEq.cancel_right_of_coprime hcop hmod
  apply BitVec.eq_of_toNat_eq
  rw [← Nat.mod_eq_of_lt x.isLt, ← Nat.mod_eq_of_lt y.isLt]
  exact hcancel

theorem xor_right_injective (c : BitVec w) : Function.Injective fun x : BitVec w => x ^^^ c :=
  fun _ _ h => (BitVec.xor_left_inj c).1 h

theorem shiftLeft_one_eq_iff (x y : BitVec (w + 1)) :
    x <<< 1 = y <<< 1 ↔ x.toNat % 2 ^ w = y.toNat % 2 ^ w := by
  have htwice : ∀ z : BitVec (w + 1), (z <<< 1).toNat = z.toNat % 2 ^ w * 2 := by
    intro z
    rw [BitVec.toNat_shiftLeft, Nat.shiftLeft_eq, pow_one, pow_succ, Nat.mul_mod_mul_right]
  rw [← BitVec.toNat_inj, htwice, htwice]
  omega

theorem shiftRight_one_shiftLeft_one {x : BitVec w} (h : x.toNat % 2 = 0) :
    (x >>> 1) <<< 1 = x := by
  have hlt := x.isLt
  apply BitVec.eq_of_toNat_eq
  rw [BitVec.toNat_shiftLeft, BitVec.toNat_ushiftRight, Nat.shiftLeft_eq, Nat.shiftRight_eq_div_pow,
    pow_one, Nat.div_mul_cancel (Nat.dvd_of_mod_eq_zero h), Nat.mod_eq_of_lt hlt]

end KvTier.Lib.Words
