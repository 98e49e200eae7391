import Mathlib.Logic.Function.Basic

/-!
# Two-slot registers

A register kept in two slots, for media on which a write may be torn.
-/

namespace KvTier.Lib.TwoSlot

variable {β : Type} (epoch : β → Nat)

/-- The value a reader takes. -/
def pick : Option β → Option β → Option β
  | none, b => b
  | some x, none => some x
  | some x, some y => if epoch x < epoch y then some y else some x

/-- The slot of its epoch holds `x`, the other one something older. -/
def Newest (slots : Nat → Option β) : Option β → Prop
  | none => slots 0 = none ∧ slots 1 = none
  | some x => slots (epoch x % 2) = some x ∧
      ∀ y, slots ((epoch x + 1) % 2) = some y → epoch y < epoch x

variable {epoch} {slots : Nat → Option β}

theorem Newest.first (h : Newest epoch slots none) (x : β) :
    Newest epoch (Function.update slots (epoch x % 2) (some x)) (some x) := by
  refine ⟨Function.update_self _ _ _, fun y hy => ?_⟩
  have hne : (epoch x + 1) % 2 ≠ epoch x % 2 := by omega
  rw [Function.update_of_ne hne] at hy
  rcases Nat.mod_two_eq_zero_or_one (epoch x + 1) with he | he
  · rw [he, h.1] at hy
    cases hy
  · rw [he, h.2] at hy
    cases hy

theorem Newest.tearFirst (h : Newest epoch slots none) (i : Nat) :
    Newest epoch (Function.update slots i none) none := by
  refine ⟨?_, ?_⟩
  · rw [Function.update_apply]
    split
    · rfl
    · exact h.1
  rw [Function.update_apply]
  split
  · rfl
  · exact h.2

theorem Newest.write {x y : β} (h : Newest epoch slots (some x)) (hy : epoch y = epoch x + 1) :
    Newest epoch (Function.update slots (epoch y % 2) (some y)) (some y) := by
  refine ⟨Function.update_self _ _ _, fun z hz => ?_⟩
  have hne : (epoch y + 1) % 2 ≠ epoch y % 2 := by omega
  have hold : (epoch y + 1) % 2 = epoch x % 2 := by omega
  rw [Function.update_of_ne hne, hold, h.1] at hz
  cases hz
  omega

theorem Newest.tear {x : β} (h : Newest epoch slots (some x)) {e : Nat} (he : e = epoch x + 1) :
    Newest epoch (Function.update slots (e % 2) none) (some x) := by
  subst he
  refine ⟨?_, fun y hy => ?_⟩
  · have hne : epoch x % 2 ≠ (epoch x + 1) % 2 := by omega
    rw [Function.update_of_ne hne]
    exact h.1
  · rw [Function.update_self] at hy
    cases hy

/-- The two slots never have one epoch. -/
theorem Newest.ne {last : Option β} {x y : β} (h : Newest epoch slots last)
    (h0 : slots 0 = some x) (h1 : slots 1 = some y) : epoch x ≠ epoch y := by
  cases last with
  | none =>
    rw [h.1] at h0
    cases h0
  | some z =>
    obtain ⟨hz, hother⟩ := h
    rcases Nat.mod_two_eq_zero_or_one (epoch z) with he | he
    · have hn : (epoch z + 1) % 2 = 1 := by omega
      rw [he, h0, Option.some.injEq] at hz
      rw [hn] at hother
      have hlt := hother y h1
      subst hz
      omega
    have hn : (epoch z + 1) % 2 = 0 := by omega
    rw [he, h1, Option.some.injEq] at hz
    rw [hn] at hother
    have hlt := hother x h0
    subst hz
    omega

/-- The reader finds the last complete value. -/
theorem Newest.pick {last : Option β} (h : Newest epoch slots last) :
    pick epoch (slots 0) (slots 1) = last := by
  cases last with
  | none =>
    rw [h.1, h.2]
    rfl
  | some x =>
    obtain ⟨hx, hother⟩ := h
    rcases Nat.mod_two_eq_zero_or_one (epoch x) with he | he
    · have hn : (epoch x + 1) % 2 = 1 := by omega
      rw [he] at hx
      rw [hn] at hother
      cases h1 : slots 1 with
      | none =>
        rw [hx]
        rfl
      | some y =>
        have hlt := hother y h1
        rw [hx]
        simp only [TwoSlot.pick, if_neg (Nat.lt_asymm hlt)]
    have hn : (epoch x + 1) % 2 = 0 := by omega
    rw [he] at hx
    rw [hn] at hother
    cases h0 : slots 0 with
    | none =>
      rw [hx]
      rfl
    | some y =>
      have hlt := hother y h0
      rw [hx]
      simp only [TwoSlot.pick, if_pos hlt]

end KvTier.Lib.TwoSlot
