import Mathlib.Algebra.BigOperators.Group.Finset.Piecewise
import Mathlib.Algebra.Order.Group.Multiset
import Mathlib.Data.Sym.Sym2

/-!
# Buckets in pairs

A fingerprint is stored in one of two buckets, and each of the two is found from the other and the
fingerprint alone.
-/

namespace KvTier.Lib.Partners

open Multiset

variable {ι φ : Type} [DecidableEq ι] [DecidableEq φ] [Zero φ]

/-- The fingerprints in a bucket. -/
def held (l : List φ) : Multiset φ := (l.filter (· ≠ 0) : List φ)

/-- The two places of an item. -/
def pairOf (alt : ι → φ → ι) (i : ι) (f : φ) : Sym2 ι × φ := (s(i, alt i f), f)

/-- What the buckets of a table store. -/
def stored (alt : ι → φ → ι) (s : Finset ι) (b : ι → List φ) : Multiset (Sym2 ι × φ) :=
  ∑ i ∈ s, (held (b i)).map (pairOf alt i)

/-- Every place has a partner for each fingerprint. -/
structure Paired (s : Finset ι) (alt : ι → φ → ι) : Prop where
  mem : ∀ i ∈ s, ∀ f, alt i f ∈ s
  alt_alt : ∀ i ∈ s, ∀ f, alt (alt i f) f = i

variable {s : Finset ι} {alt : ι → φ → ι} {b : ι → List φ}

/-! ## Buckets -/

theorem mem_held {l : List φ} {f : φ} : f ∈ held l ↔ f ∈ l ∧ f ≠ 0 := by
  simp [held]

theorem held_cons_zero (l : List φ) : held (0 :: l) = held l := by
  simp [held]

theorem held_cons {x : φ} (hx : x ≠ 0) (l : List φ) : held (x :: l) = x ::ₘ held l := by
  simp [held, hx]

theorem held_set {l : List φ} {i : Nat} (hi : i < l.length) {f : φ} (hf : f ≠ 0)
    (hv : l.getD i 0 ≠ 0) : l.getD i 0 ::ₘ held (l.set i f) = f ::ₘ held l := by
  induction l generalizing i with
  | nil => exact absurd hi (Nat.not_lt_zero i)
  | cons x l ih =>
    cases i with
    | zero =>
      rw [List.getD_cons_zero] at hv ⊢
      rw [List.set_cons_zero, held_cons hf, held_cons hv, cons_swap]
    | succ i =>
      rw [List.getD_cons_succ] at hv ⊢
      rw [List.set_cons_succ]
      have hrest := ih (Nat.lt_of_succ_lt_succ hi) hv
      by_cases hx : x = 0
      · rw [hx, held_cons_zero, held_cons_zero, hrest]
      · rw [held_cons hx, held_cons hx, cons_swap, hrest, cons_swap]

/-! ## Pairs -/

omit [DecidableEq ι] [DecidableEq φ] [Zero φ] in
theorem pairOf_alt (h : Paired s alt) {i : ι} (hi : i ∈ s) (f : φ) :
    pairOf alt (alt i f) f = pairOf alt i f := by
  unfold pairOf
  rw [h.alt_alt i hi, Sym2.eq_swap]

omit [DecidableEq ι] [DecidableEq φ] [Zero φ] in
theorem pairOf_eq_iff (h : Paired s alt) {i j : ι} (hj : j ∈ s) {f g : φ} :
    pairOf alt i f = pairOf alt j g ↔ f = g ∧ (i = j ∨ i = alt j g) := by
  unfold pairOf
  rw [Prod.mk.injEq, Sym2.eq_iff]
  constructor
  · rintro ⟨⟨rfl, -⟩ | ⟨rfl, -⟩, rfl⟩
    · exact ⟨rfl, .inl rfl⟩
    · exact ⟨rfl, .inr rfl⟩
  · rintro ⟨rfl, rfl | rfl⟩
    · exact ⟨.inl ⟨rfl, rfl⟩, rfl⟩
    · exact ⟨.inr ⟨rfl, h.alt_alt j hj f⟩, rfl⟩

theorem stored_update (alt : ι → φ → ι) (b : ι → List φ) {i : ι} (hi : i ∈ s) (l : List φ) :
    stored alt s (Function.update b i l) + (held (b i)).map (pairOf alt i) =
      stored alt s b + (held l).map (pairOf alt i) := by
  have hothers : ∑ j ∈ s.erase i, (held (Function.update b i l j)).map (pairOf alt j) =
      ∑ j ∈ s.erase i, (held (b j)).map (pairOf alt j) := by
    refine Finset.sum_congr rfl fun j hj => ?_
    rw [Function.update_of_ne (Finset.ne_of_mem_erase hj)]
  unfold stored
  rw [← Finset.add_sum_erase s _ hi, ← Finset.add_sum_erase s _ hi, hothers, Function.update_self]
  ac_rfl

theorem stored_gain {i : ι} (hi : i ∈ s) {l : List φ} {f : φ} (h : held l = f ::ₘ held (b i)) :
    stored alt s (Function.update b i l) = pairOf alt i f ::ₘ stored alt s b := by
  have hupd := stored_update alt b hi l
  rw [h, map_cons, add_cons, ← cons_add] at hupd
  exact add_right_cancel hupd

theorem stored_loss {i : ι} (hi : i ∈ s) {l : List φ} {f : φ} (h : held (b i) = f ::ₘ held l) :
    pairOf alt i f ::ₘ stored alt s (Function.update b i l) = stored alt s b := by
  have hupd := stored_update alt b hi l
  rw [h, map_cons, add_cons, ← cons_add] at hupd
  exact add_right_cancel hupd

theorem stored_swap {i : ι} (hi : i ∈ s) {l : List φ} {f g : φ}
    (h : g ::ₘ held l = f ::ₘ held (b i)) :
    pairOf alt i g ::ₘ stored alt s (Function.update b i l) = pairOf alt i f ::ₘ stored alt s b := by
  have hupd := stored_update alt b hi l
  have hmap := congrArg (Multiset.map (pairOf alt i)) h
  rw [map_cons, map_cons] at hmap
  refine add_right_cancel (b := (held (b i)).map (pairOf alt i)) ?_
  rw [cons_add, hupd, ← add_cons, hmap, add_cons, cons_add]

omit [DecidableEq ι] in
theorem mem_stored (h : Paired s alt) {i : ι} (hi : i ∈ s) {f : φ} :
    pairOf alt i f ∈ stored alt s b ↔ f ∈ held (b i) ∨ f ∈ held (b (alt i f)) := by
  unfold stored
  rw [mem_sum]
  constructor
  · rintro ⟨j, hj, hmem⟩
    obtain ⟨g, hg, heq⟩ := mem_map.1 hmem
    obtain ⟨rfl, rfl | rfl⟩ := (pairOf_eq_iff h hi).1 heq
    · exact .inl hg
    · exact .inr hg
  · rintro (hf | hf)
    · exact ⟨i, hi, mem_map_of_mem _ hf⟩
    · exact ⟨alt i f, h.mem i hi f, mem_map.2 ⟨f, hf, pairOf_alt h hi f⟩⟩

omit [DecidableEq ι] in
theorem card_stored : (stored alt s b).card = ∑ i ∈ s, (held (b i)).card := by
  unfold stored
  rw [card_sum]
  exact Finset.sum_congr rfl fun i _ => card_map _ _

end KvTier.Lib.Partners
