import Mathlib.Tactic

/-!
# The first least element of a scan

A loop that keeps the best element so far, and its key: an element replaces it if it qualifies and
its key is smaller.
-/

namespace KvTier.Lib

open List

variable {α κ : Type} [LinearOrder κ] {p : α → Prop} {key : α → κ} {bound : κ}

/-- What a scan of `l` ends with. -/
inductive LeastOf (p : α → Prop) (key : α → κ) (bound : κ) (l : List α) : Option α × κ → Prop
  | none (hall : ∀ a ∈ l, p a → bound ≤ key a) : LeastOf p key bound l (none, bound)
  | found {v : α} {before after : List α} (hl : l = before ++ v :: after) (hp : p v)
      (hlt : key v < bound) (hbefore : ∀ a ∈ before, p a → key v < key a)
      (hafter : ∀ a ∈ after, p a → key v ≤ key a) : LeastOf p key bound l (some v, key v)

/-- One more element of the scan. -/
theorem LeastOf.concat {l : List α} {best : Option α × κ} (h : LeastOf p key bound l best) (a : α) :
    (p a → key a < best.2 → LeastOf p key bound (l ++ [a]) (some a, key a)) ∧
      (¬ (p a ∧ key a < best.2) → LeastOf p key bound (l ++ [a]) best) := by
  cases h with
  | none hall =>
    refine ⟨fun hpa hlt => ?_, fun hnot => ?_⟩
    · exact .found rfl hpa hlt (fun b hb hpb => hlt.trans_le (hall b hb hpb)) (by simp)
    refine .none fun b hb hpb => ?_
    rcases mem_append.1 hb with hb | hb
    · exact hall b hb hpb
    · obtain rfl := mem_singleton.1 hb
      exact not_lt.1 fun hlt => hnot ⟨hpb, hlt⟩
  | @found v before after hl hp hlt hbefore hafter =>
    subst hl
    refine ⟨fun hpa hless => ?_, fun hnot => ?_⟩
    · refine .found rfl hpa (hless.trans hlt) (fun b hb hpb => ?_) (by simp)
      rcases mem_append.1 hb with hb | hb
      · exact hless.trans (hbefore b hb hpb)
      · rcases mem_cons.1 hb with rfl | hb
        · exact hless
        · exact hless.trans_le (hafter b hb hpb)
    refine .found (List.append_assoc before (v :: after) [a]) hp hlt hbefore fun b hb hpb => ?_
    rcases mem_append.1 hb with hb | hb
    · exact hafter b hb hpb
    · obtain rfl := mem_singleton.1 hb
      exact not_lt.1 fun hless => hnot ⟨hpb, hless⟩

section Scan

variable {f : Option α × κ → α → Option α × κ}
  (htake : ∀ best a, p a → key a < best.2 → f best a = (some a, key a))
  (hskip : ∀ best a, ¬ (p a ∧ key a < best.2) → f best a = best)
include htake hskip

/-- What the loop ends with. -/
theorem foldl_leastOf (l : List α) (bound : κ) :
    LeastOf p key bound l (l.foldl f (none, bound)) := by
  induction l using List.reverseRecOn with
  | nil => exact .none (by simp)
  | append_singleton l a ih =>
    rw [foldl_append, foldl_cons, foldl_nil]
    by_cases hless : p a ∧ key a < (l.foldl f (none, bound)).2
    · rw [htake _ a hless.1 hless.2]
      exact (ih.concat a).1 hless.1 hless.2
    · rw [hskip _ a hless]
      exact (ih.concat a).2 hless

theorem exists_leastOf {l : List α} {v : α} (h : (l.foldl f (none, bound)).1 = some v) :
    ∃ k, LeastOf p key bound l (some v, k) := by
  have hscan := foldl_leastOf htake hskip l bound
  rw [← Prod.eta (l.foldl f (none, bound)), h] at hscan
  exact ⟨_, hscan⟩

end Scan

theorem LeastOf.mem {l : List α} {v : α} {k : κ} (h : LeastOf p key bound l (some v, k)) :
    v ∈ l ∧ p v ∧ key v < bound ∧ ∀ a ∈ l, p a → key v ≤ key a := by
  cases h with
  | @found _ before after hl hp hlt hbefore hafter =>
    subst hl
    refine ⟨by simp, hp, hlt, fun a ha hpa => ?_⟩
    rcases mem_append.1 ha with ha | ha
    · exact (hbefore a ha hpa).le
    · rcases mem_cons.1 ha with rfl | ha
      · exact le_refl _
      · exact hafter a ha hpa

theorem LeastOf.lt_of_lt {p : Nat → Prop} {key : Nat → κ} {n v : Nat} {k : κ}
    (h : LeastOf p key bound (List.range n) (some v, k)) {i : Nat} (hi : i < v) (hp : p i) :
    key v < key i := by
  cases h with
  | @found _ before after hl _ _ hbefore _ =>
    refine hbefore i ?_ hp
    have hlen : before.length < n := by
      have := congrArg List.length hl
      simp only [length_range, length_append, length_cons] at this
      omega
    have hv : (List.range n)[before.length]? = some v := by rw [hl]; simp
    rw [List.getElem?_range hlen] at hv
    have hvi : i < before.length := by
      rw [Option.some.inj hv]
      exact hi
    have hget : (List.range n)[i]? = some i := List.getElem?_range (by omega)
    rw [hl, List.getElem?_append_left hvi] at hget
    exact mem_of_getElem? hget

end KvTier.Lib
