import Mathlib.Algebra.BigOperators.Group.Finset.Basic
import Mathlib.Data.Finset.Range
import Mathlib.Data.List.Count

/-!
# Completion latches

A latch counts the tasks of a job that are still open; whoever ends the last one fires it, with the
first error any of them noted.
-/

namespace KvTier.Lib

open List

/-- A count of references with the first error, and the acknowledgements sent. -/
structure Latch (ε : Type) where
  refs : Int
  err : Option ε
  acks : List (Option ε)
deriving DecidableEq

namespace Latch

variable {ι ε : Type} [DecidableEq ι]

/-- Note an error, unless one is noted already. -/
def setErr (l : Latch ε) : Option ε → Latch ε
  | some e => { l with err := l.err <|> some e }
  | none => l

/-- End a task; the last one fires the latch. -/
def unref (l : Latch ε) : Latch ε :=
  { l with
    refs := l.refs - 1
    acks := if l.refs = 1 then l.acks ++ [l.err] else l.acks }

/-- Note errors of several jobs. -/
def setErrs (f : ι → Latch ε) (es : List (ι × Option ε)) : ι → Latch ε :=
  es.foldl (fun f e => Function.update f e.1 ((f e.1).setErr e.2)) f

/-- End tasks of several jobs, each with its outcome. -/
def release (f : ι → Latch ε) (es : List (ι × Option ε)) : ι → Latch ε :=
  es.foldl (fun f e => Function.update f e.1 ((f e.1).setErr e.2).unref) f

omit [DecidableEq ι] in
@[simp]
theorem refs_setErr (l : Latch ε) (e : Option ε) : (l.setErr e).refs = l.refs := by
  cases e <;> rfl

omit [DecidableEq ι] in
@[simp]
theorem acks_setErr (l : Latch ε) (e : Option ε) : (l.setErr e).acks = l.acks := by
  cases e <;> rfl

theorem setErrs_eq (f : ι → Latch ε) (es : List (ι × Option ε)) (i : ι) :
    (setErrs f es i).refs = (f i).refs ∧ (setErrs f es i).acks = (f i).acks := by
  induction es generalizing f with
  | nil => exact ⟨rfl, rfl⟩
  | cons e es ih =>
    obtain ⟨h1, h2⟩ := ih (Function.update f e.1 ((f e.1).setErr e.2))
    refine ⟨h1.trans ?_, h2.trans ?_⟩
    all_goals
      by_cases hi : i = e.1
      · subst hi
        simp
      · rw [Function.update_of_ne hi]

/-- Ending tasks counts each job down by its own. -/
theorem refs_release (f : ι → Latch ε) (es : List (ι × Option ε)) (i : ι) :
    (release f es i).refs = (f i).refs - (es.map Prod.fst).count i := by
  induction es generalizing f with
  | nil => simp [release]
  | cons e es ih =>
    have hrest := ih (Function.update f e.1 ((f e.1).setErr e.2).unref)
    refine hrest.trans ?_
    by_cases hi : i = e.1
    · subst hi
      simp only [Function.update_self, unref, refs_setErr, map_cons, count_cons_self]
      omega
    · rw [Function.update_of_ne hi, map_cons, count_cons_of_ne fun h => hi h.symm]

/-- The outcomes of one job. -/
def outcomesOf (i : ι) (es : List (ι × Option ε)) : List (Option ε) :=
  (es.filter (·.1 = i)).map (·.2)

/-- The first error, with those noted before. -/
def noted (err : Option ε) (os : List (Option ε)) : Option ε := os.foldl (· <|> ·) err

theorem outcomesOf_cons_self (i : ι) (o : Option ε) (es : List (ι × Option ε)) :
    outcomesOf i ((i, o) :: es) = o :: outcomesOf i es := by
  simp [outcomesOf]

theorem outcomesOf_cons_ne {i j : ι} (h : i ≠ j) (o : Option ε) (es : List (ι × Option ε)) :
    outcomesOf i ((j, o) :: es) = outcomesOf i es := by
  have hne : ¬ j = i := fun hj => h hj.symm
  simp [outcomesOf, hne]

omit [DecidableEq ι] in
theorem noted_eq_none {err : Option ε} {os : List (Option ε)} :
    noted err os = none ↔ err = none ∧ ∀ o ∈ os, o = none := by
  induction os generalizing err with
  | nil => simp [noted]
  | cons o os ih =>
    have hstep : noted err (o :: os) = noted (err <|> o) os := rfl
    rw [hstep, ih, forall_mem_cons, ← and_assoc]
    cases err <;> simp

omit [DecidableEq ι] in
theorem noted_of_none {err : Option ε} {os : List (Option ε)} (h : ∀ o ∈ os, o = none) :
    noted err os = err := by
  induction os with
  | nil => rfl
  | cons o os ih =>
    rw [forall_mem_cons] at h
    have hstep : noted err (o :: os) = noted (err <|> o) os := rfl
    have hnone : (err <|> (none : Option ε)) = err := by cases err <;> rfl
    rw [hstep, h.1, hnone]
    exact ih h.2

omit [DecidableEq ι] in
theorem err_setErr (l : Latch ε) (o : Option ε) : (l.setErr o).err = (l.err <|> o) := by
  cases o <;> cases h : l.err <;> simp [setErr, h]

theorem err_setErrs (f : ι → Latch ε) (es : List (ι × Option ε)) (i : ι) :
    (setErrs f es i).err = noted (f i).err (outcomesOf i es) := by
  induction es generalizing f with
  | nil => rfl
  | cons e es ih =>
    obtain ⟨j, o⟩ := e
    have hrest := ih (Function.update f j ((f j).setErr o))
    refine hrest.trans ?_
    by_cases hi : i = j
    · subst hi
      rw [Function.update_self, err_setErr, outcomesOf_cons_self]
      rfl
    · rw [Function.update_of_ne hi, outcomesOf_cons_ne hi]

/-- The release that comes to 0 acknowledges, with the first error. -/
theorem acks_release (f : ι → Latch ε) (es : List (ι × Option ε)) (i : ι) :
    (release f es i).acks = (f i).acks ++
      if 1 ≤ (f i).refs ∧ (f i).refs ≤ (es.map Prod.fst).count i then
        [noted (f i).err ((outcomesOf i es).take (f i).refs.toNat)] else [] := by
  induction es generalizing f with
  | nil =>
    have : ¬ (1 ≤ (f i).refs ∧ (f i).refs ≤ 0) := by omega
    simp [release, this]
  | cons e es ih =>
    obtain ⟨j, o⟩ := e
    have hrest := ih (Function.update f j ((f j).setErr o).unref)
    refine hrest.trans ?_
    by_cases hi : i = j
    · subst hi
      simp only [Function.update_self, unref, refs_setErr, acks_setErr, err_setErr, map_cons,
        count_cons_self, outcomesOf_cons_self]
      by_cases hone : (f i).refs = 1
      · -- the latch fires here, and not again
        rw [if_pos hone, if_neg (by omega), if_pos (by omega), hone, List.append_nil]
        rfl
      rw [if_neg hone]
      congr 1
      by_cases hfire : 1 ≤ (f i).refs ∧ (f i).refs ≤ ((es.map Prod.fst).count i : Int) + 1
      · have htake : (f i).refs.toNat = ((f i).refs - 1).toNat + 1 := by omega
        rw [if_pos (by omega), if_pos (by push_cast; exact hfire), htake]
        rfl
      · rw [if_neg (by omega), if_neg (by push_cast; exact hfire)]
    · rw [Function.update_of_ne hi, map_cons, count_cons_of_ne fun h => hi h.symm,
        outcomesOf_cons_ne hi]

theorem length_acks_release (f : ι → Latch ε) (es : List (ι × Option ε)) (i : ι) :
    (release f es i).acks.length = (f i).acks.length +
      if 1 ≤ (f i).refs ∧ (f i).refs ≤ (es.map Prod.fst).count i then 1 else 0 := by
  rw [acks_release, length_append]
  split <;> rfl

end Latch

theorem sum_update {β : Type} (c : β → Nat) (g : Nat → β) {n d : Nat} (hd : d < n) (v : β) :
    (∑ x ∈ Finset.range n, c (Function.update g d v x)) + c (g d) =
      (∑ x ∈ Finset.range n, c (g x)) + c v := by
  have hmem : d ∈ Finset.range n := Finset.mem_range.mpr hd
  rw [← Finset.sum_erase_add _ _ hmem, ← Finset.sum_erase_add _ (fun x => c (g x)) hmem,
    Function.update_self]
  have hrest : ∑ x ∈ (Finset.range n).erase d, c (Function.update g d v x) =
      ∑ x ∈ (Finset.range n).erase d, c (g x) := by
    refine Finset.sum_congr rfl fun x hx => ?_
    rw [Function.update_of_ne (Finset.ne_of_mem_erase hx)]
  rw [hrest]
  omega

end KvTier.Lib
