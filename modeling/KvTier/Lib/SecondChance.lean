import Mathlib.Tactic

/-!
# A hand that gives second chances

Entries in a ring are looked at in turn.
-/

namespace KvTier.Lib

open List

/-- What the hand looks at. -/
structure SecondChance (α : Type) where
  kept : α → Bool
  visited : α → Bool
  clear : α → α
  size : α → Nat
  kept_clear : ∀ a, kept (clear a) = kept a
  visited_clear : ∀ a, visited (clear a) = false
  size_clear : ∀ a, size (clear a) = size a

namespace SecondChance

variable {α : Type} (P : SecondChance α)

/-- An entry that is still there after its turn. -/
def stays (a : α) : Bool := P.kept a || P.visited a

/-- What the turn of an entry frees. -/
def frees (a : α) : Nat := if P.stays a then 0 else P.size a

def freesNext (a : α) : Nat := if P.kept a then 0 else P.size a

/-- One turn. -/
def turn : List α → List α
  | [] => []
  | a :: l => if P.kept a then l ++ [a] else if P.visited a then l ++ [P.clear a] else l

/-- What the next `n` turns free. -/
def freed : Nat → List α → Nat
  | 0, _ => 0
  | _ + 1, [] => 0
  | n + 1, a :: l => P.frees a + freed n (P.turn (a :: l))

/-- What the turns of two rounds free. -/
def turns (l : List α) : List Nat := l.map P.frees ++ (l.filter P.stays).map P.freesNext

section Turn

variable {P} {a : α}

theorem turn_kept (h : P.kept a = true) (l : List α) :
    P.turn (a :: l) = l ++ [a] ∧ P.frees a = 0 := by
  simp [turn, frees, stays, h]

theorem turn_visited (hk : P.kept a = false) (hv : P.visited a = true) (l : List α) :
    P.turn (a :: l) = l ++ [P.clear a] ∧ P.frees a = 0 := by
  simp [turn, frees, stays, hk, hv]

theorem turn_freed (hk : P.kept a = false) (hv : P.visited a = false) (l : List α) :
    P.turn (a :: l) = l ∧ P.frees a = P.size a := by
  simp [turn, frees, stays, hk, hv]

theorem turns_kept (h : P.kept a = true) (l : List α) :
    P.turns (a :: l) ++ [0] = 0 :: P.turns (l ++ [a]) := by
  simp [turns, frees, freesNext, stays, h]

theorem turns_visited (hk : P.kept a = false) (hv : P.visited a = true) (l : List α) :
    P.turns (a :: l) = 0 :: P.turns (l ++ [P.clear a]) := by
  simp [turns, frees, freesNext, stays, hk, hv, P.kept_clear, P.visited_clear, P.size_clear]

theorem turns_freed (hk : P.kept a = false) (hv : P.visited a = false) (l : List α) :
    P.turns (a :: l) = P.size a :: P.turns l := by
  simp [turns, frees, stays, hk, hv]

end Turn

/-- What `n` turns free, from the turns of two rounds. -/
theorem freed_eq (n : Nat) (l : List α) : P.freed n l = ((P.turns l).take n).sum := by
  induction n generalizing l with
  | zero => simp [freed]
  | succ n ih =>
    cases l with
    | nil => simp [freed, turns]
    | cons a l =>
      rw [freed, ih]
      cases hk : P.kept a with
      | true =>
        -- the turn that is appended frees nothing
        have htake : ∀ m (ns : List Nat), ((ns ++ [0]).take m).sum = (ns.take m).sum := by
          intro m ns
          rw [take_append, sum_append]
          cases m - ns.length with
          | zero => simp
          | succ j => simp
        obtain ⟨hturn, hfrees⟩ := turn_kept hk l
        rw [hturn, hfrees, ← htake (n + 1), turns_kept hk, take_succ_cons, sum_cons]
      | false =>
        cases hv : P.visited a with
        | true =>
          obtain ⟨hturn, hfrees⟩ := turn_visited hk hv l
          rw [hturn, hfrees, turns_visited hk hv, take_succ_cons, sum_cons]
        | false =>
          obtain ⟨hturn, hfrees⟩ := turn_freed hk hv l
          rw [hturn, hfrees, turns_freed hk hv, take_succ_cons, sum_cons]

theorem sum_turns (l : List α) : (P.turns l).sum = (l.map P.freesNext).sum := by
  induction l with
  | nil => rfl
  | cons a l ih =>
    unfold turns at ih ⊢
    rw [sum_append] at ih
    by_cases hs : P.stays a = true
    · simp [sum_append, frees, hs]
      omega
    have hk : P.kept a = false := by
      simp only [stays, Bool.or_eq_true, not_or, Bool.not_eq_true] at hs
      exact hs.1
    simp [sum_append, frees, freesNext, hs, hk]
    omega

end SecondChance

end KvTier.Lib
