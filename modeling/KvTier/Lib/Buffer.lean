import Mathlib.Data.List.Basic

/-!
# Buffers

Memory from a pointer on, as the cell at each offset: what lies past the end of an allocation is
there too, with whatever it holds.
-/

namespace KvTier.Lib

open List

variable {α : Type}

/-- Copy `n` cells of `src` to offset `off`. -/
def blit (dst : Nat → α) (off : Nat) (src : Nat → α) (n : Nat) : Nat → α :=
  fun i => if off ≤ i ∧ i < off + n then src (i - off) else dst i

/-- Copy a piece to offset `off`. -/
def blitList (dst : Nat → α) (off : Nat) (l : List α) : Nat → α :=
  fun i => if off ≤ i then l[i - off]?.getD (dst i) else dst i

/-- The first `n` cells. -/
def window (buf : Nat → α) (n : Nat) : List α := (List.range n).map buf

/-- `fresh`, with its first `n` cells taken from `f`. -/
def filled (f fresh : Nat → α) (n : Nat) : Nat → α := fun i => if i < n then f i else fresh i

def layOutAt (mem : Nat → α) (p : Nat) (pieces : List (List α)) : (Nat → α) × Nat :=
  pieces.foldl (fun s l => (blitList s.1 (p + s.2) l, s.2 + l.length)) (mem, 0)

def layOut (mem : Nat → α) (pieces : List (List α)) : Nat → α :=
  (pieces.foldl (fun s l => (blitList s.1 s.2 l, s.2 + l.length)) (mem, 0)).1

@[simp]
theorem length_window (buf : Nat → α) (n : Nat) : (window buf n).length = n := by
  simp [window]

theorem window_congr {f g : Nat → α} {n : Nat} (h : ∀ i, i < n → f i = g i) :
    window f n = window g n :=
  map_congr_left fun i hi => h i (mem_range.mp hi)

theorem window_succ (buf : Nat → α) (n : Nat) : window buf (n + 1) = window buf n ++ [buf n] := by
  simp [window, range_succ]

theorem window_add (buf : Nat → α) (n k : Nat) :
    window buf (n + k) = window buf n ++ window (fun i => buf (n + i)) k := by
  simp [window, range_add]

@[simp]
theorem filled_zero (f fresh : Nat → α) : filled f fresh 0 = fresh := by
  funext i
  simp [filled]

theorem blit_filled {f fresh src : Nat → α} {n k : Nat} (h : ∀ j, j < k → src j = f (n + j)) :
    blit (filled f fresh n) n src k = filled f fresh (n + k) := by
  funext i
  unfold blit filled
  by_cases hlow : i < n
  · rw [if_neg (by omega), if_pos hlow, if_pos (by omega)]
  by_cases hin : i < n + k
  · rw [if_pos ⟨by omega, hin⟩, if_pos hin, h (i - n) (by omega), show n + (i - n) = i by omega]
  · rw [if_neg (by omega), if_neg hlow, if_neg hin]

section Blit

variable (mem : Nat → α)

theorem blitList_append (p : Nat) (a b : List α) :
    blitList (blitList mem p a) (p + a.length) b = blitList mem p (a ++ b) := by
  funext i
  unfold blitList
  by_cases hp : p ≤ i
  · rw [if_pos hp, if_pos hp]
    by_cases ha : i - p < a.length
    · rw [if_neg (by omega), List.getElem?_append_left ha]
    · rw [if_pos (by omega), List.getElem?_append_right (by omega),
        List.getElem?_eq_none (show a.length ≤ i - p by omega), Option.getD_none,
        show i - (p + a.length) = i - p - a.length by omega]
  · rw [if_neg hp, if_neg hp, if_neg (by omega)]

theorem layOutAt_eq (p : Nat) (pieces : List (List α)) :
    layOutAt mem p pieces = (blitList mem p pieces.flatten, pieces.flatten.length) := by
  -- the pointer stands at the end of what was copied
  have hgen : ∀ (done : List α), pieces.foldl
      (fun s l => (blitList s.1 (p + s.2) l, s.2 + l.length)) (blitList mem p done, done.length) =
      (blitList mem p (done ++ pieces.flatten), (done ++ pieces.flatten).length) := by
    induction pieces with
    | nil => intro done; simp
    | cons l pieces ih =>
      intro done
      rw [foldl_cons, blitList_append mem p done l, ← length_append, ih (done ++ l),
        flatten_cons, List.append_assoc]
  have hnil : blitList mem p [] = mem := by
    funext i
    simp [blitList]
  have h := hgen []
  rw [hnil] at h
  exact h

theorem layOut_eq (pieces : List (List α)) :
    layOut mem pieces = blitList mem 0 pieces.flatten := by
  have h := congrArg Prod.fst (layOutAt_eq mem 0 pieces)
  simp only [layOutAt, Nat.zero_add] at h
  exact h

theorem blit_const_blitList (p : Nat) (l : List α) (a : α) (n : Nat) :
    blit (blitList mem p l) (p + l.length) (fun _ => a) n =
      blitList mem p (l ++ List.replicate n a) := by
  rw [← blitList_append]
  generalize blitList mem p l = mem'
  funext i
  unfold blit blitList
  split
  · rename_i hin
    rw [if_pos hin.1, List.getElem?_replicate, if_pos (by omega)]
    rfl
  rename_i hout
  split
  · rename_i hle
    rw [List.getElem?_replicate, if_neg (by omega)]
    rfl
  · rfl

theorem window_blitList (p : Nat) (l : List α) :
    window (fun i => blitList mem p l (p + i)) l.length = l := by
  apply ext_getElem
  · simp
  intro i h1 h2
  simp only [window, getElem_map, getElem_range]
  rw [blitList, if_pos (Nat.le_add_right _ _), Nat.add_sub_cancel_left, List.getElem?_eq_getElem h2]
  rfl

theorem layOut_of_lt {pieces : List (List α)} {i : Nat} (h : i < pieces.flatten.length) :
    layOut mem pieces i = pieces.flatten.get ⟨i, h⟩ := by
  rw [layOut_eq, blitList, if_pos (Nat.zero_le i), Nat.sub_zero, List.getElem?_eq_getElem h]
  rfl

theorem layOut_of_le {pieces : List (List α)} {i : Nat} (h : pieces.flatten.length ≤ i) :
    layOut mem pieces i = mem i := by
  rw [layOut_eq, blitList, if_pos (Nat.zero_le i), Nat.sub_zero, List.getElem?_eq_none h]
  rfl

theorem window_layOut (pieces : List (List α)) :
    window (layOut mem pieces) pieces.flatten.length = pieces.flatten := by
  apply ext_getElem
  · simp
  · intro i h1 h2
    simp only [window, getElem_map, getElem_range]
    exact layOut_of_lt mem h2

end Blit

end KvTier.Lib
