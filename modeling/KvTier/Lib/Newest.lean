import Mathlib.Tactic

/-!
# The newest elements of a list

`newest ver l` lists the elements of `l` with the highest version.
-/

namespace KvTier.Lib

open List

variable {α κ : Type}

/-- The highest version in a list. -/
def newestVer (ver : α → Nat) : List α → Nat
  | [] => 0
  | a :: l => max (ver a) (newestVer ver l)

/-- The elements with the highest version. -/
def newest (ver : α → Nat) (l : List α) : List α := l.filter fun a => ver a == newestVer ver l

variable {ver : α → Nat}

theorem le_newestVer {l : List α} {a : α} (h : a ∈ l) : ver a ≤ newestVer ver l := by
  induction l with
  | nil => cases h
  | cons b l ih =>
    rcases mem_cons.mp h with rfl | h
    · exact le_max_left _ _
    · exact le_trans (ih h) (le_max_right _ _)

theorem newestVer_concat (l : List α) (a : α) :
    newestVer ver (l ++ [a]) = max (newestVer ver l) (ver a) := by
  induction l with
  | nil => simp [newestVer]
  | cons b l ih => simp only [cons_append, newestVer, ih, max_assoc]

theorem newestVer_perm {l l' : List α} (h : l.Perm l') : newestVer ver l = newestVer ver l' := by
  induction h with
  | nil => rfl
  | cons a _ ih => simp [newestVer, ih]
  | swap a b l => simp only [newestVer, max_left_comm]
  | trans _ _ ih ih' => exact ih.trans ih'

theorem newest_perm {l l' : List α} (h : l.Perm l') : (newest ver l).Perm (newest ver l') := by
  unfold newest
  rw [newestVer_perm h]
  exact h.filter _

theorem mem_newest {l : List α} {a : α} :
    a ∈ newest ver l ↔ a ∈ l ∧ ver a = newestVer ver l := by
  simp [newest]

theorem newest_ne_nil {l : List α} (h : l ≠ []) : newest ver l ≠ [] := by
  have hex : ∀ l : List α, l ≠ [] → ∃ a ∈ l, ver a = newestVer ver l := by
    intro l hl
    induction l with
    | nil => exact absurd rfl hl
    | cons b l ih =>
      by_cases hn : l = []
      · subst hn
        exact ⟨b, by simp, by simp [newestVer]⟩
      obtain ⟨a, ha, hv⟩ := ih hn
      rcases Nat.le_total (ver b) (newestVer ver l) with hle | hle
      · exact ⟨a, by simp [ha], by simp only [newestVer]; omega⟩
      · exact ⟨b, by simp, by simp only [newestVer]; omega⟩
  obtain ⟨a, ha, hv⟩ := hex l h
  exact ne_nil_of_mem (mem_newest.mpr ⟨ha, hv⟩)

theorem newest_concat_of_lt {l : List α} {a : α} (h : ver a < newestVer ver l) :
    newest ver (l ++ [a]) = newest ver l := by
  unfold newest
  rw [newestVer_concat, max_eq_left h.le, filter_append]
  simp [h.ne]

theorem newest_concat_of_eq {l : List α} {a : α} (h : ver a = newestVer ver l) :
    newest ver (l ++ [a]) = newest ver l ++ [a] := by
  unfold newest
  rw [newestVer_concat, max_eq_left h.le, filter_append]
  simp [h]

theorem newest_concat_of_gt {l : List α} {a : α} (h : newestVer ver l < ver a) :
    newest ver (l ++ [a]) = [a] := by
  have hnone : l.filter (fun b => ver b == ver a) = [] := by
    rw [filter_eq_nil_iff]
    intro b hb
    have : ver b ≤ newestVer ver l := le_newestVer hb
    simp only [beq_iff_eq]
    omega
  unfold newest
  rw [newestVer_concat, max_eq_right h.le, filter_append, hnone]
  simp

@[simp]
theorem newest_nil : newest ver ([] : List α) = [] := rfl

@[simp]
theorem newest_singleton (a : α) : newest ver [a] = [a] := by
  simp [newest, newestVer]

/-- With keys that differ, a search does not depend on the order. -/
theorem find?_eq_of_perm [DecidableEq κ] (key : α → κ) {l l' : List α} (h : l.Perm l')
    (hn : (l.map key).Nodup) (k : κ) :
    (l.find? fun a => key a = k) = l'.find? fun a => key a = k := by
  -- an element is found exactly if it is there: it is the only one with its key
  have hiff : ∀ m : List α, (m.map key).Nodup → ∀ a,
      (m.find? fun a => key a = k) = some a ↔ a ∈ m ∧ key a = k := by
    intro m hm a
    constructor
    · intro hf
      exact ⟨List.mem_of_find?_eq_some hf, by simpa using List.find?_some hf⟩
    rintro ⟨ha, hk⟩
    cases hf : m.find? fun a => key a = k with
    | none =>
      have := List.find?_eq_none.mp hf a ha
      simp [hk] at this
    | some b =>
      have hb : b ∈ m := List.mem_of_find?_eq_some hf
      have hkb : key b = k := by simpa using List.find?_some hf
      rw [inj_on_of_nodup_map hm hb ha (hkb.trans hk.symm)]
  have hn' : (l'.map key).Nodup := (h.map key).nodup_iff.mp hn
  ext a
  rw [hiff l hn, hiff l' hn', h.mem_iff]

end KvTier.Lib
