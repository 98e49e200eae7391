import Mathlib.Data.List.Basic
import Mathlib.Data.List.Induction

/-!
# Reassembly of parts

Two pieces a receiver of parts is made of, over any type of values. `fillAll` writes the slots of a
list one after the other.
-/

namespace KvTier.Lib

open List

/-! ## Filling slots -/

section Fill

variable {α : Type*}

/-- The slots of a list, written one after the other. -/
def fillAll (l : List α) (ws : List (Nat × α)) : List α :=
  ws.foldl (fun l w => l.set w.1 w.2) l

@[simp]
theorem fillAll_nil (l : List α) : fillAll l [] = l := rfl

theorem fillAll_cons (l : List α) (w : Nat × α) (ws : List (Nat × α)) :
    fillAll l (w :: ws) = fillAll (l.set w.1 w.2) ws := rfl

theorem fillAll_concat (l : List α) (ws : List (Nat × α)) (w : Nat × α) :
    fillAll l (ws ++ [w]) = (fillAll l ws).set w.1 w.2 := by
  simp [fillAll]

@[simp]
theorem length_fillAll (l : List α) (ws : List (Nat × α)) : (fillAll l ws).length = l.length := by
  induction ws generalizing l with
  | nil => rfl
  | cons w ws ih => rw [fillAll_cons, ih, length_set]

theorem getElem?_fillAll {f : Nat → α} {l : List α} {ws : List (Nat × α)}
    (h : ∀ w ∈ ws, w.2 = f w.1) {i : Nat} (hi : i < l.length) :
    (fillAll l ws)[i]? = if i ∈ ws.map Prod.fst then some (f i) else l[i]? := by
  induction ws generalizing l with
  | nil => simp
  | cons w ws ih =>
    rw [fillAll_cons, ih (fun w' hw' => h w' (by simp [hw'])) (by simpa using hi)]
    by_cases hws : i ∈ ws.map Prod.fst
    · simp [hws]
    by_cases hw : w.1 = i
    · subst hw
      rw [if_neg hws, if_pos (by simp), List.getElem?_set_self hi, h w (by simp)]
    · rw [if_neg hws, if_neg (by simpa [Ne.symm hw] using hws), List.getElem?_set_ne hw]

theorem fillAll_eq_map {f : Nat → α} {l : List α} {ws : List (Nat × α)}
    (h : ∀ w ∈ ws, w.2 = f w.1) (hall : ∀ i, i < l.length → i ∈ ws.map Prod.fst) :
    fillAll l ws = (List.range l.length).map f := by
  apply ext_getElem?
  intro i
  by_cases hi : i < l.length
  · rw [getElem?_fillAll h hi, if_pos (hall i hi)]
    simp [hi]
  · rw [List.getElem?_eq_none (by simpa using hi), List.getElem?_eq_none (by simpa using hi)]

end Fill

/-! ## A bounded table -/

section Table

variable {β κ : Type*} [DecidableEq κ]

def note (cap : Nat) (ks : List κ) (k : κ) : List κ :=
  if k ∈ ks ∨ cap ≤ ks.length then ks else ks ++ [k]

def upsert (key : β → κ) (new : β) (f : β → β) : Nat → List β → List β
  | cap, [] => if cap = 0 then [] else [f new]
  | cap, b :: t => if key b = key new then f b :: t else b :: upsert key new f (cap - 1) t

variable (key : β → κ) (new : β) (f : β → β)

/-- An upsert notes its key. -/
theorem keys_upsert (hf : ∀ b, key (f b) = key b) (cap : Nat) (t : List β) :
    (upsert key new f cap t).map key = note cap (t.map key) (key new) := by
  induction t generalizing cap with
  | nil =>
    by_cases hc : cap = 0 <;> simp [upsert, note, hc, hf]
  | cons b t ih =>
    by_cases hb : key b = key new
    · simp [upsert, note, hb, hf]
    have hb' : key new ≠ key b := Ne.symm hb
    rw [upsert, if_neg hb, map_cons, ih, map_cons]
    by_cases hin : key new ∈ t.map key ∨ cap ≤ t.length + 1
    · have h1 : key new ∈ t.map key ∨ cap - 1 ≤ (t.map key).length := by
        rcases hin with h | h
        · exact Or.inl h
        · exact Or.inr (by rw [length_map]; omega)
      have h2 : key new ∈ key b :: t.map key ∨ cap ≤ (key b :: t.map key).length := by
        rcases hin with h | h
        · exact Or.inl (mem_cons_of_mem _ h)
        · exact Or.inr (by simpa using h)
      rw [note, if_pos h1, note, if_pos h2]
    obtain ⟨hin1, hin2⟩ := not_or.mp hin
    have h1 : ¬ (key new ∈ t.map key ∨ cap - 1 ≤ (t.map key).length) := by
      rw [length_map]
      exact not_or.mpr ⟨hin1, by omega⟩
    have h2 : ¬ (key new ∈ key b :: t.map key ∨ cap ≤ (key b :: t.map key).length) := by
      refine not_or.mpr ⟨?_, by simpa using hin2⟩
      rw [mem_cons, not_or]
      exact ⟨hb', hin1⟩
    rw [note, if_neg h1, note, if_neg h2, cons_append]

theorem find?_upsert_ne (hf : ∀ b, key (f b) = key b) {k : κ} (hk : k ≠ key new) (cap : Nat)
    (t : List β) :
    (upsert key new f cap t).find? (fun b => decide (key b = k)) =
      t.find? fun b => decide (key b = k) := by
  induction t generalizing cap with
  | nil =>
    by_cases hc : cap = 0
    · simp [upsert, hc]
    · simp [upsert, hc, hf, Ne.symm hk]
  | cons b t ih =>
    by_cases hb : key b = key new
    · simp [upsert, hb, hf, Ne.symm hk]
    · rw [upsert, if_neg hb, List.find?_cons, List.find?_cons, ih]

theorem find?_upsert_self (hf : ∀ b, key (f b) = key b) (cap : Nat) (t : List β) :
    (upsert key new f cap t).find? (fun b => decide (key b = key new)) =
      (t.find? fun b => decide (key b = key new)).elim
        (if cap ≤ t.length then none else some (f new)) (fun b => some (f b)) := by
  induction t generalizing cap with
  | nil =>
    by_cases hc : cap = 0 <;> simp [upsert, hc, hf]
  | cons b t ih =>
    by_cases hb : key b = key new
    · simp [upsert, hb, hf]
    rw [upsert, if_neg hb]
    simp only [List.find?_cons, hb, decide_false]
    rw [ih]
    have hcap : cap - 1 ≤ t.length ↔ cap ≤ (b :: t).length := by
      rw [length_cons]
      omega
    simp only [hcap]

theorem nodup_note {cap : Nat} {ks : List κ} (h : ks.Nodup) (k : κ) : (note cap ks k).Nodup := by
  unfold note
  split
  · exact h
  rename_i hk
  have hnot : k ∉ ks := (not_or.mp hk).1
  refine nodup_append.mpr ⟨h, by simp, ?_⟩
  intro a ha b hb
  rw [mem_singleton.mp hb]
  exact fun he => hnot (he ▸ ha)

theorem nodup_foldl_note (cap : Nat) (ks : List κ) : (ks.foldl (note cap) []).Nodup := by
  induction ks using List.reverseRecOn with
  | nil => exact nodup_nil
  | append_singleton ks k ih =>
    rw [foldl_concat]
    exact nodup_note ih k

/-- A capped table keeps the first keys that differ. -/
theorem foldl_note [BEq κ] [LawfulBEq κ] (cap : Nat) (ks : List κ) :
    ks.foldl (note cap) [] = ks.eraseDups.take cap := by
  induction ks using List.reverseRecOn with
  | nil => simp
  | append_singleton ks k ih =>
    rw [foldl_concat, ih, eraseDups_append, note]
    by_cases hk : k ∈ ks
    · -- a key seen before is in the table, or the table was full when it came
      have hrem : [k].removeAll ks = [] := by simp [List.removeAll, hk]
      rw [hrem, eraseDups_nil, List.append_nil]
      by_cases hin : k ∈ ks.eraseDups.take cap
      · rw [if_pos (Or.inl hin)]
      have hfull : cap ≤ (ks.eraseDups.take cap).length := by
        rw [length_take]
        by_contra hlt
        have hle : ks.eraseDups.length ≤ cap := by omega
        rw [take_of_length_le hle] at hin
        exact hin (mem_eraseDups.mpr hk)
      rw [if_pos (Or.inr hfull)]
    have hrem : ([k].removeAll ks).eraseDups = [k] := by
      simp [List.removeAll, hk, eraseDups_cons]
    have hnot : k ∉ ks.eraseDups.take cap := by
      intro h
      exact hk (mem_eraseDups.mp (mem_of_mem_take h))
    rw [hrem, take_append, length_take]
    by_cases hfull : cap ≤ ks.eraseDups.length
    · rw [if_pos (Or.inr (by omega)), Nat.sub_eq_zero_of_le hfull]
      simp
    have htake : [k].take (cap - ks.eraseDups.length) = [k] := by
      apply take_of_length_le
      rw [length_singleton]
      omega
    rw [if_neg (not_or.mpr ⟨hnot, by omega⟩), htake]

end Table

end KvTier.Lib
