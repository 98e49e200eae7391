import Mathlib.Tactic

/-!
# Tables with linear probing

An open-addressing table whose free slots carry the key zero.
-/

namespace KvTier.Lib

open List

/-- A table of `cap` slots. -/
structure ProbeTable (κ ν : Type) where
  cap : Nat
  slots : Nat → κ × ν

def probeFrom (cap : Nat) (p : Nat → Bool) : Nat → Nat → Option Nat
  | 0, _ => none
  | n + 1, j => if p j then some j else probeFrom cap p n ((j + 1) % cap)

/-! ## Probing -/

section Probe

variable {cap : Nat} {p : Nat → Bool}

theorem step_mod (j d : Nat) : ((j + 1) % cap + d) % cap = (j + (d + 1)) % cap := by
  rw [Nat.mod_add_mod]
  congr 1
  omega

theorem probeFrom_eq_some {n j i : Nat} (hj : j < cap) (h : probeFrom cap p n j = some i) :
    ∃ d < n, i = (j + d) % cap ∧ p i = true ∧ ∀ d' < d, p ((j + d') % cap) = false := by
  induction n generalizing j with
  | zero => cases h
  | succ n ih =>
    unfold probeFrom at h
    split at h
    · rename_i hp
      cases h
      exact ⟨0, by omega, (Nat.mod_eq_of_lt hj).symm, hp, by omega⟩
    rename_i hp
    obtain ⟨d, hd, hi, hpi, hmin⟩ := ih (Nat.mod_lt _ (by omega)) h
    refine ⟨d + 1, by omega, by rw [hi, step_mod], hpi, fun d' hd' => ?_⟩
    cases d' with
    | zero => simpa [Nat.mod_eq_of_lt hj] using hp
    | succ d' =>
      rw [← step_mod]
      exact hmin d' (by omega)

/-- A probe ends at the first place that passes. -/
theorem probeFrom_of_first {n j d : Nat} (hj : j < cap) (hd : d < n)
    (hp : p ((j + d) % cap) = true) (hmin : ∀ d' < d, p ((j + d') % cap) = false) :
    probeFrom cap p n j = some ((j + d) % cap) := by
  induction n generalizing j d with
  | zero => omega
  | succ n ih =>
    cases d with
    | zero =>
      rw [Nat.add_zero, Nat.mod_eq_of_lt hj] at hp
      rw [probeFrom, if_pos hp, Nat.add_zero, Nat.mod_eq_of_lt hj]
    | succ d =>
      have h0 : p j = false := by
        have := hmin 0 (by omega)
        rwa [Nat.add_zero, Nat.mod_eq_of_lt hj] at this
      have hrest := ih (d := d) (Nat.mod_lt (j + 1) (by omega)) (by omega) (by rwa [step_mod])
        fun d' hd' => by
          rw [step_mod]
          exact hmin (d' + 1) (by omega)
      rw [probeFrom, h0, if_neg (by simp), hrest, step_mod]

theorem exists_offset {j i : Nat} (hj : j < cap) (hi : i < cap) : ∃ d < cap, i = (j + d) % cap := by
  rcases Nat.lt_or_ge i j with h | h
  · refine ⟨i + cap - j, by omega, ?_⟩
    rw [show j + (i + cap - j) = i + cap by omega, Nat.add_mod_right, Nat.mod_eq_of_lt hi]
  · refine ⟨i - j, by omega, ?_⟩
    rw [show j + (i - j) = i by omega, Nat.mod_eq_of_lt hi]

theorem exists_probeFrom {j i : Nat} (hj : j < cap) (hi : i < cap) (hp : p i = true) :
    ∃ d < cap, probeFrom cap p cap j = some ((j + d) % cap) ∧ p ((j + d) % cap) = true ∧
      ∀ d' < d, p ((j + d') % cap) = false := by
  have hex : ∃ d, d < cap ∧ p ((j + d) % cap) = true := by
    obtain ⟨d, hd, rfl⟩ := exists_offset hj hi
    exact ⟨d, hd, hp⟩
  classical
  obtain ⟨hlt, hfit⟩ := Nat.find_spec hex
  have hmin : ∀ d' < Nat.find hex, p ((j + d') % cap) = false := by
    intro d' hd'
    have := Nat.find_min hex hd'
    simp only [not_and, Bool.not_eq_true] at this
    exact this (by omega)
  exact ⟨_, hlt, probeFrom_of_first hj hlt hfit hmin, hfit, hmin⟩

theorem probeFrom_of_le {fuel j i : Nat} (hcap : cap ≤ fuel) (hj : j < cap)
    (h : probeFrom cap p cap j = some i) : probeFrom cap p fuel j = some i := by
  obtain ⟨d, hd, rfl, hp, hmin⟩ := probeFrom_eq_some hj h
  exact probeFrom_of_first hj (lt_of_lt_of_le hd hcap) hp hmin

end Probe

/-! ## Tables -/

namespace ProbeTable

variable {κ ν : Type} [DecidableEq κ] [Zero κ] (home : κ → Nat)

/-- A table with free slots only. -/
def empty (cap : Nat) (v : ν) : ProbeTable κ ν := ⟨cap, fun _ => (0, v)⟩

/-- The slot a key is inserted in. -/
def freeSlot (t : ProbeTable κ ν) (k : κ) : Option Nat :=
  probeFrom t.cap (fun j => (t.slots j).1 == 0) t.cap (home k % t.cap)

/-- Insert a key that is not in the table. -/
def insert (t : ProbeTable κ ν) (k : κ) (v : ν) : ProbeTable κ ν :=
  match t.freeSlot home k with
  | none => t
  | some j => { t with slots := Function.update t.slots j (k, v) }

def slotOf (t : ProbeTable κ ν) (k : κ) : Option Nat :=
  probeFrom t.cap (fun j => (t.slots j).1 == 0 || (t.slots j).1 == k) t.cap (home k % t.cap)

/-- Look a key up. -/
def find (t : ProbeTable κ ν) (k : κ) : Option ν :=
  match probeFrom t.cap (fun j => (t.slots j).1 == 0 || (t.slots j).1 == k) t.cap
      (home k % t.cap) with
  | none => none
  | some j => if (t.slots j).1 = 0 then none else some (t.slots j).2

/-- What the table holds, slot by slot. -/
def items (t : ProbeTable κ ν) : List (κ × ν) :=
  ((List.range t.cap).map t.slots).filter fun e => e.1 ≠ 0

/-- Every key is reached from its home, at one place. -/
structure Probed (t : ProbeTable κ ν) : Prop where
  reach : ∀ i < t.cap, (t.slots i).1 ≠ 0 →
    ∃ d < t.cap, i = (home (t.slots i).1 % t.cap + d) % t.cap ∧
      ∀ d' < d, (t.slots ((home (t.slots i).1 % t.cap + d') % t.cap)).1 ≠ 0
  inj : ∀ i < t.cap, ∀ i' < t.cap, (t.slots i).1 ≠ 0 → (t.slots i).1 = (t.slots i').1 → i = i'

variable {home} {t : ProbeTable κ ν}

theorem mem_items {k : κ} {v : ν} :
    (k, v) ∈ t.items ↔ k ≠ 0 ∧ ∃ i < t.cap, t.slots i = (k, v) := by
  simp only [items, mem_filter, mem_map, mem_range, decide_eq_true_eq, ne_eq]
  tauto

omit [DecidableEq κ] in
theorem probed_empty (cap : Nat) (v : ν) : Probed home (empty cap v : ProbeTable κ ν) where
  reach _ _ h := absurd rfl h
  inj _ _ _ _ h := absurd rfl h

theorem items_empty (cap : Nat) (v : ν) : (empty cap v : ProbeTable κ ν).items = [] := by
  simp [items, empty]

theorem length_items_le : t.items.length ≤ t.cap := by
  have hle := length_filter_le (fun e : κ × ν => decide (e.1 ≠ 0))
    ((List.range t.cap).map t.slots)
  rwa [length_map, length_range] at hle

/-- A key is found at its place. -/
theorem Probed.slotOf_mem (h : Probed home t) {k : κ} (hk : k ≠ 0) {i : Nat} (hi : i < t.cap)
    (hkey : (t.slots i).1 = k) : t.slotOf home k = some i := by
  obtain ⟨d, hd, hid, hfull⟩ := h.reach i hi (by rw [hkey]; exact hk)
  rw [hkey] at hid hfull
  rw [slotOf, probeFrom_of_first (Nat.mod_lt _ (by omega)) hd, ← hid]
  · simp [← hid, hkey]
  intro d' hd'
  have hne := hfull d' hd'
  have hother : (t.slots ((home k % t.cap + d') % t.cap)).1 ≠ k := by
    intro heq
    have hsame := h.inj _ (Nat.mod_lt _ (by omega)) i hi hne (by rw [heq, hkey])
    -- two offsets below `cap` that lead to one slot are the same
    rw [hid] at hsame
    have := Nat.ModEq.add_left_cancel' _ hsame
    rw [Nat.ModEq, Nat.mod_eq_of_lt (by omega), Nat.mod_eq_of_lt hd] at this
    omega
  simp only [Bool.or_eq_false_iff, beq_eq_false_iff_ne]
  exact ⟨hne, hother⟩

/-- A lookup finds exactly the keys of the table. -/
theorem Probed.find_eq_some_iff (h : Probed home t) {k : κ} {v : ν} :
    t.find home k = some v ↔ (k, v) ∈ t.items := by
  rw [mem_items]
  constructor
  · intro hf
    unfold find at hf
    split at hf
    · cases hf
    rename_i j hj
    split at hf
    · cases hf
    rename_i hne
    have hcap : 0 < t.cap := by
      by_contra h0
      rw [Nat.eq_zero_of_not_pos h0] at hj
      cases hj
    obtain ⟨d, _, hjd, hp, _⟩ := probeFrom_eq_some (Nat.mod_lt _ hcap) hj
    have hk : (t.slots j).1 = k := by
      simpa [hne] using hp
    refine ⟨hk ▸ hne, j, hjd ▸ Nat.mod_lt _ hcap, ?_⟩
    cases hf
    exact Prod.ext hk rfl
  rintro ⟨hk, i, hi, hslot⟩
  have hkey : (t.slots i).1 = k := by rw [hslot]
  have hfirst : probeFrom t.cap (fun j => (t.slots j).1 == 0 || (t.slots j).1 == k) t.cap
      (home k % t.cap) = some i := h.slotOf_mem hk hi hkey
  unfold find
  rw [hfirst]
  simp only
  rw [if_neg (by rw [hkey]; exact hk), hslot]

/-! ## Insertion -/

theorem exists_free (hlt : t.items.length < t.cap) : ∃ i < t.cap, (t.slots i).1 = 0 := by
  by_contra hno
  simp only [not_exists, not_and] at hno
  have hall : t.items = (List.range t.cap).map t.slots := by
    unfold items
    rw [filter_eq_self]
    intro e he
    obtain ⟨i, hi, rfl⟩ := mem_map.mp he
    simpa using hno i (mem_range.mp hi)
  rw [hall] at hlt
  simp at hlt

variable (home) in
theorem exists_freeSlot (hlt : t.items.length < t.cap) (k : κ) :
    ∃ d < t.cap, t.freeSlot home k = some ((home k % t.cap + d) % t.cap) ∧
      (t.slots ((home k % t.cap + d) % t.cap)).1 = 0 ∧
      ∀ d' < d, (t.slots ((home k % t.cap + d') % t.cap)).1 ≠ 0 := by
  obtain ⟨i, hi, hfree⟩ := exists_free hlt
  obtain ⟨d, hd, hprobe, hp, hmin⟩ := exists_probeFrom
    (p := fun j => (t.slots j).1 == 0) (Nat.mod_lt (home k) (by omega)) hi (by simpa using hfree)
  exact ⟨d, hd, hprobe, by simpa using hp, fun d' hd' => by simpa using hmin d' hd'⟩

theorem cap_insert (k : κ) (v : ν) : (t.insert home k v).cap = t.cap := by
  unfold insert
  split <;> rfl

/-- An insertion adds its item, in some slot. -/
theorem items_insert (hlt : t.items.length < t.cap) {k : κ} (hk : k ≠ 0) (v : ν) :
    (t.insert home k v).items.Perm ((k, v) :: t.items) := by
  obtain ⟨d, _, hslot, hfree, _⟩ := exists_freeSlot home hlt k
  set j := (home k % t.cap + d) % t.cap
  have hj : j < t.cap := Nat.mod_lt _ (by omega)
  have hins : t.insert home k v = { t with slots := Function.update t.slots j (k, v) } := by
    unfold insert
    rw [hslot]
  -- the slots before and behind the one that is filled
  have hsplit : List.range t.cap = List.range j ++ j :: (List.range' (j + 1) (t.cap - (j + 1))) := by
    have happ := @range'_append_1 0 j (t.cap - j)
    rw [Nat.zero_add, show j + (t.cap - j) = t.cap by omega] at happ
    rw [range_eq_range', range_eq_range', ← range'_succ,
      show t.cap - (j + 1) + 1 = t.cap - j by omega, happ]
  have hother : ∀ l : List Nat, j ∉ l →
      l.map (Function.update t.slots j (k, v)) = l.map t.slots := by
    intro l hl
    refine map_congr_left fun i hi => ?_
    rw [Function.update_of_ne]
    exact fun he => hl (he ▸ hi)
  rw [hins]
  unfold items
  simp only [hsplit, map_append, map_cons, filter_append, filter_cons,
    Function.update_self, hfree, ne_eq, hk, not_false_eq_true, not_true_eq_false, decide_true,
    decide_false, if_true]
  rw [hother _ (by simp), hother _ (by simp)]
  exact perm_middle

/-- An insertion keeps the invariant. -/
theorem probed_insert (h : Probed home t) (hlt : t.items.length < t.cap) {k : κ} (hk : k ≠ 0)
    (hnew : ∀ v, (k, v) ∉ t.items) (v : ν) : Probed home (t.insert home k v) := by
  obtain ⟨d, hd, hslot, hfree, hfull⟩ := exists_freeSlot home hlt k
  set j := (home k % t.cap + d) % t.cap with hj
  have hins : t.insert home k v = { t with slots := Function.update t.slots j (k, v) } := by
    unfold insert
    rw [hslot]
  have hold : ∀ i, i ≠ j → Function.update t.slots j (k, v) i = t.slots i :=
    fun i hi => Function.update_of_ne hi _ _
  have hkeys : ∀ i < t.cap, (t.slots i).1 ≠ k := by
    intro i hi he
    exact hnew (t.slots i).2 (mem_items.mpr ⟨hk, i, hi, Prod.ext he rfl⟩)
  have hgrow : ∀ i, (t.slots i).1 ≠ 0 → (Function.update t.slots j (k, v) i).1 ≠ 0 := by
    intro i hi
    by_cases he : i = j
    · rw [he, Function.update_self]
      exact hk
    · rwa [hold i he]
  rw [hins]
  constructor
  · intro i hi hne
    by_cases he : i = j
    · simp only [he, Function.update_self]
      exact ⟨d, hd, hj, fun d' hd' => hgrow _ (hfull d' hd')⟩
    · simp only [hold i he] at hne ⊢
      obtain ⟨e, he', hie, hbefore⟩ := h.reach i hi hne
      exact ⟨e, he', hie, fun d' hd' => hgrow _ (hbefore d' hd')⟩
  intro i hi i' hi' hne heq
  simp only at hi hi' hne heq
  by_cases he : i = j
  · by_cases he' : i' = j
    · rw [he, he']
    · rw [he, Function.update_self, hold i' he'] at heq
      exact absurd heq.symm (hkeys i' hi')
  by_cases he' : i' = j
  · rw [he', Function.update_self, hold i he] at heq
    exact absurd heq (hkeys i hi)
  · rw [hold i he, hold i' he'] at heq
    rw [hold i he] at hne
    exact h.inj i hi i' hi' hne heq

/-! ## A table filled from a list -/

def ofList (home : κ → Nat) (cap : Nat) (v : ν) (es : List (κ × ν)) : ProbeTable κ ν :=
  es.foldl (fun t e => t.insert home e.1 e.2) (empty cap v)

theorem cap_ofList (home : κ → Nat) (cap : Nat) (v : ν) (es : List (κ × ν)) :
    (ofList home cap v es).cap = cap := by
  induction es using List.reverseRecOn with
  | nil => rfl
  | append_singleton es e ih =>
    rw [ofList, foldl_append, foldl_cons, foldl_nil, cap_insert]
    exact ih

/-- The table holds these entries. -/
structure Stores (home : κ → Nat) (t : ProbeTable κ ν) (es : List (κ × ν)) : Prop where
  probed : Probed home t
  items : t.items.Perm es

theorem Stores.insert {es : List (κ × ν)} (h : Stores home t es) (hlt : es.length < t.cap) {k : κ}
    (hk : k ≠ 0) (hnew : k ∉ es.map Prod.fst) (v : ν) :
    Stores home (t.insert home k v) (es ++ [(k, v)]) where
  probed := probed_insert h.probed (by rwa [h.items.length_eq]) hk (by
    intro v' hv'
    exact hnew (mem_map.mpr ⟨_, h.items.mem_iff.mp hv', rfl⟩)) v
  items := ((items_insert (by rwa [h.items.length_eq]) hk v).trans (h.items.cons _)).trans
    (perm_append_singleton _ _).symm

theorem Stores.find_eq_some_iff {es : List (κ × ν)} (h : Stores home t es) {k : κ} {v : ν} :
    t.find home k = some v ↔ (k, v) ∈ es := by
  rw [h.probed.find_eq_some_iff, h.items.mem_iff]

/-- A table of keys that differ stores them all. -/
theorem stores_ofList (home : κ → Nat) (cap : Nat) (v : ν) (es : List (κ × ν))
    (hlt : es.length ≤ cap) (hnd : (es.map Prod.fst).Nodup) (h0 : 0 ∉ es.map Prod.fst) :
    Stores home (ofList home cap v es) es ∧ (ofList home cap v es).cap = cap := by
  induction es using List.reverseRecOn with
  | nil =>
    exact ⟨⟨probed_empty cap v, by rw [ofList, foldl_nil, items_empty]⟩, rfl⟩
  | append_singleton es e ih =>
    simp only [map_append, map_cons, map_nil, mem_append, mem_singleton, not_or] at hnd h0
    rw [length_append, length_singleton] at hlt
    obtain ⟨hst, hcap⟩ := ih (by omega) (Nodup.of_append_left hnd) h0.1
    have hnew : e.1 ∉ es.map Prod.fst := by
      have := disjoint_of_nodup_append hnd
      exact fun hmem => this hmem (by simp)
    have hfold : ofList home cap v (es ++ [e]) = (ofList home cap v es).insert home e.1 e.2 := by
      simp [ofList]
    rw [hfold, cap_insert]
    exact ⟨hst.insert (by rw [hcap]; omega) (fun he => h0.2 he.symm) hnew e.2, hcap⟩

/-! ## Puts

A put overwrites the value of a key that is in the table and inserts one that is not. -/

/-- Put a value under a key. -/
def put (home : κ → Nat) (t : ProbeTable κ ν) (k : κ) (v : ν) : ProbeTable κ ν :=
  match t.slotOf home k with
  | none => t
  | some j => { t with slots := Function.update t.slots j (k, v) }

/-- A put on a list of entries. -/
def assign (es : List (κ × ν)) (k : κ) (v : ν) : List (κ × ν) :=
  if k ∈ es.map Prod.fst then es.map fun e => if e.1 = k then (k, v) else e else es ++ [(k, v)]

omit [Zero κ] in
theorem keys_assign (es : List (κ × ν)) (k : κ) (v : ν) :
    (assign es k v).map Prod.fst =
      if k ∈ es.map Prod.fst then es.map Prod.fst else es.map Prod.fst ++ [k] := by
  unfold assign
  split
  · rw [map_map]
    refine map_congr_left fun e _ => ?_
    rw [Function.comp_apply]
    split <;> simp_all
  · simp

omit [Zero κ] in
theorem nodup_assign {es : List (κ × ν)} (h : (es.map Prod.fst).Nodup) (k : κ) (v : ν) :
    ((assign es k v).map Prod.fst).Nodup := by
  rw [keys_assign]
  split
  · exact h
  rename_i hk
  exact nodup_append.2 ⟨h, nodup_singleton k, fun a ha b hb => by
    rw [mem_singleton] at hb
    rintro rfl
    exact hk (hb ▸ ha)⟩

omit [Zero κ] in
theorem mem_assign {es : List (κ × ν)} {k k' : κ} {v v' : ν} :
    (k', v') ∈ assign es k v ↔ (k' = k ∧ v' = v) ∨ (k' ≠ k ∧ (k', v') ∈ es) := by
  unfold assign
  split
  · rename_i hk
    obtain ⟨e, he, rfl⟩ := mem_map.1 hk
    rw [mem_map]
    constructor
    · rintro ⟨x, hx, hxe⟩
      split at hxe
      · cases hxe
        exact .inl ⟨rfl, rfl⟩
      · subst hxe
        exact .inr ⟨by assumption, hx⟩
    · rintro (⟨rfl, rfl⟩ | ⟨hne, hmem⟩)
      · exact ⟨e, he, if_pos rfl⟩
      · exact ⟨(k', v'), hmem, if_neg hne⟩
  rename_i hk
  rw [mem_append, mem_singleton, Prod.mk.injEq]
  constructor
  · rintro (hmem | ⟨rfl, rfl⟩)
    · refine .inr ⟨fun he => hk ?_, hmem⟩
      exact he ▸ mem_map_of_mem (f := Prod.fst) hmem
    · exact .inl ⟨rfl, rfl⟩
  · rintro (⟨rfl, rfl⟩ | ⟨-, hmem⟩)
    · exact .inr ⟨rfl, rfl⟩
    · exact .inl hmem

theorem slotOf_new {k : κ} (hk : k ≠ 0) (hnew : ∀ v, (k, v) ∉ t.items) :
    t.slotOf home k = t.freeSlot home k := by
  have hno : ∀ i < t.cap, (t.slots i).1 ≠ k := fun i hi he =>
    hnew (t.slots i).2 (mem_items.2 ⟨hk, i, hi, Prod.ext he rfl⟩)
  have hsame : ∀ n j, j < t.cap →
      probeFrom t.cap (fun j => (t.slots j).1 == 0 || (t.slots j).1 == k) n j =
        probeFrom t.cap (fun j => (t.slots j).1 == 0) n j := by
    intro n
    induction n with
    | zero => intros; rfl
    | succ n ih =>
      intro j hj
      have hstep := ih _ (Nat.mod_lt (j + 1) (by omega))
      simp only [probeFrom, hstep, beq_false_of_ne (hno j hj), Bool.or_false]
  rcases Nat.eq_zero_or_pos t.cap with h0 | hpos
  · rw [slotOf, freeSlot, h0]
    rfl
  · exact hsame _ _ (Nat.mod_lt _ hpos)

/-- A put assigns the value to its key. -/
theorem Stores.put {es : List (κ × ν)} (h : Stores home t es) (hlt : es.length < t.cap) {k : κ}
    (hk : k ≠ 0) (v : ν) : Stores home (t.put home k v) (assign es k v) := by
  by_cases hmem : k ∈ es.map Prod.fst
  · obtain ⟨e, he, hek⟩ := mem_map.1 hmem
    obtain ⟨-, i, hi, hslot⟩ := mem_items.1 (h.items.mem_iff.2 he)
    have hkey : (t.slots i).1 = k := by rw [hslot]; exact hek
    have hput : t.put home k v = { t with slots := Function.update t.slots i (k, v) } := by
      unfold ProbeTable.put
      rw [h.probed.slotOf_mem hk hi hkey]
    -- no slot changes its key
    have hkeys : ∀ j, (Function.update t.slots i (k, v) j).1 = (t.slots j).1 := by
      intro j
      by_cases hj : j = i
      · rw [hj, Function.update_self, hkey]
      · rw [Function.update_of_ne hj]
    rw [hput]
    refine ⟨⟨fun j hj hne => ?_, fun j hj j' hj' hne heq => ?_⟩, ?_⟩
    · simp only [hkeys] at hne ⊢
      exact h.probed.reach j hj hne
    · simp only [hkeys] at hne heq
      exact h.probed.inj j hj j' hj' hne heq
    rw [assign, if_pos hmem]
    refine Perm.trans (.of_eq ?_) (h.items.map _)
    have hslots : ∀ j < t.cap, Function.update t.slots i (k, v) j =
        if (t.slots j).1 = k then (k, v) else t.slots j := by
      intro j hj
      by_cases hji : j = i
      · rw [hji, Function.update_self, if_pos hkey]
      · rw [Function.update_of_ne hji, if_neg]
        intro hjk
        exact hji (h.probed.inj j hj i hi (by rw [hjk]; exact hk) (by rw [hjk, hkey]))
    unfold ProbeTable.items
    rw [map_congr_left fun j hj => hslots j (mem_range.1 hj), ← Function.comp_def
      (fun e : κ × ν => if e.1 = k then (k, v) else e), ← map_map, filter_map]
    congr 1
    refine filter_congr fun x _ => ?_
    simp only [Function.comp_apply]
    split
    · rename_i hx
      simp [hx, hk]
    · rfl
  have hnew : ∀ v, (k, v) ∉ t.items := fun v hv =>
    hmem (mem_map.2 ⟨_, h.items.mem_iff.1 hv, rfl⟩)
  have hput : t.put home k v = t.insert home k v := by
    unfold ProbeTable.put ProbeTable.insert
    rw [slotOf_new hk hnew]
  rw [hput, assign, if_neg hmem]
  exact h.insert hlt hk hmem v

/-! ## A sequence of puts -/

/-- The entries a sequence of puts leaves. -/
def ofPuts (ps : List (κ × ν)) : List (κ × ν) := ps.foldl (fun es p => assign es p.1 p.2) []

omit [Zero κ] in
theorem ofPuts_concat (ps : List (κ × ν)) (p : κ × ν) :
    ofPuts (ps ++ [p]) = assign (ofPuts ps) p.1 p.2 := by
  rw [ofPuts, foldl_append]
  rfl

omit [Zero κ] in
theorem nodup_ofPuts (ps : List (κ × ν)) : ((ofPuts ps).map Prod.fst).Nodup := by
  induction ps using List.reverseRecOn with
  | nil => exact nodup_nil
  | append_singleton ps p ih =>
    rw [ofPuts_concat]
    exact nodup_assign ih p.1 p.2

omit [Zero κ] in
theorem mem_keys_ofPuts {ps : List (κ × ν)} (k : κ) :
    k ∈ (ofPuts ps).map Prod.fst ↔ k ∈ ps.map Prod.fst := by
  induction ps using List.reverseRecOn generalizing k with
  | nil => exact Iff.rfl
  | append_singleton ps p ih =>
    rw [ofPuts_concat, keys_assign, map_append, mem_append, map_singleton, mem_singleton]
    split
    · rename_i hp
      rw [ih] at hp ⊢
      constructor
      · exact .inl
      · rintro (hk | rfl)
        · exact hk
        · exact hp
    · rw [mem_append, mem_singleton, ih]

omit [Zero κ] in
theorem length_ofPuts (ps : List (κ × ν)) :
    (ofPuts ps).length = (ps.map Prod.fst).toFinset.card := by
  have hsame : (ps.map Prod.fst).toFinset = ((ofPuts ps).map Prod.fst).toFinset := by
    ext k
    rw [mem_toFinset, mem_toFinset, mem_keys_ofPuts]
  rw [hsame, toFinset_card_of_nodup (nodup_ofPuts ps), length_map]

omit [Zero κ] in
theorem mem_ofPuts {ps : List (κ × ν)} {k : κ} {v : ν} :
    (k, v) ∈ ofPuts ps ↔ (ps.reverse.find? fun p => p.1 == k).map Prod.snd = some v := by
  induction ps using List.reverseRecOn with
  | nil => simp [ofPuts]
  | append_singleton ps p ih =>
    rw [ofPuts_concat, mem_assign, reverse_append, reverse_singleton,
      singleton_append, List.find?_cons, ih]
    by_cases hp : p.1 = k
    · simp [hp, eq_comm]
    · have hbeq : (p.1 == k) = false := beq_false_of_ne hp
      simp [hbeq, Ne.symm hp]

end ProbeTable

end KvTier.Lib
