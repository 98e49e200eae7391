import Mathlib.Data.List.Basic
import Mathlib.Algebra.BigOperators.Group.List.Basic
import Mathlib.Tactic

/-!
# Tries with a payload at every node

A `Trie` is the list of edges that leave one node: each edge has its hash, the payload of the node
it leads to, that node's own edges (`kids`) and the sibling edges (`rest`).
-/

namespace KvTier.Lib

open List

/-- The edges below one node. -/
inductive Trie (η β : Type) where
  | nil : Trie η β
  | edge (hash : η) (leaf : Option β) (kids rest : Trie η β) : Trie η β
deriving DecidableEq, Repr

namespace Trie

variable {η β : Type} [DecidableEq η]

/-- The payload at a path, if there is a node. -/
def node? : Trie η β → List η → Option (Option β)
  | nil, _ => none
  | edge _ _ _ _, [] => none
  | edge h l kids rest, x :: p =>
    if x = h then
      match p with
      | [] => some l
      | y :: p' => node? kids (y :: p')
    else node? rest (x :: p)

/-- The payload at a path, if the node exists and has one. -/
def leafAt (t : Trie η β) (q : List η) : Option β := (t.node? q).join

/-- Replace the payload slot of an existing node. -/
def setLeaf : Trie η β → List η → Option β → Trie η β
  | nil, _, _ => nil
  | edge h l kids rest, [], _ => edge h l kids rest
  | edge h l kids rest, x :: p, v =>
    if x = h then
      match p with
      | [] => edge h v kids rest
      | y :: p' => edge h l (setLeaf kids (y :: p') v) rest
    else edge h l kids (setLeaf rest (x :: p) v)

/-- A single path of fresh nodes. -/
def chain : List η → Trie η β
  | [] => nil
  | x :: p => edge x none (chain p) nil

/-- Create the missing nodes of a path. -/
def insert : Trie η β → List η → Trie η β
  | nil, p => chain p
  | edge h l kids rest, [] => edge h l kids rest
  | edge h l kids rest, x :: p =>
    if x = h then edge h l (insert kids p) rest else edge h l kids (insert rest (x :: p))

/-- The edges of the second trie after those of the first. -/
def append : Trie η β → Trie η β → Trie η β
  | nil, t => t
  | edge h l kids rest, t => edge h l kids (append rest t)

/-- Append the edges of `t` to those of the node at a path. -/
def appendAt : Trie η β → List η → Trie η β → Trie η β
  | s, [], t => s.append t
  | nil, _ :: _, _ => nil
  | edge h l kids rest, x :: p, t =>
    if x = h then edge h l (appendAt kids p t) rest
    else edge h l kids (appendAt rest (x :: p) t)

/-- The hashes of the edges that leave the node. -/
def hashes : Trie η β → List η
  | nil => []
  | edge h _ _ rest => h :: hashes rest

/-- No node has two edges with one hash. -/
def Distinct : Trie η β → Prop
  | nil => True
  | edge h _ kids rest => h ∉ hashes rest ∧ Distinct kids ∧ Distinct rest

/-- Every hash satisfies a condition. -/
def AllHashes (P : η → Prop) : Trie η β → Prop
  | nil => True
  | edge h _ kids rest => P h ∧ AllHashes P kids ∧ AllHashes P rest

/-- Every payload with its path, parents before children. -/
def entries : List η → Trie η β → List (List η × β)
  | _, nil => []
  | q, edge h l kids rest =>
    (l.toList.map fun b => (q ++ [h], b)) ++ entries (q ++ [h]) kids ++ entries q rest

/-- The length of the longest path. -/
def height : Trie η β → Nat
  | nil => 0
  | edge _ _ kids rest => max (height kids + 1) (height rest)

/-! ## Lookup after an update -/

variable (t : Trie η β) (p : List η)

@[simp]
theorem node?_nil (q : List η) : node? (nil : Trie η β) q = none := by
  cases q <;> rfl

@[simp]
theorem node?_root : node? t [] = none := by
  cases t <;> rfl

@[simp]
theorem leafAt_nil (q : List η) : leafAt (nil : Trie η β) q = none := by
  simp [leafAt]

theorem node?_edge_cons (h : η) (l : Option β) (kids rest : Trie η β) (x : η) (p : List η) :
    node? (edge h l kids rest) (x :: p) =
      if x = h then (if p = [] then some l else node? kids p) else node? rest (x :: p) := by
  cases p with
  | nil => simp [node?]
  | cons y p' => simp [node?]

theorem leafAt_edge_cons (h : η) (l : Option β) (kids rest : Trie η β) (x : η) (p : List η) :
    leafAt (edge h l kids rest) (x :: p) =
      if x = h then (if p = [] then l else leafAt kids p) else leafAt rest (x :: p) := by
  unfold leafAt
  rw [node?_edge_cons]
  split
  · split <;> rfl
  · rfl

/-- `setLeaf` changes the payload of one node. -/
theorem node?_setLeaf (v : Option β) (q : List η) :
    node? (setLeaf t p v) q =
      if q = p then (node? t p).map (fun _ => v) else node? t q := by
  induction t generalizing p q with
  | nil => simp [setLeaf]
  | edge h l kids rest ihk ihr =>
    cases p with
    | nil =>
      by_cases hq : q = []
      · subst hq; simp
      · simp [setLeaf, hq]
    | cons x p' =>
      cases q with
      | nil => simp
      | cons y q' =>
        by_cases hx : x = h
        · cases p' with
          | nil =>
            simp only [setLeaf, if_pos hx, node?_edge_cons]
            by_cases hy : y = h
            · by_cases hq : q' = []
              · simp [hy, hx, hq]
              · simp [hy, hx, hq]
            · have : y ≠ x := fun e => hy (e.trans hx)
              simp [hy, this]
          | cons z p'' =>
            simp only [setLeaf, if_pos hx, node?_edge_cons]
            by_cases hy : y = h
            · by_cases hq : q' = []
              · simp [hy, hx, hq]
              · simp only [hy, hx, hq, if_true, if_false, ihk]
                simp
            · have : y ≠ x := fun e => hy (e.trans hx)
              simp [hy, this]
        simp only [setLeaf, if_neg hx, node?_edge_cons]
        by_cases hy : y = h
        · have : y ≠ x := fun e => hx (e.symm.trans hy)
          simp [hy, Ne.symm hx]
        · simp only [if_neg hy, ihr]

theorem leafAt_setLeaf (v : Option β) (q : List η) :
    leafAt (setLeaf t p v) q =
      if q = p then (if (node? t p).isSome then v else none) else leafAt t q := by
  unfold leafAt
  rw [node?_setLeaf]
  by_cases hq : q = p
  · subst hq
    cases node? t q <;> simp
  · simp [hq]

theorem node?_chain (q : List η) :
    node? (chain p : Trie η β) q = if q ≠ [] ∧ q <+: p then some none else none := by
  induction p generalizing q with
  | nil =>
    simp only [chain, node?_nil]
    by_cases hq : q = []
    · simp [hq]
    · simp [hq]
  | cons x p ih =>
    cases q with
    | nil => simp
    | cons y q =>
      simp only [chain, node?_edge_cons, node?_nil]
      by_cases hy : y = x
      · subst hy
        by_cases hq : q = []
        · simp [hq]
        · simp [hq, ih, cons_prefix_cons]
      · simp [hy, cons_prefix_cons]

/-- `insert` adds the nodes on the way to the path. -/
theorem node?_insert (q : List η) :
    node? (insert t p) q =
      if q ≠ [] ∧ q <+: p ∧ node? t q = none then some none else node? t q := by
  induction t generalizing p q with
  | nil => simp [insert, node?_chain]
  | edge h l kids rest ihk ihr =>
    cases p with
    | nil =>
      simp only [insert]
      by_cases hq : q = []
      · simp [hq]
      · simp [hq]
    | cons x p =>
      cases q with
      | nil => simp
      | cons y q =>
        by_cases hx : x = h
        · subst hx
          simp only [insert, if_true, node?_edge_cons]
          by_cases hy : y = x
          · subst hy
            by_cases hq : q = []
            · simp [hq]
            · simp [hq, ihk, cons_prefix_cons]
          · simp [hy, cons_prefix_cons]
        simp only [insert, if_neg hx, node?_edge_cons]
        by_cases hy : y = h
        · have hyx : y ≠ x := fun e => hx (e.symm.trans hy)
          simp [hy, cons_prefix_cons, Ne.symm hx]
        · simp [hy, ihr]

/-- Creating a path changes no payload. -/
@[simp]
theorem leafAt_insert (q : List η) : leafAt (insert t p) q = leafAt t q := by
  unfold leafAt
  rw [node?_insert]
  split
  · rename_i hc
    rw [hc.2.2]
    rfl
  · rfl

theorem isSome_node?_insert (q : List η) (h : (node? t q).isSome) :
    (node? (insert t p) q).isSome := by
  rw [node?_insert]
  split
  · rfl
  · exact h

theorem isSome_node?_insert_self (hp : p ≠ []) :
    (node? (insert t p) p).isSome := by
  rw [node?_insert]
  split
  · rfl
  rename_i hc
  cases hn : node? t p with
  | none => exact absurd ⟨hp, prefix_rfl, hn⟩ hc
  | some _ => rfl

/-- Replacing a payload keeps every node. -/
@[simp]
theorem isSome_node?_setLeaf (v : Option β) (q : List η) :
    (node? (setLeaf t p v) q).isSome = (node? t q).isSome := by
  rw [node?_setLeaf]
  split
  · rename_i h; subst h; simp
  · rfl

theorem isSome_node?_of_leafAt {t : Trie η β} {q : List η} {b : β} (h : leafAt t q = some b) :
    (node? t q).isSome := by
  unfold leafAt at h
  cases hn : node? t q with
  | none => simp [hn] at h
  | some _ => rfl

/-- No payload is stored at the root. -/
@[simp]
theorem leafAt_root : leafAt t [] = none := by
  simp [leafAt]

theorem setLeaf_leafAt (hn : (node? t p).isSome) :
    setLeaf t p (leafAt t p) = t := by
  induction t generalizing p with
  | nil => rfl
  | edge h l kids rest ihk ihr =>
    cases p with
    | nil => rfl
    | cons x p =>
      rw [node?_edge_cons] at hn
      by_cases hx : x = h
      · cases p with
        | nil => simp [setLeaf, leafAt, node?, hx]
        | cons y p' =>
          simp only [hx, if_true, reduceCtorEq, if_false] at hn
          have ih := ihk (y :: p') hn
          simp only [leafAt] at ih
          simp [setLeaf, leafAt, node?, hx, ih]
      simp only [hx, if_false] at hn
      have ih := ihr (x :: p) hn
      simp only [leafAt] at ih
      simp [setLeaf, leafAt, node?, hx, ih]

theorem setLeaf_setLeaf (v w : Option β) :
    setLeaf (setLeaf t p v) p w = setLeaf t p w := by
  induction t generalizing p with
  | nil => rfl
  | edge h l kids rest ihk ihr =>
    cases p with
    | nil => rfl
    | cons x p =>
      by_cases hx : x = h
      · cases p with
        | nil => simp [setLeaf, hx]
        | cons y p' => simp [setLeaf, hx, ihk]
      · simp [setLeaf, hx, ihr]

/-! ## Distinct edges -/

@[simp]
theorem hashes_setLeaf (v : Option β) :
    hashes (setLeaf t p v) = hashes t := by
  induction t generalizing p with
  | nil => rfl
  | edge h l kids rest _ ihr =>
    cases p with
    | nil => rfl
    | cons x p =>
      by_cases hx : x = h
      · cases p <;> simp [setLeaf, hx, hashes]
      · simp [setLeaf, hx, hashes, ihr]

theorem Distinct.setLeaf {t : Trie η β} (ht : t.Distinct) (p : List η) (v : Option β) :
    (t.setLeaf p v).Distinct := by
  induction t generalizing p with
  | nil => exact ht
  | edge h l kids rest ihk ihr =>
    obtain ⟨hh, hk, hr⟩ := ht
    cases p with
    | nil => exact ⟨hh, hk, hr⟩
    | cons x p =>
      by_cases hx : x = h
      · cases p with
        | nil => simpa [Trie.setLeaf, hx, Distinct] using ⟨hh, hk, hr⟩
        | cons y p => simpa [Trie.setLeaf, hx, Distinct] using ⟨hh, ihk hk _, hr⟩
      · simpa [Trie.setLeaf, hx, Distinct] using ⟨hh, hk, ihr hr _⟩

theorem hashes_insert (x : η) (hx : x ∈ hashes (insert t p)) :
    x ∈ hashes t ∨ p.head? = some x := by
  induction t generalizing p with
  | nil =>
    cases p with
    | nil => simp [insert, chain, hashes] at hx
    | cons y p => right; simp [insert, chain, hashes] at hx; simp [hx]
  | edge h l kids rest _ ihr =>
    cases p with
    | nil => left; exact hx
    | cons y p =>
      by_cases hy : y = h
      · left; simpa [insert, hy, hashes] using hx
      simp only [insert, if_neg hy, hashes, mem_cons] at hx ⊢
      rcases hx with rfl | hx
      · exact Or.inl (Or.inl rfl)
      · rcases ihr _ hx with h' | h'
        · exact Or.inl (Or.inr h')
        · exact Or.inr h'

omit [DecidableEq η] in
theorem distinct_chain : (chain p : Trie η β).Distinct := by
  induction p with
  | nil => trivial
  | cons x p ih => exact ⟨by simp [hashes], ih, trivial⟩

theorem Distinct.insert {t : Trie η β} (ht : t.Distinct) (p : List η) :
    (t.insert p).Distinct := by
  induction t generalizing p with
  | nil => exact distinct_chain p
  | edge h l kids rest ihk ihr =>
    obtain ⟨hh, hk, hr⟩ := ht
    cases p with
    | nil => exact ⟨hh, hk, hr⟩
    | cons x p =>
      by_cases hx : x = h
      · simpa [Trie.insert, hx, Distinct] using ⟨hh, ihk hk p, hr⟩
      simp only [Trie.insert, if_neg hx, Distinct]
      refine ⟨?_, hk, ihr hr _⟩
      intro hmem
      rcases hashes_insert _ _ _ hmem with h' | h'
      · exact hh h'
      · simp only [List.head?_cons, Option.some.injEq] at h'
        exact hx h'

theorem node?_eq_none_of_notMem (x : η) (p : List η) (h : x ∉ hashes t) :
    node? t (x :: p) = none := by
  induction t with
  | nil => rfl
  | edge h' l kids rest _ ihr =>
    simp only [hashes, mem_cons, not_or] at h
    simp [node?_edge_cons, h.1, ihr h.2]

/-- What holds of all nodes, edge by edge. -/
theorem forall_node?_edge {h : η} {l : Option β} {kids rest : Trie η β}
    (hd : (edge h l kids rest).Distinct) (P : List η → Option β → Prop) :
    (∀ p v, node? (edge h l kids rest) p = some v → P p v) ↔
      P [h] l ∧ (∀ p v, node? kids p = some v → P (h :: p) v) ∧
        ∀ p v, node? rest p = some v → P p v := by
  constructor
  · intro hall
    refine ⟨hall [h] l (by simp [node?_edge_cons]), fun p v hp => hall (h :: p) v ?_,
      fun p v hp => hall p v ?_⟩
    · have hne : p ≠ [] := by
        rintro rfl
        simp at hp
      simpa [node?_edge_cons, hne] using hp
    cases p with
    | nil => simp at hp
    | cons x p =>
      have hx : x ≠ h := by
        rintro rfl
        rw [node?_eq_none_of_notMem rest x p hd.1] at hp
        cases hp
      simpa [node?_edge_cons, hx] using hp
  rintro ⟨hown, hkids, hrest⟩ p v hp
  cases p with
  | nil => simp at hp
  | cons x p =>
    rw [node?_edge_cons] at hp
    by_cases hx : x = h
    · subst hx
      by_cases hne : p = []
      · subst hne
        simp only [if_true, Option.some.injEq] at hp
        exact hp ▸ hown
      · simp only [if_true, hne, if_false] at hp
        exact hkids p v hp
    · simp only [hx, if_false] at hp
      exact hrest (x :: p) v hp

/-! ## Height -/

@[simp]
theorem height_setLeaf (v : Option β) :
    height (setLeaf t p v) = height t := by
  induction t generalizing p with
  | nil => rfl
  | edge h l kids rest ihk ihr =>
    cases p with
    | nil => rfl
    | cons x p =>
      by_cases hx : x = h
      · cases p with
        | nil => simp [setLeaf, hx, height]
        | cons y p' => simp [setLeaf, hx, height, ihk]
      · simp [setLeaf, hx, height, ihr]

omit [DecidableEq η] in
theorem height_chain : height (chain p : Trie η β) = p.length := by
  induction p with
  | nil => rfl
  | cons x p ih => simp [chain, height, ih]

theorem height_insert_le :
    height (insert t p) ≤ max (height t) p.length := by
  induction t generalizing p with
  | nil => simp [insert, height_chain, height]
  | edge h l kids rest ihk ihr =>
    cases p with
    | nil => simp [insert]
    | cons x p =>
      by_cases hx : x = h
      · have := ihk p
        simp only [insert, if_pos hx, height, length_cons]
        omega
      · have := ihr (x :: p)
        simp only [insert, if_neg hx, height, length_cons] at this ⊢
        omega

theorem length_le_height {t : Trie η β} {p : List η} (h : (node? t p).isSome) :
    p.length ≤ height t := by
  induction t generalizing p with
  | nil => simp at h
  | edge x l kids rest ihk ihr =>
    cases p with
    | nil => simp
    | cons y p =>
      rw [node?_edge_cons] at h
      simp only [height, length_cons]
      by_cases hy : y = x
      · by_cases hp : p = []
        · subst hp
          simp
        · simp only [hy, hp, if_true, if_false] at h
          have := ihk h
          omega
      simp only [hy, if_false] at h
      have := ihr h
      simp only [length_cons] at this
      omega

/-! ## Conditions on all hashes -/

section AllHashes

variable {P : η → Prop}

omit [DecidableEq η] in
theorem AllHashes.of_mem {t : Trie η β} (ht : t.AllHashes P) {x : η} (hx : x ∈ hashes t) : P x := by
  induction t with
  | nil => cases hx
  | edge h l kids rest _ ihr =>
    rcases mem_cons.mp hx with rfl | hx
    · exact ht.1
    · exact ihr ht.2.2 hx

omit [DecidableEq η] in
theorem allHashes_chain (hp : ∀ x ∈ p, P x) : (chain p : Trie η β).AllHashes P := by
  induction p with
  | nil => trivial
  | cons x p ih => exact ⟨hp x (by simp), ih fun y hy => hp y (by simp [hy]), trivial⟩

theorem AllHashes.insert {t : Trie η β} (ht : t.AllHashes P) (p : List η) (hp : ∀ x ∈ p, P x) :
    (t.insert p).AllHashes P := by
  induction t generalizing p with
  | nil => exact allHashes_chain p hp
  | edge h l kids rest ihk ihr =>
    cases p with
    | nil => exact ht
    | cons x p =>
      unfold Trie.insert
      split
      · exact ⟨ht.1, ihk ht.2.1 p fun y hy => hp y (by simp [hy]), ht.2.2⟩
      · exact ⟨ht.1, ht.2.1, ihr ht.2.2 (x :: p) hp⟩

theorem AllHashes.setLeaf {t : Trie η β} (ht : t.AllHashes P) (p : List η) (v : Option β) :
    (t.setLeaf p v).AllHashes P := by
  induction t generalizing p with
  | nil => exact ht
  | edge h l kids rest ihk ihr =>
    cases p with
    | nil => exact ht
    | cons x p =>
      unfold Trie.setLeaf
      split
      · split
        · exact ht
        · exact ⟨ht.1, ihk ht.2.1 _, ht.2.2⟩
      · exact ⟨ht.1, ht.2.1, ihr ht.2.2 _⟩

omit [DecidableEq η] in
theorem Distinct.nodup_hashes {t : Trie η β} (ht : t.Distinct) : t.hashes.Nodup := by
  induction t with
  | nil => exact nodup_nil
  | edge h l kids rest _ ihr => exact nodup_cons.mpr ⟨ht.1, ihr ht.2.2⟩

end AllHashes

/-! ## The list of all payloads -/

omit [DecidableEq η] in
theorem prefix_of_mem_entries (q : List η) (e : List η × β)
    (he : e ∈ entries q t) : ∃ x p, e.1 = q ++ x :: p ∧ x ∈ hashes t := by
  induction t generalizing q with
  | nil => simp [entries] at he
  | edge h l kids rest ihk ihr =>
    simp only [entries, mem_append, mem_map, Option.mem_toList] at he
    rcases he with (⟨b, _, rfl⟩ | he) | he
    · exact ⟨h, [], rfl, by simp [hashes]⟩
    · obtain ⟨x, p, hp, _⟩ := ihk _ he
      exact ⟨h, x :: p, by simp [hp], by simp [hashes]⟩
    · obtain ⟨x, p, hp, hx⟩ := ihr _ he
      exact ⟨x, p, hp, by simp [hashes, hx]⟩

/-- The entries are the leaves with their paths. -/
theorem mem_entries_iff (ht : t.Distinct) (q p : List η) (b : β) :
    (q ++ p, b) ∈ entries q t ↔ leafAt t p = some b := by
  induction t generalizing q p with
  | nil => simp [entries]
  | edge h l kids rest ihk ihr =>
    obtain ⟨hh, hk, hr⟩ := ht
    cases p with
    | nil =>
      simp only [leafAt_root, List.append_nil, reduceCtorEq, iff_false]
      intro hmem
      obtain ⟨x, p, hp, _⟩ := prefix_of_mem_entries _ _ _ hmem
      have := congrArg List.length hp
      simp at this
    | cons x p =>
      have hkids : (q ++ x :: p, b) ∈ entries (q ++ [h]) kids ↔
          x = h ∧ leafAt kids p = some b := by
        constructor
        · intro hmem
          obtain ⟨y, p', hp', _⟩ := prefix_of_mem_entries _ _ _ hmem
          have hxp : x :: p = h :: y :: p' := by simpa using hp'
          obtain ⟨rfl, rfl⟩ := List.cons.inj hxp
          refine ⟨rfl, (ihk hk (q ++ [x]) (y :: p')).mp ?_⟩
          simpa using hmem
        · rintro ⟨rfl, hl⟩
          have := (ihk hk (q ++ [x]) p).mpr hl
          simpa using this
      have hrest : (q ++ x :: p, b) ∈ entries q rest ↔ leafAt rest (x :: p) = some b :=
        ihr hr q (x :: p)
      have hself : (q ++ x :: p, b) ∈ (l.toList.map fun b => (q ++ [h], b)) ↔
          x = h ∧ p = [] ∧ l = some b := by
        simp only [mem_map, Option.mem_toList, Prod.mk.injEq, append_cancel_left_eq]
        constructor
        · rintro ⟨b', hb', he, rfl⟩
          obtain ⟨rfl, rfl⟩ := List.cons.inj he
          exact ⟨rfl, rfl, hb'⟩
        · rintro ⟨rfl, rfl, hb⟩
          exact ⟨b, hb, rfl, rfl⟩
      simp only [entries, mem_append]
      rw [hself, hkids, hrest]
      unfold leafAt
      rw [node?_edge_cons]
      by_cases hx : x = h
      · subst hx
        have hnone := node?_eq_none_of_notMem rest x p hh
        by_cases hp : p = []
        · subst hp; simp [hnone]
        · simp [hp, hnone]
      · simp [hx]

theorem mem_entries_root (ht : t.Distinct) (p : List η) (b : β) :
    (p, b) ∈ entries [] t ↔ leafAt t p = some b := by
  simpa using mem_entries_iff t ht [] p b

omit [DecidableEq η] in
theorem nodup_entries (ht : t.Distinct) (q : List η) :
    ((entries q t).map Prod.fst).Nodup := by
  induction t generalizing q with
  | nil => simp [entries]
  | edge h l kids rest ihk ihr =>
    obtain ⟨hh, hk, hr⟩ := ht
    have hself : ((l.toList.map fun b => (q ++ [h], b)).map Prod.fst).Nodup := by
      cases l <;> simp
    have hbelow : ∀ e ∈ entries (q ++ [h]) kids, ∃ x p, e.1 = q ++ h :: x :: p := by
      intro e he
      obtain ⟨x, p, hp, _⟩ := prefix_of_mem_entries kids _ e he
      exact ⟨x, p, by simpa using hp⟩
    have hbeside : ∀ e ∈ entries q rest, ∃ x p, e.1 = q ++ x :: p ∧ x ≠ h := by
      intro e he
      obtain ⟨x, p, hp, hx⟩ := prefix_of_mem_entries rest _ e he
      exact ⟨x, p, hp, fun hxh => hh (hxh ▸ hx)⟩
    simp only [entries, map_append]
    refine nodup_append'.mpr ⟨nodup_append'.mpr ⟨hself, ihk hk _, ?_⟩, ihr hr _, ?_⟩
    · intro p hp hp'
      obtain ⟨e, he, rfl⟩ := mem_map.mp hp'
      obtain ⟨x, p, hxp⟩ := hbelow e he
      rw [hxp] at hp
      simp at hp
    intro p hp hp'
    obtain ⟨e, he, rfl⟩ := mem_map.mp hp'
    obtain ⟨x, p, hxp, hx⟩ := hbeside e he
    rw [hxp] at hp
    rcases mem_append.mp hp with hp | hp
    · obtain ⟨e', he', hee⟩ := mem_map.mp hp
      obtain ⟨b, _, rfl⟩ := mem_map.mp he'
      simp only [append_cancel_left_eq, List.cons.injEq] at hee
      exact hx hee.1.symm
    obtain ⟨e', he', hee⟩ := mem_map.mp hp
    obtain ⟨y, p', hyp⟩ := hbelow e' he'
    rw [hyp] at hee
    simp only [append_cancel_left_eq, List.cons.injEq] at hee
    exact hx hee.1.symm

/-- The leaves are as many as the entries. -/
theorem ncard_leaves (ht : t.Distinct) :
    {p | (leafAt t p).isSome}.ncard = (entries [] t).length := by
  have hset : {p | (leafAt t p).isSome} = (((entries [] t).map Prod.fst).toFinset : Set (List η)) := by
    ext p
    simp only [Set.mem_ofPred_eq, coe_toFinset, mem_map, Prod.exists, exists_and_right,
      exists_eq_right, Option.isSome_iff_exists, mem_entries_root t ht]
  rw [hset, Set.ncard_coe_finset, toFinset_card_of_nodup (nodup_entries t ht []), length_map]

/-! ## Sums over the payloads -/

section Total

variable {M : Type} [AddCommMonoid M]

/-- The sum of a quantity over all payloads. -/
def total (f : β → M) : Trie η β → M
  | nil => 0
  | edge _ l kids rest => l.elim 0 f + total f kids + total f rest

omit [DecidableEq η] in
theorem total_eq_sum (f : β → M) (t : Trie η β) (q : List η) :
    total f t = ((entries q t).map fun e => f e.2).sum := by
  induction t generalizing q with
  | nil => rfl
  | edge h l kids rest ihk ihr =>
    have hl : (l.toList.map fun b => f b).sum = l.elim 0 f := by
      cases l <;> simp
    simp only [total, entries, map_append, sum_append, map_map,
      Function.comp_def, hl, ← ihk (q ++ [h]), ← ihr q]

/-- `setLeaf` moves the total by what the leaf changes by. -/
theorem total_setLeaf (f : β → M) (t : Trie η β) (p : List η) (v : Option β)
    (hn : (node? t p).isSome) :
    total f (setLeaf t p v) + (leafAt t p).elim 0 f = total f t + v.elim 0 f := by
  induction t generalizing p with
  | nil => simp at hn
  | edge h l kids rest ihk ihr =>
    cases p with
    | nil => simp at hn
    | cons x p =>
      rw [node?_edge_cons] at hn
      have hleaf := leafAt_edge_cons h l kids rest x p
      by_cases hx : x = h
      · cases p with
        | nil =>
          simp only [hleaf, if_pos hx, if_true, setLeaf, total]
          abel
        | cons y p' =>
          simp only [if_pos hx, reduceCtorEq, if_false] at hn
          have ih := ihk (y :: p') hn
          simp only [hleaf, if_pos hx, reduceCtorEq, if_false, setLeaf, total]
          calc l.elim 0 f + total f (setLeaf kids (y :: p') v) + total f rest +
                (leafAt kids (y :: p')).elim 0 f
              = l.elim 0 f + (total f (setLeaf kids (y :: p') v) +
                (leafAt kids (y :: p')).elim 0 f) + total f rest := by abel
            _ = l.elim 0 f + (total f kids + v.elim 0 f) + total f rest := by rw [ih]
            _ = l.elim 0 f + total f kids + total f rest + v.elim 0 f := by abel
      simp only [if_neg hx] at hn
      have ih := ihr (x :: p) hn
      simp only [hleaf, if_neg hx, setLeaf, total]
      calc l.elim 0 f + total f kids + total f (setLeaf rest (x :: p) v) +
            (leafAt rest (x :: p)).elim 0 f
          = l.elim 0 f + total f kids + (total f (setLeaf rest (x :: p) v) +
            (leafAt rest (x :: p)).elim 0 f) := by abel
        _ = l.elim 0 f + total f kids + (total f rest + v.elim 0 f) := by rw [ih]
        _ = l.elim 0 f + total f kids + total f rest + v.elim 0 f := by abel

omit [DecidableEq η] in
theorem total_chain (f : β → M) (p : List η) : total f (chain p : Trie η β) = 0 := by
  induction p with
  | nil => rfl
  | cons x p ih => simp [chain, total, ih]

theorem total_add_sum_removed {t t' : Trie η β} (ht : t.Distinct) (ht' : t'.Distinct)
    (gone : β → Bool)
    (h : ∀ q b, leafAt t' q = some b ↔ leafAt t q = some b ∧ gone b = false) (f : β → M) :
    total f t' + (((entries [] t).filter fun e => gone e.2).map fun e => f e.2).sum =
      total f t := by
  -- what is left is listed as before, up to the order
  have hleft : (entries [] t').Perm ((entries [] t).filter fun e => !gone e.2) := by
    refine (perm_ext_iff_of_nodup (nodup_entries t' ht' []).of_map
      ((nodup_entries t ht []).of_map.filter _)).2 ?_
    rintro ⟨q, b⟩
    rw [mem_entries_root t' ht', mem_filter, mem_entries_root t ht, h, Bool.not_eq_true']
  have hsplit : ((entries [] t).filter (fun e => gone e.2) ++
      (entries [] t).filter fun e => !gone e.2).Perm (entries [] t) := by
    simpa using filter_append_perm (fun e : List η × β => gone e.2) (entries [] t)
  rw [total_eq_sum f t' [], total_eq_sum f t [], ((hleft.map _).sum_eq), add_comm,
    ← sum_append, ← map_append]
  exact (hsplit.map _).sum_eq

/-- Fresh nodes carry no payload. -/
@[simp]
theorem total_insert (f : β → M) (t : Trie η β) (p : List η) :
    total f (insert t p) = total f t := by
  induction t generalizing p with
  | nil => simp [insert, total_chain, total]
  | edge h l kids rest ihk ihr =>
    cases p with
    | nil => rfl
    | cons x p =>
      by_cases hx : x = h
      · simp [insert, hx, total, ihk]
      · simp [insert, hx, total, ihr]

end Total

end Trie

end KvTier.Lib
