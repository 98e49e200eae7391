import KvTier.Lib.Trie

/-!
# Building a trie in place

`modifyAt` applies a function to the edges below one node.
-/

namespace KvTier.Lib.Trie

open List

variable {η β γ : Type} [DecidableEq η]

/-- Apply a function to the edges below the node at a path. -/
def modifyAt (f : Trie η β → Trie η β) : Trie η β → List η → Trie η β
  | s, [] => f s
  | nil, _ :: _ => nil
  | edge h l kids rest, x :: p =>
    if x = h then edge h l (modifyAt f kids p) rest else edge h l kids (modifyAt f rest (x :: p))

/-- The edges below the node at a path. -/
def kidsAt : Trie η β → List η → Option (Trie η β)
  | s, [] => some s
  | nil, _ :: _ => none
  | edge h _ kids rest, x :: p => if x = h then kidsAt kids p else kidsAt rest (x :: p)

/-- Apply a function to every payload. -/
def map (f : β → γ) : Trie η β → Trie η γ
  | nil => nil
  | edge h l kids rest => edge h (l.map f) (map f kids) (map f rest)

/-! ## Rules for `modifyAt` -/

@[simp]
theorem modifyAt_root (f : Trie η β → Trie η β) (s : Trie η β) : modifyAt f s [] = f s := by
  cases s <;> rfl

@[simp]
theorem kidsAt_root (s : Trie η β) : kidsAt s [] = some s := by
  cases s <;> rfl

theorem modifyAt_modifyAt (f g : Trie η β → Trie η β) (s : Trie η β) (p : List η) :
    modifyAt g (modifyAt f s p) p = modifyAt (fun k => g (f k)) s p := by
  induction s generalizing p with
  | nil => cases p <;> simp [modifyAt]
  | edge h l kids rest ihk ihr =>
    cases p with
    | nil => simp
    | cons x p =>
      by_cases hx : x = h
      · simp [modifyAt, hx, ihk]
      · simp [modifyAt, hx, ihr]

theorem modifyAt_append (f : Trie η β → Trie η β) (s : Trie η β) (p : List η) (y : η)
    (q : List η) :
    modifyAt f s (p ++ y :: q) = modifyAt (fun k => modifyAt f k (y :: q)) s p := by
  induction s generalizing p with
  | nil => cases p <;> rfl
  | edge h l kids rest ihk ihr =>
    cases p with
    | nil => rfl
    | cons x p =>
      by_cases hx : x = h
      · simp [modifyAt, hx, ihk]
      · have := ihr (x :: p)
        simp only [cons_append] at this
        simp [modifyAt, hx, this]

theorem modifyAt_congr (f g : Trie η β → Trie η β) (s : Trie η β) (p : List η)
    (h : ∀ k, kidsAt s p = some k → f k = g k) : modifyAt f s p = modifyAt g s p := by
  induction s generalizing p with
  | nil =>
    cases p with
    | nil => exact h nil rfl
    | cons x p => rfl
  | edge h' l kids rest ihk ihr =>
    cases p with
    | nil => exact h _ rfl
    | cons x p =>
      by_cases hx : x = h'
      · have := ihk p (fun k hk => h k (by simpa [kidsAt, hx] using hk))
        simp [modifyAt, hx, this]
      · have := ihr (x :: p) (fun k hk => h k (by simpa [kidsAt, hx] using hk))
        simp [modifyAt, hx, this]

theorem kidsAt_modifyAt (f : Trie η β → Trie η β) (s : Trie η β) (p : List η) :
    kidsAt (modifyAt f s p) p = (kidsAt s p).map f := by
  induction s generalizing p with
  | nil => cases p <;> simp [modifyAt, kidsAt]
  | edge h l kids rest ihk ihr =>
    cases p with
    | nil => simp
    | cons x p =>
      by_cases hx : x = h
      · simp [modifyAt, kidsAt, hx, ihk]
      · simp [modifyAt, kidsAt, hx, ihr]

theorem kidsAt_append (s : Trie η β) (p : List η) (y : η) (q : List η) :
    kidsAt s (p ++ y :: q) = (kidsAt s p).bind (kidsAt · (y :: q)) := by
  induction s generalizing p with
  | nil => cases p <;> rfl
  | edge h l kids rest ihk ihr =>
    cases p with
    | nil => rfl
    | cons x p =>
      by_cases hx : x = h
      · simp [kidsAt, hx, ihk]
      · have := ihr (x :: p)
        simp only [cons_append] at this
        simp [kidsAt, hx, this]

/-- Appending changes the children at one path. -/
theorem appendAt_eq_modifyAt (s : Trie η β) (p : List η) (t : Trie η β) :
    appendAt s p t = modifyAt (fun k => k.append t) s p := by
  induction s generalizing p with
  | nil => cases p <;> rfl
  | edge h l kids rest ihk ihr =>
    cases p with
    | nil => rfl
    | cons x p =>
      by_cases hx : x = h
      · simp [appendAt, modifyAt, hx, ihk]
      · simp [appendAt, modifyAt, hx, ihr]

theorem setLeaf_append_eq_modifyAt (s : Trie η β) (p : List η) (y : η) (v : Option β) :
    setLeaf s (p ++ [y]) v = modifyAt (fun k => setLeaf k [y] v) s p := by
  induction s generalizing p with
  | nil => cases p <;> rfl
  | edge h l kids rest ihk ihr =>
    cases p with
    | nil => rfl
    | cons x p =>
      by_cases hx : x = h
      · have hk := ihk p
        cases hp : p ++ [y] with
        | nil => simp at hp
        | cons z r =>
          rw [hp] at hk
          simp [setLeaf, modifyAt, hx, hp, hk]
      · have := ihr (x :: p)
        simp only [cons_append] at this
        simp [setLeaf, modifyAt, hx, this]

/-! ## Appending a subtrie edge by edge -/

omit [DecidableEq η] in
@[simp]
theorem append_nil (s : Trie η β) : s.append nil = s := by
  induction s with
  | nil => rfl
  | edge h l kids rest _ ihr => simp [append, ihr]

omit [DecidableEq η] in
theorem append_assoc (s t u : Trie η β) : (s.append t).append u = s.append (t.append u) := by
  induction s with
  | nil => rfl
  | edge h l kids rest _ ihr => simp [append, ihr]

omit [DecidableEq η] in
@[simp]
theorem hashes_append (s t : Trie η β) : hashes (s.append t) = hashes s ++ hashes t := by
  induction s with
  | nil => rfl
  | edge h l kids rest _ ihr => simp [append, hashes, ihr]

@[simp]
theorem appendAt_nil (s : Trie η β) (p : List η) : appendAt s p nil = s := by
  induction s generalizing p with
  | nil => cases p <;> rfl
  | edge h l kids rest ihk ihr =>
    cases p with
    | nil => simp [appendAt]
    | cons x p =>
      by_cases hx : x = h
      · simp [appendAt, hx, ihk]
      · simp [appendAt, hx, ihr]

theorem appendAt_appendAt (s : Trie η β) (p : List η) (t u : Trie η β) :
    appendAt (appendAt s p t) p u = appendAt s p (t.append u) := by
  simp only [appendAt_eq_modifyAt, modifyAt_modifyAt, append_assoc]

theorem setLeaf_append_edge (k : Trie η β) (h : η) (l v : Option β) (c r : Trie η β)
    (hk : h ∉ hashes k) :
    setLeaf (k.append (edge h l c r)) [h] v = k.append (edge h v c r) := by
  induction k with
  | nil => simp [append, setLeaf]
  | edge h' l' kids rest _ ihr =>
    simp only [hashes, mem_cons, not_or] at hk
    simp [append, setLeaf, hk.1, ihr hk.2]

theorem modifyAt_append_edge (f : Trie η β → Trie η β) (k : Trie η β) (h : η) (l : Option β)
    (c r : Trie η β) (hk : h ∉ hashes k) :
    modifyAt f (k.append (edge h l c r)) [h] = k.append (edge h l (f c) r) := by
  induction k with
  | nil => simp [append, modifyAt]
  | edge h' l' kids rest _ ihr =>
    simp only [hashes, mem_cons, not_or] at hk
    simp [append, modifyAt, hk.1, ihr hk.2]

theorem kidsAt_append_edge (k : Trie η β) (h : η) (l : Option β) (c r : Trie η β)
    (hk : h ∉ hashes k) : kidsAt (k.append (edge h l c r)) [h] = some c := by
  induction k with
  | nil => simp [append, kidsAt]
  | edge h' l' kids rest _ ihr =>
    simp only [hashes, mem_cons, not_or] at hk
    simp [append, kidsAt, hk.1, ihr hk.2]

section AppendEdge

variable {s : Trie η β} {p : List η} {h : η}

theorem setLeaf_appendAt_edge (hk : ∀ k, kidsAt s p = some k → h ∉ hashes k) (l v : Option β)
    (c r : Trie η β) :
    setLeaf (appendAt s p (edge h l c r)) (p ++ [h]) v = appendAt s p (edge h v c r) := by
  rw [setLeaf_append_eq_modifyAt, appendAt_eq_modifyAt, appendAt_eq_modifyAt, modifyAt_modifyAt]
  apply modifyAt_congr
  intro k hkk
  exact setLeaf_append_edge k h l v c r (hk k hkk)

theorem appendAt_appendAt_edge (hk : ∀ k, kidsAt s p = some k → h ∉ hashes k) (l : Option β)
    (c r t : Trie η β) :
    appendAt (appendAt s p (edge h l c r)) (p ++ [h]) t =
      appendAt s p (edge h l (c.append t) r) := by
  rw [appendAt_eq_modifyAt _ (p ++ [h]), modifyAt_append, appendAt_eq_modifyAt s,
    appendAt_eq_modifyAt s, modifyAt_modifyAt]
  apply modifyAt_congr
  intro k hkk
  exact modifyAt_append_edge _ k h l c r (hk k hkk)

theorem kidsAt_appendAt_edge (hk : ∀ k, kidsAt s p = some k → h ∉ hashes k) (l : Option β)
    (c r : Trie η β) (k : Trie η β)
    (hc : kidsAt (appendAt s p (edge h l c r)) (p ++ [h]) = some k) : k = c := by
  rw [kidsAt_append, appendAt_eq_modifyAt, kidsAt_modifyAt] at hc
  cases hs : kidsAt s p with
  | none => simp [hs] at hc
  | some k0 =>
    simp only [hs, Option.map_some, Option.bind_some] at hc
    rw [kidsAt_append_edge k0 h l c r (hk k0 hs)] at hc
    exact (Option.some.inj hc).symm

end AppendEdge

theorem kidsAt_appendAt (s : Trie η β) (p : List η) (t : Trie η β) :
    kidsAt (appendAt s p t) p = (kidsAt s p).map (·.append t) := by
  rw [appendAt_eq_modifyAt, kidsAt_modifyAt]

/-! ## Mapping the payloads -/

omit [DecidableEq η] in
@[simp]
theorem hashes_map (f : β → γ) (t : Trie η β) : hashes (map f t) = hashes t := by
  induction t with
  | nil => rfl
  | edge h l kids rest _ ihr => simp [map, hashes, ihr]

omit [DecidableEq η] in
theorem Distinct.map {t : Trie η β} (ht : t.Distinct) (f : β → γ) : (t.map f).Distinct := by
  induction t with
  | nil => trivial
  | edge h l kids rest ihk ihr =>
    obtain ⟨hh, hk, hr⟩ := ht
    exact ⟨by simpa using hh, ihk hk, ihr hr⟩

omit [DecidableEq η] in
theorem AllHashes.map {P : η → Prop} {t : Trie η β} (ht : t.AllHashes P) (f : β → γ) :
    (t.map f).AllHashes P := by
  induction t with
  | nil => trivial
  | edge h l kids rest ihk ihr =>
    obtain ⟨hh, hk, hr⟩ := ht
    exact ⟨hh, ihk hk, ihr hr⟩

theorem node?_map (f : β → γ) (t : Trie η β) (q : List η) :
    node? (map f t) q = (node? t q).map (Option.map f) := by
  induction t generalizing q with
  | nil => simp [map]
  | edge h l kids rest ihk ihr =>
    cases q with
    | nil => simp
    | cons x q =>
      simp only [map, node?_edge_cons]
      by_cases hx : x = h
      · by_cases hq : q = []
        · simp [hx, hq]
        · simp [hx, hq, ihk]
      · simp [hx, ihr]

theorem leafAt_map (f : β → γ) (t : Trie η β) (q : List η) :
    leafAt (map f t) q = (leafAt t q).map f := by
  unfold leafAt
  rw [node?_map]
  cases node? t q with
  | none => rfl
  | some l => cases l <;> rfl

omit [DecidableEq η] in
theorem entries_map (f : β → γ) (t : Trie η β) (q : List η) :
    entries q (map f t) = (entries q t).map fun e => (e.1, f e.2) := by
  induction t generalizing q with
  | nil => rfl
  | edge h l kids rest ihk ihr => cases l <;> simp [map, entries, ihk, ihr]

omit [DecidableEq η] in
theorem map_congr (f g : β → γ) (t : Trie η β) (q : List η)
    (h : ∀ e ∈ entries q t, f e.2 = g e.2) : map f t = map g t := by
  induction t generalizing q with
  | nil => rfl
  | edge x l kids rest ihk ihr =>
    have hl : l.map f = l.map g := by
      cases l with
      | none => rfl
      | some b => simpa [entries] using h (q ++ [x], b) (by simp [entries])
    have hkids := ihk (q ++ [x]) (fun e he => h e (by simp [entries, he]))
    have hrest := ihr q (fun e he => h e (by simp [entries, he]))
    simp [map, hl, hkids, hrest]

/-! ## A trie from its edges -/

/-- The trie with these edges, in order. -/
def ofEdges : List (η × Option β × Trie η β) → Trie η β
  | [] => nil
  | (h, l, kids) :: es => edge h l kids (ofEdges es)

omit [DecidableEq η] in
theorem hashes_ofEdges (es : List (η × Option β × Trie η β)) :
    hashes (ofEdges es) = es.map Prod.fst := by
  induction es with
  | nil => rfl
  | cons e es ih => simp [ofEdges, hashes, ih]

omit [DecidableEq η] in
theorem distinct_ofEdges {es : List (η × Option β × Trie η β)} (hnd : (es.map Prod.fst).Nodup)
    (hkids : ∀ e ∈ es, e.2.2.Distinct) : (ofEdges es).Distinct := by
  induction es with
  | nil => trivial
  | cons e es ih =>
    rw [map_cons, nodup_cons] at hnd
    exact ⟨by rw [hashes_ofEdges]; exact hnd.1, hkids e (by simp),
      ih hnd.2 fun e' he' => hkids e' (by simp [he'])⟩

omit [DecidableEq η] in
theorem allHashes_ofEdges {P : η → Prop} {es : List (η × Option β × Trie η β)}
    (hes : ∀ e ∈ es, P e.1 ∧ e.2.2.AllHashes P) : (ofEdges es).AllHashes P := by
  induction es with
  | nil => trivial
  | cons e es ih =>
    exact ⟨(hes e (by simp)).1, (hes e (by simp)).2, ih fun e' he' => hes e' (by simp [he'])⟩

theorem node?_ofEdges {es : List (η × Option β × Trie η β)} (hnd : (es.map Prod.fst).Nodup)
    (h : η) (p : List η) (v : Option β) :
    node? (ofEdges es) (h :: p) = some v ↔
      ∃ l kids, (h, l, kids) ∈ es ∧ (if p = [] then some l else node? kids p) = some v := by
  induction es with
  | nil => simp [ofEdges]
  | cons e es ih =>
    obtain ⟨h', l', kids'⟩ := e
    rw [map_cons, nodup_cons] at hnd
    simp only [ofEdges]
    rw [node?_edge_cons]
    split
    · rename_i he
      subst he
      constructor
      · intro hv
        exact ⟨l', kids', by simp, hv⟩
      rintro ⟨l, kids, hmem, hv⟩
      rcases mem_cons.mp hmem with heq | hmem
      · cases heq
        exact hv
      · exact absurd (mem_map.mpr ⟨_, hmem, rfl⟩) hnd.1
    rename_i hne
    rw [ih hnd.2]
    constructor
    · rintro ⟨l, kids, hmem, hv⟩
      exact ⟨l, kids, by simp [hmem], hv⟩
    rintro ⟨l, kids, hmem, hv⟩
    rcases mem_cons.mp hmem with heq | hmem
    · cases heq
      exact absurd rfl hne
    · exact ⟨l, kids, hmem, hv⟩

theorem node?_ofEdges_perm {es es' : List (η × Option β × Trie η β)} (hperm : es.Perm es')
    (hnd : (es.map Prod.fst).Nodup) (q : List η) : node? (ofEdges es) q = node? (ofEdges es') q := by
  cases q with
  | nil => simp
  | cons h p =>
    have hnd' := (hperm.map Prod.fst).nodup_iff.mp hnd
    refine Option.ext fun v => ?_
    rw [node?_ofEdges hnd, node?_ofEdges hnd']
    simp only [hperm.mem_iff]

end KvTier.Lib.Trie
