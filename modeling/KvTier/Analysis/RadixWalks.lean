import Mathlib.Data.FinEnum
import KvTier.Analysis.EdgeWords

/-!
# The nodes of the radix tree form a map

`TreeHolds t ps` says that the nodes of a tree are those of the paths `ps`, in the order of their
pointers: no path has two nodes, the depth of a node is the length of its path, its parent is the
node of the path without its last hash, and its edges lead to the nodes of the paths one longer.
-/

namespace KvTier.Analysis

open KvTier.Lib KvTier.Model List

/-! ## The paths of the nodes -/

/-- The node of path `p`, with its parent and edges. -/
structure NodeAt (ps : List Path) (p : Path) (n : RadixNode) : Prop where
  depth : n.depth = p.length
  root : p = [] → n.parent = none
  parent : ∀ q h, p = q ++ [h] → ∃ c, n.parent = some c ∧ ps[c]? = some q
  edges : ∃ es, EdgesOk n.edges es ∧ HashesOk (es.map Prod.fst) ∧ WordOk n.edges ∧
    ∀ h c, (h, c) ∈ es ↔ ps[c]? = some (p ++ [h])

/-- The nodes of the tree are those of these paths. -/
structure TreeHolds (t : RadixTree) (ps : List Path) : Prop where
  len : t.nodes.length = ps.length
  root : ps[0]? = some []
  nodup : ps.Nodup
  node : ∀ (c : Nat) n p, t.nodes[c]? = some n → ps[c]? = some p → NodeAt ps p n

section Holds

variable {t : RadixTree} {ps : List Path}

theorem NodeAt.edges_new {p : Path} (hp : ∀ (h : UInt64) (c : Nat), ps[c]? ≠ some (p ++ [h])) :
    ∃ es, EdgesOk RadixEdges.empty es ∧ HashesOk (es.map Prod.fst) ∧ WordOk RadixEdges.empty ∧
      ∀ h c, (h, c) ∈ es ↔ ps[c]? = some (p ++ [h]) := by
  refine ⟨[], EdgesOk.empty, ⟨nodup_nil, not_mem_nil⟩, ?_, fun h c => ?_⟩
  · intro o ho
    cases ho
  · simp [hp h c]

theorem TreeHolds.init : TreeHolds .init [[]] where
  len := rfl
  root := rfl
  nodup := nodup_singleton _
  node c n p hn hp := by
    obtain ⟨rfl, rfl⟩ : c = 0 ∧ p = [] := by
      cases c with
      | zero => exact ⟨rfl, by simpa using hp.symm⟩
      | succ c => simp at hp
    obtain rfl : RadixNode.nodeNew 0 = n := by simpa [RadixTree.init] using hn
    refine ⟨rfl, fun _ => rfl, fun q h hx => ?_, NodeAt.edges_new fun h c => ?_⟩
    · simp at hx
    · cases c <;> simp

theorem TreeHolds.inj (h : TreeHolds t ps) {p : Path} {c c' : Nat} (hc : ps[c]? = some p)
    (hc' : ps[c']? = some p) : c = c' := by
  obtain ⟨hlt, _⟩ := List.getElem?_eq_some_iff.1 hc
  exact (List.getElem?_inj hlt h.nodup).1 (hc.trans hc'.symm)

theorem TreeHolds.exists_node (h : TreeHolds t ps) {p : Path} {c : Nat} (hc : ps[c]? = some p) :
    ∃ n, t.nodes[c]? = some n ∧ NodeAt ps p n := by
  obtain ⟨hlt, _⟩ := List.getElem?_eq_some_iff.1 hc
  have hn := List.getElem?_eq_getElem (h.len ▸ hlt : c < t.nodes.length)
  exact ⟨_, hn, h.node c _ p hn hc⟩

theorem TreeHolds.mem_of_append (h : TreeHolds t ps) {q : Path} (r : Path) (hmem : q ++ r ∈ ps) :
    q ∈ ps := by
  induction r using List.reverseRecOn with
  | nil => simpa using hmem
  | append_singleton r x ih =>
    refine ih ?_
    obtain ⟨c, hc⟩ := mem_iff_getElem?.1 hmem
    obtain ⟨n, _, hnode⟩ := h.exists_node hc
    obtain ⟨c', _, hc'⟩ := hnode.parent (q ++ r) x (by rw [List.append_assoc])
    exact mem_of_getElem? hc'

theorem NodeAt.edgeGet {p : Path} {n : RadixNode} (h : NodeAt ps p n) {fuel : Nat}
    (hfuel : 2 ^ 29 ≤ fuel) (x : UInt64) :
    ∃ r, n.edgeGet fuel x = some r ∧ ∀ c, r = some c ↔ ps[c]? = some (p ++ [x]) := by
  obtain ⟨es, hedges, hes, hw, hiff⟩ := h.edges
  refine ⟨n.edges.edgeGet x, edgeGet_eq hfuel hedges hw x, fun c => ?_⟩
  rw [hedges.edgeGet_eq_some_iff hes, hiff]

/-! ## Walks -/

theorem TreeHolds.lookup (h : TreeHolds t ps) {fuel : Nat} (hfuel : 2 ^ 29 ≤ fuel) (hs : Path)
    {cur : Nat} {q : Path} (hcur : ps[cur]? = some q) (k : Nat) :
    ∃ r, RadixTree.walkFrom fuel false t cur k hs = some (t, r) ∧
      ∀ c, r = some c ↔ ps[c]? = some (q ++ hs) := by
  induction hs generalizing cur q k with
  | nil =>
    refine ⟨some cur, rfl, fun c => ?_⟩
    rw [List.append_nil, Option.some.injEq]
    exact ⟨fun hx => hx ▸ hcur, fun hc => h.inj hcur hc⟩
  | cons x hs ih =>
    obtain ⟨n, hn, hnode⟩ := h.exists_node hcur
    obtain ⟨r, hget, hr⟩ := hnode.edgeGet hfuel x
    have happ : q ++ x :: hs = (q ++ [x]) ++ hs := by simp
    unfold RadixTree.walkFrom
    simp only [hn, hget, Option.bind_eq_bind, Option.bind_some]
    cases r with
    | some child =>
      rw [happ]
      exact ih ((hr child).1 rfl) (k + 1)
    | none =>
      refine ⟨none, rfl, fun c => ⟨nofun, fun hc => ?_⟩⟩
      -- the node of the path would be below one of `q ++ [x]`
      rw [happ] at hc
      obtain ⟨c', hc'⟩ := mem_iff_getElem?.1 (h.mem_of_append hs (mem_of_getElem? hc))
      exact absurd ((hr c').2 hc') nofun

theorem NodeAt.length_edges {q : Path} {es : List (UInt64 × Nat)}
    (hes : HashesOk (es.map Prod.fst)) (hiff : ∀ h c, (h, c) ∈ es ↔ ps[c]? = some (q ++ [h]))
    {x : UInt64} (hnew : q ++ [x] ∉ ps) :
    x ∉ es.map Prod.fst ∧ es.length + 1 ≤ {y | q ++ [y] ∈ ps ∨ y = x}.ncard := by
  have hmem : ∀ y ∈ es.map Prod.fst, q ++ [y] ∈ ps := by
    intro y hy
    obtain ⟨⟨y', c⟩, he, rfl⟩ := mem_map.1 hy
    exact mem_of_getElem? ((hiff y' c).1 he)
  have hx : x ∉ es.map Prod.fst := fun hx => hnew (hmem x hx)
  refine ⟨hx, ?_⟩
  have hcard := toFinset_card_of_nodup (nodup_cons.2 ⟨hx, hes.nodup⟩)
  rw [length_cons, length_map] at hcard
  rw [← hcard, ← Set.ncard_coe_finset]
  refine Set.ncard_le_ncard (fun y hy => ?_) (Set.toFinite _)
  rw [Finset.mem_coe, mem_toFinset, mem_cons] at hy
  rcases hy with rfl | hy
  · exact .inr rfl
  · exact .inl (hmem y hy)

/-! ## One more node -/

theorem getElem?_concat_eq_some_iff {α : Type} {l : List α} {a b : α} {c : Nat} :
    (l ++ [a])[c]? = some b ↔ l[c]? = some b ∨ c = l.length ∧ b = a := by
  rcases Nat.lt_trichotomy c l.length with hc | rfl | hc
  · rw [List.getElem?_append_left hc]
    exact ⟨.inl, fun hx => hx.resolve_right fun hx => absurd hx.1 (by omega)⟩
  · simp [eq_comm]
  rw [List.getElem?_eq_none (by rw [length_append, length_singleton]; omega),
    List.getElem?_eq_none (by omega)]
  simp only [reduceCtorEq, false_or, false_iff, not_and]
  omega

section Concat

variable {p q : Path} {x : UInt64} {n : RadixNode}

theorem NodeAt.parent_concat (h : NodeAt ps p n) (a : Path) (q' : Path) (y : UInt64)
    (hp : p = q' ++ [y]) : ∃ c, n.parent = some c ∧ (ps ++ [a])[c]? = some q' := by
  obtain ⟨c, hc, hq⟩ := h.parent q' y hp
  exact ⟨c, hc, getElem?_concat_eq_some_iff.2 (.inl hq)⟩

theorem NodeAt.other (h : NodeAt ps p n) (hne : p ≠ q) : NodeAt (ps ++ [q ++ [x]]) p n := by
  obtain ⟨es, hedges, hes, hw, hiff⟩ := h.edges
  refine ⟨h.depth, h.root, h.parent_concat _, es, hedges, hes, hw, fun y c => ?_⟩
  rw [getElem?_concat_eq_some_iff, hiff]
  refine ⟨.inl, fun hx => hx.resolve_right fun hx => hne ?_⟩
  exact (append_inj' hx.2 rfl).1

theorem NodeAt.edgeAdd (h : NodeAt ps q n) {fuel : Nat} (hfuel : 2 ^ 29 ≤ fuel) (hx : x ≠ 0)
    (hnew : q ++ [x] ∉ ps) (hwide : {y | q ++ [y] ∈ ps ∨ y = x}.ncard < 2 ^ 28) :
    ∃ n', n.edgeAdd fuel x ps.length = some n' ∧ NodeAt (ps ++ [q ++ [x]]) q n' := by
  obtain ⟨es, hedges, hes, hw, hiff⟩ := h.edges
  obtain ⟨hxes, hcount⟩ := NodeAt.length_edges hes hiff hnew
  obtain ⟨hadd, hw'⟩ := edgeAdd_eq hfuel hedges hes hw (by omega) hx ps.length
  have hup := h.parent_concat (q ++ [x])
  refine ⟨_, hadd, h.depth, h.root, hup, es ++ [(x, ps.length)],
    hedges.edgeAdd hes hx hxes _, ?_, hw', fun y c => ?_⟩
  · rw [map_append, map_cons, map_nil]
    refine ⟨nodup_append'.2 ⟨hes.nodup, nodup_singleton _, by simpa using hxes⟩, ?_⟩
    rw [mem_append, mem_singleton, not_or]
    exact ⟨hes.nonzero, hx.symm⟩
  · rw [getElem?_concat_eq_some_iff, mem_append, hiff, mem_singleton, Prod.mk.injEq,
      append_cancel_left_eq, singleton_inj]
    tauto

theorem TreeHolds.nodeNew (h : TreeHolds t ps) {cur : Nat} (hcur : ps[cur]? = some q)
    (hnew : q ++ [x] ∉ ps) (hdepth : q.length + 1 < 2 ^ 32) :
    NodeAt (ps ++ [q ++ [x]]) (q ++ [x])
      { RadixNode.nodeNew (q.length + 1) with parent := some cur } := by
  refine ⟨?_, fun hx => by simp at hx, ?_, NodeAt.edges_new fun y c hc => ?_⟩
  · change (q.length + 1) % 2 ^ 32 = (q ++ [x]).length
    rw [Nat.mod_eq_of_lt hdepth, length_append, length_singleton]
  · intro q' y hq
    obtain rfl : q = q' := (append_inj' hq rfl).1
    exact ⟨cur, rfl, getElem?_concat_eq_some_iff.2 (.inl hcur)⟩
  -- no path goes on from it
  rcases getElem?_concat_eq_some_iff.1 hc with hc | ⟨_, hc⟩
  · exact hnew (h.mem_of_append [y] (mem_of_getElem? hc))
  · simp at hc

end Concat

/-- One node is added. -/
theorem TreeHolds.addNode (h : TreeHolds t ps) {fuel : Nat} (hfuel : 2 ^ 29 ≤ fuel) {cur : Nat}
    {q : Path} (hcur : ps[cur]? = some q) {n : RadixNode} (hn : t.nodes[cur]? = some n) {x : UInt64}
    (hx : x ≠ 0) (hnew : q ++ [x] ∉ ps) (hdepth : q.length + 1 < 2 ^ 32)
    (hwide : {y | q ++ [y] ∈ ps ∨ y = x}.ncard < 2 ^ 28) :
    ∃ n', n.edgeAdd fuel x t.nodes.length = some n' ∧
      TreeHolds ⟨t.nodes.set cur n' ++
        [{ RadixNode.nodeNew (q.length + 1) with parent := some cur }]⟩ (ps ++ [q ++ [x]]) := by
  obtain ⟨n', hadd, hgrown⟩ := (h.node cur n q hn hcur).edgeAdd hfuel hx hnew hwide
  rw [h.len]
  refine ⟨n', hadd, ?_⟩
  have hlt : cur < ps.length := (List.getElem?_eq_some_iff.1 hcur).1
  have hset : (t.nodes.set cur n').length = ps.length := by rw [length_set, h.len]
  refine ⟨?_, getElem?_concat_eq_some_iff.2 (.inl h.root), ?_, fun c m p hm hp => ?_⟩
  · rw [length_append, length_append, hset, length_singleton, length_singleton]
  · exact nodup_append'.2 ⟨h.nodup, nodup_singleton _, by simpa using hnew⟩
  -- the pointer is an old one, or that of the new node
  have hm := getElem?_concat_eq_some_iff.1 hm
  rw [hset, List.getElem?_set, h.len, if_pos hlt] at hm
  rcases getElem?_concat_eq_some_iff.1 hp with hp | ⟨rfl, rfl⟩
  · have hcl : c < ps.length := (List.getElem?_eq_some_iff.1 hp).1
    have hm := hm.resolve_right fun hx => absurd hx.1 (by omega)
    by_cases hc : cur = c
    · subst hc
      rw [if_pos rfl, Option.some.injEq] at hm
      obtain rfl : q = p := Option.some.inj (hcur.symm.trans hp)
      exact hm ▸ hgrown
    · rw [if_neg hc] at hm
      exact (h.node c m p hm hp).other fun hpq => hc (h.inj hcur (hpq ▸ hp))
  have hnone : t.nodes[ps.length]? = none := by
    rw [← h.len]
    exact List.getElem?_eq_none (Nat.le_refl _)
  rw [if_neg (by omega), hnone] at hm
  obtain ⟨_, rfl⟩ := hm.resolve_left nofun
  exact h.nodeNew hcur hnew hdepth

/-! ## Walks that create -/

/-- A creating walk adds the nodes of its path and no others. -/
theorem TreeHolds.create {fuel : Nat} (hfuel : 2 ^ 29 ≤ fuel) {S : Set Path}
    (hS : ∀ p, {y | p ++ [y] ∈ S}.ncard < 2 ^ 28) (hs : Path) (h : TreeHolds t ps)
    (hps : ∀ p ∈ ps, p ∈ S) {cur : Nat} {q : Path} (hcur : ps[cur]? = some q)
    (hq : ∀ r, r <+: hs → q ++ r ∈ S) (hlen : q.length + hs.length < 2 ^ 31)
    (hne : ∀ x ∈ hs, x ≠ 0) :
    ∃ t' ps' c, RadixTree.walkFrom fuel true t cur q.length hs = some (t', some c) ∧
      TreeHolds t' ps' ∧ ps <+: ps' ∧ ps'[c]? = some (q ++ hs) ∧
      ∀ p, p ∈ ps' ↔ p ∈ ps ∨ ∃ r, r <+: hs ∧ p = q ++ r := by
  induction hs generalizing t ps cur q with
  | nil =>
    refine ⟨t, ps, cur, rfl, h, prefix_refl _, by rw [List.append_nil]; exact hcur, ?_⟩
    intro p
    refine ⟨.inl, ?_⟩
    rintro (hp | ⟨r, hr, rfl⟩)
    · exact hp
    · rw [prefix_nil.1 hr, List.append_nil]
      exact mem_of_getElem? hcur
  | cons x hs ih =>
    obtain ⟨hx, hne⟩ := forall_mem_cons.1 hne
    rw [length_cons] at hlen
    obtain ⟨n, hn, hnode⟩ := h.exists_node hcur
    obtain ⟨r, hget, hr⟩ := hnode.edgeGet hfuel x
    have happ : q ++ x :: hs = (q ++ [x]) ++ hs := by simp
    have hlen' : (q ++ [x]).length = q.length + 1 := by simp
    have hq' : ∀ r, r <+: hs → q ++ [x] ++ r ∈ S := by
      intro r hr
      have hmem := hq (x :: r) (cons_prefix_cons.2 ⟨rfl, hr⟩)
      rwa [show q ++ x :: r = q ++ [x] ++ r by simp] at hmem
    -- the paths on the way from `q` are `q` and those on the way from `q ++ [x]`
    have hway : ∀ p, (∃ r, r <+: x :: hs ∧ p = q ++ r) ↔
        p = q ∨ ∃ r, r <+: hs ∧ p = q ++ [x] ++ r := by
      intro p
      constructor
      · rintro ⟨r, hr, rfl⟩
        cases r with
        | nil => exact .inl (List.append_nil _)
        | cons y r =>
          obtain ⟨rfl, htail⟩ := cons_prefix_cons.1 hr
          exact .inr ⟨r, htail, by simp⟩
      · rintro (rfl | ⟨r, hr, rfl⟩)
        · exact ⟨[], nil_prefix, (List.append_nil _).symm⟩
        · exact ⟨x :: r, cons_prefix_cons.2 ⟨rfl, hr⟩, by simp⟩
    unfold RadixTree.walkFrom
    simp only [hn, hget, Option.bind_eq_bind, Option.bind_some]
    cases r with
    | some child =>
      obtain ⟨t', ps', c, hwalk, hold, hpre, hc, hmem⟩ :=
        ih h hps ((hr child).1 rfl) hq' (by rw [hlen']; omega) hne
      rw [hlen'] at hwalk
      refine ⟨t', ps', c, hwalk, hold, hpre, by rw [happ]; exact hc, fun p => ?_⟩
      rw [hmem, hway, ← or_assoc]
      refine or_congr_left ⟨.inl, fun hp => ?_⟩
      rcases hp with hp | rfl
      · exact hp
      · exact mem_of_getElem? hcur
    | none =>
      have hnew : q ++ [x] ∉ ps := by
        intro hmem
        obtain ⟨c, hc⟩ := mem_iff_getElem?.1 hmem
        exact absurd ((hr c).2 hc) nofun
      have hwide : {y | q ++ [y] ∈ ps ∨ y = x}.ncard < 2 ^ 28 := by
        refine lt_of_le_of_lt (Set.ncard_le_ncard (fun y hy => ?_) (Set.toFinite _)) (hS q)
        rcases hy with hy | rfl
        · exact hps _ hy
        · exact hq [y] (cons_prefix_cons.2 ⟨rfl, nil_prefix⟩)
      obtain ⟨n', hadd, hholds⟩ := h.addNode hfuel hcur hn hx hnew (by omega) hwide
      have hchild : (ps ++ [q ++ [x]])[t.nodes.length]? = some (q ++ [x]) :=
        getElem?_concat_eq_some_iff.2 (.inr ⟨h.len, rfl⟩)
      obtain ⟨t', ps', c, hwalk, hold, hpre, hc, hmem⟩ := ih hholds
        (fun p hp => (mem_append.1 hp).elim (hps p) fun hp => by
          rw [mem_singleton.1 hp, ← List.append_nil (q ++ [x])]
          exact hq' [] nil_prefix)
        hchild hq' (by rw [hlen']; omega) hne
      rw [hlen'] at hwalk
      simp only [hadd, if_true, Option.bind_some]
      refine ⟨t', ps', c, hwalk, hold, (prefix_append _ _).trans hpre,
        by rw [happ]; exact hc, fun p => ?_⟩
      rw [hmem, hway, mem_append, mem_singleton]
      constructor
      · rintro ((hp | rfl) | hp)
        · exact .inl hp
        · exact .inr (.inr ⟨[], nil_prefix, (List.append_nil _).symm⟩)
        · exact .inr (.inr hp)
      rintro (hp | rfl | hp)
      · exact .inl (.inl hp)
      · exact .inl (.inl (mem_of_getElem? hcur))
      · exact .inr hp

end Holds

/-! ## All walks -/

/-- The path is on the way to one of the paths. -/
def Created (paths : List Path) (p : Path) : Prop := p = [] ∨ ∃ q ∈ paths, p <+: q

theorem created_concat {paths : List Path} {q p : Path} :
    Created (paths ++ [q]) p ↔ Created paths p ∨ p <+: q := by
  unfold Created
  simp only [mem_append, mem_singleton, or_and_right, exists_or, exists_eq_left, or_assoc]

/-- Hashes are not 0, and lengths and fan-outs fit the counters. -/
structure PathsOk (paths : List Path) : Prop where
  nonzero : ∀ p ∈ paths, ∀ x ∈ p, x ≠ 0
  length : ∀ p ∈ paths, p.length < 2 ^ 31
  children : ∀ q, {x | ∃ p ∈ paths, q ++ [x] <+: p}.ncard < 2 ^ 28

theorem PathsOk.of_subset {paths paths' : List Path} (h : PathsOk paths) (hsub : paths' ⊆ paths) :
    PathsOk paths' where
  nonzero p hp := h.nonzero p (hsub hp)
  length p hp := h.length p (hsub hp)
  children q := by
    refine lt_of_le_of_lt (Set.ncard_le_ncard (fun x hx => ?_) (Set.toFinite _)) (h.children q)
    obtain ⟨p, hp, hpre⟩ := hx
    exact ⟨p, hsub hp, hpre⟩

section Calls

variable {fuel : Nat} {paths : List Path}

theorem TreeHolds.call {t : RadixTree} {ps : List Path} (hfuel : 2 ^ 29 ≤ fuel) {p : Path}
    (hok : PathsOk (paths ++ [p])) (h : TreeHolds t ps) (hps : ∀ q, q ∈ ps ↔ Created paths q) :
    ∃ t' ps' c, t.radixWalk fuel true p = some (t', some c) ∧ TreeHolds t' ps' ∧ ps <+: ps' ∧
      ps'[c]? = some p ∧ ∀ q, q ∈ ps' ↔ Created (paths ++ [p]) q := by
  have hwide : ∀ q, {x | q ++ [x] ∈ {q | Created (paths ++ [p]) q}}.ncard < 2 ^ 28 := by
    intro q
    refine lt_of_le_of_lt (Set.ncard_le_ncard (fun x hx => ?_) (Set.toFinite _)) (hok.children q)
    rcases hx with hx | hx
    · simp at hx
    · exact hx
  have hlast : p ∈ paths ++ [p] := mem_append_right _ (mem_singleton_self p)
  obtain ⟨t', ps', c, hwalk, hholds, hpre, hc, hmem⟩ := TreeHolds.create hfuel hwide p h
    (fun q hq => created_concat.2 (.inl ((hps q).1 hq))) h.root
    (fun r hr => created_concat.2 (.inr hr)) (by simpa using hok.length p hlast)
    (hok.nonzero p hlast)
  refine ⟨t', ps', c, hwalk, hholds, hpre, hc, fun q => ?_⟩
  rw [hmem, created_concat, hps]
  simp

theorem createAll_concat {t t' : RadixTree} {p : Path} {r : Option Nat}
    (hall : RadixTree.createAll fuel paths = some t)
    (hwalk : t.radixWalk fuel true p = some (t', r)) :
    RadixTree.createAll fuel (paths ++ [p]) = some t' := by
  unfold RadixTree.createAll at hall ⊢
  rw [foldlM_append, hall, Option.bind_eq_bind, Option.bind_some, foldlM_cons, hwalk]
  rfl

theorem createAll_append (hfuel : 2 ^ 29 ≤ fuel) (paths rest : List Path)
    (hok : PathsOk (paths ++ rest)) {t : RadixTree} {ps : List Path}
    (hall : RadixTree.createAll fuel paths = some t)
    (h : TreeHolds t ps) (hps : ∀ q, q ∈ ps ↔ Created paths q) :
    ∃ t' ps', RadixTree.createAll fuel (paths ++ rest) = some t' ∧ TreeHolds t' ps' ∧
      ps <+: ps' ∧ ∀ q, q ∈ ps' ↔ Created (paths ++ rest) q := by
  induction rest using List.reverseRecOn with
  | nil =>
    rw [List.append_nil]
    exact ⟨t, ps, hall, h, prefix_refl _, hps⟩
  | append_singleton rest p ih =>
    rw [← List.append_assoc] at hok ⊢
    obtain ⟨t1, ps1, hall1, hholds, hpre, hps1⟩ := ih (hok.of_subset (subset_append_left _ _))
    obtain ⟨t', ps', c, hwalk, hholds', hpre', _, hps'⟩ := hholds.call hfuel hok hps1
    exact ⟨t', ps', createAll_concat hall1 hwalk, hholds', hpre.trans hpre', hps'⟩

theorem createAll_holds (hfuel : 2 ^ 29 ≤ fuel) (hok : PathsOk paths) :
    ∃ t ps, RadixTree.createAll fuel paths = some t ∧ TreeHolds t ps ∧
      ∀ q, q ∈ ps ↔ Created paths q := by
  obtain ⟨t, ps, hall, hholds, _, hps⟩ := createAll_append hfuel [] paths hok rfl
    TreeHolds.init fun q => by simp [Created]
  exact ⟨t, ps, hall, hholds, hps⟩

theorem created_iff_node? {p : Path} (hp : p ≠ []) :
    Created paths p ↔ ((paths.foldl Trie.insert .nil : Radix).node? p).isSome := by
  induction paths using List.reverseRecOn with
  | nil => simp [Created, hp]
  | append_singleton paths q ih =>
    rw [created_concat, ih, foldl_append, foldl_cons, foldl_nil, Trie.node?_insert]
    cases hn : (paths.foldl Trie.insert .nil : Radix).node? p with
    | none => by_cases hq : p <+: q <;> simp [hp, hq]
    | some l => simp

/-- The nodes and edge arrays stand for the tree of the index: after the same calls with `create`, a
walk without it finds a node in both or in none. -/
theorem createAll_refines (hfuel : 2 ^ 29 ≤ fuel) (hok : PathsOk paths) :
    ∃ t, RadixTree.createAll fuel paths = some t ∧ ∀ p, p ≠ [] → ∃ r,
      t.radixWalk fuel false p = some (t, r) ∧
        (r.isSome ↔ ((paths.foldl Trie.insert .nil : Radix).node? p).isSome) := by
  obtain ⟨t, ps, hall, hholds, hps⟩ := createAll_holds hfuel hok
  refine ⟨t, hall, fun p hp => ?_⟩
  obtain ⟨r, hwalk, hr⟩ := hholds.lookup hfuel p hholds.root 0
  refine ⟨r, hwalk, ?_⟩
  rw [← created_iff_node? hp, ← hps, mem_iff_getElem?, Option.isSome_iff_exists]
  exact exists_congr hr

/-- The edges of the radix tree form a map from paths to nodes. After any calls of `radix_walk` with
`create`, every walk without it ends: at the node of its path if that is on the way to one of the
calls' paths, and at none otherwise. -/
theorem radix_edges_map (hfuel : 2 ^ 29 ≤ fuel) (hok : PathsOk paths) :
    ∃ t, RadixTree.createAll fuel paths = some t ∧ ∃ node : Path → Option Nat,
      (∀ p, t.radixWalk fuel false p = some (t, node p)) ∧
      (∀ p, (node p).isSome ↔ Created paths p) ∧
      (∀ p q c, node p = some c → node q = some c → p = q) ∧
      (∀ p c, node p = some c → ∃ n, t.nodes[c]? = some n ∧ n.depth = p.length ∧
        n.parent = if p = [] then none else node p.dropLast) ∧
      ∀ before p after, paths = before ++ p :: after →
        ∃ t1 t2, RadixTree.createAll fuel before = some t1 ∧
          t1.radixWalk fuel true p = some (t2, node p) := by
  obtain ⟨t, ps, hall, hholds, hps⟩ := createAll_holds hfuel hok
  have hlookup : ∀ p, ∃ r, t.radixWalk fuel false p = some (t, r) ∧
      ∀ c, r = some c ↔ ps[c]? = some p :=
    fun p => hholds.lookup hfuel p hholds.root 0
  choose node hwalk hnode using hlookup
  refine ⟨t, hall, node, hwalk, fun p => ?_, fun p q c hp hq => ?_, fun p c hc => ?_, ?_⟩
  · rw [← hps, mem_iff_getElem?, Option.isSome_iff_exists]
    exact exists_congr fun c => hnode p c
  · exact Option.some.inj (((hnode p c).1 hp).symm.trans ((hnode q c).1 hq))
  · obtain ⟨n, hn, hat⟩ := hholds.exists_node ((hnode p c).1 hc)
    refine ⟨n, hn, hat.depth, ?_⟩
    rcases eq_nil_or_concat p with rfl | ⟨q, x, rfl⟩
    · rw [if_pos rfl]
      exact hat.root rfl
    · obtain ⟨c', hpar, hc'⟩ := hat.parent q x concat_eq_append
      rw [if_neg (by simp), concat_eq_append, dropLast_concat, hpar]
      exact ((hnode q c').2 hc').symm
  rintro before p after rfl
  have hsplit : before ++ p :: after = before ++ [p] ++ after := by simp
  rw [hsplit] at hall hok
  obtain ⟨t1, ps1, hall1, hholds1, hps1⟩ := createAll_holds hfuel
    (hok.of_subset (show before ⊆ _ by
      rw [List.append_assoc]
      exact subset_append_left _ _))
  obtain ⟨t2, ps2, c, hwalk2, hholds2, _, hc2, hps2⟩ := hholds1.call hfuel
    (hok.of_subset (subset_append_left _ _)) hps1
  refine ⟨t1, t2, hall1, ?_⟩
  -- the later calls leave the node where it is
  obtain ⟨t', ps', hall', hholds', hpre, _⟩ := createAll_append hfuel _ after hok
    (createAll_concat hall1 hwalk2) hholds2 hps2
  obtain rfl : t = t' := Option.some.inj (hall.symm.trans hall')
  obtain ⟨r, hwalk', hr⟩ := hholds'.lookup hfuel p hholds'.root 0
  have hsame : node p = r := (Prod.ext_iff.1 (Option.some.inj ((hwalk p).symm.trans hwalk'))).2
  obtain ⟨more, rfl⟩ := hpre
  have hc : (ps2 ++ more)[c]? = some p := by
    rw [List.getElem?_append_left (List.getElem?_eq_some_iff.1 hc2).1]
    exact hc2
  rw [hsame, (hr c).2 hc]
  exact hwalk2

theorem children_of_small (hsmall : paths.flatten.length < 2 ^ 28) (q : Path) :
    {x | ∃ p ∈ paths, q ++ [x] <+: p}.ncard < 2 ^ 28 := by
  have hsub : {x | ∃ p ∈ paths, q ++ [x] <+: p} ⊆ (paths.flatten.toFinset : Set UInt64) := by
    rintro x ⟨p, hp, hpre⟩
    rw [coe_toFinset]
    exact mem_flatten.2 ⟨p, hp, hpre.subset (by simp)⟩
  have hle := Set.ncard_le_ncard hsub (Set.toFinite _)
  rw [Set.ncard_coe_finset] at hle
  exact lt_of_le_of_lt (hle.trans (toFinset_card_le _)) hsmall

end Calls

/-- A node with 300 children. -/
def wideNode : List Path := (List.range 300).map fun i => [888, UInt64.ofNat (9000 + i)]

theorem pathsOk_wideNode : PathsOk wideNode := by
  have hlen : ∀ p ∈ wideNode, p.length = 2 := by decide +kernel
  have hflat : wideNode.flatten.length = 600 := by decide +kernel
  have hzero : 0 ∉ wideNode.flatten := by decide +kernel
  refine ⟨fun p hp x hx h0 => ?_, fun p hp => ?_, children_of_small ?_⟩
  · exact hzero (mem_flatten.2 ⟨p, hp, h0 ▸ hx⟩)
  · rw [hlen p hp]
    decide
  · rw [hflat]
    decide

theorem created_wideNode : Created wideNode [888, 9299] :=
  .inr ⟨[888, 9299], by decide +kernel, prefix_refl _⟩

/-- The last child is found, and a path that was not created is not. -/
theorem radix_edges_map_wide :
    ∃ t, RadixTree.createAll (2 ^ 29) wideNode = some t ∧
      (∃ c, t.radixWalk (2 ^ 29) false [888, 9299] = some (t, some c)) ∧
      t.radixWalk (2 ^ 29) false [888, 9300] = some (t, none) := by
  obtain ⟨t, hall, node, hwalk, hsome, _⟩ := radix_edges_map (Nat.le_refl _) pathsOk_wideNode
  have hthere : (node [888, 9299]).isSome = true :=
    (hsome _).2 created_wideNode
  obtain ⟨c, hc⟩ := Option.isSome_iff_exists.1 hthere
  have hnot : ¬ Created wideNode [888, 9300] := by
    rintro (hx | ⟨q, hq, hpre⟩)
    · cases hx
    · exact absurd hpre ((show ∀ q ∈ wideNode, ¬ [888, 9300] <+: q by decide +kernel) q hq)
  refine ⟨t, hall, ⟨c, by rw [hwalk, hc]⟩, ?_⟩
  rw [hwalk, Option.not_isSome_iff_eq_none.1 fun hx => hnot ((hsome _).1 hx)]

/-- A path that is in the tree of the index is found in the nodes. -/
theorem createAll_refines_wide :
    ∃ t, RadixTree.createAll (2 ^ 29) wideNode = some t ∧
      ((wideNode.foldl Trie.insert .nil : Radix).node? [888, 9299]).isSome ∧
      ∃ c, t.radixWalk (2 ^ 29) false [888, 9299] = some (t, some c) := by
  obtain ⟨t, hall, hwalk⟩ := createAll_refines (Nat.le_refl _) pathsOk_wideNode
  have hthere := (created_iff_node? (by decide)).1 created_wideNode
  obtain ⟨r, hr, hiff⟩ := hwalk [888, 9299] (by decide)
  obtain ⟨c, rfl⟩ := Option.isSome_iff_exists.1 (hiff.2 hthere)
  exact ⟨t, hall, hthere, c, hr⟩

end KvTier.Analysis
