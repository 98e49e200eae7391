import KvTier.Model.EdgeStore

/-!
# What the slots of a node hold

`EdgesOk n es` says that the slots of a node hold the edges `es`, in the order they were added:
inline up to eight of them, in an overflow table that is at most seven tenths full from the ninth
on.
-/

namespace KvTier.Analysis

open KvTier.Lib KvTier.Model List

variable {h x : UInt64} {hs path : List UInt64} {k : Nat} {t : Radix}

/-! ## Slots -/

/-- An overflow table that holds these edges. -/
structure OvfOk (o : RadixOvf) (es : List (UInt64 × Nat)) : Prop where
  stores : ProbeTable.Stores edgeHome o.table es
  used : o.used = es.length
  cap : 16 ≤ o.table.cap
  load : es.length ≤ o.table.cap * 7 / 10

/-- The slots of a node hold these edges. -/
inductive EdgesOk (n : RadixEdges) (es : List (UInt64 × Nat)) : Prop
  | inline (hovf : n.ovf = none) (hlen : es.length ≤ inlineSlots)
      (hslots : ∀ i (h : i < es.length), n.slots i = es.get ⟨i, h⟩)
      (hfree : ∀ i, es.length ≤ i → i < inlineSlots → (n.slots i).1 = 0)
  | ovf (o : RadixOvf) (hovf : n.ovf = some o)
      (hslots : ∀ i < inlineSlots, (n.slots i).1 = 0) (ho : OvfOk o es)

/-- Edges whose hashes are distinct and not zero. -/
structure HashesOk (hs : List UInt64) : Prop where
  nodup : hs.Nodup
  nonzero : 0 ∉ hs

theorem HashesOk.init (hok : HashesOk (hs ++ [h])) : HashesOk hs ∧ h ∉ hs ∧ h ≠ 0 := by
  obtain ⟨hnd, h0⟩ := hok
  simp only [mem_append, mem_singleton, not_or] at h0
  refine ⟨⟨hnd.of_append_left, h0.1⟩, fun hmem => ?_, fun he => h0.2 he.symm⟩
  exact disjoint_of_nodup_append hnd hmem (by simp)

theorem EdgesOk.empty : EdgesOk RadixEdges.empty [] :=
  .inline rfl (by simp) (by simp) (by simp [RadixEdges.empty])

section Slots

variable {n : RadixEdges} {es : List (UInt64 × Nat)}

theorem inlineEdges_eq (hes : HashesOk (es.map Prod.fst)) (hlen : es.length ≤ inlineSlots)
    (hslots : ∀ i (h : i < es.length), n.slots i = es.get ⟨i, h⟩)
    (hfree : ∀ i, es.length ≤ i → i < inlineSlots → (n.slots i).1 = 0) : n.inlineEdges = es := by
  have hrange : List.range inlineSlots =
      List.range es.length ++ List.range' es.length (inlineSlots - es.length) := by
    have happ := @range'_append_1 0 es.length (inlineSlots - es.length)
    rw [Nat.zero_add, show es.length + (inlineSlots - es.length) = inlineSlots by omega] at happ
    rw [range_eq_range', range_eq_range', happ]
  have hfirst : (List.range es.length).map n.slots = es := by
    apply ext_getElem
    · simp
    · intro i h1 h2
      rw [getElem_map, getElem_range]
      exact hslots i h2
  unfold RadixEdges.inlineEdges
  rw [hrange, map_append, filter_append, hfirst, filter_eq_self.mpr,
    filter_eq_nil_iff.mpr, List.append_nil]
  · intro e he
    obtain ⟨i, hi, rfl⟩ := mem_map.mp he
    obtain ⟨h1, h2⟩ := mem_range'_1.mp hi
    simpa using hfree i h1 (by omega)
  · intro e he
    have : e.1 ≠ 0 := fun h0 => hes.nonzero (mem_map.mpr ⟨e, he, h0⟩)
    simpa using this

theorem EdgesOk.edges_perm (h : EdgesOk n es) (hes : HashesOk (es.map Prod.fst)) :
    n.edges.Perm es := by
  cases h with
  | inline hovf hlen hslots hfree =>
    unfold RadixEdges.edges
    rw [inlineEdges_eq hes hlen hslots hfree, hovf]
    simp
  | ovf o hovf hslots ho =>
    have hnone : n.inlineEdges = [] := by
      unfold RadixEdges.inlineEdges
      rw [filter_eq_nil_iff]
      intro e he
      obtain ⟨i, hi, rfl⟩ := mem_map.mp he
      simpa using hslots i (mem_range.mp hi)
    unfold RadixEdges.edges
    rw [hnone, hovf]
    exact ho.stores.items

/-- A lookup finds exactly the edges of the node. -/
theorem EdgesOk.edgeGet_eq_some_iff (h : EdgesOk n es) (hes : HashesOk (es.map Prod.fst)) :
    n.edgeGet x = some k ↔ (x, k) ∈ es := by
  cases h with
  | ovf o hovf hslots ho =>
    unfold RadixEdges.edgeGet
    rw [hovf]
    exact ho.stores.find_eq_some_iff
  | inline hovf hlen hslots hfree =>
    have hkey : ∀ i (h : i < es.length), (n.slots i).1 = (es.map Prod.fst).get ⟨i, by simpa using h⟩ := by
      intro i h
      rw [hslots i h]
      simp
    unfold RadixEdges.edgeGet
    rw [hovf]
    unfold RadixEdges.edgeFind
    rw [Option.bind_eq_some_iff]
    constructor
    · rintro ⟨i, hi, hk⟩
      obtain ⟨hp, hlt, _⟩ := List.find?_range_eq_some.mp hi
      split at hk
      · cases hk
      rename_i hne
      have hi' : i < es.length := by
        by_contra hge
        exact hne (hfree i (by omega) (mem_range.mp hlt))
      have hx : (n.slots i).1 = x := by simpa using hp
      cases hk
      rw [show (x, (n.slots i).2) = n.slots i from Prod.ext hx.symm rfl, hslots i hi']
      exact get_mem _ _
    intro hmem
    obtain ⟨⟨i, hi⟩, hget⟩ := get_of_mem hmem
    have hslot : n.slots i = (x, k) := (hslots i hi).trans hget
    have hx0 : x ≠ 0 := fun h0 => hes.nonzero (mem_map.mpr ⟨_, hmem, h0⟩)
    refine ⟨i, List.find?_range_eq_some.mpr ⟨by simp [hslot], mem_range.mpr (by omega), ?_⟩,
      by simp [hslot, hx0]⟩
    intro j hj
    have hne : (n.slots j).1 ≠ (n.slots i).1 := by
      rw [hkey j (by omega), hkey i hi]
      intro he
      have := (Nodup.get_inj_iff hes.nodup).mp he
      simp only [Fin.mk.injEq] at this
      omega
    rw [hslot] at hne
    simpa using hne

theorem OvfOk.grow {o : RadixOvf} (h : OvfOk o es) (hes : HashesOk (es.map Prod.fst)) :
    OvfOk (RadixEdges.ovfGrow o) es ∧
      (RadixEdges.ovfGrow o).table.cap = o.table.cap * 2 := by
  have hperm := h.stores.items
  have hkeys := hperm.map Prod.fst
  have hcap := h.cap
  have hload := h.load
  obtain ⟨hst, hc⟩ := ProbeTable.stores_ofList edgeHome (o.table.cap * 2) 0 o.table.items
    (by rw [hperm.length_eq]; omega) (hkeys.nodup_iff.mpr hes.nodup)
    (fun h0 => hes.nonzero (hkeys.mem_iff.mp h0))
  have hgrow : RadixEdges.ovfGrow o =
      { o with table := .ofList edgeHome (o.table.cap * 2) 0 o.table.items } := by
    unfold RadixEdges.ovfGrow
    rw [if_pos (by omega)]
  rw [hgrow]
  exact ⟨⟨⟨hst.probed, hst.items.trans hperm⟩, h.used, by rw [hc]; omega, by rw [hc]; omega⟩, hc⟩

theorem OvfOk.add {o : RadixOvf} (h : OvfOk o es) (hes : HashesOk (es.map Prod.fst)) (hx : x ≠ 0)
    (hnew : x ∉ es.map Prod.fst) (k : Nat) : OvfOk (RadixEdges.ovfAdd o x k) (es ++ [(x, k)]) := by
  have hinsert : ∀ o' : RadixOvf, OvfOk o' es → es.length + 1 ≤ o'.table.cap * 7 / 10 →
      OvfOk ⟨o'.used + 1, o'.table.insert edgeHome x k⟩ (es ++ [(x, k)]) := by
    intro o' h' hroom
    refine ⟨h'.stores.insert (by omega) hx hnew k, ?_, ?_, ?_⟩
    · simp [h'.used]
    · simpa [ProbeTable.cap_insert] using h'.cap
    · simpa [ProbeTable.cap_insert] using hroom
  unfold RadixEdges.ovfAdd
  split
  · obtain ⟨hgrow, hcap⟩ := h.grow hes
    have := h.cap
    have := h.load
    exact hinsert _ hgrow (by rw [hcap]; omega)
  · rename_i hroom
    have := h.used
    exact hinsert o h (by omega)

theorem foldl_insert_eq (es : List (UInt64 × Nat)) :
    es.foldl (fun (o : RadixOvf) e => ⟨o.used + 1, o.table.insert edgeHome e.1 e.2⟩)
      ⟨0, .empty 16 0⟩ = ⟨es.length, .ofList edgeHome 16 0 es⟩ := by
  induction es using List.reverseRecOn with
  | nil => rfl
  | append_singleton es e ih => simp [ih, ProbeTable.ofList]

theorem ovfMigrate_eq (n : RadixEdges) : n.ovfMigrate =
    ⟨n.inlineEdges.length, .ofList edgeHome 16 0 n.inlineEdges⟩ := by
  rw [← foldl_insert_eq]
  rfl

theorem OvfOk.migrate (hes : HashesOk (es.map Prod.fst)) (hlen : es.length ≤ inlineSlots) :
    OvfOk ⟨es.length, .ofList edgeHome 16 0 es⟩ es := by
  have hlen : es.length ≤ 8 := hlen
  obtain ⟨hst, hcap⟩ := ProbeTable.stores_ofList edgeHome 16 0 es (by omega) hes.nodup hes.nonzero
  exact ⟨hst, rfl, by rw [hcap], by rw [hcap]; omega⟩

theorem freeInline_eq (hes : HashesOk (es.map Prod.fst)) (hlen : es.length ≤ inlineSlots)
    (hslots : ∀ i (h : i < es.length), n.slots i = es.get ⟨i, h⟩)
    (hfree : ∀ i, es.length ≤ i → i < inlineSlots → (n.slots i).1 = 0) :
    n.freeInline = if es.length < inlineSlots then some es.length else none := by
  have hused : ∀ i, i < es.length → (n.slots i).1 ≠ 0 := by
    intro i hi h0
    rw [hslots i hi] at h0
    exact hes.nonzero (mem_map.mpr ⟨_, get_mem _ _, h0⟩)
  unfold RadixEdges.freeInline
  split
  · rename_i hlt
    refine List.find?_range_eq_some.mpr ⟨?_, mem_range.mpr hlt, fun j hj => ?_⟩
    · simpa using hfree es.length (Nat.le_refl _) hlt
    · simpa using hused j hj
  rename_i hge
  refine List.find?_eq_none.mpr fun i hi => ?_
  have := mem_range.mp hi
  simpa using hused i (by omega)

theorem EdgesOk.edgeAdd (h : EdgesOk n es) (hes : HashesOk (es.map Prod.fst)) (hx : x ≠ 0)
    (hnew : x ∉ es.map Prod.fst) (k : Nat) : EdgesOk (n.edgeAdd x k) (es ++ [(x, k)]) := by
  cases h with
  | ovf o hovf hslots ho =>
    unfold RadixEdges.edgeAdd
    rw [hovf]
    exact .ovf _ rfl hslots (ho.add hes hx hnew k)
  | inline hovf hlen hslots hfree =>
    have hslot := freeInline_eq hes hlen hslots hfree
    unfold RadixEdges.edgeAdd
    rw [hovf]
    by_cases hlt : es.length < inlineSlots
    · rw [if_pos hlt] at hslot
      simp only [hslot]
      refine .inline rfl (by simpa using hlt) (fun i hi => ?_) fun i hi hi' => ?_
      · by_cases he : i = es.length
        · subst he
          simp
        have hi' : i < es.length := by
          simp only [length_append, length_singleton] at hi
          omega
        simp only [Function.update_of_ne he, hslots i hi']
        simp [getElem_append_left hi']
      simp only [length_append, length_singleton] at hi
      have he : i ≠ es.length := by omega
      simp only [Function.update_of_ne he]
      exact hfree i (by omega) hi'
    · rw [if_neg hlt] at hslot
      simp only [hslot, ovfMigrate_eq, inlineEdges_eq hes hlen hslots hfree]
      exact .ovf _ rfl (fun _ _ => rfl) ((OvfOk.migrate hes hlen).add hes hx hnew k)

/-- The loader's insertion is `edge_add`. -/
theorem EdgesOk.ckptEdgeAdd_eq (h : EdgesOk n es) (hes : HashesOk (es.map Prod.fst)) (x : UInt64)
    (k : Nat) : n.ckptEdgeAdd x k = n.edgeAdd x k := by
  cases h with
  | ovf o hovf hslots ho =>
    have hcap := ho.cap
    unfold RadixEdges.ckptEdgeAdd RadixEdges.edgeAdd
    simp only [hovf]
    unfold RadixEdges.ovfAdd RadixEdges.ovfGrow
    rw [if_pos (show o.table.cap ≠ 0 by omega)]
    simp only [gt_iff_lt]
    split <;> rfl
  | inline hovf hlen hslots hfree =>
    have hlen : es.length ≤ 8 := hlen
    have hcap := (ProbeTable.stores_ofList edgeHome 16 0 es (by omega) hes.nodup hes.nonzero).2
    unfold RadixEdges.ckptEdgeAdd RadixEdges.edgeAdd
    simp only [hovf, foldl_insert_eq, ovfMigrate_eq, inlineEdges_eq hes hlen hslots hfree]
    unfold RadixEdges.ovfAdd
    rw [if_neg (by simp only [hcap]; omega)]

/-! ## The slots of a node -/

theorem map_fst_zipIdx (hs : List UInt64) : hs.zipIdx.map Prod.fst = hs := by
  simp

theorem edgesOk_storeOf (h : HashesOk hs) :
    EdgesOk (storeOf hs) hs.zipIdx ∧ ckptStoreOf hs = storeOf hs := by
  induction hs using List.reverseRecOn with
  | nil => exact ⟨EdgesOk.empty, rfl⟩
  | append_singleton hs x ih =>
    obtain ⟨hok, hnew, hx⟩ := h.init
    obtain ⟨hst, hck⟩ := ih hok
    have hzip : (hs ++ [x]).zipIdx = hs.zipIdx ++ [(x, hs.length)] := by
      simp [zipIdx_append]
    have hok' : HashesOk (hs.zipIdx.map Prod.fst) := by
      rw [map_fst_zipIdx]
      exact hok
    have hstep : ∀ add, storeBy add (hs ++ [x]) = add (storeBy add hs) x hs.length := by
      intro add
      simp [storeBy, hzip]
    have hstore : storeOf (hs ++ [x]) = (storeOf hs).edgeAdd x hs.length := hstep _
    have hckpt : ckptStoreOf (hs ++ [x]) = (ckptStoreOf hs).ckptEdgeAdd x hs.length := hstep _
    refine ⟨?_, ?_⟩
    · rw [hstore, hzip]
      exact hst.edgeAdd hok' hx (by rwa [map_fst_zipIdx]) _
    · rw [hckpt, hck, hst.ckptEdgeAdd_eq hok' x, hstore]

theorem edgeGet_storeOf (h : HashesOk hs) : (storeOf hs).edgeGet x = some k ↔ hs[k]? = some x := by
  rw [(edgesOk_storeOf h).1.edgeGet_eq_some_iff (by rwa [map_fst_zipIdx]), mem_zipIdx_iff_getElem?]

theorem edges_storeOf (h : HashesOk hs) : (storeOf hs).edges.Perm hs.zipIdx :=
  (edgesOk_storeOf h).1.edges_perm (by rwa [map_fst_zipIdx])

end Slots

/-! ## The tree -/

/-- Siblings have different hashes, none of them 0. -/
structure TreeOk (t : Radix) : Prop where
  distinct : t.Distinct
  nonzero : t.AllHashes (· ≠ 0)

theorem TreeOk.nil : TreeOk .nil := ⟨trivial, trivial⟩

theorem TreeOk.kids {l : Option RadixLeaf} {kids rest : Radix} (ht : TreeOk (.edge h l kids rest)) :
    TreeOk kids := ⟨ht.distinct.2.1, ht.nonzero.2.1⟩

theorem TreeOk.rest {l : Option RadixLeaf} {kids rest : Radix} (ht : TreeOk (.edge h l kids rest)) :
    TreeOk rest := ⟨ht.distinct.2.2, ht.nonzero.2.2⟩

theorem TreeOk.hashes (ht : TreeOk t) : HashesOk t.hashes :=
  ⟨ht.distinct.nodup_hashes, fun h0 => ht.nonzero.of_mem h0 rfl⟩

theorem childNo_spec (ht : TreeOk t) (hk : t.hashes[k]? = some h) (path : List UInt64) :
    ∃ l kids, childNo t k = some (l, kids) ∧ TreeOk kids ∧
      t.node? (h :: path) = if path = [] then some l else kids.node? path := by
  induction t generalizing k with
  | nil => simp [Trie.hashes] at hk
  | edge h' l kids rest _ ihr =>
    cases k with
    | zero =>
      have he : h' = h := by simpa [Trie.hashes] using hk
      exact ⟨l, kids, rfl, ht.kids, by rw [Trie.node?_edge_cons, if_pos he.symm]⟩
    | succ k =>
      have hk' : rest.hashes[k]? = some h := by simpa [Trie.hashes] using hk
      have hne : h ≠ h' := by
        intro he
        exact ht.distinct.1 (he ▸ mem_of_getElem? hk')
      obtain ⟨l', kids', hc, hok, hnode⟩ := ihr ht.rest hk'
      exact ⟨l', kids', hc, hok, by rw [Trie.node?_edge_cons, if_neg hne, hnode]⟩

theorem radixWalk_eq_node? {store : List UInt64 → RadixEdges}
    (hstore : ∀ hs, HashesOk hs → ∀ x k, (store hs).edgeGet x = some k ↔ hs[k]? = some x)
    (hpath : path ≠ []) (ht : TreeOk t) : radixWalk store t path = t.node? path := by
  induction path generalizing t with
  | nil => exact absurd rfl hpath
  | cons h path ih =>
    unfold radixWalk
    cases hget : (store t.hashes).edgeGet h with
    | none =>
      have hno : h ∉ t.hashes := by
        intro hmem
        obtain ⟨k, hk⟩ := List.getElem?_of_mem hmem
        rw [(hstore _ ht.hashes h k).mpr hk] at hget
        cases hget
      simp only
      rw [Trie.node?_eq_none_of_notMem t h path hno]
    | some k =>
      obtain ⟨l, kids, hc, hok, hnode⟩ :=
        childNo_spec ht ((hstore _ ht.hashes h k).mp hget) path
      simp only [hc, hnode]
      split
      · rfl
      · rename_i hne
        exact ih hne hok

theorem radixWalk_ckptStoreOf (ht : TreeOk t) (hpath : path ≠ []) :
    radixWalk ckptStoreOf t path = t.node? path :=
  radixWalk_eq_node? (fun hs h x k => by rw [(edgesOk_storeOf h).2, edgeGet_storeOf h]) hpath ht

/-! ## Building -/

theorem modifyChild_congr {f g : Radix → Radix}
    (h : ∀ l kids, childNo t k = some (l, kids) → f kids = g kids) :
    modifyChild f t k = modifyChild g t k := by
  induction t generalizing k with
  | nil => rfl
  | edge h' l kids rest _ ihr =>
    cases k with
    | zero => simp only [modifyChild, h l kids rfl]
    | succ k => simp only [modifyChild, ihr h]

theorem modifyChild_insert (ht : TreeOk t) (hk : t.hashes[k]? = some h) (path : List UInt64) :
    modifyChild (fun kids => kids.insert path) t k = t.insert (h :: path) := by
  induction t generalizing k with
  | nil => simp [Trie.hashes] at hk
  | edge h' l kids rest _ ihr =>
    cases k with
    | zero =>
      have he : h = h' := by simpa [Trie.hashes, eq_comm] using hk
      simp only [modifyChild, Trie.insert, he, if_true]
    | succ k =>
      have hk' : rest.hashes[k]? = some h := by simpa [Trie.hashes] using hk
      have hne : h ≠ h' := by
        intro he
        exact ht.distinct.1 (he ▸ mem_of_getElem? hk')
      simp only [modifyChild, Trie.insert, hne, if_false, ihr ht.rest hk']

theorem insert_of_notMem (hno : h ∉ t.hashes) (path : List UInt64) :
    t.insert (h :: path) = t.append (.edge h none (.chain path) .nil) := by
  induction t with
  | nil => rfl
  | edge h' l kids rest _ ihr =>
    have hno' : h ≠ h' ∧ h ∉ rest.hashes := by simpa [Trie.hashes] using hno
    simp only [Trie.insert, Trie.append, hno'.1, if_false, ihr hno'.2]

theorem radixCreate_eq_insert (hpath : 0 ∉ path) (ht : TreeOk t) :
    radixCreate t path = t.insert path := by
  induction path generalizing t with
  | nil => cases t <;> rfl
  | cons h path ih =>
    have hrest : 0 ∉ path := fun h0 => hpath (by simp [h0])
    unfold radixCreate
    cases hget : (storeOf t.hashes).edgeGet h with
    | some k =>
      have hk := (edgeGet_storeOf ht.hashes).mp hget
      simp only
      rw [modifyChild_congr (g := fun kids => kids.insert path), modifyChild_insert ht hk]
      intro l kids hc
      obtain ⟨l', kids', hc', hok, _⟩ := childNo_spec ht hk path
      rw [hc] at hc'
      cases hc'
      exact ih hrest hok
    | none =>
      have hno : h ∉ t.hashes := by
        intro hmem
        obtain ⟨k, hk⟩ := List.getElem?_of_mem hmem
        rw [(edgeGet_storeOf ht.hashes).mpr hk] at hget
        cases hget
      simp only
      rw [insert_of_notMem hno, ih hrest TreeOk.nil]
      rfl

/-- Trees that walks and leaves build. -/
inductive RadixBuilt : Radix → Prop
  | nil : RadixBuilt .nil
  | walk {t : Radix} (h : RadixBuilt t) (path : List UInt64) (hlen : path.length < 2 ^ 31)
      (hpath : 0 ∉ path) : RadixBuilt (radixCreate t path)
  | leaf {t : Radix} (h : RadixBuilt t) (node : List UInt64) (lf : Option RadixLeaf) :
      RadixBuilt (t.setLeaf node lf)

theorem RadixBuilt.ok (h : RadixBuilt t) : TreeOk t := by
  induction h with
  | nil => exact TreeOk.nil
  | walk h path _ hpath ih =>
    rw [radixCreate_eq_insert hpath ih]
    exact ⟨ih.distinct.insert path, ih.nonzero.insert path fun x hx h0 => hpath (h0 ▸ hx)⟩
  | leaf h node lf ih => exact ⟨ih.distinct.setLeaf node lf, ih.nonzero.setLeaf node lf⟩

theorem RadixBuilt.height_lt (h : RadixBuilt t) : t.height < 2 ^ 31 := by
  induction h with
  | nil => exact Nat.two_pow_pos 31
  | @walk t h path hlen hpath ih =>
    rw [radixCreate_eq_insert hpath h.ok]
    have hle := Trie.height_insert_le t path
    omega
  | leaf h node lf ih => rwa [Trie.height_setLeaf]

end KvTier.Analysis
