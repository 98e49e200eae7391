import KvTier.Lib.TrieBuild
import KvTier.Model.Checkpoint
import KvTier.Analysis.IndexFacts

/-!
# Loading what was checkpointed

The loader rebuilds the tree the writer walked.
-/

namespace KvTier.Analysis

open Function KvTier.Lib KvTier.Model List Option

/-! ## The shape pool -/

/-- Shapes have their place as id and differ. -/
structure PoolOk (shapes : List Shape) : Prop where
  id : ∀ (i : Nat) (s : Shape), shapes[i]? = some s → s.id = i
  nodup : (shapes.map (·.lens)).Nodup
  cap : ∀ s ∈ shapes, s.lens.length ≤ maxLayersCap

theorem PoolOk.nil : PoolOk [] where
  id i s h := by simp at h
  nodup := by simp
  cap s h := by simp at h

theorem PoolOk.getElem? {shapes : List Shape} (h : PoolOk shapes) {s : Shape} (hs : s ∈ shapes) :
    shapes[s.id]? = some s := by
  obtain ⟨i, hi, rfl⟩ := mem_iff_getElem.mp hs
  have hget : shapes[i]? = some shapes[i] := List.getElem?_eq_getElem hi
  rw [h.id i _ hget]
  exact hget

section Interning

variable (items : List Shape) (lens : List Nat)

theorem shapePoolIntern_cases :
    (∃ s ∈ items, s.lens = lens ∧ shapePoolIntern items lens = (items, s)) ∨
    ((∀ s ∈ items, s.lens ≠ lens) ∧
      shapePoolIntern items lens =
        (items ++ [⟨items.length, lens⟩], ⟨items.length, lens⟩)) := by
  unfold shapePoolIntern
  cases hf : items.find? fun s => s.lens == lens with
  | some s =>
    left
    have hlens := List.find?_some hf
    exact ⟨s, List.mem_of_find?_eq_some hf, by simpa using hlens, rfl⟩
  | none =>
    right
    refine ⟨?_, rfl⟩
    intro s hs
    simpa using List.find?_eq_none.mp hf s hs

theorem lens_shapePoolIntern :
    (shapePoolIntern items lens).2.lens = lens := by
  rcases shapePoolIntern_cases items lens with ⟨s, _, hs, he⟩ | ⟨_, he⟩
  · rw [he]; exact hs
  · rw [he]

theorem mem_shapePoolIntern :
    (shapePoolIntern items lens).2 ∈ (shapePoolIntern items lens).1 := by
  rcases shapePoolIntern_cases items lens with ⟨s, hs, _, he⟩ | ⟨_, he⟩
  · rw [he]; exact hs
  · rw [he]; simp

theorem subset_shapePoolIntern {s : Shape} (hs : s ∈ items) :
    s ∈ (shapePoolIntern items lens).1 := by
  rcases shapePoolIntern_cases items lens with ⟨_, _, _, he⟩ | ⟨_, he⟩
  · rw [he]; exact hs
  · rw [he]; simp [hs]

end Interning

theorem PoolOk.append {items : List Shape} (h : PoolOk items) {lens : List Nat}
    (hnew : ∀ s ∈ items, s.lens ≠ lens) (hcap : lens.length ≤ maxLayersCap) :
    PoolOk (items ++ [⟨items.length, lens⟩]) where
  id i s hs := by
    rcases Nat.lt_or_ge i items.length with hi | hi
    · rw [List.getElem?_append_left hi] at hs
      exact h.id i s hs
    rw [List.getElem?_append_right hi] at hs
    have h0 : i - items.length = 0 := by
      by_contra hne
      rw [List.getElem?_eq_none (by simp; omega)] at hs
      cases hs
    rw [h0] at hs
    simp only [List.getElem?_cons_zero, Option.some.injEq] at hs
    subst hs
    simp only
    omega
  nodup := by
    rw [map_append, nodup_append]
    refine ⟨h.nodup, by simp, ?_⟩
    intro a ha b hb
    obtain ⟨s, hs, rfl⟩ := List.mem_map.mp ha
    simp only [map_cons, map_nil, mem_singleton] at hb
    subst hb
    exact hnew s hs
  cap s hs := by
    rcases mem_append.mp hs with hs | hs
    · exact h.cap s hs
    · simp only [mem_singleton] at hs
      subst hs
      exact hcap

theorem PoolOk.intern {items : List Shape} (h : PoolOk items) {lens : List Nat}
    (hcap : lens.length ≤ maxLayersCap) : PoolOk (shapePoolIntern items lens).1 := by
  rcases shapePoolIntern_cases items lens with ⟨_, _, _, he⟩ | ⟨hnew, he⟩
  · rw [he]; exact h
  · rw [he]; exact h.append hnew hcap

theorem ckptLoadShapes_map (pre rest : List Shape) (h : PoolOk (pre ++ rest)) :
    ckptLoadShapes pre (rest.map (·.lens)) = (pre ++ rest, none) := by
  induction rest generalizing pre with
  | nil => simp [ckptLoadShapes]
  | cons s rest ih =>
    have hcap : ¬ maxLayersCap < s.lens.length := by
      have := h.cap s (by simp)
      omega
    have hid : s.id = pre.length := by
      apply h.id pre.length s
      simp
    have hnew : ∀ s' ∈ pre, s'.lens ≠ s.lens := by
      intro s' hs' he
      have hnd := h.nodup
      rw [map_append, map_cons, nodup_append] at hnd
      exact hnd.2.2 s'.lens (List.mem_map_of_mem hs') s.lens (by simp) he
    have hintern : (shapePoolIntern pre s.lens).1 = pre ++ [s] := by
      rcases shapePoolIntern_cases pre s.lens with ⟨s', hs', he, _⟩ | ⟨_, he⟩
      · exact absurd he (hnew s' hs')
      · rw [he, ← hid]
    simp only [map_cons, ckptLoadShapes, if_neg hcap, hintern]
    rw [ih (pre ++ [s]) (by simpa using h)]
    simp

/-! ## The tree -/

/-- A leaf as it is after loading: nobody has it pinned. -/
def unpinned (lf : RadixLeaf) : RadixLeaf := { lf with refcnt := 0 }

section Load

variable (shapes : List Shape) {s : CkptLoad} {d : Nat} {q : Path}

theorem ckptLoadRec_internal (h : UInt64) (hd : 1 ≤ d) (hsp : d ≤ s.sp) (hcap : d < ckptStackCap)
    (hq : s.stack (d - 1) = some q) :
    ckptLoadRec shapes s (.internal d h) = .ok
      { tree := s.tree.appendAt q (.edge h none .nil .nil)
        stack := update s.stack d (some (q ++ [h]))
        sp := d + 1
        nLeaves := s.nLeaves } := by
  have hmin : min s.sp d = d := Nat.min_eq_right hsp
  have h0 : d ≠ 0 := by omega
  have hle : ¬ ckptStackCap < d := by omega
  simp [ckptLoadRec, hmin, h0, hle, hq, hcap]

theorem ckptLoadRec_leaf (h : UInt64) (lf : RadixLeaf) (hsp : d + 1 ≤ s.sp)
    (hq : s.stack d = some q) :
    ckptLoadRec shapes s (.leaf (ckptLeafRec d h lf)) = .ok
      { tree := s.tree.setLeaf q (some (ckptLeaf shapes (ckptLeafRec d h lf)))
        stack := s.stack
        sp := d + 1
        nLeaves := s.nLeaves + 1 } := by
  have hmin : min s.sp (d + 1) = d + 1 := Nat.min_eq_right hsp
  simp [ckptLoadRec, ckptLeafRec, hmin, hq]

theorem ckptLoadRecs_append {s' : CkptLoad} {rs : List CkptRec}
    (h : ckptLoadRecs shapes s rs = (s', none)) (rs' : List CkptRec) :
    ckptLoadRecs shapes s (rs ++ rs') = ckptLoadRecs shapes s' rs' := by
  induction rs generalizing s with
  | nil =>
    simp only [ckptLoadRecs, Prod.mk.injEq, and_true] at h
    subst h
    rfl
  | cons r rs ih =>
    simp only [cons_append, ckptLoadRecs] at h ⊢
    cases hr : ckptLoadRec shapes s r with
    | ok s1 =>
      rw [hr] at h
      exact ih h
    | error e =>
      rw [hr] at h
      simp at h

/-- The leaf that is read back for a leaf that was written. -/
def reloaded (shapes : List Shape) (lf : RadixLeaf) : RadixLeaf :=
  { lf with refcnt := 0, shape := (lf.shape.map (·.id)).bind (shapes[·]?) }

end Load

/-- What the loader keeps of a subtree at depth `d`, and its error. -/
def loadedPart (shapes : List Shape) : Nat → Radix → Radix × Option CkptErr
  | _, .nil => (.nil, none)
  | d, .edge h l kids rest =>
    if ckptStackCap < d then (.nil, some .fault)
    else if d = ckptStackCap ∧ l.isSome then (.edge h none .nil .nil, some .eio)
    else match loadedPart shapes (d + 1) kids with
      | (kids', some e) => (.edge h (l.map (reloaded shapes)) kids' .nil, some e)
      | (kids', none) =>
        (.edge h (l.map (reloaded shapes)) kids' (loadedPart shapes d rest).1,
          (loadedPart shapes d rest).2)

theorem ckptLoadRecs_append_error (shapes : List Shape) {s s' : CkptLoad} {e : CkptErr}
    {rs : List CkptRec} (h : ckptLoadRecs shapes s rs = (s', some e)) (rs' : List CkptRec) :
    ckptLoadRecs shapes s (rs ++ rs') = (s', some e) := by
  induction rs generalizing s with
  | nil => simp [ckptLoadRecs] at h
  | cons r rs ih =>
    simp only [cons_append, ckptLoadRecs] at h ⊢
    cases hr : ckptLoadRec shapes s r with
    | ok s1 =>
      rw [hr] at h
      exact ih h
    | error e1 =>
      rw [hr] at h
      exact h

/-- The node stack has `q` at depth `d`. -/
structure StackAt (s : CkptLoad) (d : Nat) (q : Path) : Prop where
  sp : min d ckptStackCap ≤ s.sp
  top : d ≤ ckptStackCap → s.stack (d - 1) = some q

section Edge

variable (shapes : List Shape) {s : CkptLoad} {d : Nat} {q : Path} (h : UInt64)

theorem ckptLoadRec_internal_full (hd : d = ckptStackCap) (hs : StackAt s d q) :
    ckptLoadRec shapes s (.internal d h) =
      .ok { s with tree := s.tree.appendAt q (.edge h none .nil .nil), sp := d } := by
  have hsp := hs.sp
  have hq := hs.top (by omega)
  have hmin : min s.sp d = d := by omega
  have h0 : d ≠ 0 := by rw [hd]; decide
  have hle : ¬ ckptStackCap < d := by omega
  have hlt : ¬ d < ckptStackCap := by omega
  simp [ckptLoadRec, hmin, h0, hle, hq, hlt]

theorem ckptLoadRec_internal_deep (hd : ckptStackCap < d) (hs : StackAt s d q) :
    ckptLoadRec shapes s (.internal d h) = .error .fault := by
  have hsp := hs.sp
  have hpos : 0 < ckptStackCap := by decide
  have hmin : min s.sp d ≠ 0 := by omega
  simp [ckptLoadRec, hmin, hd]

theorem ckptLoadRecs_edge (hd : 1 ≤ d) (hcap : d ≤ ckptStackCap) (hs : StackAt s d q)
    (hnew : ∀ k, s.tree.kidsAt q = some k → h ∉ k.hashes) (l : Option RadixLeaf)
    (hleaf : ¬ (d = ckptStackCap ∧ l.isSome)) :
    ∃ s', ckptLoadRecs shapes s (.internal d h ::
        (l.toList.map fun lf => .leaf (ckptLeafRec d h lf))) = (s', none) ∧
      s'.tree = s.tree.appendAt q (.edge h (l.map (reloaded shapes)) .nil .nil) ∧
      StackAt s' (d + 1) (q ++ [h]) ∧ (∀ i < d, s'.stack i = s.stack i) ∧
      s'.nLeaves = s.nLeaves + l.toList.length := by
  have hsp := hs.sp
  have hq := hs.top hcap
  by_cases hlt : d < ckptStackCap
  · have h1 := ckptLoadRec_internal shapes h hd (by omega) hlt hq
    have hstack : ∀ i < d, update s.stack d (some (q ++ [h])) i = s.stack i :=
      fun i hi => update_of_ne (by omega) _ _
    have hpush : ∀ s' : CkptLoad, s'.sp = d + 1 →
        s'.stack = update s.stack d (some (q ++ [h])) → StackAt s' (d + 1) (q ++ [h]) :=
      fun s' hsp' hstack' => ⟨by omega, fun _ => by simp [hstack']⟩
    cases l with
    | none =>
      refine ⟨⟨s.tree.appendAt q (.edge h none .nil .nil),
        update s.stack d (some (q ++ [h])), d + 1, s.nLeaves⟩, ?_, rfl,
        hpush _ rfl rfl, hstack, rfl⟩
      simp only [toList_none, map_nil, ckptLoadRecs, h1]
    | some lf =>
      have hlf := ckptLoadRec_leaf shapes (d := d) (q := q ++ [h])
        (s := { tree := s.tree.appendAt q (.edge h none .nil .nil)
                stack := update s.stack d (some (q ++ [h]))
                sp := d + 1
                nLeaves := s.nLeaves }) h lf (Nat.le_refl _) (by simp)
      rw [Trie.setLeaf_appendAt_edge hnew, show ckptLeaf shapes (ckptLeafRec d h lf) =
        reloaded shapes lf from rfl] at hlf
      refine ⟨⟨s.tree.appendAt q (.edge h (some (reloaded shapes lf)) .nil .nil),
        update s.stack d (some (q ++ [h])), d + 1, s.nLeaves + 1⟩, ?_, rfl,
        hpush _ rfl rfl, hstack, rfl⟩
      simp only [toList_some, map_cons, map_nil, ckptLoadRecs, h1, hlf]
  have hdeq : d = ckptStackCap := by omega
  have h1 := ckptLoadRec_internal_full shapes h hdeq hs
  cases l with
  | some lf => exact absurd ⟨hdeq, rfl⟩ hleaf
  | none =>
    refine ⟨{ s with tree := s.tree.appendAt q (.edge h none .nil .nil), sp := d }, ?_, rfl,
      ⟨by simp only; omega, fun hc => absurd hc (by omega)⟩, fun _ _ => rfl, rfl⟩
    simp only [toList_none, map_nil, ckptLoadRecs, h1]

theorem ckptLoadRecs_deep_leaf (hd : d = ckptStackCap) (hs : StackAt s d q) (lf : RadixLeaf)
    (rs : List CkptRec) :
    ckptLoadRecs shapes s (.internal d h :: .leaf (ckptLeafRec d h lf) :: rs) =
      ({ s with tree := s.tree.appendAt q (.edge h none .nil .nil), sp := d }, some .eio) := by
  have h1 := ckptLoadRec_internal_full shapes h hd hs
  simp only [ckptLoadRecs, h1]
  simp [ckptLoadRec, ckptLeafRec]

end Edge

/-- The loader appends the part of the tree that its stack has room for. -/
theorem ckptLoadRecs_eq (shapes : List Shape) (t : Radix) (d : Nat) (q : Path) (s : CkptLoad)
    (hd : 1 ≤ d) (hs : StackAt s d q) (ht : t.Distinct)
    (hdis : ∀ k, s.tree.kidsAt q = some k → ∀ x ∈ t.hashes, x ∉ k.hashes) :
    ∃ s', ckptLoadRecs shapes s (ckptWriteRec d t) = (s', (loadedPart shapes d t).2) ∧
      s'.tree = s.tree.appendAt q (loadedPart shapes d t).1 ∧
      s'.nLeaves = s.nLeaves + ((loadedPart shapes d t).1.entries q).length ∧
      ((loadedPart shapes d t).2 = none →
        min d ckptStackCap ≤ s'.sp ∧ ∀ i < d, s'.stack i = s.stack i) := by
  induction t generalizing d q s with
  | nil =>
    exact ⟨s, rfl, by simp [loadedPart], by simp [loadedPart, Trie.entries],
      fun _ => ⟨hs.sp, fun _ _ => rfl⟩⟩
  | edge h l kids rest ihk ihr =>
    obtain ⟨hhr, hdk, hdr⟩ := ht
    have hnew : ∀ k, s.tree.kidsAt q = some k → h ∉ k.hashes :=
      fun k hk => hdis k hk h (by simp [Trie.hashes])
    have hw : ckptWriteRec d (.edge h l kids rest) =
        (.internal d h :: (l.toList.map fun lf => .leaf (ckptLeafRec d h lf))) ++
          (ckptWriteRec (d + 1) kids ++ ckptWriteRec d rest) := by
      simp [ckptWriteRec]
    by_cases hdeep : ckptStackCap < d
    · have hrec := ckptLoadRec_internal_deep shapes h hdeep hs
      refine ⟨s, ?_, ?_, ?_, ?_⟩
      · rw [hw]
        simp [ckptLoadRecs, hrec, loadedPart, hdeep]
      · simp [loadedPart, hdeep]
      · simp [loadedPart, hdeep, Trie.entries]
      · simp [loadedPart, hdeep]
    have hcap : d ≤ ckptStackCap := Nat.le_of_not_lt hdeep
    by_cases hleaf : d = ckptStackCap ∧ l.isSome
    · obtain ⟨hdeq, hl⟩ := hleaf
      obtain ⟨lf, rfl⟩ := isSome_iff_exists.mp hl
      have hpart : loadedPart shapes d (.edge h (some lf) kids rest) =
          (.edge h none .nil .nil, some .eio) := by
        rw [loadedPart, if_neg hdeep, if_pos ⟨hdeq, rfl⟩]
      rw [hw, hpart]
      simp only [toList_some, map_cons, map_nil, cons_append, nil_append]
      rw [ckptLoadRecs_deep_leaf shapes h hdeq hs lf]
      exact ⟨_, rfl, rfl, by simp [Trie.entries], by simp⟩
    -- the edge and its leaf, then its children below the node that was just built
    obtain ⟨s2, hs2, htree2, hst2, hstack2, hn2⟩ :=
      ckptLoadRecs_edge shapes h hd hcap hs hnew l hleaf
    obtain ⟨s3, hs3, htree3, hn3, hst3⟩ := ihk (d + 1) (q ++ [h]) s2 (by omega) hst2 hdk (by
      intro k hk x _
      rw [htree2] at hk
      rw [Trie.kidsAt_appendAt_edge hnew _ _ _ k hk]
      simp [Trie.hashes])
    rw [htree2, Trie.appendAt_appendAt_edge hnew] at htree3
    have hpart : loadedPart shapes d (.edge h l kids rest) =
        match loadedPart shapes (d + 1) kids with
        | (kids', some e) => (.edge h (l.map (reloaded shapes)) kids' .nil, some e)
        | (kids', none) =>
          (.edge h (l.map (reloaded shapes)) kids' (loadedPart shapes d rest).1,
            (loadedPart shapes d rest).2) := by
      rw [loadedPart, if_neg hdeep, if_neg hleaf]
    have hlen : ∀ kids' rest' : Radix,
        ((Trie.edge h (l.map (reloaded shapes)) kids' rest').entries q).length =
          l.toList.length + (kids'.entries (q ++ [h])).length + (rest'.entries q).length := by
      intro kids' rest'
      cases l with
      | none => simp [Trie.entries]
      | some lf => simp [Trie.entries]; omega
    cases hk : loadedPart shapes (d + 1) kids with
    | mk kids' e =>
      rw [hk] at hs3 htree3 hn3 hst3 hpart
      cases e with
      | some e =>
        simp only at hpart hs3
        rw [hpart]
        refine ⟨s3, ?_, ?_, ?_, by simp⟩
        · rw [hw, ckptLoadRecs_append shapes hs2, ckptLoadRecs_append_error shapes hs3]
        · rw [htree3]
          simp [Trie.append]
        · rw [hlen, hn3, hn2]
          simp only [Trie.entries, length_nil]
          omega
      | none =>
        -- its siblings, below the same parent as the edge
        simp only at hpart hs3
        obtain ⟨hsp3, hstack3⟩ := hst3 rfl
        have hst : StackAt s3 d q := by
          refine ⟨by omega, fun hc => ?_⟩
          rw [hstack3 (d - 1) (by omega), hstack2 (d - 1) (by omega)]
          exact hs.top hc
        obtain ⟨s4, hs4, htree4, hn4, hst4⟩ := ihr d q s3 hd hst hdr (by
            intro k hk x hx
            rw [htree3, Trie.kidsAt_appendAt] at hk
            obtain ⟨k0, hk0, rfl⟩ := map_eq_some_iff.mp hk
            have hx1 : x ∉ k0.hashes := hdis k0 hk0 x (by simp [Trie.hashes, hx])
            have hx2 : x ≠ h := fun he => hhr (he ▸ hx)
            simp [Trie.hashes, hx1, hx2])
        rw [hpart]
        refine ⟨s4, ?_, ?_, ?_, ?_⟩
        · rw [hw, ckptLoadRecs_append shapes hs2, ckptLoadRecs_append shapes hs3, hs4]
        · rw [htree4, htree3, Trie.appendAt_appendAt]
          simp [Trie.append]
        · rw [hlen, hn4, hn3, hn2]
          simp only
          omega
        intro he
        obtain ⟨hsp4, hstack4⟩ := hst4 he
        refine ⟨hsp4, fun i hi => ?_⟩
        rw [hstack4 i hi, hstack3 i (by omega), hstack2 i hi]

theorem loadedPart_ok_iff (shapes : List Shape) (t : Radix) (d : Nat) (ht : t.Distinct) :
    (loadedPart shapes d t).2 = none ↔ ∀ p v, t.node? p = some v →
      d + p.length ≤ ckptStackCap + 1 ∧ (v.isSome → d + p.length ≤ ckptStackCap) := by
  induction t generalizing d with
  | nil => simp [loadedPart]
  | edge h l kids rest ihk ihr =>
    have hall := Trie.forall_node?_edge ht fun p v =>
      d + p.length ≤ ckptStackCap + 1 ∧ (v.isSome → d + p.length ≤ ckptStackCap)
    obtain ⟨_, hdk, hdr⟩ := ht
    rw [hall, ← ihr d hdr]
    have hkids : (loadedPart shapes (d + 1) kids).2 = none ↔ ∀ p v, kids.node? p = some v →
        d + (h :: p).length ≤ ckptStackCap + 1 ∧
          (v.isSome → d + (h :: p).length ≤ ckptStackCap) := by
      rw [ihk (d + 1) hdk]
      simp only [length_cons, Nat.add_right_comm d 1, Nat.add_assoc]
    rw [← hkids]
    -- the three ways to go wrong: the edge is too deep, its leaf is, something below or beside it
    rw [loadedPart]
    by_cases hdeep : ckptStackCap < d
    · rw [if_pos hdeep]
      simp only [reduceCtorEq, length_singleton, false_iff]
      rintro ⟨⟨h1, _⟩, _⟩
      omega
    rw [if_neg hdeep]
    by_cases hleaf : d = ckptStackCap ∧ l.isSome
    · rw [if_pos hleaf]
      simp [hleaf.1, hleaf.2]
    rw [if_neg hleaf]
    have hown : d + [h].length ≤ ckptStackCap + 1 ∧ (l.isSome → d + [h].length ≤ ckptStackCap) := by
      refine ⟨by simp; omega, fun hl => ?_⟩
      have : d ≠ ckptStackCap := fun he => hleaf ⟨he, hl⟩
      simp only [length_singleton]
      omega
    rw [and_iff_right hown]
    cases hk : loadedPart shapes (d + 1) kids with
    | mk kids' e => cases e <;> simp

theorem loadedPart_eq_map (shapes : List Shape) (t : Radix) (d : Nat)
    (h : (loadedPart shapes d t).2 = none) :
    (loadedPart shapes d t).1 = t.map (reloaded shapes) := by
  induction t generalizing d with
  | nil => rfl
  | edge x l kids rest ihk ihr =>
    rw [loadedPart] at h ⊢
    by_cases hdeep : ckptStackCap < d
    · simp [hdeep] at h
    by_cases hleaf : d = ckptStackCap ∧ l.isSome
    · simp [hleaf] at h
    rw [if_neg hdeep, if_neg hleaf] at h ⊢
    have hk := ihk (d + 1)
    cases hpart : loadedPart shapes (d + 1) kids with
    | mk kids' e =>
      rw [hpart] at h hk
      cases e with
      | some e => cases h
      | none =>
        have hkids : kids' = kids.map (reloaded shapes) := hk rfl
        simp only at h ⊢
        rw [ihr d h, hkids]
        rfl

/-! ## The whole file -/

/-- An index whose checkpoint loads. -/
structure Loadable (idx : Index) : Prop where
  height : idx.tree.height < ckptStackCap
  pool : PoolOk idx.shapes
  shape : ∀ q lf, idx.tree.leafAt q = some lf → ∀ sh, lf.shape = some sh → sh ∈ idx.shapes

namespace Loadable

variable {idx : Index}

theorem resolveNode (h : Loadable idx) (p : UInt64) (g : Nat) {path : Path}
    (hlen : path.length < ckptStackCap) : Loadable (resolveNode idx p g path).1 where
  height := by
    unfold Model.resolveNode
    split
    · exact h.height
    have hle := Trie.height_insert_le idx.tree path
    have hh := h.height
    simp only
    omega
  pool := by rw [shapes_resolveNode]; exact h.pool
  shape q lf hl sh hsh := by
    rw [leafAt_resolveNode] at hl
    rw [shapes_resolveNode]
    exact h.shape q lf hl sh hsh

theorem publish (h : Loadable idx) {node : Path} {a : PublishArgs}
    (hn : (idx.tree.node? node).isSome) (ha : ∀ sh, a.shape = some sh → sh ∈ idx.shapes) :
    Loadable (idx.publish node a) where
  height := by simpa [Index.publish] using h.height
  pool := h.pool
  shape q lf hl sh hsh := by
    rw [leafAt_publish idx node a hn] at hl
    split at hl
    · rcases shape_leafPublish _ _ _ hl with he | ⟨lf0, hold, he⟩
      · exact ha sh (he ▸ hsh)
      · exact h.shape node lf0 hold sh (he ▸ hsh)
    · exact h.shape q lf hl sh hsh

theorem drop (h : Loadable idx) (node : Path) : Loadable (idx.drop node) where
  height := by
    unfold Index.drop
    split
    · exact h.height
    · simpa using h.height
  pool := by rw [shapes_drop]; exact h.pool
  shape q lf hl sh hsh := by
    rw [leafAt_drop] at hl
    rw [shapes_drop]
    split at hl
    · cases hl
    · exact h.shape q lf hl sh hsh

theorem intern (h : Loadable idx) {lens : List Nat} (hcap : lens.length ≤ maxLayersCap) :
    Loadable { idx with shapes := (shapePoolIntern idx.shapes lens).1 } where
  height := h.height
  pool := h.pool.intern hcap
  shape q lf hl sh hsh := subset_shapePoolIntern _ _ (h.shape q lf hl sh hsh)

end Loadable

/-- What the loader makes of a checkpoint of the index. -/
def loadedIndex (idx : Index) : Index where
  tree := idx.tree.map unpinned
  side := []
  shapes := idx.shapes
  nLeaves := (idx.tree.entries []).length
  oob := false

theorem ckptLoad_ckptWrite_part {idx : Index} (hs : idx.tree.Distinct) (hp : PoolOk idx.shapes)
    (ver nDevs regionCnt regionSizePages : Nat) :
    ckptLoad (some (ckptWrite idx ver nDevs regionCnt regionSizePages)) nDevs regionCnt
        regionSizePages =
      ({ Index.empty with
          tree := (loadedPart idx.shapes 1 idx.tree).1
          shapes := idx.shapes
          nLeaves := ((loadedPart idx.shapes 1 idx.tree).1.entries []).length },
        (loadedPart idx.shapes 1 idx.tree).2) := by
  have hshapes := ckptLoadShapes_map [] idx.shapes (by simpa using hp)
  simp only [nil_append] at hshapes
  obtain ⟨s', hload, htree, hn, _⟩ := ckptLoadRecs_eq idx.shapes idx.tree 1 [] CkptLoad.init
    (Nat.le_refl _) ⟨by decide, fun _ => rfl⟩ hs (by
      intro k hk x _
      simp only [CkptLoad.init, Trie.kidsAt_root, Option.some.injEq] at hk
      subst hk
      simp [Trie.hashes])
  have htree' : s'.tree = (loadedPart idx.shapes 1 idx.tree).1 := by
    rw [htree]
    simp [CkptLoad.init, Trie.appendAt, Trie.append]
  have hn' : s'.nLeaves = ((loadedPart idx.shapes 1 idx.tree).1.entries []).length := by
    rw [hn]
    simp [CkptLoad.init]
  simp [ckptLoad, ckptWrite, hshapes, hload, htree', hn']

/-- Nothing is read from a file that was written for another geometry. -/
theorem ckptLoad_otherGeometry (idx : Index) (ver : Nat) {n c z nDevs regionCnt regionSizePages : Nat}
    (h : ¬ (n = nDevs ∧ c = regionCnt ∧ z = regionSizePages)) :
    (ckptLoad (some (ckptWrite idx ver n c z)) nDevs regionCnt regionSizePages).1 = Index.empty := by
  have hne : n ≠ nDevs ∨ c ≠ regionCnt ∨ z ≠ regionSizePages := by
    by_contra hc
    simp only [not_or, not_not] at hc
    exact h hc
  simp [ckptLoad, ckptWrite, hne]

theorem ckptLoad_ckptWrite {idx : Index} (hs : idx.tree.Distinct) (hl : Loadable idx)
    (ver nDevs regionCnt regionSizePages : Nat) :
    ckptLoad (some (ckptWrite idx ver nDevs regionCnt regionSizePages)) nDevs regionCnt
        regionSizePages = (loadedIndex idx, none) := by
  have hok : (loadedPart idx.shapes 1 idx.tree).2 = none := by
    refine (loadedPart_ok_iff _ _ _ hs).mpr fun p v hv => ?_
    have hle := Trie.length_le_height (by simp [hv] : (idx.tree.node? p).isSome)
    have hh := hl.height
    exact ⟨by omega, fun _ => by omega⟩
  -- every shape of the tree is in the pool, so it is read back as itself
  have hmap : idx.tree.map (reloaded idx.shapes) = idx.tree.map unpinned := by
    apply Trie.map_congr _ _ _ []
    intro e he
    have hleaf := (Trie.mem_entries_root idx.tree hs e.1 e.2).mp he
    unfold reloaded unpinned
    cases hsh : e.2.shape with
    | none => simp
    | some sh => simp [hl.pool.getElem? (hl.shape _ _ hleaf sh hsh)]
  rw [ckptLoad_ckptWrite_part hs hl.pool, hok, loadedPart_eq_map _ _ _ hok, hmap]
  simp [Index.empty, loadedIndex, Trie.entries_map]

/-! ## The side table of a loaded tree -/

theorem sideGet_foldl (es : List (Path × RadixLeaf)) (t : List SideSlot)
    (hd : ∀ e ∈ es, ∀ e' ∈ es, e.2.prefixId = e'.2.prefixId → groupOf e.1 = groupOf e'.1 →
      e.1 = e'.1)
    (p : UInt64) (g : Nat) (q : Path) :
    sideGet (es.foldl (fun t e => sidePut t e.2.prefixId (groupOf e.1) e.1) t) p g = some q ↔
      (∃ e ∈ es, e.2.prefixId = p ∧ groupOf e.1 = g ∧ e.1 = q) ∨
      ((∀ e ∈ es, ¬ (e.2.prefixId = p ∧ groupOf e.1 = g)) ∧ sideGet t p g = some q) := by
  induction es generalizing t with
  | nil => simp
  | cons e es ih =>
    rw [foldl_cons, ih _ (fun a ha b hb => hd a (by simp [ha]) b (by simp [hb])), sideGet_sidePut]
    by_cases hk : e.2.prefixId = p ∧ groupOf e.1 = g
    · -- the key of the first leaf: a later leaf with it lies at the same node
      have hsame : ∀ e' ∈ es, e'.2.prefixId = p → groupOf e'.1 = g → e'.1 = e.1 := by
        intro e' he' h1 h2
        exact hd e' (by simp [he']) e (by simp) (h1.trans hk.1.symm) (h2.trans hk.2.symm)
      rw [if_pos ⟨hk.1.symm, hk.2.symm⟩]
      constructor
      · rintro (⟨e', he', h⟩ | ⟨_, hq⟩)
        · exact Or.inl ⟨e', by simp [he'], h⟩
        · exact Or.inl ⟨e, by simp, hk.1, hk.2, Option.some.inj hq⟩
      rintro (⟨e', he', h1, h2, h3⟩ | ⟨hall, _⟩)
      · have hq : e.1 = q := by
          rcases mem_cons.mp he' with rfl | he'
          · exact h3
          · rw [← hsame e' he' h1 h2]; exact h3
        by_cases hex : ∃ e'' ∈ es, e''.2.prefixId = p ∧ groupOf e''.1 = g
        · obtain ⟨e'', he'', h1'', h2''⟩ := hex
          exact Or.inl ⟨e'', he'', h1'', h2'', (hsame e'' he'' h1'' h2'').trans hq⟩
        · refine Or.inr ⟨fun e'' he'' h'' => hex ⟨e'', he'', h''⟩, by rw [hq]⟩
      · exact absurd hk (hall e (by simp))
    rw [if_neg (fun h => hk ⟨h.1.symm, h.2.symm⟩)]
    simp only [mem_cons, exists_eq_or_imp, forall_eq_or_imp]
    constructor
    · rintro (h | ⟨hall, hq⟩)
      · exact Or.inl (Or.inr h)
      · exact Or.inr ⟨⟨hk, hall⟩, hq⟩
    rintro ((⟨h1, h2, _⟩ | h) | ⟨⟨_, hall⟩, hq⟩)
    · exact absurd ⟨h1, h2⟩ hk
    · exact Or.inl h
    · exact Or.inr ⟨hall, hq⟩

theorem sideGet_sideBuild (idx : Index) (hdist : idx.tree.Distinct) (hside : idx.side = [])
    (huniq : ∀ q lf q' lf', idx.tree.leafAt q = some lf → idx.tree.leafAt q' = some lf' →
      lf.prefixId = lf'.prefixId → groupOf q = groupOf q' → q = q')
    (p : UInt64) (g : Nat) (q : Path) :
    sideGet (sideBuild idx).side p g = some q ↔
      ∃ lf, idx.tree.leafAt q = some lf ∧ lf.prefixId = p ∧ groupOf q = g := by
  have hmem : ∀ e ∈ idx.tree.entries [], idx.tree.leafAt e.1 = some e.2 :=
    fun e he => (Trie.mem_entries_root idx.tree hdist e.1 e.2).mp he
  simp only [sideBuild]
  rw [sideGet_foldl _ _ (fun e he e' he' h1 h2 =>
    huniq e.1 e.2 e'.1 e'.2 (hmem e he) (hmem e' he') h1 h2), hside]
  constructor
  · rintro (⟨e, he, h1, h2, rfl⟩ | ⟨_, hq⟩)
    · exact ⟨e.2, hmem e he, h1, h2⟩
    · simp at hq
  · rintro ⟨lf, hl, h1, h2⟩
    exact Or.inl ⟨(q, lf), (Trie.mem_entries_root idx.tree hdist q lf).mpr hl, h1, h2, rfl⟩

/-- The index as loaded: the tree without pins, and a side table within the old one. -/
structure LoadedFrom (idx idx' : Index) : Prop where
  tree : idx'.tree = idx.tree.map unpinned
  shapes : idx'.shapes = idx.shapes
  ok : SideOk idx'
  slot : ∀ p g q, sideGet idx'.side p g = some q → sideGet idx.side p g = some q

theorem loadedFrom_sideBuild {idx : Index} (hok : SideOk idx) (hl : Loadable idx)
    (ver nDevs regionCnt regionSizePages : Nat) :
    LoadedFrom idx (sideBuild (ckptLoad (some (ckptWrite idx ver nDevs regionCnt
      regionSizePages)) nDevs regionCnt regionSizePages).1) := by
  rw [ckptLoad_ckptWrite hok.distinct hl]
  have hleaf : ∀ q lf, (loadedIndex idx).tree.leafAt q = some lf →
      ∃ lf0, idx.tree.leafAt q = some lf0 ∧ lf = unpinned lf0 := by
    intro q lf h
    rw [loadedIndex, Trie.leafAt_map] at h
    obtain ⟨lf0, h0, he⟩ := map_eq_some_iff.mp h
    exact ⟨lf0, h0, he.symm⟩
  have hget := sideGet_sideBuild (loadedIndex idx) (hok.distinct.map unpinned) rfl (by
      intro q lf q' lf' hq hq' hp hg
      obtain ⟨l, hl, rfl⟩ := hleaf q lf hq
      obtain ⟨l', hl', rfl⟩ := hleaf q' lf' hq'
      exact hok.key_unique hl hl' hp hg)
  have hslot : ∀ p g q, sideGet (sideBuild (loadedIndex idx)).side p g = some q →
      sideGet idx.side p g = some q := by
    intro p g q hq
    obtain ⟨lf, hlf, rfl, rfl⟩ := (hget p g q).mp hq
    obtain ⟨l, hl0, rfl⟩ := hleaf q lf hlf
    exact hok.leaf q l hl0
  refine ⟨rfl, rfl, ⟨hok.distinct.map unpinned, ?_, ?_, ?_⟩, hslot⟩
  · intro p g q hq
    obtain ⟨lf, hlf, _⟩ := (hget p g q).mp hq
    exact Trie.isSome_node?_of_leafAt hlf
  · intro p g q hq
    exact hok.len p g q (hslot p g q hq)
  · intro q lf hlf
    exact (hget _ _ _).mpr ⟨lf, hlf, rfl, rfl⟩

end KvTier.Analysis
