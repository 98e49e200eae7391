import KvTier.Analysis.StripeOverwrite

/-!
# Evicting a key while a striped put of it is under way

`cache_evict_impl` drops the leaf of its key, whichever parts of a put it holds, and the parts that
complete later begin a new leaf.
-/

namespace KvTier.Analysis

open KvTier.Lib KvTier.Model List

variable {i : Nat} {os : List StripeOp}

/-! ## Parts and evicts -/

/-- A part is published, or the key evicted. -/
inductive StripeOp where
  | part (i : Nat)
  | evict
deriving DecidableEq, Repr

/-- The number of the part that completed. -/
def StripeOp.part? : StripeOp → Option Nat
  | .part i => some i
  | .evict => none

/-- The index after one of them. -/
def StripedPut.op (cfg : Config) (P : StripedPut) (idx : Index) : StripeOp → Index
  | .part i => publishReqs P.page P.now idx [P.req cfg i]
  | .evict => idx.evict P.args.path

/-- The index after some of them. -/
def StripedPut.ops (cfg : Config) (P : StripedPut) (idx : Index) (os : List StripeOp) : Index :=
  os.foldl (P.op cfg) idx

/-- What an evict leaves of a leaf. -/
def evictLeaf (l : Option RadixLeaf) : Option RadixLeaf := l.filter fun lf => decide (0 < lf.refcnt)

/-- The same on the leaf of the key. -/
def StripedPut.leafOp (cfg : Config) (P : StripedPut) (l : Option RadixLeaf) :
    StripeOp → Option RadixLeaf
  | .part i => (leafPublish l (P.pub cfg i)).leaf
  | .evict => evictLeaf l

/-- No leaf, or the whole stripe of the put. -/
def AbsentOrWhole (cfg : Config) (P : StripedPut) (l : Option RadixLeaf) : Prop :=
  l = none ∨ ∃ lf st, l = some lf ∧ lf.ver = P.ver ∧ lf.stripe = some st ∧
    st.nParts = P.nParts cfg ∧ ∀ p, p < st.nParts → ¬ PartMissing cfg.nDevs st p

/-- The last evict comes before all parts or behind them. -/
def LastEvictApart (os : List StripeOp) : Prop :=
  ∀ front back, os = front ++ .evict :: back → .evict ∉ back →
    (∀ i, .part i ∉ front) ∨ (∀ i, .part i ∉ back)

/-! ## One step -/

section Step

variable {cfg : Config} {pathOf : UInt64 → Nat → Path} {P : StripedPut} {idx : Index}

theorem leafAt_evict (idx : Index) (path : Path) :
    (idx.evict path).tree.leafAt path = evictLeaf (idx.tree.leafAt path) := by
  unfold Index.evict
  cases hl : idx.tree.leafAt path with
  | none => exact hl
  | some lf =>
    by_cases hpin : 0 < lf.refcnt
    · simp [hpin, evictLeaf, hl, Option.filter]
    · simp [hpin, evictLeaf, leafAt_drop, Option.filter]

theorem SideOk.evict (h : SideOk idx) (path : Path) : SideOk (idx.evict path) := by
  unfold Index.evict
  split
  · exact h
  · split
    · exact h
    · exact h.drop path

theorem side_evict (idx : Index) (path : Path) : (idx.evict path).side = idx.side := by
  unfold Index.evict
  split
  · rfl
  · split
    · rfl
    · exact side_drop idx path

theorem StripedPut.op_own (h : P.Issued cfg pathOf) (hlen : ∀ p g, (pathOf p g).length = g + 1)
    (hs : SideOk idx) (hp : OwnPaths pathOf idx) (o : StripeOp) :
    SideOk (P.op cfg idx o) ∧ OwnPaths pathOf (P.op cfg idx o) ∧
      (P.op cfg idx o).tree.leafAt P.args.path = P.leafOp cfg (idx.tree.leafAt P.args.path) o := by
  cases o with
  | part i =>
    obtain ⟨hnode, hside, hown, hleaf⟩ := publishReq_own (hlen P.args.prefixId P.args.groupIdx) hs hp
      (a := P.pub cfg i) rfl rfl
    have hop : P.op cfg idx (.part i) = (resolveNode idx P.args.prefixId P.args.groupIdx
        P.args.path).1.publish (resolveNode idx P.args.prefixId P.args.groupIdx P.args.path).2
        (P.pub cfg i) := rfl
    rw [hop, h.path, hnode]
    exact ⟨hside, hown, hleaf⟩
  | evict =>
    refine ⟨hs.evict _, fun p g q hq => hp p g q ?_, leafAt_evict idx P.args.path⟩
    rw [← side_evict idx P.args.path]
    exact hq

theorem StripedPut.leafAt_ops (h : P.Issued cfg pathOf)
    (hlen : ∀ p g, (pathOf p g).length = g + 1) (hs : SideOk idx) (hp : OwnPaths pathOf idx)
    (os : List StripeOp) :
    (P.ops cfg idx os).tree.leafAt P.args.path =
      os.foldl (P.leafOp cfg) (idx.tree.leafAt P.args.path) := by
  induction os generalizing idx with
  | nil => rfl
  | cons o os ih =>
    obtain ⟨hs', hp', hleaf⟩ := P.op_own h hlen hs hp o
    rw [foldl_cons, ← hleaf]
    exact ih hs' hp'

end Step

/-! ## Before and after the last evict -/

section Runs

variable {cfg : Config} {pathOf : UInt64 → Nat → Path} {P : StripedPut} {l : Option RadixLeaf}

/-- An older leaf, or one with some parts of the put. -/
def OlderOrParts (cfg : Config) (P : StripedPut) (l : Option RadixLeaf) : Prop :=
  Stale P.ver l ∨ ∃ sh parts, lensOf sh = P.args.lens ∧
    l = some ((P.image cfg P.len).leafWith sh parts)

theorem OlderOrParts.part (h : P.Issued cfg pathOf) (hl : OlderOrParts cfg P l)
    (hi : i < P.nParts cfg) :
    ∃ sh parts, lensOf sh = P.args.lens ∧
      P.leafOp cfg l (.part i) = some ((P.image cfg P.len).leafWith sh parts) := by
  rcases hl with hold | ⟨sh, parts, hsh, rfl⟩
  · have hpart : ∀ a ∈ [P.pub cfg i], (P.image cfg P.len).IsPart a := fun a ha => by
      rw [mem_singleton.1 ha]
      exact P.isPart_pub h hi
    obtain ⟨⟨sh, hsh, hpub⟩, _⟩ := StripeImage.publishLeaf_parts hpart
      (fun a ha => by rw [mem_singleton.1 ha]; rfl) (by simp) hold
    exact ⟨sh, _, hsh, hpub⟩
  · obtain ⟨sh', hsh', hpub, _⟩ := StripeImage.leafPublish_leafWith (P.isPart_pub h hi) hsh parts
    exact ⟨sh', _, hsh', hpub⟩

theorem OlderOrParts.evict (hl : OlderOrParts cfg P l) :
    Stale P.ver (evictLeaf l) ∧
      ((∃ sh parts, l = some ((P.image cfg P.len).leafWith sh parts)) → evictLeaf l = none) := by
  have hparts : ∀ sh parts, evictLeaf (some ((P.image cfg P.len).leafWith sh parts)) = none :=
    fun _ _ => rfl
  refine ⟨?_, ?_⟩
  · rcases hl with hold | ⟨sh, parts, _, rfl⟩
    · intro lf hlf
      exact hold lf (Option.eq_some_of_filter_eq_some hlf)
    · rw [hparts]
      exact stale_of_none rfl
  · rintro ⟨sh, parts, rfl⟩
    exact hparts sh parts

theorem StripedPut.ops_evict (h : P.Issued cfg pathOf) (hold : Stale P.ver l)
    (hos : ∀ i, .part i ∈ os → i < P.nParts cfg) :
    Stale P.ver (evictLeaf (os.foldl (P.leafOp cfg) l)) ∧
      ((∃ i, .part i ∈ os) → evictLeaf (os.foldl (P.leafOp cfg) l) = none) := by
  -- After a part, the leaf holds parts of the put until an evict empties the node.
  have hrun : OlderOrParts cfg P (os.foldl (P.leafOp cfg) l) ∧
      ((∃ i, .part i ∈ os) → evictLeaf (os.foldl (P.leafOp cfg) l) = none) := by
    induction os using List.reverseRecOn with
    | nil => exact ⟨.inl hold, fun ⟨i, hi⟩ => by cases hi⟩
    | append_singleton os o ih =>
      obtain ⟨hl, hnone⟩ := ih fun i hi => hos i (mem_append_left _ hi)
      rw [foldl_append, foldl_cons, foldl_nil]
      cases o with
      | part i =>
        obtain ⟨sh, parts, hsh, hpart⟩ := hl.part h (hos i (by simp))
        rw [hpart]
        exact ⟨.inr ⟨sh, parts, hsh, rfl⟩, fun _ => rfl⟩
      | evict =>
        refine ⟨.inl hl.evict.1, fun ⟨i, hi⟩ => ?_⟩
        have hin : .part i ∈ os := by simpa using hi
        rw [show P.leafOp cfg (os.foldl (P.leafOp cfg) l) .evict =
          evictLeaf (os.foldl (P.leafOp cfg) l) from rfl, hnone ⟨i, hin⟩]
        rfl
  exact ⟨hrun.1.evict.1, hrun.2⟩

theorem eq_map_part (h : .evict ∉ os) : os = (os.filterMap StripeOp.part?).map .part := by
  induction os with
  | nil => rfl
  | cons o os ih =>
    rw [mem_cons, not_or] at h
    cases o with
    | part i =>
      rw [filterMap_cons_some (show StripeOp.part? (.part i) = some i from rfl), map_cons, ← ih h.2]
    | evict => exact absurd rfl h.1

theorem mem_parts : i ∈ os.filterMap StripeOp.part? ↔ .part i ∈ os := by
  rw [mem_filterMap]
  constructor
  · rintro ⟨o, ho, hi⟩
    cases o with
    | part j =>
      cases hi
      exact ho
    | evict => cases hi
  · intro hi
    exact ⟨_, hi, rfl⟩

theorem foldl_leafOp_parts (done : List Nat) (l : Option RadixLeaf) :
    (done.map StripeOp.part).foldl (P.leafOp cfg) l = publishLeaf l (done.map (P.pub cfg)) := by
  induction done generalizing l with
  | nil => rfl
  | cons i done ih =>
    rw [map_cons, foldl_cons, ih]
    rfl

theorem foldl_leafOp_last {front back : List StripeOp} (hback : .evict ∉ back)
    (l : Option RadixLeaf) :
    (front ++ .evict :: back).foldl (P.leafOp cfg) l =
      publishLeaf (evictLeaf (front.foldl (P.leafOp cfg) l))
        ((back.filterMap StripeOp.part?).map (P.pub cfg)) := by
  have hparts : back.foldl (P.leafOp cfg) (evictLeaf (front.foldl (P.leafOp cfg) l)) =
      publishLeaf (evictLeaf (front.foldl (P.leafOp cfg) l))
        ((back.filterMap StripeOp.part?).map (P.pub cfg)) := by
    rw [← foldl_leafOp_parts, ← eq_map_part hback]
  rw [foldl_append, foldl_cons]
  exact hparts

theorem StripedPut.complete_done (h : P.Issued cfg pathOf) (hold : Stale P.ver l)
    {done : List Nat} (hdone : done.Perm (List.range (P.nParts cfg))) :
    (P.image cfg P.len).Complete (publishLeaf l (done.map (P.pub cfg))) := by
  refine (StripeImage.complete_publishLeaf ?_ ?_ ?_ h.reqs.2.1 hold).1
  · intro a ha
    obtain ⟨i, hi, rfl⟩ := mem_map.1 ha
    exact P.isPart_pub h (mem_range.1 (hdone.mem_iff.1 hi))
  · intro a ha
    obtain ⟨i, _, rfl⟩ := mem_map.1 ha
    rfl
  · intro i hi
    exact ⟨P.pub cfg i, mem_map_of_mem (hdone.mem_iff.2 (mem_range.2 hi)), rfl⟩

theorem exists_last (h : .evict ∈ os) :
    ∃ front back, os = front ++ .evict :: back ∧ .evict ∉ back := by
  obtain ⟨back, front, he, hback⟩ := eq_append_cons_of_mem (mem_reverse.2 h)
  refine ⟨front.reverse, back.reverse, ?_, by simpa using hback⟩
  have hrev := congrArg List.reverse he
  simpa using hrev

/-- With the last evict on one side of the parts there is no leaf, or the complete one. -/
theorem StripedPut.absent_or_complete (h : P.Issued cfg pathOf) (hold : Stale P.ver l)
    (hparts : (os.filterMap StripeOp.part?).Perm (List.range (P.nParts cfg)))
    (hapart : LastEvictApart os) :
    os.foldl (P.leafOp cfg) l = none ∨
      (P.image cfg P.len).Complete (os.foldl (P.leafOp cfg) l) := by
  by_cases hev : .evict ∈ os
  · obtain ⟨front, back, rfl, hback⟩ := exists_last hev
    have hfront : ∀ i, .part i ∈ front → i < P.nParts cfg := by
      intro i hi
      have hin : i ∈ (front ++ .evict :: back).filterMap StripeOp.part? :=
        mem_parts.2 (mem_append_left _ hi)
      exact mem_range.1 (hparts.mem_iff.1 hin)
    obtain ⟨hstale, hnone⟩ := P.ops_evict h hold hfront
    rw [foldl_leafOp_last hback]
    rw [filterMap_append, filterMap_cons_none rfl] at hparts
    rcases hapart front back rfl hback with hno | hno
    · -- All parts come after the evict.
      have hempty : front.filterMap StripeOp.part? = [] :=
        eq_nil_iff_forall_not_mem.2 fun i hi => hno i (mem_parts.1 hi)
      rw [hempty, nil_append] at hparts
      exact .inr (P.complete_done h hstale hparts)
    -- All parts come before the evict, which drops them.
    have hempty : back.filterMap StripeOp.part? = [] :=
      eq_nil_iff_forall_not_mem.2 fun i hi => hno i (mem_parts.1 hi)
    rw [hempty, List.append_nil] at hparts
    have hfirst : 0 ∈ front.filterMap StripeOp.part? :=
      hparts.mem_iff.2 (mem_range.2 h.reqs.2.1)
    rw [hempty]
    exact .inl (hnone ⟨0, mem_parts.1 hfirst⟩)
  · rw [eq_map_part hev, foldl_leafOp_parts]
    exact .inr (P.complete_done h hold hparts)

/-- An evict between the parts leaves a leaf with a part missing. -/
theorem StripedPut.missing_of_between (h : P.Issued cfg pathOf) (hold : Stale P.ver l)
    {front back : List StripeOp} (hback : .evict ∉ back)
    (hparts : ((front ++ .evict :: back).filterMap StripeOp.part?).Perm
      (List.range (P.nParts cfg))) {i j : Nat} (hi : .part i ∈ front) (hj : .part j ∈ back) :
    ∃ lf st, (front ++ .evict :: back).foldl (P.leafOp cfg) l = some lf ∧ lf.stripe = some st ∧
      i < st.nParts ∧ PartMissing cfg.nDevs st i := by
  have hlt : ∀ k, .part k ∈ front ++ .evict :: back → k < P.nParts cfg := fun k hk =>
    mem_range.1 (hparts.mem_iff.1 (mem_parts.2 hk))
  have hfront : ∀ k, .part k ∈ front → k < P.nParts cfg := fun k hk =>
    hlt k (mem_append_left _ hk)
  obtain ⟨hstale, _⟩ := P.ops_evict h hold hfront
  -- No part completes twice.
  have hnd : (front.filterMap StripeOp.part? ++ back.filterMap StripeOp.part?).Nodup := by
    have hperm := hparts.nodup_iff.2 nodup_range
    rwa [filterMap_append, filterMap_cons_none rfl] at hperm
  have hmiss : i ∉ back.filterMap StripeOp.part? := fun hin =>
    (nodup_append.1 hnd).2.2 i (mem_parts.2 hi) i hin rfl
  have hdone : ∀ k ∈ back.filterMap StripeOp.part?, k < P.nParts cfg := fun k hk =>
    hlt k (mem_append_right _ (mem_cons_of_mem _ (mem_parts.1 hk)))
  obtain ⟨lf, st, hpub, hst, hn, hgone⟩ := P.publishLeaf_done h hstale hdone
    (ne_nil_of_mem (mem_parts.2 hj))
  have hin : i < P.nParts cfg := hfront i hi
  refine ⟨lf, st, ?_, hst, hn ▸ hin, hgone i hin hmiss⟩
  rw [foldl_leafOp_last hback]
  exact hpub

theorem StripeImage.Complete.whole (hcfg : ConfigOk cfg)
    (hpage : ∀ i, i < P.nParts cfg → P.page i ≠ 0) (hl : (P.image cfg P.len).Complete l) :
    AbsentOrWhole cfg P l := by
  obtain ⟨sh, _, rfl⟩ := hl
  refine .inr ⟨_, _, rfl, rfl, rfl, rfl, fun p hp => ?_⟩
  have hpart : ((List.range (P.nParts cfg)).map (P.part cfg)).getD p StripePart.none =
      P.part cfg p := by
    have hlt : p < P.nParts cfg := hp
    simp [List.getD_eq_getElem?_getD, hlt]
  have hok : ¬ (cfg.nDevs ≤ (P.part cfg p).devId ∨ (P.part cfg p).pageNo = 0) := by
    rintro (hdev | hpg)
    · exact absurd hdev (Nat.not_le.mpr (Nat.mod_lt _ hcfg.devs))
    · exact hpage p hp hpg
  rw [← hpart] at hok
  exact hok

end Runs

/-! ## The result -/

section Result

variable {cfg : Config} {pathOf : UInt64 → Nat → Path} {P : StripedPut} {idx : Index}

/-- When all parts of a put have completed, among evicts of its key, the key is absent or has the
whole put exactly when the last evict was not between two parts; otherwise it is answered with a
read error whatever is on the devices. -/
theorem evict_leaves_whole_iff (hcfg : ConfigOk cfg) (h : P.Issued cfg pathOf)
    (hlen : ∀ p g, (pathOf p g).length = g + 1)
    (hpage : ∀ i, i < P.nParts cfg → P.page i ≠ 0) (hs : SideOk idx) (hp : OwnPaths pathOf idx)
    (hold : Stale P.ver (idx.tree.leafAt P.args.path)) {os : List StripeOp}
    (hparts : (os.filterMap StripeOp.part?).Perm (List.range (P.nParts cfg))) :
    (AbsentOrWhole cfg P ((P.ops cfg idx os).tree.leafAt P.args.path) ↔ LastEvictApart os) ∧
    (LastEvictApart os → ∀ lf, (P.ops cfg idx os).tree.leafAt P.args.path = some lf →
      ∀ disk m, readLeaf cfg disk m lf =
        (readStripe cfg disk m (P.stripeAddr cfg) P.args.streamCrc).map fun buf =>
          ⟨buf, shapeRecs 0 0 P.args.lens⟩) ∧
    (¬ LastEvictApart os → ∃ lf, (P.ops cfg idx os).tree.leafAt P.args.path = some lf ∧
      ∀ disk m, readLeaf cfg disk m lf = .error .eread) := by
  rw [P.leafAt_ops h hlen hs hp]
  have hbetween : ¬ LastEvictApart os → ∃ lf st i,
      os.foldl (P.leafOp cfg) (idx.tree.leafAt P.args.path) = some lf ∧ lf.stripe = some st ∧
      i < st.nParts ∧ PartMissing cfg.nDevs st i := by
    intro hnot
    simp only [LastEvictApart, not_forall, not_or, not_not] at hnot
    obtain ⟨front, back, rfl, hback, ⟨i, hi⟩, j, hj⟩ := hnot
    obtain ⟨lf, st, hleaf, hst, hin, hmiss⟩ := P.missing_of_between h hold hback hparts hi hj
    exact ⟨lf, st, i, hleaf, hst, hin, hmiss⟩
  refine ⟨⟨fun hwhole => ?_, fun hapart => ?_⟩, fun hapart lf hlf => ?_, fun hnot => ?_⟩
  · by_contra hnot
    obtain ⟨lf, st, i, hleaf, hst, hin, hmiss⟩ := hbetween hnot
    rcases hwhole with hnone | ⟨lf', st', hlf', _, hst', _, hall⟩
    · rw [hleaf] at hnone
      cases hnone
    · obtain rfl : lf = lf' := Option.some.inj (hleaf.symm.trans hlf')
      obtain rfl : st = st' := Option.some.inj (hst.symm.trans hst')
      exact hall i hin hmiss
  · rcases P.absent_or_complete h hold hparts hapart with hnone | hcomplete
    · exact .inl hnone
    · exact hcomplete.whole hcfg hpage
  · rcases P.absent_or_complete h hold hparts hapart with hnone | hcomplete
    · rw [hlf] at hnone
      cases hnone
    · obtain ⟨lf', hlf', hread⟩ := readLeaf_complete hcfg h hcomplete
      obtain rfl : lf = lf' := Option.some.inj (hlf.symm.trans hlf')
      exact hread
  · obtain ⟨lf, st, i, hleaf, hst, hin, hmiss⟩ := hbetween hnot
    exact ⟨lf, hleaf, fun disk m => readLeaf_missing hst hin hmiss m⟩

end Result

/-- An evict before the two parts of a put. -/
theorem evict_leaves_whole_before :
    AbsentOrWhole twoDevs (widePut 0 1) (((widePut 0 1).ops twoDevs Index.empty
      [.evict, .part 1, .part 0]).tree.leafAt (samplePath 0 0)) := by
  have hparts : ([.evict, .part 1, .part 0].filterMap StripeOp.part?).Perm
      (List.range ((widePut 0 1).nParts twoDevs)) := Perm.swap 0 1 []
  have hapart : LastEvictApart [.evict, .part 1, .part 0] := by
    intro front back he _
    cases front with
    | nil => exact .inl fun i hi => by cases hi
    | cons o front =>
      have hin : .evict ∈ [StripeOp.part 1, .part 0] := by
        rw [(List.cons.inj he).2]
        simp
      simp at hin
  exact (evict_leaves_whole_iff ⟨by decide, by decide, by decide⟩
    (issued_widePut 2 4096 0 1 (by decide +kernel)) pathFn_samplePath.len (by decide +kernel)
    SideOk.empty (ownPaths_empty samplePath) (stale_of_none (Trie.leafAt_nil _)) hparts).1.2 hapart

def evictedBetween : List Label :=
  [.put (widePut 0 1).args, .publish 0 64 0 1, .drop (samplePath 0 0), .publish 0 65 0 1,
    .flush 0, .flush 1, .ack 1]

/-- An evict between the two parts of a put that is then acknowledged leaves a key that is answered
with a read error. -/
theorem evict_between_parts_unreadable :
    ∃ s lf, RunOf Store.step (fun _ _ => True) (Store.format twoDevs) evictedBetween s ∧
      1 ∈ s.acked ∧ s.idx.tree.leafAt (samplePath 0 0) = some lf ∧ lf.ver = 1 ∧
      ∀ disk m, readLeaf twoDevs disk m lf = .error .eread := by
  have hrun : ∃ s lf, RunOf Store.step (fun _ _ => True) (Store.format twoDevs) evictedBetween s ∧
      1 ∈ s.acked ∧ s.idx.tree.leafAt (samplePath 0 0) = some lf ∧ lf.ver = 1 ∧
      lf.stripe = some ⟨2, 5000, [StripePart.none, ⟨1, 65, 1⟩]⟩ := by
    refine ⟨_, _, .cons trivial rfl (.cons trivial rfl (.cons trivial rfl (.cons trivial rfl
      (.cons trivial rfl (.cons trivial rfl (.cons trivial rfl (.nil _))))))), ?_, rfl, rfl, ?_⟩
    · exact mem_singleton.2 rfl
    · rfl
  obtain ⟨s, lf, hs, hack, hlf, hver, hstripe⟩ := hrun
  exact ⟨s, lf, hs, hack, hlf, hver, fun disk m =>
    readLeaf_missing hstripe (p := 0) (show 0 < 2 by decide) (.inr rfl) m⟩

end KvTier.Analysis
