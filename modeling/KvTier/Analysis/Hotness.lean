import KvTier.Analysis.IndexFacts
import KvTier.Model.Hot

/-!
# Which reads make a put hot

A get adds to the counter of every node from its own up to the root.
-/

namespace KvTier.Analysis

open KvTier.Lib KvTier.Model List

/-- A get of a path with none of the hashes. -/
def unrelatedGet (path : Path) : HotLabel → Bool
  | .get q _ => q.all fun h => !path.contains h
  | _ => false

/-- Two histories that differ only in such gets. -/
def SameButReads (path : Path) (ls ls' : List HotLabel) : Prop :=
  (ls.filter fun l => !unrelatedGet path l) = ls'.filter fun l => !unrelatedGet path l

/-- The states agree on the path. -/
structure Alike (path : Path) (s s' : HotState) : Prop where
  idx : s'.idx = s.idx
  hits : ∀ q, q ≠ [] → q <+: path → s'.hits q = s.hits q

section Step

variable {path : Path} {s s' : HotState}

theorem Alike.refl (path : Path) (s : HotState) : Alike path s s := ⟨rfl, fun _ _ _ => rfl⟩

/-- Unrelated paths have only the root in common. -/
theorem not_isPrefix_of_unrelated {q node : Path} {now : Nat}
    (hun : unrelatedGet path (.get node now) = true) (hne : q ≠ []) (hq : q <+: path) :
    ¬ q <+: node := by
  intro hnode
  obtain ⟨h, t, rfl⟩ := exists_cons_of_ne_nil hne
  have hpath : h ∈ path := hq.subset mem_cons_self
  have hall : ∀ x ∈ node, x ∉ path := by simpa [unrelatedGet] using hun
  exact hall h (hnode.subset mem_cons_self) hpath

theorem hot_get_cases (s : HotState) (node : Path) (now : Nat) :
    s.get node now = s ∨ s.get node now = { s with hits := radixHitAscend s.hits node 1 } := by
  unfold HotState.get
  split
  · exact .inl rfl
  · split
    · exact .inl rfl
    · exact .inr rfl

theorem Alike.unrelated (h : Alike path s s') {l : HotLabel} (hl : unrelatedGet path l = true) :
    Alike path (s.step l) s' := by
  cases l with
  | get node now =>
    show Alike path (s.get node now) s'
    rcases hot_get_cases s node now with heq | heq
    · rw [heq]
      exact h
    rw [heq]
    refine ⟨h.idx, fun q hne hq => ?_⟩
    simp only [radixHitAscend, if_neg (not_isPrefix_of_unrelated hl hne hq)]
    exact h.hits q hne hq
  | publish a => cases hl
  | drop node => cases hl
  | decay => cases hl

theorem Alike.both (h : Alike path s s') (l : HotLabel) : Alike path (s.step l) (s'.step l) := by
  cases l with
  | publish a | drop node =>
    refine ⟨?_, h.hits⟩
    simp only [HotState.step, h.idx]
  | get node now =>
    show Alike path (s.get node now) (s'.get node now)
    unfold HotState.get
    rw [h.idx]
    split
    · exact h
    split
    · exact h
    · refine ⟨rfl, fun q hne hq => ?_⟩
      simp only [radixHitAscend, h.hits q hne hq]
  | decay =>
    refine ⟨h.idx, fun q hne hq => ?_⟩
    simp only [HotState.step, radixHitDecay, h.hits q hne hq]

theorem Alike.run_filter (ls : List HotLabel) (h : Alike path s s') :
    Alike path (s.run ls) (s'.run (ls.filter fun l => !unrelatedGet path l)) := by
  induction ls generalizing s s' with
  | nil => exact h
  | cons l ls ih =>
    cases hl : unrelatedGet path l with
    | true =>
      rw [filter_cons_of_neg (by simp [hl])]
      exact ih (h.unrelated hl)
    | false =>
      rw [filter_cons_of_pos (by simp [hl])]
      exact ih (h.both l)

end Step

/-! ## The check -/

theorem Alike.hotCheckPath_eq {path : Path} {s s' : HotState} (h : Alike path s s') {g : Nat}
    (hlen : path.length = g + 1) (hg : 2 ≤ g) (threshold : Nat) :
    hotCheckPath s' path g threshold = hotCheckPath s path g threshold := by
  have hlenCur : (path.take g).length = g := by
    rw [length_take]
    omega
  have hcur : path.take g ≠ [] := by
    intro hnil
    rw [hnil, length_nil] at hlenCur
    omega
  have habove : (path.take g).dropLast ≠ [] := by
    intro hnil
    have hlenAbove := congrArg List.length hnil
    rw [length_dropLast, hlenCur, length_nil] at hlenAbove
    omega
  have hprefix : path.take g <+: path := take_prefix g path
  unfold hotCheckPath
  simp only [hcur, if_false, h.idx, h.hits _ hcur hprefix,
    h.hits _ habove ((List.dropLast_prefix _).trans hprefix)]

theorem hits_lt (idx : Index) (ls : List HotLabel) (q : Path) :
    ((HotState.start idx).run ls).hits q < 2 ^ 32 := by
  have hstep : ∀ (s : HotState) (l : HotLabel), (∀ q, s.hits q < 2 ^ 32) →
      ∀ q, (s.step l).hits q < 2 ^ 32 := by
    intro s l h q
    cases l with
    | publish a => exact h q
    | drop node => exact h q
    | get node now =>
      show (s.get node now).hits q < 2 ^ 32
      rcases hot_get_cases s node now with heq | heq
      · rw [heq]
        exact h q
      rw [heq]
      simp only [radixHitAscend]
      split
      · exact Nat.mod_lt _ (by norm_num)
      · exact h q
    | decay => exact (Nat.div_le_self _ _).trans_lt (h q)
  have hrun : ∀ (ls : List HotLabel) (s : HotState), (∀ q, s.hits q < 2 ^ 32) →
      ∀ q, (s.run ls).hits q < 2 ^ 32 := by
    intro ls
    induction ls with
    | nil => exact fun s h => h
    | cons l ls ih => exact fun s h => ih (s.step l) (hstep s l h)
  exact hrun ls _ (fun _ => by norm_num [HotState.start]) q

theorem hotCheckPath_of_large {s : HotState} (hs : ∀ q, s.hits q < 2 ^ 32) {threshold : Nat}
    (ht : 2 ^ 32 ≤ threshold + 1) (path : Path) (g : Nat) :
    hotCheckPath s path g threshold = false := by
  have hcold : ∀ q, ¬ threshold < s.hits q := by
    intro q
    have hq := hs q
    omega
  unfold hotCheckPath
  simp only
  split
  · simp [hcold]
  · split
    · simp [hcold]
    · rfl

/-! ## Reads that count at the root -/

/-- The publish of a put of one group with hash `h`. -/
def hotArgs (h : UInt64) : PublishArgs where
  prefixId := h
  groupIdx := 0
  ver := 1
  addr := ⟨0, 3, 0, 1, 0, 0, 0⟩
  slot := 0
  flags := Flags.empty
  stripeIdx := 0
  stripeCnt := 0
  stripeTotal := 0
  dataLen := 8
  shape := some ⟨0, [8]⟩
  path := [h]

/-- Two puts. -/
def twoHotPuts : List HotLabel := [.publish (hotArgs 1), .publish (hotArgs 3)]

/-- The state after them and `n` gets of the second. -/
def afterReads (n : Nat) : HotState :=
  (HotState.start Index.empty).run (twoHotPuts ++ List.replicate n (.get [3] 0))

theorem afterReads_spec (n : Nat) (hn : n < 2 ^ 32) :
    (afterReads n).idx = (afterReads 0).idx ∧ (afterReads n).hits [] = n ∧
      (afterReads n).hits [1] = 0 := by
  induction n with
  | zero => exact ⟨rfl, rfl, rfl⟩
  | succ n ih =>
    obtain ⟨hidx, hroot, hone⟩ := ih (by omega)
    have hsnoc : afterReads (n + 1) = (afterReads n).get [3] 0 := by
      unfold afterReads HotState.run
      rw [replicate_succ', ← List.append_assoc, foldl_append]
      rfl
    have hleaf : ∃ lf, (afterReads 0).idx.tree.leafAt [3] = some lf ∧ lf.ver = 1 ∧
        lf.addr0.expireTs = 0 := by
      refine ⟨newPlainLeaf (hotArgs 3), by decide +kernel, rfl, rfl⟩
    obtain ⟨lf, hlf, hver, hexp⟩ := hleaf
    have hget : (afterReads n).get [3] 0 =
        { afterReads n with hits := radixHitAscend (afterReads n).hits [3] 1 } := by
      have hlf' : (afterReads n).idx.tree.leafAt [3] = some lf := by rw [hidx, hlf]
      simp only [HotState.get, hlf', hver, hexp]
      rfl
    rw [hsnoc, hget]
    refine ⟨hidx, ?_, ?_⟩
    · simp only [radixHitAscend, nil_prefix, if_true, hroot]
      exact Nat.mod_eq_of_lt hn
    · have hnot : ¬ [1] <+: ([3] : Path) := by decide
      simp only [radixHitAscend, if_neg hnot, hone]

theorem sameButReads_replicate {path : Path} (hpath : unrelatedGet path (.get [3] 0) = true)
    (n : Nat) : SameButReads path (twoHotPuts ++ List.replicate 0 (.get [3] 0))
      (twoHotPuts ++ List.replicate n (.get [3] 0)) := by
  have hnil : (List.replicate n (HotLabel.get [3] 0)).filter (fun l => !unrelatedGet path l) = [] := by
    rw [filter_eq_nil_iff]
    intro l hl
    rw [eq_of_mem_replicate hl, hpath]
    decide
  unfold SameButReads
  rw [filter_append, filter_append, hnil]
  rfl

theorem hotCheckPath_afterReads {g threshold : Nat} (hg : g < 2) (ht : threshold + 1 < 2 ^ 32) :
    hotCheckPath (afterReads 0) ([1, 2].take (g + 1)) g threshold = false ∧
      hotCheckPath (afterReads (threshold + 1)) ([1, 2].take (g + 1)) g threshold = true := by
  obtain ⟨_, hroot0, hone0⟩ := afterReads_spec 0 (by norm_num)
  obtain ⟨hidx, hroot, hone⟩ := afterReads_spec (threshold + 1) ht
  have hnode : ((afterReads 0).idx.tree.node? [1]).isSome = true := by decide +kernel
  have hcase : g = 0 ∨ g = 1 := by omega
  rcases hcase with rfl | rfl
  · constructor
    · simp [hotCheckPath, hroot0]
    · simp [hotCheckPath, hroot]
  · constructor
    · simp [hotCheckPath, hroot0, hone0, hnode]
    · simp [hotCheckPath, hroot, hone, hidx, hnode]

/-- Whether a put of group `g` is hot is independent of reads along unrelated paths exactly if the
put is of the third group or a later one, or the threshold is out of reach of a 32-bit counter. The
histories are of any length, from any index an open leaves, and agree but for these reads. -/
theorem hot_local_iff (g threshold : Nat) :
    (∀ (idx : Index) (path : Path) (ls ls' : List HotLabel), path.length = g + 1 →
      SameButReads path ls ls' →
        hotCheckPath ((HotState.start idx).run ls) path g threshold =
          hotCheckPath ((HotState.start idx).run ls') path g threshold) ↔
      2 ≤ g ∨ 2 ^ 32 ≤ threshold + 1 := by
  constructor
  · intro hlocal
    by_contra hcond
    simp only [not_or, not_le] at hcond
    obtain ⟨hg, ht⟩ := hcond
    have hun : unrelatedGet (([1, 2] : Path).take (g + 1)) (.get [3] 0) = true := by
      have hcase : g = 0 ∨ g = 1 := by omega
      rcases hcase with rfl | rfl <;> decide
    have hlen : (([1, 2] : Path).take (g + 1)).length = g + 1 := by
      rw [length_take, length_cons, length_cons, length_nil]
      omega
    have hsame := hlocal Index.empty _ _ _ hlen (sameButReads_replicate hun (threshold + 1))
    obtain ⟨hcold, hhot⟩ := hotCheckPath_afterReads hg ht
    rw [show (HotState.start Index.empty).run (twoHotPuts ++ List.replicate 0 (.get [3] 0)) =
      afterReads 0 from rfl, hcold, show (HotState.start Index.empty).run
        (twoHotPuts ++ List.replicate (threshold + 1) (.get [3] 0)) = afterReads (threshold + 1) from rfl,
      hhot] at hsame
    cases hsame
  rintro (hg | ht) idx path ls ls' hlen hsame
  · have h := (Alike.refl path (HotState.start idx)).run_filter ls
    have h' := (Alike.refl path (HotState.start idx)).run_filter ls'
    rw [← hsame] at h'
    rw [← h.hotCheckPath_eq hlen hg, h'.hotCheckPath_eq hlen hg]
  · rw [hotCheckPath_of_large (hits_lt idx ls) ht, hotCheckPath_of_large (hits_lt idx ls') ht]

/-- One read of another key makes a put of the first group hot at threshold 0. -/
theorem put_hot_by_other_read :
    unrelatedGet [1] (.get [3] 0) = true ∧
      hotCheckPath ((HotState.start Index.empty).run twoHotPuts) [1] 0 0 = false ∧
      hotCheckPath ((HotState.start Index.empty).run (twoHotPuts ++ [.get [3] 0])) [1] 0 0 = true := by
  decide +kernel

end KvTier.Analysis
