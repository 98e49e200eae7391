import KvTier.Analysis.Recovery
import KvTier.Analysis.SessionFacts

/-!
# Limits of a checkpoint

What the loader makes of any tree that was written, however deep, and how long the URI of the device
may be for the temporary file to have a name of its own.
-/

namespace KvTier.Analysis

open KvTier.Lib KvTier.Model List

/-! ## What fits -/

/-- Nodes at depth 128 at most, and leaves above it. -/
def CkptFits (t : Radix) : Prop :=
  (∀ p, (t.node? p).isSome → p.length ≤ ckptStackCap) ∧
    ∀ p lf, t.leafAt p = some lf → p.length < ckptStackCap

theorem ckptFits_iff (t : Radix) :
    CkptFits t ↔ ∀ p v, t.node? p = some v →
      p.length ≤ ckptStackCap ∧ (v.isSome → p.length < ckptStackCap) := by
  constructor
  · rintro ⟨hn, hl⟩ p v hp
    refine ⟨hn p (by simp [hp]), fun hv => ?_⟩
    obtain ⟨lf, rfl⟩ := Option.isSome_iff_exists.mp hv
    exact hl p lf (by simp [Trie.leafAt, hp])
  intro hall
  refine ⟨fun p hp => ?_, fun p lf hp => ?_⟩
  · obtain ⟨v, hv⟩ := Option.isSome_iff_exists.mp hp
    exact (hall p v hv).1
  have hv : t.node? p = some (some lf) := by
    unfold Trie.leafAt at hp
    exact Option.join_eq_some_iff.mp hp
  exact (hall p _ hv).2 rfl

theorem ckptLoad_ok_iff_fits {idx : Index} (hs : idx.tree.Distinct) (hp : PoolOk idx.shapes)
    (ver nDevs regionCnt regionSizePages : Nat) :
    (ckptLoad (some (ckptWrite idx ver nDevs regionCnt regionSizePages)) nDevs regionCnt
        regionSizePages).2 = none ↔ CkptFits idx.tree := by
  rw [ckptLoad_ckptWrite_part hs hp, ckptFits_iff, loadedPart_ok_iff _ _ _ hs]
  constructor
  · intro h p v hv
    obtain ⟨h1, h2⟩ := h p v hv
    exact ⟨by omega, fun hl => by have := h2 hl; omega⟩
  · intro h p v hv
    obtain ⟨h1, h2⟩ := h p v hv
    exact ⟨by omega, fun hl => by have := h2 hl; omega⟩

/-! ## What the cache builds -/

/-- In a history without hash 0, the loader accepts the checkpoint of the index, with no access
outside its stack, exactly when the index fits. -/
theorem reachable_ckpt_loads_iff {cfg : Config} (hcfg : ConfigOk cfg) {ls : List SessionLabel}
    {s : Session} (hrun : NonzeroRun cfg ls s) (ver nDevs regionCnt regionSizePages : Nat) :
    (ckptLoad (some (ckptWrite s.store.idx ver nDevs regionCnt regionSizePages)) nDevs regionCnt
        regionSizePages).2 = none ↔ CkptFits s.store.idx.tree := by
  have hok := (hrun.session.ok hcfg).index
  exact ckptLoad_ok_iff_fits hok.side.distinct hok.pool ver nDevs regionCnt regionSizePages

/-- A put of one group, by the hashes on its path. -/
def putAt (path : Path) : PutArgs :=
  { smallPut with groupIdx := groupOf path, path := path }

/-- The index of a put of two groups fits, and its checkpoint is loaded. -/
theorem put_loads :
    ∃ s, NonzeroRun twoDevs [.op (.put (putAt [7, 8])), .op (.publish 0 2 0 0)] s ∧
      (s.store.idx.tree.leafAt [7, 8]).isSome ∧ CkptFits s.store.idx.tree ∧
      (ckptLoad (some (ckptWrite s.store.idx 1 2 2 64)) 2 2 64).2 = none := by
  have hfold : ([.op (.put (putAt [7, 8])), .op (.publish 0 2 0 0)].foldlM Session.step
      (Session.format twoDevs)).map (fun s => decide ((s.store.idx.tree.leafAt [7, 8]).isSome ∧
        s.store.idx.tree.height ≤ 2)) = some true := by decide +kernel
  obtain ⟨s, hs, hP⟩ := Option.map_eq_some_iff.1 hfold
  obtain ⟨hleaf, hheight⟩ := of_decide_eq_true hP
  have hrun : NonzeroRun twoDevs [.op (.put (putAt [7, 8])), .op (.publish 0 2 0 0)] s :=
    RunOf.of_foldlM hs (by simp [OpensOk, NonzeroPut, putAt])
  have hshort : ∀ p, (s.store.idx.tree.node? p).isSome → p.length ≤ 2 :=
    fun p hp => (Trie.length_le_height hp).trans hheight
  have hfits : CkptFits s.store.idx.tree := by
    refine ⟨fun p hp => (hshort p hp).trans (by decide), fun p lf hp => ?_⟩
    exact (hshort p (Trie.isSome_node?_of_leafAt hp)).trans_lt (by decide)
  exact ⟨s, hrun, hleaf, hfits, (reachable_ckpt_loads_iff (by decide) hrun 1 2 2 64).2 hfits⟩

/-- Group indices 127 and 128 are admitted, and their checkpoints are not loaded: the leaf of the
first is refused, the node of the second is looked up outside the stack. -/
theorem deep_puts_not_loaded :
    (∃ s, SessionRun twoDevs
        [.op (.put (putAt (List.replicate 128 7))), .op (.publish 0 2 0 0)] s ∧
      (s.store.idx.tree.leafAt (List.replicate 128 7)).isSome ∧
      (ckptLoad (some (ckptWrite s.store.idx 1 2 2 64)) 2 2 64).2 = some .eio) ∧
    ∃ s, SessionRun twoDevs
        [.op (.put (putAt (List.replicate 129 7))), .op (.publish 0 2 0 0)] s ∧
      (s.store.idx.tree.leafAt (List.replicate 129 7)).isSome ∧
      (ckptLoad (some (ckptWrite s.store.idx 1 2 2 64)) 2 2 64).2 = some .fault := by
  constructor
  · obtain ⟨s, hrun, hP⟩ := SessionRun.of_foldlM twoDevs
      [.op (.put (putAt (List.replicate 128 7))), .op (.publish 0 2 0 0)]
      (fun s => (s.store.idx.tree.leafAt (List.replicate 128 7)).isSome &&
        (loadedPart s.store.idx.shapes 1 s.store.idx.tree).2 == some .eio)
      (by decide) (by decide +kernel)
    have hok := (hrun.ok (by decide)).index
    simp only [Bool.and_eq_true, beq_iff_eq] at hP
    refine ⟨s, hrun, hP.1, ?_⟩
    rw [ckptLoad_ckptWrite_part hok.side.distinct hok.pool]
    exact hP.2
  obtain ⟨s, hrun, hP⟩ := SessionRun.of_foldlM twoDevs
    [.op (.put (putAt (List.replicate 129 7))), .op (.publish 0 2 0 0)]
    (fun s => (s.store.idx.tree.leafAt (List.replicate 129 7)).isSome &&
      (loadedPart s.store.idx.shapes 1 s.store.idx.tree).2 == some .fault)
    (by decide) (by decide +kernel)
  have hok := (hrun.ok (by decide)).index
  simp only [Bool.and_eq_true, beq_iff_eq] at hP
  refine ⟨s, hrun, hP.1, ?_⟩
  rw [ckptLoad_ckptWrite_part hok.side.distinct hok.pool]
  exact hP.2

/-! ## The name of the temporary file -/

section Names

variable {uri : List UInt8}

theorem ckptPath_eq (h : uri.length < 1019) :
    ckptPath uri = uri ++ [0x2e, 0x63, 0x6b, 0x70, 0x74] := by
  unfold ckptPath snprintf
  refine take_of_length_le ?_
  rw [length_append]
  change uri.length + 5 ≤ 1023
  omega

theorem length_ckptPath (h : uri.length < 1019) : (ckptPath uri).length = uri.length + 5 := by
  rw [ckptPath_eq h, length_append]
  rfl

theorem length_ckptTmp (path : List UInt8) :
    (ckptTmp path).length = min 511 (path.length + 4) := by
  unfold ckptTmp snprintf
  rw [length_take, length_append]
  rfl

theorem ckptTmp_eq_ckptPath_iff (h : uri.length < 1019) :
    ckptTmp (ckptPath uri) = ckptPath uri ↔ uri.length = 506 := by
  have hlen := length_ckptPath h
  constructor
  · intro heq
    have hl := congrArg List.length heq
    rw [length_ckptTmp, hlen] at hl
    omega
  · intro h506
    -- the four bytes of the suffix are what the buffer has no room for
    exact take_left' (by omega)

theorem ckptTmp_eq_uri_iff (h : uri.length < 1019) :
    ckptTmp (ckptPath uri) = uri ↔ uri.length = 511 := by
  constructor
  · intro heq
    have hl := congrArg List.length heq
    rw [length_ckptTmp, length_ckptPath h] at hl
    omega
  · intro h511
    unfold ckptTmp snprintf
    rw [ckptPath_eq h, List.append_assoc]
    exact take_left' h511

/-- The temporary file is neither the live checkpoint nor the device exactly when the URI has
neither 506 nor 511 bytes. -/
theorem ckpt_tmp_apart_iff (h : uri.length < 1019) :
    (ckptTmp (ckptPath uri) ≠ ckptPath uri ∧ ckptTmp (ckptPath uri) ≠ uri) ↔
      uri.length ≠ 506 ∧ uri.length ≠ 511 :=
  and_congr (not_congr (ckptTmp_eq_ckptPath_iff h)) (not_congr (ckptTmp_eq_uri_iff h))

end Names

/-- With a short URI all three files are different ones. -/
theorem ckpt_tmp_apart_short :
    ckptTmp (ckptPath [0x2f, 0x64]) ≠ ckptPath [0x2f, 0x64] ∧
      ckptTmp (ckptPath [0x2f, 0x64]) ≠ [0x2f, 0x64] :=
  (ckpt_tmp_apart_iff (by decide)).mpr (by decide)

/-- With a URI of 506 bytes the checkpoint is written over the live one, with one of 511 bytes over
the device. -/
theorem ckpt_tmp_is_live :
    ckptTmp (ckptPath (List.replicate 506 0x64)) = ckptPath (List.replicate 506 0x64) ∧
      ckptTmp (ckptPath (List.replicate 511 0x64)) = List.replicate 511 0x64 := by
  have hlen : ∀ n, (List.replicate n (0x64 : UInt8)).length = n := fun n => length_replicate
  refine ⟨(ckptTmp_eq_ckptPath_iff ?_).mpr (hlen 506), (ckptTmp_eq_uri_iff ?_).mpr (hlen 511)⟩
  · rw [hlen]
    decide
  · rw [hlen]
    decide

end KvTier.Analysis
