import KvTier.Analysis.EdgeStoreFacts
import KvTier.Lib.TrieBuild
import KvTier.Model.CheckpointBytes

/-!
# The order of the slots

The writer of a checkpoint goes through the slots of a node, and the loader adds the edges of the
node in that order.
-/

namespace KvTier.Analysis

open KvTier.Lib KvTier.Model List

section InSlotOrder

variable {γ δ : Type}

theorem inSlotOrder_map (f : γ → δ) (hs : List UInt64) (xs : List γ) :
    inSlotOrder hs (xs.map f) = (inSlotOrder hs xs).map f := by
  unfold inSlotOrder
  rw [map_filterMap]
  refine filterMap_congr fun e _ => ?_
  simp

theorem filterMap_zipIdx (hs : List UInt64) (xs : List γ) (hlen : xs.length = hs.length) :
    hs.zipIdx.filterMap (fun e => xs[e.2]?) = xs := by
  have hidx : (hs.zipIdx.map Prod.snd).map (fun i => xs[i]?) = xs.map some := by
    rw [zipIdx_map_snd]
    apply ext_getElem
    · simp [hlen]
    · intro i h1 h2
      have hi : i < xs.length := by simpa using h2
      simp [List.getElem?_eq_getElem hi]
  calc hs.zipIdx.filterMap (fun e => xs[e.2]?)
      = ((hs.zipIdx.map Prod.snd).map fun i => xs[i]?).filterMap id := by
        rw [map_map, filterMap_map]
        rfl
    _ = xs := by rw [hidx, filterMap_map]; exact filterMap_some

theorem inSlotOrder_perm {hs : List UInt64} (h : HashesOk hs) {xs : List γ}
    (hlen : xs.length = hs.length) : (inSlotOrder hs xs).Perm xs := by
  have hperm := (edges_storeOf h).filterMap fun e => xs[e.2]?
  rw [filterMap_zipIdx hs xs hlen] at hperm
  exact hperm

end InSlotOrder

/-! ## The tree in slot order -/

def slotParts : Radix → List (UInt64 × Option RadixLeaf × Radix)
  | .nil => []
  | .edge h l kids rest =>
    (h, l, .ofEdges (inSlotOrder kids.hashes (slotParts kids))) :: slotParts rest

def slotOrdered (t : Radix) : Radix := .ofEdges (inSlotOrder t.hashes (slotParts t))

theorem map_fst_slotParts (t : Radix) : (slotParts t).map Prod.fst = t.hashes := by
  induction t with
  | nil => rfl
  | edge h l kids rest _ ihr => simp [slotParts, Trie.hashes, ihr]

theorem inSlotOrder_slotParts_perm {t : Radix} (ht : TreeOk t) :
    (inSlotOrder t.hashes (slotParts t)).Perm (slotParts t) :=
  inSlotOrder_perm ht.hashes (by rw [← map_fst_slotParts, length_map])

theorem nodup_slotParts {t : Radix} (ht : TreeOk t) : ((slotParts t).map Prod.fst).Nodup := by
  rw [map_fst_slotParts]
  exact ht.hashes.nodup

theorem treeOk_inSlotOrder {t : Radix} (ht : TreeOk t) (hkids : ∀ e ∈ slotParts t, TreeOk e.2.2) :
    TreeOk (slotOrdered t) := by
  have hperm := inSlotOrder_slotParts_perm ht
  have hkeys := hperm.map Prod.fst
  constructor
  · refine Trie.distinct_ofEdges (hkeys.nodup_iff.mpr (nodup_slotParts ht)) fun e he => ?_
    exact (hkids e (hperm.mem_iff.mp he)).distinct
  refine Trie.allHashes_ofEdges fun e he => ⟨?_, (hkids e (hperm.mem_iff.mp he)).nonzero⟩
  have hmem : e.1 ∈ t.hashes := by
    rw [← map_fst_slotParts]
    exact mem_map.mpr ⟨e, hperm.mem_iff.mp he, rfl⟩
  exact fun h0 => ht.hashes.nonzero (h0 ▸ hmem)

theorem treeOk_slotParts {t : Radix} (ht : TreeOk t) : ∀ e ∈ slotParts t, TreeOk e.2.2 := by
  induction t with
  | nil => simp [slotParts]
  | edge h l kids rest ihk ihr =>
    intro e he
    rcases mem_cons.mp he with rfl | he
    · exact treeOk_inSlotOrder ht.kids (ihk ht.kids)
    · exact ihr ht.rest e he

theorem treeOk_slotOrdered {t : Radix} (ht : TreeOk t) : TreeOk (slotOrdered t) :=
  treeOk_inSlotOrder ht (treeOk_slotParts ht)

theorem node?_slotParts {t : Radix} (ht : TreeOk t) (q : List UInt64) :
    (Trie.ofEdges (slotParts t)).node? q = t.node? q := by
  induction t generalizing q with
  | nil => rfl
  | edge h l kids rest ihk ihr =>
    cases q with
    | nil => simp
    | cons x p =>
      have hkids : (Trie.ofEdges (inSlotOrder kids.hashes (slotParts kids))).node? p =
          kids.node? p := by
        rw [Trie.node?_ofEdges_perm (inSlotOrder_slotParts_perm ht.kids)
          (((inSlotOrder_slotParts_perm ht.kids).map Prod.fst).nodup_iff.mpr
            (nodup_slotParts ht.kids)), ihk ht.kids p]
      simp only [slotParts, Trie.ofEdges, Trie.node?_edge_cons, hkids, ihr ht.rest]

theorem node?_slotOrdered {t : Radix} (ht : TreeOk t) (q : List UInt64) :
    (slotOrdered t).node? q = t.node? q := by
  have hperm := inSlotOrder_slotParts_perm ht
  rw [slotOrdered, Trie.node?_ofEdges_perm hperm
    ((hperm.map Prod.fst).nodup_iff.mpr (nodup_slotParts ht)), node?_slotParts ht]

/-! ## The records -/

/-- The records of one edge of a node at depth `d - 1`. -/
def edgeRecs (d : Nat) (e : UInt64 × Option RadixLeaf × Radix) : List CkptRec :=
  .internal d e.1 :: (e.2.1.toList.map fun lf => .leaf (ckptLeafRec d e.1 lf)) ++
    ckptWriteRec (d + 1) e.2.2

theorem ckptWriteRec_ofEdges (d : Nat) (es : List (UInt64 × Option RadixLeaf × Radix)) :
    ckptWriteRec d (.ofEdges es) = (es.map (edgeRecs d)).flatten := by
  induction es with
  | nil => rfl
  | cons e es ih => simp [Trie.ofEdges, ckptWriteRec, edgeRecs, ih]

theorem ckptWriteEdges_eq (d : Nat) (t : Radix) :
    ckptWriteEdges d t = (slotParts t).map (edgeRecs d) := by
  induction t generalizing d with
  | nil => rfl
  | edge h l kids rest ihk ihr =>
    simp only [ckptWriteEdges, slotParts, map_cons, ihk, ihr, inSlotOrder_map, edgeRecs,
      ckptWriteRec_ofEdges]

theorem ckptTreeRecs_eq (t : Radix) : ckptTreeRecs t = ckptWriteRec 1 (slotOrdered t) := by
  rw [ckptTreeRecs, ckptWriteEdges_eq, inSlotOrder_map, slotOrdered, ckptWriteRec_ofEdges]

end KvTier.Analysis
