import KvTier.Analysis.LeafPages
import KvTier.Analysis.ThreadFacts

/-!
# Readers and the leaves they pin

As long as no publish makes a new leaf for a node a reader is at, every reader holds the leaf that
is in the index, and `refcnt` is the number of readers at the node (`PinsOk`).
-/

namespace KvTier.Analysis

open KvTier.Lib KvTier.Model List

variable {a : PublishArgs} {lf : RadixLeaf} {node : Path} {r : Reader}

/-- Readers have the leaf at their path, which counts them. -/
structure PinsOk (led : Ledger) (readers : List Reader) : Prop where
  attached : ∀ r ∈ readers, r.attached = true
  leaf : ∀ r ∈ readers, ∃ lf, led.idx.tree.leafAt r.path = some lf ∧ bareLeaf lf = bareLeaf r.leaf
  count : ∀ q lf, led.idx.tree.leafAt q = some lf →
    lf.refcnt = readers.countP fun r => decide (r.path = q)

section Pins

variable {led led' : Ledger} {readers : List Reader}

theorem PinsOk.pinned (h : PinsOk led readers) (hr : r ∈ readers)
    (hl : led.idx.tree.leafAt r.path = some lf) : 0 < lf.refcnt := by
  rw [h.count r.path lf hl, countP_pos_iff]
  exact ⟨r, hr, by simp⟩

theorem PinsOk.reader (h : PinsOk led readers) {q : Path} (hl : led.idx.tree.leafAt q = some lf)
    (hpin : 0 < lf.refcnt) : ∃ r ∈ readers, r.path = q ∧ bareLeaf lf = bareLeaf r.leaf := by
  rw [h.count q lf hl, countP_pos_iff] at hpin
  obtain ⟨r, hr, hq⟩ := hpin
  obtain rfl : r.path = q := by simpa using hq
  obtain ⟨lf', hl', hbare⟩ := h.leaf r hr
  obtain rfl := Option.some.inj (hl.symm.trans hl')
  exact ⟨r, hr, rfl, hbare⟩

theorem PinsOk.shrinks (h : PinsOk led readers) (hs : Shrinks led led') : PinsOk led' readers where
  attached := h.attached
  leaf r hr := by
    obtain ⟨lf, hl, hbare⟩ := h.leaf r hr
    exact ⟨lf, hs.pinned hl (h.pinned hr hl), hbare⟩
  count q lf hl := h.count q lf (hs.left hl)

theorem leafAt_setPins {f : Nat → Nat} (hl : led.idx.tree.leafAt node = some lf)
    (hs : led.setPins node f = some led') (q : Path) :
    led'.idx.tree.leafAt q = if q = node then some { lf with refcnt := f lf.refcnt }
      else led.idx.tree.leafAt q := by
  unfold Ledger.setPins at hs
  simp only [hl, Option.some.injEq] at hs
  subst hs
  show (led.idx.tree.setLeaf node _).leafAt q = _
  rw [Trie.leafAt_setLeaf]
  by_cases hq : q = node
  · subst hq
    simp [Trie.isSome_node?_of_leafAt hl]
  · simp [hq]

theorem leafAt_of_setPins {f : Nat → Nat} (hs : led.setPins node f = some led') {q : Path}
    (hl : led'.idx.tree.leafAt q = some lf) :
    ∃ lf0, led.idx.tree.leafAt q = some lf0 ∧ bareLeaf lf = bareLeaf lf0 := by
  cases hnode : led.idx.tree.leafAt node with
  | none =>
    simp only [Ledger.setPins, hnode, Option.some.injEq] at hs
    exact ⟨lf, hs ▸ hl, rfl⟩
  | some lf0 =>
    rw [leafAt_setPins hnode hs] at hl
    split at hl
    · rename_i hq
      cases hl
      exact ⟨lf0, hq ▸ hnode, rfl⟩
    · exact ⟨lf, hl, rfl⟩

theorem PinsOk.pin (h : PinsOk led readers) {path : Path} (hl : led.idx.tree.leafAt path = some lf)
    (hs : led.step (.pin path) = some led') : PinsOk led' (readers ++ [⟨path, lf, true⟩]) := by
  have hleafAt := leafAt_setPins hl (show led.setPins path (· + 1) = some led' from hs)
  refine ⟨fun r hr => ?_, fun r hr => ?_, fun q lf' hq => ?_⟩
  · rcases mem_append.1 hr with hr | hr
    · exact h.attached r hr
    · rw [mem_singleton.1 hr]
  · rcases mem_append.1 hr with hr | hr
    · obtain ⟨lf0, hl0, hbare⟩ := h.leaf r hr
      rw [hleafAt]
      split
      · rename_i hp
        rw [hp] at hl0
        obtain rfl := Option.some.inj (hl.symm.trans hl0)
        exact ⟨_, rfl, hbare⟩
      · exact ⟨lf0, hl0, hbare⟩
    · rw [mem_singleton.1 hr, hleafAt, if_pos rfl]
      exact ⟨_, rfl, rfl⟩
  rw [hleafAt] at hq
  rw [countP_append, countP_singleton]
  split at hq
  · rename_i hp
    cases hq
    subst hp
    simp [h.count q lf hl]
  · rename_i hp
    simp [h.count q lf' hq, Ne.symm hp]

theorem PinsOk.unpin (h : PinsOk led readers) {i : Nat} (hr : readers[i]? = some r)
    (hs : led.step (.unpin r.path) = some led') : PinsOk led' (readers.eraseIdx i) := by
  have hmem := mem_of_getElem? hr
  obtain ⟨lf, hl, _⟩ := h.leaf r hmem
  have hleafAt := leafAt_setPins hl (show led.setPins r.path (· - 1) = some led' from hs)
  -- The count without this reader.
  have hcount : ∀ q, readers.countP (fun r => decide (r.path = q)) =
      (readers.eraseIdx i).countP (fun r => decide (r.path = q)) + if r.path = q then 1 else 0 := by
    intro q
    obtain ⟨hi, hget⟩ := List.getElem?_eq_some_iff.1 hr
    rw [eraseIdx_eq_take_drop_succ, countP_append]
    nth_rewrite 1 [← take_append_drop i readers]
    rw [countP_append, drop_eq_getElem_cons hi, hget, countP_cons]
    simp only [decide_eq_true_eq]
    omega
  refine ⟨fun r' hr' => h.attached r' (mem_of_mem_eraseIdx hr'), fun r' hr' => ?_,
    fun q lf' hq => ?_⟩
  · obtain ⟨lf0, hl0, hbare⟩ := h.leaf r' (mem_of_mem_eraseIdx hr')
    rw [hleafAt]
    split
    · rename_i hp
      rw [hp] at hl0
      obtain rfl := Option.some.inj (hl.symm.trans hl0)
      exact ⟨_, rfl, hbare⟩
    · exact ⟨lf0, hl0, hbare⟩
  rw [hleafAt] at hq
  have hq' := hcount q
  split at hq
  · rename_i hp
    cases hq
    subst hp
    have hlf := h.count _ _ hl
    rw [if_pos rfl] at hq'
    show lf.refcnt - 1 = _
    omega
  rename_i hp
  have hlf := h.count _ _ hq
  rw [if_neg (Ne.symm hp)] at hq'
  omega

end Pins

/-! ## Publishing a batch -/

/-- Whether a request makes a new leaf where this one is. -/
def replacesLeaf (lf : RadixLeaf) (r : PutReq) : Bool :=
  decide (lf.ver < r.ver) || (decide (lf.ver = r.ver) && r.flags.stripe && lf.stripe.isNone)

/-- The node a request is published at, or may be after others of its batch. -/
def ReachesNode (idx : Index) (reqs : List QReq) (r : QReq) (q : Path) : Prop :=
  sideGet idx.side r.req.prefixId r.req.groupIdx = some q ∨
    ∃ r0 ∈ reqs, r0.req.prefixId = r.req.prefixId ∧ r0.req.groupIdx = r.req.groupIdx ∧
      r0.req.path = q

/-- No request of the batch replaces a leaf that is pinned. -/
def SparesPinned (idx : Index) (reqs : List QReq) (readers : List Reader) : Prop :=
  ∀ rd ∈ readers, ∀ r ∈ reqs, ReachesNode idx reqs r rd.path → replacesLeaf rd.leaf r.req = false

section Publish

variable {led led' : Ledger} {readers : List Reader}

@[simp]
theorem path_reader_publish (node : Path) (fresh : Bool) (lf : Option RadixLeaf) (r : Reader) :
    (r.publish node fresh lf).path = r.path := by
  unfold Reader.publish
  split
  · rfl
  · split <;> rfl

theorem publishesNew_of_bareLeaf {lf lf' : RadixLeaf} (h : bareLeaf lf = bareLeaf lf')
    (a : PublishArgs) : publishesNew (some lf) a = publishesNew (some lf') a :=
  show publishesNew (some (bareLeaf lf)) a = publishesNew (some (bareLeaf lf')) a by rw [h]

theorem PinsOk.reader_publish (hok : LedgerOk led) (h : PinsOk led readers)
    (hnode : (resolveNode led.idx a.prefixId a.groupIdx a.path).2 = node)
    (hspare : ∀ r ∈ readers, r.path = node → publishesNew (some r.leaf) a = false)
    (hs : led.step (.publish a) = some led') (hr : r ∈ readers) :
    (r.path ≠ node ∧ r.publish node (publishesNew (led.idx.tree.leafAt node) a)
      (led'.idx.tree.leafAt node) = r) ∨
    (r.path = node ∧ publishesNew (led.idx.tree.leafAt node) a = false ∧
      ∃ lf', led'.idx.tree.leafAt node = some lf' ∧
        r.publish node (publishesNew (led.idx.tree.leafAt node) a) (led'.idx.tree.leafAt node) =
          { r with leaf := lf' } ∧
        lf'.ver = r.leaf.ver ∧ lf'.stripe.isNone = r.leaf.stripe.isNone) := by
  by_cases hp : r.path = node
  · refine .inr ⟨hp, ?_⟩
    obtain ⟨lf, hl, hbare⟩ := h.leaf r hr
    rw [hp] at hl
    have hold : publishesNew (led.idx.tree.leafAt node) a = false := by
      rw [hl, publishesNew_of_bareLeaf hbare]
      exact hspare r hr hp
    obtain ⟨lf', hlf', hfresh⟩ := leafPublish_fresh_cases (led.idx.tree.leafAt node) a
    rcases hfresh with ⟨hnew, _⟩ | ⟨_, o, ho, _, hver, hstripe⟩
    · rw [hold] at hnew
      cases hnew
    obtain rfl := Option.some.inj (hl.symm.trans ho)
    have hself : led'.idx.tree.leafAt node = some lf' := by
      rw [leafAt_ledger_publish hok hs, hnode, if_pos rfl, hlf']
    refine ⟨hold, lf', hself, ?_, hver.trans ?_, hstripe.trans ?_⟩
    · unfold Reader.publish
      rw [if_neg (by simp [hp, h.attached r hr]), hold, hself]
      rfl
    · exact show (bareLeaf lf).ver = (bareLeaf r.leaf).ver by rw [hbare]
    · exact show (bareLeaf lf).stripe.isNone = (bareLeaf r.leaf).stripe.isNone by rw [hbare]
  · refine .inl ⟨hp, ?_⟩
    unfold Reader.publish
    rw [if_pos (.inl hp)]

theorem PinsOk.publish (hok : LedgerOk led) (h : PinsOk led readers)
    (hnode : (resolveNode led.idx a.prefixId a.groupIdx a.path).2 = node)
    (hspare : ∀ r ∈ readers, r.path = node → publishesNew (some r.leaf) a = false)
    (hs : led.step (.publish a) = some led') :
    PinsOk led' (readers.map (Reader.publish node (publishesNew (led.idx.tree.leafAt node) a)
      (led'.idx.tree.leafAt node))) := by
  have hleafAt := leafAt_ledger_publish hok hs
  rw [hnode] at hleafAt
  refine ⟨fun r hr => ?_, fun r hr => ?_, fun q lf hq => ?_⟩
  · obtain ⟨r0, hr0, rfl⟩ := mem_map.1 hr
    rcases h.reader_publish hok hnode hspare hs hr0 with ⟨_, heq⟩ | ⟨_, _, _, _, heq, _⟩
    · rw [heq]
      exact h.attached r0 hr0
    · rw [heq]
      exact h.attached r0 hr0
  · obtain ⟨r0, hr0, rfl⟩ := mem_map.1 hr
    rcases h.reader_publish hok hnode hspare hs hr0 with ⟨hne, heq⟩ | ⟨hp, _, lf', hself, heq, _⟩
    · rw [heq, hleafAt, if_neg hne]
      exact h.leaf r0 hr0
    · rw [heq]
      exact ⟨lf', hp ▸ hself, rfl⟩
  have hcount : (readers.map (Reader.publish node (publishesNew (led.idx.tree.leafAt node) a)
      (led'.idx.tree.leafAt node))).countP (fun r => decide (r.path = q)) =
      readers.countP fun r => decide (r.path = q) := by
    rw [countP_map]
    congr 1
    funext r
    simp
  rw [hcount]
  rw [hleafAt] at hq
  split at hq
  · rename_i hp
    subst hp
    obtain ⟨lf', hlf', hfresh⟩ := leafPublish_fresh_cases (led.idx.tree.leafAt q) a
    obtain rfl := Option.some.inj (hlf'.symm.trans hq)
    rcases hfresh with ⟨hnew, hzero⟩ | ⟨_, o, ho, hpins, _⟩
    · -- A new leaf has no pins, and nobody is at its node.
      rw [hzero, eq_comm, countP_eq_zero]
      intro r hr hrq
      rcases h.reader_publish hok hnode hspare hs hr with ⟨hne, _⟩ | ⟨_, hold, _⟩
      · exact hne (by simpa using hrq)
      · rw [hold] at hnew
        cases hnew
    · rw [hpins]
      exact h.count q o ho
  · exact h.count q lf hq

end Publish

theorem regionOfPage_of_between {cfg : Config} {i p : Nat} (hlo : pageBase cfg i ≤ p)
    (hhi : p < pageBase cfg i + cfg.regionSizePages) : regionOfPage cfg p = some i := by
  unfold pageBase at hlo hhi
  unfold regionOfPage
  rw [if_neg (by omega), Option.some.injEq]
  refine Nat.div_eq_of_lt_le ?_ ?_
  · omega
  · rw [Nat.succ_mul]
    omega

/-- What holds while a batch is published. -/
structure BatchInv (cfg : Config) (idx : Index) (reqs : List QReq) (used : Nat → Nat → Prop)
    (st : Ledger × List Reader) : Prop where
  cfgEq : st.1.cfg = cfg
  ledger : LedgerOk st.1
  pins : PinsOk st.1 st.2
  side : ∀ p g q, sideGet st.1.idx.side p g = some q → sideGet idx.side p g = some q ∨
    ∃ r0 ∈ reqs, r0.req.prefixId = p ∧ r0.req.groupIdx = g ∧ r0.req.path = q
  spares : SparesPinned idx reqs st.2
  leaves : ∀ q lf, st.1.idx.tree.leafAt q = some lf → LeafIn cfg used lf

section Batch

variable {cfg : Config} {idx : Index} {reqs : List QReq} {used : Nat → Nat → Prop}
  {c : Completion} {st st' : Ledger × List Reader}

theorem side_ledger_publish {led led' : Ledger} (h : led.step (.publish a) = some led') :
    led'.idx.side = (resolveNode led.idx a.prefixId a.groupIdx a.path).1.side := by
  simp only [Ledger.step] at h
  split at h
  · cases h
  · obtain ⟨_, _, _, rfl⟩ := (publishAt_eq_some_iff _ _ _ _).mp h
    rfl

theorem BatchInv.reaches (h : BatchInv cfg idx reqs used st) {r : QReq} (hr : r ∈ reqs) :
    ReachesNode idx reqs r
      (resolveNode st.1.idx r.req.prefixId r.req.groupIdx r.req.path).2 := by
  unfold resolveNode
  split
  · rename_i node hside
    exact h.side _ _ _ hside
  · exact .inr ⟨r, hr, rfl, rfl, rfl⟩

/-- One request of the batch. -/
theorem BatchInv.one (h : BatchInv cfg idx reqs used st) {k page : Nat} {r : QReq}
    (hr : r ∈ reqs)
    (hpages : ∃ i, used c.dev i ∧ ∀ p, page ≤ p → p < page + payloadNpages r.req.dataLen →
      regionOfPage cfg p = some i)
    (hs : publishOne st (c.args k page r) = some st') : BatchInv cfg idx reqs used st' := by
  obtain ⟨led', hled, rfl⟩ := Option.map_eq_some_iff.1
    (show (st.1.step (.publish (c.args k page r))).map _ = some st' from hs)
  have hreach := h.reaches hr
  have hspare : ∀ rd ∈ st.2,
      rd.path = (resolveNode st.1.idx r.req.prefixId r.req.groupIdx r.req.path).2 →
      publishesNew (some rd.leaf) (c.args k page r) = false :=
    fun rd hrd hp => h.spares rd hrd r hr (hp ▸ hreach)
  have htree : (resolveNode st.1.idx r.req.prefixId r.req.groupIdx r.req.path).1.tree.leafAt
      (resolveNode st.1.idx r.req.prefixId r.req.groupIdx r.req.path).2 =
      st.1.idx.tree.leafAt (resolveNode st.1.idx r.req.prefixId r.req.groupIdx r.req.path).2 :=
    leafAt_resolveNode ..
  have hpins := h.pins.publish h.ledger rfl hspare hled
  rw [show (c.args k page r).prefixId = r.req.prefixId from rfl,
    show (c.args k page r).groupIdx = r.req.groupIdx from rfl,
    show (c.args k page r).path = r.req.path from rfl, ← htree] at hpins
  refine ⟨(h.ledger.step hled).2.trans h.cfgEq, (h.ledger.step hled).1, hpins, ?_, ?_, ?_⟩
  · intro p g q hq
    rw [side_ledger_publish hled] at hq
    rcases sideGet_resolveNode_cases _ _ _ _ hq with hold | ⟨rfl, rfl, rfl⟩
    · exact h.side p g q hold
    · exact .inr ⟨r, hr, rfl, rfl, rfl⟩
  · intro rd' hrd' r' hr' hreach'
    obtain ⟨rd, hrd, rfl⟩ := mem_map.1 hrd'
    rw [path_reader_publish] at hreach'
    have hold := h.spares rd hrd r' hr' hreach'
    show replacesLeaf (rd.publish (resolveNode st.1.idx r.req.prefixId r.req.groupIdx r.req.path).2
      (publishesNew ((resolveNode st.1.idx r.req.prefixId r.req.groupIdx r.req.path).1.tree.leafAt
        (resolveNode st.1.idx r.req.prefixId r.req.groupIdx r.req.path).2) (c.args k page r))
      (led'.idx.tree.leafAt _)).leaf r'.req = false
    rw [htree]
    rcases h.pins.reader_publish h.ledger rfl hspare hled hrd with
      ⟨_, heq⟩ | ⟨_, _, lf', _, heq, hver, hstripe⟩
    · exact (congrArg (fun x : Reader => replacesLeaf x.leaf r'.req) heq).trans hold
    · refine (congrArg (fun x : Reader => replacesLeaf x.leaf r'.req) heq).trans ?_
      simp only [replacesLeaf, hver, hstripe]
      exact hold
  intro q lf hq e he hpos
  rw [leafAt_ledger_publish h.ledger hled] at hq
  split at hq
  · rcases mem_extents_leafPublish hq he hpos with ⟨o, ho, hmem⟩ | rfl
    · exact h.leaves q o ho e hmem hpos
    · exact hpages
  · exact h.leaves q lf hq e he hpos

theorem BatchInv.batch {w : Write} (hw : w.Inside cfg) (hused : used c.dev w.region)
    (rs : List QReq) (hrs : ∀ r ∈ rs, r ∈ reqs) (k page : Nat) (hlo : w.start ≤ page)
    (hhi : page + batchPages rs ≤ w.start + w.npages) (h : BatchInv cfg idx reqs used st)
    (hs : publishBatch c k page rs st = some st') : BatchInv cfg idx reqs used st' := by
  induction rs generalizing k page st with
  | nil =>
    cases hs
    exact h
  | cons r rs ih =>
    obtain ⟨st1, h1, h2⟩ := Option.bind_eq_some_iff.1
      (show (publishNth c k page r st).bind _ = some st' from hs)
    have hsum : batchPages (r :: rs) = payloadNpages r.req.dataLen + batchPages rs := by
      simp [batchPages]
    have hstep : BatchInv cfg idx reqs used st1 := by
      unfold publishNth at h1
      split at h1
      · cases h1
        exact h
      · refine h.one (hrs r mem_cons_self) ⟨w.region, hused, fun p hp hp' => ?_⟩ h1
        obtain ⟨_, hstart, hend⟩ := hw
        exact regionOfPage_of_between (by omega) (by omega)
    exact ih (fun r' hr' => hrs r' (mem_cons_of_mem r hr')) (k + 1)
      (page + payloadNpages r.req.dataLen) (by omega) (by omega) hstep h2

end Batch

end KvTier.Analysis
