import KvTier.Lib.Reassembly
import KvTier.Analysis.SingleCopy

/-!
# Replay of striped puts

A striped put is published part by part.
-/

namespace KvTier.Analysis

open KvTier.Lib KvTier.Model List

variable {as : List PublishArgs} {l : Option RadixLeaf} {n : Nat} {sh : Option Shape}

/-! ## Publishing at one node -/

/-- The leaf a node has after some publishes. -/
def publishLeaf (l : Option RadixLeaf) (as : List PublishArgs) : Option RadixLeaf :=
  as.foldl (fun l a => (leafPublish l a).leaf) l

def publishOob : Option RadixLeaf → List PublishArgs → Bool
  | _, [] => false
  | l, a :: as => (leafPublish l a).oob || publishOob (leafPublish l a).leaf as

theorem leafAt_publishAll {idx : Index} {node : Path} (hnode : (idx.tree.node? node).isSome)
    (as : List PublishArgs) (q : Path) :
    (publishAll idx node as).tree.leafAt q =
      if q = node then publishLeaf (idx.tree.leafAt node) as else idx.tree.leafAt q := by
  induction as generalizing idx with
  | nil =>
    by_cases hq : q = node
    · subst hq; simp [publishAll, publishLeaf]
    · simp [publishAll, hq]
  | cons a as ih =>
    have hstep := leafAt_publish idx node a hnode
    have hnode' : ((idx.publish node a).tree.node? node).isSome := by
      rw [isSome_node?_publish]
      exact hnode
    have := ih hnode'
    rw [hstep node, if_pos rfl] at this
    refine this.trans ?_
    by_cases hq : q = node
    · simp [hq, publishLeaf]
    · simp [hq, hstep q]

theorem oob_publishAll {idx : Index} {node : Path} (hnode : (idx.tree.node? node).isSome)
    (as : List PublishArgs) :
    (publishAll idx node as).oob = (idx.oob || publishOob (idx.tree.leafAt node) as) := by
  induction as generalizing idx with
  | nil => simp [publishAll, publishOob]
  | cons a as ih =>
    have hnode' : ((idx.publish node a).tree.node? node).isSome := by
      rw [isSome_node?_publish]
      exact hnode
    have := ih hnode'
    rw [leafAt_publish idx node a hnode node, if_pos rfl] at this
    refine this.trans ?_
    simp [publishOob, Index.publish, Bool.or_assoc]

/-- The leaf there, if any, has a version before `v`. -/
def Stale (v : Nat) (l : Option RadixLeaf) : Prop := ∀ lf, l = some lf → lf.ver < v

theorem stale_of_none {v : Nat} (h : l = none) : Stale v l := by
  intro lf hl
  rw [h] at hl
  cases hl

theorem publishLeaf_older {v w : Nat} (hw : w < v) (has : ∀ a ∈ as, a.ver = w) :
    (Stale v l → Stale v (publishLeaf l as)) ∧
      (∀ lf, l = some lf → lf.ver = v → publishLeaf l as = l) := by
  induction as generalizing l with
  | nil => exact ⟨fun h => h, fun _ _ _ => rfl⟩
  | cons a as ih =>
    have ha : a.ver = w := has a (by simp)
    obtain ⟨ih1, ih2⟩ := ih (l := (leafPublish l a).leaf) (fun b hb => has b (by simp [hb]))
    refine ⟨fun hst => ih1 ?_, fun lf hl hlf => ?_⟩
    · intro lf' hlf'
      rcases ver_leafPublish _ _ _ hlf' with hv | ⟨lf0, hold, hv⟩
      · omega
      · have := hst lf0 hold
        omega
    have hrej : (leafPublish l a).leaf = l := by
      subst hl
      have hgt : lf.ver > a.ver := by omega
      unfold leafPublish
      split <;> simp [hgt]
    have := ih2 lf (hrej.trans hl) hlf
    show publishLeaf (leafPublish l a).leaf as = l
    rw [this, hrej]

/-! ## The leaf of a striped put -/

/-- What the records of a striped put say of its leaf. -/
structure StripeImage where
  prefixId : UInt64
  ver : Nat
  nParts : Nat
  total : Nat
  crc : Nat
  lens : List Nat
  part : Nat → Extent

namespace StripeImage

/-- The leaf of the put with the given part slots. -/
def leafWith (img : StripeImage) (sh : Option Shape) (parts : List StripePart) : RadixLeaf where
  refcnt := 0
  ver := img.ver
  prefixId := img.prefixId
  addr0 := { KvAddr.zero with crc := img.crc }
  addr1 := KvAddr.zero
  stripe := some ⟨img.nParts, img.total, parts⟩
  shape := sh

def withTotal (img : StripeImage) (total : Nat) : StripeImage := { img with total := total }

/-- The arguments of `leaf_publish` for one of its parts. -/
structure IsPart (img : StripeImage) (a : PublishArgs) : Prop where
  stripe : a.flags.stripe = true
  prefixId : a.prefixId = img.prefixId
  ver : a.ver = img.ver
  cnt : a.stripeCnt = img.nParts
  crc : a.addr.crc = img.crc
  lens : lensOf a.shape = img.lens
  idx : a.stripeIdx < img.nParts
  part : a.addr.extent = img.part a.stripeIdx

/-- The complete leaf of the put. -/
def Complete (img : StripeImage) (l : Option RadixLeaf) : Prop :=
  ∃ sh, lensOf sh = img.lens ∧
    l = some (img.leafWith sh ((List.range img.nParts).map img.part))

/-- The slot writes of some publishes. -/
def writes (as : List PublishArgs) : List (Nat × Extent) :=
  as.map fun a => (a.stripeIdx, a.addr.extent)

variable {img : StripeImage}

theorem IsPart.withTotal {a : PublishArgs} (h : img.IsPart a) (total : Nat) :
    (img.withTotal total).IsPart a :=
  ⟨h.stripe, h.prefixId, h.ver, h.cnt, h.crc, h.lens, h.idx, h.part⟩

theorem leafPublish_leafWith {a : PublishArgs} (ha : img.IsPart a) (hsh : lensOf sh = img.lens)
    (parts : List StripePart) :
    ∃ sh', lensOf sh' = img.lens ∧
      (leafPublish (some (img.leafWith sh parts)) a).leaf =
        some (img.leafWith sh' (parts.set a.stripeIdx a.addr.extent)) ∧
      (leafPublish (some (img.leafWith sh parts)) a).oob = decide (parts.length ≤ a.stripeIdx) := by
  refine ⟨sh <|> a.shape, ?_, ?_, ?_⟩
  · cases sh with
    | none => exact ha.lens
    | some _ => exact hsh
  all_goals
    simp [leafPublish, ha.stripe, leafWith, ha.ver, addStripePart, ha.crc]

theorem publishLeaf_leafWith (has : ∀ a ∈ as, img.IsPart a) (hsh : lensOf sh = img.lens)
    (parts : List StripePart) (hlen : parts.length = img.nParts) :
    (∃ sh', lensOf sh' = img.lens ∧
      publishLeaf (some (img.leafWith sh parts)) as =
        some (img.leafWith sh' (fillAll parts (writes as)))) ∧
    publishOob (some (img.leafWith sh parts)) as = false := by
  induction as generalizing sh parts with
  | nil => exact ⟨⟨sh, hsh, rfl⟩, rfl⟩
  | cons a as ih =>
    have ha := has a (by simp)
    obtain ⟨sh', hsh', hleaf, hoob⟩ := leafPublish_leafWith ha hsh parts
    obtain ⟨hrest, hoob'⟩ := ih (fun b hb => has b (by simp [hb])) hsh'
      (parts.set a.stripeIdx a.addr.extent) (by simpa using hlen)
    refine ⟨?_, ?_⟩
    · obtain ⟨sh'', hsh'', he⟩ := hrest
      refine ⟨sh'', hsh'', ?_⟩
      show publishLeaf (leafPublish _ a).leaf as = _
      rw [hleaf]
      exact he
    have hin : ¬ parts.length ≤ a.stripeIdx := by
      have := ha.idx
      omega
    rw [publishOob, hoob, hleaf, hoob']
    simpa using hin

theorem publishLeaf_parts (has : ∀ a ∈ as, img.IsPart a)
    (htot : ∀ a ∈ as, a.stripeTotal = img.total) (hne : as ≠ []) (hl : Stale img.ver l) :
    (∃ sh, lensOf sh = img.lens ∧
      publishLeaf l as = some (img.leafWith sh
        (fillAll (List.replicate img.nParts StripePart.none) (writes as)))) ∧
    publishOob l as = false := by
  cases as with
  | nil => exact absurd rfl hne
  | cons a as =>
    have ha := has a (by simp)
    have hfirst : leafPublish l a = ⟨some (newStripeLeaf a), true, oldExtents l, [a.addr.extent],
        decide (a.stripeCnt ≤ a.stripeIdx)⟩ := by
      unfold leafPublish
      cases l with
      | none => simp [ha.stripe]
      | some lf =>
        have hlt : lf.ver < a.ver := by
          rw [ha.ver]
          exact hl lf rfl
        have h1 : ¬ lf.ver > a.ver := by omega
        have h2 : lf.ver ≠ a.ver := by omega
        simp [ha.stripe, h1, h2]
    have hnew : newStripeLeaf a = img.leafWith a.shape
        ((List.replicate img.nParts StripePart.none).set a.stripeIdx a.addr.extent) := by
      simp [newStripeLeaf, leafWith, ha.ver, ha.prefixId, ha.crc, ha.cnt, htot a (by simp)]
    have has' : ∀ b ∈ as, img.IsPart b := fun b hb => has b (by simp [hb])
    have hrest := publishLeaf_leafWith has' ha.lens
      ((List.replicate img.nParts StripePart.none).set a.stripeIdx a.addr.extent) (by simp)
    rw [← hnew] at hrest
    have hin : ¬ a.stripeCnt ≤ a.stripeIdx := by
      have := ha.idx
      rw [ha.cnt]
      omega
    refine ⟨?_, ?_⟩
    · show ∃ sh, _ ∧ publishLeaf (leafPublish l a).leaf as = _
      rw [hfirst]
      exact hrest.1
    · rw [publishOob, hfirst, hrest.2]
      simpa using hin

/-- The publishes cover every part. -/
def Covers (img : StripeImage) (as : List PublishArgs) : Prop :=
  ∀ i, i < img.nParts → ∃ a ∈ as, a.stripeIdx = i

theorem fillAll_writes (has : ∀ a ∈ as, img.IsPart a) (hall : img.Covers as)
    {parts : List StripePart} (hlen : parts.length = img.nParts) :
    fillAll parts (writes as) = (List.range img.nParts).map img.part := by
  rw [← hlen]
  apply fillAll_eq_map
  · intro w hw
    obtain ⟨a, ha, rfl⟩ := mem_map.mp hw
    exact (has a ha).part
  · intro i hi
    obtain ⟨a, ha, rfl⟩ := hall i (hlen ▸ hi)
    exact mem_map.mpr ⟨_, mem_map.mpr ⟨a, ha, rfl⟩, rfl⟩

theorem complete_publishLeaf (has : ∀ a ∈ as, img.IsPart a)
    (htot : ∀ a ∈ as, a.stripeTotal = img.total) (hall : img.Covers as) (hn : 0 < img.nParts)
    (hl : Stale img.ver l) : img.Complete (publishLeaf l as) ∧ publishOob l as = false := by
  have hne : as ≠ [] := by
    rintro rfl
    obtain ⟨a, ha, _⟩ := hall 0 hn
    cases ha
  obtain ⟨⟨sh, hsh, he⟩, hoob⟩ := publishLeaf_parts has htot hne hl
  rw [fillAll_writes has hall (by simp)] at he
  exact ⟨⟨sh, hsh, he⟩, hoob⟩

theorem Complete.publishLeaf (has : ∀ a ∈ as, img.IsPart a) (hl : img.Complete l) :
    img.Complete (publishLeaf l as) := by
  obtain ⟨sh, hsh, rfl⟩ := hl
  obtain ⟨⟨sh', hsh', he⟩, _⟩ := publishLeaf_leafWith has hsh
    ((List.range img.nParts).map img.part) (by simp)
  refine ⟨sh', hsh', he.trans ?_⟩
  have hsame : fillAll ((List.range img.nParts).map img.part) (writes as) =
      (List.range img.nParts).map img.part := by
    apply ext_getElem?
    intro i
    by_cases hi : i < img.nParts
    · rw [getElem?_fillAll (f := img.part) _ (by simpa using hi)]
      · simp [hi]
      · intro w hw
        obtain ⟨a, ha, rfl⟩ := mem_map.mp hw
        exact (has a ha).part
    · rw [List.getElem?_eq_none (by simpa using hi), List.getElem?_eq_none (by simpa using hi)]
  rw [hsame]

theorem Complete.ver (hl : img.Complete l) : ∃ lf, l = some lf ∧ lf.ver = img.ver := by
  obtain ⟨sh, _, rfl⟩ := hl
  exact ⟨_, rfl, rfl⟩

end StripeImage

/-! ## The reassembly table -/

/-- What `replay_find_stripe` compares. -/
abbrev Triple := UInt64 × Nat × Nat

/-- The put a record belongs to. -/
def recTriple (r : JournalRec) : Triple := (r.prefixId, r.groupIdx, r.ver)

/-- The put a table entry belongs to. -/
def entryTriple (s : ReplayStripe) : Triple := (s.prefixId, s.groupIdx, s.ver)

/-- The records that go through the table. -/
def isPartRec (r : JournalRec) : Bool := decide (r.op = .put ∧ 1 < r.stripeCnt)

/-- A new entry of the table (cache.cpp:655-661). -/
def newEntry (r : JournalRec) : ReplayStripe :=
  ⟨r.prefixId, r.groupIdx, r.ver, r.stripeCnt, 0, List.replicate r.stripeCnt ReplayPart.zero⟩

/-- The table after a part record. -/
def tableAfter (t : List ReplayStripe) (r : JournalRec) : List ReplayStripe :=
  upsert entryTriple (newEntry r) (fun s => s.fill r) replayStripeCap t

/-- The entry of a put. -/
def entry (t : List ReplayStripe) (k : Triple) : Option ReplayStripe :=
  t.find? fun s => decide (entryTriple s = k)

theorem isFor_eq (s : ReplayStripe) (r : JournalRec) :
    s.isFor r = decide (entryTriple s = recTriple r) := by
  rw [Bool.eq_iff_iff, decide_eq_true_eq]
  simp [ReplayStripe.isFor, entryTriple, recTriple, and_assoc]

@[simp]
theorem entryTriple_fill (r : JournalRec) (s : ReplayStripe) :
    entryTriple (s.fill r) = entryTriple s := by
  unfold ReplayStripe.fill
  split <;> rfl

theorem upsert_eq_set (cap : Nat) (t : List ReplayStripe) (r : JournalRec) (d : ReplayStripe) :
    upsert entryTriple (newEntry r) (fun s => s.fill r) cap t =
      match t.findIdx? (·.isFor r) with
      | some i => t.set i ((t.getD i d).fill r)
      | none => if cap ≤ t.length then t else t ++ [(newEntry r).fill r] := by
  induction t generalizing cap with
  | nil => by_cases hc : cap = 0 <;> simp [upsert, hc]
  | cons s t ih =>
    rw [upsert, List.findIdx?_cons, isFor_eq]
    have hkey : entryTriple (newEntry r) = recTriple r := rfl
    rw [hkey]
    by_cases hs : entryTriple s = recTriple r
    · rw [if_pos hs]
      simp [hs]
    rw [if_neg hs, ih]
    simp only [hs, decide_false, Bool.false_eq_true, if_false]
    cases t.findIdx? (·.isFor r) with
    | some i => simp
    | none =>
      have hcap : cap - 1 ≤ t.length ↔ cap ≤ (s :: t).length := by
        rw [length_cons]
        omega
      simp only [Option.map_none, hcap]
      split <;> rfl

def partPublishes (t : List ReplayStripe) (r : JournalRec) (sh : Option Shape) :
    List PublishArgs :=
  match entry t (recTriple r) with
  | none => []
  | some s =>
    if s.stripeCnt ≤ s.nSeen then (List.range s.stripeCnt).map (replayPartArgs r s sh) else []

theorem replayPublishAll_eq (idx : Index) (node : Path) (r : JournalRec) (s : ReplayStripe)
    (sh : Option Shape) :
    replayPublishAll idx node r s sh =
      publishAll idx node ((List.range s.stripeCnt).map (replayPartArgs r s sh)) := by
  rw [publishAll, foldl_map]
  rfl

theorem replayPut_part (st : Replay) (node : Path) {r : JournalRec} (hr : 1 < r.stripeCnt) :
    replayPut st node r =
      { st with
        stripes := tableAfter st.stripes r
        idx := publishAll { st.idx with shapes := (replayShape st.idx.shapes r).1 } node
          (partPublishes (tableAfter st.stripes r) r (replayShape st.idx.shapes r).2) } := by
  have hself := find?_upsert_self entryTriple (newEntry r) (fun s => s.fill r)
    (entryTriple_fill r) replayStripeCap st.stripes
  have hset := upsert_eq_set replayStripeCap st.stripes r ⟨0, 0, 0, 0, 0, []⟩
  have hfind : st.stripes.find? (fun s => decide (entryTriple s = entryTriple (newEntry r))) =
      st.stripes.find? (·.isFor r) := by
    congr 1
    funext s
    exact (isFor_eq s r).symm
  have hnew : entry (tableAfter st.stripes r) (recTriple r) =
      (tableAfter st.stripes r).find? (fun s => decide (entryTriple s = entryTriple (newEntry r))) :=
    rfl
  rw [hfind] at hself
  unfold replayPut replayFindStripe
  simp only [hr, if_true]
  cases hi : st.stripes.findIdx? (·.isFor r) with
  | some i =>
    obtain ⟨hlt, hp, hbefore⟩ := List.findIdx?_eq_some_iff_getElem.mp hi
    have hget : st.stripes.getD i ⟨0, 0, 0, 0, 0, []⟩ = st.stripes.get ⟨i, hlt⟩ := by
      simp [List.getD_eq_getElem?_getD, hlt]
    have hfound : st.stripes.find? (·.isFor r) = some (st.stripes.get ⟨i, hlt⟩) := by
      rw [List.find?_eq_some_iff_getElem]
      refine ⟨hp, i, hlt, rfl, fun j hj => ?_⟩
      simpa using hbefore j hj
    rw [hi] at hset
    have htable : tableAfter st.stripes r = st.stripes.set i
        ((st.stripes.getD i ⟨0, 0, 0, 0, 0, []⟩).fill r) := hset
    have hentry : entry (tableAfter st.stripes r) (recTriple r) =
        some ((st.stripes.getD i ⟨0, 0, 0, 0, 0, []⟩).fill r) := by
      rw [hnew]
      refine hself.trans ?_
      rw [hfound, hget]
      rfl
    simp only [partPublishes, hentry]
    rw [htable]
    generalize (st.stripes.getD i ⟨0, 0, 0, 0, 0, []⟩).fill r = s
    split
    · rw [replayPublishAll_eq]
    · rfl
  | none =>
    have hnone : st.stripes.find? (·.isFor r) = none := by
      rw [List.find?_eq_none]
      simpa using List.findIdx?_eq_none_iff.mp hi
    rw [hi] at hset
    rw [hnone] at hself
    have hcnt : ¬ r.stripeCnt < 2 := by omega
    by_cases hfull : replayStripeCap ≤ st.stripes.length
    · have htable : tableAfter st.stripes r = st.stripes := by
        refine hset.trans ?_
        simp [hfull]
      have hentry : entry (tableAfter st.stripes r) (recTriple r) = none := by
        rw [hnew]
        refine hself.trans ?_
        simp [hfull]
      simp only [partPublishes, hentry]
      simp [htable, hfull, publishAll]
    have htable : tableAfter st.stripes r = st.stripes ++ [(newEntry r).fill r] := by
      refine hset.trans ?_
      simp [hfull]
    have hentry : entry (tableAfter st.stripes r) (recTriple r) = some ((newEntry r).fill r) := by
      rw [hnew]
      refine hself.trans ?_
      simp [hfull]
    simp only [partPublishes, hentry, hfull, hcnt, or_self, if_false]
    rw [htable]
    have hget : (st.stripes ++ [newEntry r]).getD st.stripes.length ⟨0, 0, 0, 0, 0, []⟩ =
        newEntry r := by simp
    have hlast : (st.stripes ++ [newEntry r]).set st.stripes.length ((newEntry r).fill r) =
        st.stripes ++ [(newEntry r).fill r] := by simp
    rw [show (⟨r.prefixId, r.groupIdx, r.ver, r.stripeCnt, 0,
      List.replicate r.stripeCnt ReplayPart.zero⟩ : ReplayStripe) = newEntry r from rfl, hget,
      hlast]
    split
    · rw [replayPublishAll_eq]
    · rfl

/-! ## The table along a replay -/

/-- The part records of one put. -/
def ofPut (t : Triple) (r : JournalRec) : Bool := isPartRec r && decide (recTriple r = t)

/-- The first 256 striped puts of the records. -/
def admitted (rs : List JournalRec) : List Triple :=
  ((rs.filter isPartRec).map recTriple).eraseDups.take replayStripeCap

/-- What a part record writes into its entry. -/
def recSlot (r : JournalRec) : Nat × ReplayPart :=
  (r.stripeIdx, ⟨r.addrDev, r.addrPage, r.addrLen, r.addrOff⟩)

/-- The entry of the parts seen so far. -/
def entryOf (t : Triple) (n : Nat) (xs : List JournalRec) : ReplayStripe where
  prefixId := t.1
  groupIdx := t.2.1
  ver := t.2.2
  stripeCnt := n
  nSeen := xs.length
  parts := fillAll (List.replicate n ReplayPart.zero) (xs.map recSlot)

section Along

variable {nDevs regionCnt : Nat}

theorem path_ne_nil {r : JournalRec} (hr : PathOk r) (hop : r.op = .put) : r.path ≠ [] := by
  intro he
  have := hr hop
  simp [he] at this

theorem replayApply_part (st : Replay) {r : JournalRec} (hr : PathOk r)
    (hpart : isPartRec r = true) :
    (replayApply nDevs regionCnt st r).stripes = tableAfter st.stripes r ∧
    (replayApply nDevs regionCnt st r).idx =
      publishAll { (resolveNode st.idx r.prefixId r.groupIdx r.path).1 with
          shapes := (replayShape st.idx.shapes r).1 }
        (resolveNode st.idx r.prefixId r.groupIdx r.path).2
        (partPublishes (tableAfter st.stripes r) r (replayShape st.idx.shapes r).2) := by
  obtain ⟨hop, hcnt⟩ := of_decide_eq_true hpart
  have hne := path_ne_nil hr hop
  unfold replayApply
  simp only [hop, hne, and_false, if_false]
  rw [replayPut_part _ _ hcnt]
  simp

theorem stripes_replayApply (st : Replay) {r : JournalRec} (hr : PathOk r) :
    (replayApply nDevs regionCnt st r).stripes =
      if isPartRec r then tableAfter st.stripes r else st.stripes := by
  split
  · rename_i hpart
    exact (replayApply_part st hr hpart).1
  rename_i hpart
  unfold replayApply
  cases hop : r.op with
  | del =>
    simp only
    split
    · rfl
    · split
      · rfl
      · split <;> rfl
  | trim => simp only; split <;> rfl
  | put =>
    have hcnt : ¬ 1 < r.stripeCnt := fun h => hpart (decide_eq_true ⟨hop, h⟩)
    simp only
    split
    · rfl
    · simp [replayPut, hcnt]

theorem replayJournal_concat (st : Replay) (rs : List JournalRec) (r : JournalRec) :
    replayJournal nDevs regionCnt st (rs ++ [r]) =
      replayApply nDevs regionCnt (replayJournal nDevs regionCnt st rs) r := by
  rw [replayJournal_append]
  rfl

theorem admitted_concat_part (rs : List JournalRec) {r : JournalRec} (hr : isPartRec r = true) :
    admitted (rs ++ [r]) = note replayStripeCap (admitted rs) (recTriple r) := by
  unfold admitted
  rw [← foldl_note, ← foldl_note, filter_append, map_append, foldl_append]
  simp [hr]

theorem admitted_concat_other (rs : List JournalRec) {r : JournalRec} (hr : isPartRec r = false) :
    admitted (rs ++ [r]) = admitted rs := by
  simp [admitted, hr]

/-- The table holds the first 256 different puts. -/
theorem keys_replayJournal {st : Replay} (hst : st.stripes = []) {rs : List JournalRec}
    (hr : ∀ r ∈ rs, PathOk r) :
    (replayJournal nDevs regionCnt st rs).stripes.map entryTriple = admitted rs := by
  induction rs using List.reverseRecOn with
  | nil => simp [replayJournal, hst, admitted]
  | append_singleton rs r ih =>
    have ih := ih fun x hx => hr x (by simp [hx])
    rw [replayJournal_concat, stripes_replayApply _ (hr r (by simp))]
    cases hpart : isPartRec r with
    | true =>
      rw [admitted_concat_part rs hpart, ← ih]
      exact keys_upsert entryTriple (newEntry r) _ (entryTriple_fill r) _ _
    | false =>
      rw [admitted_concat_other rs hpart, ← ih]
      simp

theorem mem_admitted {rs : List JournalRec} {r : JournalRec} (hr : r ∈ rs)
    (hpart : isPartRec r = true) (hroom : (admitted rs).length < replayStripeCap) :
    recTriple r ∈ admitted rs := by
  have hmem : recTriple r ∈ ((rs.filter isPartRec).map recTriple).eraseDups := by
    rw [mem_eraseDups]
    exact mem_map_of_mem (mem_filter.mpr ⟨hr, hpart⟩)
  unfold admitted at hroom ⊢
  rw [length_take] at hroom
  rw [take_of_length_le (by omega)]
  exact hmem

theorem mem_admitted_of_few {rs : List JournalRec} {r : JournalRec} (hr : r ∈ rs)
    (hpart : isPartRec r = true) {ts : List Triple} (hts : ts.length ≤ replayStripeCap)
    (hall : ∀ x ∈ rs, isPartRec x = true → recTriple x ∈ ts) : recTriple r ∈ admitted rs := by
  by_contra hnot
  have hroom : ¬ (admitted rs).length < replayStripeCap :=
    fun h => hnot (mem_admitted hr hpart h)
  have hnd : (recTriple r :: admitted rs).Nodup := by
    refine nodup_cons.mpr ⟨hnot, ?_⟩
    rw [admitted, ← foldl_note]
    exact nodup_foldl_note _ _
  have hsub : (recTriple r :: admitted rs) ⊆ ts := by
    intro t ht
    rcases mem_cons.mp ht with rfl | ht
    · exact hall r hr hpart
    have hmem := mem_eraseDups.mp (mem_of_mem_take ht)
    obtain ⟨x, hx, rfl⟩ := mem_map.mp hmem
    obtain ⟨hx, hxp⟩ := mem_filter.mp hx
    exact hall x hx hxp
  have hle := (hnd.subperm hsub).length_le
  rw [length_cons] at hle
  omega

theorem admitted_append_of_full {xs : List JournalRec} (ys : List JournalRec)
    (hfull : replayStripeCap ≤ (admitted xs).length) : admitted (xs ++ ys) = admitted xs := by
  induction ys using List.reverseRecOn with
  | nil => rw [List.append_nil]
  | append_singleton ys y ih =>
    rw [← List.append_assoc]
    cases hpart : isPartRec y with
    | false => rw [admitted_concat_other _ hpart, ih]
    | true => rw [admitted_concat_part _ hpart, ih, note, if_pos (Or.inr hfull)]

/-- The stripe table holds the parts of the first 256 striped puts only. -/
theorem entry_replayJournal {st : Replay} (hst : st.stripes = []) {rs : List JournalRec}
    (hr : ∀ r ∈ rs, PathOk r) {t : Triple}
    (ht : ∀ r ∈ rs, ofPut t r = true → r.stripeCnt = n ∧ r.stripeIdx < n) :
    entry (replayJournal nDevs regionCnt st rs).stripes t =
      if t ∈ admitted rs then some (entryOf t n (rs.filter (ofPut t))) else none := by
  induction rs using List.reverseRecOn with
  | nil => simp [replayJournal, hst, admitted, entry]
  | append_singleton rs r ih =>
    have hr' : ∀ x ∈ rs, PathOk x := fun x hx => hr x (by simp [hx])
    have ih := ih hr' fun x hx => ht x (by simp [hx])
    have hkeys := @keys_replayJournal nDevs regionCnt st hst rs hr'
    rw [replayJournal_concat, stripes_replayApply _ (hr r (by simp))]
    generalize (replayJournal nDevs regionCnt st rs).stripes = tab at ih hkeys
    have hlen : tab.length = (admitted rs).length := by rw [← hkeys, length_map]
    cases hpart : isPartRec r with
    | false =>
      have hof : ofPut t r = false := by simp [ofPut, hpart]
      rw [admitted_concat_other rs hpart]
      simpa [filter_append, hof] using ih
    | true =>
      rw [admitted_concat_part rs hpart, if_pos rfl]
      by_cases htr : recTriple r = t
      · -- a record of the put itself: its entry is filled, or made if there is room
        have hof : ofPut t r = true := by simp [ofPut, hpart, htr]
        obtain ⟨hcnt, hidx⟩ := ht r (by simp) hof
        have hfill : ∀ xs, (entryOf t n xs).fill r = entryOf t n (xs ++ [r]) := by
          intro xs
          simp [ReplayStripe.fill, entryOf, hidx, fillAll_concat, recSlot]
        have hself : entry (tableAfter tab r) t =
            (entry tab t).elim
              (if replayStripeCap ≤ tab.length then none else some ((newEntry r).fill r))
              (fun s => some (s.fill r)) := by
          have := find?_upsert_self entryTriple (newEntry r) (fun s => s.fill r)
            (entryTriple_fill r) replayStripeCap tab
          rw [show entryTriple (newEntry r) = t from htr] at this
          exact this
        rw [hself, ih, filter_append, htr, note]
        by_cases hin : t ∈ admitted rs
        · simp [hin, hfill, hof]
        by_cases hfull : replayStripeCap ≤ (admitted rs).length
        · simp [hin, hlen, hfull]
        have hnone : rs.filter (ofPut t) = [] := by
          rw [filter_eq_nil_iff]
          intro x hx hxt
          simp only [ofPut, Bool.and_eq_true, decide_eq_true_eq] at hxt
          apply hin
          rw [← hxt.2]
          exact mem_admitted hx hxt.1 (by omega)
        have hnew : newEntry r = entryOf t n [] := by
          rw [← htr]
          simp [newEntry, entryOf, recTriple, hcnt]
        simp [hin, hlen, hfull, hnone, hof, hnew, hfill]
      have hof : ofPut t r = false := by simp [ofPut, htr]
      have hmem : t ∈ note replayStripeCap (admitted rs) (recTriple r) ↔ t ∈ admitted rs := by
        unfold note
        split
        · rfl
        · simp [Ne.symm htr]
      have hsame : entry (tableAfter tab r) t = entry tab t :=
        find?_upsert_ne entryTriple (newEntry r) (fun s => s.fill r)
          (entryTriple_fill r) (Ne.symm htr) replayStripeCap tab
      rw [hsame, ih]
      simp [hmem, filter_append, hof]

/-! ## One record at one node -/

theorem side_publishAll (idx : Index) (node : Path) (as : List PublishArgs) :
    (publishAll idx node as).side = idx.side := by
  induction as generalizing idx with
  | nil => rfl
  | cons a as ih => exact (ih (idx.publish node a)).trans (side_publish idx node a)

variable {pathOf : UInt64 → Nat → Path} {st : Replay} {r : JournalRec}

theorem OwnPaths.apply (hp : OwnPaths pathOf st.idx)
    (hpath : r.op = .put → r.path = pathOf r.prefixId r.groupIdx) :
    OwnPaths pathOf (replayApply nDevs regionCnt st r).idx := by
  have hc := replayApply_cases nDevs regionCnt st r
  generalize (replayApply nDevs regionCnt st r).idx = idx' at hc
  cases hc with
  | same _ => exact hp
  | drop node lf _ _ _ =>
    intro p g q hq
    rw [side_drop] at hq
    exact hp p g q hq
  | put shapes as hop has _ =>
    have hres := (hp.resolveNode (p := r.prefixId) (g := r.groupIdx)).1
    rw [← hpath hop] at hres
    intro p g q hq
    rw [side_publishAll] at hq
    exact hres p g q hq

section OneRecord

variable (h : ReplayOk st.idx) (hp : OwnPaths pathOf st.idx) (hr : PathOk r)
include h hp hr

theorem leafAt_replayApply_other (hpath : r.op = .put → r.path = pathOf r.prefixId r.groupIdx)
    {q : Path} (hq : r.op ≠ .trim → pathOf r.prefixId r.groupIdx ≠ q) :
    (replayApply nDevs regionCnt st r).idx.tree.leafAt q = st.idx.tree.leafAt q := by
  have hc := replayApply_cases nDevs regionCnt st r
  generalize (replayApply nDevs regionCnt st r).idx = idx' at hc
  cases hc with
  | same _ => rfl
  | drop node lf hop hside _ =>
    have hnode : node ≠ q := by
      rw [hp _ _ _ hside]
      exact hq (by simp [hop])
    rw [leafAt_drop, if_neg (Ne.symm hnode)]
  | put shapes as hop has _ =>
    have hnode := (hp.resolveNode (p := r.prefixId) (g := r.groupIdx)).2
    rw [← hpath hop] at hnode
    have hsome := (h.resolved hop hr shapes).side.node _ _ _
      (sideGet_resolveNode_self st.idx r.prefixId r.groupIdx r.path)
    have hne : q ≠ (resolveNode st.idx r.prefixId r.groupIdx r.path).2 := by
      rw [hnode, hpath hop]
      exact Ne.symm (hq (by simp [hop]))
    rw [leafAt_publishAll hsome, if_neg hne]
    exact leafAt_resolveNode _ _ _ _ q

theorem leafAt_replayApply_put (hop : r.op = .put) (hpath : r.path = pathOf r.prefixId r.groupIdx) :
    ∃ as : List PublishArgs, (∀ a ∈ as, a.ver = r.ver) ∧
      (replayApply nDevs regionCnt st r).idx.tree.leafAt (pathOf r.prefixId r.groupIdx) =
        publishLeaf (st.idx.tree.leafAt (pathOf r.prefixId r.groupIdx)) as := by
  have hc := replayApply_cases nDevs regionCnt st r
  generalize (replayApply nDevs regionCnt st r).idx = idx' at hc
  cases hc with
  | same _ => exact ⟨[], by simp, rfl⟩
  | drop node lf hdel _ _ => rw [hop] at hdel; cases hdel
  | put shapes as _ has hver =>
    refine ⟨as, hver, ?_⟩
    have hnode := (hp.resolveNode (p := r.prefixId) (g := r.groupIdx)).2
    rw [← hpath] at hnode ⊢
    have hsome := (h.resolved hop hr shapes).side.node _ _ _
      (sideGet_resolveNode_self st.idx r.prefixId r.groupIdx r.path)
    rw [leafAt_publishAll hsome, if_pos hnode.symm, hnode]
    exact congrArg (publishLeaf · as) (leafAt_resolveNode _ _ _ _ _)

theorem leafAt_replayApply_part (hpart : isPartRec r = true)
    (hpath : r.path = pathOf r.prefixId r.groupIdx) :
    (replayApply nDevs regionCnt st r).idx.tree.leafAt (pathOf r.prefixId r.groupIdx) =
        publishLeaf (st.idx.tree.leafAt (pathOf r.prefixId r.groupIdx))
          (partPublishes (tableAfter st.stripes r) r (replayShape st.idx.shapes r).2) ∧
    (replayApply nDevs regionCnt st r).idx.oob =
      (st.idx.oob || publishOob (st.idx.tree.leafAt (pathOf r.prefixId r.groupIdx))
        (partPublishes (tableAfter st.stripes r) r (replayShape st.idx.shapes r).2)) := by
  have hop : r.op = .put := (of_decide_eq_true hpart).1
  have hnode := (hp.resolveNode (p := r.prefixId) (g := r.groupIdx)).2
  rw [← hpath] at hnode ⊢
  have hsome := (h.resolved hop hr (replayShape st.idx.shapes r).1).side.node _ _ _
    (sideGet_resolveNode_self st.idx r.prefixId r.groupIdx r.path)
  rw [(replayApply_part st hr hpart).2]
  refine ⟨?_, ?_⟩
  · rw [leafAt_publishAll hsome, if_pos hnode.symm, hnode]
    exact congrArg (publishLeaf · _) (leafAt_resolveNode _ _ _ _ _)
  · rw [oob_publishAll hsome, hnode]
    simp

end OneRecord

end Along

/-! ## Following one put -/

/-- The put of an image in group `g`. -/
def StripeImage.triple (img : StripeImage) (g : Nat) : Triple := (img.prefixId, g, img.ver)

structure StripeImage.PartRec (img : StripeImage) (dlen : Nat → Nat) (r : JournalRec) : Prop where
  cnt : r.stripeCnt = img.nParts
  idx : r.stripeIdx < img.nParts
  part : (⟨r.addrDev, r.addrPage, r.addrLen⟩ : Extent) = img.part r.stripeIdx
  dlen : r.addrOff = dlen r.stripeIdx
  crc : r.dataCrc = img.crc
  lens : (if r.nRecs = 0 then [] else replayLens r) = img.lens

/-- Records among which those of the put are its parts, each at most once. -/
structure StripeTrack (pathOf : UInt64 → Nat → Path) (img : StripeImage) (g : Nat)
    (dlen : Nat → Nat) (rs : List JournalRec) : Prop where
  two : 2 ≤ img.nParts
  total : img.total = ((List.range img.nParts).map dlen).sum % 2 ^ 32
  part : ∀ r ∈ rs, ofPut (img.triple g) r = true → img.PartRec dlen r
  once : ((rs.filter (ofPut (img.triple g))).map (·.stripeIdx)).Nodup
  older : ∀ r ∈ rs, r.op = .put → r.path = pathOf img.prefixId g →
    ofPut (img.triple g) r = true ∨ r.ver < img.ver
  nodel : ∀ r ∈ rs, r.op = .del → pathOf r.prefixId r.groupIdx ≠ pathOf img.prefixId g
  len : ∀ p g, (pathOf p g).length = g + 1
  paths : ∀ r ∈ rs, r.op = .put → r.path = pathOf r.prefixId r.groupIdx

namespace StripeTrack

variable {nDevs regionCnt : Nat} {pathOf : UInt64 → Nat → Path} {img : StripeImage} {g : Nat}
  {dlen : Nat → Nat} {rs : List JournalRec} {r : JournalRec} {st : Replay}

theorem front (h : StripeTrack pathOf img g dlen (rs ++ [r])) :
    StripeTrack pathOf img g dlen rs where
  two := h.two
  total := h.total
  part x hx := h.part x (by simp [hx])
  once := by
    have := h.once
    rw [filter_append, map_append] at this
    exact this.of_append_left
  older x hx := h.older x (by simp [hx])
  nodel x hx := h.nodel x (by simp [hx])
  len := h.len
  paths x hx := h.paths x (by simp [hx])

theorem pathOk (h : StripeTrack pathOf img g dlen rs) : ∀ x ∈ rs, PathOk x := by
  intro x hx hop
  rw [h.paths x hx hop]
  exact h.len _ _

/-- All records of the put came, and it got a table entry. -/
def Gathered (img : StripeImage) (g : Nat) (rs : List JournalRec) : Prop :=
  img.triple g ∈ admitted rs ∧ img.nParts ≤ (rs.filter (ofPut (img.triple g))).length

instance (img : StripeImage) (g : Nat) (rs : List JournalRec) : Decidable (Gathered img g rs) :=
  inferInstanceAs (Decidable (_ ∧ _))

theorem perm_range_of_length {is : List Nat} (hnd : is.Nodup) (hlt : ∀ i ∈ is, i < n)
    (hlen : n ≤ is.length) : is.Perm (List.range n) := by
  have hsub : is.Subperm (List.range n) :=
    hnd.subperm fun j hj => mem_range.mpr (hlt j hj)
  exact hsub.perm_of_length_le (by simpa using hlen)

theorem mem_of_length {is : List Nat} (hnd : is.Nodup) (hlt : ∀ i ∈ is, i < n)
    (hlen : n ≤ is.length) {i : Nat} (hi : i < n) : i ∈ is :=
  (perm_range_of_length hnd hlt hlen).mem_iff.mpr (mem_range.mpr hi)

theorem parts_entryOf (h : StripeTrack pathOf img g dlen rs)
    (hall : img.nParts ≤ (rs.filter (ofPut (img.triple g))).length) :
    (entryOf (img.triple g) img.nParts (rs.filter (ofPut (img.triple g)))).parts =
      (List.range img.nParts).map fun i =>
        ⟨(img.part i).devId, (img.part i).pageNo, (img.part i).lenPages, dlen i⟩ := by
  have hpart : ∀ x ∈ rs.filter (ofPut (img.triple g)), img.PartRec dlen x := by
    intro x hx
    obtain ⟨hx, hof⟩ := mem_filter.mp hx
    exact h.part x hx hof
  have hlen : (List.replicate img.nParts ReplayPart.zero).length = img.nParts :=
    length_replicate
  show fillAll _ _ = _
  refine (fillAll_eq_map (f := fun i =>
    ⟨(img.part i).devId, (img.part i).pageNo, (img.part i).lenPages, dlen i⟩) ?_ ?_).trans ?_
  · intro w hw
    obtain ⟨x, hx, rfl⟩ := mem_map.mp hw
    have hp := hpart x hx
    simp [recSlot, ← hp.part, ← hp.dlen]
  · intro i hi
    rw [hlen] at hi
    have hmem := mem_of_length h.once (n := img.nParts) ?_ (by simpa using hall) hi
    · obtain ⟨x, hx, rfl⟩ := mem_map.mp hmem
      exact mem_map.mpr ⟨recSlot x, mem_map_of_mem hx, rfl⟩
    · intro j hj
      obtain ⟨x, hx, rfl⟩ := mem_map.mp hj
      exact (hpart x hx).idx
  · rw [hlen]

theorem isPart_replayPartArgs (h : StripeTrack pathOf img g dlen rs)
    (hall : img.nParts ≤ (rs.filter (ofPut (img.triple g))).length) (hr : r ∈ rs)
    (hof : ofPut (img.triple g) r = true) (hsh : lensOf sh = img.lens) {i : Nat}
    (hi : i < img.nParts) :
    img.IsPart (replayPartArgs r
      (entryOf (img.triple g) img.nParts (rs.filter (ofPut (img.triple g)))) sh i) ∧
    (replayPartArgs r (entryOf (img.triple g) img.nParts (rs.filter (ofPut (img.triple g)))) sh
      i).stripeTotal = img.total := by
  have hparts := h.parts_entryOf hall
  have hrec := h.part r hr hof
  have htriple : recTriple r = img.triple g := by
    simp only [ofPut, Bool.and_eq_true, decide_eq_true_eq] at hof
    exact hof.2
  obtain ⟨hp, _, hv⟩ := Prod.mk.inj htriple |>.imp id Prod.mk.inj
  generalize hs : entryOf (img.triple g) img.nParts (rs.filter (ofPut (img.triple g))) = s at *
  have hcnt : s.stripeCnt = img.nParts := by rw [← hs]; rfl
  have hget : s.parts.getD i ReplayPart.zero =
      ⟨(img.part i).devId, (img.part i).pageNo, (img.part i).lenPages, dlen i⟩ := by
    rw [hparts, List.getD_eq_getElem?_getD]
    simp [hi]
  refine ⟨⟨rfl, hp, hv, hcnt, hrec.crc, hsh, hi, ?_⟩, ?_⟩
  · simp only [replayPartArgs, hget, KvAddr.extent]
  · show s.streamLen = img.total
    rw [ReplayStripe.streamLen, hparts, hcnt, h.total, take_of_length_le (by simp)]
    simp [Function.comp_def]

theorem partPublishes_eq (h : StripeTrack pathOf img g dlen (rs ++ [r])) (hst : st.stripes = [])
    (hof : ofPut (img.triple g) r = true) (sh : Option Shape) :
    partPublishes (tableAfter (replayJournal nDevs regionCnt st rs).stripes r) r sh =
      if Gathered img g (rs ++ [r]) then
        (List.range img.nParts).map (replayPartArgs r
          (entryOf (img.triple g) img.nParts ((rs ++ [r]).filter (ofPut (img.triple g)))) sh)
      else [] := by
  have hpart : isPartRec r = true ∧ recTriple r = img.triple g := by
    simpa [ofPut] using hof
  have hentry := @entry_replayJournal img.nParts nDevs regionCnt st hst (rs ++ [r]) h.pathOk
    (img.triple g) fun x hx hx' => ⟨(h.part x hx hx').cnt, (h.part x hx hx').idx⟩
  rw [replayJournal_concat, stripes_replayApply _ (h.pathOk r (by simp)), if_pos hpart.1] at hentry
  unfold partPublishes
  rw [hpart.2, hentry]
  by_cases hin : img.triple g ∈ admitted (rs ++ [r])
  · rw [if_pos hin]
    by_cases hall : img.nParts ≤ ((rs ++ [r]).filter (ofPut (img.triple g))).length
    · rw [if_pos ⟨hin, hall⟩]
      exact if_pos hall
    · rw [if_neg fun hg : Gathered img g (rs ++ [r]) => hall hg.2]
      exact if_neg hall
  · rw [if_neg hin, if_neg fun hg : Gathered img g (rs ++ [r]) => hin hg.1]

/-- Complete once all parts are seen, older before. -/
def NodeState (img : StripeImage) (g : Nat) (rs : List JournalRec) (l : Option RadixLeaf) : Prop :=
  if Gathered img g rs then img.Complete l else Stale img.ver l

theorem gathered_mono (hg : Gathered img g rs) : Gathered img g (rs ++ [r]) := by
  refine ⟨?_, ?_⟩
  · cases hpart : isPartRec r with
    | false => exact (admitted_concat_other rs hpart).symm ▸ hg.1
    | true =>
      rw [admitted_concat_part rs hpart, note]
      split
      · exact hg.1
      · exact mem_append_left _ hg.1
  · rw [filter_append, length_append]
    exact hg.2.trans (Nat.le_add_right _ _)

theorem gathered_concat_other (hof : ofPut (img.triple g) r = false) :
    Gathered img g (rs ++ [r]) ↔ Gathered img g rs := by
  refine ⟨fun hg => ⟨?_, ?_⟩, gathered_mono⟩
  · have hin := hg.1
    cases hpart : isPartRec r with
    | false => rwa [admitted_concat_other rs hpart] at hin
    | true =>
      have hne : recTriple r ≠ img.triple g := by
        intro he
        simp [ofPut, hpart, he] at hof
      rw [admitted_concat_part rs hpart, note] at hin
      split at hin
      · exact hin
      · rcases mem_append.mp hin with hin | hin
        · exact hin
        · exact absurd (mem_singleton.mp hin).symm hne
  · have := hg.2
    rwa [filter_append, show [r].filter (ofPut (img.triple g)) = [] by simp [hof],
      List.append_nil] at this

section Step

variable (h : StripeTrack pathOf img g dlen (rs ++ [r])) (hst : st.stripes = [])
  (hok : ReplayOk (replayJournal nDevs regionCnt st rs).idx)
  (hp : OwnPaths pathOf (replayJournal nDevs regionCnt st rs).idx)

include h hok hp

theorem apply_other (hof : ofPut (img.triple g) r = false) :
    (Stale img.ver ((replayJournal nDevs regionCnt st rs).idx.tree.leafAt (pathOf img.prefixId g)) →
      Stale img.ver ((replayJournal nDevs regionCnt st (rs ++ [r])).idx.tree.leafAt
        (pathOf img.prefixId g))) ∧
    (∀ total, (img.withTotal total).Complete
        ((replayJournal nDevs regionCnt st rs).idx.tree.leafAt (pathOf img.prefixId g)) →
      (img.withTotal total).Complete ((replayJournal nDevs regionCnt st (rs ++ [r])).idx.tree.leafAt
        (pathOf img.prefixId g))) := by
  have hr := h.pathOk r (by simp)
  rw [replayJournal_concat]
  by_cases hnode : r.op = .put ∧ r.path = pathOf img.prefixId g
  · -- an older PUT at the same node
    obtain ⟨hop, hnode⟩ := hnode
    have hver : r.ver < img.ver := by
      rcases h.older r (by simp) hop hnode with hof' | hlt
      · rw [hof] at hof'; cases hof'
      · exact hlt
    obtain ⟨as, has, hleaf⟩ := @leafAt_replayApply_put nDevs regionCnt pathOf _ r hok hp hr hop
      (h.paths r (by simp) hop)
    rw [← h.paths r (by simp) hop, hnode] at hleaf
    rw [hleaf]
    obtain ⟨hstale, hsame⟩ := publishLeaf_older hver has (l :=
      (replayJournal nDevs regionCnt st rs).idx.tree.leafAt (pathOf img.prefixId g))
    refine ⟨hstale, fun total hc => ?_⟩
    obtain ⟨lf, hl, hv⟩ := hc.ver
    rw [hsame lf hl hv]
    exact hc
  have hsame := @leafAt_replayApply_other nDevs regionCnt pathOf _ r hok hp hr
    (h.paths r (by simp)) (pathOf img.prefixId g) ?_
  · rw [hsame]
    exact ⟨fun hs => hs, fun _ hc => hc⟩
  intro hop
  cases hopr : r.op with
  | put =>
    rw [← h.paths r (by simp) hopr]
    exact fun hq => hnode ⟨hopr, hq⟩
  | del => exact h.nodel r (by simp) hopr
  | trim => exact absurd hopr hop

include hst

theorem apply_part (hof : ofPut (img.triple g) r = true) :
    (Stale img.ver ((replayJournal nDevs regionCnt st rs).idx.tree.leafAt (pathOf img.prefixId g)) →
      NodeState img g (rs ++ [r]) ((replayJournal nDevs regionCnt st (rs ++ [r])).idx.tree.leafAt
        (pathOf img.prefixId g)) ∧
      (replayJournal nDevs regionCnt st (rs ++ [r])).idx.oob =
        (replayJournal nDevs regionCnt st rs).idx.oob) ∧
    (∀ total, (img.withTotal total).Complete
        ((replayJournal nDevs regionCnt st rs).idx.tree.leafAt (pathOf img.prefixId g)) →
      (img.withTotal total).Complete ((replayJournal nDevs regionCnt st (rs ++ [r])).idx.tree.leafAt
        (pathOf img.prefixId g))) := by
  have hr := h.pathOk r (by simp)
  obtain ⟨hpart, htriple⟩ : isPartRec r = true ∧ recTriple r = img.triple g := by
    simpa [ofPut] using hof
  obtain ⟨hkp, hkg, _⟩ := (Prod.mk.inj htriple).imp id Prod.mk.inj
  have hop : r.op = .put := (of_decide_eq_true hpart).1
  obtain ⟨hleaf, hoob⟩ := @leafAt_replayApply_part nDevs regionCnt pathOf _ r hok hp hr hpart
    (h.paths r (by simp) hop)
  rw [h.partPublishes_eq hst hof, hkp, hkg] at hleaf hoob
  rw [replayJournal_concat, hleaf, hoob]
  unfold NodeState
  by_cases hg : Gathered img g (rs ++ [r])
  · have hsh : lensOf (replayShape (replayJournal nDevs regionCnt st rs).idx.shapes r).2 =
        img.lens := by
      rw [lensOf_replayShape]
      exact (h.part r (by simp) hof).lens
    have hall : ∀ a ∈ (List.range img.nParts).map (replayPartArgs r
        (entryOf (img.triple g) img.nParts ((rs ++ [r]).filter (ofPut (img.triple g))))
        (replayShape (replayJournal nDevs regionCnt st rs).idx.shapes r).2), img.IsPart a := by
      intro a ha
      obtain ⟨i, hi, rfl⟩ := mem_map.mp ha
      exact (h.isPart_replayPartArgs hg.2 (by simp) hof hsh (mem_range.mp hi)).1
    have htot : ∀ a ∈ (List.range img.nParts).map (replayPartArgs r
        (entryOf (img.triple g) img.nParts ((rs ++ [r]).filter (ofPut (img.triple g))))
        (replayShape (replayJournal nDevs regionCnt st rs).idx.shapes r).2),
        a.stripeTotal = img.total := by
      intro a ha
      obtain ⟨i, hi, rfl⟩ := mem_map.mp ha
      exact (h.isPart_replayPartArgs hg.2 (by simp) hof hsh (mem_range.mp hi)).2
    have hcov : img.Covers ((List.range img.nParts).map (replayPartArgs r
        (entryOf (img.triple g) img.nParts ((rs ++ [r]).filter (ofPut (img.triple g))))
        (replayShape (replayJournal nDevs regionCnt st rs).idx.shapes r).2)) := by
      intro i hi
      exact ⟨_, mem_map.mpr ⟨i, mem_range.mpr hi, rfl⟩, rfl⟩
    rw [if_pos hg, if_pos hg]
    refine ⟨fun hs => ?_, fun total hc => hc.publishLeaf fun a ha => (hall a ha).withTotal total⟩
    have hn : 0 < img.nParts := by
      have := h.two
      omega
    obtain ⟨hc, ho⟩ := StripeImage.complete_publishLeaf hall htot hcov hn hs
    refine ⟨hc, ?_⟩
    rw [ho, Bool.or_false]
  · rw [if_neg hg, if_neg hg]
    exact ⟨fun hs => ⟨hs, by simp [publishOob]⟩, fun _ hc => hc⟩

end Step

variable (nDevs regionCnt st)

theorem journal (h : StripeTrack pathOf img g dlen rs) (hst : st.stripes = [])
    (hok : ReplayOk st.idx) (hp : OwnPaths pathOf st.idx) :
    (Stale img.ver (st.idx.tree.leafAt (pathOf img.prefixId g)) →
      NodeState img g rs ((replayJournal nDevs regionCnt st rs).idx.tree.leafAt
        (pathOf img.prefixId g))) ∧
    (∀ total, (img.withTotal total).Complete (st.idx.tree.leafAt (pathOf img.prefixId g)) →
      (img.withTotal total).Complete ((replayJournal nDevs regionCnt st rs).idx.tree.leafAt
        (pathOf img.prefixId g))) ∧
    OwnPaths pathOf (replayJournal nDevs regionCnt st rs).idx := by
  -- by induction on the records from the front; the invariant is the node's state
  induction rs using List.reverseRecOn with
  | nil =>
    refine ⟨fun hs => ?_, fun _ hc => hc, hp⟩
    have hg : ¬ Gathered img g [] := fun hg => by simp [Gathered, admitted] at hg
    rw [NodeState, if_neg hg]
    exact hs
  | append_singleton rs r ih =>
    obtain ⟨ihS, ihC, ihP⟩ := ih h.front
    have hokR : ReplayOk (replayJournal nDevs regionCnt st rs).idx := hok.journal h.front.pathOk
    refine ⟨fun hs => ?_, fun total hc => ?_, ?_⟩
    · have hnode := ihS hs
      cases hof : ofPut (img.triple g) r with
      | false =>
        obtain ⟨hS, hC⟩ := h.apply_other hokR ihP hof
        unfold NodeState at hnode ⊢
        by_cases hg : Gathered img g rs
        · rw [if_pos hg] at hnode
          rw [if_pos ((gathered_concat_other hof).mpr hg)]
          exact hC img.total hnode
        · rw [if_neg hg] at hnode
          rw [if_neg ((gathered_concat_other hof).not.mpr hg)]
          exact hS hnode
      | true =>
        obtain ⟨hS, hC⟩ := h.apply_part hst hokR ihP hof
        unfold NodeState at hnode
        by_cases hg : Gathered img g rs
        · rw [if_pos hg] at hnode
          rw [NodeState, if_pos (gathered_mono hg)]
          exact hC img.total hnode
        · rw [if_neg hg] at hnode
          exact (hS hnode).1
    · cases hof : ofPut (img.triple g) r with
      | false => exact (h.apply_other hokR ihP hof).2 total (ihC total hc)
      | true => exact (h.apply_part hst hokR ihP hof).2 total (ihC total hc)
    · rw [replayJournal_concat]
      exact ihP.apply (h.paths r (by simp))

theorem oob_journal (h : StripeTrack pathOf img g dlen rs) (hst : st.stripes = [])
    (hok : ReplayOk st.idx) (hp : OwnPaths pathOf st.idx)
    (hs : Stale img.ver (st.idx.tree.leafAt (pathOf img.prefixId g)))
    (hof : ∀ x ∈ rs, ofPut (img.triple g) x = true) (hle : rs.length ≤ img.nParts) :
    (replayJournal nDevs regionCnt st rs).idx.oob = st.idx.oob := by
  induction rs using List.reverseRecOn with
  | nil => rfl
  | append_singleton rs r ih =>
    have hlt : rs.length < img.nParts := by
      rw [length_append, length_singleton] at hle
      omega
    have hg : ¬ Gathered img g rs := by
      intro hg
      have hcount := hg.2.trans (length_filter_le _ _)
      omega
    obtain ⟨hnode, _, hown⟩ := h.front.journal nDevs regionCnt st hst hok hp
    have hstale := hnode hs
    rw [NodeState, if_neg hg] at hstale
    have hstep := (h.apply_part hst (hok.journal h.front.pathOk) hown (hof r (by simp))).1 hstale
    rw [hstep.2]
    exact ih h.front (fun x hx => hof x (by simp [hx])) (by omega)

end StripeTrack

end KvTier.Analysis
