import KvTier.Lib.Newest
import KvTier.Analysis.LiveFacts

/-!
# The order of publishes does not matter

Completions of several batches publish the parts of one key in any order.
-/

namespace KvTier.Analysis

open KvTier.Lib KvTier.Model List

variable {a : PublishArgs} {cfg : Config} {ops xs : List PublishArgs}

/-! ## The leaf of the operations of one version -/

/-- The slot or part an operation fills. -/
def placeOf (a : PublishArgs) : Nat := if a.flags.stripe then a.stripeIdx else a.slot

/-- The address an operation gives to a slot. -/
def slotOf (xs : List PublishArgs) (i : Nat) : KvAddr :=
  ((xs.find? fun a => placeOf a = i).map (·.addr)).getD KvAddr.none

/-- The extent an operation gives to a part. -/
def partOf (xs : List PublishArgs) (i : Nat) : StripePart :=
  ((xs.find? fun a => placeOf a = i).map (·.addr.extent)).getD StripePart.none

/-- The leaf with the places published so far. -/
def leafOf (a : PublishArgs) (xs : List PublishArgs) : RadixLeaf :=
  if a.flags.stripe then
    { refcnt := 0
      ver := a.ver
      prefixId := a.prefixId
      addr0 := { KvAddr.zero with crc := a.addr.crc }
      addr1 := KvAddr.zero
      stripe := some ⟨a.stripeCnt, a.stripeTotal, (List.range a.stripeCnt).map (partOf xs)⟩
      shape := a.shape }
  else
    { refcnt := 0
      ver := a.ver
      prefixId := a.prefixId
      addr0 := slotOf xs 0
      addr1 := slotOf xs 1
      stripe := none
      shape := a.shape }

/-- Publishes of one key, each place of a version once. -/
structure OneKey (cfg : Config) (ops : List PublishArgs) : Prop where
  key : ∀ a ∈ ops, ∀ b ∈ ops, a.prefixId = b.prefixId
  kind : ∀ a ∈ ops, ∀ b ∈ ops, a.ver = b.ver →
    a.flags.stripe = b.flags.stripe ∧ a.stripeCnt = b.stripeCnt ∧
      a.stripeTotal = b.stripeTotal ∧ a.shape = b.shape
  crc : ∀ a ∈ ops, ∀ b ∈ ops, a.ver = b.ver → a.flags.stripe = true → a.addr.crc = b.addr.crc
  once : (ops.map fun a => (a.ver, placeOf a)).Nodup
  part : ∀ a ∈ ops, a.flags.stripe = true → a.stripeIdx < a.stripeCnt
  slot : ∀ a ∈ ops, a.flags.stripe = false → a.slot < replicaCnt
  range : ∀ a ∈ ops, InRange cfg a.addr.extent

theorem OneKey.perm {ops ops' : List PublishArgs} (h : OneKey cfg ops) (hp : ops'.Perm ops) :
    OneKey cfg ops' where
  key a ha b hb := h.key a (hp.mem_iff.mp ha) b (hp.mem_iff.mp hb)
  kind a ha b hb := h.kind a (hp.mem_iff.mp ha) b (hp.mem_iff.mp hb)
  crc a ha b hb := h.crc a (hp.mem_iff.mp ha) b (hp.mem_iff.mp hb)
  once := (hp.map _).nodup_iff.mpr h.once
  part a ha := h.part a (hp.mem_iff.mp ha)
  slot a ha := h.slot a (hp.mem_iff.mp ha)
  range a ha := h.range a (hp.mem_iff.mp ha)

theorem OneKey.initial {ops rest : List PublishArgs} (h : OneKey cfg (ops ++ rest)) :
    OneKey cfg ops where
  key a ha b hb := h.key a (by simp [ha]) b (by simp [hb])
  kind a ha b hb := h.kind a (by simp [ha]) b (by simp [hb])
  crc a ha b hb := h.crc a (by simp [ha]) b (by simp [hb])
  once := by
    have := h.once
    rw [map_append] at this
    exact this.of_append_left
  part a ha := h.part a (by simp [ha])
  slot a ha := h.slot a (by simp [ha])
  range a ha := h.range a (by simp [ha])

theorem OneKey.places (h : OneKey cfg ops) : ((newest PublishArgs.ver ops).map placeOf).Nodup := by
  have hsub : ((newest PublishArgs.ver ops).map fun a => (a.ver, placeOf a)).Nodup :=
    h.once.sublist (List.filter_sublist.map _)
  refine Nodup.of_map (fun p => (newestVer PublishArgs.ver ops, p)) ?_
  rw [map_map]
  convert hsub using 1
  refine map_congr_left fun a ha => ?_
  simp only [Function.comp_apply]
  rw [(mem_newest.mp ha).2]

/-- The leaf does not depend on the order of its publishes. -/
theorem leafOf_perm {ops ops' : List PublishArgs} (h : OneKey cfg ops) (hp : ops'.Perm ops)
    {a a' : PublishArgs} (ha : a ∈ newest PublishArgs.ver ops)
    (ha' : a' ∈ newest PublishArgs.ver ops') :
    leafOf a' (newest PublishArgs.ver ops') = leafOf a (newest PublishArgs.ver ops) := by
  have hperm : (newest PublishArgs.ver ops').Perm (newest PublishArgs.ver ops) := newest_perm hp
  have hfind : ∀ i, ((newest PublishArgs.ver ops').find? fun a => placeOf a = i) =
      (newest PublishArgs.ver ops).find? fun a => placeOf a = i :=
    fun i => find?_eq_of_perm placeOf hperm ((h.perm hp).places) i
  have hslot : slotOf (newest PublishArgs.ver ops') = slotOf (newest PublishArgs.ver ops) := by
    funext i
    simp only [slotOf, hfind]
  have hpart : partOf (newest PublishArgs.ver ops') = partOf (newest PublishArgs.ver ops) := by
    funext i
    simp only [partOf, hfind]
  obtain ⟨hmem, hver⟩ := mem_newest.mp ha
  obtain ⟨hmem', hver'⟩ := mem_newest.mp (hperm.mem_iff.mp ha')
  have hv : a'.ver = a.ver := hver'.trans hver.symm
  obtain ⟨hs, hcnt, htot, hshape⟩ := h.kind a' hmem' a hmem hv
  have hkey := h.key a' hmem' a hmem
  unfold leafOf
  rw [hs, hcnt, htot, hshape, hkey, hv, hslot, hpart]
  split
  · rename_i hst
    rw [h.crc a' hmem' a hmem hv (hs.trans hst)]
  · rfl

/-! ## One more operation -/

theorem slotOf_concat (hnew : ∀ x ∈ xs, placeOf x ≠ placeOf a) (i : Nat) :
    slotOf (xs ++ [a]) i = if placeOf a = i then a.addr else slotOf xs i := by
  unfold slotOf
  rw [List.find?_append]
  by_cases hi : placeOf a = i
  · have hnone : (xs.find? fun x => placeOf x = i) = none := by
      rw [List.find?_eq_none]
      intro x hx
      simpa [← hi] using hnew x hx
    simp [hnone, hi]
  · simp [hi]

theorem partOf_concat (hnew : ∀ x ∈ xs, placeOf x ≠ placeOf a) (i : Nat) :
    partOf (xs ++ [a]) i = if placeOf a = i then a.addr.extent else partOf xs i := by
  unfold partOf
  rw [List.find?_append]
  by_cases hi : placeOf a = i
  · have hnone : (xs.find? fun x => placeOf x = i) = none := by
      rw [List.find?_eq_none]
      intro x hx
      simpa [← hi] using hnew x hx
    simp [hnone, hi]
  · simp [hi]

theorem map_partOf_concat (hs : a.flags.stripe = true) (hnew : ∀ x ∈ xs, placeOf x ≠ placeOf a)
    (cnt : Nat) :
    (List.range cnt).map (partOf (xs ++ [a])) =
      ((List.range cnt).map (partOf xs)).set a.stripeIdx a.addr.extent := by
  have hplace : placeOf a = a.stripeIdx := by simp [placeOf, hs]
  refine ext_getElem (by simp) fun i h1 h2 => ?_
  rw [getElem_set]
  simp only [getElem_map, getElem_range, partOf_concat hnew, hplace]

theorem newStripeLeaf_eq_leafOf (hs : a.flags.stripe = true) : newStripeLeaf a = leafOf a [a] := by
  have hparts := @map_partOf_concat a [] hs (by simp) a.stripeCnt
  have hnone : (List.range a.stripeCnt).map (partOf []) =
      List.replicate a.stripeCnt StripePart.none := by
    refine ext_getElem (by simp) fun i h1 h2 => ?_
    simp [partOf]
  rw [hnone, nil_append] at hparts
  unfold newStripeLeaf leafOf
  rw [if_pos hs, hparts]

theorem newPlainLeaf_eq_leafOf (hs : a.flags.stripe = false) (hslot : a.slot < replicaCnt) :
    newPlainLeaf a = leafOf a [a] := by
  have hplace : placeOf a = a.slot := by simp [placeOf, hs]
  unfold newPlainLeaf leafOf RadixLeaf.setAddr
  have h01 : a.slot = 0 ∨ a.slot = 1 := by
    simp only [replicaCnt] at hslot
    omega
  rcases h01 with h0 | h1
  · simp [hs, slotOf, hplace, h0, replicaCnt]
  · simp [hs, slotOf, hplace, h1, replicaCnt]

theorem addStripePart_eq_leafOf {a b : PublishArgs} (hs : a.flags.stripe = true)
    (hsb : b.flags.stripe = true) (hnew : ∀ x ∈ xs, placeOf x ≠ placeOf a)
    (hcrc : a.addr.crc = b.addr.crc) (hshape : a.shape = b.shape) (st : StripeAddr)
    (hst : (leafOf b xs).stripe = some st) :
    addStripePart (leafOf b xs) st a = leafOf b (xs ++ [a]) := by
  unfold leafOf at hst ⊢
  rw [if_pos hsb] at hst ⊢
  simp only [Option.some.injEq] at hst
  subst hst
  unfold addStripePart
  rw [if_pos hsb, map_partOf_concat hs hnew, hcrc, hshape]
  cases b.shape <;> rfl

theorem addReplica_eq_leafOf {a b : PublishArgs} (hs : a.flags.stripe = false)
    (hsb : b.flags.stripe = false) (hnew : ∀ x ∈ xs, placeOf x ≠ placeOf a)
    (hslot : a.slot < replicaCnt) (hshape : a.shape = b.shape) :
    addReplica (leafOf b xs) a = leafOf b (xs ++ [a]) := by
  have hplace : placeOf a = a.slot := by simp [placeOf, hs]
  have h01 : a.slot = 0 ∨ a.slot = 1 := by
    simp only [replicaCnt] at hslot
    omega
  have horelse : (b.shape <|> a.shape) = b.shape := by
    rw [hshape]
    cases b.shape <;> rfl
  unfold leafOf addReplica RadixLeaf.setAddr
  rw [slotOf_concat hnew, slotOf_concat hnew, hplace]
  rcases h01 with h0 | h1
  · simp [hsb, h0, horelse]
  · simp [hsb, h1, horelse]

/-! ## The leaf after a sequence of operations -/

/-- The leaf after the publishes. -/
def leafAfter (old : Option RadixLeaf) (l : List PublishArgs) : Option RadixLeaf :=
  match newest PublishArgs.ver l with
  | [] => old
  | a :: xs => some (leafOf a (a :: xs))

theorem ver_leafOf (a : PublishArgs) (xs : List PublishArgs) : (leafOf a xs).ver = a.ver := by
  unfold leafOf
  split <;> rfl

theorem stripe_leafOf (a : PublishArgs) (xs : List PublishArgs) :
    (leafOf a xs).stripe = if a.flags.stripe then
      some ⟨a.stripeCnt, a.stripeTotal, (List.range a.stripeCnt).map (partOf xs)⟩ else none := by
  unfold leafOf
  split <;> rfl

theorem leafPublish_of_newer {old : Option RadixLeaf} (h : OneKey cfg [a])
    (hv : ∀ lf, old = some lf → lf.ver < a.ver) :
    (leafPublish old a).leaf = some (leafOf a [a]) ∧ (leafPublish old a).oob = false := by
  have hmem : a ∈ [a] := by simp
  have hc := leafPublish_cases old a
  generalize leafPublish old a = res at hc
  cases hc with
  | rejected lf hlf hwhy | addPart lf st _ hlf hver _ | addReplica lf _ hlf hver _ =>
    have := hv lf hlf
    omega
  | newStripe hs _ =>
    refine ⟨congrArg some (newStripeLeaf_eq_leafOf hs), ?_⟩
    simpa using h.part a hmem hs
  | newPlain hs _ => exact ⟨congrArg some (newPlainLeaf_eq_leafOf hs (h.slot a hmem hs)), rfl⟩

theorem leafPublish_leafAfter {old : Option RadixLeaf} {l : List PublishArgs}
    (h : OneKey cfg (l ++ [a])) (hlow : ∀ lf, old = some lf → lf.ver < a.ver) :
    (leafPublish (leafAfter old l) a).leaf = leafAfter old (l ++ [a]) ∧
      (leafPublish (leafAfter old l) a).oob = false := by
  have hone : OneKey cfg [a] := by
    have hp : ([a] ++ l).Perm (l ++ [a]) := perm_append_comm
    exact (h.perm hp).initial
  by_cases hl : l = []
  · subst hl
    simpa [leafAfter] using leafPublish_of_newer hone hlow
  have hne : newest PublishArgs.ver l ≠ [] := newest_ne_nil hl
  obtain ⟨b, xs, hb⟩ := exists_cons_of_ne_nil hne
  have hbmem : b ∈ newest PublishArgs.ver l := by simp [hb]
  obtain ⟨hbl, hbv⟩ := mem_newest.mp hbmem
  have hleaf : leafAfter old l = some (leafOf b (newest PublishArgs.ver l)) := by
    simp [leafAfter, hb]
  rw [hleaf]
  have hba := h.kind b (by simp [hbl]) a (by simp)
  rcases Nat.lt_trichotomy a.ver (newestVer PublishArgs.ver l) with hv | hv | hv
  · -- older: rejected
    have hafter : leafAfter old (l ++ [a]) = some (leafOf b (newest PublishArgs.ver l)) := by
      rw [← hleaf]
      simp only [leafAfter, newest_concat_of_lt hv]
    have hc := leafPublish_cases (some (leafOf b (newest PublishArgs.ver l))) a
    generalize leafPublish (some (leafOf b (newest PublishArgs.ver l))) a = res at hc
    have hvb := ver_leafOf b (newest PublishArgs.ver l)
    cases hc with
    | rejected lf hlf hwhy => exact ⟨hafter.symm, rfl⟩
    | newStripe _ hwhy | newPlain _ hwhy => have := hwhy _ rfl; omega
    | addPart lf st _ hlf hver _ => cases hlf; omega
    | addReplica lf _ hlf hver _ => cases hlf; omega
  · -- the same version: merged
    have hvab : b.ver = a.ver := hbv.trans hv.symm
    obtain ⟨hsba, hcnt, _, hshape⟩ := hba hvab
    have hafter : leafAfter old (l ++ [a]) =
        some (leafOf b (newest PublishArgs.ver l ++ [a])) := by
      simp only [leafAfter, newest_concat_of_eq hv, hb, cons_append]
    have hnew : ∀ x ∈ newest PublishArgs.ver l, placeOf x ≠ placeOf a := by
      intro x hx he
      obtain ⟨hxl, hxv⟩ := mem_newest.mp hx
      have hnd := h.once
      rw [map_append, nodup_append] at hnd
      refine hnd.2.2 (x.ver, placeOf x) (mem_map.mpr ⟨x, hxl, rfl⟩) (a.ver, placeOf a)
        (by simp) ?_
      rw [he, hxv.trans hv.symm]
    have hvb := ver_leafOf b (newest PublishArgs.ver l)
    have hst := stripe_leafOf b (newest PublishArgs.ver l)
    rw [hafter]
    have hc := leafPublish_cases (some (leafOf b (newest PublishArgs.ver l))) a
    generalize leafPublish (some (leafOf b (newest PublishArgs.ver l))) a = res at hc
    cases hc with
    | rejected lf hlf hwhy =>
      cases hlf
      rcases hwhy with hw | ⟨_, hs, hslot⟩
      · omega
      · have := h.slot a (by simp) hs
        omega
    | newStripe hs hwhy =>
      rcases hwhy _ rfl with hw | ⟨_, hn⟩
      · omega
      · rw [hst, if_pos (hsba.trans hs)] at hn
        cases hn
    | addPart lf st hs hlf hver hlst =>
      cases hlf
      have hcrc := h.crc a (by simp) b (by simp [hbl]) hvab.symm hs
      refine ⟨congrArg some (addStripePart_eq_leafOf hs (hsba.trans hs) hnew hcrc hshape.symm st
        hlst), ?_⟩
      rw [hst, if_pos (hsba.trans hs)] at hlst
      cases hlst
      simpa [hcnt] using h.part a (by simp) hs
    | newPlain _ hwhy => have := hwhy _ rfl; omega
    | addReplica lf hs hlf hver hslot =>
      cases hlf
      exact ⟨congrArg some (addReplica_eq_leafOf hs (hsba.trans hs) hnew hslot hshape.symm), rfl⟩
  -- newer: replaced
  have hafter : leafAfter old (l ++ [a]) = some (leafOf a [a]) := by
    simp only [leafAfter, newest_concat_of_gt hv]
  rw [hafter]
  refine leafPublish_of_newer hone fun lf hlf => ?_
  cases hlf
  rw [ver_leafOf]
  omega

/-! ## All operations -/

/-- The publishes one after another. -/
def publishInOrder (s : Ledger) (node : Path) (ops : List PublishArgs) : Option Ledger :=
  ops.foldlM (fun s a => s.publishAt node a) s

/-- The ledger with another leaf at the node. -/
def withLeaf (s : Ledger) (node : Path) (leaf : Option RadixLeaf) : Ledger :=
  { s with
    idx := { s.idx with
      tree := s.idx.tree.setLeaf node leaf
      nLeaves := if (s.idx.tree.leafAt node).isNone ∧ leaf.isSome then s.idx.nLeaves + 1
        else s.idx.nLeaves }
    live := fun d r => s.live d r - (s.idx.tree.leafAt node).elim 0 (leafBytes s.cfg d r) +
      leaf.elim 0 (leafBytes s.cfg d r) }

theorem publishAt_withLeaf {s : Ledger} (hdev : s.cfg.nDevs ≤ invalidDev) {node : Path}
    (hn : (s.idx.tree.node? node).isSome) {leaf : Option RadixLeaf}
    (hpl : ∀ lf, leaf = some lf → Placed s.cfg lf)
    (hnone : leaf = none → s.idx.tree.leafAt node = none) (hin : InRange s.cfg a.addr.extent)
    (hoob : (leafPublish leaf a).oob = false) (hsome : (leafPublish leaf a).leaf.isSome) :
    (withLeaf s node leaf).publishAt node a =
      some (withLeaf s node (leafPublish leaf a).leaf) := by
  have hl : (withLeaf s node leaf).idx.tree.leafAt node = leaf := by
    simp only [withLeaf, Trie.leafAt_setLeaf, if_true, hn]
  have hadd : ∀ e ∈ (leafPublish leaf a).add, InRange s.cfg e := by
    rcases add_leafPublish leaf a with ⟨_, h, _⟩ | ⟨_, h, _⟩ <;> simp [h, hin]
  have hsub := inRange_sub a hpl
  rw [publishAt_eq_some_iff, hl]
  refine ⟨hoob, hsub, hadd, ?_⟩
  -- the counters: inside the arrays by the accounting of one publish, outside nothing moves
  have hlive : ∀ d r, (withLeaf s node leaf).live d r - bytesOf s.cfg (leafPublish leaf a).sub d r +
      bytesOf s.cfg (leafPublish leaf a).add d r =
      (withLeaf s node (leafPublish leaf a).leaf).live d r := by
    intro d r
    simp only [withLeaf]
    by_cases hdr : d < s.cfg.nDevs ∧ r < s.cfg.regionCnt
    · have := leafBytes_leafPublish hdev hdr.1 r leaf a hoob
      omega
    have hzero : ∀ o : Option RadixLeaf, (∀ lf, o = some lf → Placed s.cfg lf) →
        o.elim 0 (leafBytes s.cfg d r) = 0 := by
      intro o ho
      cases o with
      | none => rfl
      | some lf => exact bytesOf_of_inRange (ho lf rfl) hdr
    have h1 := hzero leaf hpl
    have h2 := hzero (leafPublish leaf a).leaf fun lf hlf => placed_leafPublish hpl hadd hlf
    rw [bytesOf_of_inRange hsub hdr, bytesOf_of_inRange hadd hdr]
    omega
  have hcount : (if leaf.isNone ∧ (leafPublish leaf a).leaf.isSome then
        (withLeaf s node leaf).idx.nLeaves + 1 else (withLeaf s node leaf).idx.nLeaves) =
      (withLeaf s node (leafPublish leaf a).leaf).idx.nLeaves := by
    simp only [withLeaf]
    cases hleaf : leaf with
    | none =>
      have := hnone hleaf
      subst hleaf
      simp [this, hsome]
    | some lf =>
      subst hleaf
      simp [hsome]
  have hidx : (withLeaf s node leaf).idx.publish node a =
      (withLeaf s node (leafPublish leaf a).leaf).idx := by
    unfold Index.publish
    simp only [hl, hcount, hoob, Bool.or_false]
    simp only [withLeaf, Trie.setLeaf_setLeaf]
  rw [hidx]
  unfold withLeaf at hlive ⊢
  simp only [Ledger.mk.injEq, true_and]
  funext d r
  exact (hlive d r).symm

theorem publishInOrder_eq {s : Ledger} (hdev : s.cfg.nDevs ≤ invalidDev) {node : Path}
    (hn : (s.idx.tree.node? node).isSome)
    (hpl : ∀ lf, s.idx.tree.leafAt node = some lf → Placed s.cfg lf) (l : List PublishArgs)
    (h : OneKey s.cfg l)
    (hlow : ∀ lf, s.idx.tree.leafAt node = some lf → ∀ a ∈ l, lf.ver < a.ver) :
    publishInOrder s node l = some (withLeaf s node (leafAfter (s.idx.tree.leafAt node) l)) ∧
      ∀ lf, leafAfter (s.idx.tree.leafAt node) l = some lf → Placed s.cfg lf := by
  induction l using List.reverseRecOn with
  | nil =>
    refine ⟨?_, hpl⟩
    have hself : withLeaf s node (s.idx.tree.leafAt node) = s := by
      unfold withLeaf
      have hcount : ¬ ((s.idx.tree.leafAt node).isNone = true ∧
          (s.idx.tree.leafAt node).isSome = true) := by
        cases s.idx.tree.leafAt node <;> simp
      rw [if_neg hcount, Trie.setLeaf_leafAt _ _ hn]
      simp
    simp [publishInOrder, leafAfter, hself]
  | append_singleton l a ih =>
    obtain ⟨ih1, ih2⟩ := ih h.initial fun lf hlf b hb => hlow lf hlf b (by simp [hb])
    obtain ⟨hleaf, hoob⟩ := leafPublish_leafAfter h fun lf hlf => hlow lf hlf a (by simp)
    have hin := h.range a (by simp)
    have hsome : (leafAfter (s.idx.tree.leafAt node) (l ++ [a])).isSome := by
      have hne : newest PublishArgs.ver (l ++ [a]) ≠ [] := newest_ne_nil (by simp)
      unfold leafAfter
      split
      · rename_i he; exact absurd he hne
      · rfl
    have hnone : leafAfter (s.idx.tree.leafAt node) l = none → s.idx.tree.leafAt node = none := by
      intro he
      unfold leafAfter at he
      split at he
      · exact he
      · cases he
    have hstep := publishAt_withLeaf hdev hn ih2 hnone hin hoob (hleaf ▸ hsome)
    constructor
    · unfold publishInOrder at ih1 ⊢
      rw [foldlM_append, ih1]
      simp only [foldlM_cons, foldlM_nil, Option.bind_eq_bind, Option.bind_some, hstep, hleaf]
      rfl
    intro lf hlf
    rw [← hleaf] at hlf
    refine placed_leafPublish ih2 ?_ hlf
    rcases add_leafPublish (leafAfter (s.idx.tree.leafAt node) l) a with ⟨_, h', _⟩ | ⟨_, h', _⟩
      <;> simp [h', hin]

/-- Publishes on one key leave the same index in every order. The key is absent or older than all of
them. -/
theorem publish_order_irrelevant {s : Ledger} (hdev : s.cfg.nDevs < 2 ^ 31) {node : Path}
    (hn : (s.idx.tree.node? node).isSome) {ops : List PublishArgs} (hne : ops ≠ [])
    (h : OneKey s.cfg ops)
    (hold : ∀ lf, s.idx.tree.leafAt node = some lf →
      Placed s.cfg lf ∧ ∀ a ∈ ops, lf.ver < a.ver) :
    ∃ s' : Ledger, (∀ l : List PublishArgs, l.Perm ops → publishInOrder s node l = some s') ∧
      (∀ a ∈ newest PublishArgs.ver ops,
        s'.idx.tree.leafAt node = some (leafOf a (newest PublishArgs.ver ops))) ∧
      s'.idx.nLeaves = (if (s.idx.tree.leafAt node).isNone then s.idx.nLeaves + 1
        else s.idx.nLeaves) ∧
      ∀ a ∈ newest PublishArgs.ver ops, ∀ d r, s'.live d r =
        s.live d r - (s.idx.tree.leafAt node).elim 0 (leafBytes s.cfg d r) +
          leafBytes s.cfg d r (leafOf a (newest PublishArgs.ver ops)) := by
  have hdev' : s.cfg.nDevs ≤ invalidDev := by
    simp only [invalidDev]
    omega
  -- the leaf after any order of the operations
  have hafter : ∀ l : List PublishArgs, l.Perm ops → ∀ a ∈ newest PublishArgs.ver ops,
      leafAfter (s.idx.tree.leafAt node) l = some (leafOf a (newest PublishArgs.ver ops)) := by
    intro l hp a ha
    have hl : newest PublishArgs.ver l ≠ [] := by
      refine newest_ne_nil ?_
      rintro rfl
      exact hne hp.nil_eq.symm
    obtain ⟨b, xs, hb⟩ := exists_cons_of_ne_nil hl
    have hmem : b ∈ newest PublishArgs.ver l := by simp [hb]
    have := leafOf_perm h hp ha hmem
    unfold leafAfter
    rw [hb] at this ⊢
    simp [this]
  have hops : newest PublishArgs.ver ops ≠ [] := newest_ne_nil hne
  obtain ⟨a0, ha0⟩ := exists_mem_of_ne_nil _ hops
  refine ⟨withLeaf s node (some (leafOf a0 (newest PublishArgs.ver ops))), ?_, ?_, ?_, ?_⟩
  · intro l hp
    have := (publishInOrder_eq hdev' hn (fun lf hlf => (hold lf hlf).1) l (h.perm hp)
      fun lf hlf a ha => (hold lf hlf).2 a (hp.mem_iff.mp ha)).1
    rw [this, hafter l hp a0 ha0]
  · intro a ha
    have heq := (hafter ops (Perm.refl _) a0 ha0).symm.trans
      (hafter ops (Perm.refl _) a ha)
    simp only [withLeaf, Trie.leafAt_setLeaf, if_true, hn, heq]
  · simp [withLeaf]
  intro a ha d r
  have heq := (hafter ops (Perm.refl _) a0 ha0).symm.trans
    (hafter ops (Perm.refl _) a ha)
  simp only [withLeaf, heq, Option.elim_some]

def absentKey : Ledger :=
  { Ledger.empty ledgerCfg with idx := (resolveNode Index.empty 7 0 [7]).1 }

/-- Two parts of a striped version, one of them late, around a plain older version. -/
theorem parts_around_older_version :
    ∃ s', publishInOrder absentKey [7]
        [ledgerArgs 2 70 true 0 2, ledgerArgs 1 3 false 0 0, ledgerArgs 2 71 true 1 2] = some s' ∧
      publishInOrder absentKey [7]
        [ledgerArgs 1 3 false 0 0, ledgerArgs 2 71 true 1 2, ledgerArgs 2 70 true 0 2] = some s' ∧
      s'.idx.nLeaves = 1 ∧ s'.live 0 0 = 0 ∧ s'.live 0 1 = 8192 := by
  obtain ⟨s', h1, _, h3, h4⟩ := @publish_order_irrelevant absentKey (by decide) [7] (by decide)
    [ledgerArgs 2 70 true 0 2, ledgerArgs 1 3 false 0 0, ledgerArgs 2 71 true 1 2]
    (by decide)
    { key := by decide, kind := by decide, crc := by decide, once := by decide,
      part := by decide, slot := by decide, range := by decide }
    (by intro lf hlf; cases hlf)
  have hmem : ledgerArgs 2 70 true 0 2 ∈ newest PublishArgs.ver
      [ledgerArgs 2 70 true 0 2, ledgerArgs 1 3 false 0 0, ledgerArgs 2 71 true 1 2] := by decide
  refine ⟨s', h1 _ (Perm.refl _), h1 _ (by decide), h3, ?_, ?_⟩
  · rw [h4 _ hmem]; decide
  · rw [h4 _ hmem]; decide

/-- A part of the same version with a checksum of its own. -/
def partWithCrc (stripeIdx crc : Nat) : PublishArgs :=
  { ledgerArgs 1 (3 + stripeIdx) true stripeIdx 2 with
    addr := ⟨0, 3 + stripeIdx, 0, 1, 0, 0, crc⟩ }

/-- The checksum of a striped leaf is the one of the part published last: two parts of a version
that agree on everything but the checksum leave different leaves in the two orders. -/
theorem part_checksums_by_order :
    (publishInOrder absentKey [7] [partWithCrc 0 5, partWithCrc 1 6]).bind
        (fun s => (s.idx.tree.leafAt [7]).map (·.addr0.crc)) = some 6 ∧
      (publishInOrder absentKey [7] [partWithCrc 1 6, partWithCrc 0 5]).bind
        (fun s => (s.idx.tree.leafAt [7]).map (·.addr0.crc)) = some 5 := by
  decide

end KvTier.Analysis
