import KvTier.Analysis.SessionFacts

/-!
# Properties of leaves over all sessions

A property of leaves holds in every state of every history of sessions if a publish keeps it and
what is written and read back keeps it: the checkpoint stores leaves, the journals store publishes.
-/

namespace KvTier.Analysis

open KvTier.Lib KvTier.Model

/-- A property of every leaf of an index, by its group. -/
def LeavesAll (L : Nat → RadixLeaf → Prop) (idx : Index) : Prop :=
  ∀ q lf, idx.tree.leafAt q = some lf → L (groupOf q) lf

/-- A property of leaves that publish, replay and reload keep. -/
structure LeafRule (L : Nat → Nat → RadixLeaf → Prop) (A : Nat → PublishArgs → Prop)
    (J : Nat → JournalRec → Prop) : Prop where
  publish : ∀ {n : Nat} {old : Option RadixLeaf} {a : PublishArgs} {lf : RadixLeaf}, A n a →
    (∀ o, old = some o → L n a.groupIdx o) → (leafPublish old a).leaf = some lf →
    L n a.groupIdx lf
  replay : ∀ {n d : Nat} {r : JournalRec} {a : PublishArgs}, d < n → r.op = .put → J d r →
    ReplayOf r a → A n a
  reload : ∀ {n g : Nat} (shapes : List Shape) {lf : RadixLeaf}, L n g lf →
    L n g (reloaded shapes lf)

section Index

variable {L : Nat → RadixLeaf → Prop} {idx : Index}

theorem LeavesAll.empty : LeavesAll L Index.empty := by
  intro q lf hl
  simp [Index.empty] at hl

theorem LeavesAll.resolve (h : LeavesAll L idx) (p : UInt64) (g : Nat) (path : Path) :
    LeavesAll L (resolveNode idx p g path).1 :=
  fun q lf hl => h q lf (by simpa using hl)

theorem LeavesAll.drop (h : LeavesAll L idx) (node : Path) : LeavesAll L (idx.drop node) := by
  intro q lf hl
  rw [leafAt_drop] at hl
  split at hl
  · cases hl
  · exact h q lf hl

theorem LeavesAll.publish (h : LeavesAll L idx) (hok : SideOk idx) {node : Path} {a : PublishArgs}
    (hside : sideGet idx.side a.prefixId a.groupIdx = some node)
    (hleaf : ∀ lf, (∀ o, idx.tree.leafAt node = some o → L a.groupIdx o) →
      (leafPublish (idx.tree.leafAt node) a).leaf = some lf → L a.groupIdx lf) :
    LeavesAll L (idx.publish node a) := by
  have hgroup : groupOf node = a.groupIdx := by
    have hlen := hok.len _ _ _ hside
    unfold groupOf
    omega
  intro q lf hl
  rw [leafAt_publish idx node a (hok.node _ _ _ hside)] at hl
  split at hl
  · rename_i hq
    rw [hq, hgroup]
    refine hleaf lf (fun o ho => ?_) hl
    have hold := h node o ho
    rw [hgroup] at hold
    exact hold
  · exact h q lf hl

theorem LeavesAll.publishAll (h : LeavesAll L idx) (hok : SideOk idx) {p : UInt64} {g : Nat}
    {node : Path} (hside : sideGet idx.side p g = some node) {as : List PublishArgs}
    (has : ∀ a ∈ as, a.prefixId = p ∧ a.groupIdx = g)
    (hleaf : ∀ a ∈ as, ∀ old lf, (∀ o, old = some o → L a.groupIdx o) →
      (leafPublish old a).leaf = some lf → L a.groupIdx lf) :
    LeavesAll L (publishAll idx node as) :=
  publishAll_keeps has (fun _ a ha hok hside h =>
    h.publish hok hside fun lf hold hl => hleaf a ha _ lf hold hl) hok hside h

end Index

theorem LeavesAll.loaded {L : Nat → Nat → RadixLeaf → Prop}
    (hreload : ∀ (n g : Nat) (shapes : List Shape) (lf : RadixLeaf), L n g lf →
      L n g (reloaded shapes lf)) {idx : Index} (hdist : idx.tree.Distinct)
    (hpool : PoolOk idx.shapes) {ver n c z nDevs regionCnt regionSizePages : Nat}
    (h : LeavesAll (L n) idx) :
    LeavesAll (L nDevs) (sideBuild (ckptLoad (some (ckptWrite idx ver n c z)) nDevs regionCnt
      regionSizePages).1) := by
  by_cases hgeo : n = nDevs ∧ c = regionCnt ∧ z = regionSizePages
  · obtain ⟨rfl, rfl, rfl⟩ := hgeo
    rw [ckptLoad_ckptWrite_part hdist hpool]
    intro q lf hl
    obtain ⟨lf0, hlf0, rfl⟩ := (partOf_loadedPart idx.shapes idx.tree 1).leaf q lf hl
    exact hreload _ _ idx.shapes lf0 (h q lf0 hlf0)
  rw [ckptLoad_otherGeometry idx ver hgeo]
  exact LeavesAll.empty

section Rule

variable {L : Nat → Nat → RadixLeaf → Prop} {A : Nat → PublishArgs → Prop}
  {J : Nat → JournalRec → Prop}

theorem LeafRule.apply (hrule : LeafRule L A J) {n regionCnt d : Nat} {st : Replay}
    (h : LeavesAll (L n) st.idx) (hok : SideOk st.idx) {r : JournalRec} (hd : d < n)
    (hpath : PathOk r) (hJ : r.op = .put → J d r) :
    LeavesAll (L n) (replayApply n regionCnt st r).idx := by
  have hc := replayApply_cases n regionCnt st r
  generalize (replayApply n regionCnt st r).idx = idx' at hc
  cases hc with
  | same _ => exact h
  | drop node lf _ _ _ => exact h.drop node
  | put shapes as hop has _ hof =>
    have hres : LeavesAll (L n)
        { (resolveNode st.idx r.prefixId r.groupIdx r.path).1 with shapes := shapes } :=
      h.resolve r.prefixId r.groupIdx r.path
    have hside : SideOk
        { (resolveNode st.idx r.prefixId r.groupIdx r.path).1 with shapes := shapes } :=
      (hok.resolveNode r.prefixId r.groupIdx (hpath hop)).congr rfl rfl
    exact hres.publishAll hside
      (sideGet_resolveNode_self st.idx r.prefixId r.groupIdx r.path) has
      fun a ha _ _ hold hl => hrule.publish (hrule.replay hd hop (hJ hop) (hof a ha)) hold hl

theorem LeafRule.journal (hrule : LeafRule L A J) {n regionCnt : Nat} {st : Replay}
    (h : LeavesAll (L n) st.idx) (hok : IndexOk st.idx) {rs : List JournalRec}
    (hpath : ∀ r ∈ rs, PathOk r) (hJ : ∀ r ∈ rs, ∃ d, d < n ∧ (r.op = .put → J d r)) :
    LeavesAll (L n) (replayJournal n regionCnt st rs).idx := by
  induction rs generalizing st with
  | nil => exact h
  | cons r rs ih =>
    obtain ⟨d, hd, hr⟩ := hJ r (by simp)
    have hp := hpath r (by simp)
    exact ih (hrule.apply h hok.side hd hp hr) (hok.apply hp) (fun r' hr' => hpath r' (by simp [hr']))
      fun r' hr' => hJ r' (by simp [hr'])

/-- The leaves, the checkpoint and the journals of a cache. -/
structure LeavesOk (L : Nat → Nat → RadixLeaf → Prop) (J : Nat → JournalRec → Prop) (s : Store) :
    Prop where
  leaves : LeavesAll (L s.cfg.nDevs) s.idx
  recs : ∀ d, RecsAll (fun r => r.op = .put → J d r) (s.jours d)
  ckpt : ∀ f, s.ckpt = some f → ∃ idx ver n c z, f = ckptWrite idx ver n c z ∧
    idx.tree.Distinct ∧ PoolOk idx.shapes ∧ LeavesAll (L n) idx

/-- The request a step publishes satisfies the rule. -/
def PublishesOk (A : Nat → PublishArgs → Prop) (J : Nat → JournalRec → Prop) (s : Store) :
    Label → Prop
  | .publish i page crc now => ∀ r, s.pending[i]? = some r →
    A s.cfg.nDevs (r.args page crc now) ∧
      ∀ d, J r.dev { journalPutRec (r.args page crc now) with devId := d }
  | _ => True

section Store

variable {s s' : Store}

theorem LeavesOk.congr (h : LeavesOk L J s) (hidx : LeavesAll (L s'.cfg.nDevs) s'.idx)
    (hj : s'.jours = s.jours) (hck : s'.ckpt = s.ckpt) : LeavesOk L J s' where
  leaves := hidx
  recs d := by rw [hj]; exact h.recs d
  ckpt := by rw [hck]; exact h.ckpt

theorem LeavesOk.update (h : LeavesOk L J s) (hidx : LeavesAll (L s'.cfg.nDevs) s'.idx)
    (hck : s'.ckpt = s.ckpt) {d : Nat} {j : Journal}
    (hj : s'.jours = Function.update s.jours d j)
    (hok : RecsAll (fun r => r.op = .put → J d r) j) : LeavesOk L J s' where
  leaves := hidx
  recs d' := by
    rw [hj]
    by_cases he : d' = d
    · subst he
      simpa using hok
    · rw [Function.update_of_ne he]
      exact h.recs d'
  ckpt := by rw [hck]; exact h.ckpt

/-- Publishes that satisfy `A` keep `L`. -/
def PublishKeeps (L : Nat → Nat → RadixLeaf → Prop) (A : Nat → PublishArgs → Prop) : Prop :=
  ∀ (n : Nat) (old : Option RadixLeaf) (a : PublishArgs) (lf : RadixLeaf), A n a →
    (∀ o, old = some o → L n a.groupIdx o) → (leafPublish old a).leaf = some lf →
    L n a.groupIdx lf

theorem LeafRule.publishKeeps (h : LeafRule L A J) : PublishKeeps L A :=
  fun n _ _ _ => h.publish (n := n)

theorem LeavesOk.afterPublish (hpub : PublishKeeps L A) (hok : SessionOk s) (h : LeavesOk L J s)
    {i : Nat} {r : PutReq} (hr : s.pending[i]? = some r) {page crc now : Nat}
    (hA : A s.cfg.nDevs (r.args page crc now)) :
    LeavesAll (L s.cfg.nDevs)
      ((resolvedIdx s r).publish (resolvedNode s r) (r.args page crc now)) := by
  have hreq := hok.reqs r (List.mem_of_getElem? hr)
  have hside := hok.index.side.resolveNode r.prefixId r.groupIdx hreq.path
  refine (h.leaves.resolve r.prefixId r.groupIdx r.path).publish hside
    (sideGet_resolveNode_self s.idx r.prefixId r.groupIdx r.path) fun lf hold hl => ?_
  exact hpub _ _ _ _ hA hold hl

theorem LeavesOk.step (hpub : PublishKeeps L A) {l : Label} (hok : SessionOk s)
    (h : LeavesOk L J s) (hl : PublishesOk A J s l) (hstep : s.step l = some s') :
    LeavesOk L J s' := by
  cases step_cases hstep with
  | putRejected a => exact h
  | put a reqs _ _ _ _ | ack v _ _ _ => exact h.congr h.leaves rfl rfl
  | publish i page crc now r hidle hr hacc =>
    obtain ⟨hA, hJ⟩ := hl r hr
    exact h.update (h.afterPublish hpub hok hr hA) rfl rfl
      ((h.recs r.dev).append fun d _ => hJ d)
  | publishRejected i page crc now r hidle hr hrej =>
    exact h.congr (h.afterPublish hpub hok hr (hl r hr).1) rfl rfl
  | flush d hd hfree => exact h.update h.leaves rfl rfl (h.recs d).flush
  | drop node lf hidle hleaf hpin hdev =>
    exact h.update (h.leaves.drop node) rfl rfl
      ((h.recs lf.delJournal).append fun d hop => by cases hop)
  | trim d regionIdx epoch hd hfree =>
    exact h.update h.leaves rfl rfl ((h.recs d).append fun d' hop => by cases hop)
  | ckpt hidle =>
    refine ⟨h.leaves, h.recs, fun f hf => ?_⟩
    cases hf
    exact ⟨_, _, _, _, _, rfl, hok.index.side.distinct, hok.index.pool, h.leaves⟩
  | resetPage d p hphase hp => exact h.update h.leaves rfl rfl ((h.recs d).resetPage p)
  | resetDone d p hphase hp => exact h.update h.leaves rfl rfl (h.recs d).resetDone

theorem LeavesOk.format (cfg : Config) : LeavesOk L J (Store.format cfg) where
  leaves := LeavesAll.empty
  recs d := ⟨by simp [Store.format], by simp [Store.format]⟩
  ckpt f hf := by
    cases hf
    exact ⟨_, _, _, _, _, rfl, SideOk.empty.distinct, PoolOk.nil, LeavesAll.empty⟩

/-- What an open recovers has the property. -/
theorem LeafRule.reopen (hrule : LeafRule L A J) (hok : SessionOk s) (h : LeavesOk L J s)
    (cfg : Config) : LeavesOk L J (Session.reopen s cfg).store := by
  unfold Session.reopen
  split
  · refine ⟨?_, fun d => (h.recs d).reinit _, h.ckpt⟩
    simp only
    rw [recover_eq]
    have hinit : LeavesAll (L cfg.nDevs)
          (replayInit s.ckpt cfg.nDevs cfg.regionCnt cfg.regionSizePages).idx ∧
        IndexOk (replayInit s.ckpt cfg.nDevs cfg.regionCnt cfg.regionSizePages).idx := by
      cases hc : s.ckpt with
      | none => exact ⟨LeavesAll.empty, IndexOk.empty⟩
      | some f =>
        obtain ⟨idx, ver, n, c, z, hf, hside, hpool⟩ := hok.ckpt f hc
        obtain ⟨idx', ver', n', c', z', hf', hdist', hpool', hleaves⟩ := h.ckpt f hc
        refine ⟨?_, ?_⟩
        · rw [hf']
          exact LeavesAll.loaded (fun _ _ shapes _ => hrule.reload shapes) hdist' hpool' hleaves
        · rw [hf]
          exact IndexOk.loaded hside hpool ver n c z _ _ _
    refine hrule.journal hinit.1 hinit.2 (fun r hr => ?_) fun r hr => ?_
    · obtain ⟨d, _, hr⟩ := List.mem_flatMap.mp hr
      obtain ⟨p, hp⟩ := mem_readFrom hr
      exact (hok.recs d).pages p r hp
    · obtain ⟨d, hd, hr⟩ := List.mem_flatMap.mp hr
      obtain ⟨p, hp⟩ := mem_readFrom hr
      exact ⟨d, List.mem_range.mp hd, (h.recs d).pages p r hp⟩
  · exact (LeavesOk.format cfg).congr LeavesAll.empty rfl rfl

theorem LeafRule.session_step (hrule : LeafRule L A J) {s s' : Session} {l : SessionLabel}
    (hok : SessionOk s.store) (h : LeavesOk L J s.store)
    (hopens : OpensOk l) (hl : ∀ l', l = .op l' → PublishesOk A J s.store l')
    (hstep : s.step l = some s') : LeavesOk L J s'.store := by
  refine (session_step_keeps (P := fun s => SessionOk s ∧ LeavesOk L J s)
    (C := PublishesOk A J) (fun h hl hs => ⟨h.1.step hs, h.2.step hrule.publishKeeps h.1 hl hs⟩)
    (fun v h => ⟨h.1.congr rfl h.1.index h.1.reqs rfl rfl, h.2.congr h.2.leaves rfl rfl⟩)
    (fun _ => trivial) ⟨hok, h⟩ hl ?_ hstep).2
  rintro cfg rfl
  exact ⟨hok.reopen hopens, hrule.reopen hok h cfg⟩

end Store

end Rule

end KvTier.Analysis
