import KvTier.Analysis.StoreFacts
import KvTier.Model.Session

/-!
# What every session keeps

The index of a cache over any number of sessions.
-/

namespace KvTier.Analysis

open Function KvTier.Lib KvTier.Model List Option

variable {cfg : Config} {idx : Index} {nDevs regionCnt : Nat} {node : Path} {r : JournalRec}
  {s' : Store} {st : Replay}

/-! ## The index -/

/-- An index without pins, with its pool and count. -/
structure IndexOk (idx : Index) : Prop where
  side : SideOk idx
  unpinned : ∀ q lf, idx.tree.leafAt q = some lf → lf.refcnt = 0
  pool : PoolOk idx.shapes
  count : idx.nLeaves = idx.tree.total fun _ => 1

theorem IndexOk.empty : IndexOk Index.empty :=
  ⟨SideOk.empty, by simp [Index.empty], PoolOk.nil, rfl⟩

theorem count_resolve (hc : idx.nLeaves = idx.tree.total fun _ => 1) (p : UInt64) (g : Nat)
    (path : Path) : (resolveNode idx p g path).1.nLeaves =
      (resolveNode idx p g path).1.tree.total fun _ => 1 := by
  rw [nLeaves_resolveNode, hc]
  unfold resolveNode
  split
  · rfl
  · simp

theorem IndexOk.resolve (h : IndexOk idx) (p : UInt64) (g : Nat) {path : Path}
    (hlen : path.length = g + 1) : IndexOk (resolveNode idx p g path).1 where
  side := h.side.resolveNode p g hlen
  unpinned q lf hl := h.unpinned q lf (by simpa using hl)
  pool := by rw [shapes_resolveNode]; exact h.pool
  count := count_resolve h.count p g path

theorem count_publish (hn : (idx.tree.node? node).isSome)
    (hc : idx.nLeaves = idx.tree.total fun _ => 1) (a : PublishArgs) :
    (idx.publish node a).nLeaves = (idx.publish node a).tree.total fun _ => 1 := by
  have htot := Trie.total_setLeaf (fun _ => 1) idx.tree node
    (leafPublish (idx.tree.leafAt node) a).leaf hn
  have hleaf : (leafPublish (idx.tree.leafAt node) a).leaf.isSome := by
    have hcase := leafPublish_cases (idx.tree.leafAt node) a
    generalize leafPublish (idx.tree.leafAt node) a = res at hcase
    cases hcase with
    | rejected lf hlf _ => exact hlf ▸ rfl
    | newStripe _ _ => rfl
    | addPart _ _ _ _ _ _ => rfl
    | newPlain _ _ => rfl
    | addReplica _ _ _ _ _ => rfl
  obtain ⟨lf, hlf⟩ := isSome_iff_exists.mp hleaf
  simp only [Index.publish, hlf, isSome_some, and_true] at htot ⊢
  rw [hc]
  cases hold : idx.tree.leafAt node with
  | none => simp_all
  | some lf0 => simp_all

theorem IndexOk.publish (h : IndexOk idx) {a : PublishArgs}
    (hside : sideGet idx.side a.prefixId a.groupIdx = some node) :
    IndexOk (idx.publish node a) where
  side := h.side.publish hside
  unpinned q lf hl := by
    rw [leafAt_publish idx node a (h.side.node _ _ _ hside)] at hl
    split at hl
    · rcases label_leafPublish _ _ _ hl with ⟨_, h0⟩ | ⟨lf0, hold, _, hrc⟩
      · exact h0
      · rw [hrc]
        exact h.unpinned node lf0 hold
    · exact h.unpinned q lf hl
  pool := h.pool
  count := count_publish (h.side.node _ _ _ hside) h.count a

theorem count_drop (hc : idx.nLeaves = idx.tree.total fun _ => 1) (node : Path) :
    (idx.drop node).nLeaves = (idx.drop node).tree.total fun _ => 1 := by
  have htot := total_drop (fun _ => 1) idx node
  have hn : (idx.drop node).nLeaves = idx.nLeaves - (idx.tree.leafAt node).elim 0 fun _ => 1 := by
    unfold Index.drop
    split <;> rename_i hl <;> rw [hl] <;> rfl
  omega

theorem IndexOk.drop (h : IndexOk idx) (node : Path) : IndexOk (idx.drop node) where
  side := h.side.drop node
  unpinned q lf hl := by
    rw [leafAt_drop] at hl
    split at hl
    · cases hl
    · exact h.unpinned q lf hl
  pool := by rw [shapes_drop]; exact h.pool
  count := count_drop h.count node

theorem IndexOk.intern (h : IndexOk idx) {lens : List Nat} (hcap : lens.length ≤ maxLayersCap) :
    IndexOk { idx with shapes := (shapePoolIntern idx.shapes lens).1 } where
  side := h.side.congr rfl rfl
  unpinned := h.unpinned
  pool := h.pool.intern hcap
  count := h.count

/-! ## Replay -/

theorem shapes_publishAll (idx : Index) (node : Path) (as : List PublishArgs) :
    (publishAll idx node as).shapes = idx.shapes := by
  induction as generalizing idx with
  | nil => rfl
  | cons a as ih => exact (ih (idx.publish node a)).trans (shapes_publish idx node a)

theorem PoolOk.replayShape {shapes : List Shape} (h : PoolOk shapes) (r : JournalRec) :
    PoolOk (replayShape shapes r).1 := by
  unfold Model.replayShape
  split
  · exact h
  refine h.intern ?_
  unfold replayLens
  simp only
  split
  · rw [length_replicate]
    exact Nat.min_le_right _ _
  · exact (length_take_le _ _).trans (Nat.min_le_right _ _)

theorem pool_replayApply (h : PoolOk st.idx.shapes) (r : JournalRec) :
    PoolOk (replayApply nDevs regionCnt st r).idx.shapes := by
  unfold replayApply
  cases r.op with
  | del =>
    simp only
    split
    · exact h
    split
    · exact h
    · split
      · simpa using h
      · exact h
  | trim =>
    simp only
    split <;> exact h
  | put =>
    simp only
    split
    · exact h
    obtain ⟨as, _, he⟩ := replayPut_idx
      { st with idx := (resolveNode st.idx r.prefixId r.groupIdx r.path).1,
                maxVer := max st.maxVer r.ver }
      (resolveNode st.idx r.prefixId r.groupIdx r.path).2 r
    rw [he, shapes_publishAll]
    exact PoolOk.replayShape (by simpa using h) r

theorem count_publishAll {p : UInt64} {g : Nat} (hok : SideOk idx)
    (hside : sideGet idx.side p g = some node) (hc : idx.nLeaves = idx.tree.total fun _ => 1)
    (as : List PublishArgs) (has : ∀ a ∈ as, a.prefixId = p ∧ a.groupIdx = g) :
    (publishAll idx node as).nLeaves = (publishAll idx node as).tree.total fun _ => 1 :=
  publishAll_keeps (P := fun idx => idx.nLeaves = idx.tree.total fun _ => 1) has
    (fun _ a _ hok hside hc => count_publish (hok.node _ _ _ hside) hc a) hok hside hc

/-- Replay keeps the index in order. -/
theorem IndexOk.apply (h : IndexOk st.idx) (hr : PathOk r) :
    IndexOk (replayApply nDevs regionCnt st r).idx := by
  have hrep : ReplayOk (replayApply nDevs regionCnt st r).idx :=
    ReplayOk.apply ⟨h.side, h.unpinned⟩ hr
  refine ⟨hrep.side, hrep.unpinned, pool_replayApply h.pool r, ?_⟩
  have hc := replayApply_cases nDevs regionCnt st r
  generalize (replayApply nDevs regionCnt st r).idx = idx' at hc
  cases hc with
  | same _ => exact h.count
  | drop node lf _ _ _ => exact (h.drop node).count
  | put shapes as hop has _ =>
    have hres := h.resolve r.prefixId r.groupIdx (hr hop)
    have hside : SideOk
        { (resolveNode st.idx r.prefixId r.groupIdx r.path).1 with shapes := shapes } :=
      hres.side.congr rfl rfl
    exact count_publishAll hside
      (sideGet_resolveNode_self st.idx r.prefixId r.groupIdx r.path) hres.count as has

theorem IndexOk.journal (h : IndexOk st.idx) {rs : List JournalRec} (hr : ∀ r ∈ rs, PathOk r) :
    IndexOk (replayJournal nDevs regionCnt st rs).idx := by
  induction rs generalizing st with
  | nil => exact h
  | cons r rs ih => exact ih (h.apply (hr r (by simp))) fun r' hr' => hr r' (by simp [hr'])

/-! ## Loading a checkpoint -/

/-- A part of the tree, reloaded. -/
structure PartOf (shapes : List Shape) (t' t : Radix) : Prop where
  hashes : ∀ x ∈ t'.hashes, x ∈ t.hashes
  distinct : t.Distinct → t'.Distinct
  leaf : ∀ q lf, t'.leafAt q = some lf → ∃ lf0, t.leafAt q = some lf0 ∧ lf = reloaded shapes lf0

theorem PartOf.nil (shapes : List Shape) (t : Radix) : PartOf shapes .nil t :=
  ⟨by simp [Trie.hashes], fun _ => trivial, by simp⟩

theorem PartOf.edge {shapes : List Shape} {kids' kids rest' rest : Radix}
    (hk : PartOf shapes kids' kids) (hr : PartOf shapes rest' rest) (h : UInt64)
    {l' l : Option RadixLeaf} (hl : ∀ lf, l' = some lf → ∃ lf0, l = some lf0 ∧ lf = reloaded shapes lf0) :
    PartOf shapes (.edge h l' kids' rest') (.edge h l kids rest) where
  hashes x hx := by
    simp only [Trie.hashes, mem_cons] at hx ⊢
    exact hx.imp id (hr.hashes x)
  distinct hd := ⟨fun hx => hd.1 (hr.hashes h hx), hk.distinct hd.2.1, hr.distinct hd.2.2⟩
  leaf q lf hq := by
    cases q with
    | nil => simp at hq
    | cons x q =>
      rw [Trie.leafAt_edge_cons] at hq ⊢
      by_cases hx : x = h
      · by_cases hne : q = []
        · simp only [hx, hne, if_true] at hq ⊢
          exact hl lf hq
        · simp only [hx, hne, if_true, if_false] at hq ⊢
          exact hk.leaf q lf hq
      · simp only [hx, if_false] at hq ⊢
        exact hr.leaf (x :: q) lf hq

theorem partOf_loadedPart (shapes : List Shape) (t : Radix) (d : Nat) :
    PartOf shapes (loadedPart shapes d t).1 t := by
  induction t generalizing d with
  | nil => exact .nil shapes _
  | edge h l kids rest ihk ihr =>
    have hl : ∀ lf, l.map (reloaded shapes) = some lf →
        ∃ lf0, l = some lf0 ∧ lf = reloaded shapes lf0 := by
      intro lf hlf
      obtain ⟨lf0, h0, he⟩ := map_eq_some_iff.mp hlf
      exact ⟨lf0, h0, he.symm⟩
    have hk := ihk (d + 1)
    rw [loadedPart]
    split
    · exact .nil shapes _
    split
    · exact .edge (.nil shapes _) (.nil shapes _) h (by simp)
    split
    · rename_i hkids
      rw [hkids] at hk
      exact .edge hk (.nil shapes _) h hl
    · rename_i hkids
      rw [hkids] at hk
      exact .edge hk (ihr d) h hl

theorem IndexOk.loaded (hok : SideOk idx) (hp : PoolOk idx.shapes)
    (ver n c z nDevs regionCnt regionSizePages : Nat) :
    IndexOk (sideBuild (ckptLoad (some (ckptWrite idx ver n c z)) nDevs regionCnt
      regionSizePages).1) := by
  by_cases hgeo : n = nDevs ∧ c = regionCnt ∧ z = regionSizePages
  · obtain ⟨rfl, rfl, rfl⟩ := hgeo
    rw [ckptLoad_ckptWrite_part hok.distinct hp]
    have hpart := partOf_loadedPart idx.shapes idx.tree 1
    have hdist := hpart.distinct hok.distinct
    generalize (loadedPart idx.shapes 1 idx.tree).1 = t at hpart hdist
    have hget := sideGet_sideBuild
      { Index.empty with tree := t, shapes := idx.shapes, nLeaves := (t.entries []).length }
      hdist rfl (by
        intro q lf q' lf' hq hq' hpre hg
        obtain ⟨l, hl, rfl⟩ := hpart.leaf q lf hq
        obtain ⟨l', hl', rfl⟩ := hpart.leaf q' lf' hq'
        exact hok.key_unique hl hl' hpre hg)
    refine ⟨⟨hdist, ?_, ?_, ?_⟩, ?_, hp, ?_⟩
    · intro p g q hq
      obtain ⟨lf, hlf, _⟩ := (hget p g q).mp hq
      exact Trie.isSome_node?_of_leafAt hlf
    · intro p g q hq
      obtain ⟨lf, hlf, rfl, rfl⟩ := (hget p g q).mp hq
      obtain ⟨l, hl, rfl⟩ := hpart.leaf q lf hlf
      exact hok.len _ _ q (hok.leaf q l hl)
    · intro q lf hlf
      exact (hget _ _ _).mpr ⟨lf, hlf, rfl, rfl⟩
    · intro q lf hlf
      obtain ⟨l, _, rfl⟩ := hpart.leaf q lf hlf
      rfl
    · change (t.entries []).length = t.total fun _ => 1
      rw [Trie.total_eq_sum _ _ []]
      simp
  rw [ckptLoad_otherGeometry idx ver hgeo]
  exact IndexOk.empty

/-! ## Sessions -/

/-- A checkpoint file that was written by the cache. -/
def CkptGood (f : CkptFile) : Prop :=
  ∃ idx ver n c z, f = ckptWrite idx ver n c z ∧ SideOk idx ∧ PoolOk idx.shapes

structure RecsAll (P : JournalRec → Prop) (j : Journal) : Prop where
  pages : ∀ p, ∀ r ∈ j.log.pages p, P r
  stage : ∀ r ∈ j.log.stage, P r

section RecsAll

variable {P : JournalRec → Prop} {j : Journal}

section Records

variable (h : RecsAll P j)
include h

theorem RecsAll.flush : RecsAll P (journalFlush j) := by
  unfold journalFlush
  split
  · exact h
  refine ⟨fun p r hr => ?_, h.stage⟩
  simp only [PagedLog.flush, update_apply] at hr
  split at hr
  · exact h.stage r hr
  · exact h.pages p r hr

theorem RecsAll.stageRec (hr : ∀ d, P { r with devId := d }) :
    RecsAll P (journalStage j r) := by
  refine ⟨h.pages, fun r' hr' => ?_⟩
  simp only [journalStage, PagedLog.push, mem_append, mem_singleton] at hr'
  rcases hr' with hr' | rfl
  · exact h.stage r' hr'
  · exact hr _

theorem RecsAll.nextPage : RecsAll P (journalNextPage j) :=
  ⟨h.flush.pages, by simp [journalNextPage]⟩

theorem RecsAll.append (hr : ∀ d, P { r with devId := d }) :
    RecsAll P (journalAppend j r).1 := by
  unfold journalAppend
  split
  · exact h
  split
  · exact ⟨h.pages, h.stage⟩
  split
  · simp only
    split
    · exact ⟨h.nextPage.pages, h.nextPage.stage⟩
    · exact h.nextPage.stageRec hr
  · exact h.stageRec hr

theorem RecsAll.resetPage (p : Nat) : RecsAll P (journalResetPage j p) := by
  refine ⟨fun q r hr => ?_, h.stage⟩
  simp only [journalResetPage, PagedLog.wipe, update_apply] at hr
  split at hr
  · cases hr
  · exact h.pages q r hr

theorem RecsAll.resetDone : RecsAll P (journalResetDone j) :=
  ⟨h.pages, by simp [journalResetDone, PagedLog.rewind]⟩

theorem RecsAll.reinit (journalPages : Nat) :
    RecsAll P (j.reinit journalPages) :=
  ⟨h.pages, by simp [Journal.reinit]⟩

end Records

end RecsAll

theorem mem_readFrom {pages : Nat → List JournalRec} :
    ∀ {n p : Nat}, r ∈ PagedLog.readFrom pages p n → ∃ q, r ∈ pages q
  | 0, _, h => by simp [PagedLog.readFrom] at h
  | n + 1, p, h => by
    unfold PagedLog.readFrom at h
    split at h
    · cases h
    rename_i x xs hp
    rcases List.mem_append.mp h with h | h
    · exact ⟨p, by rw [hp]; exact h⟩
    · exact mem_readFrom h

/-- Index, requests, journals and checkpoint of a session are well formed. -/
structure SessionOk (s : Store) : Prop where
  cfg : ConfigOk s.cfg
  index : IndexOk s.idx
  reqs : ∀ r ∈ s.pending, ReqOk s.cfg r
  recs : ∀ d, RecsAll PathOk (s.jours d)
  ckpt : ∀ f, s.ckpt = some f → CkptGood f

section Step

variable {s : Store}

theorem SessionOk.congr (h : SessionOk s) (hcfg : s'.cfg = s.cfg) (hidx : IndexOk s'.idx)
    (hreqs : ∀ r ∈ s'.pending, ReqOk s.cfg r) (hj : s'.jours = s.jours) (hck : s'.ckpt = s.ckpt) :
    SessionOk s' where
  cfg := by rw [hcfg]; exact h.cfg
  index := hidx
  reqs := by rw [hcfg]; exact hreqs
  recs d := by rw [hj]; exact h.recs d
  ckpt := by rw [hck]; exact h.ckpt

theorem SessionOk.update (h : SessionOk s) (hcfg : s'.cfg = s.cfg) (hidx : s'.idx = s.idx)
    (hpend : s'.pending = s.pending) (hck : s'.ckpt = s.ckpt) {d : Nat} {j : Journal}
    (hj : s'.jours = update s.jours d j) (hok : RecsAll PathOk j) : SessionOk s' where
  cfg := by rw [hcfg]; exact h.cfg
  index := by rw [hidx]; exact h.index
  reqs := by rw [hpend, hcfg]; exact h.reqs
  recs d' := by
    rw [hj]
    by_cases he : d' = d
    · subst he; simpa using hok
    · rw [update_of_ne he]; exact h.recs d'
  ckpt := by rw [hck]; exact h.ckpt

theorem SessionOk.append (h : SessionOk s) (d : Nat) (hr : PathOk r) : SessionOk (s.append d r) :=
  h.update rfl rfl rfl rfl rfl ((h.recs d).append fun _ => hr)

theorem SessionOk.afterPublish (h : SessionOk s) {i : Nat} {r : PutReq}
    (hr : s.pending[i]? = some r) (page crc now : Nat) :
    SessionOk (afterPublish s i r (r.args page crc now)) := by
  have hreq := h.reqs r (mem_of_getElem? hr)
  refine h.congr rfl ?_ ?_ rfl rfl
  · exact (h.index.resolve r.prefixId r.groupIdx hreq.path).publish
      (sideGet_resolveNode_self s.idx r.prefixId r.groupIdx r.path)
  · intro r' hr'
    exact h.reqs r' (mem_of_mem_eraseIdx hr')

theorem SessionOk.step {l : Label} (h : SessionOk s) (hstep : s.step l = some s') :
    SessionOk s' := by
  cases step_cases hstep with
  | putRejected a => exact h
  | put a reqs hlen hg hl hreqs =>
    have hcap := hl.trans h.cfg.layers
    refine h.congr rfl (h.index.intern hcap) ?_ rfl rfl
    intro r hr
    rcases mem_append.mp hr with hr | hr
    · exact h.reqs r hr
    rw [hreqs] at hr
    obtain ⟨⟨_, hrg⟩, hrp, _, hrs, _, hdev⟩ := mem_cachePutReqs hr
    refine ⟨by rw [hrp, hrg]; exact hlen, by rw [hrg]; exact hg, hdev h.cfg.devs, ?_⟩
    rw [hrs, lens_shapePoolIntern]
    exact hcap
  | publish i page crc now r hidle hr hacc =>
    have hreq := h.reqs r (mem_of_getElem? hr)
    have happ := (h.afterPublish hr page crc now).append r.dev
      (r := journalPutRec (r.args page crc now)) fun _ => hreq.path
    exact happ.congr rfl happ.index happ.reqs rfl rfl
  | publishRejected i page crc now r hidle hr hrej => exact h.afterPublish hr page crc now
  | flush d hd hfree => exact h.update rfl rfl rfl rfl rfl (h.recs d).flush
  | ack v _ _ _ => exact h.congr rfl h.index h.reqs rfl rfl
  | drop node lf hidle hleaf hpin hdev =>
    have hdrop : SessionOk (afterDrop s node lf) :=
      h.congr rfl (h.index.drop node) h.reqs rfl rfl
    exact hdrop.append _ fun hop => by cases hop
  | trim d regionIdx epoch hd hfree => exact h.append d fun hop => by cases hop
  | ckpt hidle =>
    refine ⟨h.cfg, h.index, h.reqs, h.recs, fun f hf => ?_⟩
    cases hf
    exact ⟨_, _, _, _, _, rfl, h.index.side, h.index.pool⟩
  | resetPage d p hphase hp =>
    exact h.update rfl rfl rfl rfl rfl ((h.recs d).resetPage p)
  | resetDone d p hphase hp =>
    exact h.update rfl rfl rfl rfl rfl (h.recs d).resetDone

end Step

theorem SessionOk.recovered {s : Store} (h : SessionOk s) (cfg : Config) :
    IndexOk (recover s.ckpt cfg.nDevs cfg.regionCnt cfg.regionSizePages
      fun d => journalRead ((s.jours d).reinit cfg.journalPages)).idx := by
  rw [recover_eq]
  refine IndexOk.journal ?_ fun r hr => ?_
  · cases hc : s.ckpt with
    | none => exact IndexOk.empty
    | some f =>
      obtain ⟨idx, ver, n, c, z, rfl, hside, hpool⟩ := h.ckpt f hc
      exact IndexOk.loaded hside hpool ver n c z _ _ _
  · obtain ⟨d, _, hr⟩ := mem_flatMap.mp hr
    obtain ⟨p, hp⟩ := mem_readFrom hr
    exact (h.recs d).pages p r hp

theorem SessionOk.format (hcfg : ConfigOk cfg) : SessionOk (Store.format cfg) where
  cfg := hcfg
  index := IndexOk.empty
  reqs := by simp [Store.format]
  recs d := ⟨by simp [Store.format], by simp [Store.format]⟩
  ckpt f hf := by
    cases hf
    exact ⟨_, _, _, _, _, rfl, SideOk.empty, PoolOk.nil⟩

theorem SessionOk.reopen {s : Store} (h : SessionOk s) (hcfg : ConfigOk cfg) :
    SessionOk (Session.reopen s cfg).store := by
  unfold Session.reopen
  split
  · exact ⟨hcfg, h.recovered cfg, by simp, fun d => (h.recs d).reinit _, h.ckpt⟩
  · exact (SessionOk.format hcfg).congr rfl IndexOk.empty (by simp [Store.format]) rfl rfl

/-- Opens are with an accepted configuration. -/
def OpensOk : SessionLabel → Prop
  | .op _ => True
  | .reopen cfg => ConfigOk cfg

instance (cfg : Config) : Decidable (ConfigOk cfg) :=
  decidable_of_iff (0 < cfg.nDevs ∧ cfg.nDevs < 2 ^ 31 ∧ cfg.maxLayers ≤ maxLayersCap)
    ⟨fun h => ⟨h.1, h.2.1, h.2.2⟩, fun h => ⟨h.devs, h.devsInt, h.layers⟩⟩

instance : DecidablePred OpensOk
  | .op _ => .isTrue trivial
  | .reopen cfg => inferInstanceAs (Decidable (ConfigOk cfg))

/-- What a session keeps. -/
theorem session_step_keeps {P : Store → Prop} {C : Store → Label → Prop}
    (hkeep : ∀ {s s' : Store} {l : Label}, P s → C s l → s.step l = some s' → P s')
    (hver : ∀ {s : Store} (v : Nat), P s → P { s with verCounter := v })
    (hckpt : ∀ s, C s .ckpt) {s s' : Session} {l : SessionLabel} (h : P s.store)
    (hl : ∀ l', l = .op l' → C s.store l')
    (hopen : ∀ cfg, l = .reopen cfg → P (Session.reopen s.store cfg).store)
    (hstep : s.step l = some s') : P s'.store := by
  cases l with
  | reopen cfg =>
    cases hstep
    exact hopen cfg rfl
  | op l =>
    have hl := hl l rfl
    simp only [Session.step] at hstep
    split at hstep
    · obtain ⟨s₁, hs, rfl⟩ := map_eq_some_iff.mp hstep
      exact hkeep h hl hs
    rename_i maxVer _
    unfold Session.openStep at hstep
    split at hstep
    · obtain ⟨s₁, hs, rfl⟩ := map_eq_some_iff.mp hstep
      exact hkeep h hl hs
    · obtain ⟨s₁, hs, rfl⟩ := map_eq_some_iff.mp hstep
      exact hkeep (hver (max maxVer (maxLeafVer s.store.idx.tree) + 1) h) (hckpt _) hs
    · obtain ⟨s₁, hs, rfl⟩ := map_eq_some_iff.mp hstep
      exact hkeep h hl hs
    · cases hstep

theorem SessionOk.session_step {s s' : Session} {l : SessionLabel} (h : SessionOk s.store)
    (hl : OpensOk l) (hstep : s.step l = some s') : SessionOk s'.store := by
  refine session_step_keeps (P := SessionOk) (C := fun _ _ => True) (fun h _ hs => h.step hs)
    (fun v h => h.congr rfl h.index h.reqs rfl rfl) (fun _ => trivial) h (fun _ _ => trivial) ?_ hstep
  rintro cfg rfl
  exact h.reopen hl

/-- A history of sessions. -/
def SessionRun (cfg : Config) (ls : List SessionLabel) (s : Session) : Prop :=
  RunOf Session.step (fun _ l => OpensOk l) (Session.format cfg) ls s

/-- No put has hash 0 on its path: `edge_add`, `radix_visit` and `ckpt_write_rec` take an edge with
that hash for an empty slot. -/
def NonzeroPut : Label → Prop
  | .put a => 0 ∉ a.path
  | _ => True

/-- A history of sessions without hash 0. -/
def NonzeroRun (cfg : Config) (ls : List SessionLabel) (s : Session) : Prop :=
  RunOf Session.step (fun _ l => OpensOk l ∧ ∀ l', l = .op l' → NonzeroPut l') (Session.format cfg)
    ls s

theorem NonzeroRun.session {ls : List SessionLabel} {s : Session} (h : NonzeroRun cfg ls s) :
    SessionRun cfg ls s :=
  h.mono fun _ _ hl => hl.1

theorem SessionRun.ok {ls : List SessionLabel} {s : Session} (hcfg : ConfigOk cfg)
    (hrun : SessionRun cfg ls s) : SessionOk s.store :=
  RunOf.invariant (fun s : Session => SessionOk s.store)
    (fun _ _ _ h hl hs => h.session_step hl hs) hrun (SessionOk.format hcfg)

theorem SessionRun.of_foldlM (cfg : Config) (ls : List SessionLabel) (P : Session → Bool)
    (hls : ∀ l ∈ ls, OpensOk l)
    (h : ((ls.foldlM Session.step (Session.format cfg)).map P) = some true) :
    ∃ s, SessionRun cfg ls s ∧ P s = true := by
  obtain ⟨s, hs, hP⟩ := map_eq_some_iff.mp h
  exact ⟨s, RunOf.of_foldlM hs fun l hl _ => hls l hl, hP⟩

end KvTier.Analysis
