import KvTier.Analysis.Recovery
import KvTier.Analysis.SingleCopy

/-!
# Runs of single-copy puts

Two invariants of runs in which every put has one copy and every key its own path.
-/

namespace KvTier.Analysis

open Function KvTier.Lib KvTier.Lib.VersionedRegister KvTier.Model List

/-! ## What was acknowledged -/

/-- Versions are issued, and acked ones neither pending nor waiting. -/
structure AckBooks (s : Store) : Prop where
  reqs : ∀ r ∈ s.pending, r.ver ≤ s.verCounter
  waiting : ∀ w ∈ s.waiting, w.ver ≤ s.verCounter
  acked : ∀ v ∈ s.acked, v ≤ s.verCounter ∧ (∀ r ∈ s.pending, r.ver ≠ v) ∧
    ∀ w ∈ s.waiting, w.ver ≠ v

theorem AckBooks.afterPublish {s : Store} (h : AckBooks s) {i : Nat} {r : PutReq}
    (hr : s.pending[i]? = some r) (a : PublishArgs) : AckBooks (afterPublish s i r a) := by
  have hmem := mem_of_getElem? hr
  refine ⟨fun r' hr' => h.reqs r' (mem_of_mem_eraseIdx hr'), fun w hw => ?_, fun v hv => ?_⟩
  · rcases mem_append.mp hw with hw | hw
    · exact h.waiting w hw
    · rw [mem_singleton.mp hw]
      exact h.reqs r hmem
  obtain ⟨h1, h2, h3⟩ := h.acked v hv
  refine ⟨h1, fun r' hr' => h2 r' (mem_of_mem_eraseIdx hr'), fun w hw => ?_⟩
  rcases mem_append.mp hw with hw | hw
  · exact h3 w hw
  · rw [mem_singleton.mp hw]
    exact h2 r hmem

theorem AckBooks.step {s s' : Store} {l : Label} (h : AckBooks s)
    (hver : s'.verCounter = s.verCounter ∨ s'.verCounter < 2 ^ 32) (hstep : s.step l = some s') :
    AckBooks s' := by
  cases step_cases hstep with
  | putRejected a => exact h
  | put a reqs hlen hg hlens hreqs =>
    have hver : s.verCounter + 1 < 2 ^ 32 := hver.resolve_left (Nat.succ_ne_self _)
    -- The requests of the put have the next version.
    have hnew : ∀ r ∈ reqs, r.ver = s.verCounter + 1 := by
      intro r hr
      rw [hreqs] at hr
      rw [(mem_cachePutReqs hr).2.2.1, Nat.mod_eq_of_lt hver]
    refine ⟨fun r hr => ?_, fun w hw => Nat.le_succ_of_le (h.waiting w hw), fun v hv => ?_⟩
    · rcases mem_append.mp hr with hr | hr
      · exact Nat.le_succ_of_le (h.reqs r hr)
      · exact (hnew r hr).le
    obtain ⟨h1, h2, h3⟩ := h.acked v hv
    refine ⟨Nat.le_succ_of_le h1, fun r hr => ?_, h3⟩
    rcases mem_append.mp hr with hr | hr
    · exact h2 r hr
    · rw [hnew r hr]
      omega
  | publish i page crc now r hidle hr hacc =>
    have hpub := h.afterPublish hr (r.args page crc now)
    exact ⟨hpub.reqs, hpub.waiting, hpub.acked⟩
  | publishRejected i page crc now r hidle hr hrej => exact h.afterPublish hr _
  | flush d hd hfree =>
    have hw : ∀ w ∈ (Store.flush.go d s).waiting, ∃ w0 ∈ s.waiting, w.ver = w0.ver := by
      intro w hw
      obtain ⟨w0, hw0, rfl⟩ := mem_map.mp hw
      refine ⟨w0, hw0, ?_⟩
      split <;> rfl
    refine ⟨h.reqs, fun w hw' => ?_, fun v hv => ?_⟩
    · obtain ⟨w0, hw0, he⟩ := hw w hw'
      rw [he]
      exact h.waiting w0 hw0
    obtain ⟨h1, h2, h3⟩ := h.acked v hv
    refine ⟨h1, h2, fun w hw' => ?_⟩
    obtain ⟨w0, hw0, he⟩ := hw w hw'
    rw [he]
    exact h3 w0 hw0
  | ack v hpend hsome hall =>
    refine ⟨h.reqs, fun w hw => h.waiting w (mem_filter.mp hw).1, fun v' hv' => ?_⟩
    rcases mem_cons.mp hv' with rfl | hv'
    · obtain ⟨w, hw, rfl⟩ := hsome
      refine ⟨h.waiting w hw, hpend, fun w' hw' => ?_⟩
      simpa using (mem_filter.mp hw').2
    · obtain ⟨h1, h2, h3⟩ := h.acked v' hv'
      exact ⟨h1, h2, fun w hw => h3 w (mem_filter.mp hw).1⟩
  | drop node lf | trim | ckpt | resetPage | resetDone => exact ⟨h.reqs, h.waiting, h.acked⟩

section SingleRuns

variable (pathOf : UInt64 → Nat → Path) (v0 : Nat)

/-! ## Requests and versions -/

/-- A put of one copy under its own path. -/
def SinglePut (s : Store) : Label → Prop
  | .put a => a.path = pathOf a.prefixId a.groupIdx ∧ a.hot = false ∧
      a.lens.sum ≤ s.cfg.stripeThreshold % 2 ^ 32 ∧ a.groupIdx < 127
  | _ => True

/-- A leaf that is dropped has its DEL in the journal of its base device or an earlier one. -/
def DropsEarly (s : Store) : Label → Prop
  | .drop node => ∀ lf, s.idx.tree.leafAt node = some lf →
      lf.delJournal ≤ baseDev s.cfg.nDevs lf.prefixId
  | _ => True

/-- A request of such a put. -/
structure SingleReq (cfg : Config) (r : PutReq) : Prop where
  path : r.path = pathOf r.prefixId r.groupIdx
  flags : r.flags = Flags.empty
  slot : r.slot = 0
  dev : r.dev = baseDev cfg.nDevs r.prefixId

/-- The versions that were published. -/
def histVers (hist : List Event) : List Nat :=
  hist.filterMap fun
    | .publish r _ => some r.ver
    | .drop _ _ => none

/-- A publish event of a single-copy put. -/
structure SingleEvent (cfg : Config) (r : PutReq) (a : PublishArgs) : Prop where
  args : SingleArgs a
  path : a.path = pathOf a.prefixId a.groupIdx
  key : a.prefixId = r.prefixId ∧ a.groupIdx = r.groupIdx
  ver : a.ver = r.ver
  dev : a.addr.devId = baseDev cfg.nDevs r.prefixId
  lens : lensOf a.shape = r.shape.lens

/-- Versions of requests and publishes are issued and differ. -/
structure Books (s : Store) : Prop where
  issued : v0 ≤ s.verCounter
  reqs : ∀ r ∈ s.pending, SingleReq pathOf s.cfg r ∧ v0 < r.ver ∧ r.ver ≤ s.verCounter
  nodup : (s.pending.map (·.ver) ++ histVers s.hist).Nodup
  hist : ∀ r a, Event.publish r a ∈ s.hist →
    SingleEvent pathOf s.cfg r a ∧ v0 < r.ver ∧ r.ver ≤ s.verCounter
  waiting : ∀ w ∈ s.waiting, w.ver ≤ s.verCounter
  acked : ∀ v ∈ s.acked, v ≤ s.verCounter ∧ (∀ r ∈ s.pending, r.ver ≠ v) ∧
    ∀ w ∈ s.waiting, w.ver ≠ v

variable {pathOf v0}

theorem cachePutReqs_single {cfg : Config} {a : PutArgs} {ver : Nat} {shape : Shape}
    (hg : a.groupIdx < maxGroups) (hl : a.lens.length ≤ cfg.maxLayers) (hhot : a.hot = false)
    (hsum : a.lens.sum ≤ cfg.stripeThreshold % 2 ^ 32) :
    (cachePutReqs cfg a ver shape).getD [] = [plainReq cfg a ver shape Flags.empty 0] := by
  unfold cachePutReqs
  rw [if_neg (by omega), if_neg (by omega)]
  simp [hhot]

theorem mem_histVers {hist : List Event} {v : Nat} :
    v ∈ histVers hist ↔ ∃ r a, Event.publish r a ∈ hist ∧ r.ver = v := by
  unfold histVers
  rw [mem_filterMap]
  constructor
  · rintro ⟨e, he, hv⟩
    cases e with
    | publish r a => exact ⟨r, a, he, by simpa using hv⟩
    | drop p g => simp at hv
  · rintro ⟨r, a, he, hv⟩
    exact ⟨_, he, by simpa using hv⟩

theorem Books.publish_unique {s : Store} (h : Books pathOf v0 s) {r r' : PutReq}
    {a a' : PublishArgs} (hm : Event.publish r a ∈ s.hist) (hm' : Event.publish r' a' ∈ s.hist)
    (hv : r.ver = r'.ver) : r = r' ∧ a = a' := by
  have hnd : (histVers s.hist).Nodup := (nodup_append.mp h.nodup).2.1
  generalize s.hist = hist at hm hm' hnd
  induction hist with
  | nil => simp at hm
  | cons e hist ih =>
    have htail : (histVers hist).Nodup := by
      cases e with
      | publish r0 a0 => exact (nodup_cons.mp hnd).2
      | drop p g => exact hnd
    -- a version at the head does not occur in the tail
    have hhead : ∀ r0 a0, e = .publish r0 a0 → ∀ r1 a1, Event.publish r1 a1 ∈ hist →
        r1.ver ≠ r0.ver := by
      intro r0 a0 he r1 a1 h1 hv1
      subst he
      exact (nodup_cons.mp hnd).1 (mem_histVers.mpr ⟨r1, a1, h1, hv1⟩)
    rcases mem_cons.mp hm with he | hm1
    · rcases mem_cons.mp hm' with he' | hm1'
      · rw [← he'] at he
        cases he
        exact ⟨rfl, rfl⟩
      · exact absurd hv.symm (hhead r a he.symm r' a' hm1')
    · rcases mem_cons.mp hm' with he' | hm1'
      · exact absurd hv (hhead r' a' he'.symm r a hm1)
      · exact ih hm1 hm1' htail

theorem Books.pending_fresh {s : Store} (h : Books pathOf v0 s) {r : PutReq}
    (hr : r ∈ s.pending) {r' : PutReq} {a' : PublishArgs}
    (hm : Event.publish r' a' ∈ s.hist) : r'.ver ≠ r.ver := by
  intro he
  have := (nodup_append.mp h.nodup).2.2 r.ver (mem_map_of_mem hr) r'.ver
    (mem_histVers.mpr ⟨r', a', hm, rfl⟩)
  exact this he.symm

theorem SingleReq.event {cfg : Config} {r : PutReq} (h : SingleReq pathOf cfg r)
    (hok : ReqOk cfg r) (page crc now : Nat) :
    SingleEvent pathOf cfg r (r.args page crc now) where
  args := ⟨h.flags, h.slot, rfl, hok.lens⟩
  path := h.path
  key := ⟨rfl, rfl⟩
  ver := rfl
  dev := h.dev
  lens := rfl

theorem map_ver_eraseIdx_perm {reqs : List PutReq} {i : Nat} {r : PutReq} (h : reqs[i]? = some r) :
    (reqs.map (·.ver)).Perm (r.ver :: (reqs.eraseIdx i).map (·.ver)) := by
  obtain ⟨hi, he⟩ := List.getElem?_eq_some_iff.mp h
  have hp := (getElem_cons_eraseIdx_perm hi).symm.map (·.ver)
  rwa [he] at hp

theorem Books.acks {s : Store} (h : Books pathOf v0 s) : AckBooks s :=
  ⟨fun r hr => (h.reqs r hr).2.2, h.waiting, h.acked⟩

theorem Books.step {s s' : Store} {l : Label} (hok : StoreOk s) (h : Books pathOf v0 s)
    (hl : SinglePut pathOf s l) (hver : s'.verCounter < 2 ^ 32) (hstep : s.step l = some s') :
    Books pathOf v0 s' := by
  have hacks := h.acks.step (.inr hver) hstep
  cases step_cases hstep with
  | putRejected a => exact h
  | put a reqs hlen hg hlens hreqs =>
    obtain ⟨hpath, hhot, hsum, _⟩ := hl
    rw [cachePutReqs_single hg hlens hhot hsum] at hreqs
    have hver : s.verCounter + 1 < 2 ^ 32 := hver
    rw [Nat.mod_eq_of_lt hver] at hreqs
    subst hreqs
    have hold : ∀ v ∈ s.pending.map (·.ver) ++ histVers s.hist, v ≤ s.verCounter := by
      intro v hv
      rcases mem_append.mp hv with hv | hv
      · obtain ⟨r, hr, rfl⟩ := mem_map.mp hv
        exact (h.reqs r hr).2.2
      · obtain ⟨r, a', hm, rfl⟩ := mem_histVers.mp hv
        exact (h.hist r a' hm).2.2
    refine ⟨Nat.le_succ_of_le h.issued, ?_, ?_, ?_, hacks.waiting, hacks.acked⟩
    · intro r hr
      rcases mem_append.mp hr with hr | hr
      · obtain ⟨h1, h2, h3⟩ := h.reqs r hr
        exact ⟨h1, h2, Nat.le_succ_of_le h3⟩
      · rw [mem_singleton.mp hr]
        refine ⟨⟨hpath, rfl, rfl, ?_⟩, Nat.lt_succ_of_le h.issued, Nat.le_refl _⟩
        simp [plainReq, afterPut, Nat.mod_eq_of_lt (baseDev_lt hok.cfg.devs a.prefixId)]
    · -- the new version is above all others
      have hperm : ((s.pending ++ [plainReq s.cfg a (s.verCounter + 1)
            (shapePoolIntern s.idx.shapes a.lens).2 Flags.empty 0]).map (·.ver) ++
            histVers s.hist).Perm
          ((s.verCounter + 1) :: (s.pending.map (·.ver) ++ histVers s.hist)) := by
        simp only [map_append, map_cons, map_nil, List.append_assoc]
        exact perm_middle
      refine hperm.nodup_iff.mpr (nodup_cons.mpr ⟨?_, h.nodup⟩)
      intro hm
      have := hold _ hm
      omega
    · intro r a' hm
      obtain ⟨h1, h2, h3⟩ := h.hist r a' hm
      exact ⟨h1, h2, Nat.le_succ_of_le h3⟩
  | publish i page crc now r hidle hr hacc =>
    have hmem := mem_of_getElem? hr
    obtain ⟨hreq, hv0, hvc⟩ := h.reqs r hmem
    refine ⟨h.issued, ?_, ?_, ?_, hacks.waiting, hacks.acked⟩
    · intro r' hr'
      exact h.reqs r' (mem_of_mem_eraseIdx hr')
    · have hperm : (((s.pending.eraseIdx i).map (·.ver)) ++ r.ver :: histVers s.hist).Perm
          (s.pending.map (·.ver) ++ histVers s.hist) :=
        perm_middle.trans
          (((map_ver_eraseIdx_perm hr).symm).append_right (histVers s.hist))
      exact hperm.nodup_iff.mpr h.nodup
    intro r' a' hm
    rcases mem_cons.mp hm with he | hm
    · cases he
      exact ⟨hreq.event (hok.reqs r hmem) page crc now, hv0, hvc⟩
    · exact h.hist r' a' hm
  | publishRejected i page crc now r hidle hr hrej =>
    refine ⟨h.issued, fun r' hr' => h.reqs r' (mem_of_mem_eraseIdx hr'), ?_, h.hist,
      hacks.waiting, hacks.acked⟩
    exact h.nodup.sublist (((eraseIdx_sublist s.pending i).map _).append_right _)
  | flush d hd hfree => exact ⟨h.issued, h.reqs, h.nodup, h.hist, hacks.waiting, hacks.acked⟩
  | ack v hpend hsome hall =>
    exact ⟨h.issued, h.reqs, h.nodup, h.hist, hacks.waiting, hacks.acked⟩
  | drop node lf =>
    refine ⟨h.issued, h.reqs, h.nodup, ?_, h.waiting, h.acked⟩
    intro r a hm
    rcases mem_cons.mp hm with he | hm
    · cases he
    · exact h.hist r a hm
  | trim | ckpt | resetPage | resetDone =>
    exact ⟨h.issued, h.reqs, h.nodup, h.hist, h.waiting, h.acked⟩

/-! ## Where leaves and records come from -/

variable (pathOf v0)

/-- A view from before the run, or of a publish of the run. -/
def Backed (hist : List Event) (u : LeafView) : Prop :=
  u.ver ≤ v0 ∨ ∃ r a, Event.publish r a ∈ hist ∧ u = putView a

/-- Leaves and PUT records are of publishes, or older than the run. -/
structure Backing (s : Store) : Prop where
  paths : OwnPaths pathOf s.idx
  leaf : ∀ q lf, s.idx.tree.leafAt q = some lf → Backed v0 s.hist (leafView lf)
  del : ∀ q lf, s.idx.tree.leafAt q = some lf →
    lf.ver ≤ v0 ∨ lf.delJournal = baseDev s.cfg.nDevs lf.prefixId
  recs : ∀ d, ∀ x ∈ (s.jours d).recs, x.op = .put → d = baseDev s.cfg.nDevs x.prefixId ∧
    ∃ r a j, Event.publish r a ∈ s.hist ∧ x = { journalPutRec a with devId := j }

variable {pathOf v0}

theorem Backed.mono {hist hist' : List Event} {u : LeafView} (h : Backed v0 hist u)
    (hs : ∀ e ∈ hist, e ∈ hist') : Backed v0 hist' u := by
  rcases h with h | ⟨r, a, hm, he⟩
  · exact Or.inl h
  · exact Or.inr ⟨r, a, hs _ hm, he⟩

section Publish

variable {s : Store} {i : Nat} {r : PutReq} {page crc now : Nat}

theorem resolvedNode_eq (hb : Backing pathOf v0 s) (hreq : SingleReq pathOf s.cfg r) :
    resolvedNode s r = pathOf r.prefixId r.groupIdx := by
  unfold resolvedNode
  rw [hreq.path]
  exact (hb.paths.resolveNode).2

theorem leafPublish_single (hbk : Books pathOf v0 s) (hb : Backing pathOf v0 s)
    (hr : s.pending[i]? = some r)
    (hacc : (leafPublish (s.idx.tree.leafAt (resolvedNode s r)) (r.args page crc now)).accepted
      = true) :
    (leafPublish (s.idx.tree.leafAt (resolvedNode s r)) (r.args page crc now)).leaf =
        some (newPlainLeaf (r.args page crc now)) ∧
      ∀ lf, s.idx.tree.leafAt (resolvedNode s r) = some lf → lf.ver < r.ver := by
  have hmem := mem_of_getElem? hr
  obtain ⟨hreq, hv0, _⟩ := hbk.reqs r hmem
  have hfl : (r.args page crc now).flags.stripe = false := by
    simp [PutReq.args, hreq.flags, Flags.empty]
  have hc := leafPublish_cases (s.idx.tree.leafAt (resolvedNode s r)) (r.args page crc now)
  generalize leafPublish (s.idx.tree.leafAt (resolvedNode s r)) (r.args page crc now) = res
    at hc hacc ⊢
  cases hc with
  | rejected => cases hacc
  | newStripe hs | addPart _ _ hs => rw [hfl] at hs; cases hs
  | newPlain _ hwhy => exact ⟨rfl, fun lf hlf => hwhy lf hlf⟩
  | addReplica lf _ hold hver =>
    have hver : lf.ver = r.ver := hver
    rcases hb.leaf _ lf hold with h | ⟨r', a', hm, he⟩
    · have h : lf.ver ≤ v0 := h
      omega
    · have hv : lf.ver = a'.ver := congrArg LeafView.ver he
      have hev := (hbk.hist r' a' hm).1.ver
      exact absurd (by omega) (hbk.pending_fresh hmem hm)

theorem leafAt_afterPublish (hok : StoreOk s) (hbk : Books pathOf v0 s) (hb : Backing pathOf v0 s)
    (hr : s.pending[i]? = some r)
    (hacc : (leafPublish (s.idx.tree.leafAt (resolvedNode s r)) (r.args page crc now)).accepted
      = true) (q : Path) :
    (afterPublish s i r (r.args page crc now)).idx.tree.leafAt q =
      if q = pathOf r.prefixId r.groupIdx then some (newPlainLeaf (r.args page crc now))
      else s.idx.tree.leafAt q := by
  have hmem := mem_of_getElem? hr
  have hleaf := (leafPublish_single hbk hb hr hacc).1
  have heq := resolvedNode_eq hb (hbk.reqs r hmem).1
  simp only [afterPublish]
  rw [leafAt_published hok.side (hok.reqs r hmem).path, hleaf, heq]

theorem delJournal_newPlainLeaf (hok : StoreOk s) (hreq : SingleReq pathOf s.cfg r) :
    (newPlainLeaf (r.args page crc now)).delJournal = baseDev s.cfg.nDevs r.prefixId := by
  have hlt := baseDev_lt hok.cfg.devs r.prefixId
  have hint := hok.cfg.devsInt
  have hne : baseDev s.cfg.nDevs r.prefixId ≠ invalidDev := by
    unfold invalidDev
    omega
  simp [newPlainLeaf, PutReq.args, hreq.slot, replicaCnt, RadixLeaf.setAddr, RadixLeaf.delJournal,
    hreq.dev, hne]

end Publish

theorem Backing.node_eq {s : Store} (hok : StoreOk s) (hb : Backing pathOf v0 s) {node : Path}
    {lf : RadixLeaf} (hl : s.idx.tree.leafAt node = some lf) :
    node = pathOf lf.prefixId (groupOf node) :=
  hb.paths _ _ _ (hok.side.leaf node lf hl)

theorem Backing.congr {s s' : Store} (h : Backing pathOf v0 s) (hcfg : s'.cfg = s.cfg)
    (hhist : s'.hist = s.hist) (hpaths : OwnPaths pathOf s'.idx)
    (hleaf : ∀ q, s'.idx.tree.leafAt q = s.idx.tree.leafAt q)
    (hrecs : ∀ d, ∀ x ∈ (s'.jours d).recs, x.op = .put → x ∈ (s.jours d).recs) :
    Backing pathOf v0 s' where
  paths := hpaths
  leaf q lf hl := by
    rw [hhist]
    exact h.leaf q lf (hleaf q ▸ hl)
  del q lf hl := by
    rw [hcfg]
    exact h.del q lf (hleaf q ▸ hl)
  recs d x hx hop := by
    rw [hcfg, hhist]
    exact h.recs d x (hrecs d x hx hop) hop

theorem mem_recs_append {s : Store} {d : Nat} (hj : JourOk (s.jours d)) {r : JournalRec}
    (hr : jrecTotal r ≤ pageSize) {d' : Nat} {x : JournalRec}
    (hx : x ∈ ((s.append d r).jours d').recs) :
    x ∈ (s.jours d').recs ∨ (d' = d ∧ x = { r with devId := (s.jours d).devId }) := by
  simp only [Store.append] at hx
  by_cases he : d' = d
  · subst he
    rw [update_self] at hx
    rcases (journalAppend_spec hj hr).outcome with ⟨_, hrecs⟩ | ⟨_, hrecs⟩
    · rw [hrecs, mem_append, mem_singleton] at hx
      exact hx.imp id fun h => ⟨rfl, h⟩
    · rw [hrecs] at hx
      exact Or.inl hx
  · rw [update_of_ne he] at hx
    exact Or.inl hx

theorem Backing.step {s s' : Store} {l : Label} (hok : StoreOk s)
    (hbk : Books pathOf v0 s) (h : Backing pathOf v0 s) (hstep : s.step l = some s') :
    Backing pathOf v0 s' := by
  cases step_cases hstep with
  | putRejected a => exact h
  | put a reqs | ack | ckpt => exact h.congr rfl rfl h.paths (fun _ => rfl) (fun _ _ hx _ => hx)
  | publish i page crc now r hidle hr hacc =>
    have hmem := mem_of_getElem? hr
    obtain ⟨hreq, hv0, _⟩ := hbk.reqs r hmem
    have hev := hreq.event (hok.reqs r hmem) page crc now
    have hleaf := leafAt_afterPublish hok hbk h hr hacc
    have hdel : (newPlainLeaf (r.args page crc now)).delJournal = baseDev s.cfg.nDevs r.prefixId :=
      delJournal_newPlainLeaf hok hreq
    have hj := hok.jours.ok r.dev (NotCleared.of_idle hidle _)
    have hold : ∀ e ∈ s.hist, e ∈ Event.publish r (r.args page crc now) :: s.hist :=
      fun e he => mem_cons_of_mem _ he
    refine ⟨?_, ?_, ?_, ?_⟩
    · intro p g q hq
      have hres := (h.paths.resolveNode (p := r.prefixId) (g := r.groupIdx)).1
      rw [← hreq.path] at hres
      exact hres p g q hq
    · intro q lf hl
      have hl : (afterPublish s i r (r.args page crc now)).idx.tree.leafAt q = some lf := hl
      rw [hleaf q] at hl
      split at hl
      · cases hl
        exact Or.inr ⟨r, _, mem_cons_self, leafView_newPlainLeaf hev.args.slot⟩
      · exact (h.leaf q lf hl).mono hold
    · intro q lf hl
      have hl : (afterPublish s i r (r.args page crc now)).idx.tree.leafAt q = some lf := hl
      rw [hleaf q] at hl
      split at hl
      · cases hl
        right
        rw [prefixId_newPlainLeaf]
        exact hdel
      · exact h.del q lf hl
    intro d x hx hop
    rcases mem_recs_append (s := afterPublish s i r (r.args page crc now)) hj
      (jrecTotal_journalPutRec_le (hok.reqs r hmem) page crc now) hx with hx | ⟨hd, hx⟩
    · obtain ⟨h1, r', a', j, hm, he⟩ := h.recs d x hx hop
      exact ⟨h1, r', a', j, hold _ hm, he⟩
    subst hx
    refine ⟨?_, r, _, _, mem_cons_self, rfl⟩
    rw [hd]
    exact hreq.dev
  | publishRejected i page crc now r hidle hr hrej =>
    obtain ⟨hreq, _, _⟩ := hbk.reqs r (mem_of_getElem? hr)
    refine h.congr rfl rfl ?_ (leafAt_afterPublish_of_rejected hok hr hrej) (fun _ _ hx _ => hx)
    intro p g q hq
    have hres := (h.paths.resolveNode (p := r.prefixId) (g := r.groupIdx)).1
    rw [← hreq.path] at hres
    exact hres p g q hq
  | flush d hd hfree =>
    refine h.congr rfl rfl h.paths (fun _ => rfl) ?_
    intro d' x hx _
    rwa [(jours_flush_go s d d').1] at hx
  | drop node lf hidle hleaf hpin hdev =>
    have hj := hok.jours.ok lf.delJournal (NotCleared.of_idle hidle _)
    have hold : ∀ e ∈ s.hist, e ∈ Event.drop lf.prefixId (groupOf node) :: s.hist :=
      fun e he => mem_cons_of_mem _ he
    have hsub : ∀ q lf', (s.idx.drop node).tree.leafAt q = some lf' →
        s.idx.tree.leafAt q = some lf' := by
      intro q lf' hl
      rw [leafAt_drop] at hl
      split at hl
      · cases hl
      · exact hl
    refine ⟨?_, ?_, ?_, ?_⟩
    · intro p g q hq
      exact h.paths p g q (by simpa [Store.append, afterDrop] using hq)
    · intro q lf' hl
      exact (h.leaf q lf' (hsub q lf' hl)).mono hold
    · intro q lf' hl
      exact h.del q lf' (hsub q lf' hl)
    intro d x hx hop
    rcases mem_recs_append (s := afterDrop s node lf) hj (jrecTotal_journalDelRec_le _ _) hx
      with hx | ⟨_, rfl⟩
    · obtain ⟨h1, r', a', j, hm, he⟩ := h.recs d x hx hop
      exact ⟨h1, r', a', j, hold _ hm, he⟩
    · cases hop
  | trim d regionIdx epoch hd hfree =>
    refine h.congr rfl rfl h.paths (fun _ => rfl) ?_
    intro d' x hx hop
    rcases mem_recs_append (hok.jours.ok d hfree) (jrecTotal_journalTrimRec_le _ _) hx
      with hx | ⟨_, rfl⟩
    · exact hx
    · cases hop
  | resetPage d p =>
    refine h.congr rfl rfl h.paths (fun _ => rfl) ?_
    intro d' x hx _
    by_cases he : d' = d
    · subst he
      exact mem_recs_journalResetPage (by simpa using hx)
    · simpa [update_of_ne he] using hx
  | resetDone d p =>
    refine h.congr rfl rfl h.paths (fun _ => rfl) ?_
    intro d' x hx _
    by_cases he : d' = d
    · subst he
      simp [recs_journalResetDone] at hx
    · simpa [update_of_ne he] using hx

end SingleRuns

end KvTier.Analysis
