import KvTier.Lib.Runs
import KvTier.Model.Store
import KvTier.Analysis.ReplayFacts

/-!
# Steps of the store

`StepCase` lists what each label can do to the store, guards included; every invariant below is a
case analysis over it.
-/

namespace KvTier.Analysis

open Function KvTier.Lib KvTier.Model List

/-! ## What a step can do -/

section Cases

variable (s : Store)

/-- The index a request is published to, with its node. -/
def resolvedIdx (r : PutReq) : Index := (resolveNode s.idx r.prefixId r.groupIdx r.path).1

/-- The node a request is published to. -/
def resolvedNode (r : PutReq) : Path := (resolveNode s.idx r.prefixId r.groupIdx r.path).2

/-- The store after a put with these requests. -/
def afterPut (a : PutArgs) (reqs : List PutReq) : Store :=
  { s with
    idx := { s.idx with shapes := (shapePoolIntern s.idx.shapes a.lens).1 }
    verCounter := s.verCounter + 1
    pending := s.pending ++ reqs }

def afterPublish (i : Nat) (r : PutReq) (a : PublishArgs) : Store :=
  { s with
    idx := (resolvedIdx s r).publish (resolvedNode s r) a
    pending := s.pending.eraseIdx i
    waiting := s.waiting ++ [⟨r.ver, r.dev, false⟩] }

def afterDrop (node : Path) (lf : RadixLeaf) : Store :=
  { s with
    idx := s.idx.drop node
    hist := .drop lf.prefixId (groupOf node) :: s.hist }

/-- A journal that is not being cleared. -/
def NotCleared (d : Nat) : Prop := ∀ p, s.phase ≠ .resetting d p

/-- The steps of the store. -/
inductive StepCase : Label → Store → Prop
  | putRejected (a : PutArgs) : StepCase (.put a) s
  | put (a : PutArgs) (reqs : List PutReq) (hlen : a.path.length = a.groupIdx + 1)
      (hg : a.groupIdx < maxGroups) (hl : a.lens.length ≤ s.cfg.maxLayers)
      (hreqs : reqs = (cachePutReqs s.cfg a ((s.verCounter + 1) % 2 ^ 32)
        (shapePoolIntern s.idx.shapes a.lens).2).getD []) :
      StepCase (.put a) (afterPut s a reqs)
  | publish (i page crc now : Nat) (r : PutReq) (hidle : s.phase = .idle)
      (hr : s.pending[i]? = some r)
      (hacc : (leafPublish (s.idx.tree.leafAt (resolvedNode s r)) (r.args page crc now)).accepted
        = true) :
      StepCase (.publish i page crc now)
        { (afterPublish s i r (r.args page crc now)).append r.dev
            (journalPutRec (r.args page crc now)) with
          hist := .publish r (r.args page crc now) :: s.hist }
  | publishRejected (i page crc now : Nat) (r : PutReq) (hidle : s.phase = .idle)
      (hr : s.pending[i]? = some r)
      (hrej : (leafPublish (s.idx.tree.leafAt (resolvedNode s r)) (r.args page crc now)).accepted
        = false) :
      StepCase (.publish i page crc now) (afterPublish s i r (r.args page crc now))
  | flush (d : Nat) (hd : d < s.cfg.nDevs) (hfree : NotCleared s d) :
      StepCase (.flush d) (Store.flush.go d s)
  | ack (v : Nat) (hpend : ∀ r ∈ s.pending, r.ver ≠ v) (hsome : ∃ w ∈ s.waiting, w.ver = v)
      (hall : ∀ w ∈ s.waiting, w.ver = v → w.flushed = true) :
      StepCase (.ack v)
        { s with waiting := s.waiting.filter (·.ver != v), acked := v :: s.acked }
  | drop (node : Path) (lf : RadixLeaf) (hidle : s.phase = .idle)
      (hleaf : s.idx.tree.leafAt node = some lf) (hpin : lf.refcnt = 0)
      (hdev : lf.delJournal < s.cfg.nDevs) :
      StepCase (.drop node)
        ((afterDrop s node lf).append lf.delJournal
          (journalDelRec lf.prefixId (groupOf node)))
  | trim (d regionIdx epoch : Nat) (hd : d < s.cfg.nDevs) (hfree : NotCleared s d) :
      StepCase (.trim d regionIdx epoch) (s.append d (journalTrimRec regionIdx epoch))
  | ckpt (hidle : s.phase = .idle) :
      StepCase .ckpt { s with
        ckpt := some (ckptWrite s.idx s.verCounter s.cfg.nDevs s.cfg.regionCnt
          s.cfg.regionSizePages)
        phase := .resetting 0 0 }
  | resetPage (d p : Nat) (hphase : s.phase = .resetting d p) (hp : p < s.cfg.journalPages) :
      StepCase .reset { s with
        jours := update s.jours d (journalResetPage (s.jours d) p)
        phase := .resetting d (p + 1) }
  | resetDone (d p : Nat) (hphase : s.phase = .resetting d p) (hp : s.cfg.journalPages ≤ p) :
      StepCase .reset { s with
        jours := update s.jours d (journalResetDone (s.jours d))
        phase := if d + 1 < s.cfg.nDevs then .resetting (d + 1) 0 else .idle }

end Cases

/-- Every step is one of the cases. -/
theorem step_cases {s s' : Store} {l : Label} (h : s.step l = some s') : StepCase s l s' := by
  cases l with
  | put a =>
    simp only [Store.step, Store.put] at h
    split at h
    · cases h
    rename_i hlen
    split at h
    · cases h
      exact .putRejected a
    rename_i hadm
    have hg : a.groupIdx < maxGroups := by omega
    have hl : a.lens.length ≤ s.cfg.maxLayers := by omega
    have hreqs := StepCase.put (s := s) a _ (by simpa using hlen) hg hl rfl
    revert hreqs
    cases hc : cachePutReqs s.cfg a ((s.verCounter + 1) % 2 ^ 32)
        (shapePoolIntern s.idx.shapes a.lens).2 with
    | none =>
      simp only [hc, Option.some.injEq] at h
      subst h
      intro hreqs
      simpa [afterPut] using hreqs
    | some reqs =>
      simp only [hc, Option.some.injEq] at h
      subst h
      intro hreqs
      exact hreqs
  | publish i page crc now =>
    simp only [Store.step, Store.publish] at h
    split at h
    · cases h
    rename_i hidle
    have hidle : s.phase = .idle := by simpa using hidle
    cases hr : s.pending[i]? with
    | none => simp [hr] at h
    | some r =>
      simp only [hr, leafAt_resolveNode] at h
      split at h
      · rename_i hacc
        cases h
        exact .publish i page crc now r hidle hr hacc
      · rename_i hrej
        cases h
        exact .publishRejected i page crc now r hidle hr (Bool.eq_false_iff.mpr hrej)
  | flush d =>
    simp only [Store.step] at h
    split at h
    · rename_i hd
      unfold Store.flush at h
      split at h
      · rename_i d' p hphase
        split at h
        · cases h
        rename_i hne
        cases h
        refine .flush d hd fun p' hp' => ?_
        rw [hphase] at hp'
        cases hp'
        exact hne rfl
      rename_i hphase
      cases h
      refine .flush d hd fun p' hp' => ?_
      rw [hphase] at hp'
      cases hp'
    · cases h
  | ack v =>
    simp only [Store.step, Store.ack] at h
    split at h
    · cases h
    rename_i hc
    cases h
    simp only [any_eq_true, beq_iff_eq, Bool.and_eq_true, Bool.not_eq_true',
      not_or, not_exists, not_and] at hc
    obtain ⟨hpend, hsome, hall⟩ := hc
    exact .ack v hpend (by simpa using hsome) fun w hw hv => by simpa using hall w hw hv
  | drop node =>
    simp only [Store.step, Store.drop] at h
    split at h
    · cases h
    rename_i hidle
    have hidle : s.phase = .idle := by simpa using hidle
    cases hl : s.idx.tree.leafAt node with
    | none => simp [hl] at h
    | some lf =>
      simp only [hl] at h
      split at h
      · cases h
      rename_i hc
      cases h
      simp only [not_or, not_le, ne_eq, not_not] at hc
      exact .drop node lf hidle hl hc.1 hc.2
  | trim d regionIdx epoch =>
    simp only [Store.step] at h
    split at h
    · rename_i hd
      unfold Store.trim at h
      split at h
      · rename_i d' p hphase
        split at h
        · cases h
        rename_i hne
        cases h
        refine .trim d regionIdx epoch hd fun p' hp' => ?_
        rw [hphase] at hp'
        cases hp'
        exact hne rfl
      rename_i hphase
      cases h
      refine .trim d regionIdx epoch hd fun p' hp' => ?_
      rw [hphase] at hp'
      cases hp'
    · cases h
  | ckpt =>
    simp only [Store.step, Store.writeCkpt] at h
    split at h
    · cases h
    · rename_i hidle
      cases h
      exact .ckpt (by simpa using hidle)
  | reset =>
    simp only [Store.step, Store.reset] at h
    split at h
    · cases h
    rename_i d p hphase
    split at h
    · rename_i hp
      cases h
      exact .resetPage d p hphase hp
    · rename_i hp
      cases h
      exact .resetDone d p hphase (by omega)

/-! ## Requests and their records -/

/-- A request as `cache_put_impl` makes it. -/
structure ReqOk (cfg : Config) (r : PutReq) : Prop where
  path : r.path.length = r.groupIdx + 1
  group : r.groupIdx < maxGroups
  dev : r.dev < cfg.nDevs
  lens : r.shape.lens.length ≤ maxLayersCap

theorem mem_cachePutReqs {cfg : Config} {a : PutArgs} {ver : Nat} {shape : Shape} {r : PutReq}
    (hr : r ∈ (cachePutReqs cfg a ver shape).getD []) :
    (r.prefixId = a.prefixId ∧ r.groupIdx = a.groupIdx) ∧ r.path = a.path ∧ r.ver = ver ∧
      r.shape = shape ∧ r.expireTs = a.expireTs ∧
      (0 < cfg.nDevs → r.dev < cfg.nDevs) := by
  unfold cachePutReqs at hr
  split at hr
  · simp at hr
  split at hr
  · simp only at hr
    split at hr
    · simp at hr
    split at hr
    · simp at hr
    · simp only [Option.getD_some, mem_map] at hr
      obtain ⟨part, _, rfl⟩ := hr
      exact ⟨⟨rfl, rfl⟩, rfl, rfl, rfl, rfl, fun h => Nat.mod_lt _ h⟩
  split at hr
  · simp only [Option.getD_some, mem_map] at hr
    obtain ⟨slot, _, rfl⟩ := hr
    exact ⟨⟨rfl, rfl⟩, rfl, rfl, rfl, rfl, fun h => Nat.mod_lt _ h⟩
  · simp only [Option.getD_some, mem_singleton] at hr
    subst hr
    exact ⟨⟨rfl, rfl⟩, rfl, rfl, rfl, rfl, fun h => Nat.mod_lt _ h⟩

theorem jrecNLens_journalPutRec_le (a : PublishArgs) :
    jrecNLens (journalPutRec a) ≤ ((a.shape.map (·.lens)).getD []).length := by
  unfold jrecNLens
  split
  · omega
  rename_i h
  have hn : (journalPutRec a).nRecs = ((a.shape.map (·.lens)).getD []).length := rfl
  split
  · omega
  · omega

theorem jrecTotal_journalPutRec_le {cfg : Config} {r : PutReq} (h : ReqOk cfg r)
    (page crc now : Nat) : jrecTotal (journalPutRec (r.args page crc now)) ≤ pageSize := by
  have hn := jrecNLens_journalPutRec_le (r.args page crc now)
  have hlens : (((r.args page crc now).shape.map (·.lens)).getD []).length ≤ 256 := h.lens
  have hpath : (journalPutRec (r.args page crc now)).path.length = r.groupIdx + 1 := h.path
  have hg : r.groupIdx < 256 := h.group
  unfold jrecTotal pageSize
  rw [hpath]
  split <;> omega

theorem jrecTotal_journalDelRec_le (p : UInt64) (g : Nat) :
    jrecTotal (journalDelRec p g) ≤ pageSize := by
  simp [jrecTotal, jrecNLens, journalDelRec, pageSize]

theorem jrecTotal_journalTrimRec_le (regionIdx epoch : Nat) :
    jrecTotal (journalTrimRec regionIdx epoch) ≤ pageSize := by
  simp [jrecTotal, jrecNLens, journalTrimRec, journalDelRec, pageSize]

/-! ## The base invariant -/

/-- Journals are in order, but for the one a reset is at. -/
structure JoursOk (s : Store) : Prop where
  ok : ∀ d, NotCleared s d → JourOk (s.jours d)
  wiping : ∀ d p, s.phase = .resetting d p → Wiping (s.jours d) p
  whole : ∀ d, s.phase = .resetting d 0 → JourOk (s.jours d)

theorem NotCleared.of_idle {s : Store} (h : s.phase = .idle) (d : Nat) : NotCleared s d := by
  intro p hp
  rw [h] at hp
  cases hp

/-- A flush changes where the records of a journal are, not which ones it has. -/
theorem jours_flush_go (s : Store) (d d' : Nat) :
    ((Store.flush.go d s).jours d').recs = (s.jours d').recs ∧
      ((Store.flush.go d s).jours d').journalPages = (s.jours d').journalPages ∧
      ((Store.flush.go d s).jours d').dropped = (s.jours d').dropped := by
  by_cases he : d' = d
  · subst he; simp [Store.flush.go]
  · simp [Store.flush.go, update_of_ne he]

theorem JoursOk.update {s s' : Store} (h : JoursOk s) (hphase : s'.phase = s.phase) {d : Nat}
    {j : Journal} (hj : s'.jours = update s.jours d j) (hfree : NotCleared s d)
    (hok : JourOk j) : JoursOk s' where
  ok d' hd' := by
    rw [hj]
    by_cases he : d' = d
    · subst he; simpa using hok
    · rw [update_of_ne he]
      exact h.ok d' (by intro p; rw [← hphase]; exact hd' p)
  wiping d' p hp := by
    rw [hphase] at hp
    have he : d' ≠ d := fun he => hfree p (he ▸ hp)
    rw [hj, update_of_ne he]
    exact h.wiping d' p hp
  whole d' hp := by
    rw [hphase] at hp
    have he : d' ≠ d := fun he => hfree 0 (he ▸ hp)
    rw [hj, update_of_ne he]
    exact h.whole d' hp

theorem JoursOk.congr {s s' : Store} (h : JoursOk s) (hphase : s'.phase = s.phase)
    (hj : s'.jours = s.jours) : JoursOk s' where
  ok d hd := by rw [hj]; exact h.ok d (by intro p; rw [← hphase]; exact hd p)
  wiping d p hp := by rw [hj]; exact h.wiping d p (hphase ▸ hp)
  whole d hp := by rw [hj]; exact h.whole d (hphase ▸ hp)

/-- The limits of a configuration. -/
structure ConfigOk (cfg : Config) : Prop where
  devs : 0 < cfg.nDevs
  devsInt : cfg.nDevs < 2 ^ 31
  layers : cfg.maxLayers ≤ maxLayersCap

/-- What holds in every run. -/
structure StoreOk (s : Store) : Prop where
  cfg : ConfigOk s.cfg
  side : SideOk s.idx
  reqs : ∀ r ∈ s.pending, ReqOk s.cfg r
  jours : JoursOk s
  pages : ∀ d, (s.jours d).journalPages = s.cfg.journalPages
  recs : ∀ d, ∀ r ∈ (s.jours d).recs, PathOk r
  clearing : ∀ d p, s.phase = .resetting d p → d < s.cfg.nDevs

theorem StoreOk.append {s : Store} (h : StoreOk s) {d : Nat} (hfree : NotCleared s d)
    {r : JournalRec} (hr : jrecTotal r ≤ pageSize) (hpath : PathOk r) : StoreOk (s.append d r) where
  cfg := h.cfg
  side := h.side
  reqs := h.reqs
  jours := h.jours.update rfl rfl hfree (journalAppend_spec (h.jours.ok d hfree) hr).ok
  pages d' := by
    simp only [Store.append]
    by_cases he : d' = d
    · subst he
      rw [update_self, (journalAppend_spec (h.jours.ok d' hfree) hr).journalPages]
      exact h.pages d'
    · rw [update_of_ne he]
      exact h.pages d'
  recs d' r' hr' := by
    simp only [Store.append] at hr'
    by_cases he : d' = d
    · subst he
      rw [update_self] at hr'
      rcases (journalAppend_spec (h.jours.ok d' hfree) hr).outcome with ⟨_, hrecs⟩ | ⟨_, hrecs⟩
      · rw [hrecs, mem_append, mem_singleton] at hr'
        rcases hr' with hr' | rfl
        · exact h.recs d' r' hr'
        · exact hpath
      · rw [hrecs] at hr'
        exact h.recs d' r' hr'
    · rw [update_of_ne he] at hr'
      exact h.recs d' r' hr'
  clearing := h.clearing

theorem StoreOk.congr {s s' : Store} (h : StoreOk s) (hcfg : s'.cfg = s.cfg)
    (hside : SideOk s'.idx) (hreqs : ∀ r ∈ s'.pending, ReqOk s.cfg r)
    (hj : s'.jours = s.jours) (hphase : s'.phase = s.phase) : StoreOk s' where
  cfg := by rw [hcfg]; exact h.cfg
  side := hside
  reqs := by rw [hcfg]; exact hreqs
  jours := h.jours.congr hphase hj
  pages d := by rw [hj, hcfg]; exact h.pages d
  recs d := by rw [hj]; exact h.recs d
  clearing d p hp := by rw [hcfg]; exact h.clearing d p (hphase ▸ hp)

section Step

variable {s : Store}

theorem mem_recs_journalResetPage {j : Journal} {p : Nat} {r : JournalRec}
    (h : r ∈ (journalResetPage j p).recs) : r ∈ j.recs := by
  simp only [Journal.recs, journalResetPage, PagedLog.appended, PagedLog.wipe,
    mem_append, mem_flatMap] at h ⊢
  rcases h with ⟨q, hq, hr⟩ | hr
  · left
    refine ⟨q, hq, ?_⟩
    by_cases he : q = p
    · subst he; simp at hr
    · rwa [update_of_ne he] at hr
  · exact Or.inr hr

/-- The leaves after the publish of a request. -/
theorem leafAt_published (hside : SideOk s.idx) {r : PutReq} (hpath : r.path.length = r.groupIdx + 1)
    (a : PublishArgs) (q : Path) :
    ((resolvedIdx s r).publish (resolvedNode s r) a).tree.leafAt q =
      if q = resolvedNode s r then (leafPublish (s.idx.tree.leafAt (resolvedNode s r)) a).leaf
      else s.idx.tree.leafAt q := by
  have hnode := (hside.resolveNode r.prefixId r.groupIdx hpath).node _ _ _
    (sideGet_resolveNode_self s.idx r.prefixId r.groupIdx r.path)
  have hpub := leafAt_publish (resolvedIdx s r) (resolvedNode s r) a hnode q
  rw [hpub]
  simp only [resolvedIdx, leafAt_resolveNode]

theorem StoreOk.afterPublish (h : StoreOk s) {i : Nat} {r : PutReq}
    (hr : s.pending[i]? = some r) (page crc now : Nat) :
    StoreOk (afterPublish s i r (r.args page crc now)) := by
  have hreq := h.reqs r (mem_of_getElem? hr)
  refine h.congr rfl ?_ ?_ rfl rfl
  · exact (h.side.resolveNode r.prefixId r.groupIdx hreq.path).publish
      (sideGet_resolveNode_self s.idx r.prefixId r.groupIdx r.path)
  · intro r' hr'
    exact h.reqs r' (mem_of_mem_eraseIdx hr')

theorem NotCleared.congr {s s' : Store} {d : Nat} (h : NotCleared s d)
    (hphase : s'.phase = s.phase) : NotCleared s' d := by
  intro p
  rw [hphase]
  exact h p

/-- The base invariant is kept by every step. -/
theorem StoreOk.step {s' : Store} {l : Label} (h : StoreOk s) (hstep : s.step l = some s') :
    StoreOk s' := by
  cases step_cases hstep with
  | putRejected a => exact h
  | put a reqs hlen hg hl hreqs =>
    refine h.congr rfl (h.side.congr rfl rfl) ?_ rfl rfl
    intro r hr
    rcases mem_append.mp hr with hr | hr
    · exact h.reqs r hr
    rw [hreqs] at hr
    obtain ⟨⟨_, hrg⟩, hrp, _, hrs, _, hdev⟩ := mem_cachePutReqs hr
    refine ⟨by rw [hrp, hrg]; exact hlen, by rw [hrg]; exact hg, hdev h.cfg.devs, ?_⟩
    rw [hrs, lens_shapePoolIntern]
    exact hl.trans h.cfg.layers
  | publish i page crc now r hidle hr hacc =>
    have hreq := h.reqs r (mem_of_getElem? hr)
    have hpub := h.afterPublish hr page crc now
    have happ := hpub.append (d := r.dev) (r := journalPutRec (r.args page crc now))
      ((NotCleared.of_idle hidle r.dev).congr rfl) (jrecTotal_journalPutRec_le hreq page crc now)
      (fun _ => hreq.path)
    exact happ.congr rfl happ.side happ.reqs rfl rfl
  | publishRejected i page crc now r hidle hr hrej => exact h.afterPublish hr page crc now
  | flush d hd hfree =>
    have hj := h.jours.ok d hfree
    refine ⟨h.cfg, h.side, h.reqs, ?_, ?_, ?_, h.clearing⟩
    · exact h.jours.update rfl rfl hfree hj.flush
    · intro d'
      rw [(jours_flush_go s d d').2.1]
      exact h.pages d'
    intro d' r hr
    rw [(jours_flush_go s d d').1] at hr
    exact h.recs d' r hr
  | ack v _ _ _ => exact h.congr rfl h.side h.reqs rfl rfl
  | drop node lf hidle hleaf hpin hdev =>
    have hdrop : StoreOk (afterDrop s node lf) :=
      h.congr rfl (h.side.drop node) h.reqs rfl rfl
    exact hdrop.append ((NotCleared.of_idle hidle lf.delJournal).congr rfl)
      (jrecTotal_journalDelRec_le _ _) (fun hop => by cases hop)
  | trim d regionIdx epoch hd hfree =>
    exact h.append hfree (jrecTotal_journalTrimRec_le _ _) (fun hop => by cases hop)
  | ckpt hidle =>
    refine ⟨h.cfg, h.side, h.reqs, ⟨?_, ?_, ?_⟩, h.pages, h.recs, ?_⟩
    · exact fun d _ => h.jours.ok d (NotCleared.of_idle hidle d)
    · intro d p hp
      cases hp
      exact (h.jours.ok 0 (NotCleared.of_idle hidle 0)).wiping
    · intro d _
      exact h.jours.ok d (NotCleared.of_idle hidle d)
    · intro d p hp
      cases hp
      exact h.cfg.devs
  | resetPage d p hphase hp =>
    have hne : ∀ {d'}, (∀ q, CkptPhase.resetting d (p + 1) ≠ .resetting d' q) → d' ≠ d :=
      fun hd' he => hd' (p + 1) (by rw [he])
    refine ⟨h.cfg, h.side, h.reqs, ⟨?_, ?_, ?_⟩, ?_, ?_, ?_⟩
    · intro d' hd'
      have he : d' ≠ d := hne hd'
      simp only [update_of_ne he]
      refine h.jours.ok d' fun q hq => he ?_
      rw [hphase] at hq
      cases hq
      rfl
    · intro d' q hq
      cases hq
      simpa using (h.jours.wiping d p hphase).resetPage
    · intro d' hq
      simp at hq
    · intro d'
      by_cases he : d' = d
      · subst he
        simpa [journalResetPage] using h.pages d'
      · simpa [update_of_ne he] using h.pages d'
    · intro d' r hr
      by_cases he : d' = d
      · subst he
        exact h.recs d' r (mem_recs_journalResetPage (by simpa using hr))
      · exact h.recs d' r (by simpa [update_of_ne he] using hr)
    · intro d' q hq
      cases hq
      exact h.clearing d p hphase
  | resetDone d p hphase hp =>
    have hpages : (s.jours d).journalPages ≤ p := by rw [h.pages d]; exact hp
    have hdone := (h.jours.wiping d p hphase).resetDone hpages
    have hok : ∀ d', JourOk (update s.jours d (journalResetDone (s.jours d)) d') := by
      intro d'
      by_cases he : d' = d
      · subst he; simpa using hdone
      rw [update_of_ne he]
      refine h.jours.ok d' fun q hq => he ?_
      rw [hphase] at hq
      cases hq
      rfl
    refine ⟨h.cfg, h.side, h.reqs, ⟨fun d' _ => hok d', ?_, fun d' _ => hok d'⟩, ?_, ?_, ?_⟩
    · intro d' q hq
      simp only at hq
      split at hq
      · cases hq
        exact (hok (d + 1)).wiping
      · cases hq
    · intro d'
      by_cases he : d' = d
      · subst he
        simpa [journalResetDone] using h.pages d'
      · simpa [update_of_ne he] using h.pages d'
    · intro d' r hr
      by_cases he : d' = d
      · subst he
        simp [recs_journalResetDone] at hr
      · exact h.recs d' r (by simpa [update_of_ne he] using hr)
    intro d' q hq
    simp only at hq
    split at hq
    · cases hq
      assumption
    · cases hq

end Step

end KvTier.Analysis
