import KvTier.Analysis.SingleRuns

/-!
# The registers of a run

Each key of a run of single-copy puts is a versioned register, and its PUT records all lie in the
journal of its base device.
-/

namespace KvTier.Analysis

open Function KvTier.Lib KvTier.Lib.VersionedRegister KvTier.Model List

section Registers

variable (pathOf : UInt64 → Nat → Path) (v0 : Nat)

/-! ## The registers -/

/-- A journal before that of the key has an operation on it. -/
def Early (s : Store) (k : UInt64 × Nat) : Prop :=
  ∃ d, d < baseDev s.cfg.nDevs k.1 ∧ ∃ x ∈ (s.jours d).recs, keyOp k x ≠ none

/-- The operations on a key in its own journal. -/
def baseOps (s : Store) (k : UInt64 × Nat) : List (Op LeafView) :=
  keyOps k (s.jours (baseDev s.cfg.nDevs k.1)).recs

/-- Replaying the journal of a key from the checkpoint gives its leaf. -/
structure KeyOk (s : Store) (ck : Index) (k : UInt64 × Nat) : Prop where
  after : ∀ d, baseDev s.cfg.nDevs k.1 < d → ∀ x ∈ (s.jours d).recs, keyOp k x = none
  before : ∀ d, d < baseDev s.cfg.nDevs k.1 → ∀ x ∈ (s.jours d).recs,
    keyOp k x = none ∨ keyOp k x = some .clear
  idle : s.phase = .idle → ∃ start, Legal LeafView.ver start (baseOps s k) ∧
    viewAt pathOf s.idx k = replay LeafView.ver start (baseOps s k) ∧
    (Early s k → start = none) ∧ (¬ Early s k → start = viewAt pathOf ck k)
  old : s.phase = .idle → Early s k → ∀ u, viewAt pathOf ck k = some u → u.ver ≤ v0
  same : ∀ d p, s.phase = .resetting d p → viewAt pathOf ck k = viewAt pathOf s.idx k
  cleared : ∀ d p, s.phase = .resetting d p → ∀ d' < d, ∀ x ∈ (s.jours d').recs,
    keyOp k x = none
  uncleared : ∀ d p, s.phase = .resetting d p →
    d < baseDev s.cfg.nDevs k.1 ∨ (d = baseDev s.cfg.nDevs k.1 ∧ p = 0) →
    ∃ start, Legal LeafView.ver start (baseOps s k) ∧
      viewAt pathOf s.idx k = replay LeafView.ver start (baseOps s k) ∧ (Early s k → start = none)

variable {pathOf v0}

theorem keyOps_append_none {k : UInt64 × Nat} {rs rs' : List JournalRec}
    (h : ∀ x ∈ rs', keyOp k x = none) : keyOps k (rs ++ rs') = keyOps k rs := by
  unfold keyOps
  rw [filterMap_append]
  have : rs'.filterMap (keyOp k) = [] := filterMap_eq_nil_iff.mpr h
  rw [this, List.append_nil]

theorem KeyOk.congr {s s' : Store} {ck : Index} {k : UInt64 × Nat} (h : KeyOk pathOf v0 s ck k)
    (hcfg : s'.cfg = s.cfg) (hphase : s'.phase = s.phase)
    (hview : viewAt pathOf s'.idx k = viewAt pathOf s.idx k)
    (hrecs : ∀ d, ∃ rs, (s'.jours d).recs = (s.jours d).recs ++ rs ∧
      ∀ x ∈ rs, keyOp k x = none) : KeyOk pathOf v0 s' ck k := by
  have hmem : ∀ d, ∀ x ∈ (s'.jours d).recs, x ∈ (s.jours d).recs ∨ keyOp k x = none := by
    intro d x hx
    obtain ⟨rs, he, hrs⟩ := hrecs d
    rw [he] at hx
    exact (mem_append.mp hx).imp id (hrs x)
  have hops : baseOps s' k = baseOps s k := by
    unfold baseOps
    rw [hcfg]
    obtain ⟨rs, he, hrs⟩ := hrecs (baseDev s.cfg.nDevs k.1)
    rw [he]
    exact keyOps_append_none hrs
  have hearly : Early s' k ↔ Early s k := by
    unfold Early
    rw [hcfg]
    constructor
    · rintro ⟨d, hd, x, hx, hk⟩
      exact ⟨d, hd, x, (hmem d x hx).resolve_right hk, hk⟩
    · rintro ⟨d, hd, x, hx, hk⟩
      obtain ⟨rs, he, _⟩ := hrecs d
      exact ⟨d, hd, x, by rw [he]; exact mem_append_left _ hx, hk⟩
  refine ⟨?_, ?_, ?_, ?_, ?_, ?_, ?_⟩
  · intro d hd x hx
    rw [hcfg] at hd
    rcases hmem d x hx with hx | hx
    · exact h.after d hd x hx
    · exact hx
  · intro d hd x hx
    rw [hcfg] at hd
    rcases hmem d x hx with hx | hx
    · exact h.before d hd x hx
    · exact Or.inl hx
  · rw [hphase, hops, hview, hearly]
    exact h.idle
  · rw [hphase, hearly]
    exact h.old
  · rw [hphase, hview]
    exact h.same
  · rw [hphase]
    intro d p hp d' hd' x hx
    rcases hmem d' x hx with hx | hx
    · exact h.cleared d p hp d' hd' x hx
    · exact hx
  · rw [hphase, hcfg, hops, hview, hearly]
    exact h.uncleared

theorem keyOp_put {k : UInt64 × Nat} {a : PublishArgs} (ha : SingleArgs a) (j : Nat) :
    keyOp k { journalPutRec a with devId := j } =
      if (a.prefixId, a.groupIdx) = k then some (.write (putView a)) else none := by
  have hv := recView_journalPutRec ha j
  unfold keyOp
  rw [hv]
  rfl

theorem keyOp_del (k : UInt64 × Nat) (p : UInt64) (g j : Nat) :
    keyOp k { journalDelRec p g with devId := j } =
      if (p, g) = k then some .clear else none := rfl

theorem keyOp_trim (k : UInt64 × Nat) (regionIdx epoch j : Nat) :
    keyOp k { journalTrimRec regionIdx epoch with devId := j } = none := by
  unfold keyOp
  split <;> rfl

theorem write_mem_keyOps {s : Store} (hbk : Books pathOf v0 s) (hb : Backing pathOf v0 s)
    {d : Nat} {k : UInt64 × Nat} {v : LeafView} (h : Op.write v ∈ keyOps k (s.jours d).recs) :
    v0 < v.ver := by
  obtain ⟨x, hx, hk⟩ := mem_filterMap.mp h
  have hop : x.op = .put := by
    unfold keyOp at hk
    split at hk
    · cases hxop : x.op with
      | put => rfl
      | del => simp [hxop] at hk
      | trim => simp [hxop] at hk
    · cases hk
  obtain ⟨_, r, a, j, hm, he⟩ := hb.recs d x hx hop
  obtain ⟨hev, hv0, _⟩ := hbk.hist r a hm
  rw [he, keyOp_put hev.args] at hk
  split at hk
  · simp only [Option.some.injEq, Op.write.injEq] at hk
    rw [← hk]
    have : a.ver = r.ver := hev.ver
    simp only [putView]
    omega
  · cases hk

theorem viewAt_congr {idx idx' : Index} (h : ∀ q, idx'.tree.leafAt q = idx.tree.leafAt q)
    (k : UInt64 × Nat) : viewAt pathOf idx' k = viewAt pathOf idx k := by
  simp [viewAt, h]

theorem viewAt_drop (hP : PathFn pathOf) {s : Store} (hok : StoreOk s) (hb : Backing pathOf v0 s)
    {node : Path} {lf : RadixLeaf} (hl : s.idx.tree.leafAt node = some lf) (k : UInt64 × Nat) :
    viewAt pathOf (s.idx.drop node) k =
      if (lf.prefixId, groupOf node) = k then none else viewAt pathOf s.idx k := by
  have hnode := hb.node_eq hok hl
  unfold viewAt
  rw [leafAt_drop]
  by_cases hk : (lf.prefixId, groupOf node) = k
  · subst hk
    rw [if_pos rfl, if_pos hnode.symm]
    rfl
  have hne : pathOf k.1 k.2 ≠ node := by
    rw [hnode]
    exact hP.ne hk
  rw [if_neg hk, if_neg hne]

section KeySteps

variable {s : Store} {ck : Index} {k : UInt64 × Nat}

section KeySteps

variable (h : KeyOk pathOf v0 s ck k)
include h

theorem KeyOk.base_op {s' : Store} (hcfg : s'.cfg = s.cfg) (hidle : s.phase = .idle)
    (hidle' : s'.phase = .idle) {o : Op LeafView} {x : JournalRec} (hx : keyOp k x = some o)
    (hrecs : ∀ d, (s'.jours d).recs =
      if d = baseDev s.cfg.nDevs k.1 then (s.jours d).recs ++ [x] else (s.jours d).recs)
    (hnew : ∀ v, o = .write v → ∀ u, viewAt pathOf s.idx k = some u → u.ver ≤ v.ver)
    (hview : viewAt pathOf s'.idx k = apply LeafView.ver (viewAt pathOf s.idx k) o) :
    KeyOk pathOf v0 s' ck k := by
  have hother : ∀ d, d ≠ baseDev s.cfg.nDevs k.1 → (s'.jours d).recs = (s.jours d).recs :=
    fun d hd => by rw [hrecs, if_neg hd]
  have hops : baseOps s' k = baseOps s k ++ [o] := by
    unfold baseOps keyOps
    rw [hcfg, hrecs, if_pos rfl, filterMap_append]
    simp [hx]
  have hearly : Early s' k ↔ Early s k := by
    unfold Early
    rw [hcfg]
    constructor
    · rintro ⟨d, hd, y, hy, hk⟩
      exact ⟨d, hd, y, by rwa [hother d (Nat.ne_of_lt hd)] at hy, hk⟩
    · rintro ⟨d, hd, y, hy, hk⟩
      exact ⟨d, hd, y, by rwa [hother d (Nat.ne_of_lt hd)], hk⟩
  have hbusy : ∀ d p, s'.phase ≠ .resetting d p := by
    intro d p hp
    rw [hidle'] at hp
    cases hp
  refine ⟨?_, ?_, ?_, ?_, ?_, ?_, ?_⟩
  · intro d hd
    rw [hcfg] at hd
    rw [hother d (Nat.ne_of_gt hd)]
    exact h.after d hd
  · intro d hd
    rw [hcfg] at hd
    rw [hother d (Nat.ne_of_lt hd)]
    exact h.before d hd
  · intro _
    obtain ⟨start, hl, hv, h1, h2⟩ := h.idle hidle
    refine ⟨start, ?_, ?_, fun he => h1 (hearly.mp he), fun he => h2 (fun hc => he (hearly.mpr hc))⟩
    · rw [hops, legal_append_one, ← hv]
      exact ⟨hl, hnew⟩
    · rw [hops, replay_append, ← hv, hview, replay_cons, replay_nil]
  · intro _ he
    exact h.old hidle (hearly.mp he)
  · exact fun d p hp => absurd hp (hbusy d p)
  · exact fun d p hp => absurd hp (hbusy d p)
  · exact fun d p hp => absurd hp (hbusy d p)

theorem KeyOk.drop_early {s' : Store} (hcfg : s'.cfg = s.cfg) (hidle : s.phase = .idle)
    (hidle' : s'.phase = .idle) {jd : Nat} (hjd : jd < baseDev s.cfg.nDevs k.1) {x : JournalRec}
    (hx : keyOp k x = some .clear)
    (hrecs : ∀ d, (s'.jours d).recs = if d = jd then (s.jours d).recs ++ [x] else (s.jours d).recs)
    (hwrites : ∀ v, Op.write v ∈ baseOps s k → v0 < v.ver) {u : LeafView}
    (hold : viewAt pathOf s.idx k = some u) (hu : u.ver ≤ v0)
    (hview : viewAt pathOf s'.idx k = none) : KeyOk pathOf v0 s' ck k := by
  obtain ⟨start, hl, hv, h1, h2⟩ := h.idle hidle
  have hnil : baseOps s k = [] := by
    refine hl.eq_nil_of_older (hv.symm.trans hold) ?_
    intro v hv'
    have := hwrites v hv'
    omega
  rw [hnil, replay_nil, hold] at hv
  have hnot : ¬ Early s k := by
    intro he
    rw [h1 he] at hv
    cases hv
  have hck : viewAt pathOf ck k = some u := by rw [← h2 hnot, ← hv]
  have hops : baseOps s' k = [] := by
    rw [← hnil]
    unfold baseOps
    rw [hcfg, hrecs, if_neg (by omega)]
  have hearly : Early s' k := by
    refine ⟨jd, by rw [hcfg]; exact hjd, x, ?_, by rw [hx]; simp⟩
    rw [hrecs, if_pos rfl]
    simp
  have hbusy : ∀ d p, s'.phase ≠ .resetting d p := by
    intro d p hp
    rw [hidle'] at hp
    cases hp
  refine ⟨?_, ?_, ?_, ?_, ?_, ?_, ?_⟩
  · intro d hd
    rw [hcfg] at hd
    rw [hrecs, if_neg (by omega)]
    exact h.after d hd
  · intro d hd y hy
    rw [hcfg] at hd
    rw [hrecs] at hy
    split at hy
    · rcases mem_append.mp hy with hy | hy
      · exact h.before d hd y hy
      · rw [mem_singleton.mp hy]
        exact Or.inr hx
    · exact h.before d hd y hy
  · intro _
    refine ⟨none, ?_, ?_, fun _ => rfl, fun hn => absurd hearly hn⟩
    · rw [hops]
      trivial
    · rw [hops, hview]
      rfl
  · intro _ _ w hw
    rw [hck] at hw
    cases hw
    exact hu
  · exact fun d p hp => absurd hp (hbusy d p)
  · exact fun d p hp => absurd hp (hbusy d p)
  · exact fun d p hp => absurd hp (hbusy d p)

theorem KeyOk.ckpt (hidle : s.phase = .idle) (f : CkptFile) :
    KeyOk pathOf v0 { s with ckpt := some f, phase := .resetting 0 0 } s.idx k where
  after := h.after
  before := h.before
  idle hp := by cases hp
  old hp := by cases hp
  same _ _ _ := rfl
  cleared d p hp d' hd' := by
    cases hp
    exact absurd hd' (Nat.not_lt_zero d')
  uncleared d p hp _ := by
    obtain ⟨start, hl, hv, h1, _⟩ := h.idle hidle
    exact ⟨start, hl, hv, h1⟩

theorem KeyOk.resetPage {d p : Nat} (hphase : s.phase = .resetting d p) :
    KeyOk pathOf v0 { s with
      jours := update s.jours d (journalResetPage (s.jours d) p)
      phase := .resetting d (p + 1) } ck k := by
  have hmem : ∀ d', ∀ x ∈ (update s.jours d (journalResetPage (s.jours d) p) d').recs,
      x ∈ (s.jours d').recs := by
    intro d' x hx
    by_cases he : d' = d
    · subst he
      exact mem_recs_journalResetPage (by simpa using hx)
    · rwa [update_of_ne he] at hx
  refine ⟨?_, ?_, ?_, ?_, ?_, ?_, ?_⟩
  · intro d' hd' x hx
    exact h.after d' hd' x (hmem d' x hx)
  · intro d' hd' x hx
    exact h.before d' hd' x (hmem d' x hx)
  · intro hp
    cases hp
  · intro hp
    cases hp
  · intro _ _ _
    exact h.same d p hphase
  · intro d1 p1 hp d' hd' x hx
    cases hp
    exact h.cleared d p hphase d' hd' x (hmem d' x hx)
  intro d1 p1 hp hlt
  cases hp
  have hlt : d < baseDev s.cfg.nDevs k.1 := by
    rcases hlt with hlt | ⟨_, h0⟩
    · exact hlt
    · omega
  obtain ⟨start, hl, hv, h1⟩ := h.uncleared d p hphase (Or.inl hlt)
  have hops : baseOps { s with
      jours := update s.jours d (journalResetPage (s.jours d) p)
      phase := .resetting d (p + 1) } k = baseOps s k := by
    simp only [baseOps]
    rw [update_of_ne (by omega)]
  rw [hops]
  refine ⟨start, hl, hv, ?_⟩
  rintro ⟨d', hd', x, hx, hk⟩
  exact h1 ⟨d', hd', x, hmem d' x hx, hk⟩

theorem KeyOk.resetDone (hn : 0 < s.cfg.nDevs) {d p : Nat} (hphase : s.phase = .resetting d p) :
    KeyOk pathOf v0 { s with
      jours := update s.jours d (journalResetDone (s.jours d))
      phase := if d + 1 < s.cfg.nDevs then .resetting (d + 1) 0 else .idle } ck k := by
  have hmem : ∀ d', ∀ x ∈ (update s.jours d (journalResetDone (s.jours d)) d').recs,
      d' ≠ d ∧ x ∈ (s.jours d').recs := by
    intro d' x hx
    by_cases he : d' = d
    · subst he
      simp [recs_journalResetDone] at hx
    · rw [update_of_ne he] at hx
      exact ⟨he, hx⟩
  have hcl : ∀ d' < d + 1, ∀ x ∈
      (update s.jours d (journalResetDone (s.jours d)) d').recs, keyOp k x = none := by
    intro d' hd' x hx
    obtain ⟨hne, hx⟩ := hmem d' x hx
    exact h.cleared d p hphase d' (by omega) x hx
  refine ⟨?_, ?_, ?_, ?_, ?_, ?_, ?_⟩
  · intro d' hd' x hx
    exact h.after d' hd' x (hmem d' x hx).2
  · intro d' hd' x hx
    exact h.before d' hd' x (hmem d' x hx).2
  · -- every journal is cleared: the live register is the checkpointed one
    intro hp
    simp only at hp
    split at hp
    · cases hp
    rename_i hlast
    have hb := baseDev_lt hn k.1
    have hops : baseOps { s with
        jours := update s.jours d (journalResetDone (s.jours d))
        phase := if d + 1 < s.cfg.nDevs then .resetting (d + 1) 0 else .idle } k = [] :=
      filterMap_eq_nil_iff.mpr (hcl _ (by simp only; omega))
    rw [hops]
    refine ⟨viewAt pathOf ck k, trivial, ?_, ?_, fun _ => rfl⟩
    · exact (h.same d p hphase).symm
    · rintro ⟨d', hd', x, hx, hk⟩
      exact absurd (hcl d' (by simp only at hd'; omega) x hx) hk
  · intro hp
    simp only at hp
    split at hp
    · cases hp
    · rintro ⟨d', hd', x, hx, hk⟩
      have hb := baseDev_lt hn k.1
      exact absurd (hcl d' (by simp only at hd'; omega) x hx) hk
  · intro _ _ _
    exact h.same d p hphase
  · intro d1 p1 hp
    simp only at hp
    split at hp
    · cases hp
      exact hcl
    · cases hp
  intro d1 p1 hp hlt
  simp only at hp
  split at hp
  · cases hp
    have hlt : d < baseDev s.cfg.nDevs k.1 := by
      rcases hlt with hlt | ⟨he, _⟩
      · simp only at hlt; omega
      · simp only at he; omega
    obtain ⟨start, hl, hv, h1⟩ := h.uncleared d p hphase (Or.inl hlt)
    have hops : baseOps { s with
        jours := update s.jours d (journalResetDone (s.jours d))
        phase := if d + 1 < s.cfg.nDevs then .resetting (d + 1) 0 else .idle } k =
        baseOps s k := by
      simp only [baseOps]
      rw [update_of_ne (by omega)]
    rw [hops]
    refine ⟨start, hl, hv, ?_⟩
    rintro ⟨d', hd', x, hx, hk⟩
    exact h1 ⟨d', hd', x, (hmem d' x hx).2, hk⟩
  · cases hp

end KeySteps

end KeySteps

variable (pathOf v0)

/-- Every key is a register that recovery restores. -/
structure Registers (s : Store) (ck : Index) : Prop where
  durable : CkptOk s ck
  paths : OwnPaths pathOf ck
  leaf : ∀ q lf, ck.tree.leafAt q = some lf → Backed v0 s.hist (leafView lf)
  keys : ∀ k, KeyOk pathOf v0 s ck k

variable {pathOf v0}

theorem Registers.congr {s s' : Store} {ck : Index} (h : Registers pathOf v0 s ck)
    (hcfg : s'.cfg = s.cfg) (hck : s'.ckpt = s.ckpt) (hhist : s'.hist = s.hist)
    (hkeys : ∀ k, KeyOk pathOf v0 s' ck k) : Registers pathOf v0 s' ck where
  durable := h.durable.congr hcfg hck
  paths := h.paths
  leaf := by rw [hhist]; exact h.leaf
  keys := hkeys

/-- Every step keeps the registers. -/
theorem Registers.step {s s' : Store} {ck : Index} {l : Label} (hP : PathFn pathOf)
    (hok : StoreOk s) (hst : Storable s) (hbk : Books pathOf v0 s) (hb : Backing pathOf v0 s)
    (h : Registers pathOf v0 s ck) (hl : DropsEarly s l) (hno' : NoOverflow s')
    (hstep : s.step l = some s') : ∃ ck', Registers pathOf v0 s' ck' := by
  have hno : NoOverflow s := hno'.of_step hok hstep
  have hsame : ∀ (k : UInt64 × Nat) d, ∃ rs, (s.jours d).recs = (s.jours d).recs ++ rs ∧
      ∀ x ∈ rs, keyOp k x = none := fun k d => ⟨[], by simp, by simp⟩
  cases step_cases hstep with
  | putRejected a => exact ⟨ck, h⟩
  | put a reqs =>
    exact ⟨ck, h.congr rfl rfl rfl fun k => (h.keys k).congr rfl rfl rfl (hsame k)⟩
  | publish i page crc now r hidle hr hacc =>
    have hmem := mem_of_getElem? hr
    obtain ⟨hreq, _, _⟩ := hbk.reqs r hmem
    have hev := hreq.event (hok.reqs r hmem) page crc now
    have hleaf := leafAt_afterPublish hok hbk hb hr hacc
    have hold := (leafPublish_single hbk hb hr hacc).2
    rw [resolvedNode_eq hb hreq] at hold
    have hj := hok.jours.ok r.dev (NotCleared.of_idle hidle _)
    have htotal := jrecTotal_journalPutRec_le (hok.reqs r hmem) page crc now
    have hdropped := (hno' r.dev).trans (hno r.dev).symm
    refine ⟨ck, h.durable.congr rfl rfl, h.paths, ?_, ?_⟩
    · intro q lf hl
      exact (h.leaf q lf hl).mono fun e he => mem_cons_of_mem _ he
    intro k
    by_cases hk : (r.prefixId, r.groupIdx) = k
    · subst hk
      refine (h.keys (r.prefixId, r.groupIdx)).base_op (o := .write (putView
        (r.args page crc now))) (x := { journalPutRec (r.args page crc now) with
          devId := (s.jours r.dev).devId }) rfl hidle hidle ?_ ?_ ?_ ?_
      · rw [keyOp_put hev.args]
        simp [PutReq.args]
      · intro d
        have hd := recs_append (s := afterPublish s i r (r.args page crc now)) hj htotal
          hdropped d
        rw [← hreq.dev]
        split at hd
        · rename_i he
          rw [if_pos he]
          subst he
          exact hd
        · rename_i he
          rw [if_neg he]
          exact hd
      · intro v hv u hu
        cases hv
        obtain ⟨lf, hl, rfl⟩ := Option.map_eq_some_iff.mp hu
        exact Nat.le_of_lt (hold lf hl)
      have hv : viewAt pathOf (afterPublish s i r (r.args page crc now)).idx
          (r.prefixId, r.groupIdx) = some (putView (r.args page crc now)) := by
        simp only [viewAt]
        rw [hleaf, if_pos rfl, Option.map_some, leafView_newPlainLeaf hev.args.slot]
      rw [apply_write_of_le]
      · exact hv
      · intro u hu
        obtain ⟨lf, hl, rfl⟩ := Option.map_eq_some_iff.mp hu
        exact Nat.le_of_lt (hold lf hl)
    refine (h.keys k).congr rfl rfl ?_ fun d => ?_
    · have hv : viewAt pathOf (afterPublish s i r (r.args page crc now)).idx k =
          viewAt pathOf s.idx k := by
        simp only [viewAt]
        rw [hleaf, if_neg (hP.ne hk)]
      exact hv
    obtain ⟨rs, he, hrs⟩ := recs_append_extends
      (s := afterPublish s i r (r.args page crc now)) hj htotal hdropped d
    refine ⟨rs, he, fun x hx => ?_⟩
    rw [hrs x hx, keyOp_put hev.args]
    exact if_neg hk
  | publishRejected i page crc now r hidle hr hrej =>
    refine ⟨ck, h.congr rfl rfl rfl fun k => (h.keys k).congr rfl rfl ?_ (hsame k)⟩
    exact viewAt_congr (leafAt_afterPublish_of_rejected hok hr hrej) k
  | flush d hd hfree =>
    refine ⟨ck, h.congr rfl rfl rfl fun k => (h.keys k).congr rfl rfl rfl fun d' => ?_⟩
    exact ⟨[], by rw [(jours_flush_go s d d').1, List.append_nil], by simp⟩
  | ack => exact ⟨ck, h.congr rfl rfl rfl fun k => (h.keys k).congr rfl rfl rfl (hsame k)⟩
  | drop node lf hidle hleaf hpin hdev =>
    have hj := hok.jours.ok lf.delJournal (NotCleared.of_idle hidle _)
    have htotal := jrecTotal_journalDelRec_le lf.prefixId (groupOf node)
    have hdropped := (hno' lf.delJournal).trans (hno lf.delJournal).symm
    have hrecs := recs_append (s := afterDrop s node lf) hj htotal hdropped
    have hview := viewAt_drop hP hok hb hleaf
    refine ⟨ck, h.durable.congr rfl rfl, h.paths, ?_, ?_⟩
    · intro q lf' hl
      exact (h.leaf q lf' hl).mono fun e he => mem_cons_of_mem _ he
    intro k
    by_cases hk : (lf.prefixId, groupOf node) = k
    · subst hk
      have hnone : viewAt pathOf (s.idx.drop node) (lf.prefixId, groupOf node) = none := by
        rw [hview, if_pos rfl]
      have hlive : viewAt pathOf s.idx (lf.prefixId, groupOf node) = some (leafView lf) := by
        simp only [viewAt]
        rw [← hb.node_eq hok hleaf, hleaf]
        rfl
      have hclear : keyOp (lf.prefixId, groupOf node)
          { journalDelRec lf.prefixId (groupOf node) with
            devId := (s.jours lf.delJournal).devId } = some .clear := by
        rw [keyOp_del, if_pos rfl]
      have hrecs' : ∀ d, (((afterDrop s node lf).append lf.delJournal
          (journalDelRec lf.prefixId (groupOf node))).jours d).recs =
          if d = lf.delJournal then (s.jours d).recs ++
            [{ journalDelRec lf.prefixId (groupOf node) with
               devId := (s.jours lf.delJournal).devId }] else (s.jours d).recs := by
        intro d
        rw [hrecs d]
        split
        · rename_i he
          subst he
          rfl
        · rfl
      by_cases hbase : lf.delJournal = baseDev s.cfg.nDevs lf.prefixId
      · refine (h.keys _).base_op (o := .clear) rfl hidle hidle hclear ?_ ?_ ?_
        · intro d
          rw [hrecs' d, hbase]
        · intro v hv
          cases hv
        · rw [apply_clear]
          exact hnone
      -- a leaf from before the run, journaled before its base device
      have hv0 := (hb.del node lf hleaf).resolve_right hbase
      refine (h.keys _).drop_early rfl hidle hidle ?_ hclear hrecs' ?_
        hlive hv0 hnone
      · exact Nat.lt_of_le_of_ne (hl lf hleaf) hbase
      · intro v hv
        exact write_mem_keyOps hbk hb hv
    refine (h.keys k).congr rfl rfl ?_ fun d => ?_
    · have hv := hview k
      rw [if_neg hk] at hv
      exact hv
    obtain ⟨rs, he, hrs⟩ := recs_append_extends (s := afterDrop s node lf) hj htotal
      hdropped d
    refine ⟨rs, he, fun x hx => ?_⟩
    rw [hrs x hx, keyOp_del, if_neg hk]
  | trim d regionIdx epoch hd hfree =>
    refine ⟨ck, h.congr rfl rfl rfl fun k => (h.keys k).congr rfl rfl rfl fun d' => ?_⟩
    obtain ⟨rs, he, hrs⟩ := recs_append_extends (hok.jours.ok d hfree)
      (jrecTotal_journalTrimRec_le regionIdx epoch) ((hno' d).trans (hno d).symm) d'
    refine ⟨rs, he, fun x hx => ?_⟩
    rw [hrs x hx, keyOp_trim]
  | ckpt hidle =>
    refine ⟨s.idx, ckptOk_writeCkpt hok.side hst.idx _, hb.paths, hb.leaf, fun k => ?_⟩
    exact (h.keys k).ckpt hidle _
  | resetPage d p hphase hp =>
    exact ⟨ck, h.congr rfl rfl rfl fun k => (h.keys k).resetPage hphase⟩
  | resetDone d p hphase hp =>
    exact ⟨ck, h.congr rfl rfl rfl fun k => (h.keys k).resetDone hok.cfg.devs hphase⟩

end Registers

end KvTier.Analysis
