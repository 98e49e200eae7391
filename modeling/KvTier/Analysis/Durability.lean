import KvTier.Analysis.Registers

/-!
# Crash durability of single-copy puts

The main result is `acked_put_recovered`: a single-copy put that was accepted and acknowledged, with
no later put or drop of its key, is in the index that recovery rebuilds, whatever else happened and
wherever the crash fell, inside a checkpoint too.
-/

namespace KvTier.Analysis

open Function KvTier.Lib KvTier.Lib.VersionedRegister KvTier.Model List Option

variable {a : PublishArgs} {ck : Index} {k : UInt64 × Nat} {r : PutReq} {s : Store}

section Durability

variable {pathOf : UInt64 → Nat → Path} {v0 : Nat}

/-! ## The last put of a key -/

variable (pathOf)

def NotWiped (s : Store) (d : Nat) : Prop := ∀ p, s.phase ≠ .resetting d (p + 1)

/-- The last publish of a key is in the index, and waits for an ack as long as it is not flushed. -/
structure LastOk (s : Store) : Prop where
  live : ∀ k r a, lastEvent s.hist k = some (.publish r a) →
    viewAt pathOf s.idx k = some (putView a)
  tail : ∀ k r a, lastEvent s.hist k = some (.publish r a) →
    NotWiped s (baseDev s.cfg.nDevs k.1) →
    ∀ x ∈ unflushed (s.jours (baseDev s.cfg.nDevs k.1)), keyOp k x ≠ none →
    ∃ w ∈ s.waiting, w.ver = r.ver ∧ w.dev = baseDev s.cfg.nDevs k.1 ∧ w.flushed = false

variable {pathOf}

theorem lastEvent_key {hist : List Event} {e : Event} (h : lastEvent hist k = some e) :
    e ∈ hist ∧ e.key = k := by
  refine ⟨List.mem_of_find?_eq_some h, ?_⟩
  simpa using List.find?_some h

theorem mem_unflushed_append {d : Nat} (hj : JourOk (s.jours d)) {r : JournalRec}
    (hr : jrecTotal r ≤ pageSize) {d' : Nat} {x : JournalRec}
    (hx : x ∈ unflushed ((s.append d r).jours d')) :
    x ∈ unflushed (s.jours d') ∨ x = { r with devId := (s.jours d).devId } := by
  simp only [Store.append] at hx
  by_cases he : d' = d
  · subst he
    rw [update_self] at hx
    exact (journalAppend_spec hj hr).mem_unflushed hj hx
  · rw [update_of_ne he] at hx
    exact Or.inl hx

theorem LastOk.congr {s s' : Store} (h : LastOk pathOf s) (hcfg : s'.cfg = s.cfg)
    (hhist : s'.hist = s.hist) (hleaf : ∀ q, s'.idx.tree.leafAt q = s.idx.tree.leafAt q)
    (hwait : ∀ w ∈ s.waiting, w.flushed = false → w ∈ s'.waiting)
    (htail : ∀ k r a, lastEvent s.hist k = some (.publish r a) →
      NotWiped s' (baseDev s.cfg.nDevs k.1) →
      ∀ x ∈ unflushed (s'.jours (baseDev s.cfg.nDevs k.1)), keyOp k x ≠ none →
      NotWiped s (baseDev s.cfg.nDevs k.1) ∧ x ∈ unflushed (s.jours (baseDev s.cfg.nDevs k.1))) :
    LastOk pathOf s' where
  live k r a hl := by
    rw [hhist] at hl
    rw [viewAt_congr hleaf]
    exact h.live k r a hl
  tail k r a hl := by
    rw [hhist] at hl
    rw [hcfg]
    intro hnw x hx hk
    obtain ⟨hnw0, hx0⟩ := htail k r a hl hnw x hx hk
    obtain ⟨w, hw, h1, h2, h3⟩ := h.tail k r a hl hnw0 x hx0 hk
    exact ⟨w, hwait w hw h3, h1, h2, h3⟩

theorem LastOk.step {s s' : Store} {l : Label} (hP : PathFn pathOf) (hok : StoreOk s)
    (hbk : Books pathOf v0 s) (hb : Backing pathOf v0 s) (h : LastOk pathOf s)
    (hstep : s.step l = some s') : LastOk pathOf s' := by
  cases step_cases hstep with
  | putRejected a => exact h
  | put a reqs =>
    exact h.congr rfl rfl (fun _ => rfl) (fun w hw _ => hw) (fun _ _ _ _ hn x hx _ => ⟨hn, hx⟩)
  | publish i page crc now r hidle hr hacc =>
    have hmem := mem_of_getElem? hr
    obtain ⟨hreq, _, _⟩ := hbk.reqs r hmem
    have hev := hreq.event (hok.reqs r hmem) page crc now
    have hleaf := leafAt_afterPublish hok hbk hb hr hacc
    have hj := hok.jours.ok r.dev (NotCleared.of_idle hidle _)
    have htotal := jrecTotal_journalPutRec_le (hok.reqs r hmem) page crc now
    -- the published key ends with this event, the others keep theirs
    have hlast : ∀ k r' a', lastEvent (.publish r (r.args page crc now) :: s.hist) k =
        some (.publish r' a') →
        ((r.prefixId, r.groupIdx) = k ∧ r' = r ∧ a' = r.args page crc now) ∨
        ((r.prefixId, r.groupIdx) ≠ k ∧ lastEvent s.hist k = some (.publish r' a')) := by
      intro k r' a' hl
      rw [lastEvent_cons] at hl
      split at hl
      · rename_i hk
        cases hl
        exact .inl ⟨hk, rfl, rfl⟩
      · rename_i hk
        exact .inr ⟨hk, hl⟩
    have hidx : ∀ q, ({ (afterPublish s i r (r.args page crc now)).append r.dev
          (journalPutRec (r.args page crc now)) with
          hist := .publish r (r.args page crc now) :: s.hist } : Store).idx.tree.leafAt q =
        if q = pathOf r.prefixId r.groupIdx then some (newPlainLeaf (r.args page crc now))
        else s.idx.tree.leafAt q := hleaf
    refine ⟨?_, ?_⟩
    · intro k r' a' hl
      rcases hlast k r' a' hl with ⟨rfl, rfl, rfl⟩ | ⟨hk, hl⟩
      · simp only [viewAt]
        rw [hidx, if_pos rfl, map_some, leafView_newPlainLeaf hev.args.slot]
      have hv := h.live k r' a' hl
      simp only [viewAt] at hv ⊢
      rw [hidx, if_neg (hP.ne hk)]
      exact hv
    intro k r' a' hl hnw x hx hkx
    have hx : x ∈ unflushed (((afterPublish s i r (r.args page crc now)).append r.dev
        (journalPutRec (r.args page crc now))).jours (baseDev s.cfg.nDevs k.1)) := hx
    rcases hlast k r' a' hl with ⟨rfl, rfl, rfl⟩ | ⟨hk, hl⟩
    · exact ⟨⟨r'.ver, r'.dev, false⟩, by simp [Store.append, afterPublish], rfl, hreq.dev, rfl⟩
    rcases mem_unflushed_append (s := afterPublish s i r (r.args page crc now)) hj htotal hx
      with hx | rfl
    · obtain ⟨w, hw, h1, h2, h3⟩ := h.tail k r' a' hl hnw x hx hkx
      exact ⟨w, by simp [Store.append, afterPublish, hw], h1, h2, h3⟩
    · rw [keyOp_put hev.args] at hkx
      exact absurd (if_neg hk) hkx
  | publishRejected i page crc now r hidle hr hrej =>
    refine h.congr rfl rfl (leafAt_afterPublish_of_rejected hok hr hrej) ?_
      (fun _ _ _ _ hn x hx _ => ⟨hn, hx⟩)
    intro w hw _
    simp [afterPublish, hw]
  | flush d hd hfree =>
    refine ⟨h.live, ?_⟩
    intro k r a hl hnw x hx hkx
    by_cases he : baseDev s.cfg.nDevs k.1 = d
    · -- everything in this journal is written
      have hnil : unflushed ((Store.flush.go d s).jours (baseDev s.cfg.nDevs k.1)) = [] := by
        simp only [Store.flush.go, he, update_self]
        exact unflushed_journalFlush (hok.jours.ok d hfree)
      have hx : x ∈ unflushed ((Store.flush.go d s).jours (baseDev s.cfg.nDevs k.1)) := hx
      rw [hnil] at hx
      simp at hx
    have hx : x ∈ unflushed (s.jours (baseDev s.cfg.nDevs k.1)) := by
      simpa [Store.flush.go, update_of_ne he] using hx
    obtain ⟨w, hw, h1, h2, h3⟩ := h.tail k r a hl hnw x hx hkx
    refine ⟨w, List.mem_map.mpr ⟨w, hw, ?_⟩, h1, h2, h3⟩
    rw [if_neg (by rw [h2]; exact he)]
  | ack v hpend hsome hall =>
    refine h.congr rfl rfl (fun _ => rfl) ?_ (fun _ _ _ _ hn x hx _ => ⟨hn, hx⟩)
    intro w hw hfl
    refine mem_filter.mpr ⟨hw, ?_⟩
    have hne : w.ver ≠ v := by
      intro hv
      rw [hall w hw hv] at hfl
      cases hfl
    simpa using hne
  | drop node lf hidle hleaf hpin hdev =>
    have hj := hok.jours.ok lf.delJournal (NotCleared.of_idle hidle _)
    have hlast : ∀ k r' a', lastEvent (.drop lf.prefixId (groupOf node) :: s.hist) k =
        some (.publish r' a') →
        (lf.prefixId, groupOf node) ≠ k ∧ lastEvent s.hist k = some (.publish r' a') := by
      intro k r' a' hl
      rw [lastEvent_cons] at hl
      split at hl
      · cases hl
      · rename_i hk
        exact ⟨hk, hl⟩
    refine ⟨?_, ?_⟩
    · intro k r' a' hl
      obtain ⟨hk, hl⟩ := hlast k r' a' hl
      have hv := viewAt_drop hP hok hb hleaf k
      rw [if_neg hk] at hv
      exact hv.trans (h.live k r' a' hl)
    intro k r' a' hl hnw x hx hkx
    obtain ⟨hk, hl⟩ := hlast k r' a' hl
    rcases mem_unflushed_append (s := afterDrop s node lf) hj (jrecTotal_journalDelRec_le _ _)
      hx with hx | rfl
    · exact h.tail k r' a' hl hnw x hx hkx
    · rw [keyOp_del, if_neg hk] at hkx
      exact absurd rfl hkx
  | trim d regionIdx epoch hd hfree =>
    refine h.congr rfl rfl (fun _ => rfl) (fun w hw _ => hw) ?_
    intro k r a hl hnw x hx hkx
    rcases mem_unflushed_append (hok.jours.ok d hfree) (jrecTotal_journalTrimRec_le _ _) hx
      with hx | rfl
    · exact ⟨hnw, hx⟩
    · exact absurd (keyOp_trim _ _ _ _) hkx
  | ckpt hidle =>
    refine h.congr rfl rfl (fun _ => rfl) (fun w hw _ => hw) ?_
    intro k r a hl hnw x hx hkx
    refine ⟨fun p hp => ?_, hx⟩
    rw [hidle] at hp
    cases hp
  | resetPage d p hphase hp =>
    refine h.congr rfl rfl (fun _ => rfl) (fun w hw _ => hw) ?_
    intro k r a hl hnw x hx hkx
    have he : baseDev s.cfg.nDevs k.1 ≠ d := fun he => hnw p (by rw [he])
    refine ⟨fun p' hp' => ?_, ?_⟩
    · rw [hphase] at hp'
      cases hp'
      exact he rfl
    · simpa [update_of_ne he] using hx
  | resetDone d p hphase hp =>
    refine h.congr rfl rfl (fun _ => rfl) (fun w hw _ => hw) ?_
    intro k r a hl hnw x hx hkx
    by_cases he : baseDev s.cfg.nDevs k.1 = d
    · have hx : x ∈ unflushed (update s.jours d (journalResetDone (s.jours d))
          (baseDev s.cfg.nDevs k.1)) := hx
      rw [he, update_self] at hx
      simp [unflushed, recs_journalResetDone] at hx
    refine ⟨fun p' hp' => ?_, ?_⟩
    · rw [hphase] at hp'
      cases hp'
      exact he rfl
    · simpa [update_of_ne he] using hx

/-! ## Recovery -/

/-- The view of each version that was published. -/
def verView (hist : List Event) (v : Nat) : LeafView :=
  (hist.findSome? fun
    | .publish r a => if r.ver = v then some (putView a) else none
    | .drop _ _ => none).getD ⟨0, 0, KvAddr.none, KvAddr.none, none, []⟩

theorem verView_publish (h : Books pathOf v0 s) (hm : Event.publish r a ∈ s.hist) :
    verView s.hist r.ver = putView a := by
  unfold verView
  cases hf : s.hist.findSome? fun
      | .publish r' a => if r'.ver = r.ver then some (putView a) else none
      | .drop _ _ => none with
  | none =>
    have := List.findSome?_eq_none_iff.mp hf _ hm
    simp at this
  | some u =>
    obtain ⟨e, he, hu⟩ := List.exists_of_findSome?_eq_some hf
    cases e with
    | drop p g => simp at hu
    | publish r' a' =>
      simp only at hu
      split at hu
      · rename_i hv
        obtain ⟨_, rfl⟩ := h.publish_unique hm he hv.symm
        simpa using hu.symm
      · cases hu

theorem Registers.singleOk (hbk : Books pathOf v0 s) (h : Registers pathOf v0 s ck) :
    SingleOk pathOf (verView s.hist) v0
        (replayInit s.ckpt s.cfg.nDevs s.cfg.regionCnt s.cfg.regionSizePages).idx ∧
      ∀ k, viewAt pathOf
        (replayInit s.ckpt s.cfg.nDevs s.cfg.regionCnt s.cfg.regionSizePages).idx k =
        viewAt pathOf ck k := by
  have htree : (replayInit s.ckpt s.cfg.nDevs s.cfg.regionCnt s.cfg.regionSizePages).idx.tree =
      ck.tree.map unpinned := h.durable.tree
  refine ⟨⟨h.durable.replayOk, ?_, ?_⟩, ?_⟩
  · intro p g q hq
    exact h.paths p g q (h.durable.slot p g q hq)
  · intro q lf hl
    rw [htree, Trie.leafAt_map] at hl
    obtain ⟨lf0, hl0, rfl⟩ := map_eq_some_iff.mp hl
    rcases h.leaf q lf0 hl0 with hv | ⟨r, a, hm, he⟩
    · exact Or.inl hv
    right
    have hview : leafView (unpinned lf0) = putView a := he
    have hv : (unpinned lf0).ver = r.ver := by
      have := congrArg LeafView.ver hview
      exact this.trans (hbk.hist r a hm).1.ver
    rw [hview, hv, verView_publish hbk hm]
  intro k
  unfold viewAt
  rw [htree, Trie.leafAt_map, Option.map_map]
  rfl

theorem read_singleRec (hok : StoreOk s) (hbk : Books pathOf v0 s) (hb : Backing pathOf v0 s) :
    ∀ x ∈ (List.range s.cfg.nDevs).flatMap (fun d => journalRead (s.jours d)), x.op = .put →
      SingleRec pathOf (verView s.hist) v0 x := by
  intro x hx hop
  obtain ⟨d, _, hd⟩ := mem_flatMap.mp hx
  obtain ⟨_, r, a, j, hm, rfl⟩ := hb.recs d x ((hok.read_initial d).subset hd) hop
  obtain ⟨hev, hv0, _⟩ := hbk.hist r a hm
  have hfl : a.flags = Flags.empty := hev.args.flags
  refine ⟨?_, ?_, ?_, hev.path, ?_, ?_⟩
  · simp [journalPutRec, hfl, Flags.empty]
  · simp [journalPutRec, hfl, Flags.empty]
  · simp [journalPutRec, hfl, Flags.empty, hev.args.slot]
  · have hv : a.ver = r.ver := hev.ver
    simp only [journalPutRec]
    omega
  rw [recView_journalPutRec hev.args]
  have hv : a.ver = r.ver := hev.ver
  simp only [journalPutRec]
  rw [hv, verView_publish hbk hm]

theorem viewAt_recovered (hP : PathFn pathOf) (hok : StoreOk s) (hbk : Books pathOf v0 s)
    (hb : Backing pathOf v0 s) (h : Registers pathOf v0 s ck) (k : UInt64 × Nat) :
    ∃ pre, (∀ o ∈ pre, o = .clear) ∧
      (pre ≠ [] → ∃ d, d < baseDev s.cfg.nDevs k.1 ∧
        ∃ x ∈ journalRead (s.jours d), keyOp k x ≠ none) ∧
      viewAt pathOf s.recovered.idx k =
        replay LeafView.ver (replay LeafView.ver (viewAt pathOf ck k) pre)
          (keyOps k (journalRead (s.jours (baseDev s.cfg.nDevs k.1)))) := by
  have hkey := h.keys k
  obtain ⟨hinit, hview⟩ := h.singleOk hbk
  have hrep := (view_replayJournal s.cfg.nDevs s.cfg.regionCnt hP hinit
    (read_singleRec hok hbk hb)).2 k
  have hblt := baseDev_lt hok.cfg.devs k.1
  have hsub : ∀ d, journalRead (s.jours d) ⊆ (s.jours d).recs :=
    fun d => (hok.read_initial d).subset
  -- cut the journals at the base device; the later ones hold nothing of the key
  have hlater : keyOps k ((List.range' (baseDev s.cfg.nDevs k.1 + 1)
      (s.cfg.nDevs - (baseDev s.cfg.nDevs k.1 + 1))).flatMap
        (fun d => journalRead (s.jours d))) = [] := by
    refine filterMap_eq_nil_iff.mpr fun x hx => ?_
    obtain ⟨d, hd, hx⟩ := mem_flatMap.mp hx
    obtain ⟨i, _, rfl⟩ := mem_range'.mp hd
    exact hkey.after _ (by omega) x (hsub _ hx)
  refine ⟨keyOps k ((List.range (baseDev s.cfg.nDevs k.1)).flatMap
    (fun d => journalRead (s.jours d))), ?_, ?_, ?_⟩
  · intro o ho
    obtain ⟨x, hx, hox⟩ := mem_filterMap.mp ho
    obtain ⟨d, hd, hx⟩ := mem_flatMap.mp hx
    rcases hkey.before d (mem_range.mp hd) x (hsub d hx) with hn | hc
    · rw [hn] at hox
      cases hox
    · rw [hc] at hox
      exact (Option.some.inj hox).symm
  · intro hne
    obtain ⟨o, ho⟩ := exists_mem_of_ne_nil _ hne
    obtain ⟨x, hx, hox⟩ := mem_filterMap.mp ho
    obtain ⟨d, hd, hx⟩ := mem_flatMap.mp hx
    exact ⟨d, mem_range.mp hd, x, hx, by rw [hox]; simp⟩
  rw [recovered_eq, hrep, hview, range_cut hblt]
  simp only [flatMap_append, flatMap_cons]
  unfold keyOps at hlater ⊢
  rw [filterMap_append, filterMap_append, hlater, List.append_nil, replay_append]

theorem keyOps_read_eq (hok : StoreOk s) (hbk : Books pathOf v0 s) (hlast : LastOk pathOf s)
    (hl : lastEvent s.hist k = some (.publish r a)) (hack : r.ver ∈ s.acked)
    (hnw : NotWiped s (baseDev s.cfg.nDevs k.1)) :
    keyOps k (journalRead (s.jours (baseDev s.cfg.nDevs k.1))) = baseOps s k := by
  have hj : JourOk (s.jours (baseDev s.cfg.nDevs k.1)) := by
    by_cases hfree : NotCleared s (baseDev s.cfg.nDevs k.1)
    · exact hok.jours.ok _ hfree
    simp only [NotCleared, not_forall, not_not] at hfree
    obtain ⟨p, hp⟩ := hfree
    cases p with
    | zero => exact hok.jours.whole _ hp
    | succ p => exact absurd hp (hnw p)
  unfold baseOps
  rw [← hj.read_append_unflushed, keyOps_append_none]
  intro x hx
  by_contra hk
  -- an unflushed operation would leave the put waiting
  obtain ⟨w, hw, hv, _, _⟩ := hlast.tail k r a hl hnw x hx hk
  exact (hbk.acked r.ver hack).2.2 w hw hv

/-- Recovery finds an acked put whose publish is the last event of its key. -/
theorem viewAt_recovered_of_acked (hP : PathFn pathOf) (hok : StoreOk s) (hbk : Books pathOf v0 s)
    (hb : Backing pathOf v0 s) (h : Registers pathOf v0 s ck) (hlast : LastOk pathOf s)
    (hl : lastEvent s.hist k = some (.publish r a)) (hack : r.ver ∈ s.acked) :
    viewAt pathOf s.recovered.idx k = some (putView a) := by
  have hkey := h.keys k
  have hlive := hlast.live k r a hl
  have hblt := baseDev_lt hok.cfg.devs k.1
  obtain ⟨pre, hpre, hearly, hrec⟩ := viewAt_recovered hP hok hbk hb h k
  have hearly' : pre ≠ [] → Early s k := by
    intro hne
    obtain ⟨d, hd, x, hx, hk⟩ := hearly hne
    exact ⟨d, hd, x, (hok.read_initial d).subset hx, hk⟩
  rw [replay_clears hpre] at hrec
  have hwrites : ∀ v, Op.write v ∈ baseOps s k → v0 < v.ver := fun v hv =>
    write_mem_keyOps hbk hb hv
  cases hphase : s.phase with
  | idle =>
    have hnw : NotWiped s (baseDev s.cfg.nDevs k.1) := fun p hp => by rw [hphase] at hp; cases hp
    rw [keyOps_read_eq hok hbk hlast hl hack hnw] at hrec
    obtain ⟨start, _, hv, hnone, hck⟩ := hkey.idle hphase
    rw [hrec, ← hlive, hv]
    by_cases hp : pre = []
    · rw [if_pos hp]
      by_cases he : Early s k
      · -- an old leaf was dropped early: the base journal does not see the checkpoint
        rw [hnone he]
        cases hc : viewAt pathOf ck k with
        | none => rfl
        | some u =>
          refine replay_of_older ?_ fun v hv' => ?_
          · intro hnil
            rw [hnil, hnone he, hlive] at hv
            cases hv
          · have := hkey.old hphase he u hc
            have := hwrites v hv'
            omega
      · rw [hck he]
    · rw [if_neg hp, hnone (hearly' hp)]
  | resetting d p =>
    have hsame := hkey.same d p hphase
    by_cases hunc : d < baseDev s.cfg.nDevs k.1 ∨ (d = baseDev s.cfg.nDevs k.1 ∧ p = 0)
    · -- the journal is still whole: replaying it again changes nothing
      have hnw : NotWiped s (baseDev s.cfg.nDevs k.1) := by
        intro p' hp'
        rw [hphase] at hp'
        cases hp'
        omega
      rw [keyOps_read_eq hok hbk hlast hl hack hnw] at hrec
      obtain ⟨start, hleg, hv, hnone⟩ := hkey.uncleared d p hphase hunc
      rw [hrec, ← hlive]
      by_cases hp : pre = []
      · rw [if_pos hp, hsame, hv]
        exact replay_replay hleg
      · rw [if_neg hp, hv, hnone (hearly' hp)]
    -- the journal is cleared, and so are the ones before it
    have hops : keyOps k (journalRead (s.jours (baseDev s.cfg.nDevs k.1))) = [] := by
      rcases Nat.lt_or_ge (baseDev s.cfg.nDevs k.1) d with hlt | hge
      · refine filterMap_eq_nil_iff.mpr fun x hx => ?_
        exact hkey.cleared d p hphase _ hlt x ((hok.read_initial _).subset hx)
      · obtain rfl : d = baseDev s.cfg.nDevs k.1 := by omega
        rw [(hok.jours.wiping _ p hphase).read_eq_nil (by omega)]
        rfl
    have hnil : pre = [] := by
      by_contra hne
      obtain ⟨d', hd', x, hx, hk⟩ := hearly hne
      exact hk (hkey.cleared d p hphase d' (by omega) x ((hok.read_initial _).subset hx))
    rw [hrec, hops, if_pos hnil, hsame, hlive, replay_nil]

/-! ## The theorem -/

/-- An open store whose leaves are under their own paths. -/
structure SingleStart (pathOf : UInt64 → Nat → Path) (s : Store) : Prop where
  opened : Opened s
  load : Loadable s.idx
  paths : OwnPaths pathOf s.idx
  vers : ∀ q lf, s.idx.tree.leafAt q = some lf → lf.ver ≤ s.verCounter

/-- All invariants of a run of single-copy puts. -/
theorem run_invariants (hP : PathFn pathOf) {s0 s : Store} {ls : List Label}
    (h0 : SingleStart pathOf s0)
    (hrun : RunOf Store.step (fun s l => SinglePut pathOf s l ∧ DropsEarly s l) s0 ls s)
    (hno : NoOverflow s) (hvers : s.verCounter < 2 ^ 32) :
    StoreOk s ∧ Books pathOf s0.verCounter s ∧ Backing pathOf s0.verCounter s ∧
      LastOk pathOf s ∧ ∃ ck, Registers pathOf s0.verCounter s ck := by
  have hinv : StoreOk s ∧ Storable s ∧ (NoOverflow s → s.verCounter < 2 ^ 32 →
      Books pathOf s0.verCounter s ∧ Backing pathOf s0.verCounter s ∧ LastOk pathOf s ∧
        ∃ ck, Registers pathOf s0.verCounter s ck) := by
    refine hrun.invariant (fun s => StoreOk s ∧ Storable s ∧
      (NoOverflow s → s.verCounter < 2 ^ 32 →
        Books pathOf s0.verCounter s ∧ Backing pathOf s0.verCounter s ∧ LastOk pathOf s ∧
          ∃ ck, Registers pathOf s0.verCounter s ck)) ?_ ?_
    · rintro s l s' ⟨hok, hst, hall⟩ ⟨hl, hdrop⟩ hstep
      have hshallow : ShallowPut l := by
        cases l with
        | put a => exact hl.2.2.2
        | publish | flush | ack | drop | trim | ckpt | reset => trivial
      refine ⟨hok.step hstep, hst.step hok hshallow hstep, fun hno' hver' => ?_⟩
      have hmono : s.verCounter ≤ s'.verCounter := by
        cases step_cases hstep with
        | put => exact Nat.le_succ _
        | putRejected | publish | publishRejected | flush | ack | drop | trim | ckpt | resetPage
        | resetDone => exact Nat.le_refl _
      obtain ⟨hbk, hb, hlast, ck, hreg⟩ := hall (hno'.of_step hok hstep) (by omega)
      exact ⟨hbk.step hok hl hver' hstep, hb.step hok hbk hstep, hlast.step hP hok hbk hb hstep,
        hreg.step hP hok hst hbk hb hdrop hno' hstep⟩
    have ho := h0.opened
    refine ⟨ho.ok, ⟨h0.load, by simp [ho.pending]⟩, fun _ _ => ⟨?_, ?_, ?_, s0.idx, ?_⟩⟩
    · refine ⟨Nat.le_refl _, ?_, ?_, ?_, ?_, ?_⟩
      · simp [ho.pending]
      · simp [ho.pending, ho.hist, histVers]
      · simp [ho.hist]
      · simp [ho.waiting]
      · simp [ho.acked]
    · refine ⟨h0.paths, ?_, ?_, ?_⟩
      · intro q lf hl
        exact Or.inl (h0.vers q lf hl)
      · intro q lf hl
        exact Or.inl (h0.vers q lf hl)
      · simp [ho.recs]
    · refine ⟨?_, ?_⟩
      · simp [ho.hist, lastEvent]
      · simp [ho.hist, lastEvent]
    refine ⟨ho.ckpt, h0.paths, fun q lf hl => Or.inl (h0.vers q lf hl), fun k => ?_⟩
    have hearly : ¬ Early s0 k := by
      rintro ⟨d, _, x, hx, _⟩
      simp [ho.recs] at hx
    have hops : baseOps s0 k = [] := by simp [baseOps, ho.recs, keyOps]
    refine ⟨by simp [ho.recs], by simp [ho.recs], fun _ => ?_, fun _ he => absurd he hearly,
      ?_, ?_, ?_⟩
    · rw [hops]
      exact ⟨viewAt pathOf s0.idx k, trivial, rfl, fun he => absurd he hearly, fun _ => rfl⟩
    · exact fun _ _ _ => rfl
    · intro d p hp
      rw [ho.idle] at hp
      cases hp
    · intro d p hp
      rw [ho.idle] at hp
      cases hp
  obtain ⟨hok, _, hall⟩ := hinv
  exact ⟨hok, hall hno hvers⟩

end Durability

/-- Crash durability of single-copy puts. From any store with a durable checkpoint and empty
journals, in any run of single-copy puts, flushes, drops, trims and checkpoints whose drops are
journaled no later than the base device of their key, wherever it stops: a put that was accepted and
acknowledged, and is the last event of its key, is recovered with its version, address, expiry,
checksum and record lengths. -/
theorem acked_put_recovered {pathOf : UInt64 → Nat → Path} (hP : PathFn pathOf) {s0 s : Store}
    {ls : List Label} (h0 : SingleStart pathOf s0)
    (hrun : RunOf Store.step (fun s l => SinglePut pathOf s l ∧ DropsEarly s l) s0 ls s)
    (hno : NoOverflow s) (hvers : s.verCounter < 2 ^ 32) {r : PutReq} {a : PublishArgs}
    (hlast : lastEvent s.hist (r.prefixId, r.groupIdx) = some (.publish r a))
    (hack : r.ver ∈ s.acked) (hrec : r.shape.lens ≠ []) :
    ∃ lf, s.recovered.idx.tree.leafAt (pathOf r.prefixId r.groupIdx) = some lf ∧
      lf.ver = r.ver ∧ lf.prefixId = r.prefixId ∧ untimed lf.addr0 = untimed a.addr ∧
      lf.addr1.devId = invalidDev ∧ lf.stripe = none ∧
      lf.shape.map (·.lens) = some r.shape.lens := by
  obtain ⟨hok, hbk, hb, hlo, ck, hreg⟩ := run_invariants hP h0 hrun hno hvers
  have hview := viewAt_recovered_of_acked hP hok hbk hb hreg hlo hlast hack
  obtain ⟨lf, hl, he⟩ := map_eq_some_iff.mp hview
  have hev := (hbk.hist r a (lastEvent_key hlast).1).1
  simp only [leafView, putView, LeafView.mk.injEq] at he
  obtain ⟨h1, h2, h3, h4, h5, h6⟩ := he
  refine ⟨lf, hl, h1.trans hev.ver, h2.trans hev.key.1, h3, ?_, h5, ?_⟩
  · exact congrArg KvAddr.devId h4
  rw [hev.lens] at h6
  cases hsh : lf.shape with
  | none =>
    rw [hsh] at h6
    exact absurd h6.symm hrec
  | some sh =>
    rw [hsh] at h6
    simpa [lensOf] using h6

/-! ## A run that meets the condition, and one that does not -/

theorem singleStart_format {cfg : Config} (hcfg : ConfigOk cfg) (pathOf : UInt64 → Nat → Path) :
    SingleStart pathOf (Store.format cfg) where
  opened := opened_format hcfg
  load := loadable_empty
  paths p g q h := by simp [Store.format, Index.empty] at h
  vers q lf h := by simp [Store.format, Index.empty] at h

/-- A put that is published, flushed and acknowledged. -/
def ackedRun : List Label := [.put smallPut, .publish 0 64 5 1, .flush 0, .ack 1]

def smallReq (ver : Nat) : PutReq := plainReq twoDevs smallPut ver ⟨0, [100]⟩ Flags.empty 0

/-- The put of this run is recovered. -/
theorem acked_small_put_recovered :
    ∃ s, (Store.format twoDevs).run ackedRun = some s ∧
      ∃ lf, s.recovered.idx.tree.leafAt [7] = some lf ∧ lf.ver = 1 ∧ lf.prefixId = 0 ∧
        untimed lf.addr0 = untimed ((smallReq 1).args 64 5 1).addr ∧
        lf.addr1.devId = invalidDev ∧ lf.stripe = none ∧
        lf.shape.map (·.lens) = some [100] := by
  refine ⟨_, rfl, ?_⟩
  refine @acked_put_recovered samplePath pathFn_samplePath (Store.format twoDevs) _ ackedRun
    (singleStart_format ⟨by decide, by decide, by decide⟩ samplePath) ?_ ?_ ?_
    (smallReq 1) ((smallReq 1).args 64 5 1) ?_ ?_ ?_
  · have hpair : True ∧ True := ⟨trivial, trivial⟩
    exact .cons ⟨⟨by decide, by decide, by decide, by decide⟩, trivial⟩ rfl
      (.cons hpair rfl (.cons hpair rfl (.cons hpair rfl (.nil _))))
  · intro d
    rcases d with _ | _ | d <;> rfl
  · decide
  · decide +kernel
  · decide
  · decide

def movedLeaf : RadixLeaf where
  refcnt := 0
  ver := 1
  prefixId := 0
  addr0 := ⟨1, 64, 0, 1, 0, 0, 5⟩
  addr1 := KvAddr.none
  stripe := none
  shape := some ⟨0, [100]⟩

/-- An index with that leaf only. -/
def movedIndex : Index := ⟨.edge 7 (some movedLeaf) .nil .nil, [⟨0, 0, [7]⟩], [⟨0, [100]⟩], 1, false⟩

/-- A store that was opened with that index. -/
def movedStore : Store :=
  { Store.format twoDevs with
    idx := movedIndex
    ckpt := some (ckptWrite movedIndex 1 2 2 64)
    verCounter := 1 }

theorem leafAt_movedIndex {q : Path} {lf : RadixLeaf} (h : movedIndex.tree.leafAt q = some lf) :
    q = [7] ∧ lf = movedLeaf := by
  unfold Trie.leafAt movedIndex at h
  cases q with
  | nil => simp at h
  | cons x q =>
    simp only [Trie.node?_edge_cons, Trie.node?_nil] at h
    split at h
    · rename_i hx
      split at h
      · rename_i hq
        simp only [join_some, Option.some.injEq] at h
        exact ⟨by rw [hx, hq], h.symm⟩
      · simp at h
    · simp at h

theorem sideGet_movedIndex {p : UInt64} {g : Nat} {q : Path}
    (h : sideGet movedIndex.side p g = some q) : p = 0 ∧ g = 0 ∧ q = [7] := by
  simp only [movedIndex, sideGet, List.find?_cons, List.find?_nil] at h
  split at h
  · rename_i hb
    simp only [Bool.and_eq_true, beq_iff_eq] at hb
    simp only [map_some, Option.some.injEq] at h
    exact ⟨hb.1.symm, hb.2.symm, h.symm⟩
  · simp at h

theorem sideOk_movedIndex : SideOk movedIndex where
  distinct := by simp [movedIndex, Trie.Distinct, Trie.hashes]
  node p g q h := by
    obtain ⟨_, _, rfl⟩ := sideGet_movedIndex h
    decide
  len p g q h := by
    obtain ⟨_, rfl, rfl⟩ := sideGet_movedIndex h
    rfl
  leaf q lf h := by
    obtain ⟨rfl, rfl⟩ := leafAt_movedIndex h
    decide

theorem loadable_movedIndex : Loadable movedIndex where
  height := by decide
  pool := by
    have : PoolOk (shapePoolIntern [] [100]).1 := PoolOk.nil.intern (by decide)
    exact this
  shape q lf h sh hsh := by
    obtain ⟨rfl, rfl⟩ := leafAt_movedIndex h
    cases hsh
    simp [movedIndex]

theorem singleStart_movedStore : SingleStart samplePath movedStore where
  opened := by
    have h := opened_twoDevs
    refine ⟨h.ok.congr rfl sideOk_movedIndex (by simp [movedStore, Store.format]) rfl rfl, ?_, rfl,
      h.recs, rfl, rfl, rfl, rfl⟩
    exact loadedFrom_sideBuild sideOk_movedIndex loadable_movedIndex 1 2 2 64
  load := loadable_movedIndex
  paths p g q h := by
    obtain ⟨rfl, rfl, rfl⟩ := sideGet_movedIndex h
    rfl
  vers q lf h := by
    obtain ⟨_, rfl⟩ := leafAt_movedIndex h
    decide

def lostRun : List Label := [.drop [7], .put smallPut, .publish 0 80 6 2, .flush 0, .ack 2, .flush 1]

/-- An acknowledged put is lost: its PUT is in journal 0, and the DEL of the leaf before it in
journal 1, which is replayed later. -/
theorem acked_put_lost : PathFn samplePath ∧ SingleStart samplePath movedStore ∧
    ∃ s, RunOf Store.step (SinglePut samplePath) movedStore lostRun s ∧ NoOverflow s ∧
      s.verCounter < 2 ^ 32 ∧
      lastEvent s.hist (0, 0) = some (.publish (smallReq 2) ((smallReq 2).args 80 6 2)) ∧
      2 ∈ s.acked ∧ (smallReq 2).shape.lens ≠ [] ∧
      s.recovered.idx.tree.leafAt (samplePath 0 0) = none := by
  refine ⟨pathFn_samplePath, singleStart_movedStore, ?_⟩
  refine ⟨_, .cons trivial rfl (.cons ⟨by decide, by decide, by decide, by decide⟩ rfl
    (.cons trivial rfl (.cons trivial rfl (.cons trivial rfl (.cons trivial rfl (.nil _)))))),
    ?_, ?_, ?_, ?_, ?_, ?_⟩
  · intro d
    rcases d with _ | _ | d <;> rfl
  · decide
  · decide +kernel
  · decide
  · decide
  · decide +kernel

end KvTier.Analysis
