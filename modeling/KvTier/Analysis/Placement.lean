import KvTier.Analysis.Acks
import KvTier.Analysis.RegionFacts
import KvTier.Model.Placement

/-!
# Whether a batch stays in its region

`writer_submit_batch` tests whether a batch fits behind the cursor, and rotates if it does not.
-/

namespace KvTier.Analysis

open Function KvTier.Lib KvTier.Model List

/-! ## The accepted configurations -/

theorem orDefault_pos {x dflt : Nat} (h : 0 < dflt) : 0 < orDefault x dflt := by
  unfold orDefault
  split <;> omega

theorem regionCnt_pos {k : Option KvConfig} {n : Nat} {devPages : Option Nat} {cfg : WriterConfig}
    (h : cacheOpenConfig k n devPages = some cfg) : 0 < cfg.regionCnt := by
  unfold cacheOpenConfig at h
  simp only at h
  split at h
  · split at h
    · cases h
    · cases h
      exact orDefault_pos (by decide)
  · cases h

/-! ## What a submission does -/

section Submit

variable {s s' : Placing} {d now : Nat}

/-- A submission places its batch, rotates and places it, or finds no room. -/
theorem submit_cases (h : s.submit d now = some s') :
    (s'.writes = s.writes ∧ ∃ room, s.ws.step (.submit d room) = some s'.ws ∧
      (((s.ws.shards d).cur.reqs = [] ∧ s'.sp = s.sp) ∨
        (room = false ∧ s.sp.cfg.regionSizePages <
            (s.sp.cur d).nextPage + batchPages (s.ws.shards d).cur.reqs ∧
          NextCase (s.sp.freeze d now) d s'.sp none))) ∨
    ∃ sp w, s.ws.step (.submit d true) = some s'.ws ∧ s'.writes = s.writes ++ [w] ∧
      w.reqs = (s.ws.shards d).cur.reqs ∧
      (s'.sp, w) = Placing.place sp d (batchPages w.reqs) w.reqs ∧
      ((sp = s.sp ∧ (sp.cur d).nextPage + batchPages w.reqs ≤ sp.cfg.regionSizePages) ∨
        (s.sp.cfg.regionSizePages < (s.sp.cur d).nextPage + batchPages w.reqs ∧
          ∃ s1 next, NextCase (s.sp.freeze d now) d s1 (some next) ∧
            sp = s1.openRegion d next now)) := by
  unfold Placing.submit at h
  simp only at h
  split at h
  · rename_i hnil
    obtain ⟨ws, hws, rfl⟩ := Option.map_eq_some_iff.mp h
    exact Or.inl ⟨rfl, true, hws, Or.inl ⟨hnil, rfl⟩⟩
  obtain ⟨⟨sp, room⟩, hroom, h⟩ := Option.bind_eq_some_iff.mp h
  obtain ⟨ws, hws, h⟩ := Option.bind_eq_some_iff.mp h
  unfold Placing.makeRoom at hroom
  cases room with
  | false =>
    cases h
    split at hroom
    · rename_i hover
      rcases freezeAndRotate_cases hroom with ⟨_, hnext⟩ | ⟨_, _, hok, _⟩
      · exact Or.inl ⟨rfl, false, hws, Or.inr ⟨rfl, hover, hnext⟩⟩
      · cases hok
    · cases hroom
  | true =>
    cases h
    refine Or.inr ⟨sp, _, hws, rfl, rfl, rfl, ?_⟩
    split at hroom
    · rename_i hover
      rcases freezeAndRotate_cases hroom with ⟨hok, _⟩ | ⟨s1, next, _, hnext, rfl⟩
      · cases hok
      · exact Or.inr ⟨hover, s1, next, hnext, rfl⟩
    · rename_i hfits
      cases hroom
      exact Or.inl ⟨rfl, Nat.le_of_not_lt hfits⟩

end Submit

/-! ## Every write of every run -/

/-- Writes are inside their region exactly if they fit one. -/
structure PlacingOk (cfg : WriterConfig) (s : Placing) : Prop where
  wsCfg : s.ws.cfg = cfg
  spCfg : s.sp.cfg = cfg.toConfig
  cursor : ∀ d, d < cfg.nDevs → 1 ≤ (s.sp.cur d).nextPage ∧ (s.sp.cur d).region < cfg.regionCnt
  writes : ∀ w ∈ s.writes, w.Inside cfg.toConfig ↔ batchPages w.reqs + 1 ≤ cfg.regionSizePages

theorem cfg_writers_step {s s' : Writers} {l : WLabel} (h : s.step l = some s') :
    s'.cfg = s.cfg := by
  rcases writers_step_cases h with ⟨a, ver, shape, _, rfl⟩ | ⟨i, _, hpush⟩ | ⟨d, _, _, hw⟩
  · unfold Writers.put
    simp only
    split
    · rfl
    · split <;> rfl
  · obtain ⟨r, todo, _, _, _, rfl⟩ := push_cases hpush
    rfl
  · obtain ⟨w', gone, _, heq, _⟩ := hw
    rw [heq]
    rfl

theorem lt_of_submit {s s' : Writers} {d : Nat} {room : Bool}
    (h : s.step (.submit d room) = some s') : d < s.cfg.nDevs := by
  rcases writers_step_cases h with ⟨_, _, _, hl, _⟩ | ⟨_, hl, _⟩ | ⟨d', hd, hl, _⟩
  · cases hl
  · cases hl
  · cases hl
    exact hd

section Step

variable {cfg : WriterConfig} {s s' : Placing}

theorem PlacingOk.submit (h : PlacingOk cfg s) (hcnt : 0 < cfg.regionCnt) {d now : Nat}
    (hs : s.submit d now = some s') : PlacingOk cfg s' := by
  rcases submit_cases hs with ⟨hwr, room, hws, hsp⟩ | ⟨sp, w, hws, hwr, hreqs, hplace, hsp⟩
  · have hcfg : s'.ws.cfg = cfg := (cfg_writers_step hws).trans h.wsCfg
    rcases hsp with ⟨_, hsp⟩ | ⟨_, _, hnext⟩
    · exact ⟨hcfg, by rw [hsp]; exact h.spCfg, by rw [hsp]; exact h.cursor, by
        rw [hwr]; exact h.writes⟩
    refine ⟨hcfg, hnext.cfg.trans h.spCfg, ?_, by rw [hwr]; exact h.writes⟩
    intro d' hd'
    rw [hnext.cur]
    exact h.cursor d' hd'
  have hd : d < cfg.nDevs := h.wsCfg ▸ lt_of_submit hws
  -- the cursor the batch is placed at
  have hcur : sp.cfg = cfg.toConfig ∧ 1 ≤ (sp.cur d).nextPage ∧
      (sp.cur d).region < cfg.regionCnt ∧ (∀ d', d' ≠ d → sp.cur d' = s.sp.cur d') ∧
      ((sp.cur d).nextPage + batchPages w.reqs ≤ cfg.regionSizePages ↔
        batchPages w.reqs + 1 ≤ cfg.regionSizePages) := by
    have hc := h.cursor d hd
    rcases hsp with ⟨rfl, hfits⟩ | ⟨hover, s1, next, hnext, rfl⟩
    · rw [h.spCfg] at hfits
      refine ⟨h.spCfg, hc.1, hc.2, fun _ _ => rfl, ?_⟩
      omega
    have hlt : next < s.sp.cfg.regionCnt := hnext.lt (by rw [Space.cfg_freeze, h.spCfg]; exact hcnt)
    rw [h.spCfg] at hlt
    refine ⟨(Space.cfg_openRegion ..).trans (hnext.cfg.trans h.spCfg), ?_, ?_, ?_, ?_⟩
    · simp [Space.cur_openRegion]
    · simpa [Space.cur_openRegion] using hlt
    · intro d' hd'
      rw [Space.cur_openRegion, if_neg hd', hnext.cur]
      rfl
    · simp [Space.cur_openRegion, Nat.add_comm]
  obtain ⟨hspc, hpos, hreg, hothers, hiff⟩ := hcur
  obtain ⟨hsp', hw⟩ := Prod.mk.inj hplace
  refine ⟨(cfg_writers_step hws).trans h.wsCfg, ?_, ?_, ?_⟩
  · rw [hsp']
    exact hspc
  · intro d' hd'
    rw [hsp']
    by_cases hdd : d' = d
    · subst hdd
      simp only [update_self]
      exact ⟨by omega, hreg⟩
    · simp only [update_of_ne hdd, hothers d' hdd]
      exact h.cursor d' hd'
  intro w' hw'
  rw [hwr, mem_append, mem_singleton] at hw'
  rcases hw' with hw' | rfl
  · exact h.writes w' hw'
  -- the fields of the write, then the arithmetic
  have hregion : w'.region = (sp.cur d).region := by rw [hw]
  have hstart : w'.start = pageBase cfg.toConfig (sp.cur d).region + (sp.cur d).nextPage := by
    rw [hw, hspc]
  have hnp : w'.npages = batchPages w'.reqs := by
    nth_rewrite 1 [hw]
    rfl
  unfold Write.Inside
  rw [hregion, hstart, hnp, ← hiff]
  constructor
  · rintro ⟨_, _, hend⟩
    omega
  · intro hend
    exact ⟨hreg, by omega, by omega⟩

end Step

/-! ## How large a request gets -/

theorem dataLen_cachePutReqs_le {cfg : Config} {a : PutArgs} {ver : Nat} {shape : Shape}
    {reqs : List PutReq} (h : cachePutReqs cfg a ver shape = some reqs) :
    ∀ r ∈ reqs, r.dataLen ≤ max cfg.stripeThreshold cfg.stripeUnit := by
  have hplain : ∀ flags slot, a.lens.sum ≤ cfg.stripeThreshold % 2 ^ 32 →
      (plainReq cfg a ver shape flags slot).dataLen ≤ max cfg.stripeThreshold cfg.stripeUnit := by
    intro flags slot hle
    have h1 : a.lens.sum % 2 ^ 32 ≤ a.lens.sum := Nat.mod_le _ _
    have h2 : cfg.stripeThreshold % 2 ^ 32 ≤ cfg.stripeThreshold := Nat.mod_le _ _
    simp only [plainReq]
    omega
  unfold cachePutReqs at h
  split at h
  · cases h
  split at h
  · simp only at h
    split at h
    · cases h
    split at h
    · cases h
    cases h
    intro r hr
    obtain ⟨part, _, rfl⟩ := mem_map.mp hr
    have h1 : sliceLen cfg.stripeUnit (a.lens.sum % 2 ^ 32) part ≤ cfg.stripeUnit :=
      (Nat.mod_le _ _).trans (Nat.min_le_left _ _)
    simp only [stripeReq]
    omega
  rename_i hthr
  have hle := Nat.le_of_not_lt hthr
  split at h
  · cases h
    intro r hr
    obtain ⟨slot, _, rfl⟩ := mem_map.mp hr
    exact hplain _ _ hle
  cases h
  intro r hr
  rw [mem_singleton] at hr
  subst hr
  exact hplain _ _ hle

/-! ## Requests on their way to a batch -/

/-- Every request that is not in a batch satisfies `Q`. -/
structure PendingAll (Q : PutReq → Prop) (s : Writers) : Prop where
  ring : ∀ d, ∀ q ∈ (s.shards d).ring, Q q.req
  hand : ∀ d, ∀ q ∈ (s.shards d).pc.hand, Q q.req
  todo : ∀ i, ∀ r ∈ (s.status i).todo, Q r

section Pending

variable {Q : PutReq → Prop}

theorem PendingAll.start (Q : PutReq → Prop) (cfg : WriterConfig) :
    PendingAll Q (Writers.start cfg) where
  ring d := by simp [Writers.start]
  hand d := by simp [Writers.start, Pc.hand]
  todo i r hr := by simp [Writers.start, PutStatus.todo] at hr

theorem ShardStep.pending {cfg : WriterConfig} {w w' : Shard} {l : WLabel} {gone : List QReq}
    (h : ShardStep cfg w l w' gone) (hring : ∀ q ∈ w.ring, Q q.req)
    (hhand : ∀ q ∈ w.pc.hand, Q q.req) :
    (∀ q ∈ w'.ring, Q q.req) ∧ ∀ q ∈ w'.pc.hand, Q q.req := by
  have hnone : ∀ q ∈ ([] : List QReq), Q q.req := by simp
  cases h with
  | @pop d r ring hpc hr | @next d r ring hpc hr =>
    rw [hr] at hring
    obtain ⟨hfirst, hrest⟩ := forall_mem_cons.1 hring
    exact ⟨hrest, forall_mem_singleton.2 hfirst⟩
  | poll hpc => exact ⟨hring, hhand⟩
  | full hpc hfull => exact ⟨hring, hnone⟩
  | first hpc =>
    rw [hpc] at hhand
    exact ⟨hring, hhand⟩
  | dry hpc => exact ⟨hring, hnone⟩
  | add hpc hfits => exact ⟨hring, hnone⟩
  | @back d r hpc hfits hroom =>
    rw [hpc] at hhand
    refine ⟨fun q hq => ?_, hnone⟩
    rcases mem_append.1 hq with hq | hq
    · exact hring q hq
    · exact hhand q hq
  | lose hpc hfits hroom => exact ⟨hring, hnone⟩
  | skip hpc hreqs => exact ⟨hring, hnone⟩
  | submit hpc hbusy hreqs => exact ⟨hring, hnone⟩
  | refuse hpc hbusy hreqs => exact ⟨hring, hnone⟩
  | swap hpc hbusy => exact ⟨hring, hnone⟩
  | reapCur hbusy => exact ⟨hring, hhand⟩
  | reapOther hbusy => exact ⟨hring, hhand⟩

theorem PendingAll.step {s s' : Writers} {l : WLabel} (h : PendingAll Q s)
    (hput : ∀ a ver shape reqs, cachePutReqs s.cfg.toConfig a ver shape = some reqs →
      ∀ r ∈ reqs, Q r) (hst : s.step l = some s') : PendingAll Q s' := by
  rcases writers_step_cases hst with ⟨a, ver, shape, _, rfl⟩ | ⟨i, _, hpush⟩ | ⟨d, hd, _, hw⟩
  · have hadd : ∀ (st : PutStatus) (c : Latch AckErr), (∀ r ∈ st.todo, Q r) →
        PendingAll Q (s.addPut st c) := by
      intro st c hnew
      refine ⟨h.ring, h.hand, fun i r hr => ?_⟩
      simp only [Writers.addPut, update_apply] at hr
      split at hr
      · exact hnew r hr
      · exact h.todo i r hr
    unfold Writers.put
    simp only
    split
    · exact hadd _ _ (fun r hr => by cases hr)
    split
    · exact hadd _ _ (fun r hr => by cases hr)
    · rename_i reqs hreqs
      exact hadd _ _ (hput a ver shape reqs hreqs)
  · obtain ⟨r, todo, hstatus, _, _, rfl⟩ := push_cases hpush
    have hall : ∀ r' ∈ r :: todo, Q r' := by
      intro r' hr'
      exact h.todo i r' (by rw [hstatus]; exact hr')
    obtain ⟨hfirst, hrest⟩ := forall_mem_cons.1 hall
    refine ⟨fun d q hq => ?_, fun d q hq => ?_, fun j r' hr' => ?_⟩
    · simp only [Writers.pushed, Writers.setShard, update_apply] at hq
      split at hq
      · rcases mem_append.1 hq with hq | hq
        · exact h.ring _ q hq
        · obtain rfl := mem_singleton.1 hq
          exact hfirst
      · exact h.ring d q hq
    · simp only [Writers.pushed, Writers.setShard, update_apply] at hq
      split at hq
      · exact h.hand _ q hq
      · exact h.hand d q hq
    simp only [Writers.pushed, update_apply] at hr'
    split at hr'
    · rw [(after_cases todo).1] at hr'
      exact hrest r' hr'
    · exact h.todo j r' hr'
  obtain ⟨w', gone, hstep, heq, _⟩ := hw
  obtain ⟨hring, hhand⟩ := hstep.pending (h.ring d) (h.hand d)
  rw [heq]
  refine ⟨fun d' => ?_, fun d' => ?_, h.todo⟩
  · simp only [Writers.setShard, update_apply]
    split
    · exact hring
    · exact h.ring d'
  simp only [Writers.setShard, update_apply]
  split
  · exact hhand
  · exact h.hand d'

end Pending

/-! ## A configuration -/

theorem defaultBatch_pos : 0 < 256 * 1024 := by decide

/-- One device with regions of 64 pages and defaults else. -/
def smallRegions : WriterConfig where
  nDevs := 1
  regionCnt := 6
  regionSizePages := 64
  journalPages := 512
  stripeThreshold := 1024 * 1024
  stripeUnit := 256 * 1024
  maxLayers := 256
  batchMinBytes := 256 * 1024
  devsPos := Nat.one_pos
  minPos := defaultBatch_pos

end KvTier.Analysis
