import KvTier.Analysis.SessionFacts

/-!
# Versions over the life of a store

A put takes the next number of a 64-bit counter, cut to 32 bits, as its version.
-/

namespace KvTier.Analysis

open KvTier.Lib KvTier.Model List Option

/-- The version the next put takes. -/
def nextVer (s : Store) : Nat := (s.verCounter + 1) % 2 ^ 32

/-- The leaf of a first publish. -/
def freshLeaf (a : PublishArgs) : RadixLeaf :=
  if a.flags.stripe then newStripeLeaf a else newPlainLeaf a

theorem ver_freshLeaf (a : PublishArgs) : (freshLeaf a).ver = a.ver := by
  unfold freshLeaf
  split_ifs
  · rfl
  · exact ver_newPlainLeaf a

/-- The put replaces the leaf and is found. -/
structure PutWins (lf : RadixLeaf) (a : PublishArgs) : Prop where
  nonzero : (freshLeaf a).ver ≠ 0
  greater : lf.ver < a.ver
  accepted : (leafPublish (some lf) a).accepted = true
  leaf : (leafPublish (some lf) a).leaf = some (freshLeaf a)

theorem putWins_iff (lf : RadixLeaf) (a : PublishArgs) : PutWins lf a ↔ lf.ver < a.ver := by
  refine ⟨PutWins.greater, fun hlt => ?_⟩
  have hgt : ¬ lf.ver > a.ver := by omega
  have hne : lf.ver ≠ a.ver := by omega
  refine ⟨by rw [ver_freshLeaf]; omega, hlt, ?_, ?_⟩
  all_goals
    by_cases hs : a.flags.stripe = true
    · simp [leafPublish, freshLeaf, hs, hgt, hne]
    · simp [leafPublish, freshLeaf, hs, hgt, hne]

/-! ## No version is above the counter -/

/-- Versions are at most the counter. -/
structure VersOk (s : Store) : Prop where
  leaf : ∀ q lf, s.idx.tree.leafAt q = some lf → lf.ver ≤ s.verCounter
  pending : ∀ r ∈ s.pending, r.ver ≤ s.verCounter

section Step

variable {s s' : Store}

theorem VersOk.congr (h : VersOk s) (hidx : s'.idx = s.idx) (hpend : s'.pending = s.pending)
    (hver : s'.verCounter = s.verCounter) : VersOk s' := by
  refine ⟨?_, ?_⟩
  · rw [hidx, hver]
    exact h.leaf
  · rw [hpend, hver]
    exact h.pending

theorem VersOk.afterPublish (h : VersOk s) {i : Nat} {r : PutReq} (hr : s.pending[i]? = some r)
    (page crc now : Nat) : VersOk (afterPublish s i r (r.args page crc now)) := by
  refine ⟨fun q lf hlf => ?_, fun r' hr' => h.pending r' (mem_of_mem_eraseIdx hr')⟩
  have hold : ∀ q lf, (resolvedIdx s r).tree.leafAt q = some lf → lf.ver ≤ s.verCounter := by
    intro q lf hlf
    exact h.leaf q lf (by rwa [resolvedIdx, leafAt_resolveNode] at hlf)
  rcases leafAt_publish_from hlf with ⟨-, hnew⟩ | hlf
  · rcases ver_leafPublish _ _ lf hnew with hver | ⟨lf0, hlf0, hver⟩
    · exact hver.trans_le (h.pending r (mem_of_getElem? hr))
    · exact hver.trans_le (hold _ lf0 hlf0)
  · exact hold q lf hlf

/-- One step of the open cache. -/
theorem VersOk.step {l : Label} (h : VersOk s) (hstep : s.step l = some s') : VersOk s' := by
  cases step_cases hstep with
  | putRejected a => exact h
  | put a reqs _ _ _ hreqs =>
    refine ⟨fun q lf hlf => Nat.le_succ_of_le (h.leaf q lf hlf), fun r hr => ?_⟩
    rcases mem_append.1 hr with hr | hr
    · exact Nat.le_succ_of_le (h.pending r hr)
    · rw [hreqs] at hr
      rw [(mem_cachePutReqs hr).2.2.1]
      exact Nat.mod_le _ _
  | publish i page crc now r _ hr _ => exact (h.afterPublish hr page crc now).congr rfl rfl rfl
  | publishRejected i page crc now r _ hr _ => exact h.afterPublish hr page crc now
  | flush d _ _ | ack v _ _ _ | trim d _ _ _ _ | ckpt _ | resetPage d p _ _ | resetDone d p _ _ =>
    exact h.congr rfl rfl rfl
  | drop node lf _ _ _ _ =>
    refine ⟨fun q lf' hlf' => ?_, h.pending⟩
    change (s.idx.drop node).tree.leafAt q = some lf' at hlf'
    rw [leafAt_drop] at hlf'
    split_ifs at hlf'
    exact h.leaf q lf' hlf'

end Step

theorem ver_le_maxLeafVer {t : Radix} (ht : t.Distinct) {q : Path} {lf : RadixLeaf}
    (h : t.leafAt q = some lf) : lf.ver ≤ maxLeafVer t := by
  have hmem : lf.ver ∈ (t.entries []).map (·.2.ver) :=
    List.mem_map.2 ⟨(q, lf), (Trie.mem_entries_root t ht q lf).2 h, rfl⟩
  have hfold : ∀ (l : List Nat) (m : Nat), m ≤ l.foldl max m ∧ ∀ x ∈ l, x ≤ l.foldl max m := by
    intro l
    induction l with
    | nil => exact fun m => ⟨le_refl m, by simp⟩
    | cons y l ih =>
      intro m
      obtain ⟨hm, hall⟩ := ih (max m y)
      refine ⟨(le_max_left m y).trans hm, fun x hx => ?_⟩
      rcases mem_cons.1 hx with rfl | hx
      · exact (le_max_right m x).trans hm
      · exact hall x hx
  exact (hfold _ 0).2 _ hmem

structure SessionVersOk (s : Session) : Prop where
  vers : s.opening = none ∨ s.store.phase ≠ .idle → VersOk s.store
  queued : s.opening ≠ none → s.store.pending = []

theorem SessionVersOk.openStep {s s' : Session} {l : Label} {maxVer : Nat}
    (hopen : s.opening = some maxVer) (hok : SessionOk s.store) (h : SessionVersOk s)
    (hstep : Session.openStep s.store maxVer l = some s') : SessionVersOk s' := by
  have hnone : s.store.pending = [] := h.queued (by rw [hopen]; exact some_ne_none _)
  unfold Session.openStep at hstep
  split at hstep
  · -- A drop comes before the checkpoint: nothing is known of the counter yet.
    obtain ⟨s₁, hs, rfl⟩ := map_eq_some_iff.1 hstep
    cases step_cases hs with
    | drop node lf hidle _ _ _ =>
      refine ⟨?_, fun _ => hnone⟩
      rintro (hno | hphase)
      · cases hno
      · exact absurd hidle hphase
  · obtain ⟨s₁, hs, rfl⟩ := map_eq_some_iff.1 hstep
    have hvers : VersOk { s.store with
        verCounter := max maxVer (maxLeafVer s.store.idx.tree) + 1 } := by
      refine ⟨fun q lf hlf => ?_, fun r hr => ?_⟩
      · have hle := ver_le_maxLeafVer hok.index.side.distinct hlf
        exact hle.trans ((le_max_right _ _).trans (Nat.le_succ _))
      · rw [show _ = _ from hnone] at hr
        cases hr
    refine ⟨fun _ => hvers.step hs, fun _ => ?_⟩
    cases step_cases hs with
    | ckpt _ => exact hnone
  · obtain ⟨s₁, hs, rfl⟩ := map_eq_some_iff.1 hstep
    have hreset : s.store.phase ≠ .idle ∧ s₁.pending = s.store.pending := by
      cases step_cases hs with
      | resetPage d p hphase _ | resetDone d p hphase _ => exact ⟨by simp [hphase], rfl⟩
    exact ⟨fun _ => (h.vers (.inr hreset.1)).step hs, fun _ => hreset.2.trans hnone⟩
  · cases hstep

/-- One step of any session. -/
theorem SessionVersOk.step {s s' : Session} {l : SessionLabel} (hok : SessionOk s.store)
    (h : SessionVersOk s) (hstep : s.step l = some s') : SessionVersOk s' := by
  cases l with
  | reopen cfg =>
    cases hstep
    unfold Session.reopen
    split_ifs
    · refine ⟨?_, fun _ => rfl⟩
      rintro (hopen | hphase)
      · cases hopen
      · exact absurd rfl hphase
    · exact ⟨fun _ => ⟨fun q lf hlf => by simp [Store.format, Index.empty] at hlf,
        fun r hr => by simp [Store.format] at hr⟩, fun hno => absurd rfl hno⟩
  | op l =>
    simp only [Session.step] at hstep
    split at hstep
    · rename_i hopen
      obtain ⟨s₁, hs, rfl⟩ := map_eq_some_iff.1 hstep
      exact ⟨fun _ => (h.vers (.inl hopen)).step hs, fun hno => absurd rfl hno⟩
    · rename_i maxVer hopen
      exact h.openStep hopen hok hstep

theorem SessionRun.vers {cfg : Config} {ls : List SessionLabel} {s : Session} (hcfg : ConfigOk cfg)
    (hrun : SessionRun cfg ls s) (hopen : s.opening = none) : VersOk s.store := by
  have hinv := RunOf.invariant (fun s : Session => SessionOk s.store ∧ SessionVersOk s)
    (fun _ _ _ h hl hs => ⟨h.1.session_step hl hs, h.2.step h.1 hs⟩) hrun
    ⟨SessionOk.format hcfg, ⟨fun _ => ⟨fun q lf hlf => by
      simp [Session.format, Store.format, Index.empty] at hlf,
        fun r hr => by simp [Session.format, Store.format] at hr⟩, fun hno => absurd rfl hno⟩⟩
  exact hinv.2.vers (.inl hopen)

/-! ## Later puts -/

/-- When a later put wins. In every state of every history of sessions, let a put be taken
while the node of its key has a leaf. -/
theorem later_put_wins_iff (cfg : Config) (ls : List SessionLabel) (s : Session) (a : PutArgs)
    (s' : Store) (reqs : List PutReq) (r : PutReq) (lf : RadixLeaf) (page crc now : Nat)
    (hcfg : ConfigOk cfg) (hrun : SessionRun cfg ls s) (hopen : s.opening = none)
    (hput : s.store.step (.put a) = some s') (hreqs : s'.pending = s.store.pending ++ reqs)
    (hr : r ∈ reqs) (hlf : s.store.idx.tree.leafAt (resolvedNode s.store r) = some lf) :
    (PutWins lf (r.args page crc now) ↔ lf.ver < nextVer s.store) ∧
      (s.store.verCounter + 1 < 2 ^ 32 → PutWins lf (r.args page crc now)) := by
  have hver : r.ver = nextVer s.store := by
    cases step_cases hput with
    | putRejected _ =>
      rw [append_right_eq_self.1 hreqs.symm] at hr
      cases hr
    | put _ reqs' _ _ _ hreqs' =>
      obtain rfl : reqs' = reqs := append_cancel_left hreqs
      rw [hreqs'] at hr
      exact (mem_cachePutReqs hr).2.2.1
  have hiff : PutWins lf (r.args page crc now) ↔ lf.ver < nextVer s.store := by
    rw [putWins_iff, ← hver]
    rfl
  refine ⟨hiff, fun hsmall => hiff.2 ?_⟩
  have hle := (hrun.vers hcfg hopen).leaf _ lf hlf
  rw [nextVer, Nat.mod_eq_of_lt hsmall]
  omega

/-- One device with two regions. -/
def oneDevice : Config := ⟨1, 2, 64, 4, 65536, 4096, 8⟩

/-- A put of one record, under the key of prefix 7. -/
def recordSeven : PutArgs := ⟨7, 0, [7], 0, [100], false, 0⟩

def refusedPut : PutArgs := ⟨9, 0, [9], 0, [2 ^ 31], false, 0⟩

def ackedPut (page ver : Nat) : List SessionLabel :=
  [.op (.put recordSeven), .op (.publish 0 page 0 0), .op (.flush 0), .op (.ack ver)]

/-- A second put of a key that has one. -/
theorem later_put_wins_second : ∃ s s' r lf, SessionRun oneDevice (ackedPut 3 1) s ∧
    s.store.step (.put recordSeven) = some s' ∧ s'.pending = [r] ∧
      s.store.idx.tree.leafAt [7] = some lf ∧ PutWins lf (r.args 4 0 0) := by
  have hfold : ((ackedPut 3 1).foldlM Session.step (Session.format oneDevice)).bind
      (fun s : Session => (s.store.step (.put recordSeven)).map fun s' : Store =>
        (decide (s.opening = none ∧ s.store.pending = [] ∧ s.store.verCounter = 1 ∧
          (s.store.idx.tree.leafAt [7]).isSome = true),
          s'.pending.map fun r => resolvedNode s.store r)) = some (true, [[7]]) := by
    decide +kernel
  obtain ⟨s, hs, hrest⟩ := bind_eq_some_iff.1 hfold
  obtain ⟨s', hs', hres⟩ := map_eq_some_iff.1 hrest
  obtain ⟨hstate, hnode⟩ := Prod.mk.inj hres
  obtain ⟨hopen, hpend, hver, hsome⟩ := of_decide_eq_true hstate
  obtain ⟨lf, hlf⟩ := isSome_iff_exists.1 hsome
  obtain ⟨r, hpend', hnode⟩ := map_eq_singleton_iff.1 hnode
  have hrun : SessionRun oneDevice (ackedPut 3 1) s :=
    RunOf.of_foldlM hs (by simp [ackedPut, OpensOk])
  exact ⟨s, s', r, lf, hrun, hs', hpend', hlf,
    (later_put_wins_iff oneDevice _ s recordSeven s' [r] r lf 4 0 0 (by decide) hrun hopen hs'
      (by rw [hpend, hpend']; rfl) mem_cons_self
      (by rw [hnode]; exact hlf)).2 (by rw [hver]; decide)⟩

/-- The cache after some refused puts. -/
def afterRefused (n : Nat) : Session :=
  ⟨{ Store.format oneDevice with
      idx := { Index.empty with shapes := [⟨0, [2 ^ 31]⟩] }
      verCounter := n }, none⟩

theorem cachePutReqs_refused (ver : Nat) (shape : Shape) :
    cachePutReqs oneDevice refusedPut ver shape = none := by
  simp [cachePutReqs, oneDevice, refusedPut, stripeSplit, maxGroups, maxStripeParts]

theorem afterRefused_step (n : Nat) :
    (afterRefused n).step (.op (.put refusedPut)) = some (afterRefused (n + 1)) := by
  have hput : (afterRefused n).store.put refusedPut = some (afterRefused (n + 1)).store := by
    unfold Store.put
    rw [if_neg (by decide), if_neg (by simp [afterRefused, Store.format, refusedPut, oneDevice,
      maxGroups])]
    have hpool : shapePoolIntern (afterRefused n).store.idx.shapes refusedPut.lens =
        ([⟨0, [2 ^ 31]⟩], ⟨0, [2 ^ 31]⟩) := by
      simp [shapePoolIntern, afterRefused, refusedPut]
    rw [hpool]
    dsimp only
    rw [show (afterRefused n).store.cfg = oneDevice from rfl, cachePutReqs_refused]
    rfl
  show ((afterRefused n).store.put refusedPut).map _ = _
  rw [hput]
  rfl

theorem refused_run (n : Nat) :
    SessionRun oneDevice (List.replicate (n + 1) (.op (.put refusedPut))) (afterRefused (n + 1)) := by
  have hfrom : ∀ k m, RunOf Session.step (fun _ l => OpensOk l) (afterRefused m)
      (List.replicate k (.op (.put refusedPut))) (afterRefused (m + k)) := by
    intro k
    induction k with
    | zero => exact fun m => .nil _
    | succ k ih =>
      intro m
      rw [replicate_succ]
      refine .cons trivial (afterRefused_step m) ?_
      rw [show m + (k + 1) = m + 1 + k by omega]
      exact ih (m + 1)
  have hfirst : (Session.format oneDevice).step (.op (.put refusedPut)) = some (afterRefused 1) := rfl
  rw [replicate_succ, Nat.add_comm]
  exact .cons trivial hfirst (hfrom n 1)

/-- After 2^32 puts a put is lost. The first put of the record gets version 2^32 - 1 and is
acknowledged; the second gets version 0, is discarded as stale, and is acknowledged too. -/
theorem later_put_lost : ∃ s, SessionRun oneDevice
      (List.replicate (2 ^ 32 - 3 + 1) (.op (.put refusedPut)) ++
        (ackedPut 3 (2 ^ 32 - 1) ++ ackedPut 4 0)) s ∧
    s.store.acked = [0, 2 ^ 32 - 1] ∧
      (s.store.idx.tree.leafAt [7]).map (fun lf => (lf.ver, lf.addr0.pageNo)) =
        some (2 ^ 32 - 1, 3) := by
  have hfold : ((ackedPut 3 (2 ^ 32 - 1) ++ ackedPut 4 0).foldlM Session.step
      (afterRefused (2 ^ 32 - 3 + 1))).map (fun s : Session => (s.store.acked,
        (s.store.idx.tree.leafAt [7]).map fun lf => (lf.ver, lf.addr0.pageNo))) =
      some ([0, 2 ^ 32 - 1], some (2 ^ 32 - 1, 3)) := by decide +kernel
  obtain ⟨s, hs, hres⟩ := map_eq_some_iff.1 hfold
  obtain ⟨hacked, hleaf⟩ := Prod.mk.inj hres
  exact ⟨s, (refused_run (2 ^ 32 - 3)).append
    (RunOf.of_foldlM hs (by simp [ackedPut, OpensOk])), hacked, hleaf⟩

end KvTier.Analysis
