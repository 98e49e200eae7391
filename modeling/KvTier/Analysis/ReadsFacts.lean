import KvTier.Model.Reads
import KvTier.Analysis.DramFacts
import KvTier.Analysis.SessionFacts

/-!
# What a step with readers can do

`ReadsCase` lists the steps of `cache_get` and of the sessions under it.
-/

namespace KvTier.Analysis

open KvTier.Lib KvTier.Model List

variable {alloc : Bool} {i now : Nat} {l : ReadsLabel}

/-- Every step, with the state after it. -/
inductive ReadsCase (s : Reads) : ReadsLabel → Reads → Prop
  | op (l : Label) (t : Session) (hstep : s.sess.step (.op l) = some t)
      (hfree : ∀ node, l = .drop node → s.pinnedAt node = false) :
      ReadsCase s (.op l) (s.after t l)
  | reopen (cfg : Config) (dramBytes dramEntryMax : Nat) (t : Session)
      (hstep : s.sess.step (.reopen cfg) = some t) :
      ReadsCase s (.reopen cfg dramBytes dramEntryMax)
        { s with sess := t, dram := dramInit dramBytes dramEntryMax, pins := [] }
  | noLeaf (prefixId : UInt64) (path : Path) (now : Nat) : ReadsCase s (.pin prefixId path now) s
  | pin (prefixId : UInt64) (path : Path) (now : Nat) (lf : RadixLeaf)
      (hleaf : s.sess.store.idx.tree.leafAt path = some lf) (hver : lf.ver ≠ 0)
      (hexp : lf.addr0.expireTs = 0 ∨ now ≤ lf.addr0.expireTs) :
      ReadsCase s (.pin prefixId path now)
        { s with pins := s.pins ++ [⟨path, prefixId, lf, now, true, .pinned⟩] }
  | hit (i now : Nat) (alloc : Bool) (p : Pin) (d d' : DramCache) (r : ReadResult)
      (hp : s.pins[i]? = some p) (hstage : p.stage = .pinned) (hnow : p.now ≤ now)
      (hd : s.dram = some d) (hget : d.get p.key p.leaf.ver now alloc = (d', some r)) :
      ReadsCase s (.dramGet i now alloc) ({ s with dram := some d' }.finish i p (some r))
  | miss (i now : Nat) (alloc : Bool) (p : Pin) (hp : s.pins[i]? = some p)
      (hstage : p.stage = .pinned) :
      ReadsCase s (.dramGet i now alloc)
        { s with pins := s.pins.set i { p with stage := .missed } }
  | load (i : Nat) (disk : Disk) (m : ReadMem) (p : Pin) (r : ReadResult)
      (hp : s.pins[i]? = some p) (hstage : p.stage = .missed)
      (hread : readLeaf s.sess.store.cfg disk m p.leaf = .ok r) :
      ReadsCase s (.ssdRead i disk m) { s with pins := s.pins.set i { p with stage := .loaded r } }
  | loadError (i : Nat) (disk : Disk) (m : ReadMem) (p : Pin) (hp : s.pins[i]? = some p) :
      ReadsCase s (.ssdRead i disk m) (s.finish i p none)
  | done (i : Nat) (alloc : Bool) (p : Pin) (r : ReadResult) (hp : s.pins[i]? = some p)
      (hstage : p.stage = .loaded r) (hd : s.dram = none) :
      ReadsCase s (.backfill i alloc) (s.finish i p (some r))
  | fill (i : Nat) (alloc : Bool) (p : Pin) (r : ReadResult) (d d' : DramCache)
      (hp : s.pins[i]? = some p) (hstage : p.stage = .loaded r) (hd : s.dram = some d)
      (hput : d.put p.key p.leaf.ver p.leaf.addr0.expireTs r alloc = some d') :
      ReadsCase s (.backfill i alloc) ({ s with dram := some d' }.finish i p (some r))

section Cases

variable {s s' : Reads}

theorem opStep_cases {l : Label} (h : s.opStep l = some s') : ReadsCase s (.op l) s' := by
  have hgo : ∀ {l : Label}, (∀ node, l = .drop node → s.pinnedAt node = false) →
      (s.sess.step (.op l)).map (fun t => s.after t l) = some s' → ReadsCase s (.op l) s' := by
    intro l hfree h
    obtain ⟨t, ht, rfl⟩ := Option.map_eq_some_iff.1 h
    exact .op l t ht hfree
  unfold Reads.opStep at h
  split at h
  · rename_i node
    split at h
    · cases h
    rename_i hpin
    refine hgo (fun node' he => ?_) h
    cases he
    simpa using hpin
  · rename_i hne
    exact hgo (fun node he => absurd he (hne node)) h

theorem pin_cases {prefixId : UInt64} {path : Path} (h : s.pin prefixId path now = some s') :
    ReadsCase s (.pin prefixId path now) s' := by
  unfold Reads.pin at h
  split at h
  · cases h
  split at h
  · cases h
    exact .noLeaf prefixId path now
  split at h
  · cases h
    exact .noLeaf prefixId path now
  rename_i lf hleaf
  split at h
  · cases h
    exact .noLeaf prefixId path now
  rename_i hok
  simp only [not_or, not_and, Nat.not_lt] at hok
  cases h
  refine .pin prefixId path now lf hleaf hok.1 ?_
  by_cases h0 : lf.addr0.expireTs = 0
  · exact .inl h0
  · exact .inr (hok.2 h0)

theorem dramGet_cases (h : s.dramGet i now alloc = some s') :
    ReadsCase s (.dramGet i now alloc) s' := by
  unfold Reads.dramGet at h
  split at h
  · rename_i p hp
    split at h
    · cases h
    rename_i hok
    simp only [not_or, not_not, Nat.not_lt] at hok
    split at h
    · cases h
      exact .miss i now alloc p hp hok.1
    rename_i d hd
    split at h
    · rename_i d' r hget
      cases h
      exact .hit i now alloc p d d' r hp hok.1 hok.2 hd hget
    -- a miss leaves the cache as it is
    rename_i d' hget
    cases h
    have hsame : d' = d := by
      rcases get_cases d p.key p.leaf.ver now alloc with he | ⟨e, _, _, _, _, he⟩
      · rw [he] at hget
        exact (congrArg Prod.fst hget).symm
      · rw [he] at hget
        cases congrArg Prod.snd hget
    rw [hsame, ← hd]
    exact .miss i now alloc p hp hok.1
  · cases h

theorem ssdRead_cases {disk : Disk} {m : ReadMem} (h : s.ssdRead i disk m = some s') :
    ReadsCase s (.ssdRead i disk m) s' := by
  unfold Reads.ssdRead at h
  split at h
  · rename_i p hp
    split at h
    · cases h
    rename_i hstage
    split at h
    · rename_i r hread
      cases h
      exact .load i disk m p r hp (not_not.1 hstage) hread
    · cases h
      exact .loadError i disk m p hp
  · cases h

theorem backfill_cases (h : s.backfill i alloc = some s') : ReadsCase s (.backfill i alloc) s' := by
  unfold Reads.backfill at h
  split at h
  · rename_i p hp
    split at h
    · rename_i r hstage hd
      cases h
      exact .done i alloc p r hp hstage hd
    · rename_i r d hstage hd
      obtain ⟨d', hput, rfl⟩ := Option.map_eq_some_iff.1 h
      exact .fill i alloc p r d d' hp hstage hd hput
    · cases h
  · cases h

/-- Every step is one of these. -/
theorem reads_step_cases (h : s.step l = some s') : ReadsCase s l s' := by
  cases l with
  | op l => exact opStep_cases h
  | reopen cfg b m =>
    simp only [Reads.step] at h
    obtain ⟨t, ht, rfl⟩ := Option.map_eq_some_iff.1 h
    exact .reopen cfg b m t ht
  | pin p path now => exact pin_cases h
  | dramGet i now alloc => exact dramGet_cases h
  | ssdRead i disk m => exact ssdRead_cases h
  | backfill i alloc => exact backfill_cases h

end Cases

/-! ## The session under it -/

theorem sess_after (s : Reads) (t : Session) (l : Label) : (s.after t l).sess = t := by
  cases l with
  | publish i page crc now | drop node =>
    simp only [Reads.after]
    split <;> rfl
  | _ => rfl

theorem served_after (s : Reads) (t : Session) (l : Label) :
    (s.after t l).served = s.served := by
  cases l with
  | publish i page crc now | drop node =>
    simp only [Reads.after]
    split <;> rfl
  | _ => rfl

theorem ReadsCase.session {s s' : Reads} (h : ReadsCase s l s') :
    s'.sess = s.sess ∨ (∃ l', l = .op l' ∧ s.sess.step (.op l') = some s'.sess) ∨
      ∃ cfg b m, l = .reopen cfg b m ∧ s.sess.step (.reopen cfg) = some s'.sess := by
  cases h with
  | op l t hstep hfree =>
    refine .inr (.inl ⟨l, rfl, ?_⟩)
    rw [sess_after]
    exact hstep
  | reopen cfg b m t hstep => exact .inr (.inr ⟨cfg, b, m, rfl, hstep⟩)
  | _ => exact .inl rfl

/-- Opens are with an accepted configuration. -/
def ReadsOpensOk : ReadsLabel → Prop
  | .reopen cfg _ _ => OpensOk (.reopen cfg)
  | _ => True

/-! ## Entries and pins -/

/-- Leaves of one version and first address. -/
structure SameCopy (lf lf' : RadixLeaf) : Prop where
  ver : lf'.ver = lf.ver
  addr0 : lf'.addr0 = lf.addr0
  striped : lf'.stripe.isSome = lf.stripe.isSome

theorem SameCopy.refl (lf : RadixLeaf) : SameCopy lf lf := ⟨rfl, rfl, rfl⟩

abbrev PinProp := RadixLeaf → Nat → GetStage → Prop

/-- Entries satisfy `E`, pins `Q`. -/
structure ReadsInv (E : EntryProp) (Q : PinProp) (s : Reads) : Prop where
  dram : ∀ d, s.dram = some d → DramHolds E d
  keys : ∀ d, s.dram = some d → DramOk d
  pins : ∀ p ∈ s.pins, Q p.leaf p.now p.stage

section Inv

variable {E : EntryProp} {Q : PinProp} {s s' : Reads}

theorem dram_after (s : Reads) (t : Session) (l : Label) :
    (s.after t l).dram = s.dram ∨ ∃ k, (s.after t l).dram = s.dram.map (·.invalidate k) := by
  cases l with
  | publish i page crc now =>
    simp only [Reads.after]
    split
    · exact .inl rfl
    simp only
    split
    · exact .inr ⟨_, rfl⟩
    · exact .inl rfl
  | drop node =>
    simp only [Reads.after]
    split
    · exact .inl rfl
    · exact .inr ⟨_, rfl⟩
  | _ => exact .inl rfl

theorem pins_after {t : Session} {l : Label} {p : Pin} (hp : p ∈ (s.after t l).pins) :
    ∃ p0 ∈ s.pins, SameCopy p0.leaf p.leaf ∧ p.stage = p0.stage ∧ p.now = p0.now := by
  have hself : p ∈ s.pins → ∃ p0 ∈ s.pins, SameCopy p0.leaf p.leaf ∧ p.stage = p0.stage ∧
      p.now = p0.now := fun h => ⟨p, h, SameCopy.refl _, rfl, rfl⟩
  cases l with
  | publish i page crc now =>
    simp only [Reads.after] at hp
    split at hp
    · exact hself hp
    obtain ⟨p0, hp0, rfl⟩ := mem_map.1 hp
    refine ⟨p0, hp0, ?_⟩
    unfold Pin.publish
    split
    · exact ⟨SameCopy.refl _, rfl, rfl⟩
    · split
      · exact ⟨SameCopy.refl _, rfl, rfl⟩
      · exact ⟨⟨rfl, rfl, Option.isSome_map⟩, rfl, rfl⟩
  | drop node =>
    simp only [Reads.after] at hp
    split at hp
    · exact hself hp
    · exact hself hp
  | _ => exact hself hp

/-- Entries and pins along a step. -/
theorem ReadsInv.step (h : ReadsInv E Q s)
    (hcopy : ∀ lf lf' t st, SameCopy lf lf' → Q lf t st → Q lf' t st)
    (hpin : ∀ path lf t, s.sess.store.idx.tree.leafAt path = some lf →
      (lf.addr0.expireTs = 0 ∨ t ≤ lf.addr0.expireTs) → Q lf t .pinned)
    (hmiss : ∀ lf t, Q lf t .pinned → Q lf t .missed)
    (hload : ∀ i disk m p r, l = .ssdRead i disk m → s.pins[i]? = some p → Q p.leaf p.now .missed →
      readLeaf s.sess.store.cfg disk m p.leaf = .ok r → Q p.leaf p.now (.loaded r))
    (hfill : ∀ k lf t r, Q lf t (.loaded r) → E k lf.ver lf.addr0.expireTs r)
    (hstep : ReadsCase s l s') : ReadsInv E Q s' := by
  -- A get that goes on replaces its own pin.
  have hset : ∀ (i : Nat) (p : Pin), Q p.leaf p.now p.stage →
      ∀ x ∈ s.pins.set i p, Q x.leaf x.now x.stage := by
    intro i p hq x hx
    rcases mem_or_eq_of_mem_set hx with hx | rfl
    · exact h.pins x hx
    · exact hq
  have herase : ∀ i, ∀ x ∈ s.pins.eraseIdx i, Q x.leaf x.now x.stage := fun i x hx =>
    h.pins x (mem_of_mem_eraseIdx hx)
  have hat : ∀ {i : Nat} {p : Pin}, s.pins[i]? = some p → Q p.leaf p.now p.stage := fun hp =>
    h.pins _ (mem_of_getElem? hp)
  cases hstep with
  | op l t hs hfree =>
    have hdram : ∀ d, (s.after t l).dram = some d → DramHolds E d ∧ DramOk d := by
      intro d hd
      rcases dram_after s t l with he | ⟨k, he⟩
      · rw [he] at hd
        exact ⟨h.dram d hd, h.keys d hd⟩
      · rw [he] at hd
        obtain ⟨d0, hd0, rfl⟩ := Option.map_eq_some_iff.1 hd
        exact ⟨(h.dram d0 hd0).invalidate k, (h.keys d0 hd0).invalidate k⟩
    refine ⟨fun d hd => (hdram d hd).1, fun d hd => (hdram d hd).2, fun p hp => ?_⟩
    obtain ⟨p0, hp0, hsame, hstage, hnow⟩ := pins_after hp
    rw [hstage, hnow]
    exact hcopy _ _ _ _ hsame (h.pins p0 hp0)
  | reopen cfg b m t hs =>
    exact ⟨fun d hd => DramHolds.init hd, fun d hd => DramOk.init hd, fun p hp => by cases hp⟩
  | noLeaf => exact h
  | pin prefixId path now lf hleaf hver hexp =>
    refine ⟨h.dram, h.keys, fun p hp => ?_⟩
    rcases mem_append.1 hp with hp | hp
    · exact h.pins p hp
    · rw [mem_singleton.1 hp]
      exact hpin path lf now hleaf hexp
  | hit i now alloc p d d' r hp hstage hnow hd hget =>
    have hsame : d' = (d.get p.key p.leaf.ver now alloc).1 := by rw [hget]
    refine ⟨fun d1 hd1 => ?_, fun d1 hd1 => ?_, herase i⟩
    · obtain rfl : d' = d1 := Option.some.inj hd1
      rw [hsame]
      exact (h.dram d hd).get _ _ _ _
    · obtain rfl : d' = d1 := Option.some.inj hd1
      rw [hsame]
      exact (h.keys d hd).get _ _ _ _
  | miss i now alloc p hp hstage =>
    refine ⟨h.dram, h.keys, hset i _ (hmiss _ _ ?_)⟩
    rw [← hstage]
    exact hat hp
  | load i disk m p r hp hstage hread =>
    refine ⟨h.dram, h.keys, hset i _ (hload i disk m p r rfl hp ?_ hread)⟩
    rw [← hstage]
    exact hat hp
  | loadError i disk m p hp | done i alloc p r hp hstage hd => exact ⟨h.dram, h.keys, herase i⟩
  | fill i alloc p r d d' hp hstage hd hput =>
    have hq : Q p.leaf p.now (.loaded r) := by
      rw [← hstage]
      exact hat hp
    refine ⟨fun d1 hd1 => ?_, fun d1 hd1 => ?_, herase i⟩
    · obtain rfl : d' = d1 := Option.some.inj hd1
      exact (h.dram d hd).put (hfill _ _ _ _ hq) hput
    · obtain rfl : d' = d1 := Option.some.inj hd1
      exact (h.keys d hd).put hput

theorem ReadsInv.start (cfg : Config) (dramBytes dramEntryMax : Nat) :
    ReadsInv E Q (Reads.start cfg dramBytes dramEntryMax) :=
  ⟨fun _ hd => DramHolds.init hd, fun _ hd => DramOk.init hd, fun p hp => by cases hp⟩

theorem ReadsInv.hit (h : ReadsInv E Q s) {d d' : DramCache} (hd : s.dram = some d) {k : DramKey}
    {ver now : Nat} {r : ReadResult} (hget : d.get k ver now alloc = (d', some r)) :
    ∃ expireTs data, E k ver expireTs data ∧ (expireTs = 0 ∨ now ≤ expireTs) ∧
      r = { data with recs := data.recs.take maxLayersCap } := by
  rcases get_cases d k ver now alloc with he | ⟨e, hmem, hkey, hver, hexp, he⟩
  · rw [he] at hget
    cases congrArg Prod.snd hget
  rw [he] at hget
  have hE := h.dram d hd _ e hmem
  rw [hkey, hver] at hE
  exact ⟨e.expireTs, e.data, hE, hexp, (Option.some.inj (congrArg Prod.snd hget)).symm⟩

def ServedAll (V : Nat → Nat → ReadResult → Prop) (s : Reads) : Prop :=
  ∀ x ∈ s.served, V x.ver x.now x.result

/-- What is served along a step. -/
theorem ReadsInv.served {V : Nat → Nat → ReadResult → Prop} (h : ReadsInv E Q s)
    (hhit : ∀ k ver expireTs data t, E k ver expireTs data → (expireTs = 0 ∨ t ≤ expireTs) →
      V ver t { data with recs := data.recs.take maxLayersCap })
    (hload : ∀ lf t r, Q lf t (.loaded r) → V lf.ver t r) (hstep : ReadsCase s l s')
    (hV : ServedAll V s) : ServedAll V s' := by
  have hadd : ∀ {ver t : Nat} {r : ReadResult}, V ver t r →
      ∀ x ∈ [(⟨ver, t, r⟩ : Served)] ++ s.served, V x.ver x.now x.result := by
    intro ver t r hr x hx
    rcases mem_append.1 hx with hx | hx
    · rw [mem_singleton.1 hx]
      exact hr
    · exact hV x hx
  have hloaded : ∀ {i : Nat} {p : Pin} {r : ReadResult}, s.pins[i]? = some p →
      p.stage = .loaded r → V p.leaf.ver p.now r := by
    intro i p r hp hstage
    refine hload p.leaf p.now r ?_
    rw [← hstage]
    exact h.pins p (mem_of_getElem? hp)
  cases hstep with
  | op l t hs hfree =>
    unfold ServedAll
    rw [served_after]
    exact hV
  | hit i now alloc p d d' r hp hstage hnow hd hget =>
    obtain ⟨expireTs, data, hE, hexp, rfl⟩ := h.hit hd hget
    -- the clock of the lookup is not before the clock of the pin
    refine hadd (hhit p.key p.leaf.ver expireTs data p.now hE ?_)
    rcases hexp with h0 | hle
    · exact .inl h0
    · exact .inr (Nat.le_trans hnow hle)
  | done i alloc p r hp hstage hd | fill i alloc p r d d' hp hstage hd hput =>
    exact hadd (hloaded hp hstage)
  | loadError i disk m p hp => exact hV
  | _ => exact hV

end Inv

end KvTier.Analysis
