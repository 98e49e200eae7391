import KvTier.Analysis.ReadsFacts
import KvTier.Analysis.Replicas

/-!
# Coherence of the DRAM cache

A get fills the DRAM cache with what it read of the leaf it had pinned, under the version of that
leaf, and a lookup only takes an entry of the version it asks for.
-/

namespace KvTier.Analysis

open KvTier.Lib KvTier.Model

/-- A read of the device depends on the version only. -/
def ReadsAs (ssd : Nat → ReadResult) (s : Reads) : ReadsLabel → Prop
  | .ssdRead i disk m => ∀ p r, s.pins[i]? = some p →
    readLeaf s.sess.store.cfg disk m p.leaf = .ok r → r = ssd p.leaf.ver
  | _ => True

/-- A table of records that `cache_get_result` can hold. -/
def TableOk (r : ReadResult) : Prop := r.recs.length ≤ maxLayersCap

/-- An entry holds what reading its version returns. -/
def EntryIs (ssd : Nat → ReadResult) : EntryProp := fun _ ver _ r => r = ssd ver ∧ TableOk r

/-- A get has loaded what reading its version returns. -/
def LoadIs (ssd : Nat → ReadResult) : PinProp := fun lf _ st =>
  ∀ r, st = .loaded r → r = ssd lf.ver ∧ TableOk r

/-- Every get returned the bytes of its version. -/
def ServedIs (ssd : Nat → ReadResult) (s : Reads) : Prop := ∀ x ∈ s.served, x.result = ssd x.ver

theorem EntryIs.take_recs {ssd : Nat → ReadResult} {k : DramKey} {ver expireTs : Nat}
    {data : ReadResult} (h : EntryIs ssd k ver expireTs data) :
    { data with recs := data.recs.take maxLayersCap } = ssd ver := by
  have hrecs : data.recs.take maxLayersCap = data.recs := List.take_of_length_le h.2
  rw [hrecs]
  exact h.1

section Coherence

variable {ssd : Nat → ReadResult} {s s' : Reads}

theorem length_shapeRecs (off i : Nat) (lens : List Nat) :
    (shapeRecs off i lens).length = lens.length := by
  induction lens generalizing off i with
  | nil => rfl
  | cons len lens ih => rw [shapeRecs, List.length_cons, List.length_cons, ih]

theorem tableOk_readLeaf {cfg : Config} {disk : Disk} {m : ReadMem} {lf : RadixLeaf}
    {r : ReadResult} (h : readLeaf cfg disk m lf = .ok r) : TableOk r := by
  have hfill : ∀ {sh : Option Shape} {recs : List RecDesc}, shapeFill sh = .ok recs →
      recs.length ≤ maxLayersCap := by
    intro sh recs hsh
    cases sh with
    | none => cases hsh
    | some sh =>
      cases hsh
      rw [length_shapeRecs]
      exact List.length_take_le _ _
  have hbody : ∀ x : Except ReadErr (List UInt8), (x.bind fun buf =>
      (shapeFill lf.shape).bind fun recs => .ok ⟨buf, recs⟩) = .ok r → TableOk r := by
    intro x hx
    cases x with
    | error e => cases hx
    | ok buf =>
      cases hsh : shapeFill lf.shape with
      | error e =>
        rw [hsh] at hx
        cases hx
      | ok recs =>
        rw [hsh] at hx
        cases hx
        exact hfill hsh
  unfold readLeaf at h
  split at h
  · exact hbody _ h
  · exact hbody _ h

theorem coherent_step {l : ReadsLabel} (h : ReadsInv (EntryIs ssd) (LoadIs ssd) s)
    (hl : ReadsAs ssd s l) (hstep : ReadsCase s l s') : ReadsInv (EntryIs ssd) (LoadIs ssd) s' := by
  refine h.step ?_ ?_ ?_ ?_ ?_ hstep
  · intro lf lf' t st hsame hq r hr
    rw [hsame.ver]
    exact hq r hr
  · intro path lf t _ _ r hr
    cases hr
  · intro lf t _ r hr
    cases hr
  · intro i disk m p r he hp _ hread r' hr'
    cases hr'
    subst he
    exact ⟨hl p r hp hread, tableOk_readLeaf hread⟩
  · intro k lf t r hq
    exact hq r rfl

theorem ReadsInv.hit_eq (h : ReadsInv (EntryIs ssd) (LoadIs ssd) s) {d d' : DramCache}
    (hd : s.dram = some d) {k : DramKey} {ver now : Nat} {alloc : Bool} {r : ReadResult}
    (hget : d.get k ver now alloc = (d', some r)) : r = ssd ver := by
  obtain ⟨_, data, hE, _, rfl⟩ := h.hit hd hget
  exact hE.take_recs

theorem ServedIs.step {l : ReadsLabel} (h : ServedIs ssd s)
    (hinv : ReadsInv (EntryIs ssd) (LoadIs ssd) s) (hstep : ReadsCase s l s') : ServedIs ssd s' := by
  refine hinv.served (V := fun ver _ r => r = ssd ver) ?_ ?_ hstep h
  · intro k ver expireTs data t hE _
    exact hE.take_recs
  · intro lf t r hq
    exact (hq r rfl).1

/-- In every run a DRAM hit for a pinned version is exactly what reading that version returns, and
so is everything a get returned. -/
theorem dram_hit_coherent {cfg : Config} {dramBytes dramEntryMax : Nat} {ls : List ReadsLabel}
    (hrun : RunOf Reads.step (ReadsAs ssd) (Reads.start cfg dramBytes dramEntryMax) ls s) :
    (∀ p ∈ s.pins, ∀ d d' now alloc r, s.dram = some d →
      d.get p.key p.leaf.ver now alloc = (d', some r) → r = ssd p.leaf.ver) ∧
    ∀ x ∈ s.served, x.result = ssd x.ver := by
  have hinv : ReadsInv (EntryIs ssd) (LoadIs ssd) s ∧ ServedIs ssd s := by
    refine RunOf.invariant (fun s => ReadsInv (EntryIs ssd) (LoadIs ssd) s ∧ ServedIs ssd s)
      (fun s l s' h hl hs => ?_) hrun ⟨ReadsInv.start cfg dramBytes dramEntryMax, ?_⟩
    · have hcase := reads_step_cases hs
      exact ⟨coherent_step h.1 hl hcase, h.2.step h.1 hcase⟩
    · intro x hx
      cases hx
  exact ⟨fun p _ d d' now alloc r hd hget => hinv.1.hit_eq hd hget, hinv.2⟩

end Coherence

/-- The leaf of a put of one byte at page 2. -/
def byteLeaf (crc : Nat) : RadixLeaf where
  refcnt := 0
  ver := 1
  prefixId := 0
  addr0 := ⟨0, 2, 0, 1, 1, 0, crc⟩
  addr1 := KvAddr.none
  stripe := none
  shape := some ⟨0, [1]⟩

/-- What reading it returns. -/
def byteResult : ReadResult := ⟨[0], [⟨0, 0, 1⟩]⟩

/-- The put is published, and a get pins it. -/
def pinnedRun (crc : Nat) : List ReadsLabel :=
  [.op (.put ⟨0, 0, [1], 0, [1], false, 0⟩), .op (.publish 0 2 crc 1), .pin 0 [1] 5]

def filledRun : List ReadsLabel :=
  [.dramGet 0 5 true, .ssdRead 0 zeroDisk ⟨fun _ => 0, fun _ => 0⟩, .backfill 0 true,
    .pin 0 [1] 6]

theorem pinnedRun_state (ssd : Nat → ReadResult) (crc : Nat) :
    ∃ s, RunOf Reads.step (ReadsAs ssd) (Reads.start twoDevs 1048576 0) (pinnedRun crc) s ∧
      s.pins = [⟨[1], 0, byteLeaf crc, 5, true, .pinned⟩] ∧
      s.dram = (dramInit 1048576 0).map (·.invalidate (0, 0)) ∧
      s.sess.store.cfg = twoDevs ∧ s.sess.store.idx.tree.leafAt [1] = some (byteLeaf crc) ∧
      s.sess.opening = none := by
  refine ⟨_, .cons trivial rfl (.cons trivial rfl (.cons trivial rfl (.nil _))), ?_, ?_, ?_, ?_, ?_⟩
  · rfl
  · rfl
  · rfl
  · rfl
  · rfl

theorem filled_dram : ∃ d0 d, (dramInit 1048576 0).map (·.invalidate (0, 0)) = some d0 ∧
    d0.get (0, 0) 1 5 true = (d0, none) ∧ d0.put (0, 0) 1 0 byteResult true = some d ∧
    (d.get (0, 0) 1 6 true).2.isSome := by
  have hrun : (((dramInit 1048576 0).map (·.invalidate (0, 0))).bind fun d0 =>
      (d0.put (0, 0) 1 0 byteResult true).map fun d =>
        ((d0.get (0, 0) 1 5 true).2, (d.get (0, 0) 1 6 true).2.isSome)) =
      some (none, true) := by decide +kernel
  obtain ⟨d0, hd0, hput⟩ := Option.bind_eq_some_iff.1 hrun
  obtain ⟨d, hd, hres⟩ := Option.map_eq_some_iff.1 hput
  have hmiss : (d0.get (0, 0) 1 5 true).2 = none := congrArg Prod.fst hres
  refine ⟨d0, d, hd0, ?_, hd, congrArg Prod.snd hres⟩
  rcases get_cases d0 (0, 0) 1 5 true with he | ⟨e, _, _, _, _, he⟩
  · exact he
  · rw [he] at hmiss
    cases hmiss

theorem filledRun_state {s : Reads} (ssd : Nat → ReadResult)
    (hpins : s.pins = [⟨[1], 0, byteLeaf (crc32 zeroImage).toNat, 5, true, .pinned⟩])
    (hd : s.dram = (dramInit 1048576 0).map (·.invalidate (0, 0)))
    (hcfg : s.sess.store.cfg = twoDevs)
    (hleaf : s.sess.store.idx.tree.leafAt [1] = some (byteLeaf (crc32 zeroImage).toNat))
    (hopen : s.sess.opening = none) (hssd : ssd 1 = byteResult) :
    ∃ s' d, RunOf Reads.step (ReadsAs ssd) s filledRun s' ∧
      s'.pins = [⟨[1], 0, byteLeaf (crc32 zeroImage).toNat, 6, true, .pinned⟩] ∧
      s'.dram = some d ∧ (d.get (0, 0) 1 6 true).2.isSome := by
  generalize hlf : byteLeaf (crc32 zeroImage).toNat = lf at hpins hleaf
  have hver : lf.ver = 1 := by rw [← hlf]; rfl
  have hexp : lf.addr0.expireTs = 0 := by rw [← hlf]; rfl
  have hread : ∀ m, readLeaf s.sess.store.cfg zeroDisk m lf = .ok byteResult := by
    intro m
    rw [hcfg, ← hlf]
    exact readLeaf_zeroPage ⟨by decide, by decide, by decide⟩ rfl rfl rfl rfl rfl m
  obtain ⟨d0, d, hinit, hmiss, hput, hget⟩ := filled_dram
  obtain ⟨s1, h1, hp1, hd1, hs1⟩ : ∃ s1, s.step (.dramGet 0 5 true) = some s1 ∧
      s1.pins = [⟨[1], 0, lf, 5, true, .missed⟩] ∧ s1.dram = some d0 ∧ s1.sess = s.sess := by
    have hmiss' : d0.get (Pin.key ⟨[1], 0, lf, 5, true, .pinned⟩) lf.ver 5 true = (d0, none) := by
      rw [hver]
      exact hmiss
    simp only [Reads.step, Reads.dramGet, hpins, List.getElem?_cons_zero, hd, hinit]
    rw [if_neg (by simp), hmiss']
    exact ⟨_, rfl, rfl, rfl, rfl⟩
  obtain ⟨s2, h2, hp2, hd2, hs2⟩ : ∃ s2,
      s1.step (.ssdRead 0 zeroDisk ⟨fun _ => 0, fun _ => 0⟩) = some s2 ∧
      s2.pins = [⟨[1], 0, lf, 5, true, .loaded byteResult⟩] ∧ s2.dram = some d0 ∧
      s2.sess = s.sess := by
    simp only [Reads.step, Reads.ssdRead, hp1, List.getElem?_cons_zero, ne_eq, not_true,
      if_false, hs1, hread]
    exact ⟨_, rfl, rfl, hd1, rfl⟩
  obtain ⟨s3, h3, hp3, hd3, hs3⟩ : ∃ s3, s2.step (.backfill 0 true) = some s3 ∧ s3.pins = [] ∧
      s3.dram = some d ∧ s3.sess = s.sess := by
    have hput' : d0.put (Pin.key ⟨[1], 0, lf, 5, true, .loaded byteResult⟩) lf.ver
        lf.addr0.expireTs byteResult true = some d := by
      rw [hver, hexp]
      exact hput
    simp only [Reads.step, Reads.backfill, hp2, List.getElem?_cons_zero, hd2]
    rw [hput']
    exact ⟨_, rfl, rfl, rfl, hs2⟩
  have h4 : s3.step (.pin 0 [1] 6) =
      some { s3 with pins := s3.pins ++ [⟨[1], 0, lf, 6, true, .pinned⟩] } := by
    simp only [Reads.step, Reads.pin, hs3, hopen, hleaf, hver, hexp]
    rfl
  refine ⟨_, d, .cons trivial h1 (.cons ?_ h2 (.cons trivial h3 (.cons trivial h4 (.nil _)))), ?_,
    hd3, hget⟩
  · intro p r hp hr
    rw [hp1] at hp
    cases hp
    rw [hs1, hread] at hr
    rw [hver, hssd]
    exact (Except.ok.inj hr).symm
  · rw [hp3]
    rfl

/-- A get fills the DRAM cache, and the hit of the next one is what a read returns. -/
theorem dram_hit_coherent_filled :
    ∃ s p d d' r, RunOf Reads.step (ReadsAs fun _ => byteResult) (Reads.start twoDevs 1048576 0)
        (pinnedRun (crc32 zeroImage).toNat ++ filledRun) s ∧
      p ∈ s.pins ∧ s.dram = some d ∧ d.get p.key p.leaf.ver 6 true = (d', some r) ∧
      r = ⟨[0], [⟨0, 0, 1⟩]⟩ := by
  obtain ⟨s, hs, hpins, hd, hcfg, hleaf, hopen⟩ := pinnedRun_state (fun _ => byteResult)
    (crc32 zeroImage).toNat
  obtain ⟨s', d, hs', hpins', hd', hget⟩ := filledRun_state (fun _ => byteResult) hpins hd hcfg
    hleaf hopen rfl
  obtain ⟨r, hr⟩ := Option.isSome_iff_exists.1 hget
  have hrun := hs.append hs'
  have hmem : ⟨[1], 0, byteLeaf (crc32 zeroImage).toNat, 6, true, .pinned⟩ ∈ s'.pins := by
    rw [hpins']
    exact List.mem_singleton.2 rfl
  have hhit : d.get (0, 0) 1 6 true = ((d.get (0, 0) 1 6 true).1, some r) := Prod.ext rfl hr
  exact ⟨s', _, d, _, r, hrun, hmem, hd', hhit,
    (dram_hit_coherent hrun).1 _ hmem d _ 6 true r hd' hhit⟩

end KvTier.Analysis
