import KvTier.Analysis.ReadsFacts
import KvTier.Analysis.Replicas

/-!
# Expiry

A get compares its clock with `expire_ts` of slot 0 of the leaf, and a DRAM entry carries the same
field.
-/

namespace KvTier.Analysis

open KvTier.Lib KvTier.Model List

variable {cfg : Config} {lf : RadixLeaf} {s : Reads}

def SlotExpires (X : Nat → Nat → Prop) (lf : RadixLeaf) : Prop :=
  lf.stripe.isSome ∨ lf.addr0.devId ≠ invalidDev → X lf.ver lf.addr0.expireTs

def ArgsExpire (X : Nat → Nat → Prop) (a : PublishArgs) : Prop :=
  X a.ver (if a.flags.stripe then 0 else a.addr.expireTs)

def RecExpires (X : Nat → Nat → Prop) (r : JournalRec) : Prop :=
  X r.ver (if r.flags.stripe then 0 else r.expireTs) ∧ (1 < r.stripeCnt → X r.ver 0)

def ReqExpires (X : Nat → Nat → Prop) (r : PutReq) : Prop :=
  X r.ver r.expireTs ∧ (r.flags.stripe = true → r.expireTs = 0)

section Leaves

variable {X : Nat → Nat → Prop}

theorem SlotExpires.setAddr {a : KvAddr} (h : SlotExpires X lf) (ha : X lf.ver a.expireTs)
    (i : Nat) : SlotExpires X (lf.setAddr i a) := by
  unfold SlotExpires
  rw [ver_setAddr, stripe_setAddr]
  unfold RadixLeaf.setAddr
  split
  · exact fun _ => ha
  · exact h

theorem slotExpires (X : Nat → Nat → Prop) : LeafRule (fun _ _ => SlotExpires X)
    (fun _ => ArgsExpire X) (fun _ => RecExpires X) where
  publish := by
    intro n old a lf ha hold hl
    have hc := leafPublish_cases old a
    generalize leafPublish old a = res at hl hc
    unfold ArgsExpire at ha
    cases hc with
    | rejected lf0 hlf0 _ => exact hold lf hl
    | newStripe hs _ =>
      cases hl
      rw [hs] at ha
      exact fun _ => ha
    | addPart lf0 st hs hlf0 _ hst =>
      cases hl
      intro _
      exact hold lf0 hlf0 (.inl (by rw [hst]; rfl))
    | newPlain hs _ =>
      cases hl
      rw [hs] at ha
      refine SlotExpires.setAddr (fun h => ?_) ha _
      rcases h with h | h
      · cases h
      · exact absurd rfl h
    | addReplica lf0 hs hlf0 hver _ =>
      cases hl
      rw [hs, ← hver] at ha
      exact (hold lf0 hlf0).setAddr ha a.slot
  replay := by
    intro n d r a hd _ hr hof
    cases hof with
    | plain shape _ => exact hr.1
    | part s shape p hcnt => exact hr.2 hcnt
  reload := by
    intro n g shapes lf h
    exact h

theorem ReqExpires.publish {r : PutReq} (h : ReqExpires X r) (page crc now : Nat) :
    ArgsExpire X (r.args page crc now) ∧
      ∀ d, RecExpires X { journalPutRec (r.args page crc now) with devId := d } := by
  have hargs : ArgsExpire X (r.args page crc now) := by
    show X r.ver (if r.flags.stripe then 0 else r.expireTs)
    split
    · rename_i hs
      rw [← h.2 hs]
      exact h.1
    · exact h.1
  refine ⟨hargs, fun d => ⟨hargs, fun hcnt => ?_⟩⟩
  have hcnt : 1 < if r.flags.stripe then r.stripeCnt else 0 := hcnt
  split at hcnt
  · rename_i hs
    show X r.ver 0
    rw [← h.2 hs]
    exact h.1
  · omega

theorem reqExpires_cachePutReqs {a : PutArgs} {ver : Nat} {shape : Shape} (hX : X ver a.expireTs)
    (hstripe : cfg.stripeThreshold % 2 ^ 32 < a.lens.sum → a.expireTs = 0) {r : PutReq}
    (hr : r ∈ (cachePutReqs cfg a ver shape).getD []) : ReqExpires X r := by
  obtain ⟨_, _, hver, _, hexp, _⟩ := mem_cachePutReqs hr
  refine ⟨by rw [hver, hexp]; exact hX, fun hs => ?_⟩
  rw [hexp]
  refine hstripe ?_
  by_contra hsum
  have hplain : ∀ {flags : Flags} {slot : Nat}, flags.stripe = false →
      r ≠ plainReq cfg a ver shape flags slot := by
    rintro flags slot hf rfl
    have hflags : flags.stripe = true := hs
    rw [hf] at hflags
    cases hflags
  unfold cachePutReqs at hr
  split at hr
  · cases hr
  split at hr
  · simp only [Option.getD_some, mem_map] at hr
    obtain ⟨slot, _, hreq⟩ := hr
    exact hplain rfl hreq.symm
  · simp only [Option.getD_some, mem_singleton] at hr
    exact hplain rfl hr

end Leaves

/-! ## Runs -/

/-- `X` relates version and expiry of the put; a striped one has no expiry. -/
def PutExpires (X : Nat → Nat → Prop) (s : Store) : Label → Prop
  | .put a => X ((s.verCounter + 1) % 2 ^ 32) a.expireTs ∧
    (s.cfg.stripeThreshold % 2 ^ 32 < a.lens.sum → a.expireTs = 0)
  | _ => True

/-- Puts expire as `X` says, and opens are with an accepted configuration. -/
def PutsExpire (X : Nat → Nat → Prop) (s : Reads) : ReadsLabel → Prop
  | .op l => PutExpires X s.sess.store l
  | l => ReadsOpensOk l

/-- Leaves, records and requests have the expiry of their versions. -/
structure StoreExpires (X : Nat → Nat → Prop) (s : Store) : Prop where
  ok : SessionOk s
  leaves : LeavesOk (fun _ _ => SlotExpires X) (fun _ => RecExpires X) s
  reqs : ∀ r ∈ s.pending, ReqExpires X r

/-- A pin was taken before the expiry of its leaf. -/
def PinExpires (X : Nat → Nat → Prop) : PinProp := fun lf now st =>
  SlotExpires X lf ∧ (lf.addr0.expireTs = 0 ∨ now ≤ lf.addr0.expireTs) ∧
    ∀ r, st = .loaded r → lf.stripe.isSome ∨ lf.addr0.devId ≠ invalidDev

/-- An entry carries the expiry of a put of its version. -/
def EntryExpires (X : Nat → Nat → Prop) : EntryProp := fun _ ver expireTs _ => X ver expireTs

section Runs

variable {X : Nat → Nat → Prop}

theorem StoreExpires.step {s s' : Store} {l : Label} (h : StoreExpires X s) (hl : PutExpires X s l)
    (hstep : s.step l = some s') : StoreExpires X s' := by
  refine ⟨h.ok.step hstep, h.leaves.step (slotExpires X).publishKeeps h.ok ?_ hstep, ?_⟩
  · cases l with
    | publish i page crc now =>
      intro r hr
      exact (h.reqs r (mem_of_getElem? hr)).publish page crc now
    | _ => trivial
  cases step_cases hstep with
  | put a reqs _ _ _ hreqs =>
    intro r hr
    rcases mem_append.1 (show r ∈ s.pending ++ reqs from hr) with hr | hr
    · exact h.reqs r hr
    · rw [hreqs] at hr
      exact reqExpires_cachePutReqs hl.1 hl.2 hr
  | publish | publishRejected => exact fun r hr => h.reqs r (mem_of_mem_eraseIdx hr)
  | _ => exact h.reqs

theorem StoreExpires.format (hcfg : ConfigOk cfg) : StoreExpires X (Store.format cfg) :=
  ⟨SessionOk.format hcfg, LeavesOk.format cfg, fun r hr => by cases hr⟩

theorem StoreExpires.reopen {s : Store} (h : StoreExpires X s) (hcfg : ConfigOk cfg) :
    StoreExpires X (Session.reopen s cfg).store := by
  refine ⟨h.ok.reopen hcfg, (slotExpires X).reopen h.ok h.leaves cfg, fun r hr => ?_⟩
  unfold Session.reopen at hr
  split at hr
  · cases hr
  · cases hr

theorem StoreExpires.reads_step {s s' : Reads} {l : ReadsLabel} (h : StoreExpires X s.sess.store)
    (hl : PutsExpire X s l) (hstep : ReadsCase s l s') : StoreExpires X s'.sess.store := by
  have hkeep : ∀ (k : SessionLabel) {t : Session},
      (∀ l', k = .op l' → PutExpires X s.sess.store l') → OpensOk k →
      s.sess.step k = some t → StoreExpires X t.store := by
    intro k t hput hopens hs
    refine session_step_keeps (P := StoreExpires X) (C := PutExpires X)
      (fun h hl hs => h.step hl hs)
      (fun v h => ⟨h.ok.congr rfl h.ok.index h.ok.reqs rfl rfl,
        h.leaves.congr h.leaves.leaves rfl rfl, h.reqs⟩)
      (fun _ => trivial) h hput ?_ hs
    rintro cfg rfl
    exact h.reopen hopens
  rcases hstep.session with he | ⟨l', rfl, hs⟩ | ⟨cfg, b, m, rfl, hs⟩
  · rw [he]
    exact h
  · refine hkeep (.op l') (fun l'' he => ?_) trivial hs
    cases he
    exact hl
  · exact hkeep (.reopen cfg) (fun l'' he => by cases he) hl hs

theorem readable_of_readLeaf (hcfg : ConfigOk cfg) {disk : Disk} {m : ReadMem} {r : ReadResult}
    (h : readLeaf cfg disk m lf = .ok r) : lf.stripe.isSome ∨ lf.addr0.devId ≠ invalidDev := by
  cases hst : lf.stripe with
  | some st => exact .inl rfl
  | none =>
    refine .inr fun hdev => ?_
    have hbad : cfg.nDevs ≤ lf.addr0.devId := by
      rw [hdev]
      exact Nat.le_trans (Nat.le_of_lt hcfg.devsInt) (by decide)
    unfold readLeaf at h
    rw [hst] at h
    simp only [readReplicas_badDevice hbad m] at h
    cases h

theorem pinExpires_step {s s' : Reads} {l : ReadsLabel}
    (h : ReadsInv (EntryExpires X) (PinExpires X) s) (hs : StoreExpires X s.sess.store)
    (hstep : ReadsCase s l s') : ReadsInv (EntryExpires X) (PinExpires X) s' := by
  refine h.step ?_ ?_ ?_ ?_ ?_ hstep
  · intro lf lf' t st hsame hq
    unfold PinExpires SlotExpires
    rw [hsame.ver, hsame.addr0, hsame.striped]
    exact hq
  · intro path lf t hlf hexp
    exact ⟨hs.leaves.leaves path lf hlf, hexp, fun r hr => by cases hr⟩
  · intro lf t hq
    exact ⟨hq.1, hq.2.1, fun r hr => by cases hr⟩
  · intro i disk m p r _ _ hq hread
    exact ⟨hq.1, hq.2.1, fun _ _ => readable_of_readLeaf hs.ok.cfg hread⟩
  · intro k lf t r hq
    exact hq.1 (hq.2.2 r rfl)

/-- The get came before an expiry of the version. -/
def BeforeExpiry (X : Nat → Nat → Prop) (ver now : Nat) (_r : ReadResult) : Prop :=
  ∃ e, X ver e ∧ (e ≠ 0 → now ≤ e)

theorem beforeExpiry_of_le {ver now e : Nat} (r : ReadResult) (hX : X ver e)
    (h : e = 0 ∨ now ≤ e) : BeforeExpiry X ver now r := by
  refine ⟨e, hX, fun he => ?_⟩
  rcases h with h | h
  · exact absurd h he
  · exact h

/-- In every run, over any number of sessions, in which no put with an expiry is striped, whatever a
get returns is of a put that had not expired when the get began. `X` holds of the version and the
expiry of every put of the run. -/
theorem served_unexpired {cfg : Config} {dramBytes dramEntryMax : Nat} {ls : List ReadsLabel}
    {s : Reads} (hcfg : ConfigOk cfg)
    (hrun : RunOf Reads.step (PutsExpire X) (Reads.start cfg dramBytes dramEntryMax) ls s) :
    ∀ x ∈ s.served, ∃ e, X x.ver e ∧ (e ≠ 0 → x.now ≤ e) := by
  have hinv := RunOf.invariant
    (fun s : Reads => StoreExpires X s.sess.store ∧
      ReadsInv (EntryExpires X) (PinExpires X) s ∧ ServedAll (BeforeExpiry X) s)
    (fun s l s' h hl hs => by
      have hcase := reads_step_cases hs
      refine ⟨h.1.reads_step hl hcase, pinExpires_step h.2.1 h.1 hcase,
        h.2.1.served ?_ ?_ hcase h.2.2⟩
      · intro k ver expireTs data t hE hexp
        exact beforeExpiry_of_le _ hE hexp
      · intro lf t r hq
        exact beforeExpiry_of_le r (hq.1 (hq.2.2 r rfl)) hq.2.1)
    hrun ⟨StoreExpires.format hcfg, ReadsInv.start cfg dramBytes dramEntryMax,
      fun x hx => by cases hx⟩
  exact hinv.2.2

end Runs

/-- A get that finds nothing in memory. -/
def getAt (now : Nat) (disk : Disk) : List ReadsLabel :=
  [.pin 0 [1] now, .dramGet 0 now true, .ssdRead 0 disk ⟨fun _ => 0, fun _ => 0⟩,
    .backfill 0 true]

theorem get_steps (path : Path) (now : Nat) {disk : Disk} {m : ReadMem} {r : ReadResult}
    (hopen : s.sess.opening = none) (hpins : s.pins = []) (hd : s.dram = none)
    (hpath : 0 < path.length ∧ path.length ≤ maxGroups)
    (hleaf : s.sess.store.idx.tree.leafAt path = some lf) (hver : lf.ver ≠ 0)
    (hexp : lf.addr0.expireTs = 0 ∨ now ≤ lf.addr0.expireTs)
    (hread : readLeaf s.sess.store.cfg disk m lf = .ok r) :
    ∃ s1 s2 s3 s4, s.step (.pin 0 path now) = some s1 ∧ s1.step (.dramGet 0 now true) = some s2 ∧
      s2.step (.ssdRead 0 disk m) = some s3 ∧ s3.step (.backfill 0 true) = some s4 ∧
      s4.served = ⟨lf.ver, now, r⟩ :: s.served := by
  have hpin : s.step (.pin 0 path now) =
      some { s with pins := [⟨path, 0, lf, now, true, .pinned⟩] } := by
    have hlen : ¬ (path.length = 0 ∨ maxGroups < path.length) := by omega
    have hold : ¬ (lf.ver = 0 ∨ (lf.addr0.expireTs ≠ 0 ∧ lf.addr0.expireTs < now)) := by
      rintro (h | ⟨h0, hlt⟩)
      · exact hver h
      · omega
    simp only [Reads.step, Reads.pin, hopen, ne_eq, not_true_eq_false, if_false, if_neg hlen, hleaf,
      if_neg hold, hpins, nil_append]
  refine ⟨_, { s with pins := [⟨path, 0, lf, now, true, .missed⟩] },
    { s with pins := [⟨path, 0, lf, now, true, .loaded r⟩] },
    { s with pins := [], served := ⟨lf.ver, now, r⟩ :: s.served }, hpin, ?_, ?_, ?_, rfl⟩
  · simp [Reads.step, Reads.dramGet, hd]
  · simp [Reads.step, Reads.ssdRead, hread]
  · simp only [Reads.step, Reads.backfill, List.getElem?_cons_zero, hd]
    rfl

def expiringByte (crc : Nat) : List ReadsLabel :=
  [.op (.put ⟨0, 0, [1], 100, [1], false, 0⟩), .op (.publish 0 2 crc 1)]

/-- A plain put that expires at 100 is served to a get that began at 50. -/
theorem served_unexpired_plain :
    ∃ s x, RunOf Reads.step (PutsExpire fun ver e => ver = 1 ∧ e = 100) (Reads.start twoDevs 0 0)
        (expiringByte (crc32 zeroImage).toNat ++ getAt 50 zeroDisk) s ∧
      x ∈ s.served ∧ x.now = 50 ∧ ∃ e, (x.ver = 1 ∧ e = 100) ∧ (e ≠ 0 → x.now ≤ e) := by
  have hrun : ∀ crc : Nat, ∃ s, RunOf Reads.step (PutsExpire fun ver e => ver = 1 ∧ e = 100)
      (Reads.start twoDevs 0 0) (expiringByte crc) s ∧ s.sess.opening = none ∧ s.pins = [] ∧
      s.dram = none ∧ s.sess.store.cfg = twoDevs ∧ s.sess.store.idx.tree.leafAt [1] = some
        ⟨0, 1, 0, ⟨0, 2, 0, 1, 1, 100, crc⟩, KvAddr.none, none, some ⟨0, [1]⟩⟩ := by
    intro crc
    refine ⟨_, .cons ⟨by decide, fun h => absurd h (by decide)⟩ rfl (.cons trivial rfl (.nil _)),
      ?_, ?_, ?_, ?_, ?_⟩
    · rfl
    · rfl
    · rfl
    · rfl
    · rfl
  obtain ⟨s, hs, hopen, hpins, hd, hcfg, hleaf⟩ := hrun (crc32 zeroImage).toNat
  have hread : readLeaf s.sess.store.cfg zeroDisk ⟨fun _ => 0, fun _ => 0⟩
      ⟨0, 1, 0, ⟨0, 2, 0, 1, 1, 100, (crc32 zeroImage).toNat⟩, KvAddr.none, none, some ⟨0, [1]⟩⟩ =
      .ok ⟨[0], [⟨0, 0, 1⟩]⟩ := by
    rw [hcfg]
    exact readLeaf_zeroPage ⟨by decide, by decide, by decide⟩ rfl rfl rfl rfl rfl _
  obtain ⟨s1, s2, s3, s4, h1, h2, h3, h4, hserved⟩ := get_steps [1] 50 hopen hpins
    hd ⟨by decide, by decide⟩ hleaf Nat.one_ne_zero (.inr (show 50 ≤ 100 by decide)) hread
  have hall : RunOf Reads.step (PutsExpire fun ver e => ver = 1 ∧ e = 100) (Reads.start twoDevs 0 0)
      (expiringByte (crc32 zeroImage).toNat ++ getAt 50 zeroDisk) s4 :=
    hs.append (.cons trivial h1 (.cons trivial h2 (.cons trivial h3
    (.cons trivial h4 (.nil _)))))
  have hmem : ⟨1, 50, ⟨[0], [⟨0, 0, 1⟩]⟩⟩ ∈ s4.served := by
    rw [hserved]
    exact mem_cons_self
  exact ⟨s4, _, hall, hmem, rfl, served_unexpired ⟨by decide, by decide, by decide⟩ hall _ hmem⟩

/-! ## A striped put with an expiry -/

/-- A put of two pages that expires at 100. -/
def expiringPut (crc : Nat) : PutArgs := ⟨0, 0, [1], 100, [8192], false, crc⟩

/-- Its two parts are published. -/
def expiringRun (crc : Nat) : List Label :=
  [.put (expiringPut crc), .publish 0 64 0 1, .publish 0 65 0 1]

def expiringLeaf (crc : Nat) (parts : List StripePart) : RadixLeaf where
  refcnt := 0
  ver := 1
  prefixId := 0
  addr0 := { KvAddr.zero with crc := crc }
  addr1 := KvAddr.zero
  stripe := some ⟨2, 8192, parts⟩
  shape := some ⟨0, [8192]⟩

/-- The request of part `i`. -/
def expiringReq (crc i : Nat) : PutReq :=
  stripeReq twoDevs (expiringPut crc) 1 ⟨0, [8192]⟩ 8192 2 i

theorem cachePutReqs_expiringPut (crc : Nat) :
    cachePutReqs twoDevs (expiringPut crc) 1 ⟨0, [8192]⟩ =
      some [expiringReq crc 0, expiringReq crc 1] := by
  have hsplit : stripeSplit ((expiringPut crc).lens.sum % 2 ^ 32) twoDevs.stripeUnit = some 2 :=
    show stripeSplit ([8192].sum % 2 ^ 32) 4096 = some 2 from rfl
  simp only [cachePutReqs, hsplit]
  rfl

/-- The extent of part `i`, at page `64 + i`. -/
def expiringPart (crc i : Nat) : StripePart := ((expiringReq crc i).args (64 + i) 0 1).addr.extent

/-- The index with part 0 of the put. -/
def expiringIndex (crc : Nat) : Index :=
  (resolveNode { Index.empty with shapes := [⟨0, [8192]⟩] } 0 0 [1]).1.publish [1]
    ((expiringReq crc 0).args 64 0 1)

theorem expiringRun_leaf (crc : Nat) :
    ∃ s, RunOf Store.step (fun _ _ => True) (Store.format twoDevs) (expiringRun crc) s ∧
      s.cfg = twoDevs ∧
      s.idx.tree.leafAt [1] = some (expiringLeaf crc [expiringPart crc 0, expiringPart crc 1]) := by
  obtain ⟨s1, h1, hpend1, hphase1, hidx1, hcfg1⟩ : ∃ s1,
      (Store.format twoDevs).step (.put (expiringPut crc)) = some s1 ∧
      s1.pending = [expiringReq crc 0, expiringReq crc 1] ∧ s1.phase = .idle ∧
      s1.idx = { Index.empty with shapes := [⟨0, [8192]⟩] } ∧ s1.cfg = twoDevs := by
    have hreqs : cachePutReqs (Store.format twoDevs).cfg (expiringPut crc)
        (((Store.format twoDevs).verCounter + 1) % 2 ^ 32)
        (shapePoolIntern (Store.format twoDevs).idx.shapes (expiringPut crc).lens).2 =
        some [expiringReq crc 0, expiringReq crc 1] := cachePutReqs_expiringPut crc
    simp only [Store.step, Store.put, hreqs]
    exact ⟨_, rfl, rfl, rfl, rfl, rfl⟩
  obtain ⟨s2, h2, hpend2, hphase2, hidx2, hcfg2⟩ : ∃ s2, s1.step (.publish 0 64 0 1) = some s2 ∧
      s2.pending = [expiringReq crc 1] ∧ s2.phase = .idle ∧ s2.idx = expiringIndex crc ∧
      s2.cfg = twoDevs := by
    simp only [Store.step, Store.publish, hphase1, hpend1, hidx1]
    exact ⟨_, rfl, rfl, rfl, rfl, hcfg1⟩
  obtain ⟨s3, h3, hleaf3, hcfg3⟩ : ∃ s3, s2.step (.publish 0 65 0 1) = some s3 ∧
      s3.idx.tree.leafAt [1] = some (expiringLeaf crc [expiringPart crc 0, expiringPart crc 1]) ∧
      s3.cfg = twoDevs := by
    simp only [Store.step, Store.publish, hphase2, hpend2, hidx2]
    exact ⟨_, rfl, rfl, hcfg2⟩
  exact ⟨s3, .cons trivial h1 (.cons trivial h2 (.cons trivial h3 (.nil _))), hcfg3, hleaf3⟩

theorem readLeaf_expiringLeaf {crc : Nat}
    (hcrc : streamCrc (fun _ => 0) [List.replicate 8192 7] = crc) (m : ReadMem) :
    readLeaf twoDevs (partsDisk twoDevs pagesPut (stageStream (fun _ => 0) [List.replicate 8192 7])) m
        (expiringLeaf crc [expiringPart crc 0, expiringPart crc 1]) =
      .ok ⟨List.replicate 8192 7, [⟨0, 0, 8192⟩]⟩ := by
  have happ : PartsApart twoDevs pagesPut := ⟨by decide +kernel, by decide +kernel⟩
  have hin : InStream twoDevs pagesPut := ⟨by decide +kernel, by decide +kernel⟩
  have hrecs : [List.replicate 8192 (7 : UInt8)].map List.length = pagesPut.args.lens := by
    rw [map_singleton, length_replicate]
    rfl
  have haddr : pagesPut.stripeAddr twoDevs =
      ⟨2, 8192, [expiringPart 0 0, expiringPart 0 1]⟩ := by decide +kernel
  have hread := readStripe_staged ⟨by decide, by decide, by decide⟩ happ hin
    (show [8192].sum < 2 ^ 32 by decide) (show 0 < [8192].sum by decide)
    (show [8192].sum % pageSize = 0 by decide) hrecs
    (written_partsDisk happ (stageStream (fun _ => 0) [List.replicate 8192 7])) m
  have hparts : ∀ i, expiringPart 0 i = expiringPart crc i := fun _ => rfl
  rw [haddr, flatten_singleton, hcrc, hparts, hparts] at hread
  simp only [readLeaf, expiringLeaf, hread]
  rfl

theorem reads_of_store {ls : List Label} {t : Store}
    (hrun : RunOf Store.step (fun _ _ => True) s.sess.store ls t) (hopen : s.sess.opening = none)
    (hpins : s.pins = []) (hd : s.dram = none) :
    ∃ s', RunOf Reads.step (fun _ => ReadsOpensOk) s (ls.map .op) s' ∧ s'.sess = ⟨t, none⟩ ∧
      s'.pins = [] ∧ s'.dram = none ∧ s'.served = s.served := by
  induction ls generalizing s with
  | nil =>
    cases hrun
    refine ⟨s, .nil _, ?_, hpins, hd, rfl⟩
    rw [← hopen]
  | cons l ls ih =>
    cases hrun with
    | cons hok hl hrest =>
      rename_i u
      have hstep : s.step (.op l) = some (s.after ⟨u, none⟩ l) := by
        have hfree : ∀ node, s.pinnedAt node = false := by
          intro node
          rw [Reads.pinnedAt, hpins]
          rfl
        have hs : s.sess.step (.op l) = some ⟨u, none⟩ := by
          simp only [Session.step, hopen, hl]
          rfl
        cases l with
        | drop node =>
          simp only [Reads.step, Reads.opStep, hfree, hs, Bool.false_eq_true, if_false,
            Option.map_some]
        | _ => simp only [Reads.step, Reads.opStep, hs, Option.map_some]
      have hpins' : (s.after ⟨u, none⟩ l).pins = [] := by
        refine eq_nil_iff_forall_not_mem.2 fun p hp => ?_
        obtain ⟨p0, hp0, _⟩ := pins_after hp
        rw [hpins] at hp0
        cases hp0
      have hd' : (s.after ⟨u, none⟩ l).dram = none := by
        rcases dram_after s ⟨u, none⟩ l with he | ⟨k, he⟩
        · rw [he, hd]
        · rw [he, hd]
          rfl
      have hsess := sess_after s ⟨u, none⟩ l
      obtain ⟨s', hs', h1, h2, h3, h4⟩ := ih (s := s.after ⟨u, none⟩ l) (by rw [hsess]; exact hrest)
        (by rw [hsess]) hpins' hd'
      rw [served_after] at h4
      exact ⟨s', .cons trivial hstep hs', h1, h2, h3, h4⟩

/-- A striped put that expired at 100 is served by a get that began at 200. -/
theorem striped_served_expired :
    ∃ crc disk s, RunOf Reads.step (fun _ => ReadsOpensOk) (Reads.start twoDevs 0 0)
        ((expiringRun crc).map .op ++ getAt 200 disk) s ∧
      (expiringPut crc).expireTs = 100 ∧
      s.served = [⟨1, 200, ⟨List.replicate 8192 7, [⟨0, 0, 8192⟩]⟩⟩] := by
  obtain ⟨crc, hcrc⟩ : ∃ crc, streamCrc (fun _ => 0) [List.replicate 8192 7] = crc := ⟨_, rfl⟩
  obtain ⟨t, ht, hcfg, hleaf⟩ := expiringRun_leaf crc
  obtain ⟨s, hs, hsess, hpins, hd, hnone⟩ := reads_of_store (s := Reads.start twoDevs 0 0) ht rfl rfl rfl
  have hread := readLeaf_expiringLeaf hcrc ⟨fun _ => 0, fun _ => 0⟩
  obtain ⟨s1, s2, s3, s4, h1, h2, h3, h4, hserved⟩ := get_steps (s := s) [1] 200
    (by rw [hsess]) hpins hd ⟨by decide, by decide⟩ (by rw [hsess]; exact hleaf) Nat.one_ne_zero
    (.inl rfl) (by rw [hsess, hcfg]; exact hread)
  refine ⟨_, _, s4, hs.append (.cons trivial h1 (.cons trivial h2 (.cons trivial h3
    (.cons trivial h4 (.nil _))))), rfl, ?_⟩
  rw [hserved, hnone]
  rfl

end KvTier.Analysis
