import KvTier.Analysis.Recovery
import KvTier.Analysis.StripeReplay

/-!
# Striped puts: live publish and replay

A payload above the stripe threshold is cut into parts, one request each, and every part that
completes leaves one journal record.
-/

namespace KvTier.Analysis

open KvTier.Lib KvTier.Model List

/-! ## The parts of a put -/

/-- A striped put, with the pages and times of its parts. -/
structure StripedPut where
  args : PutArgs
  ver : Nat
  shape : Shape
  page : Nat → Nat
  now : Nat → Nat

namespace StripedPut

/-- `stream_len`. -/
def len (P : StripedPut) : Nat := P.args.lens.sum % 2 ^ 32

/-- `n_parts`. -/
def nParts (cfg : Config) (P : StripedPut) : Nat := (stripeSplit P.len cfg.stripeUnit).getD 0

/-- The request of part `i`. -/
def req (cfg : Config) (P : StripedPut) (i : Nat) : PutReq :=
  stripeReq cfg P.args P.ver P.shape P.len (P.nParts cfg) i

/-- The publish of part `i`. -/
def pub (cfg : Config) (P : StripedPut) (i : Nat) : PublishArgs :=
  (P.req cfg i).args (P.page i) 0 (P.now i)

/-- The extent of part `i`. -/
def part (cfg : Config) (P : StripedPut) (i : Nat) : Extent := (P.pub cfg i).addr.extent

/-- The journal records of the parts. -/
def recs (cfg : Config) (P : StripedPut) : List JournalRec :=
  (List.range (P.nParts cfg)).map fun i => journalPutRec (P.pub cfg i)

/-- Prefix, group and version. -/
def triple (P : StripedPut) : Triple := (P.args.prefixId, P.args.groupIdx, P.ver)

/-- Prefix and group. -/
def key (P : StripedPut) : UInt64 × Nat := (P.args.prefixId, P.args.groupIdx)

/-- What `cache_put_impl` accepts and stripes. -/
structure Issued (cfg : Config) (pathOf : UInt64 → Nat → Path) (P : StripedPut) : Prop where
  threshold : cfg.stripeThreshold % 2 ^ 32 < P.args.lens.sum
  accepted : (cachePutReqs cfg P.args P.ver P.shape).isSome
  shape : P.shape.lens = P.args.lens
  path : P.args.path = pathOf P.args.prefixId P.args.groupIdx

/-- The leaf of the put, with a given total length. -/
def image (cfg : Config) (P : StripedPut) (total : Nat) : StripeImage where
  prefixId := P.args.prefixId
  ver := P.ver
  nParts := P.nParts cfg
  total := total
  crc := P.args.streamCrc
  lens := P.args.lens
  part := P.part cfg

/-- The bytes of the slices, in 32 bits. -/
def slicesTotal (cfg : Config) (P : StripedPut) : Nat :=
  ((List.range (P.nParts cfg)).map (sliceLen cfg.stripeUnit P.len)).sum % 2 ^ 32

variable {cfg : Config} {pathOf : UInt64 → Nat → Path} {P : StripedPut}

theorem Issued.reqs (h : P.Issued cfg pathOf) :
    cachePutReqs cfg P.args P.ver P.shape =
      some ((List.range (P.nParts cfg)).map (P.req cfg)) ∧
    0 < P.nParts cfg ∧ cfg.stripeUnit % 2 ^ 32 ≠ 0 ∧ P.args.lens.length ≤ cfg.maxLayers := by
  have hacc := h.accepted
  unfold cachePutReqs at hacc ⊢
  split at hacc
  · cases hacc
  rename_i hadm
  have hlay : P.args.lens.length ≤ cfg.maxLayers := by omega
  rw [if_pos h.threshold] at hacc ⊢
  simp only at hacc ⊢
  cases hs : stripeSplit (P.args.lens.sum % 2 ^ 32) cfg.stripeUnit with
  | none => rw [hs] at hacc; cases hacc
  | some n =>
    rw [hs] at hacc
    have hn : P.nParts cfg = n := by
      rw [nParts, len, hs]
      rfl
    have hunit : cfg.stripeUnit % 2 ^ 32 ≠ 0 := by
      intro h0
      rw [stripeSplit, if_pos h0] at hs
      cases hs
    have hpos : 0 < n := by
      simp only [stripeSplit, hunit, if_false, Option.some.injEq] at hs
      rw [← hs]
      split <;> omega
    simp only at hacc ⊢
    split at hacc
    · cases hacc
    rename_i hcap
    refine ⟨?_, hn ▸ hpos, hunit, hlay⟩
    rw [if_neg hadm, if_neg hcap, hn]
    simp only [Option.some.injEq]
    refine map_congr_left fun i _ => ?_
    simp [req, hn, len]

/-- More than one part exactly if the stream is longer than the unit. -/
theorem two_le_nParts (hunit : cfg.stripeUnit % 2 ^ 32 ≠ 0) :
    2 ≤ P.nParts cfg ↔ cfg.stripeUnit % 2 ^ 32 < P.len := by
  have hlen : P.len < 2 ^ 32 := Nat.mod_lt _ (by decide)
  unfold nParts
  simp only [stripeSplit, hunit, if_false, Option.getD_some]
  generalize cfg.stripeUnit % 2 ^ 32 = u at hunit
  generalize P.len = l at hlen
  have hu : 0 < u := Nat.pos_of_ne_zero hunit
  have hle : (l + u - 1) / u ≤ l := by
    rcases Nat.eq_zero_or_pos l with rfl | hl
    · rw [Nat.div_eq_of_lt (by omega)]
    · apply Nat.div_le_of_le_mul
      nlinarith [Nat.sub_add_cancel (show 1 ≤ l + u by omega)]
  rw [Nat.mod_eq_of_lt (by omega)]
  have hiff : 2 ≤ (l + u - 1) / u ↔ u < l := by
    rw [Nat.le_div_iff_mul_le hu]
    omega
  split
  · omega
  · exact hiff

theorem stripeSplit_cover {u l : Nat} (hu : u % 2 ^ 32 ≠ 0) (hl : 0 < l) (h32 : l < 2 ^ 32) :
    ∃ n, stripeSplit l u = some n ∧ (∀ i, i < n → i * (u % 2 ^ 32) < l) ∧
      l ≤ n * (u % 2 ^ 32) := by
  have hpos : 0 < u % 2 ^ 32 := Nat.pos_of_ne_zero hu
  refine ⟨(l - 1) / (u % 2 ^ 32) + 1, ?_, ?_, ?_⟩
  · simp only [stripeSplit, hu, if_false]
    generalize u % 2 ^ 32 = v at hpos
    have hle : (l - 1) / v ≤ l - 1 := Nat.div_le_self _ _
    rw [show l + v - 1 = l - 1 + v by omega, Nat.add_div_right _ hpos,
      Nat.mod_eq_of_lt (by omega), if_neg (Nat.succ_ne_zero _)]
  · intro i hi
    have hlow := Nat.div_mul_le_self (l - 1) (u % 2 ^ 32)
    have : i * (u % 2 ^ 32) ≤ (l - 1) / (u % 2 ^ 32) * (u % 2 ^ 32) :=
      Nat.mul_le_mul_right _ (by omega)
    omega
  · have hhigh := Nat.lt_mul_div_succ (l - 1) hpos
    rw [Nat.mul_comm] at hhigh
    omega

theorem sliceLen_eq {u l i : Nat} (h32 : l < 2 ^ 32) (hi : i * u ≤ l) :
    sliceLen u l i = min u (l - i * u) := by
  have h64 : i * u % 2 ^ 64 = i * u := Nat.mod_eq_of_lt (by omega)
  rw [sliceLen, h64, show l + 2 ^ 64 - i * u = l - i * u + 2 ^ 64 by omega, Nat.add_mod_right,
    Nat.mod_eq_of_lt (show l - i * u < 2 ^ 64 by omega), Nat.mod_eq_of_lt]
  omega

theorem sum_slices (u l : Nat) (m : Nat) :
    ((List.range m).map fun i => min u (l - i * u)).sum = min (m * u) l := by
  induction m with
  | zero => simp
  | succ m ih =>
    rw [range_succ, map_append, sum_append, ih]
    simp only [map_cons, map_nil, sum_cons, sum_nil, Nat.succ_mul]
    omega

/-! ## Publishes and records of the parts -/

theorem isPart_pub (h : P.Issued cfg pathOf) {i : Nat} (hi : i < P.nParts cfg) :
    (P.image cfg P.len).IsPart (P.pub cfg i) :=
  ⟨rfl, rfl, rfl, rfl, rfl, h.shape, hi, rfl⟩

theorem partRec_rec (hcfg : ConfigOk cfg) (h : P.Issued cfg pathOf) {i : Nat}
    (hi : i < P.nParts cfg) (d : Nat) :
    (P.image cfg (P.slicesTotal cfg)).PartRec (sliceLen cfg.stripeUnit P.len)
      { journalPutRec (P.pub cfg i) with devId := d } where
  cnt := rfl
  idx := hi
  part := rfl
  dlen := rfl
  crc := rfl
  lens := by
    have hcap : (lensOf (P.pub cfg i).shape).length ≤ maxLayersCap := by
      show P.shape.lens.length ≤ maxLayersCap
      rw [h.shape]
      exact h.reqs.2.2.2.trans hcfg.layers
    exact (replayLens_journalPutRec hcap d).trans h.shape

theorem eq_of_mem_recs {r : JournalRec} (hr : { r with devId := 0 } ∈ P.recs cfg) :
    ∃ i, i < P.nParts cfg ∧ r = { journalPutRec (P.pub cfg i) with devId := r.devId } := by
  obtain ⟨i, hi, he⟩ := mem_map.mp hr
  refine ⟨i, mem_range.mp hi, ?_⟩
  have hcong := congrArg (fun x : JournalRec => { x with devId := r.devId }) he
  exact hcong.symm

theorem ofPut_rec (h2 : 2 ≤ P.nParts cfg) (i d : Nat) :
    ofPut P.triple { journalPutRec (P.pub cfg i) with devId := d } = true := by
  have hcnt : 1 < P.nParts cfg := by omega
  have hpart : isPartRec { journalPutRec (P.pub cfg i) with devId := d } = true :=
    decide_eq_true ⟨rfl, hcnt⟩
  rw [ofPut, hpart, Bool.true_and]
  exact decide_eq_true rfl

end StripedPut

/-! ## The live publishes -/

/-- The completions of the requests. -/
def publishReqs (page now : Nat → Nat) (idx : Index) (reqs : List PutReq) : Index :=
  reqs.foldl (fun idx r =>
    (resolveNode idx r.prefixId r.groupIdx r.path).1.publish
      (resolveNode idx r.prefixId r.groupIdx r.path).2
      (r.args (page r.stripeIdx) 0 (now r.stripeIdx))) idx

theorem publishReq_own {pathOf : UInt64 → Nat → Path} {p : UInt64} {g : Nat}
    (hlen : (pathOf p g).length = g + 1) {idx : Index} (hs : SideOk idx) (hp : OwnPaths pathOf idx)
    {a : PublishArgs} (hpre : a.prefixId = p) (hgrp : a.groupIdx = g) :
    (resolveNode idx p g (pathOf p g)).2 = pathOf p g ∧
    SideOk ((resolveNode idx p g (pathOf p g)).1.publish (pathOf p g) a) ∧
    OwnPaths pathOf ((resolveNode idx p g (pathOf p g)).1.publish (pathOf p g) a) ∧
    ((resolveNode idx p g (pathOf p g)).1.publish (pathOf p g) a).tree.leafAt (pathOf p g) =
      (leafPublish (idx.tree.leafAt (pathOf p g)) a).leaf := by
  obtain ⟨hown, hnode⟩ := hp.resolveNode (p := p) (g := g)
  have hside := hs.resolveNode p g hlen
  have hget := sideGet_resolveNode_self idx p g (pathOf p g)
  rw [hnode] at hget
  refine ⟨hnode, hside.publish ?_, fun p' g' q hq => hown p' g' q hq, ?_⟩
  · rw [hpre, hgrp]
    exact hget
  · rw [leafAt_publish _ _ _ (hside.node _ _ _ hget), if_pos rfl, leafAt_resolveNode]

theorem leafAt_publishReqs (page now : Nat → Nat) {pathOf : UInt64 → Nat → Path} {p : UInt64}
    {g : Nat} (hlen : (pathOf p g).length = g + 1) {idx : Index} (hs : SideOk idx)
    (hp : OwnPaths pathOf idx) {reqs : List PutReq}
    (hr : ∀ r ∈ reqs, r.prefixId = p ∧ r.groupIdx = g ∧ r.path = pathOf p g) :
    (publishReqs page now idx reqs).tree.leafAt (pathOf p g) =
      publishLeaf (idx.tree.leafAt (pathOf p g))
        (reqs.map fun r => r.args (page r.stripeIdx) 0 (now r.stripeIdx)) := by
  induction reqs generalizing idx with
  | nil => rfl
  | cons r reqs ih =>
    obtain ⟨rfl, rfl, hpath⟩ := hr r (by simp)
    obtain ⟨hnode, hside, hown, hleaf⟩ := publishReq_own hlen hs hp
      (a := r.args (page r.stripeIdx) 0 (now r.stripeIdx)) rfl rfl
    have hrest := ih hside hown fun x hx => hr x (by simp [hx])
    rw [hleaf] at hrest
    rw [publishReqs, foldl_cons, hpath, hnode]
    exact hrest

/-! ## One put -/

/-- Leaves that differ in nothing a read looks at. -/
def SameStripe (lf lf' : RadixLeaf) : Prop :=
  lf.prefixId = lf'.prefixId ∧ lf.ver = lf'.ver ∧ lf.addr0.crc = lf'.addr0.crc ∧
    lf.stripe = lf'.stripe ∧ lensOf lf.shape = lensOf lf'.shape

/-- Replay makes the leaf that the publishes made. -/
def ReplaysAsPublished (pathOf : UInt64 → Nat → Path) (P : StripedPut) (reqs : List PutReq) :
    Prop :=
  ∀ live : List PutReq, live.Perm reqs →
  ∀ recs : List JournalRec, (recs.map fun r => { r with devId := 0 }).Perm
    (reqs.map fun r => journalPutRec (r.args (P.page r.stripeIdx) 0 (P.now r.stripeIdx))) →
  ∀ idx : Index, SideOk idx → OwnPaths pathOf idx → idx.tree.leafAt P.args.path = none →
  ∀ idx' : Index, ReplayOk idx' → OwnPaths pathOf idx' → idx'.tree.leafAt P.args.path = none →
  ∀ nDevs regionCnt : Nat,
    (∃ lf lf',
      (publishReqs P.page P.now idx live).tree.leafAt P.args.path = some lf ∧
      (replayJournal nDevs regionCnt ⟨idx', [], 0, []⟩ recs).idx.tree.leafAt P.args.path =
        some lf' ∧
      SameStripe lf lf') ∧
    (replayJournal nDevs regionCnt ⟨idx', [], 0, []⟩ recs).idx.oob = idx'.oob

theorem StripedPut.recs_perm (P : StripedPut) (cfg : Config) :
    ((P.recs cfg).map fun r => { r with devId := 0 }).Perm (P.recs cfg) := by
  refine Perm.of_eq ?_
  rw [StripedPut.recs, map_map]
  rfl

theorem StripedPut.recs_eq (P : StripedPut) (cfg : Config) :
    (((List.range (P.nParts cfg)).map (P.req cfg)).map fun r =>
      journalPutRec (r.args (P.page r.stripeIdx) 0 (P.now r.stripeIdx))) = P.recs cfg := by
  rw [map_map]
  rfl

theorem ownPaths_empty (pathOf : UInt64 → Nat → Path) : OwnPaths pathOf Index.empty := by
  intro p g q hq
  simp [Index.empty] at hq

theorem replayOk_empty : ReplayOk Index.empty :=
  ⟨SideOk.empty, fun q lf hl => by simp [Index.empty, Trie.leafAt_nil] at hl⟩

section OnePut

variable {cfg : Config} {pathOf : UInt64 → Nat → Path} {P : StripedPut}

/-- Published in any order, the parts make the complete leaf. -/
theorem StripedPut.complete_live (h : P.Issued cfg pathOf) (hlen : ∀ p g, (pathOf p g).length = g + 1)
    {live : List PutReq} (hlive : live.Perm ((List.range (P.nParts cfg)).map (P.req cfg)))
    {idx : Index} (hs : SideOk idx) (hp : OwnPaths pathOf idx)
    (hold : Stale P.ver (idx.tree.leafAt P.args.path)) :
    (P.image cfg P.len).Complete
      ((publishReqs P.page P.now idx live).tree.leafAt P.args.path) := by
  have hmem : ∀ r ∈ live, ∃ i, i < P.nParts cfg ∧ r = P.req cfg i := by
    intro r hr
    obtain ⟨i, hi, rfl⟩ := mem_map.mp (hlive.mem_iff.mp hr)
    exact ⟨i, mem_range.mp hi, rfl⟩
  rw [h.path] at hold ⊢
  rw [leafAt_publishReqs P.page P.now (hlen _ _) hs hp]
  · refine (StripeImage.complete_publishLeaf ?_ ?_ ?_ h.reqs.2.1 hold).1
    · intro a ha
      obtain ⟨r, hr, rfl⟩ := mem_map.mp ha
      obtain ⟨i, hi, rfl⟩ := hmem r hr
      exact P.isPart_pub h hi
    · intro a ha
      obtain ⟨r, hr, rfl⟩ := mem_map.mp ha
      obtain ⟨i, hi, rfl⟩ := hmem r hr
      rfl
    intro i hi
    have hin : P.req cfg i ∈ live :=
      hlive.mem_iff.mpr (mem_map_of_mem (mem_range.mpr hi))
    exact ⟨_, mem_map_of_mem hin, rfl⟩
  · intro r hr
    obtain ⟨i, _, rfl⟩ := hmem r hr
    exact ⟨rfl, rfl, h.path⟩

theorem StripedPut.track_alone (hcfg : ConfigOk cfg) (h : P.Issued cfg pathOf)
    (hlen : ∀ p g, (pathOf p g).length = g + 1) (h2 : 2 ≤ P.nParts cfg) {recs : List JournalRec}
    (hrecs : (recs.map fun r => { r with devId := 0 }).Perm (P.recs cfg)) :
    StripeTrack pathOf (P.image cfg (P.slicesTotal cfg)) P.args.groupIdx
      (sliceLen cfg.stripeUnit P.len) recs ∧
    recs.filter (ofPut P.triple) = recs ∧ recs.length = P.nParts cfg := by
  have heq : ∀ r ∈ recs, ∃ i, i < P.nParts cfg ∧
      r = { journalPutRec (P.pub cfg i) with devId := r.devId } := by
    intro r hr
    exact P.eq_of_mem_recs (hrecs.mem_iff.mp (mem_map_of_mem hr))
  have hof : ∀ r ∈ recs, ofPut P.triple r = true := by
    intro r hr
    obtain ⟨i, _, he⟩ := heq r hr
    rw [he]
    exact P.ofPut_rec h2 i _
  have hfilter : recs.filter (ofPut P.triple) = recs := filter_eq_self.mpr hof
  have hidx : (recs.map (·.stripeIdx)).Perm (List.range (P.nParts cfg)) := by
    have := hrecs.map (·.stripeIdx)
    rw [map_map, StripedPut.recs, map_map] at this
    refine this.trans (Perm.of_eq ?_)
    exact (map_congr_left fun _ _ => rfl).trans (map_id _)
  have hlength : recs.length = P.nParts cfg := by
    have := hidx.length_eq
    simpa using this
  refine ⟨?_, hfilter, hlength⟩
  refine ⟨h2, rfl, ?_, ?_, ?_, ?_, hlen, ?_⟩
  · intro r hr _
    obtain ⟨i, hi, he⟩ := heq r hr
    rw [he]
    exact P.partRec_rec hcfg h hi _
  · show ((recs.filter (ofPut P.triple)).map (·.stripeIdx)).Nodup
    rw [hfilter]
    exact hidx.nodup_iff.mpr nodup_range
  · intro r hr _ _
    exact Or.inl (hof r hr)
  · intro r hr hdel
    obtain ⟨i, _, he⟩ := heq r hr
    rw [he] at hdel
    cases hdel
  intro r hr _
  obtain ⟨i, _, he⟩ := heq r hr
  rw [he]
  exact h.path

/-- Replay of all part records, in any order, gives the complete leaf. -/
theorem StripedPut.complete_replayed (hcfg : ConfigOk cfg) (h : P.Issued cfg pathOf)
    (hlen : ∀ p g, (pathOf p g).length = g + 1) (h2 : 2 ≤ P.nParts cfg) {recs : List JournalRec}
    (hrecs : (recs.map fun r => { r with devId := 0 }).Perm (P.recs cfg)) {idx : Index}
    (hok : ReplayOk idx) (hp : OwnPaths pathOf idx) (hvac : idx.tree.leafAt P.args.path = none)
    (nDevs regionCnt : Nat) :
    (P.image cfg (P.slicesTotal cfg)).Complete
      ((replayJournal nDevs regionCnt ⟨idx, [], 0, []⟩ recs).idx.tree.leafAt P.args.path) ∧
    (replayJournal nDevs regionCnt ⟨idx, [], 0, []⟩ recs).idx.oob = idx.oob := by
  obtain ⟨htrack, hfilter, hlength⟩ := StripedPut.track_alone hcfg h hlen h2 hrecs
  have hof : ∀ r ∈ recs, ofPut P.triple r = true := filter_eq_self.mp hfilter
  have hgather : StripeTrack.Gathered (P.image cfg (P.slicesTotal cfg)) P.args.groupIdx recs := by
    refine ⟨?_, ?_⟩
    · have hne : recs ≠ [] := by
        rintro rfl
        simp only [length_nil] at hlength
        omega
      obtain ⟨r, hr⟩ := exists_mem_of_ne_nil recs hne
      have hpart : ∀ x ∈ recs, isPartRec x = true ∧ recTriple x = P.triple := by
        intro x hx
        simpa [ofPut] using hof x hx
      have hone : ∀ x ∈ recs, isPartRec x = true → recTriple x ∈ [P.triple] :=
        fun x hx _ => by simp [(hpart x hx).2]
      have hadm := mem_admitted_of_few hr (hpart r hr).1 (by simp [replayStripeCap]) hone
      rw [(hpart r hr).2] at hadm
      exact hadm
    · show P.nParts cfg ≤ (recs.filter (ofPut P.triple)).length
      rw [hfilter, hlength]
  rw [h.path] at hvac ⊢
  have hstale : Stale P.ver (idx.tree.leafAt (pathOf P.args.prefixId P.args.groupIdx)) := by
    intro lf hl
    rw [hvac] at hl
    cases hl
  refine ⟨?_, ?_⟩
  · have hnode := (htrack.journal nDevs regionCnt ⟨idx, [], 0, []⟩ rfl hok hp).1 hstale
    rw [StripeTrack.NodeState, if_pos hgather] at hnode
    exact hnode
  · exact htrack.oob_journal nDevs regionCnt ⟨idx, [], 0, []⟩ rfl hok hp hstale hof hlength.le

theorem StripedPut.replayed_one (h : P.Issued cfg pathOf)
    (hlen : ∀ p g, (pathOf p g).length = g + 1) (h1 : P.nParts cfg = 1) {idx : Index}
    (hok : ReplayOk idx) (hp : OwnPaths pathOf idx) (hvac : idx.tree.leafAt P.args.path = none)
    (nDevs regionCnt : Nat) :
    ∃ lf, (replayJournal nDevs regionCnt ⟨idx, [], 0, []⟩ (P.recs cfg)).idx.tree.leafAt
        P.args.path = some lf ∧ lf.stripe = some ⟨0, 0, []⟩ := by
  have hrecs : P.recs cfg = [journalPutRec (P.pub cfg 0)] := by
    simp [StripedPut.recs, h1]
  have hcnt : ¬ 1 < (journalPutRec (P.pub cfg 0)).stripeCnt := by
    show ¬ 1 < P.nParts cfg
    omega
  have hplen : P.args.path.length = P.args.groupIdx + 1 := by
    rw [h.path]
    exact hlen _ _
  have hne : P.args.path ≠ [] := by
    intro he
    simp [he] at hplen
  have hside := hok.side.resolveNode P.args.prefixId P.args.groupIdx hplen
  have hget := sideGet_resolveNode_self idx P.args.prefixId P.args.groupIdx P.args.path
  have hnode := (hp.resolveNode (p := P.args.prefixId) (g := P.args.groupIdx)).2
  rw [← h.path] at hnode
  have hsome := hside.node _ _ _ hget
  rw [hnode] at hsome
  have happly : (replayJournal nDevs regionCnt ⟨idx, [], 0, []⟩ (P.recs cfg)).idx =
      ({ (resolveNode idx P.args.prefixId P.args.groupIdx P.args.path).1 with
          shapes := (replayShape idx.shapes (journalPutRec (P.pub cfg 0))).1 } : Index).publish
        P.args.path (replayArgs (journalPutRec (P.pub cfg 0))
          (replayShape idx.shapes (journalPutRec (P.pub cfg 0))).2) := by
    rw [hrecs]
    show (replayApply nDevs regionCnt ⟨idx, [], 0, []⟩ (journalPutRec (P.pub cfg 0))).idx = _
    unfold replayApply
    have hop : (journalPutRec (P.pub cfg 0)).op = .put := rfl
    have hpath : (journalPutRec (P.pub cfg 0)).path = P.args.path := rfl
    have hpre : (journalPutRec (P.pub cfg 0)).prefixId = P.args.prefixId := rfl
    have hgrp : (journalPutRec (P.pub cfg 0)).groupIdx = P.args.groupIdx := rfl
    simp only [hop, hpath, hpre, hgrp, hne, and_false, if_false, replayPut, hcnt, hnode]
    simp
  rw [happly, leafAt_publish _ _ _ (by exact hsome), if_pos rfl]
  have hvac' : (resolveNode idx P.args.prefixId P.args.groupIdx P.args.path).1.tree.leafAt
      P.args.path = none := by
    rw [leafAt_resolveNode]
    exact hvac
  have hflag : (replayArgs (journalPutRec (P.pub cfg 0))
      (replayShape idx.shapes (journalPutRec (P.pub cfg 0))).2).flags.stripe = true := rfl
  refine ⟨newStripeLeaf (replayArgs (journalPutRec (P.pub cfg 0))
    (replayShape idx.shapes (journalPutRec (P.pub cfg 0))).2), ?_, rfl⟩
  unfold leafPublish
  rw [hflag]
  simp only [if_true]
  rw [hvac']

/-- A stripe of one part is not replayed as published. -/
theorem StripedPut.two_le_of_replays (h : P.Issued cfg pathOf)
    (hlen : ∀ p g, (pathOf p g).length = g + 1)
    (hall : ReplaysAsPublished pathOf P ((List.range (P.nParts cfg)).map (P.req cfg))) :
    2 ≤ P.nParts cfg := by
  by_contra hlt
  have h1 : P.nParts cfg = 1 := by
    have := h.reqs.2.1
    omega
  obtain ⟨⟨lf, lf', hl, hl', _, _, _, hstripe, _⟩, _⟩ := hall _ (Perm.refl _) (P.recs cfg)
    (P.recs_eq cfg ▸ P.recs_perm cfg) Index.empty SideOk.empty (ownPaths_empty pathOf) (Trie.leafAt_nil _)
    Index.empty replayOk_empty (ownPaths_empty pathOf) (Trie.leafAt_nil _) 0 0
  obtain ⟨sh, _, hlive⟩ := StripedPut.complete_live h hlen (Perm.refl _) SideOk.empty
    (ownPaths_empty pathOf) (stale_of_none (Trie.leafAt_nil _))
  obtain ⟨lf1, hl1, hst1⟩ := StripedPut.replayed_one h hlen h1 replayOk_empty
    (ownPaths_empty pathOf) (Trie.leafAt_nil _) 0 0
  rw [hl] at hlive
  cases hlive
  rw [hl'] at hl1
  cases hl1
  -- the live leaf has one part, the replayed one none
  rw [hst1] at hstripe
  have hparts := congrArg (fun o : Option StripeAddr => (o.map (·.nParts)).getD 0) hstripe
  simp only [StripeImage.leafWith, StripedPut.image, Option.map_some, Option.getD_some] at hparts
  omega

/-- A striped put is replayed as it was published exactly when it has two or more parts, that is, is
longer than the stripe unit, and its slices add up to its length. -/
theorem striped_replays_as_published (hcfg : ConfigOk cfg) (h : P.Issued cfg pathOf)
    (hlen : ∀ p g, (pathOf p g).length = g + 1) {reqs : List PutReq}
    (hreqs : cachePutReqs cfg P.args P.ver P.shape = some reqs) :
    ReplaysAsPublished pathOf P reqs ↔
      cfg.stripeUnit % 2 ^ 32 < P.len ∧ P.slicesTotal cfg = P.len := by
  obtain ⟨hpar, hpos, hunit, _⟩ := h.reqs
  obtain rfl : reqs = (List.range (P.nParts cfg)).map (P.req cfg) := by
    rw [hreqs] at hpar
    exact Option.some.inj hpar
  rw [← StripedPut.two_le_nParts (P := P) hunit]
  constructor
  · intro hall
    have h2 := StripedPut.two_le_of_replays h hlen hall
    refine ⟨h2, ?_⟩
    -- compare the total lengths of the two leaves
    obtain ⟨⟨lf, lf', hl, hl', _, _, _, hstripe, _⟩, _⟩ := hall _ (Perm.refl _) (P.recs cfg)
      (P.recs_eq cfg ▸ P.recs_perm cfg) Index.empty SideOk.empty (ownPaths_empty pathOf)
      (Trie.leafAt_nil _)
      Index.empty replayOk_empty (ownPaths_empty pathOf) (Trie.leafAt_nil _) 0 0
    obtain ⟨sh, _, hlive⟩ := StripedPut.complete_live h hlen (Perm.refl _) SideOk.empty
      (ownPaths_empty pathOf) (stale_of_none (Trie.leafAt_nil _))
    obtain ⟨⟨sh', _, hback⟩, _⟩ := StripedPut.complete_replayed hcfg h hlen h2 (P.recs_perm cfg)
      replayOk_empty (ownPaths_empty pathOf) (Trie.leafAt_nil _) 0 0
    rw [hl] at hlive
    cases hlive
    rw [hl'] at hback
    cases hback
    have htotal := congrArg (fun o : Option StripeAddr => (o.map (·.totalLen)).getD 0) hstripe
    exact htotal.symm
  rintro ⟨h2, htotal⟩ live hlive recs hrec idx hs hp hvac idx' hok hp' hvac' nDevs regionCnt
  obtain ⟨sh, hsh, hl⟩ := StripedPut.complete_live h hlen hlive hs hp (stale_of_none hvac)
  obtain ⟨⟨sh', hsh', hl'⟩, hoob⟩ := StripedPut.complete_replayed hcfg h hlen h2
    (P.recs_eq cfg ▸ hrec) hok hp' hvac' nDevs regionCnt
  rw [htotal] at hl' hsh'
  refine ⟨⟨_, _, hl, hl', rfl, rfl, rfl, rfl, ?_⟩, hoob⟩
  exact hsh.trans hsh'.symm

end OnePut

def widePut (p : UInt64) (ver : Nat) : StripedPut where
  args := ⟨p, 0, samplePath p 0, 0, [5000], false, 9⟩
  ver := ver
  shape := ⟨0, [5000]⟩
  page i := 64 + i
  now _ := 1

theorem issued_widePut (n unit : Nat) (p : UInt64) (ver : Nat)
    (hunit : (stripeSplit 5000 unit).any (· ≤ maxStripeParts)) :
    (widePut p ver).Issued { twoDevs with nDevs := n, stripeUnit := unit } samplePath := by
  refine ⟨show 4096 % 2 ^ 32 < [5000].sum by decide, ?_, rfl, rfl⟩
  cases hs : stripeSplit 5000 unit with
  | none => rw [hs] at hunit; cases hunit
  | some m =>
    rw [hs] at hunit
    have hm : ¬ maxStripeParts < m := by simpa using hunit
    simp [cachePutReqs, widePut, twoDevs, maxGroups, hs, hm]

/-- With a stripe unit of one page the put has two parts and is replayed as published. -/
theorem striped_two_parts_replays :
    ReplaysAsPublished samplePath (widePut 0 1)
      ((List.range 2).map (stripeReq twoDevs (widePut 0 1).args 1 ⟨0, [5000]⟩ 5000 2)) :=
  (striped_replays_as_published ⟨by decide, by decide, by decide⟩
    (issued_widePut 2 4096 0 1 (by decide +kernel)) pathFn_samplePath.len
    (by decide +kernel)).mpr ⟨by decide, by decide +kernel⟩

/-- With a stripe unit above the stripe threshold the same put has one part, and its replay differs
from its publish. -/
theorem striped_one_part_replays_otherwise :
    (widePut 0 1).Issued { twoDevs with stripeUnit := 8192 } samplePath ∧
    cachePutReqs { twoDevs with stripeUnit := 8192 } (widePut 0 1).args 1 ⟨0, [5000]⟩ =
      some [stripeReq { twoDevs with stripeUnit := 8192 } (widePut 0 1).args 1 ⟨0, [5000]⟩ 5000 1 0] ∧
    ¬ ReplaysAsPublished samplePath (widePut 0 1)
      [stripeReq { twoDevs with stripeUnit := 8192 } (widePut 0 1).args 1 ⟨0, [5000]⟩ 5000 1 0] := by
  have hissued := issued_widePut 2 8192 0 1 (by decide +kernel)
  refine ⟨hissued, by decide +kernel, fun hall => ?_⟩
  have hreqs : [stripeReq { twoDevs with stripeUnit := 8192 } (widePut 0 1).args 1 ⟨0, [5000]⟩ 5000
      1 0] = (List.range ((widePut 0 1).nParts { twoDevs with stripeUnit := 8192 })).map
        ((widePut 0 1).req { twoDevs with stripeUnit := 8192 }) := by
    decide +kernel
  rw [hreqs] at hall
  have h2 := StripedPut.two_le_of_replays hissued pathFn_samplePath.len hall
  exact absurd h2 (by decide +kernel)

/-! ## Many puts -/

/-- The put is in the index as a complete striped leaf. -/
def Restored (cfg : Config) (idx : Index) (P : StripedPut) : Prop :=
  ∃ lf st, idx.tree.leafAt P.args.path = some lf ∧ lf.prefixId = P.args.prefixId ∧
    lf.ver = P.ver ∧ lf.stripe = some st ∧ st.nParts = P.nParts cfg ∧
    st.parts = (List.range (P.nParts cfg)).map (P.part cfg)

/-- The newest put of its key. -/
def Newest (puts : List StripedPut) (idx : Index) (P : StripedPut) : Prop :=
  (∀ P' ∈ puts, P'.key = P.key → P'.ver ≤ P.ver) ∧ Stale P.ver (idx.tree.leafAt P.args.path)

/-- No two newest puts of different keys share a path. -/
def PathsApart (puts : List StripedPut) (idx : Index) : Prop :=
  ∀ P ∈ puts, ∀ P' ∈ puts, Newest puts idx P → Newest puts idx P' →
    P.args.path = P'.args.path → P.key = P'.key

section ManyPuts

variable {cfg : Config} {pathOf : UInt64 → Nat → Path} {puts : List StripedPut}
  {rs : List JournalRec}

/-- The journals hold the part records of the puts, and no DEL record; no hash is 0. -/
structure PutRecords (cfg : Config) (pathOf : UInt64 → Nat → Path) (puts : List StripedPut)
    (rs : List JournalRec) : Prop where
  issued : ∀ P ∈ puts, P.Issued cfg pathOf ∧ 2 ≤ P.nParts cfg
  nonzero : ∀ P ∈ puts, 0 ∉ P.args.path
  distinct : (puts.map StripedPut.triple).Nodup
  all : ((rs.filter fun r => r.op == .put).map fun r => { r with devId := 0 }).Perm
    (puts.flatMap (StripedPut.recs cfg))
  nodel : ∀ r ∈ rs, r.op ≠ .del

theorem PutRecords.eq_rec (h : PutRecords cfg pathOf puts rs) {r : JournalRec} (hr : r ∈ rs)
    (hop : r.op = .put) :
    ∃ P ∈ puts, ∃ i, i < P.nParts cfg ∧
      r = { journalPutRec (P.pub cfg i) with devId := r.devId } := by
  have hmem : ({ r with devId := 0 } : JournalRec) ∈ puts.flatMap (StripedPut.recs cfg) := by
    refine h.all.mem_iff.mp (mem_map_of_mem (mem_filter.mpr ⟨hr, ?_⟩))
    simp [hop]
  obtain ⟨P, hP, hrec⟩ := mem_flatMap.mp hmem
  obtain ⟨i, hi, he⟩ := P.eq_of_mem_recs hrec
  exact ⟨P, hP, i, hi, he⟩

theorem filter_flatMap_recs (h2 : ∀ P ∈ puts, 2 ≤ P.nParts cfg)
    (hd : (puts.map StripedPut.triple).Nodup) {P : StripedPut} (hP : P ∈ puts) :
    (puts.flatMap (StripedPut.recs cfg)).filter (ofPut P.triple) = P.recs cfg := by
  have hown : ∀ Q ∈ puts, ∀ r ∈ Q.recs cfg, ofPut Q.triple r = true := by
    intro Q hQ r hr
    obtain ⟨i, _, rfl⟩ := mem_map.mp hr
    exact Q.ofPut_rec (h2 Q hQ) i 0
  have hother : ∀ Q ∈ puts, Q.triple ≠ P.triple → (Q.recs cfg).filter (ofPut P.triple) = [] := by
    intro Q hQ hne
    rw [filter_eq_nil_iff]
    intro r hr hof
    have hQr := hown Q hQ r hr
    simp only [ofPut, Bool.and_eq_true, decide_eq_true_eq] at hof hQr
    exact hne (hQr.2.symm.trans hof.2)
  induction puts with
  | nil => cases hP
  | cons Q puts ih =>
    rw [map_cons, nodup_cons] at hd
    rw [flatMap_cons, filter_append]
    rcases mem_cons.mp hP with rfl | hP'
    · have hrest : (puts.flatMap (StripedPut.recs cfg)).filter (ofPut P.triple) = [] := by
        rw [filter_flatMap, flatMap_eq_nil_iff]
        intro Q hQ
        refine hother Q (by simp [hQ]) fun he => hd.1 ?_
        rw [← he]
        exact mem_map_of_mem hQ
      rw [hrest, List.append_nil]
      exact filter_eq_self.mpr (hown P (by simp))
    have hne : Q.triple ≠ P.triple := fun he => hd.1 (he ▸ mem_map_of_mem hP')
    rw [hother Q (by simp) hne, nil_append]
    exact ih (fun P hP => h2 P (by simp [hP])) hd.2 hP' (fun Q hQ => hown Q (by simp [hQ]))
      (fun Q hQ => hother Q (by simp [hQ]))

theorem PutRecords.own_perm (h : PutRecords cfg pathOf puts rs) {P : StripedPut} (hP : P ∈ puts) :
    ((rs.filter (ofPut P.triple)).map fun r => { r with devId := 0 }).Perm (P.recs cfg) := by
  have hperm := h.all.filter (ofPut P.triple)
  rw [filter_flatMap_recs (fun Q hQ => (h.issued Q hQ).2) h.distinct hP, filter_map,
    filter_filter] at hperm
  have hsame : (rs.filter fun r => (ofPut P.triple ∘ fun r : JournalRec => { r with devId := 0 }) r
      && r.op == .put) = rs.filter (ofPut P.triple) := by
    refine filter_congr fun r _ => ?_
    show (ofPut P.triple r && r.op == .put) = ofPut P.triple r
    cases hof : ofPut P.triple r with
    | false => rfl
    | true =>
      have hop : r.op = .put := by
        simp only [ofPut, isPartRec, Bool.and_eq_true, decide_eq_true_eq] at hof
        exact hof.1.1
      simp [hop]
  rwa [hsame] at hperm

variable {idx : Index}

theorem exists_newest_of_key {P : StripedPut} (hP : P ∈ puts) :
    ∃ Q ∈ puts, Q.key = P.key ∧ ∀ P' ∈ puts, P'.key = P.key → P'.ver ≤ Q.ver := by
  have hfin : {Q | Q ∈ puts ∧ Q.key = P.key}.Finite :=
    (finite_toSet puts).subset fun Q hQ => hQ.1
  obtain ⟨Q, ⟨hQ, hQk⟩, hmax⟩ := Set.exists_max_image _ StripedPut.ver hfin ⟨P, hP, rfl⟩
  exact ⟨Q, hQ, hQk, fun P' hP' hk => hmax P' ⟨hP', hk⟩⟩

theorem PutRecords.track (hcfg : ConfigOk cfg) (hlen : ∀ p g, (pathOf p g).length = g + 1)
    (h : PutRecords cfg pathOf puts rs) (hap : PathsApart puts idx) {P : StripedPut}
    (hP : P ∈ puts) (hnew : Newest puts idx P) :
    StripeTrack pathOf (P.image cfg (P.slicesTotal cfg)) P.args.groupIdx
      (sliceLen cfg.stripeUnit P.len) rs ∧
    (rs.filter (ofPut P.triple)).length = P.nParts cfg := by
  obtain ⟨hissued, h2⟩ := h.issued P hP
  obtain ⟨halone, hidem, hlength⟩ := StripedPut.track_alone hcfg hissued hlen h2 (h.own_perm hP)
  refine ⟨⟨h2, rfl, ?_, ?_, ?_, ?_, hlen, ?_⟩, hlength⟩
  · intro r hr hof
    exact halone.part r (mem_filter.mpr ⟨hr, hof⟩) hof
  · have honce : (((rs.filter (ofPut P.triple)).filter (ofPut P.triple)).map
        (·.stripeIdx)).Nodup := halone.once
    rw [hidem] at honce
    exact honce
  · intro r hr hop hpath
    obtain ⟨P', hP', i, _, he⟩ := h.eq_rec hr hop
    obtain ⟨hissued', h2'⟩ := h.issued P' hP'
    have hver : r.ver = P'.ver := by rw [he]; rfl
    have hpath' : P'.args.path = P.args.path := by
      rw [hissued.path, ← show r.path = pathOf P.args.prefixId P.args.groupIdx from hpath, he]
      rfl
    by_cases ht : P'.triple = P.triple
    · refine Or.inl ?_
      show ofPut P.triple r = true
      rw [← ht, he]
      exact P'.ofPut_rec h2' i _
    refine Or.inr ?_
    show r.ver < P.ver
    rw [hver]
    by_cases hk : P'.key = P.key
    · have hle := hnew.1 P' hP' hk
      have hne : P'.ver ≠ P.ver := by
        intro hv
        obtain ⟨hkp, hkg⟩ := Prod.mk.inj hk
        exact ht (by simp [StripedPut.triple, hkp, hkg, hv])
      omega
    -- the newest put of the other key would share the path, so the index is ahead of it
    obtain ⟨Q, hQ, hQk, hmax⟩ := exists_newest_of_key hP'
    have hQpath : Q.args.path = P.args.path := by
      rw [(h.issued Q hQ).1.path, ← hpath', hissued'.path]
      obtain ⟨hkp, hkg⟩ := Prod.mk.inj hQk
      rw [hkp, hkg]
    have hQnot : ¬ Newest puts idx Q := by
      intro hQnew
      exact hk (hQk.symm.trans (hap Q hQ P hP hQnew hnew hQpath))
    have hQold : ¬ Stale Q.ver (idx.tree.leafAt P.args.path) := by
      intro hst
      refine hQnot ⟨fun P'' hP'' hk'' => hmax P'' hP'' (hk''.trans hQk), ?_⟩
      rw [hQpath]
      exact hst
    unfold Stale at hQold
    push Not at hQold
    obtain ⟨lf, hl, hge⟩ := hQold
    have hlt := hnew.2 lf hl
    have hle := hmax P' hP' rfl
    omega
  · intro r hr hdel
    exact absurd hdel (h.nodel r hr)
  intro r hr hop
  obtain ⟨P', hP', i, _, he⟩ := h.eq_rec hr hop
  rw [he]
  exact (h.issued P' hP').1.path

/-- Replay restores the newest put of a key exactly if it was admitted to the table. -/
theorem PutRecords.restored_iff (hcfg : ConfigOk cfg) (hlen : ∀ p g, (pathOf p g).length = g + 1)
    (h : PutRecords cfg pathOf puts rs) (st : Replay) (hst : st.stripes = [])
    (hok : ReplayOk st.idx) (hp : OwnPaths pathOf st.idx) (hap : PathsApart puts st.idx)
    {P : StripedPut} (hP : P ∈ puts) (hnew : Newest puts st.idx P) (nDevs regionCnt : Nat) :
    Restored cfg (replayJournal nDevs regionCnt st rs).idx P ↔ P.triple ∈ admitted rs := by
  obtain ⟨htrack, hcount⟩ := h.track hcfg hlen hap hP hnew
  have hpath := (h.issued P hP).1.path
  have hstale := hnew.2
  rw [hpath] at hstale
  have hnode := (htrack.journal nDevs regionCnt st hst hok hp).1 hstale
  have hgather : StripeTrack.Gathered (P.image cfg (P.slicesTotal cfg)) P.args.groupIdx rs ↔
      P.triple ∈ admitted rs :=
    ⟨fun hg => hg.1, fun hin => ⟨hin, hcount.ge⟩⟩
  unfold StripeTrack.NodeState at hnode
  constructor
  · rintro ⟨lf, _, hl, _, hv, _⟩
    by_contra hnot
    rw [if_neg (hgather.not.mpr hnot)] at hnode
    rw [hpath] at hl
    have hlt := hnode lf hl
    exact absurd hv (Nat.ne_of_lt hlt)
  intro hin
  rw [if_pos (hgather.mpr hin)] at hnode
  obtain ⟨sh, _, hl⟩ := hnode
  have hl' := (congrArg (replayJournal nDevs regionCnt st rs).idx.tree.leafAt hpath).trans hl
  exact ⟨_, ⟨P.nParts cfg, P.slicesTotal cfg, _⟩, hl', rfl, rfl, rfl, rfl, rfl⟩

/-- Without hash 0, replay restores every newest striped put of the journals exactly when each of
them is among the first 256 different striped puts in the order of replay, and no two of different
keys share a path. -/
theorem striped_puts_restored (hcfg : ConfigOk cfg) (hlen : ∀ p g, (pathOf p g).length = g + 1)
    (ckpt : Option CkptFile) (journals : Nat → List JournalRec)
    (h : PutRecords cfg pathOf puts ((List.range cfg.nDevs).flatMap journals))
    (hok : ReplayOk (replayInit ckpt cfg.nDevs cfg.regionCnt cfg.regionSizePages).idx)
    (hp : OwnPaths pathOf (replayInit ckpt cfg.nDevs cfg.regionCnt cfg.regionSizePages).idx) :
    (∀ P ∈ puts,
      Newest puts (replayInit ckpt cfg.nDevs cfg.regionCnt cfg.regionSizePages).idx P →
      Restored cfg (recover ckpt cfg.nDevs cfg.regionCnt cfg.regionSizePages journals).idx P) ↔
    (∀ P ∈ puts,
      Newest puts (replayInit ckpt cfg.nDevs cfg.regionCnt cfg.regionSizePages).idx P →
      P.triple ∈ admitted ((List.range cfg.nDevs).flatMap journals)) ∧
    PathsApart puts (replayInit ckpt cfg.nDevs cfg.regionCnt cfg.regionSizePages).idx := by
  rw [recover_eq]
  constructor
  · intro hall
    have hap : PathsApart puts
        (replayInit ckpt cfg.nDevs cfg.regionCnt cfg.regionSizePages).idx := by
      -- one node holds one leaf, so two restored puts at one path have one prefix
      intro P hP P' hP' hnew hnew' hpath
      obtain ⟨lf, _, hl, hpre, _⟩ := hall P hP hnew
      obtain ⟨lf', _, hl', hpre', _⟩ := hall P' hP' hnew'
      rw [← hpath, hl] at hl'
      cases hl'
      have hg := congrArg List.length hpath
      rw [(h.issued P hP).1.path, (h.issued P' hP').1.path, hlen, hlen] at hg
      have hp : P.args.prefixId = P'.args.prefixId := hpre.symm.trans hpre'
      simp only [StripedPut.key, hp, Prod.mk.injEq, true_and]
      omega
    refine ⟨fun P hP hnew => ?_, hap⟩
    exact (h.restored_iff hcfg hlen _ rfl hok hp hap hP hnew _ _).mp (hall P hP hnew)
  · rintro ⟨hin, hap⟩ P hP hnew
    exact (h.restored_iff hcfg hlen _ rfl hok hp hap hP hnew _ _).mpr (hin P hP hnew)

end ManyPuts

def widePuts (n : Nat) : List StripedPut := (List.range n).map fun i => widePut (.ofNat i) (i + 1)

/-- One device with one journal. -/
def oneDev : Config := { twoDevs with nDevs := 1 }

/-- The journal of the puts, part after part. -/
def wideJournal (n : Nat) : List JournalRec := (widePuts n).flatMap (StripedPut.recs oneDev)

theorem wideJournal_succ (n : Nat) :
    wideJournal (n + 1) = wideJournal n ++ (widePut (.ofNat n) (n + 1)).recs oneDev := by
  simp [wideJournal, widePuts, range_succ]

theorem putRecords_widePuts {n : Nat} (hn : n ≤ 257) :
    PutRecords oneDev samplePath (widePuts n)
      ((List.range oneDev.nDevs).flatMap fun _ => wideJournal n) := by
  have hall : ((List.range oneDev.nDevs).flatMap fun _ => wideJournal n) = wideJournal n := by
    simp [oneDev]
  have hput : ∀ r ∈ wideJournal n, r.op = .put ∧ { r with devId := 0 } = r := by
    intro r hr
    obtain ⟨P, _, hr⟩ := mem_flatMap.mp hr
    obtain ⟨i, _, rfl⟩ := mem_map.mp hr
    exact ⟨rfl, rfl⟩
  rw [hall]
  refine ⟨?_, ?_, ?_, ?_, ?_⟩
  · intro P hP
    obtain ⟨i, _, rfl⟩ := mem_map.mp hP
    refine ⟨issued_widePut 1 4096 _ _ (by decide +kernel), ?_⟩
    show 2 ≤ (stripeSplit 5000 4096).getD 0
    decide +kernel
  · intro P hP hmem
    obtain ⟨i, hi, rfl⟩ := mem_map.mp hP
    have hi := mem_range.mp hi
    have hzero : UInt64.ofNat i + 7 = 0 := (mem_singleton.mp hmem).symm
    have hnat := congrArg UInt64.toNat hzero
    rw [UInt64.toNat_add, UInt64.toNat_ofNat'] at hnat
    change (i % 2 ^ 64 + 7) % 2 ^ 64 = 0 at hnat
    omega
  · rw [widePuts, map_map]
    refine Nodup.map_on ?_ nodup_range
    intro i _ j _ he
    have hver := congrArg (fun t : Triple => t.2.2) he
    simpa [widePut, StripedPut.triple] using hver
  · rw [filter_eq_self.mpr fun r hr => by simp [(hput r hr).1]]
    refine Perm.of_eq ?_
    rw [map_congr_left fun r hr => (hput r hr).2]
    exact map_id _
  · intro r hr hdel
    rw [(hput r hr).1] at hdel
    cases hdel

theorem pathsApart_widePuts (n : Nat) (idx : Index) : PathsApart (widePuts n) idx := by
  intro P hP P' hP' _ _ hpath
  obtain ⟨i, _, rfl⟩ := mem_map.mp hP
  obtain ⟨j, _, rfl⟩ := mem_map.mp hP'
  obtain ⟨hp, hg⟩ := pathFn_samplePath.inj _ _ _ _ hpath
  exact Prod.ext hp hg

theorem triples_wideJournal (n : Nat) :
    (∀ r ∈ wideJournal n, recTriple r ∈ (widePuts n).map StripedPut.triple) ∧
    ∀ P ∈ widePuts n, ∃ r ∈ wideJournal n, isPartRec r = true ∧ recTriple r = P.triple := by
  refine ⟨fun r hr => ?_, fun P hP => ?_⟩
  · obtain ⟨P, hP, hr⟩ := mem_flatMap.mp hr
    obtain ⟨i, _, rfl⟩ := mem_map.mp hr
    exact mem_map_of_mem hP
  obtain ⟨i, hi, rfl⟩ := mem_map.mp hP
  have h2 : (widePut (.ofNat i) (i + 1)).nParts oneDev = 2 := by
    show (stripeSplit 5000 4096).getD 0 = 2
    decide +kernel
  refine ⟨journalPutRec ((widePut (.ofNat i) (i + 1)).pub oneDev 0), ?_, ?_, rfl⟩
  · refine mem_flatMap.mpr ⟨_, hP, mem_map_of_mem (mem_range.mpr ?_)⟩
    omega
  · have hof := (widePut (.ofNat i) (i + 1)).ofPut_rec h2.ge 0 0
    simp only [ofPut, Bool.and_eq_true] at hof
    exact hof.1

/-- Up to 256 puts are all restored; here two of them. -/
theorem two_striped_puts_restored :
    PutRecords oneDev samplePath (widePuts 2)
      ((List.range oneDev.nDevs).flatMap fun _ => wideJournal 2) ∧
    ∀ P ∈ widePuts 2, Newest (widePuts 2) (replayInit none 1 2 64).idx P →
      Restored oneDev (recover none 1 2 64 fun _ => wideJournal 2).idx P := by
  have hrecs := putRecords_widePuts (n := 2) (by decide)
  refine ⟨hrecs, ?_⟩
  refine (striped_puts_restored ⟨by decide, by decide, by decide⟩ pathFn_samplePath.len none
    (fun _ => wideJournal 2) hrecs replayOk_empty
    (ownPaths_empty samplePath)).mpr ⟨fun P hP _ => ?_, pathsApart_widePuts 2 _⟩
  have hall : ((List.range oneDev.nDevs).flatMap fun _ => wideJournal 2) = wideJournal 2 := by
    simp [oneDev]
  rw [hall]
  obtain ⟨r, hr, hpart, ht⟩ := (triples_wideJournal 2).2 P hP
  rw [← ht]
  exact mem_admitted_of_few hr hpart (by simp [widePuts, replayStripeCap])
    fun x hx _ => (triples_wideJournal 2).1 x hx

/-- The last of 257 striped puts is lost, though all their records are in the journal and each put
is the only one of its key. -/
theorem striped_put_257_lost :
    PutRecords oneDev samplePath (widePuts 257)
      ((List.range oneDev.nDevs).flatMap fun _ => wideJournal 257) ∧
    ¬ ∀ P ∈ widePuts 257, Newest (widePuts 257) (replayInit none 1 2 64).idx P →
      Restored oneDev (recover none 1 2 64 fun _ => wideJournal 257).idx P := by
  have hrecs := putRecords_widePuts (n := 257) (by decide)
  refine ⟨hrecs, fun hall => ?_⟩
  have hmem : widePut (.ofNat 256) 257 ∈ widePuts 257 :=
    mem_map_of_mem (mem_range.mpr (by decide))
  have hnew : Newest (widePuts 257) (replayInit none 1 2 64).idx (widePut (.ofNat 256) 257) := by
    refine ⟨fun P' hP' _ => ?_, fun lf hl => ?_⟩
    · obtain ⟨i, hi, rfl⟩ := mem_map.mp hP'
      have := mem_range.mp hi
      show i + 1 ≤ 257
      omega
    have hnone : (replayInit none 1 2 64).idx.tree.leafAt (samplePath (.ofNat 256) 0) = none :=
      Trie.leafAt_nil _
    have hl' : (replayInit none 1 2 64).idx.tree.leafAt (samplePath (.ofNat 256) 0) = some lf := hl
    rw [hnone] at hl'
    cases hl'
  -- the first 256 puts fill the table
  have hfull : replayStripeCap ≤ (admitted (wideJournal 256)).length := by
    by_contra hroom
    have hsub : (widePuts 256).map StripedPut.triple ⊆ admitted (wideJournal 256) := by
      intro t ht
      obtain ⟨P, hP, rfl⟩ := mem_map.mp ht
      obtain ⟨r, hr, hpart, he⟩ := (triples_wideJournal 256).2 P hP
      rw [← he]
      exact mem_admitted hr hpart (by omega)
    have hle := ((putRecords_widePuts (n := 256) (by decide)).distinct.subperm hsub).length_le
    simp only [widePuts, length_map, length_range, replayStripeCap] at hle hroom
    omega
  have hnot : (widePut (.ofNat 256) 257).triple ∉ admitted (wideJournal 257) := by
    rw [wideJournal_succ, admitted_append_of_full _ hfull]
    intro hin
    have hin := mem_eraseDups.mp (mem_of_mem_take hin)
    obtain ⟨r, hr, he⟩ := mem_map.mp hin
    have hr := (triples_wideJournal 256).1 r (mem_filter.mp hr).1
    rw [he] at hr
    obtain ⟨P, hP, ht⟩ := mem_map.mp hr
    obtain ⟨i, hi, rfl⟩ := mem_map.mp hP
    have hver : i + 1 = 257 := congrArg (fun t : Triple => t.2.2) ht
    have := mem_range.mp hi
    omega
  have hone : ((List.range oneDev.nDevs).flatMap fun _ => wideJournal 257) = wideJournal 257 := by
    simp [oneDev]
  have hiff := hrecs.restored_iff ⟨by decide, by decide, by decide⟩
    pathFn_samplePath.len (replayInit none 1 2 64) rfl replayOk_empty
    (ownPaths_empty samplePath) (pathsApart_widePuts 257 _) hmem hnew 1 2
  rw [hone] at hiff
  have hres := hall _ hmem hnew
  rw [recover_eq] at hres
  have hone' : ((List.range 1).flatMap fun _ => wideJournal 257) = wideJournal 257 := hone
  rw [hone'] at hres
  exact hnot (hiff.mp hres)

end KvTier.Analysis
