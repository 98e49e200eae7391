import KvTier.Analysis.Replicas

/-!
# Overwriting a value by a striped put

The first part of a striped put that is published replaces the leaf of its key by one whose other
parts have no address, and `cache_get_impl` answers such a leaf with `-KV_EREAD`
(`readLeaf_missing`).
-/

namespace KvTier.Analysis

open KvTier.Lib KvTier.Model List

/-! ## A leaf with a missing part -/

/-- The part is not published. -/
def PartMissing (nDevs : Nat) (st : StripeAddr) (p : Nat) : Prop :=
  nDevs ≤ (st.parts.getD p StripePart.none).devId ∨ (st.parts.getD p StripePart.none).pageNo = 0

section Missing

variable {cfg : Config} {disk : Disk} {st : StripeAddr}

theorem readPart_cases (m : ReadMem) (p : Nat) :
    readPart cfg disk st m p = .error .eread ∨ ∃ m', readPart cfg disk st m p = .ok m' := by
  simp only [readPart]
  split
  · exact .inl rfl
  · split
    · exact .inl rfl
    · exact .inr ⟨_, rfl⟩

theorem readParts_missing {ps : List Nat} {p : Nat} (hp : p ∈ ps)
    (hmiss : PartMissing cfg.nDevs st p) (m : ReadMem) :
    ps.foldlM (readPart cfg disk st) m = .error .eread := by
  induction ps generalizing m with
  | nil => cases hp
  | cons q ps ih =>
    have hcases : readPart cfg disk st m q = .error .eread ∨
        ∃ m', readPart cfg disk st m q = .ok m' := readPart_cases m q
    rcases hcases with hq | ⟨m', hq⟩
    · rw [foldlM_cons, hq]
      rfl
    have hne : p ≠ q := by
      rintro rfl
      have herr : readPart cfg disk st m p = .error .eread := by
        simp only [readPart]
        exact if_pos hmiss
      rw [herr] at hq
      cases hq
    have hin : p ∈ ps := (mem_cons.1 hp).resolve_left hne
    rw [foldlM_cons, hq]
    exact ih hin m'

/-- A leaf with a part missing is not read. -/
theorem readLeaf_missing {lf : RadixLeaf} (hst : lf.stripe = some st) {p : Nat}
    (hp : p < st.nParts) (hmiss : PartMissing cfg.nDevs st p) (m : ReadMem) :
    readLeaf cfg disk m lf = .error .eread := by
  have hparts : (List.range st.nParts).foldlM (readPart cfg disk st) m = .error .eread :=
    readParts_missing (mem_range.2 hp) hmiss m
  simp only [readLeaf, hst, readStripe, hparts]
  rfl

end Missing

/-! ## Values -/

/-- The pages of the part are on its device. -/
def PartWritten (cfg : Config) (P : StripedPut) (stream : Buf) (disk : Disk) (i : Nat) : Prop :=
  ∀ k, k < (P.part cfg i).lenPages →
    ∃ b, disk (P.part cfg i).devId ((P.part cfg i).pageNo + k) = some b ∧
      ∀ j, j < pageSize → b j =
        slicePages (sliceBase cfg.stripeUnit stream i) (sliceLen cfg.stripeUnit P.len i)
          (k * pageSize + j)

/-- The key reads as an older value. -/
def HasValue (cfg : Config) (disk : Disk) (idx : Index) (P : StripedPut) (old : ReadResult) : Prop :=
  ∃ lf, idx.tree.leafAt P.args.path = some lf ∧ lf.ver < P.ver ∧
    ∀ m, readLeaf cfg disk m lf = .ok old

theorem HasValue.stale {cfg : Config} {disk : Disk} {idx : Index} {P : StripedPut}
    {old : ReadResult} (h : HasValue cfg disk idx P old) :
    Stale P.ver (idx.tree.leafAt P.args.path) := by
  obtain ⟨lf, hlf, hlt, _⟩ := h
  intro lf' hlf'
  rw [hlf, Option.some.injEq] at hlf'
  rw [← hlf']
  exact hlt

/-- Readers see the old value or, with all parts published, the new one. -/
def OverwritesAtomically (cfg : Config) (pathOf : UInt64 → Nat → Path) (P : StripedPut)
    (recs : List (List UInt8)) : Prop :=
  ∀ (fresh : Buf) (disk : Disk) (idx : Index) (old : ReadResult) (done : List Nat),
    done.Nodup → (∀ i ∈ done, i < P.nParts cfg) →
    (∀ i ∈ done, PartWritten cfg P (stageStream fresh recs) disk i) →
    SideOk idx → OwnPaths pathOf idx → HasValue cfg disk idx P old →
    ∃ lf, (publishReqs P.page P.now idx (done.map ((P.staged fresh recs).req cfg))).tree.leafAt
        P.args.path = some lf ∧
      ∀ m, readLeaf cfg disk m lf = .ok old ∨
        (done.length = P.nParts cfg ∧
          readLeaf cfg disk m lf = .ok ⟨recs.flatten, shapeRecs 0 0 P.args.lens⟩)

/-! ## Some older value -/

section Older

variable {cfg : Config} {pathOf : UInt64 → Nat → Path} {P : StripedPut}

/-- A put of one byte on a page of zeros. -/
def olderPut (P : StripedPut) (page : Nat) : PublishArgs where
  prefixId := P.args.prefixId
  groupIdx := P.args.groupIdx
  ver := 0
  addr := ⟨0, page, 0, 1, 0, 0, (crc32 zeroImage).toNat⟩
  slot := 0
  flags := Flags.empty
  stripeIdx := 0
  stripeCnt := 0
  stripeTotal := 0
  dataLen := 1
  shape := some ⟨0, [1]⟩
  path := P.args.path

/-- An index with that put. -/
def olderIndex (P : StripedPut) (page : Nat) : Index :=
  (resolveNode Index.empty P.args.prefixId P.args.groupIdx P.args.path).1.publish P.args.path
    (olderPut P page)

/-- The parts of the put, and a page of zeros. -/
def olderDisk (cfg : Config) (P : StripedPut) (stream : Buf) (page : Nat) : Disk := fun d pg =>
  if d = 0 ∧ pg = page then some fun _ => 0 else partsDisk cfg P stream d pg

theorem exists_page_behind (cfg : Config) (P : StripedPut) :
    ∃ page, ∀ i, i < P.nParts cfg → (P.part cfg i).pageNo + (P.part cfg i).lenPages ≤ page := by
  generalize P.nParts cfg = n
  induction n with
  | zero => exact ⟨0, fun i hi => absurd hi (Nat.not_lt_zero i)⟩
  | succ n ih =>
    obtain ⟨page, hpage⟩ := ih
    refine ⟨max page ((P.part cfg n).pageNo + (P.part cfg n).lenPages), fun i hi => ?_⟩
    rcases Nat.lt_succ_iff_lt_or_eq.1 hi with hlt | rfl
    · exact Nat.le_trans (hpage i hlt) (Nat.le_max_left _ _)
    · exact Nat.le_max_right _ _

theorem written_olderDisk (happ : PartsApart cfg P) (stream : Buf) {page : Nat}
    (hpage : ∀ i, i < P.nParts cfg → (P.part cfg i).pageNo + (P.part cfg i).lenPages ≤ page) :
    Written cfg P stream (olderDisk cfg P stream page) := by
  intro i hi k hk
  obtain ⟨b, hb, hbytes⟩ := written_partsDisk happ stream i hi k hk
  have hle := hpage i hi
  refine ⟨b, ?_, hbytes⟩
  rw [olderDisk, if_neg (by omega)]
  exact hb

/-- An older value can be there. -/
theorem olderIndex_value (hcfg : ConfigOk cfg) (h : P.Issued cfg pathOf)
    (hlen : ∀ p g, (pathOf p g).length = g + 1) (hver : 0 < P.ver) (stream : Buf) (page : Nat) :
    SideOk (olderIndex P page) ∧ OwnPaths pathOf (olderIndex P page) ∧
      HasValue cfg (olderDisk cfg P stream page) (olderIndex P page) P ⟨[0], [⟨0, 0, 1⟩]⟩ := by
  have hpath := h.path
  have hplen : P.args.path.length = P.args.groupIdx + 1 := by rw [hpath]; exact hlen _ _
  have hside : SideOk (resolveNode Index.empty P.args.prefixId P.args.groupIdx P.args.path).1 :=
    SideOk.empty.resolveNode _ _ hplen
  have hown := (ownPaths_empty pathOf).resolveNode (p := P.args.prefixId) (g := P.args.groupIdx)
  rw [← hpath] at hown
  have hget := sideGet_resolveNode_self Index.empty P.args.prefixId P.args.groupIdx P.args.path
  rw [hown.2] at hget
  have hleaf : (olderIndex P page).tree.leafAt P.args.path = some (newPlainLeaf (olderPut P page)) := by
    have hnone : Index.empty.tree.leafAt P.args.path = none := Trie.leafAt_nil _
    rw [olderIndex, leafAt_publish _ _ _ (hside.node _ _ _ hget), if_pos rfl, leafAt_resolveNode,
      hnone]
    rfl
  refine ⟨hside.publish hget, ?_, newPlainLeaf (olderPut P page), hleaf, ?_, fun m => ?_⟩
  · intro p g q hq
    exact hown.1 p g q hq
  · exact hver
  · have hzero : olderDisk cfg P stream page 0 page = some fun _ => 0 := if_pos ⟨rfl, rfl⟩
    exact readLeaf_zeroPage hcfg hzero rfl rfl rfl rfl m

end Older

/-! ## Some parts of a put -/

section Parts

variable {cfg : Config} {pathOf : UInt64 → Nat → Path} {P : StripedPut} {idx : Index}
  {done : List Nat}

theorem StripedPut.publishLeaf_done (h : P.Issued cfg pathOf) {l : Option RadixLeaf}
    (hold : Stale P.ver l) (hdone : ∀ i ∈ done, i < P.nParts cfg) (hne : done ≠ []) :
    ∃ lf st, publishLeaf l (done.map (P.pub cfg)) = some lf ∧ lf.stripe = some st ∧
      st.nParts = P.nParts cfg ∧
      ∀ i, i < P.nParts cfg → i ∉ done → PartMissing cfg.nDevs st i := by
  have hpart : ∀ a ∈ done.map (P.pub cfg), (P.image cfg P.len).IsPart a := by
    intro a ha
    obtain ⟨i, hi, rfl⟩ := mem_map.1 ha
    exact P.isPart_pub h (hdone i hi)
  have htotal : ∀ a ∈ done.map (P.pub cfg), a.stripeTotal = (P.image cfg P.len).total := by
    intro a ha
    obtain ⟨i, _, rfl⟩ := mem_map.1 ha
    rfl
  obtain ⟨⟨sh, _, hpub⟩, _⟩ := StripeImage.publishLeaf_parts hpart htotal (by simpa using hne) hold
  rw [StripeImage.writes, map_map] at hpub
  refine ⟨_, _, hpub, rfl, rfl, fun i hi hmiss => .inr ?_⟩
  have hnone : (fillAll (List.replicate (P.nParts cfg) StripePart.none)
      (done.map fun i => (i, P.part cfg i)))[i]? = some StripePart.none := by
    rw [getElem?_fillAll (f := P.part cfg) _ (by simpa using hi), if_neg (by simpa using hmiss),
      List.getElem?_replicate, if_pos hi]
    intro w hw
    obtain ⟨k, _, rfl⟩ := mem_map.1 hw
    rfl
  have hget : ((fillAll (List.replicate (P.nParts cfg) StripePart.none)
      (done.map fun i => (i, P.part cfg i))).getD i StripePart.none).pageNo = 0 := by
    rw [List.getD_eq_getElem?_getD, hnone]
    rfl
  exact hget

theorem StripedPut.readLeaf_parts (h : P.Issued cfg pathOf)
    (hlen : ∀ p g, (pathOf p g).length = g + 1) (hdone : ∀ i ∈ done, i < P.nParts cfg)
    (hne : done ≠ []) {i : Nat} (hi : i < P.nParts cfg) (hmiss : i ∉ done) (hs : SideOk idx)
    (hp : OwnPaths pathOf idx) (hold : Stale P.ver (idx.tree.leafAt P.args.path)) :
    ∃ lf, (publishReqs P.page P.now idx (done.map (P.req cfg))).tree.leafAt P.args.path = some lf ∧
      ∀ disk m, readLeaf cfg disk m lf = .error .eread := by
  have hown : ∀ r ∈ done.map (P.req cfg), r.prefixId = P.args.prefixId ∧
      r.groupIdx = P.args.groupIdx ∧ r.path = pathOf P.args.prefixId P.args.groupIdx := by
    intro r hr
    obtain ⟨i, _, rfl⟩ := mem_map.1 hr
    exact ⟨rfl, rfl, h.path⟩
  have hleaf := leafAt_publishReqs P.page P.now (hlen P.args.prefixId P.args.groupIdx) hs hp hown
  rw [map_map, ← h.path] at hleaf
  obtain ⟨lf, st, hpub, hst, hn, hgone⟩ := P.publishLeaf_done h hold hdone hne
  exact ⟨lf, hleaf.trans hpub, fun disk m => readLeaf_missing hst (hn ▸ hi) (hgone i hi hmiss) m⟩

end Parts

/-! ## Overwriting a value -/

section Overwrite

variable {cfg : Config} {pathOf : UInt64 → Nat → Path} {P : StripedPut}
  {recs : List (List UInt8)}

theorem OverwritesAtomically.older (hall : OverwritesAtomically cfg pathOf P recs)
    (hcfg : ConfigOk cfg) (h : P.Issued cfg pathOf) (hlen : ∀ p g, (pathOf p g).length = g + 1)
    (hver : 0 < P.ver) {page : Nat} (fresh : Buf)
    (hw : Written cfg P (stageStream fresh recs) (olderDisk cfg P (stageStream fresh recs) page))
    {done : List Nat} (hnd : done.Nodup) (hdone : ∀ i ∈ done, i < P.nParts cfg) :
    ∃ lf, (publishReqs P.page P.now (olderIndex P page)
        (done.map ((P.staged fresh recs).req cfg))).tree.leafAt P.args.path = some lf ∧
      ∀ m, readLeaf cfg (olderDisk cfg P (stageStream fresh recs) page) m lf =
          .ok ⟨[0], [⟨0, 0, 1⟩]⟩ ∨
        (done.length = P.nParts cfg ∧
          readLeaf cfg (olderDisk cfg P (stageStream fresh recs) page) m lf =
            .ok ⟨recs.flatten, shapeRecs 0 0 P.args.lens⟩) := by
  obtain ⟨hside, hown, hval⟩ := olderIndex_value hcfg h hlen hver (stageStream fresh recs) page
  exact hall fresh _ _ _ done hnd hdone (fun i hi => hw i (hdone i hi)) hside hown hval

/-- Atomic overwrite holds for stripes of one part only. -/
theorem OverwritesAtomically.one_part (hall : OverwritesAtomically cfg pathOf P recs)
    (hcfg : ConfigOk cfg) (h : P.Issued cfg pathOf) (hlen : ∀ p g, (pathOf p g).length = g + 1)
    (happ : PartsApart cfg P) (hver : 0 < P.ver) : P.nParts cfg = 1 := by
  obtain ⟨page, hpage⟩ := exists_page_behind cfg P
  have hpos := h.reqs.2.1
  by_contra hne
  have hw := written_olderDisk happ (stageStream (fun _ => 0) recs) hpage
  -- Part 0 is published, part 1 is not.
  obtain ⟨lf, hlf, hread⟩ := hall.older hcfg h hlen hver (fun _ => 0) hw
    (nodup_singleton 0) (by simpa using hpos)
  obtain ⟨hside, hown, hval⟩ :=
    olderIndex_value hcfg h hlen hver (stageStream (fun _ => 0) recs) page
  have hfirst : ∀ i ∈ [0], i < (P.staged (fun _ => 0) recs).nParts cfg := by
    intro i hi
    rw [mem_singleton.1 hi]
    exact hpos
  obtain ⟨lf', hlf', herr⟩ := StripedPut.readLeaf_parts (h.staged (fun _ => 0) recs) hlen hfirst
    (by simp) (i := 1) (show 1 < P.nParts cfg by omega) (by simp) hside hown hval.stale
  obtain rfl : lf = lf' := Option.some.inj (hlf.symm.trans hlf')
  have hm := hread ⟨fun _ => 0, fun _ => 0⟩
  rw [herr] at hm
  rcases hm with hm | ⟨_, hm⟩ <;> cases hm

theorem StripedPut.readLeaf_one (hcfg : ConfigOk cfg) (h : P.Issued cfg pathOf)
    (hlen : ∀ p g, (pathOf p g).length = g + 1) (hone : P.nParts cfg = 1) (fresh : Buf)
    (recs : List (List UInt8)) {idx : Index} (hs : SideOk idx) (hp : OwnPaths pathOf idx)
    (hold : Stale P.ver (idx.tree.leafAt P.args.path)) :
    ∃ lf, (publishReqs P.page P.now idx ([0].map ((P.staged fresh recs).req cfg))).tree.leafAt
        P.args.path = some lf ∧
      ∀ disk mem, readLeaf cfg disk mem lf =
        (readStripe cfg disk mem (P.stripeAddr cfg) (streamCrc fresh recs)).map fun buf =>
          ⟨buf, shapeRecs 0 0 P.args.lens⟩ := by
  refine readLeaf_published hcfg h hlen fresh recs (h.staged fresh recs).reqs.1 ?_ hs hp hold
  rw [show (P.staged fresh recs).nParts cfg = 1 from hone]
  exact Perm.refl _

theorem lens_of_shapeRecs {lens : List Nat} (h : shapeRecs 0 0 lens = [⟨0, 0, 1⟩]) : lens = [1] := by
  match lens with
  | [] => cases h
  | [a] =>
    rw [shapeRecs, shapeRecs, singleton_inj] at h
    exact congrArg (fun r : RecDesc => [r.len]) h
  | _ :: _ :: _ => cases h

/-- A striped put overwrites an older value atomically exactly when it has one part and fills whole
pages. With two parts the older value is gone once one of them is published. -/
theorem striped_overwrite_atomic_iff (hcfg : ConfigOk cfg) (h : P.Issued cfg pathOf)
    (hlen : ∀ p g, (pathOf p g).length = g + 1) (happ : PartsApart cfg P)
    (hrecs : recs.map List.length = P.args.lens) (hver : 0 < P.ver) :
    OverwritesAtomically cfg pathOf P recs ↔
      P.args.lens.sum ≤ cfg.stripeUnit % 2 ^ 32 ∧ P.args.lens.sum % pageSize = 0 := by
  have hunit := h.reqs.2.2.1
  have hpos : 0 < P.args.lens.sum := by have := h.threshold; omega
  have hcut : cfg.stripeUnit % 2 ^ 32 < 2 ^ 32 := Nat.mod_lt _ (by decide)
  have htotal : recs.flatten.length = P.args.lens.sum := by rw [length_flatten, hrecs]
  constructor
  · intro hall
    have hone := hall.one_part hcfg h hlen happ hver
    have hshort : P.len ≤ cfg.stripeUnit % 2 ^ 32 := by
      have h2 : ¬ 2 ≤ P.nParts cfg := by omega
      rw [StripedPut.two_le_nParts hunit] at h2
      omega
    -- The one part is published over the older value.
    obtain ⟨page, hpage⟩ := exists_page_behind cfg P
    have hw := written_olderDisk happ (stageStream (fun _ => 0) recs) hpage
    obtain ⟨lf, hlf, hread⟩ := hall.older hcfg h hlen hver (fun _ => 0) hw
      (nodup_singleton 0) (by simp [hone])
    obtain ⟨hside, hown, hval⟩ :=
      olderIndex_value hcfg h hlen hver (stageStream (fun _ => 0) recs) page
    obtain ⟨lf', hlf', heq⟩ := StripedPut.readLeaf_one hcfg h hlen hone (fun _ => 0) recs hside
      hown hval.stale
    obtain rfl : lf = lf' := Option.some.inj (hlf.symm.trans hlf')
    have hok : ∀ m, ∃ buf, readStripe cfg (olderDisk cfg P (stageStream (fun _ => 0) recs) page) m
        (P.stripeAddr cfg) (streamCrc (fun _ => 0) recs) = .ok buf ∧
        (P.args.lens = [1] ∨ buf = recs.flatten) := by
      intro m
      have hm := hread m
      rw [heq] at hm
      cases hs : readStripe cfg (olderDisk cfg P (stageStream (fun _ => 0) recs) page) m
          (P.stripeAddr cfg) (streamCrc (fun _ => 0) recs) with
      | error e =>
        rw [hs] at hm
        rcases hm with hm | ⟨_, hm⟩ <;> cases hm
      | ok buf =>
        rw [hs] at hm
        refine ⟨buf, rfl, ?_⟩
        rcases hm with hm | ⟨_, hm⟩
        · exact .inl (lens_of_shapeRecs (congrArg ReadResult.recs (Except.ok.inj hm)))
        · exact .inr (congrArg ReadResult.buf (Except.ok.inj hm))
    have h32 : P.args.lens.sum < 2 ^ 32 := by
      obtain ⟨buf, hs, hlens | hbuf⟩ := hok ⟨fun _ => 0, fun _ => 0⟩
      · rw [hlens]
        decide
      have hbl := length_readStripe hs
      have hcutlen : (P.stripeAddr cfg).totalLen < 2 ^ 32 := P.len_lt
      rw [hbuf] at hbl
      omega
    have hL : P.len = P.args.lens.sum := Nat.mod_eq_of_lt h32
    refine ⟨hL ▸ hshort, ?_⟩
    by_contra hoff
    have hin : InStream cfg P := inStream_of_unit hunit (by omega) (.inr hshort)
    obtain ⟨m, hecrc⟩ := exists_readStripe_ecrc hcfg happ hin (by rwa [hL]) hrecs hw
    obtain ⟨buf, hs, _⟩ := hok m
    rw [hecrc] at hs
    cases hs
  rintro ⟨hshort, hpage⟩
  have h32 : P.args.lens.sum < 2 ^ 32 := Nat.lt_of_le_of_lt hshort hcut
  have hL : P.len = P.args.lens.sum := Nat.mod_eq_of_lt h32
  have hone : P.nParts cfg = 1 := by
    have h2 : ¬ 2 ≤ P.nParts cfg := by
      rw [StripedPut.two_le_nParts hunit]
      omega
    have := h.reqs.2.1
    omega
  intro fresh disk idx old done hnd hdone hw hs hp hval
  rcases eq_nil_or_concat done with rfl | ⟨front, i, rfl⟩
  · obtain ⟨lf, hlf, _, hread⟩ := hval
    exact ⟨lf, hlf, fun m => .inl (hread m)⟩
  -- Part 0 is the only one, so it is published and on its pages.
  have hfull : P.nParts cfg ≤ (front.concat i).length := by
    rw [hone, length_concat]
    omega
  have hperm := StripeTrack.perm_range_of_length hnd hdone hfull
  have hwritten : Written cfg P (stageStream fresh recs) disk := fun k hk =>
    hw k (StripeTrack.mem_of_length hnd hdone hfull hk)
  obtain ⟨lf, hlf, hread⟩ := readLeaf_published hcfg h hlen fresh recs
    (h.staged fresh recs).reqs.1 (hperm.map _) hs hp hval.stale
  refine ⟨lf, hlf, fun m => .inr ⟨hperm.length_eq.trans length_range, ?_⟩⟩
  have hin : InStream cfg P := inStream_of_unit hunit (by omega) (.inr (hL ▸ hshort))
  rw [hread, readStripe_staged hcfg happ hin h32 hpos hpage hrecs hwritten]
  rfl

end Overwrite

/-- A put of two pages in one part overwrites atomically. -/
theorem striped_overwrite_atomic_pages :
    OverwritesAtomically { twoDevs with stripeUnit := 8192 } samplePath pagesPut
      [List.replicate 8192 7] := by
  have hissued : pagesPut.Issued { twoDevs with stripeUnit := 8192 } samplePath :=
    ⟨show 4096 % 2 ^ 32 < [8192].sum by decide, by decide +kernel, rfl, rfl⟩
  have happ : PartsApart { twoDevs with stripeUnit := 8192 } pagesPut :=
    ⟨by decide +kernel, by decide +kernel⟩
  have hrecs : [List.replicate 8192 (7 : UInt8)].map List.length = pagesPut.args.lens := by
    rw [map_singleton, length_replicate]
    rfl
  refine (striped_overwrite_atomic_iff ⟨by decide, by decide, by decide⟩ hissued
    pathFn_samplePath.len happ hrecs (by decide)).mpr ⟨?_, ?_⟩
  · show [8192].sum ≤ 8192 % 2 ^ 32
    decide
  · show [8192].sum % pageSize = 0
    decide

def byteAcked (crc : Nat) : List Label :=
  [.put ⟨0, 0, samplePath 0 0, 0, [1], false, 0⟩, .publish 0 2 crc 1, .flush 0, .ack 1]

/-- The index with that put. -/
def byteIndex (crc : Nat) : Index :=
  (resolveNode { Index.empty with shapes := [⟨0, [1]⟩] } 0 0 (samplePath 0 0)).1.publish
    (samplePath 0 0)
    ⟨0, 0, 1, ⟨0, 2, 0, 1, 1, 0, crc⟩, 0, Flags.empty, 0, 0, 0, 1, some ⟨0, [1]⟩, samplePath 0 0⟩

def halfOverwritten : List Label := [.put (widePut 0 2).args, .publish 0 64 0 1]

theorem halfOverwritten_leaf {s : Store} {crc : Nat} (hcfg : s.cfg = twoDevs)
    (hpend : s.pending = []) (hver : s.verCounter = 1) (hphase : s.phase = .idle)
    (hidx : s.idx = byteIndex crc) :
    ∃ s' lf, RunOf Store.step (fun _ _ => True) s halfOverwritten s' ∧
      s'.idx.tree.leafAt (samplePath 0 0) = some lf ∧
      lf.stripe = some ⟨2, 5000, [⟨0, 64, 1⟩, StripePart.none]⟩ := by
  have hshape : shapePoolIntern (byteIndex crc).shapes (widePut 0 2).args.lens =
      ([⟨0, [1]⟩, ⟨1, [5000]⟩], ⟨1, [5000]⟩) := rfl
  obtain ⟨s1, hput, hphase1, hpend1, hidx1⟩ : ∃ s1, s.step (.put (widePut 0 2).args) = some s1 ∧
      s1.phase = .idle ∧
      s1.pending = (List.range 2).map (stripeReq twoDevs (widePut 0 2).args 2 ⟨1, [5000]⟩ 5000 2) ∧
      s1.idx = { byteIndex crc with shapes := [⟨0, [1]⟩, ⟨1, [5000]⟩] } := by
    simp only [Store.step, Store.put, hcfg, hpend, hver, hidx, hshape]
    exact ⟨_, rfl, hphase, rfl, rfl⟩
  obtain ⟨s2, hpub, lf, hleaf, hstripe⟩ : ∃ s2, s1.step (.publish 0 64 0 1) = some s2 ∧
      ∃ lf, s2.idx.tree.leafAt (samplePath 0 0) = some lf ∧
        lf.stripe = some ⟨2, 5000, [⟨0, 64, 1⟩, StripePart.none]⟩ := by
    simp only [Store.step, Store.publish, hphase1, hpend1, hidx1]
    exact ⟨_, rfl, _, rfl, rfl⟩
  exact ⟨s2, lf, .cons trivial hput (.cons trivial hpub (.nil _)), hleaf, hstripe⟩

/-- Between the two parts of a put the acknowledged value of its key is gone: the key is answered
with a read error, whatever is on the devices. -/
theorem striped_overwrite_unreadable :
    ∃ s lf, RunOf Store.step (fun _ _ => True) (Store.format twoDevs)
        (byteAcked (crc32 zeroImage).toNat) s ∧ 1 ∈ s.acked ∧
      s.idx.tree.leafAt (samplePath 0 0) = some lf ∧
      (∀ m, readLeaf twoDevs zeroDisk m lf = .ok ⟨[0], [⟨0, 0, 1⟩]⟩) ∧
      ∃ s' lf', RunOf Store.step (fun _ _ => True) s halfOverwritten s' ∧
        s'.idx.tree.leafAt (samplePath 0 0) = some lf' ∧
        ∀ disk m, readLeaf twoDevs disk m lf' = .error .eread := by
  have hcfg : ConfigOk twoDevs := ⟨by decide, by decide, by decide⟩
  -- The checksum of the page is carried along and never computed.
  have hrun : ∀ crc : Nat, ∃ s,
      RunOf Store.step (fun _ _ => True) (Store.format twoDevs) (byteAcked crc) s ∧ 1 ∈ s.acked ∧
      s.cfg = twoDevs ∧ s.pending = [] ∧ s.verCounter = 1 ∧ s.phase = .idle ∧
      s.idx = byteIndex crc := by
    intro crc
    refine ⟨_, .cons trivial rfl (.cons trivial rfl (.cons trivial rfl (.cons trivial rfl
      (.nil _)))), mem_singleton.2 rfl, rfl, ?_, rfl, rfl, ?_⟩
    · rfl
    · rfl
  have hleaf : ∀ crc : Nat, ∃ lf, (byteIndex crc).tree.leafAt (samplePath 0 0) = some lf ∧
      lf.addr0 = ⟨0, 2, 0, 1, 1, 0, crc⟩ ∧ lf.addr1 = KvAddr.none ∧ lf.stripe = none ∧
      lf.shape = some ⟨0, [1]⟩ := fun crc => ⟨_, rfl, rfl, rfl, rfl, rfl⟩
  obtain ⟨s, hs, hack, hdevs, hpend, hver, hphase, hidx⟩ := hrun (crc32 zeroImage).toNat
  obtain ⟨lf, hlf, haddr, hnone, hplain, hshape⟩ := hleaf (crc32 zeroImage).toNat
  obtain ⟨s', lf', hs', hlf', hstripe⟩ := halfOverwritten_leaf hdevs hpend hver hphase hidx
  refine ⟨s, lf, hs, hack, by rw [hidx]; exact hlf, fun m => ?_, s', lf', hs', hlf', fun disk m => ?_⟩
  · exact readLeaf_zeroPage hcfg rfl haddr hnone hplain hshape m
  · exact readLeaf_missing hstripe (p := 1) (show 1 < 2 by decide) (.inr rfl) m

end KvTier.Analysis
