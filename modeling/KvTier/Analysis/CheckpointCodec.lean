import KvTier.Analysis.CheckpointFacts
import KvTier.Analysis.SlotOrder

/-!
# The checkpoint codec

What `ckpt_write` puts in the file is what `ckpt_load` finds there.
-/

namespace KvTier.Analysis

open KvTier.Lib KvTier.Model List

variable {shapes : List Shape} {t : Radix}

/-! ## Values of the C types -/

/-- The fields of an address fit their widths. -/
structure AddrFits (a : KvAddr) : Prop where
  devId : a.devId < 2 ^ 32
  pageNo : a.pageNo < 2 ^ 64
  pageOff : a.pageOff < 2 ^ 32
  lenPages : a.lenPages < 2 ^ 32
  lastWriteTs : a.lastWriteTs < 2 ^ 64
  expireTs : a.expireTs < 2 ^ 32
  crc : a.crc < 2 ^ 32

structure PartFits (p : StripePart) : Prop where
  devId : p.devId < 2 ^ 32
  pageNo : p.pageNo < 2 ^ 64
  lenPages : p.lenPages < 2 ^ 32

structure StripeFits (st : StripeAddr) : Prop where
  nParts : st.nParts < 2 ^ 32
  totalLen : st.totalLen < 2 ^ 32
  length : st.parts.length = st.nParts
  parts : ∀ p ∈ st.parts, PartFits p

/-- A leaf fits `radix_leaf` (radix.hpp:68-75). -/
structure LeafFits (lf : RadixLeaf) : Prop where
  ver : lf.ver < 2 ^ 32
  addr0 : AddrFits lf.addr0
  addr1 : AddrFits lf.addr1
  stripe : ∀ st, lf.stripe = some st → StripeFits st

theorem ofRaw_toRaw_addr {a : KvAddr} (h : AddrFits a) : KvAddr.ofRaw a.toRaw = a := by
  obtain ⟨h1, h2, h3, h4, h5, h6, h7⟩ := h
  unfold KvAddr.toRaw KvAddr.ofRaw
  simp only [UInt32.toNat_ofNat_of_lt' h1, UInt64.toNat_ofNat_of_lt' h2,
    UInt32.toNat_ofNat_of_lt' h3, UInt32.toNat_ofNat_of_lt' h4, UInt64.toNat_ofNat_of_lt' h5,
    UInt32.toNat_ofNat_of_lt' h6, UInt32.toNat_ofNat_of_lt' h7]

theorem ofRaw_toRaw_part {p : StripePart} (h : PartFits p) : StripePart.ofRaw p.toRaw = p := by
  obtain ⟨h1, h2, h3⟩ := h
  unfold StripePart.toRaw StripePart.ofRaw
  simp only [UInt32.toNat_ofNat_of_lt' h1, UInt64.toNat_ofNat_of_lt' h2,
    UInt32.toNat_ofNat_of_lt' h3]

/-! ## The layout of a record -/

section Layout

variable (r : RawNodeRec)

/-- The bytes of a record before its checksum. -/
def nodeBytes : List UInt8 :=
  Codec.u8.enc r.type ++ ((Codec.pair .u8 <| .pair .u8 .u8).enc r.pad ++
    (Codec.u32.enc r.depth ++ (Codec.u64.enc r.childHash ++ (Codec.u64.enc r.prefixId ++
    (Codec.u32.enc r.groupIdx ++ (Codec.u32.enc r.ver ++ (Codec.u32.enc r.expireTs ++
    (Codec.u64.enc r.lastWriteTs ++ (addrCodec.enc r.addr0 ++ (addrCodec.enc r.addr1 ++
    (Codec.u32.enc r.nParts ++ (Codec.u32.enc r.totalLen ++ Codec.u32.enc r.shapeId))))))))))))

theorem enc_nodeRec : RawNodeRec.codec.enc r = nodeBytes r ++ Codec.u32.enc r.crc32 := by
  simp only [RawNodeRec.codec, Codec.iso, Codec.pair, nodeBytes, List.append_assoc]

theorem length_nodeBytes : (nodeBytes r).length = 128 := by
  simp only [nodeBytes, length_append, Codec.length_enc]
  rfl

theorem checksum_crc32 (c : UInt32) :
    RawNodeRec.checksum { r with crc32 := c } = RawNodeRec.checksum r := by
  have hcov : ∀ x : RawNodeRec, ((RawNodeRec.codec.enc x).drop 4).take 124 =
      (nodeBytes x).drop 4 := by
    intro x
    have hlen : ((nodeBytes x).drop 4).length = 124 := by
      rw [length_drop, length_nodeBytes]
    rw [enc_nodeRec, drop_append_of_le_length (by rw [length_nodeBytes]; omega), take_left' hlen]
  unfold RawNodeRec.checksum
  rw [hcov, hcov]
  rfl

theorem length_bytes : r.bytes.length = 132 := Codec.length_enc _ _

theorem dec_bytes (rest : List UInt8) :
    RawNodeRec.codec.dec (r.bytes ++ rest) = { r with crc32 := r.checksum } := by
  rw [RawNodeRec.bytes, Codec.dec_enc, checksum_crc32]

end Layout

/-! ## Records -/

/-- The fields of a leaf record fit their widths. -/
structure LeafRecFits (r : CkptLeafRec) : Prop where
  depth : r.depth < 2 ^ 32
  groupIdx : r.groupIdx < 2 ^ 32
  ver : r.ver < 2 ^ 32
  expireTs : r.expireTs < 2 ^ 32
  lastWriteTs : r.lastWriteTs < 2 ^ 64
  addr0 : AddrFits r.addr0
  addr1 : AddrFits r.addr1
  stripe : ∀ st, r.stripe = some st → StripeFits st
  shapeId : ∀ i, r.shapeId = some i → i < 2 ^ 32 - 1

/-- The fields of a record fit `ckpt_node_rec`. -/
def RecFits : CkptRec → Prop
  | .internal depth _ => depth < 2 ^ 32
  | .leaf r => LeafRecFits r

theorem shapeId_rawLeafRec {r : CkptLeafRec} (h : LeafRecFits r) :
    (if (rawLeafRec r).shapeId = shapeNone then none else some (rawLeafRec r).shapeId.toNat) =
      r.shapeId := by
  have hfield : (rawLeafRec r).shapeId = (r.shapeId.map UInt32.ofNat).getD shapeNone := rfl
  rw [hfield]
  cases hid : r.shapeId with
  | none => simp
  | some i =>
    have hi := h.shapeId i hid
    have hnat : (UInt32.ofNat i).toNat = i := UInt32.toNat_ofNat_of_lt' (Nat.lt_of_lt_pred hi)
    have hne : UInt32.ofNat i ≠ shapeNone := by
      intro he
      have hval := congrArg UInt32.toNat he
      rw [hnat] at hval
      have hnone : shapeNone.toNat = 2 ^ 32 - 1 := by decide
      omega
    simp [hne, hnat]

theorem leafRecOf_rawLeafRec {r : CkptLeafRec} (h : LeafRecFits r) :
    leafRecOf (rawLeafRec r) r.stripe = r := by
  have hshape := shapeId_rawLeafRec h
  obtain ⟨h1, h2, h3, h4, h5, h6, h7, _, _⟩ := h
  unfold leafRecOf
  simp only [hshape]
  simp only [rawLeafRec, UInt32.toNat_ofNat_of_lt' h1, UInt32.toNat_ofNat_of_lt' h2,
    UInt32.toNat_ofNat_of_lt' h3, UInt32.toNat_ofNat_of_lt' h4, UInt64.toNat_ofNat_of_lt' h5,
    ofRaw_toRaw_addr h6, ofRaw_toRaw_addr h7]

theorem decAll_parts {st : StripeAddr} (h : StripeFits st) (rest : List UInt8) :
    (partCodec.decAll st.nParts
      (partCodec.encAll ((st.parts.take st.nParts).map StripePart.toRaw) ++ rest)).map
        StripePart.ofRaw = st.parts := by
  have htake : st.parts.take st.nParts = st.parts := by
    rw [← h.length, take_length]
  have hlen : st.nParts = (st.parts.map StripePart.toRaw).length := by
    rw [length_map, h.length]
  rw [htake, hlen, Codec.decAll_encAll, map_map]
  have hid : ∀ p ∈ st.parts, (StripePart.ofRaw ∘ StripePart.toRaw) p = id p :=
    fun p hp => ofRaw_toRaw_part (h.parts p hp)
  rw [map_congr_left hid, map_id]

theorem ckptReadRec_raw (x : RawNodeRec) (rest : List UInt8) :
    ckptReadRec (x.bytes ++ rest) =
      if x.type = ckptRecInternal then .ok (.internal x.depth.toNat x.childHash, rest)
      else if x.type = ckptRecLeaf then .ok (.leaf (leafRecOf x none), rest)
      else if x.type = ckptRecLeafStripe then
        if rest.length < x.nParts.toNat * 24 then .error .eio
        else .ok (.leaf (leafRecOf x (some ⟨x.nParts.toNat, x.totalLen.toNat,
          (partCodec.decAll x.nParts.toNat rest).map StripePart.ofRaw⟩)),
          rest.drop (x.nParts.toNat * 24))
      else .error .einval := by
  have hlen : ¬ (x.bytes ++ rest).length < 132 := by
    rw [length_append, length_bytes]
    omega
  simp only [ckptReadRec, hlen, if_false, dec_bytes, checksum_crc32,
    drop_left' (length_bytes _), ne_eq, not_true_eq_false]
  rfl

theorem ckptReadRec_bytes {r : CkptRec} (h : RecFits r) (rest : List UInt8) :
    ckptReadRec (r.bytes ++ rest) = .ok (r, rest) := by
  cases r with
  | internal depth childHash =>
    have hdepth : (rawInternalRec depth childHash).depth.toNat = depth :=
      UInt32.toNat_ofNat_of_lt' h
    have htype : (rawInternalRec depth childHash).type = ckptRecInternal := rfl
    rw [CkptRec.bytes, ckptReadRec_raw, if_pos htype, hdepth]
    rfl
  | leaf r =>
    have hback := leafRecOf_rawLeafRec h
    rw [CkptRec.bytes, List.append_assoc, ckptReadRec_raw]
    cases hst : r.stripe with
    | none =>
      have htype : (rawLeafRec r).type = ckptRecLeaf := by simp [rawLeafRec, hst]
      have hparts : partsBytes r = [] := by simp [partsBytes, hst]
      rw [hst] at hback
      rw [if_neg (by rw [htype]; decide), if_pos htype, hback, hparts, nil_append]
    | some st =>
      have hfit := h.stripe st hst
      have htype : (rawLeafRec r).type = ckptRecLeafStripe := by simp [rawLeafRec, hst]
      have hn : (rawLeafRec r).nParts.toNat = st.nParts := by
        simp only [rawLeafRec, hst, Option.map_some, Option.getD_some]
        exact UInt32.toNat_ofNat_of_lt' hfit.nParts
      have ht : (rawLeafRec r).totalLen.toNat = st.totalLen := by
        simp only [rawLeafRec, hst, Option.map_some, Option.getD_some]
        exact UInt32.toNat_ofNat_of_lt' hfit.totalLen
      have hparts : partsBytes r =
          partCodec.encAll ((st.parts.take st.nParts).map StripePart.toRaw) := by
        simp [partsBytes, hst]
      have hplen : (partsBytes r).length = st.nParts * 24 := by
        rw [hparts, Codec.length_encAll, length_map, length_take, hfit.length, Nat.min_self]
        rfl
      have hroom : ¬ (partsBytes r ++ rest).length < st.nParts * 24 := by
        rw [length_append, hplen]
        omega
      have hdec := decAll_parts hfit rest
      rw [← hparts] at hdec
      rw [hst] at hback
      rw [if_neg (by rw [htype]; decide), if_neg (by rw [htype]; decide), if_pos htype, hn, ht,
        if_neg hroom, hdec, hback, drop_left' hplen]

theorem ckptReadRecs_bytes (shapes : List Shape) {rs : List CkptRec} (h : ∀ r ∈ rs, RecFits r)
    (s : CkptLoad) (rest : List UInt8) :
    ckptReadRecs shapes rs.length s (rs.flatMap CkptRec.bytes ++ rest) =
      ckptLoadRecs shapes s rs := by
  induction rs generalizing s with
  | nil => rfl
  | cons r rs ih =>
    have hr := ckptReadRec_bytes (h r (by simp)) (rs.flatMap CkptRec.bytes ++ rest)
    have hrest : ∀ r' ∈ rs, RecFits r' := fun r' hr' => h r' (by simp [hr'])
    simp only [flatMap_cons, List.append_assoc, length_cons, ckptReadRecs, ckptLoadRecs, hr]
    cases ckptLoadRec shapes s r with
    | ok s' => exact ih hrest s'
    | error e => rfl

theorem recFits_ckptWriteRec (ht : t.Distinct) (d : Nat)
    (h : ∀ p v, t.node? p = some v → d + p.length ≤ 2 ^ 32 ∧ ∀ lf, v = some lf →
      LeafFits lf ∧ ∀ sh, lf.shape = some sh → sh.id < 2 ^ 32 - 1) :
    ∀ r ∈ ckptWriteRec d t, RecFits r := by
  induction t generalizing d with
  | nil => simp [ckptWriteRec]
  | edge x l kids rest ihk ihr =>
    obtain ⟨⟨hd, hl⟩, hkids, hrest⟩ := (Trie.forall_node?_edge ht _).mp h
    rw [length_singleton] at hd
    intro r hr
    simp only [ckptWriteRec, cons_append, mem_cons, mem_append, mem_map, Option.mem_toList] at hr
    rcases hr with rfl | (⟨lf, hlf, rfl⟩ | hr) | hr
    · exact hd
    · obtain ⟨hfit, hshape⟩ := hl lf hlf
      refine ⟨hd, Nat.lt_of_le_of_lt (Nat.sub_le _ _) hd, hfit.ver, hfit.addr0.expireTs,
        hfit.addr0.lastWriteTs, hfit.addr0, hfit.addr1, hfit.stripe, fun i hi => ?_⟩
      obtain ⟨sh, hsh, rfl⟩ := Option.map_eq_some_iff.mp hi
      exact hshape sh hsh
    · refine ihk ht.2.1 (d + 1) (fun p v hv => ?_) r hr
      have hdeep := hkids p v hv
      rw [length_cons, ← Nat.add_assoc, Nat.add_right_comm] at hdeep
      exact hdeep
    · exact ihr ht.2.2 d hrest r hr

/-! ## The shape table -/

/-- Pools that `shape_pool_intern` builds. -/
inductive PoolBuilt : List Shape → Prop
  | nil : PoolBuilt []
  | intern {shapes : List Shape} (h : PoolBuilt shapes) (lens : List Nat)
      (hn : lens.length < 2 ^ 16) (hlens : ∀ n ∈ lens, n < 2 ^ 32) :
      PoolBuilt (shapePoolIntern shapes lens).1

theorem PoolBuilt.fits (h : PoolBuilt shapes) :
    ∀ s ∈ shapes, s.lens.length < 2 ^ 16 ∧ ∀ n ∈ s.lens, n < 2 ^ 32 := by
  induction h with
  | nil => simp
  | @intern shapes h lens hn hlens ih =>
    intro s hs
    rcases shapePoolIntern_cases shapes lens with ⟨_, _, _, he⟩ | ⟨_, he⟩
    · rw [he] at hs
      exact ih s hs
    rw [he] at hs
    rcases mem_append.mp hs with hs | hs
    · exact ih s hs
    · rw [mem_singleton.mp hs]
      exact ⟨hn, hlens⟩

theorem PoolBuilt.poolOk (h : PoolBuilt shapes) (hcap : ∀ s ∈ shapes, s.lens.length ≤ maxLayersCap) :
    PoolOk shapes := by
  induction h with
  | nil => exact PoolOk.nil
  | @intern shapes h lens hn hlens ih =>
    have hlast := hcap _ (mem_shapePoolIntern shapes lens)
    rw [lens_shapePoolIntern] at hlast
    exact (ih fun s hs => hcap s (subset_shapePoolIntern shapes lens hs)).intern hlast

theorem length_le_of_ckptLoadShapes {items out : List Shape} {ls : List (List Nat)}
    (h : ckptLoadShapes items ls = (out, none)) : ∀ lens ∈ ls, lens.length ≤ maxLayersCap := by
  induction ls generalizing items with
  | nil => simp
  | cons l ls ih =>
    rw [ckptLoadShapes] at h
    split at h
    · cases h
    rename_i hle
    intro lens hmem
    rcases mem_cons.mp hmem with rfl | hmem
    · exact Nat.le_of_not_lt hle
    · exact ih h lens hmem

theorem decAll_lens {lens : List Nat} (h : ∀ n ∈ lens, n < 2 ^ 32) (rest : List UInt8) :
    (Codec.u32.decAll lens.length (Codec.u32.encAll (lens.map UInt32.ofNat) ++ rest)).map
      UInt32.toNat = lens := by
  have hlen : lens.length = (lens.map UInt32.ofNat).length := by rw [length_map]
  have hid : ∀ n ∈ lens, (UInt32.toNat ∘ UInt32.ofNat) n = id n :=
    fun n hn => UInt32.toNat_ofNat_of_lt' (h n hn)
  rw [hlen, Codec.decAll_encAll, map_map, map_congr_left hid, map_id]

theorem ckptReadShapes_bytes {ls : List (List Nat)}
    (h : ∀ lens ∈ ls, lens.length < 2 ^ 16 ∧ ∀ n ∈ lens, n < 2 ^ 32) (items : List Shape)
    (rest : List UInt8) :
    ckptReadShapes ls.length items (ls.flatMap shapeBytes ++ rest) =
      ((ckptLoadShapes items ls).1, ((ckptLoadShapes items ls).2.map Except.error).getD (.ok rest)) := by
  induction ls generalizing items with
  | nil => rfl
  | cons lens ls ih =>
    obtain ⟨hn, hlens⟩ := h lens (by simp)
    have hrest := ih fun l hl => h l (by simp [hl])
    have hsplit : (lens :: ls).flatMap shapeBytes ++ rest = Codec.u32.enc (.ofNat lens.length) ++
        (Codec.u32.encAll (lens.map UInt32.ofNat) ++ (ls.flatMap shapeBytes ++ rest)) := by
      simp [shapeBytes]
    have hcount : (Codec.u32.dec ((lens :: ls).flatMap shapeBytes ++ rest)).toNat = lens.length := by
      rw [hsplit, Codec.dec_enc]
      exact UInt32.toNat_ofNat_of_lt' (Nat.lt_trans hn (by decide))
    have hword : (Codec.u32.enc (.ofNat lens.length)).length = 4 := Codec.length_enc _ _
    have hdrop : ((lens :: ls).flatMap shapeBytes ++ rest).drop 4 =
        Codec.u32.encAll (lens.map UInt32.ofNat) ++ (ls.flatMap shapeBytes ++ rest) := by
      rw [hsplit, drop_left' hword]
    have hfour : ¬ ((lens :: ls).flatMap shapeBytes ++ rest).length < 4 := by
      rw [hsplit, length_append, hword]
      omega
    have hlen : (Codec.u32.encAll (lens.map UInt32.ofNat)).length = lens.length * 4 := by
      rw [Codec.length_encAll, length_map]
      rfl
    have hroom : ¬ (Codec.u32.encAll (lens.map UInt32.ofNat) ++
        (ls.flatMap shapeBytes ++ rest)).length < lens.length * 4 := by
      rw [length_append, hlen]
      omega
    simp only [length_cons, ckptReadShapes, hcount, hdrop, hfour, false_or, hroom, if_false,
      decAll_lens hlens, drop_left' hlen, ckptLoadShapes, hrest]
    split <;> rfl

/-! ## The whole file -/

section Header

variable (h : RawCkptHdr)

/-- The bytes of the header before its checksum. -/
def hdrBytes : List UInt8 :=
  Codec.u32.enc h.magic ++ (Codec.u32.enc h.version ++ (Codec.u32.enc h.nDevs ++
    (Codec.u32.enc h.regionCnt ++ (Codec.u64.enc h.regionSizePages ++ (Codec.u64.enc h.nRecs ++
    Codec.u64.enc h.verCounter)))))

theorem enc_hdr :
    RawCkptHdr.codec.enc h = hdrBytes h ++ (Codec.u32.enc h.crc32 ++ Codec.u32.enc h.pad) := by
  simp only [RawCkptHdr.codec, Codec.iso, Codec.pair, hdrBytes, List.append_assoc]

theorem length_hdrBytes : (hdrBytes h).length = 40 := by
  simp only [hdrBytes, length_append, Codec.length_enc]
  rfl

theorem checksum_hdr (c : UInt32) :
    RawCkptHdr.checksum { h with crc32 := c } = RawCkptHdr.checksum h := by
  have hcov : ∀ x : RawCkptHdr, ((RawCkptHdr.codec.enc x).drop 4).take 36 =
      (hdrBytes x).drop 4 := by
    intro x
    have hlen : ((hdrBytes x).drop 4).length = 36 := by
      rw [length_drop, length_hdrBytes]
    rw [enc_hdr, drop_append_of_le_length (by rw [length_hdrBytes]; omega), take_left' hlen]
  unfold RawCkptHdr.checksum
  rw [hcov, hcov]
  rfl

end Header

theorem checksum_ckptHdr (verCounter : UInt64) (nDevs regionCnt : UInt32)
    (regionSizePages : UInt64) (nShapes nRecs : Nat) :
    (ckptHdr verCounter nDevs regionCnt regionSizePages nShapes nRecs).checksum =
      (ckptHdr verCounter nDevs regionCnt regionSizePages nShapes nRecs).crc32 :=
  checksum_hdr _ _

/-- The fields of the index fit those of the file. -/
structure CkptFitsC (t : Radix) (shapes : List Shape) : Prop where
  leaf : ∀ p lf, t.leafAt p = some lf → LeafFits lf
  shape : ∀ p lf sh, t.leafAt p = some lf → lf.shape = some sh → sh ∈ shapes
  nShapes : shapes.length < 2 ^ 32
  nRecs : (ckptTreeRecs t).length < 2 ^ 64

theorem PoolBuilt.id_lt (h : PoolBuilt shapes) : ∀ s ∈ shapes, s.id < shapes.length := by
  induction h with
  | nil => simp
  | @intern shapes h lens hn hlens ih =>
    intro s hs
    rcases shapePoolIntern_cases shapes lens with ⟨_, _, _, he⟩ | ⟨_, he⟩
    · rw [he] at hs ⊢
      exact ih s hs
    rw [he] at hs ⊢
    rw [length_append, length_singleton]
    rcases mem_append.mp hs with hs | hs
    · exact Nat.lt_succ_of_lt (ih s hs)
    · rw [mem_singleton.mp hs]
      exact Nat.lt_succ_self _

theorem recFits_ckptTreeRecs (ht : RadixBuilt t) (hp : PoolBuilt shapes)
    (hfit : CkptFitsC t shapes) : ∀ r ∈ ckptTreeRecs t, RecFits r := by
  rw [ckptTreeRecs_eq]
  refine recFits_ckptWriteRec (treeOk_slotOrdered ht.ok).distinct 1 fun p v hv => ?_
  rw [node?_slotOrdered ht.ok] at hv
  have hdeep : p.length ≤ t.height := Trie.length_le_height (by rw [hv]; rfl)
  have hheight := ht.height_lt
  refine ⟨by omega, fun lf hlf => ?_⟩
  have hleaf : t.leafAt p = some lf := by rw [Trie.leafAt, hv, hlf]; rfl
  refine ⟨hfit.leaf p lf hleaf, fun sh hsh => ?_⟩
  have hid := hp.id_lt sh (hfit.shape p lf sh hleaf hsh)
  have hn := hfit.nShapes
  omega

/-- Reading the bytes of a checkpoint is loading its records. -/
theorem ckptLoadBytes_ckptWriteBytes (ht : RadixBuilt t) (hp : PoolBuilt shapes)
    (hfit : CkptFitsC t shapes) (verCounter : UInt64) (nDevs regionCnt : UInt32)
    (regionSizePages : UInt64) :
    ckptLoadBytes (ckptWriteBytes t shapes verCounter nDevs regionCnt regionSizePages) nDevs
        regionCnt regionSizePages =
      ckptLoad (some (ckptWrite { Index.empty with tree := slotOrdered t, shapes := shapes }
        verCounter.toNat nDevs.toNat regionCnt.toNat regionSizePages.toNat)) nDevs.toNat
        regionCnt.toNat regionSizePages.toNat := by
  have hdrop : ∀ (hdr : RawCkptHdr) (rest : List UInt8),
      (RawCkptHdr.codec.enc hdr ++ rest).drop 48 = rest :=
    fun hdr rest => drop_left' (Codec.length_enc RawCkptHdr.codec hdr)
  have hlen : ∀ (hdr : RawCkptHdr) (rest : List UInt8),
      ¬ (RawCkptHdr.codec.enc hdr ++ rest).length < 48 := by
    intro hdr rest
    have hsize : (RawCkptHdr.codec.enc hdr).length = 48 := Codec.length_enc _ _
    rw [length_append, hsize]
    omega
  have htable : (shapes.flatMap fun s => shapeBytes s.lens) =
      (shapes.map (·.lens)).flatMap shapeBytes := by rw [flatMap_map]
  have hpad : (UInt32.ofNat shapes.length).toNat = (shapes.map (·.lens)).length := by
    rw [length_map]
    exact UInt32.toNat_ofNat_of_lt' hfit.nShapes
  have hn : (UInt64.ofNat (ckptTreeRecs t).length).toNat = (ckptTreeRecs t).length :=
    UInt64.toNat_ofNat_of_lt' hfit.nRecs
  have hlens : ∀ lens ∈ shapes.map (·.lens), lens.length < 2 ^ 16 ∧ ∀ n ∈ lens, n < 2 ^ 32 := by
    intro lens hmem
    obtain ⟨s, hs, rfl⟩ := mem_map.mp hmem
    exact hp.fits s hs
  have hshapes := ckptReadShapes_bytes hlens [] ((ckptTreeRecs t).flatMap CkptRec.bytes)
  have hrecs := fun pool => ckptReadRecs_bytes pool (recFits_ckptTreeRecs ht hp hfit)
    CkptLoad.init []
  simp only [List.append_nil] at hrecs
  unfold ckptLoadBytes ckptWriteBytes
  simp only [Codec.dec_enc, hlen, hdrop, if_false, checksum_ckptHdr]
  simp only [ckptHdr, ne_eq, not_true_eq_false, or_self, if_false, hpad, hn, htable, hshapes]
  simp only [ckptLoad, ckptWrite, ne_eq, not_true_eq_false, or_self, if_false, ckptTreeRecs_eq]
  rw [← ckptTreeRecs_eq]
  cases hl : ckptLoadShapes [] (shapes.map (·.lens)) with
  | mk pool e => cases e <;> simp [hrecs]

theorem TreeOk.map (ht : TreeOk t) (f : RadixLeaf → RadixLeaf) : TreeOk (t.map f) :=
  ⟨ht.distinct.map f, ht.nonzero.map f⟩

/-- A checkpoint that is loaded without an error is loaded as what was written: the same paths, the
same leaves, as many of them, and slots in which every path is found. -/
theorem ckpt_roundtrip {t : Radix} {shapes : List Shape} (ht : RadixBuilt t) (hp : PoolBuilt shapes)
    (hfit : CkptFitsC t shapes) (verCounter : UInt64) (nDevs regionCnt : UInt32)
    (regionSizePages : UInt64) {idx : Index}
    (hload : ckptLoadBytes (ckptWriteBytes t shapes verCounter nDevs regionCnt regionSizePages)
      nDevs regionCnt regionSizePages = (idx, none)) :
    (∀ p, (idx.tree.node? p).isSome = (t.node? p).isSome) ∧
    (∀ p, idx.tree.leafAt p = (t.leafAt p).map unpinned) ∧
    idx.nLeaves = {p | (t.leafAt p).isSome}.ncard ∧
    (∀ p, p ≠ [] → radixWalk ckptStoreOf idx.tree p = (t.node? p).map (Option.map unpinned)) := by
  have hok := treeOk_slotOrdered ht.ok
  rw [ckptLoadBytes_ckptWriteBytes ht hp hfit] at hload
  -- the shape table was loaded, so no shape is too long for it
  have hpool : PoolOk shapes := by
    refine hp.poolOk fun s hs => ?_
    cases hl : ckptLoadShapes [] (shapes.map (·.lens)) with
    | mk pool e =>
      cases e with
      | some e => simp [ckptLoad, ckptWrite, hl] at hload
      | none => exact length_le_of_ckptLoadShapes hl s.lens (mem_map_of_mem hs)
  rw [ckptLoad_ckptWrite_part hok.distinct hpool] at hload
  obtain ⟨hidx, hnone⟩ := Prod.mk.inj hload
  simp only at hidx hnone
  rw [loadedPart_eq_map _ _ _ hnone] at hidx
  -- every shape is in the pool, so it is read back as itself
  have hmap : (slotOrdered t).map (reloaded shapes) = (slotOrdered t).map unpinned := by
    apply Trie.map_congr _ _ _ []
    intro e he
    have hleaf := (Trie.mem_entries_root _ hok.distinct e.1 e.2).mp he
    rw [Trie.leafAt, node?_slotOrdered ht.ok, ← Trie.leafAt] at hleaf
    unfold reloaded unpinned
    cases hsh : e.2.shape with
    | none => simp
    | some sh => simp [hpool.getElem? (hfit.shape _ _ _ hleaf hsh)]
  rw [hmap] at hidx
  have htree : idx.tree = (slotOrdered t).map unpinned := by rw [← hidx]
  have hnode : ∀ p, idx.tree.node? p = (t.node? p).map (Option.map unpinned) := by
    intro p
    rw [htree, Trie.node?_map, node?_slotOrdered ht.ok]
  have hleaves : ∀ p, idx.tree.leafAt p = (t.leafAt p).map unpinned := by
    intro p
    rw [htree, Trie.leafAt_map, Trie.leafAt, node?_slotOrdered ht.ok, ← Trie.leafAt]
  have htok : TreeOk idx.tree := by
    rw [htree]
    exact hok.map unpinned
  refine ⟨fun p => ?_, hleaves, ?_, fun p hne => ?_⟩
  · rw [hnode, Option.isSome_map]
  · have hcount : idx.nLeaves = (idx.tree.entries []).length := by rw [← hidx]
    rw [hcount, ← Trie.ncard_leaves idx.tree htok.distinct]
    simp only [hleaves, Option.isSome_map]
  · rw [radixWalk_ckptStoreOf htok hne, hnode]

def sampleTree : Radix :=
  ((([[1], [2], [3], [4], [5], [6, 7]] : List Path).foldl radixCreate .nil).setLeaf [3]
    (some ⟨0, 5, 9, ⟨0, 2, 0, 1, 11, 12, 13⟩, .none, none, some ⟨0, [100, 200]⟩⟩)).setLeaf [6, 7]
    (some ⟨1, 6, 9, ⟨0, 3, 0, 2, 11, 0, 13⟩, .none,
      some ⟨2, 5000, [⟨0, 3, 2⟩, ⟨1, 8, 1⟩]⟩, some ⟨1, [5000]⟩⟩)

def samplePool : List Shape := [⟨0, [100, 200]⟩, ⟨1, [5000]⟩]

theorem sampleTree_built : RadixBuilt sampleTree := by
  have hpaths : ∀ (ps : List Path) (t : Radix), RadixBuilt t →
      (∀ p ∈ ps, p.length < 2 ^ 31 ∧ (0 : UInt64) ∉ p) → RadixBuilt (ps.foldl radixCreate t) := by
    intro ps
    induction ps with
    | nil => exact fun t ht _ => ht
    | cons p ps ih =>
      intro t ht hps
      obtain ⟨hlen, hzero⟩ := hps p (by simp)
      exact ih _ (ht.walk p hlen hzero) fun p' hp' => hps p' (by simp [hp'])
  exact ((hpaths _ _ .nil (by decide)).leaf _ _).leaf _ _

theorem samplePool_built : PoolBuilt samplePool :=
  (PoolBuilt.nil.intern [100, 200] (by decide) (by decide)).intern [5000] (by decide) (by decide)

theorem sampleTree_fits : CkptFitsC sampleTree samplePool := by
  have hleaves : ∀ p lf, sampleTree.leafAt p = some lf →
      lf = ⟨0, 5, 9, ⟨0, 2, 0, 1, 11, 12, 13⟩, .none, none, some ⟨0, [100, 200]⟩⟩ ∨
      lf = ⟨1, 6, 9, ⟨0, 3, 0, 2, 11, 0, 13⟩, .none,
        some ⟨2, 5000, [⟨0, 3, 2⟩, ⟨1, 8, 1⟩]⟩, some ⟨1, [5000]⟩⟩ := by
    intro p lf hlf
    have hmem := (Trie.mem_entries_root _ sampleTree_built.ok.distinct p lf).mpr hlf
    have hall : ∀ e ∈ sampleTree.entries [],
        e.2 = ⟨0, 5, 9, ⟨0, 2, 0, 1, 11, 12, 13⟩, .none, none, some ⟨0, [100, 200]⟩⟩ ∨
        e.2 = ⟨1, 6, 9, ⟨0, 3, 0, 2, 11, 0, 13⟩, .none,
          some ⟨2, 5000, [⟨0, 3, 2⟩, ⟨1, 8, 1⟩]⟩, some ⟨1, [5000]⟩⟩ := by decide +kernel
    exact hall _ hmem
  constructor
  · intro p lf hlf
    rcases hleaves p lf hlf with rfl | rfl
    · exact ⟨by decide, by constructor <;> decide, by constructor <;> decide, by simp⟩
    refine ⟨by decide, by constructor <;> decide, by constructor <;> decide, fun st hst => ?_⟩
    cases hst
    refine ⟨by decide, by decide, rfl, fun q hq => ?_⟩
    rcases mem_cons.mp hq with rfl | hq
    · constructor <;> decide
    · rw [mem_singleton.mp hq]
      constructor <;> decide
  · intro p lf sh hlf hsh
    rcases hleaves p lf hlf with rfl | rfl <;> cases hsh <;> simp [samplePool]
  · decide
  · decide +kernel

/-- The tree comes back from its bytes, its six edges at the root from an overflow table. -/
theorem ckpt_roundtrip_sample :
    ∃ idx, ckptLoadBytes (ckptWriteBytes sampleTree samplePool 7 2 6 64) 2 6 64 = (idx, none) ∧
      idx.nLeaves = {p | (sampleTree.leafAt p).isSome}.ncard ∧
      radixWalk ckptStoreOf idx.tree [6, 7] =
        (sampleTree.node? [6, 7]).map (Option.map unpinned) := by
  have hload : (ckptLoadBytes (ckptWriteBytes sampleTree samplePool 7 2 6 64) 2 6 64).2 = none := by
    decide +kernel
  generalize hres : ckptLoadBytes (ckptWriteBytes sampleTree samplePool 7 2 6 64) 2 6 64 = res at hload
  obtain ⟨idx, e⟩ := res
  cases hload
  obtain ⟨_, _, hn, hwalk⟩ :=
    ckpt_roundtrip sampleTree_built samplePool_built sampleTree_fits 7 2 6 64 hres
  exact ⟨idx, rfl, hn, hwalk [6, 7] (by simp)⟩

end KvTier.Analysis
