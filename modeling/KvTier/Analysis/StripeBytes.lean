import KvTier.Model.Payload
import KvTier.Analysis.Striping

/-!
# The bytes of a striped put

`cache_put_impl` checksums the staged stream over whole pages, and so does `cache_get_impl` over the
stream it puts together again.
-/

namespace KvTier.Analysis

open KvTier.Lib KvTier.Model List

/-! ## Checksums of whole pages -/

/-- A difference of at most four bytes in a row changes the checksum. -/
theorem crc32_ne_of_burst {x y : List UInt8} (hlen : x.length = y.length) (hfit : x.length ≤ 4)
    (hne : x ≠ y) (before behind : List UInt8) :
    crc32 (before ++ x ++ behind) ≠ crc32 (before ++ y ++ behind) := by
  intro he
  have hrem := (BitVec.xor_left_inj _).mp he
  rw [map_append, map_append, map_append, map_append] at hrem
  refine Crc.remainder_ne_of_burst (by decide) _ ?_ ?_ ?_ _ _ hrem
  · rw [length_map, length_map, hlen]
  · rw [length_map]
    omega
  · intro h
    exact hne (map_injective_iff.2 (fun _ _ => UInt8.toBitVec_inj.mp) h)

theorem crc32_ne_of_last (data : List UInt8) {a b : UInt8} (hab : a ≠ b) :
    crc32 (data ++ [a]) ≠ crc32 (data ++ [b]) := by
  have hne := crc32_ne_of_burst (x := [a]) (y := [b]) rfl (by simp) (by simpa using hab) data []
  rwa [List.append_nil, List.append_nil] at hne

theorem payloadNpages_mul {l : Nat} (h32 : l < 2 ^ 32) :
    (l % pageSize = 0 → payloadNpages l * pageSize = l) ∧
    (l % pageSize ≠ 0 → l < payloadNpages l * pageSize) ∧
    l ≤ payloadNpages l * pageSize := by
  have hmod : (l + pageSize - 1) / pageSize % 2 ^ 32 = (l + pageSize - 1) / pageSize := by
    apply Nat.mod_eq_of_lt
    unfold pageSize
    omega
  unfold payloadNpages
  rw [hmod]
  unfold pageSize
  omega

theorem pagesCrc_filled {l : Nat} (h32 : l < 2 ^ 32) (hpage : l % pageSize = 0) (f fresh : Buf) :
    pagesCrc (filled f fresh l) (payloadNpages l) = pagesCrc f (payloadNpages l) := by
  have hsize := (payloadNpages_mul h32).1 hpage
  unfold pagesCrc
  rw [hsize, window_congr (f := filled f fresh l) (g := f) fun i hi => by simp [filled, hi]]

theorem exists_pagesCrc_ne {l : Nat} (h32 : l < 2 ^ 32) (hpage : l % pageSize ≠ 0) (f : Buf) :
    ∃ fresh : Buf, pagesCrc (filled f fresh l) (payloadNpages l) ≠ pagesCrc f (payloadNpages l) := by
  have hlt := (payloadNpages_mul h32).2.1 hpage
  obtain ⟨k, hk⟩ : ∃ k, payloadNpages l * pageSize = k + 1 := ⟨_, (Nat.succ_pred (by omega)).symm⟩
  -- the last byte of the last page is changed
  let other : UInt8 := if f k = 0 then 1 else 0
  have hother : other ≠ f k := by
    simp only [other]
    split
    · rename_i h0
      rw [h0]
      decide
    · rename_i h0
      exact fun h => h0 h.symm
  let fresh : Buf := fun i => if i = k then other else f i
  refine ⟨fresh, ?_⟩
  have hsame : window (filled f fresh l) k = window f k := by
    refine window_congr fun i hi => ?_
    have hne : i ≠ k := by omega
    simp [filled, fresh, hne]
  have hlast : filled f fresh l k = other := by
    have : ¬ k < l := by omega
    simp [filled, fresh, this]
  unfold pagesCrc
  rw [hk, window_succ, window_succ, hsame, hlast]
  intro he
  exact crc32_ne_of_last (window f k) hother (BitVec.eq_of_toNat_eq he)

/-! ## Parts on the devices -/

/-- The slices of the stream are on the pages of the parts. -/
def Written (cfg : Config) (P : StripedPut) (stream : Buf) (disk : Disk) : Prop :=
  ∀ i, i < P.nParts cfg → ∀ k, k < (P.part cfg i).lenPages →
    ∃ b, disk (P.part cfg i).devId ((P.part cfg i).pageNo + k) = some b ∧
      ∀ j, j < pageSize → b j =
        slicePages (sliceBase cfg.stripeUnit stream i) (sliceLen cfg.stripeUnit P.len i)
          (k * pageSize + j)

/-- The parts have pages of their own, and none is page 0. -/
structure PartsApart (cfg : Config) (P : StripedPut) : Prop where
  page : ∀ i, i < P.nParts cfg → P.page i ≠ 0
  apart : ∀ i, i < P.nParts cfg → ∀ j, j < P.nParts cfg → i ≠ j →
    (P.part cfg i).devId = (P.part cfg j).devId →
    (P.part cfg i).pageNo + (P.part cfg i).lenPages ≤ (P.part cfg j).pageNo ∨
    (P.part cfg j).pageNo + (P.part cfg j).lenPages ≤ (P.part cfg i).pageNo

/-- The disk that holds the slices of the stream. -/
def partsDisk (cfg : Config) (P : StripedPut) (stream : Buf) : Disk := fun d pg =>
  ((List.range (P.nParts cfg)).find? fun i =>
    decide ((P.part cfg i).devId = d ∧ (P.part cfg i).pageNo ≤ pg ∧
      pg < (P.part cfg i).pageNo + (P.part cfg i).lenPages)).map fun i j =>
    slicePages (sliceBase cfg.stripeUnit stream i) (sliceLen cfg.stripeUnit P.len i)
      ((pg - (P.part cfg i).pageNo) * pageSize + j)

theorem written_partsDisk {cfg : Config} {P : StripedPut} (h : PartsApart cfg P) (stream : Buf) :
    Written cfg P stream (partsDisk cfg P stream) := by
  intro i hi k hk
  have hsome : ((List.range (P.nParts cfg)).find? fun i' =>
      decide ((P.part cfg i').devId = (P.part cfg i).devId ∧
        (P.part cfg i').pageNo ≤ (P.part cfg i).pageNo + k ∧
        (P.part cfg i).pageNo + k < (P.part cfg i').pageNo + (P.part cfg i').lenPages)).isSome := by
    rw [List.find?_isSome]
    exact ⟨i, mem_range.mpr hi, decide_eq_true ⟨rfl, by omega, by omega⟩⟩
  obtain ⟨i', hfind⟩ := Option.isSome_iff_exists.mp hsome
  have hfound := List.find?_some hfind
  obtain ⟨hdev, hlow, hhigh⟩ := of_decide_eq_true hfound
  -- no other part has this page
  obtain rfl : i' = i := by
    by_contra hne
    have hi' := mem_range.mp (List.mem_of_find?_eq_some hfind)
    rcases h.apart i' hi' i hi hne hdev with h' | h' <;> omega
  refine ⟨fun j => slicePages (sliceBase cfg.stripeUnit stream i')
    (sliceLen cfg.stripeUnit P.len i') (k * pageSize + j), ?_, fun _ _ => rfl⟩
  simp only [partsDisk, hfind, Option.map_some, Nat.add_sub_cancel_left]

theorem cacheSyncRead_eq {disk : Disk} {dev page n : Nat} {img : Buf}
    (h : ∀ k, k < n → ∃ b, disk dev (page + k) = some b ∧
      ∀ j, j < pageSize → b j = img (k * pageSize + j)) (buf : Buf) :
    cacheSyncRead disk dev page buf n = some (filled img buf (n * pageSize)) := by
  have hall : ((List.range n).all fun k => (disk dev (page + k)).isSome) = true := by
    rw [all_eq_true]
    intro k hk
    obtain ⟨b, hb, _⟩ := h k (mem_range.mp hk)
    rw [hb]
    rfl
  rw [cacheSyncRead, if_pos hall]
  congr 1
  funext i
  unfold filled
  split
  · rename_i hi
    have hk : i / pageSize < n := Nat.div_lt_of_lt_mul (by rwa [Nat.mul_comm])
    obtain ⟨b, hb, hbytes⟩ := h _ hk
    rw [hb]
    refine (hbytes _ (Nat.mod_lt _ (by decide))).trans ?_
    rw [Nat.mul_comm, Nat.div_add_mod]
  · rfl

/-! ## Putting the stream together -/

/-- The stripe address of the put. -/
def StripedPut.stripeAddr (cfg : Config) (P : StripedPut) : StripeAddr :=
  ⟨P.nParts cfg, P.len, (List.range (P.nParts cfg)).map (P.part cfg)⟩

/-- The parts cover the stream, and each begins inside it. -/
def InStream (cfg : Config) (P : StripedPut) : Prop :=
  (∀ i, i < P.nParts cfg → i * cfg.stripeUnit < P.len) ∧ P.len ≤ P.nParts cfg * cfg.stripeUnit

/-- The bytes a read copies of a part, as the code computes them. -/
def copyLen (stripeUnit total doff : Nat) : Nat :=
  min (min stripeUnit ((total + 2 ^ 64 - doff) % 2 ^ 64) % 2 ^ 32)
    ((total + 2 ^ 32 - doff) % 2 ^ 32)

theorem copyLen_eq {u l doff : Nat} (h32 : l < 2 ^ 32) (hoff : doff ≤ l) :
    copyLen u l doff = min u (l - doff) := by
  unfold copyLen
  omega

section Read

variable {cfg : Config} {P : StripedPut} {stream : Buf} {disk : Disk}

theorem StripedPut.len_lt (P : StripedPut) : P.len < 2 ^ 32 := Nat.mod_lt _ (by decide)

/-- Reading a part copies its slice to its offset in 32 bits. -/
theorem readPart_written (hdevs : 0 < cfg.nDevs) (hpage : ∀ i, i < P.nParts cfg → P.page i ≠ 0)
    (hw : Written cfg P stream disk) {i : Nat} (hi : i < P.nParts cfg) (m : ReadMem) :
    ∃ t : Buf,
      readPart cfg disk (P.stripeAddr cfg) m i = .ok
        ⟨blit m.stream (i * cfg.stripeUnit % 2 ^ 32) t
          (copyLen cfg.stripeUnit P.len (i * cfg.stripeUnit % 2 ^ 32)), t⟩ ∧
      ∀ j, j < sliceLen cfg.stripeUnit P.len i → t j = stream (i * cfg.stripeUnit % 2 ^ 64 + j) := by
  have hpart : (P.stripeAddr cfg).parts.getD i StripePart.none = P.part cfg i := by
    simp [StripedPut.stripeAddr, List.getD_eq_getElem?_getD, hi]
  have hok : ¬ (cfg.nDevs ≤ (P.part cfg i).devId ∨ (P.part cfg i).pageNo = 0) := by
    rintro (hdev | hzero)
    · exact absurd hdev (Nat.not_le.mpr (Nat.mod_lt _ hdevs))
    · exact hpage i hi hzero
  refine ⟨filled (slicePages (sliceBase cfg.stripeUnit stream i) (sliceLen cfg.stripeUnit P.len i))
    m.tmp ((P.part cfg i).lenPages * pageSize), ?_, ?_⟩
  · simp only [readPart, hpart]
    rw [if_neg hok, cacheSyncRead_eq (hw i hi) m.tmp]
    rfl
  intro j hj
  have hsl : sliceLen cfg.stripeUnit P.len i < 2 ^ 32 := Nat.mod_lt _ (by decide)
  have hle : sliceLen cfg.stripeUnit P.len i ≤ (P.part cfg i).lenPages * pageSize :=
    (payloadNpages_mul hsl).2.2
  rw [filled, if_pos (by omega), slicePages, if_pos hj]
  rfl

theorem readParts_eq (hdevs : 0 < cfg.nDevs) (hpage : ∀ i, i < P.nParts cfg → P.page i ≠ 0)
    (hw : Written cfg P stream disk) (hin : InStream cfg P) (mem : ReadMem) {m : Nat}
    (hm : m ≤ P.nParts cfg) :
    ∃ t, (List.range m).foldlM (readPart cfg disk (P.stripeAddr cfg)) mem =
      .ok ⟨filled stream mem.stream (min (m * cfg.stripeUnit) P.len), t⟩ := by
  have h32 := P.len_lt
  induction m with
  | zero => exact ⟨mem.tmp, by simp [pure, Except.pure]⟩
  | succ m ih =>
    obtain ⟨t, ht⟩ := ih (by omega)
    have hstart := hin.1 m (by omega)
    -- the part starts where the last one ended, and no cast changes its place
    have hoff : m * cfg.stripeUnit % 2 ^ 32 = m * cfg.stripeUnit := Nat.mod_eq_of_lt (by omega)
    have hoff64 : m * cfg.stripeUnit % 2 ^ 64 = m * cfg.stripeUnit := Nat.mod_eq_of_lt (by omega)
    have hcopy := copyLen_eq (u := cfg.stripeUnit) h32 hstart.le
    have hslice := StripedPut.sliceLen_eq (u := cfg.stripeUnit) (i := m) h32 (by omega)
    obtain ⟨t', hpart, hbytes⟩ := readPart_written hdevs hpage hw (i := m) (by omega)
      ⟨filled stream mem.stream (min (m * cfg.stripeUnit) P.len), t⟩
    refine ⟨t', ?_⟩
    rw [range_succ, foldlM_append, ht]
    simp only [bind, Except.bind, foldlM_cons, foldlM_nil, pure, Except.pure]
    rw [hpart, hoff, hcopy, Nat.min_eq_left hstart.le, blit_filled]
    · have hend : m * cfg.stripeUnit + min cfg.stripeUnit (P.len - m * cfg.stripeUnit) =
          min ((m + 1) * cfg.stripeUnit) P.len := by
        rw [Nat.succ_mul]
        omega
      rw [hend]
    · intro j hj
      rw [hbytes j (by omega), hoff64]

theorem readStripe_eq (hcfg : ConfigOk cfg) (happ : PartsApart cfg P)
    (hw : Written cfg P stream disk) (hin : InStream cfg P) (mem : ReadMem) (crc : Nat) :
    readStripe cfg disk mem (P.stripeAddr cfg) crc =
      if pagesValidate (filled stream mem.stream P.len) (payloadNpages P.len) crc then
        .ok (window stream P.len)
      else .error .ecrc := by
  obtain ⟨t, hfold⟩ := readParts_eq hcfg.devs happ.page hw hin mem (Nat.le_refl _)
  rw [Nat.min_eq_right hin.2] at hfold
  have hwin : window (filled stream mem.stream P.len) P.len = window stream P.len :=
    window_congr fun i hi => by simp [filled, hi]
  rw [← hwin]
  simp only [readStripe]
  rw [show (P.stripeAddr cfg).nParts = P.nParts cfg from rfl, hfold]
  rfl

theorem readPart_below {st : StripeAddr} {m m' : ReadMem} {p i : Nat}
    (h : readPart cfg disk st m p = .ok m') (hi : i < p * cfg.stripeUnit % 2 ^ 32) :
    m'.stream i = m.stream i := by
  simp only [readPart] at h
  split at h
  · cases h
  split at h
  · cases h
  · cases h
    simp only [blit]
    rw [if_neg (by omega)]

theorem readParts_below {st : StripeAddr} {ps : List Nat} {m m' : ReadMem} {i : Nat}
    (h : ps.foldlM (readPart cfg disk st) m = .ok m')
    (hi : ∀ p ∈ ps, i < p * cfg.stripeUnit % 2 ^ 32) : m'.stream i = m.stream i := by
  induction ps generalizing m with
  | nil => cases h; rfl
  | cons p ps ih =>
    rw [foldlM_cons] at h
    cases hp : readPart cfg disk st m p with
    | error e => rw [hp] at h; cases h
    | ok m1 =>
      rw [hp] at h
      rw [ih h fun q hq => hi q (by simp [hq]), readPart_below hp (hi p (by simp))]

/-- With units above 32 bits the second part is copied to where the first one ends in 32 bits. -/
theorem readStripe_second (hcfg : ConfigOk cfg) (happ : PartsApart cfg P)
    (hw : Written cfg P stream disk) (h64 : cfg.stripeUnit < 2 ^ 64)
    (h32 : 2 ^ 32 ≤ cfg.stripeUnit) (hunit : cfg.stripeUnit % 2 ^ 32 ≠ 0)
    (hlong : cfg.stripeUnit % 2 ^ 32 < P.len) {mem : ReadMem} {crc : Nat} {buf : List UInt8}
    (hok : readStripe cfg disk mem (P.stripeAddr cfg) crc = .ok buf) :
    buf[cfg.stripeUnit % 2 ^ 32]? = some (stream cfg.stripeUnit) := by
  have hlen := P.len_lt
  obtain ⟨n, hn, hstart, hcover⟩ := StripedPut.stripeSplit_cover hunit (by omega) hlen
  have hnp : P.nParts cfg = n := by rw [StripedPut.nParts, hn]; rfl
  have h2 : 2 ≤ n := by
    by_contra h
    have : n * (cfg.stripeUnit % 2 ^ 32) ≤ 1 * (cfg.stripeUnit % 2 ^ 32) :=
      Nat.mul_le_mul_right _ (by omega)
    omega
  obtain ⟨k, rfl⟩ : ∃ k, n = k + 2 := ⟨n - 2, by omega⟩
  have hrange : List.range (k + 2) = 0 :: 1 :: (List.range k).map (· + 2) := by
    rw [range_succ_eq_map, range_succ_eq_map, map_cons, map_map]
    rfl
  -- parts 0 and 1, then the others
  obtain ⟨t0, hpart0, _⟩ := readPart_written hcfg.devs happ.page hw (i := 0) (by omega) mem
  obtain ⟨t, hpart1, hbytes⟩ := readPart_written hcfg.devs happ.page hw (i := 1) (by omega)
    ⟨blit mem.stream (0 * cfg.stripeUnit % 2 ^ 32) t0
      (copyLen cfg.stripeUnit P.len (0 * cfg.stripeUnit % 2 ^ 32)), t0⟩
  rw [Nat.one_mul] at hpart1 hbytes
  simp only [readStripe] at hok
  rw [show (P.stripeAddr cfg).nParts = k + 2 from hnp, hrange, foldlM_cons, hpart0] at hok
  simp only [bind, Except.bind] at hok
  rw [foldlM_cons, hpart1] at hok
  simp only [bind, Except.bind] at hok
  split at hok
  · cases hok
  rename_i m' hrest
  have hlate : ∀ p ∈ (List.range k).map (· + 2),
      cfg.stripeUnit % 2 ^ 32 < p * cfg.stripeUnit % 2 ^ 32 := by
    intro p hp
    obtain ⟨q, hq, rfl⟩ := mem_map.mp hp
    have hin := hstart (q + 2) (by have := mem_range.mp hq; omega)
    have hle : 2 * (cfg.stripeUnit % 2 ^ 32) ≤ (q + 2) * (cfg.stripeUnit % 2 ^ 32) :=
      Nat.mul_le_mul_right _ (by omega)
    have hmod : (q + 2) * cfg.stripeUnit % 2 ^ 32 = (q + 2) * (cfg.stripeUnit % 2 ^ 32) := by
      rw [← Nat.mul_mod_mod]
      exact Nat.mod_eq_of_lt (by omega)
    rw [hmod]
    omega
  have hbelow := readParts_below hrest hlate
  have hcopy : 0 < copyLen cfg.stripeUnit P.len (cfg.stripeUnit % 2 ^ 32) := by
    unfold copyLen
    omega
  have hfirst : 0 < sliceLen cfg.stripeUnit P.len 1 := by
    unfold sliceLen
    omega
  simp only [blit] at hbelow
  rw [if_pos ⟨Nat.le_refl _, by omega⟩, Nat.sub_self, hbytes 0 hfirst, Nat.add_zero,
    Nat.mod_eq_of_lt h64] at hbelow
  split at hok
  · cases hok
    rw [show (P.stripeAddr cfg).totalLen = P.len from rfl, window, List.getElem?_map,
      List.getElem?_range hlong, Option.map_some, hbelow]
  · cases hok

end Read

/-! ## Put, then get -/

/-- The put with the checksum of its stream. -/
def StripedPut.staged (P : StripedPut) (fresh : Buf) (recs : List (List UInt8)) : StripedPut :=
  { P with args := { P.args with streamCrc := streamCrc fresh recs } }

/-- The put reads back as its records. -/
def ReadsBack (cfg : Config) (pathOf : UInt64 → Nat → Path) (P : StripedPut)
    (recs : List (List UInt8)) : Prop :=
  ∀ (fresh : Buf) (mem : ReadMem) (disk : Disk),
    Written cfg P (stageStream fresh recs) disk →
  ∀ reqs live : List PutReq,
    cachePutReqs cfg (P.staged fresh recs).args P.ver P.shape = some reqs → live.Perm reqs →
  ∀ idx : Index, SideOk idx → OwnPaths pathOf idx →
    Stale P.ver (idx.tree.leafAt P.args.path) →
    ∃ lf, (publishReqs P.page P.now idx live).tree.leafAt P.args.path = some lf ∧
      readLeaf cfg disk mem lf = .ok ⟨recs.flatten, shapeRecs 0 0 P.args.lens⟩

section PutGet

variable {cfg : Config} {pathOf : UInt64 → Nat → Path} {P : StripedPut}
  {recs : List (List UInt8)}

theorem isSome_cachePutReqs {a : PutArgs} (hthr : cfg.stripeThreshold % 2 ^ 32 < a.lens.sum)
    (ver : Nat) (shape : Shape) :
    (cachePutReqs cfg a ver shape).isSome ↔
      ¬ (maxGroups ≤ a.groupIdx ∨ cfg.maxLayers < a.lens.length) ∧
        ∃ n, stripeSplit (a.lens.sum % 2 ^ 32) cfg.stripeUnit = some n ∧ ¬ maxStripeParts < n := by
  unfold cachePutReqs
  rw [if_pos hthr]
  by_cases hadm : maxGroups ≤ a.groupIdx ∨ cfg.maxLayers < a.lens.length
  · simp [hadm]
  rw [if_neg hadm]
  cases hs : stripeSplit (a.lens.sum % 2 ^ 32) cfg.stripeUnit with
  | none =>
    simp only [hs]
    simp
  | some n =>
    simp only [hs]
    by_cases hcap : maxStripeParts < n
    · simp [hcap]
    · simp [hadm, Nat.le_of_not_lt hcap]

theorem StripedPut.Issued.staged (h : P.Issued cfg pathOf) (fresh : Buf)
    (recs : List (List UInt8)) : (P.staged fresh recs).Issued cfg pathOf := by
  refine ⟨h.threshold, ?_, h.shape, h.path⟩
  have hacc := (isSome_cachePutReqs h.threshold _ _).mp h.accepted
  exact (isSome_cachePutReqs (a := (P.staged fresh recs).args) h.threshold _ _).mpr hacc

theorem readLeaf_complete (hcfg : ConfigOk cfg) (h : P.Issued cfg pathOf) {l : Option RadixLeaf}
    (hl : (P.image cfg P.len).Complete l) :
    ∃ lf, l = some lf ∧ ∀ disk mem, readLeaf cfg disk mem lf =
      (readStripe cfg disk mem (P.stripeAddr cfg) P.args.streamCrc).map fun buf =>
        ⟨buf, shapeRecs 0 0 P.args.lens⟩ := by
  obtain ⟨sh, hsh, rfl⟩ := hl
  refine ⟨_, rfl, fun disk mem => ?_⟩
  have hlens : lensOf sh = P.args.lens := hsh
  -- a striped put has at least one record, so its leaf has a shape
  have hfill : shapeFill sh = .ok (shapeRecs 0 0 P.args.lens) := by
    cases sh with
    | none =>
      have := h.threshold
      rw [← hlens] at this
      simp [lensOf] at this
    | some sh =>
      have hcap : P.args.lens.length ≤ maxLayersCap := h.reqs.2.2.2.trans hcfg.layers
      have hsame : sh.lens = P.args.lens := hlens
      rw [shapeFill, hsame, take_of_length_le hcap]
  have hread : readLeaf cfg disk mem ((P.image cfg P.len).leafWith sh
      ((List.range (P.image cfg P.len).nParts).map (P.image cfg P.len).part)) =
      (readStripe cfg disk mem (P.stripeAddr cfg) P.args.streamCrc).bind fun buf =>
        (shapeFill sh).bind fun recs => .ok ⟨buf, recs⟩ := rfl
  rw [hread, hfill]
  rfl

theorem readLeaf_published (hcfg : ConfigOk cfg) (h : P.Issued cfg pathOf)
    (hlen : ∀ p g, (pathOf p g).length = g + 1) (fresh : Buf) (recs : List (List UInt8))
    {reqs live : List PutReq}
    (hreqs : cachePutReqs cfg (P.staged fresh recs).args P.ver P.shape = some reqs)
    (hlive : live.Perm reqs) {idx : Index} (hs : SideOk idx) (hp : OwnPaths pathOf idx)
    (hold : Stale P.ver (idx.tree.leafAt P.args.path)) :
    ∃ lf, (publishReqs P.page P.now idx live).tree.leafAt P.args.path = some lf ∧
      ∀ disk mem, readLeaf cfg disk mem lf =
        (readStripe cfg disk mem (P.stripeAddr cfg) (streamCrc fresh recs)).map fun buf =>
          ⟨buf, shapeRecs 0 0 P.args.lens⟩ := by
  have h' := h.staged fresh recs
  have hpar : cachePutReqs cfg (P.staged fresh recs).args P.ver P.shape = _ := h'.reqs.1
  rw [hreqs, Option.some.injEq] at hpar
  subst hpar
  exact readLeaf_complete hcfg h' (StripedPut.complete_live h' hlen hlive hs hp hold)

theorem inStream_of_unit (hunit : cfg.stripeUnit % 2 ^ 32 ≠ 0) (hpos : 0 < P.len)
    (h : cfg.stripeUnit < 2 ^ 32 ∨ P.len ≤ cfg.stripeUnit % 2 ^ 32) : InStream cfg P := by
  obtain ⟨n, hn, hstart, hcover⟩ := StripedPut.stripeSplit_cover hunit hpos P.len_lt
  have hnp : P.nParts cfg = n := by rw [StripedPut.nParts, hn]; rfl
  rw [InStream, hnp]
  rcases h with h32 | hone
  · rw [Nat.mod_eq_of_lt h32] at hstart hcover
    exact ⟨hstart, hcover⟩
  -- one part, whatever the unit
  have hn1 : n ≤ 1 := by
    by_contra hn2
    have := hstart 1 (by omega)
    omega
  have hn0 : 0 < n := by
    rcases Nat.eq_zero_or_pos n with rfl | hn0
    · omega
    · exact hn0
  obtain rfl : n = 1 := by omega
  refine ⟨fun i hi => ?_, ?_⟩
  · rw [Nat.lt_one_iff.mp hi, Nat.zero_mul]
    exact hpos
  · have := Nat.mod_le cfg.stripeUnit (2 ^ 32)
    omega

theorem ReadsBack.readStripe (hall : ReadsBack cfg pathOf P recs) (hcfg : ConfigOk cfg)
    (h : P.Issued cfg pathOf) (hlen : ∀ p g, (pathOf p g).length = g + 1)
    (happ : PartsApart cfg P) (fresh : Buf) (mem : ReadMem) :
    readStripe cfg (partsDisk cfg P (stageStream fresh recs)) mem (P.stripeAddr cfg)
      (streamCrc fresh recs) = .ok recs.flatten := by
  have hreqs := (h.staged fresh recs).reqs.1
  have hempty : Stale P.ver (Index.empty.tree.leafAt P.args.path) :=
    stale_of_none (Trie.leafAt_nil _)
  obtain ⟨lf, hlf, hread⟩ := hall fresh mem _ (written_partsDisk happ _) _ _ hreqs
    (Perm.refl _) Index.empty SideOk.empty (ownPaths_empty pathOf) hempty
  obtain ⟨lf', hlf', heq⟩ := readLeaf_published hcfg h hlen fresh recs hreqs
    (Perm.refl _) SideOk.empty (ownPaths_empty pathOf) hempty
  obtain rfl : lf = lf' := Option.some.inj (hlf.symm.trans hlf')
  rw [heq] at hread
  cases hs : KvTier.Model.readStripe cfg (partsDisk cfg P (stageStream fresh recs)) mem
      (P.stripeAddr cfg) (streamCrc fresh recs) with
  | error e => rw [hs] at hread; cases hread
  | ok buf =>
    rw [hs] at hread
    exact congrArg Except.ok (congrArg ReadResult.buf (Except.ok.inj hread))

theorem length_readStripe {disk : Disk} {mem : ReadMem} {st : StripeAddr} {crc : Nat}
    {buf : List UInt8} (h : readStripe cfg disk mem st crc = .ok buf) :
    buf.length = st.totalLen := by
  simp only [readStripe] at h
  split at h
  · cases h
  split at h
  · cases h
    simp
  · cases h

theorem streamCrc_eq (hrecs : recs.map List.length = P.args.lens) (fresh : Buf) :
    streamCrc fresh recs = pagesCrc (stageStream fresh recs) (payloadNpages P.len) := by
  rw [streamCrc, streamLen, hrecs]
  rfl

/-- A stripe with a last page in part may fail its checksum. -/
theorem exists_readStripe_ecrc (hcfg : ConfigOk cfg) (happ : PartsApart cfg P)
    (hin : InStream cfg P) (hpage : P.len % pageSize ≠ 0)
    (hrecs : recs.map List.length = P.args.lens) {fresh : Buf} {disk : Disk}
    (hw : Written cfg P (stageStream fresh recs) disk) :
    ∃ mem, readStripe cfg disk mem (P.stripeAddr cfg) (streamCrc fresh recs) = .error .ecrc := by
  obtain ⟨tail, hne⟩ := exists_pagesCrc_ne P.len_lt hpage (stageStream fresh recs)
  refine ⟨⟨tail, tail⟩, ?_⟩
  rw [readStripe_eq hcfg happ hw hin, streamCrc_eq hrecs, pagesValidate, if_neg]
  simp [hne]

/-- A stripe of whole pages reads back as its records. -/
theorem readStripe_staged (hcfg : ConfigOk cfg) (happ : PartsApart cfg P) (hin : InStream cfg P)
    (h32 : P.args.lens.sum < 2 ^ 32) (hpos : 0 < P.args.lens.sum)
    (hpage : P.args.lens.sum % pageSize = 0) (hrecs : recs.map List.length = P.args.lens)
    {fresh : Buf} {disk : Disk} (hw : Written cfg P (stageStream fresh recs) disk) (mem : ReadMem) :
    readStripe cfg disk mem (P.stripeAddr cfg) (streamCrc fresh recs) = .ok recs.flatten := by
  have htotal : recs.flatten.length = P.args.lens.sum := by rw [length_flatten, hrecs]
  have hL : P.len = P.args.lens.sum := Nat.mod_eq_of_lt h32
  have hne : payloadNpages P.len ≠ 0 := by
    intro h0
    have := (payloadNpages_mul P.len_lt).2.2
    rw [h0] at this
    omega
  have hvalid : pagesValidate (filled (stageStream fresh recs) mem.stream P.len)
      (payloadNpages P.len) (streamCrc fresh recs) = true := by
    rw [pagesValidate, pagesCrc_filled P.len_lt (by rwa [hL]), streamCrc_eq hrecs]
    exact decide_eq_true ⟨hne, rfl⟩
  have hwin : window (stageStream fresh recs) P.len = recs.flatten := by
    rw [hL, ← htotal]
    exact window_layOut fresh recs
  rw [readStripe_eq hcfg happ hw hin, if_pos hvalid, hwin]

/-- A striped put reads back, whatever its buffers held, exactly when its length fits 32 bits and
fills its last page, and its stripe unit fits 32 bits or makes one part of it. -/
theorem striped_reads_back_iff (hcfg : ConfigOk cfg) (h64 : cfg.stripeUnit < 2 ^ 64)
    (h : P.Issued cfg pathOf) (hlen : ∀ p g, (pathOf p g).length = g + 1)
    (happ : PartsApart cfg P) (hrecs : recs.map List.length = P.args.lens) :
    ReadsBack cfg pathOf P recs ↔
      P.args.lens.sum < 2 ^ 32 ∧ P.args.lens.sum % pageSize = 0 ∧
        (cfg.stripeUnit < 2 ^ 32 ∨ P.args.lens.sum ≤ cfg.stripeUnit % 2 ^ 32) := by
  have hunit := h.reqs.2.2.1
  have htotal : recs.flatten.length = P.args.lens.sum := by rw [length_flatten, hrecs]
  have hpos : 0 < P.args.lens.sum := by have := h.threshold; omega
  constructor
  · intro hall
    have hread := hall.readStripe hcfg h hlen happ
    -- the buffer of the get is as long as the cut length says
    have h32 : P.args.lens.sum < 2 ^ 32 := by
      have hbuf := length_readStripe (hread (fun _ => 0) ⟨fun _ => 0, fun _ => 0⟩)
      have hcut : (P.stripeAddr cfg).totalLen < 2 ^ 32 := P.len_lt
      omega
    have hL : P.len = P.args.lens.sum := Nat.mod_eq_of_lt h32
    have hplace : cfg.stripeUnit < 2 ^ 32 ∨ P.args.lens.sum ≤ cfg.stripeUnit % 2 ^ 32 := by
      by_contra hno
      obtain ⟨hbig, hlong⟩ := not_or.mp hno
      have hidx : cfg.stripeUnit % 2 ^ 32 < recs.flatten.length := by omega
      -- behind the staged stream, another byte than the one the second part should hold
      let right : UInt8 := recs.flatten.get ⟨_, hidx⟩
      have hbyte := readStripe_second hcfg happ
        (written_partsDisk happ (stageStream (fun _ => if right = 0 then 1 else 0) recs)) h64
        (by omega) hunit (by omega) (hread (fun _ => if right = 0 then 1 else 0)
          ⟨fun _ => 0, fun _ => 0⟩)
      rw [stageStream, layOut_of_le _ (by omega), List.getElem?_eq_getElem hidx,
        Option.some.injEq] at hbyte
      have hbyte : right = if right = 0 then 1 else 0 := hbyte
      by_cases h0 : right = 0
      · rw [if_pos h0, h0] at hbyte
        exact absurd hbyte (by decide)
      · rw [if_neg h0] at hbyte
        exact h0 hbyte
    refine ⟨h32, ?_, hplace⟩
    by_contra hpage
    have hin : InStream cfg P := inStream_of_unit hunit (by omega) (by omega)
    obtain ⟨mem, hecrc⟩ := exists_readStripe_ecrc hcfg happ hin (by rwa [hL]) hrecs
      (written_partsDisk happ (stageStream (fun _ => 0) recs))
    rw [hread] at hecrc
    cases hecrc
  rintro ⟨h32, hpage, hplace⟩ fresh mem disk hw reqs live hreqs hlive idx hs hp hold
  have hL : P.len = P.args.lens.sum := Nat.mod_eq_of_lt h32
  have hin : InStream cfg P := inStream_of_unit hunit (by omega) (by omega)
  obtain ⟨lf, hlf, heq⟩ := readLeaf_published hcfg h hlen fresh recs hreqs hlive hs hp hold
  refine ⟨lf, hlf, ?_⟩
  rw [heq, readStripe_staged hcfg happ hin h32 hpos hpage hrecs hw]
  rfl

end PutGet

/-- A put of two whole pages. -/
def pagesPut : StripedPut where
  args := ⟨0, 0, samplePath 0 0, 0, [8192], false, 0⟩
  ver := 1
  shape := ⟨0, [8192]⟩
  page i := 64 + i
  now _ := 1

/-- A put of two whole pages reads back. -/
theorem striped_pages_read_back :
    ReadsBack twoDevs samplePath pagesPut [List.replicate 8192 7] := by
  have hissued : pagesPut.Issued twoDevs samplePath :=
    ⟨show 4096 % 2 ^ 32 < [8192].sum by decide, by decide +kernel, rfl, rfl⟩
  have happ : PartsApart twoDevs pagesPut := ⟨by decide +kernel, by decide +kernel⟩
  have hrecs : [List.replicate 8192 (7 : UInt8)].map List.length = pagesPut.args.lens := by
    rw [map_singleton, length_replicate]
    rfl
  refine (striped_reads_back_iff ⟨by decide, by decide, by decide⟩ (by decide) hissued
    pathFn_samplePath.len happ hrecs).mpr ⟨?_, ?_, ?_⟩
  · show [8192].sum < 2 ^ 32
    decide
  · show [8192].sum % pageSize = 0
    decide
  · exact Or.inl (by decide)

/-- A put of 5000 bytes, all parts written and published, is answered with a checksum error: its
last page is filled by what the two allocations held. -/
theorem striped_put_fails_checksum :
    (widePut 0 1).Issued twoDevs samplePath ∧ PartsApart twoDevs (widePut 0 1) ∧
    ∃ (fresh : Buf) (mem : ReadMem) (disk : Disk) (reqs : List PutReq) (lf : RadixLeaf),
      Written twoDevs (widePut 0 1) (stageStream fresh [List.replicate 5000 7]) disk ∧
      cachePutReqs twoDevs ((widePut 0 1).staged fresh [List.replicate 5000 7]).args 1
        ⟨0, [5000]⟩ = some reqs ∧
      (publishReqs (widePut 0 1).page (widePut 0 1).now Index.empty reqs).tree.leafAt
        (samplePath 0 0) = some lf ∧
      readLeaf twoDevs disk mem lf = .error .ecrc := by
  have hcfg : ConfigOk twoDevs := ⟨by decide, by decide, by decide⟩
  have hissued : (widePut 0 1).Issued twoDevs samplePath := issued_widePut 2 4096 0 1 (by decide +kernel)
  have happ : PartsApart twoDevs (widePut 0 1) := ⟨by decide +kernel, by decide +kernel⟩
  have hrecs : [List.replicate 5000 (7 : UInt8)].map List.length = (widePut 0 1).args.lens := by
    rw [map_singleton, length_replicate]
    rfl
  have hin : InStream twoDevs (widePut 0 1) := ⟨by decide +kernel, by decide +kernel⟩
  have hw := written_partsDisk happ (stageStream (fun _ => 0) [List.replicate 5000 7])
  obtain ⟨mem, hecrc⟩ := exists_readStripe_ecrc hcfg happ hin (by decide +kernel) hrecs hw
  have hreqs := (hissued.staged (fun _ => 0) [List.replicate 5000 7]).reqs.1
  obtain ⟨lf, hlf, heq⟩ := readLeaf_published hcfg hissued pathFn_samplePath.len (fun _ => 0)
    [List.replicate 5000 7] hreqs (Perm.refl _) SideOk.empty (ownPaths_empty samplePath)
    (stale_of_none (Trie.leafAt_nil _))
  refine ⟨hissued, happ, fun _ => 0, mem, _, _, lf, hw, hreqs, hlf, ?_⟩
  rw [heq, hecrc]
  rfl

end KvTier.Analysis
