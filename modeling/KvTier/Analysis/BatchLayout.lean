import KvTier.Analysis.StripeBytes
import KvTier.Model.BatchLayout
import KvTier.Model.Writer

/-!
# A batch reads back

Every request of a batch stands in the batch buffer as its bytes up to whole pages (`imageOf`), one
image behind the other (`layReqs_eq`), so that the device holds the image of every request at the
pages the request was given (`PagesHold`).
-/

namespace KvTier.Analysis

open KvTier.Lib KvTier.Model List

variable {dev n page : Nat} {disk : Disk} {r : BatchData} {reqs : List BatchData}

/-! ## The batch buffer -/

/-- The bytes of a request. -/
def bytesOfReq : BatchData → List UInt8
  | .records recs => recs.flatten
  | .slice base dataLen _ => window base dataLen

/-- The pages of a request. -/
def imageOf (r : BatchData) : List UInt8 :=
  bytesOfReq r ++ List.replicate (payloadNpages r.len * pageSize - r.len) 0

/-- The checksum of a request. -/
def crcOf : BatchData → Nat
  | .records recs => (crc32 (imageOf (.records recs))).toNat
  | .slice _ _ crc => crc

theorem length_bytesOfReq (r : BatchData) : (bytesOfReq r).length = r.len := by
  cases r with
  | records recs => exact length_flatten
  | slice base dataLen crc => exact length_window _ _

theorem length_imageOf (h : r.len < 2 ^ 32) :
    (imageOf r).length = payloadNpages r.len * pageSize := by
  have hle : r.len ≤ payloadNpages r.len * pageSize := by
    have hmul := payloadNpages_mul h
    omega
  rw [imageOf, length_append, length_bytesOfReq, length_replicate]
  omega

theorem blit_eq_blitList (mem : Buf) (p : Nat) (src : Buf) (n : Nat) :
    blit mem p src n = blitList mem p (window src n) := by
  funext i
  unfold blit blitList
  by_cases hp : p ≤ i
  · rw [if_pos hp]
    by_cases hin : i < p + n
    · have hidx : i - p < (window src n).length := by rw [length_window]; omega
      rw [if_pos ⟨hp, hin⟩, List.getElem?_eq_getElem hidx]
      simp [window]
    · have hidx : (window src n).length ≤ i - p := by rw [length_window]; omega
      rw [if_neg (by omega), List.getElem?_eq_none hidx]
      rfl
  · rw [if_neg (by omega), if_neg hp]

theorem layReq_eq (buf : Buf) (dst absPage : Nat) (h : r.len < 2 ^ 32) :
    layReq buf dst absPage r =
      (blitList buf dst (imageOf r), ⟨absPage, payloadNpages r.len, r.len, crcOf r⟩) := by
  cases r with
  | slice base dataLen crc =>
    have hpad : padPages (blit buf dst base dataLen) dst dataLen (payloadNpages dataLen) =
        blitList buf dst (imageOf (.slice base dataLen crc)) := by
      have hconst := blit_const_blitList buf dst (window base dataLen) (0 : UInt8)
        (payloadNpages dataLen * pageSize - dataLen)
      rw [length_window] at hconst
      rw [padPages, blit_eq_blitList buf dst base dataLen]
      exact hconst
    simp only [layReq, hpad]
    rfl
  | records recs =>
    have hlen : recs.flatten.length = BatchData.len (.records recs) := length_flatten
    have hpad : padPages (blitList buf dst recs.flatten) dst recs.flatten.length
        (payloadNpages recs.flatten.length) = blitList buf dst (imageOf (.records recs)) := by
      rw [padPages, blit_const_blitList, imageOf, ← hlen]
      rfl
    have hcrc : pagesCrc (fun i => blitList buf dst (imageOf (.records recs)) (dst + i))
        (payloadNpages recs.flatten.length) = crcOf (.records recs) := by
      rw [pagesCrc, hlen, ← length_imageOf h, window_blitList]
      rfl
    simp only [layReq, layOutAt_eq, hpad, hcrc]
    rw [hlen, Nat.mod_eq_of_lt h]

/-- What the writer fills in of the requests of a batch. -/
def laidOf (absPage : Nat) : List BatchData → List LaidReq
  | [] => []
  | r :: rs =>
    ⟨absPage, payloadNpages r.len, r.len, crcOf r⟩ :: laidOf (absPage + payloadNpages r.len) rs

theorem layReqs_eq (h : ∀ r ∈ reqs, r.len < 2 ^ 32) (buf : Buf) (dst absPage : Nat) :
    layReqs buf dst absPage reqs =
      (blitList buf dst (reqs.flatMap imageOf), laidOf absPage reqs) := by
  induction reqs generalizing buf dst absPage with
  | nil =>
    have hnil : blitList buf dst [] = buf := by
      funext i
      simp [blitList]
    simp only [layReqs, flatMap_nil, hnil, laidOf]
  | cons r reqs ih =>
    have hr := h r mem_cons_self
    have hrest := ih fun r hr => h r (mem_cons_of_mem _ hr)
    simp only [layReqs, layReq_eq buf dst absPage hr, hrest, laidOf, flatMap_cons]
    rw [← length_imageOf hr, blitList_append]

theorem length_flatMap_imageOf (h : ∀ r ∈ reqs, r.len < 2 ^ 32) (absPage : Nat) :
    (reqs.flatMap imageOf).length = ((laidOf absPage reqs).map (·.npages)).sum * pageSize := by
  induction reqs generalizing absPage with
  | nil => simp [laidOf]
  | cons r reqs ih =>
    have hr := h r mem_cons_self
    rw [flatMap_cons, length_append, length_imageOf hr,
      ih (fun r hr => h r (mem_cons_of_mem _ hr)) (absPage + payloadNpages r.len), laidOf,
      map_cons, sum_cons, Nat.add_mul]

/-! ## The device -/

/-- The pages of a device from `page` on hold these bytes. -/
def PagesHold (disk : Disk) (dev page : Nat) (img : List UInt8) : Prop :=
  ∀ k, (k + 1) * pageSize ≤ img.length → ∃ b, disk dev (page + k) = some b ∧
    ∀ j, j < pageSize → b j = img.getD (k * pageSize + j) 0

theorem pagesHold_writePages (disk : Disk) (dev page : Nat) (buf : Buf) {img : List UInt8}
    (hn : img.length = n * pageSize) :
    PagesHold (disk.writePages dev page (blitList buf 0 img) n) dev page img := by
  intro k hk
  have hkn : k < n := by
    rw [hn] at hk
    exact Nat.le_of_mul_le_mul_right hk (by decide)
  refine ⟨fun i => blitList buf 0 img (k * pageSize + i), ?_, fun j hj => ?_⟩
  · simp only [Disk.writePages]
    rw [if_pos ⟨trivial, by omega, by omega⟩, Nat.add_sub_cancel_left]
  have hidx : k * pageSize + j < img.length := by
    rw [Nat.add_one_mul] at hk
    omega
  simp only [blitList, Nat.zero_le, if_true, Nat.sub_zero, List.getD_eq_getElem?_getD]
  rw [List.getElem?_eq_getElem hidx]
  rfl

theorem PagesHold.append {a b : List UInt8} (h : PagesHold disk dev page (a ++ b))
    (ha : a.length = n * pageSize) :
    PagesHold disk dev page a ∧ PagesHold disk dev (page + n) b := by
  refine ⟨fun k hk => ?_, fun k hk => ?_⟩
  · obtain ⟨p, hp, hbytes⟩ := h k (by rw [length_append]; omega)
    refine ⟨p, hp, fun j hj => ?_⟩
    have hidx : k * pageSize + j < a.length := by
      rw [Nat.add_one_mul] at hk
      omega
    rw [hbytes j hj, List.getD_eq_getElem?_getD, List.getD_eq_getElem?_getD,
      List.getElem?_append_left hidx]
  have hk' : (n + k + 1) * pageSize ≤ (a ++ b).length := by
    rw [length_append, ha, Nat.add_assoc, Nat.add_mul]
    omega
  obtain ⟨p, hp, hbytes⟩ := h (n + k) hk'
  rw [← Nat.add_assoc] at hp
  refine ⟨p, hp, fun j hj => ?_⟩
  have hidx : (n + k) * pageSize + j = a.length + (k * pageSize + j) := by
    rw [ha, Nat.add_mul, Nat.add_assoc]
  rw [hbytes j hj, List.getD_eq_getElem?_getD, List.getD_eq_getElem?_getD, hidx,
    List.getElem?_append_right (Nat.le_add_right _ _), Nat.add_sub_cancel_left]

theorem PagesHold.read {img : List UInt8} (h : PagesHold disk dev page img)
    (hn : img.length = n * pageSize) (fresh : Buf) :
    ∃ buf, cacheSyncRead disk dev page fresh n = some buf ∧
      ∀ i, i < img.length → buf i = img.getD i 0 := by
  obtain ⟨f, hf⟩ : ∃ f : Buf, ∀ i, f i = img.getD i 0 := ⟨_, fun _ => rfl⟩
  have hpages : ∀ k, k < n → ∃ b, disk dev (page + k) = some b ∧
      ∀ j, j < pageSize → b j = f (k * pageSize + j) := by
    intro k hk
    obtain ⟨b, hb, hbytes⟩ := h k (by rw [hn]; exact Nat.mul_le_mul_right _ hk)
    exact ⟨b, hb, fun j hj => (hbytes j hj).trans (hf _).symm⟩
  refine ⟨_, cacheSyncRead_eq hpages fresh, fun i hi => ?_⟩
  rw [filled, if_pos (by omega), hf]

/-! ## The records -/

/-- A record descriptor and the bytes it stands for. -/
def IsSlice (buf : Buf) (d : RecDesc) (rec : List UInt8) : Prop :=
  d.len = rec.length ∧ window (fun i => buf (d.off + i)) d.len = rec

theorem shapeRecs_slices {buf : Buf} {recs : List (List UInt8)} {off : Nat} (i : Nat)
    (hbuf : ∀ j (hj : j < recs.flatten.length), buf (off + j) = recs.flatten.get ⟨j, hj⟩)
    (hfit : off + recs.flatten.length < 2 ^ 32) :
    List.Forall₂ (IsSlice buf) (shapeRecs off i (recs.map List.length)) recs := by
  induction recs generalizing off i with
  | nil => exact .nil
  | cons rec recs ih =>
    have hlen : (rec :: recs).flatten.length = rec.length + recs.flatten.length := by simp
    rw [hlen] at hfit
    rw [map_cons, shapeRecs, Nat.mod_eq_of_lt (by omega)]
    refine .cons ⟨rfl, ?_⟩ (ih (i + 1) ?_ (by omega))
    · -- The record stands at the running offset.
      apply ext_getElem
      · rw [length_window]
      intro j h1 h2
      have hj : j < (rec :: recs).flatten.length := by omega
      simp only [window, getElem_map, getElem_range]
      rw [hbuf j hj]
      simp [getElem_append_left h2]
    intro j hj
    have hj' : rec.length + j < (rec :: recs).flatten.length := by omega
    rw [Nat.add_assoc, hbuf _ hj']
    simp

theorem map_layerId_shapeRecs (off i : Nat) (lens : List Nat) :
    (shapeRecs off i lens).map (·.layerId) = List.range' i lens.length := by
  induction lens generalizing off i with
  | nil => rfl
  | cons len lens ih => rw [shapeRecs, map_cons, ih, length_cons, range'_succ]

/-- The request reads back as its records. -/
structure ReadsBackAs (disk : Disk) (dev : Nat) (recs : List (List UInt8)) (l : LaidReq) : Prop where
  dataLen : l.dataLen = (recs.map List.length).sum
  npages : l.npages = payloadNpages l.dataLen
  total : ∀ id, shapeTotal (some ⟨id, recs.map List.length⟩) = l.dataLen
  read : ∀ fresh id, ∃ buf ds, cacheSyncRead disk dev l.pageNo fresh l.npages = some buf ∧
    pagesValidate buf l.npages l.crc = true ∧
    shapeFill (some ⟨id, recs.map List.length⟩) = .ok ds ∧
    ds.map (·.layerId) = List.range recs.length ∧ List.Forall₂ (IsSlice buf) ds recs

theorem readsBackAs_of_pagesHold {recs : List (List UInt8)} (hlayers : recs.length ≤ maxLayersCap)
    (hpos : 0 < (recs.map List.length).sum) (h32 : (recs.map List.length).sum < 2 ^ 32)
    (h : PagesHold disk dev page (imageOf (.records recs))) :
    ReadsBackAs disk dev recs ⟨page, payloadNpages (recs.map List.length).sum,
      (recs.map List.length).sum, crcOf (.records recs)⟩ := by
  have hlen : (imageOf (.records recs)).length =
      payloadNpages (recs.map List.length).sum * pageSize :=
    length_imageOf (r := .records recs) h32
  have hflat : recs.flatten.length = (recs.map List.length).sum := length_flatten
  have hpages : payloadNpages (recs.map List.length).sum ≠ 0 := by
    intro hzero
    have hle := (payloadNpages_mul h32).2.2
    rw [hzero] at hle
    omega
  refine ⟨rfl, rfl, fun id => Nat.mod_eq_of_lt h32, fun fresh id => ?_⟩
  obtain ⟨buf, hread, hbuf⟩ := h.read hlen fresh
  refine ⟨buf, shapeRecs 0 0 (recs.map List.length), hread, ?_, ?_, ?_, ?_⟩
  · -- The checksum is the one of the image.
    have hwindow : window buf (payloadNpages (recs.map List.length).sum * pageSize) =
        imageOf (.records recs) := by
      rw [← hlen]
      apply ext_getElem
      · rw [length_window]
      intro i h1 h2
      simp only [window, getElem_map, getElem_range]
      rw [hbuf i h2, List.getD_eq_getElem?_getD, List.getElem?_eq_getElem h2]
      rfl
    rw [pagesValidate, decide_eq_true_iff, pagesCrc, hwindow]
    exact ⟨hpages, rfl⟩
  · have htake : (recs.map List.length).take maxLayersCap = recs.map List.length :=
      take_of_length_le (by rw [length_map]; exact hlayers)
    simp only [shapeFill, htake]
  · rw [map_layerId_shapeRecs, length_map, range_eq_range']
  refine shapeRecs_slices 0 (fun j hj => ?_) (by omega)
  have himg : j < (imageOf (.records recs)).length := by
    have hle := (payloadNpages_mul h32).2.2
    omega
  rw [Nat.zero_add, hbuf j himg, List.getD_eq_getElem?_getD, imageOf]
  have hbytes : bytesOfReq (.records recs) = recs.flatten := rfl
  rw [hbytes, List.getElem?_append_left hj, List.getElem?_eq_getElem hj]
  rfl

/-! ## Batches -/

/-- Page ranges that follow each other from a page on. -/
def ConsecutiveFrom : Nat → List LaidReq → Prop
  | _, [] => True
  | page, l :: ls => l.pageNo = page ∧ ConsecutiveFrom (page + l.npages) ls

theorem consecutive_laidOf (reqs : List BatchData) (absPage : Nat) :
    ConsecutiveFrom absPage (laidOf absPage reqs) := by
  induction reqs generalizing absPage with
  | nil => trivial
  | cons r reqs ih => exact ⟨rfl, ih _⟩

theorem ConsecutiveFrom.pairwise {ls : List LaidReq} (h : ConsecutiveFrom page ls) :
    (∀ l ∈ ls, page ≤ l.pageNo) ∧ ls.Pairwise fun a b => a.pageNo + a.npages ≤ b.pageNo := by
  induction ls generalizing page with
  | nil => exact ⟨fun l hl => (by cases hl), .nil⟩
  | cons l ls ih =>
    obtain ⟨rfl, hrest⟩ := h
    obtain ⟨hge, hpair⟩ := ih hrest
    refine ⟨?_, .cons hge hpair⟩
    rintro l' hl'
    rcases mem_cons.1 hl' with rfl | hl'
    · exact Nat.le_refl _
    · exact Nat.le_trans (Nat.le_add_right _ _) (hge l' hl')

/-- Every request of a batch reads back as its records. -/
theorem forall₂_readsBackAs (h32 : ∀ r ∈ reqs, r.len < 2 ^ 32)
    (hrecs : ∀ recs, BatchData.records recs ∈ reqs →
      recs.length ≤ maxLayersCap ∧ 0 < (recs.map List.length).sum)
    (h : PagesHold disk dev page (reqs.flatMap imageOf)) :
    List.Forall₂ (fun r l => ∀ recs, r = BatchData.records recs → ReadsBackAs disk dev recs l) reqs
      (laidOf page reqs) := by
  induction reqs generalizing page with
  | nil => exact .nil
  | cons r reqs ih =>
    have hr := h32 r mem_cons_self
    rw [flatMap_cons] at h
    obtain ⟨hfirst, hrest⟩ := h.append (length_imageOf hr)
    refine .cons ?_ (ih (fun r hr => h32 r (mem_cons_of_mem _ hr))
      (fun recs hmem => hrecs recs (mem_cons_of_mem _ hmem)) hrest)
    rintro recs rfl
    obtain ⟨hlayers, hpos⟩ := hrecs recs mem_cons_self
    exact readsBackAs_of_pagesHold hlayers hpos hr hfirst

/-- The bytes a batch takes in the batch buffer. -/
def batchBytes (reqs : List BatchData) : Nat :=
  (reqs.map fun r => (r.len + pageSize - 1) / pageSize * pageSize).sum

theorem len_lt_of_batchBytes {cfg : WriterConfig} (hfit : batchBytes reqs ≤ batchBufSize cfg)
    (hr : r ∈ reqs) : r.len < 2 ^ 32 := by
  have hbuf : batchBufSize cfg < 2 ^ 32 := Nat.mod_lt _ (by decide)
  have hmem : (r.len + pageSize - 1) / pageSize * pageSize ∈
      reqs.map fun r => (r.len + pageSize - 1) / pageSize * pageSize :=
    mem_map_of_mem (f := fun r : BatchData => (r.len + pageSize - 1) / pageSize * pageSize) hr
  have hle : (r.len + pageSize - 1) / pageSize * pageSize ≤ batchBytes reqs :=
    le_sum_of_mem hmem
  have hround : r.len ≤ (r.len + pageSize - 1) / pageSize * pageSize := by
    unfold pageSize
    omega
  omega

/-- A batch that fits the batch buffer is laid out on consecutive, disjoint pages, and once they are
on the device every request that is not striped reads back with its payload, record by record. -/
theorem batch_reads_back {cfg : WriterConfig} {reqs : List BatchData}
    (hfit : batchBytes reqs ≤ batchBufSize cfg)
    (hrecs : ∀ recs, BatchData.records recs ∈ reqs →
      recs.length ≤ maxLayersCap ∧ 0 < (recs.map List.length).sum)
    (buf : Buf) (startPage : Nat) (disk : Disk) (dev : Nat) :
    let laid := (layBatch buf startPage reqs).2
    let disk' := disk.writePages dev startPage (layBatch buf startPage reqs).1
      (laid.map (·.npages)).sum
    ConsecutiveFrom startPage laid ∧
      laid.Pairwise (fun a b => a.pageNo + a.npages ≤ b.pageNo) ∧
      List.Forall₂ (fun r l => ∀ recs, r = BatchData.records recs → ReadsBackAs disk' dev recs l)
        reqs laid := by
  intro laid disk'
  have h32 : ∀ r ∈ reqs, r.len < 2 ^ 32 := fun r hr => len_lt_of_batchBytes hfit hr
  have hlay : layBatch buf startPage reqs =
      (blitList buf 0 (reqs.flatMap imageOf), laidOf startPage reqs) :=
    layReqs_eq h32 buf 0 startPage
  have hlaid : laid = laidOf startPage reqs := congrArg Prod.snd hlay
  have hcons : ConsecutiveFrom startPage laid := by
    rw [hlaid]
    exact consecutive_laidOf reqs startPage
  refine ⟨hcons, hcons.pairwise.2, ?_⟩
  have hholds : PagesHold disk' dev startPage (reqs.flatMap imageOf) := by
    have hn : (reqs.flatMap imageOf).length = (laid.map (·.npages)).sum * pageSize := by
      rw [hlaid]
      exact length_flatMap_imageOf h32 startPage
    have hbuf : (layBatch buf startPage reqs).1 = blitList buf 0 (reqs.flatMap imageOf) :=
      congrArg Prod.fst hlay
    have hwritten := pagesHold_writePages disk dev startPage buf hn
    rw [← hbuf] at hwritten
    exact hwritten
  rw [hlaid]
  exact forall₂_readsBackAs h32 hrecs hholds

/-- A put of two records and a put of one in one batch. -/
def twoPuts : List BatchData := [.records [[1, 2], [3]], .records [[4]]]

/-- The first of two puts in one batch. -/
theorem batch_reads_back_twoPuts :
    ReadsBackAs (Disk.writePages (fun _ _ => none) 0 130 (layBatch (fun _ => 9) 130 twoPuts).1
      ((layBatch (fun _ => 9) 130 twoPuts).2.map (·.npages)).sum) 0 [[1, 2], [3]]
      ((layBatch (fun _ => 9) 130 twoPuts).2.getD 0 ⟨0, 0, 0, 0⟩) := by
  have hfit : batchBytes twoPuts ≤ batchBufSize
      ⟨⟨1, 6, 64, 512, 1048576, 262144, 256⟩, 262144, by decide, by decide⟩ := by decide
  have hrecs : ∀ recs, BatchData.records recs ∈ twoPuts →
      recs.length ≤ maxLayersCap ∧ 0 < (recs.map List.length).sum := by
    intro recs hmem
    simp only [twoPuts, mem_cons, BatchData.records.injEq, not_mem_nil, or_false] at hmem
    rcases hmem with rfl | rfl <;> decide
  obtain ⟨-, -, hreads⟩ := batch_reads_back hfit hrecs (fun _ => 9) 130 (fun _ _ => none) 0
  generalize (layBatch (fun _ => 9) 130 twoPuts).2 = laid at *
  cases hreads with
  | cons hfirst _ => exact hfirst _ rfl

end KvTier.Analysis
