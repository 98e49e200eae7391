import KvTier.Analysis.StripeBytes

/-!
# Slices and their reassembly

`cache_put_impl` cuts the staged stream into slices of the stripe unit, and the writer pads each of
them to pages.
-/

namespace KvTier.Analysis

open KvTier.Lib KvTier.Model

section Slices

variable {cfg : Config} {P : StripedPut}

/-- The bytes of the slice of part `i`. -/
def StripedPut.slice (cfg : Config) (P : StripedPut) (stream : Buf) (i : Nat) : List UInt8 :=
  window (sliceBase cfg.stripeUnit stream i) (P.req cfg i).dataLen

theorem InStream.dataLen (h : InStream cfg P) {i : Nat} (hi : i < P.nParts cfg) :
    (P.req cfg i).dataLen = min cfg.stripeUnit (P.len - i * cfg.stripeUnit) :=
  StripedPut.sliceLen_eq P.len_lt (h.1 i hi).le

/-- The slices in order are the stream. -/
theorem slices_flatMap (h : InStream cfg P) (stream : Buf) {m : Nat} (hm : m ≤ P.nParts cfg) :
    (List.range m).flatMap (P.slice cfg stream) =
      window stream (min (m * cfg.stripeUnit) P.len) := by
  have h32 := P.len_lt
  induction m with
  | zero => simp [window]
  | succ m ih =>
    have hstart := h.1 m (by omega)
    have hoff : m * cfg.stripeUnit % 2 ^ 64 = m * cfg.stripeUnit := Nat.mod_eq_of_lt (by omega)
    have hend : min ((m + 1) * cfg.stripeUnit) P.len =
        m * cfg.stripeUnit + min cfg.stripeUnit (P.len - m * cfg.stripeUnit) := by
      rw [Nat.succ_mul]
      omega
    rw [List.range_succ, List.flatMap_append, ih (by omega), Nat.min_eq_left hstart.le, hend,
      window_add, List.flatMap_singleton, StripedPut.slice, h.dataLen (by omega)]
    unfold sliceBase
    rw [hoff]

theorem slice_le_next (h : InStream cfg P) {i j : Nat} (hij : i < j) (hj : j < P.nParts cfg) :
    i * cfg.stripeUnit + (P.req cfg i).dataLen ≤ j * cfg.stripeUnit := by
  have hnext : (i + 1) * cfg.stripeUnit ≤ j * cfg.stripeUnit := Nat.mul_le_mul_right _ hij
  rw [Nat.succ_mul] at hnext
  rw [h.dataLen (hij.trans hj)]
  omega

theorem copy_inside (h : InStream cfg P) {i : Nat} (hi : i < P.nParts cfg) :
    i * cfg.stripeUnit + copyLen cfg.stripeUnit P.len (i * cfg.stripeUnit) ≤ P.len ∧
      copyLen cfg.stripeUnit P.len (i * cfg.stripeUnit) ≤ (P.part cfg i).lenPages * pageSize := by
  have h32 := P.len_lt
  have hstart := h.1 i hi
  rw [copyLen_eq h32 hstart.le, ← h.dataLen hi]
  refine ⟨?_, (payloadNpages_mul ?_).2.2⟩
  · rw [h.dataLen hi]
    omega
  · rw [h.dataLen hi]
    omega

end Slices

/-- Reading the parts of a stream puts it together again. The slices of a put are not empty, lie one
behind the other and are the stream; the loop of a get over the parts on their pages leaves the
stream in its buffer and nothing else changed, and each of its copies stays inside the stream and
inside the pages of its part. -/
theorem stripe_reassembly {cfg : Config} (hdevs : 0 < cfg.nDevs) (hunit : 0 < cfg.stripeUnit)
    (h32 : cfg.stripeUnit < 2 ^ 32) {P : StripedPut} (hlen : 0 < P.len)
    (hpage : ∀ i, i < P.nParts cfg → P.page i ≠ 0) {stream : Buf} {disk : Disk}
    (hw : Written cfg P stream disk) :
    (∀ pathOf, P.Issued cfg pathOf →
      cachePutReqs cfg P.args P.ver P.shape =
        some ((List.range (P.nParts cfg)).map (P.req cfg))) ∧
    (∀ i < P.nParts cfg, 0 < (P.req cfg i).dataLen) ∧
    (∀ i j, i < j → j < P.nParts cfg →
      i * cfg.stripeUnit + (P.req cfg i).dataLen ≤ j * cfg.stripeUnit) ∧
    (List.range (P.nParts cfg)).flatMap (P.slice cfg stream) = window stream P.len ∧
    (∀ mem : ReadMem, ∃ m : ReadMem,
      (List.range (P.nParts cfg)).foldlM (readPart cfg disk (P.stripeAddr cfg)) mem = .ok m ∧
      window m.stream P.len = window stream P.len ∧
      ∀ i, P.len ≤ i → m.stream i = mem.stream i) ∧
    ∀ i < P.nParts cfg,
      i * cfg.stripeUnit + copyLen cfg.stripeUnit P.len (i * cfg.stripeUnit) ≤ P.len ∧
      copyLen cfg.stripeUnit P.len (i * cfg.stripeUnit) ≤ (P.part cfg i).lenPages * pageSize ∧
      ∀ mem : ReadMem, ∃ t : Buf, readPart cfg disk (P.stripeAddr cfg) mem i =
        .ok ⟨blit mem.stream (i * cfg.stripeUnit) t
          (copyLen cfg.stripeUnit P.len (i * cfg.stripeUnit)), t⟩ := by
  have hin : InStream cfg P := inStream_of_unit (by omega) hlen (.inl h32)
  refine ⟨fun _ h => h.reqs.1, fun i hi => ?_, fun i j => slice_le_next hin, ?_, fun mem => ?_,
    fun i hi => ?_⟩
  · have hstart := hin.1 i hi
    rw [hin.dataLen hi]
    omega
  · rw [slices_flatMap hin stream (le_refl _), Nat.min_eq_right hin.2]
  · obtain ⟨t, hread⟩ := readParts_eq hdevs hpage hw hin mem (le_refl _)
    rw [Nat.min_eq_right hin.2] at hread
    refine ⟨_, hread, window_congr fun i hi => ?_, fun i hi => ?_⟩
    · exact if_pos hi
    · exact if_neg (by omega)
  refine ⟨(copy_inside hin hi).1, (copy_inside hin hi).2, fun mem => ?_⟩
  obtain ⟨t, hread, -⟩ := readPart_written hdevs hpage hw hi mem
  have hoff : i * cfg.stripeUnit % 2 ^ 32 = i * cfg.stripeUnit :=
    Nat.mod_eq_of_lt ((hin.1 i hi).trans P.len_lt)
  rw [hoff] at hread
  exact ⟨t, hread⟩

/-- Two devices with a stripe unit of three bytes. -/
def oddUnit : Config := { twoDevs with stripeUnit := 3, stripeThreshold := 0 }

/-- A put of eight bytes. -/
def oddPut : StripedPut where
  args := ⟨0, 0, samplePath 0 0, 0, [8], false, 0⟩
  ver := 1
  shape := ⟨0, [8]⟩
  page i := 64 + i
  now _ := 1

/-- Eight bytes in slices of three, three and two, and back. -/
theorem stripe_reassembly_odd :
    ∃ disk : Disk,
      (List.range 3).map (fun i => (oddPut.req oddUnit i).dataLen) = [3, 3, 2] ∧
      ∀ mem : ReadMem, ∃ m : ReadMem,
        (List.range 3).foldlM (readPart oddUnit disk (oddPut.stripeAddr oddUnit)) mem = .ok m ∧
        window m.stream 8 = [0, 1, 2, 3, 4, 5, 6, 7] := by
  have happ : PartsApart oddUnit oddPut := ⟨by decide +kernel, by decide +kernel⟩
  have hwritten := written_partsDisk happ (fun i => UInt8.ofNat i)
  obtain ⟨-, -, -, -, hread, -⟩ := stripe_reassembly (show 0 < oddUnit.nDevs by decide)
    (show 0 < oddUnit.stripeUnit by decide) (by decide) (show 0 < oddPut.len by decide) happ.page
    hwritten
  refine ⟨partsDisk oddUnit oddPut fun i => UInt8.ofNat i, by decide +kernel, fun mem => ?_⟩
  obtain ⟨m, hfold, hwin, -⟩ := hread mem
  exact ⟨m, hfold, hwin.trans (by decide)⟩

end KvTier.Analysis
