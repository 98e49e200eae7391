import KvTier.Analysis.StripeBytes

/-!
# Staging a put

A payload above the stripe threshold is copied record by record into one buffer, and the buffer is
cut into parts.
-/

namespace KvTier.Analysis

open KvTier.Lib KvTier.Model List

/-! ## The copies -/

section Copies

theorem stageCopies_concat (recs : List (List UInt8)) (l : List UInt8) :
    stageCopies (recs ++ [l]) =
      (if l.length = 0 then (stageCopies recs).1
        else (stageCopies recs).1 ++ [⟨(stageCopies recs).2, l⟩],
      (stageCopies recs).2 + l.length) := by
  unfold stageCopies
  rw [foldl_append]
  rfl

theorem stageCopies_pointer (recs : List (List UInt8)) :
    (stageCopies recs).2 = (recs.map List.length).sum := by
  induction recs using List.reverseRecOn with
  | nil => rfl
  | append_singleton recs l ih =>
    rw [stageCopies_concat, map_append, sum_append]
    simp [ih]

theorem stageCopies_sum (recs : List (List UInt8)) :
    ((stageCopies recs).1.map fun c => c.bytes.length).sum = (recs.map List.length).sum := by
  induction recs using List.reverseRecOn with
  | nil => rfl
  | append_singleton recs l ih =>
    rw [stageCopies_concat, map_append, sum_append]
    by_cases hl : l.length = 0
    · simp [hl, ih]
    · simp [hl, ih]

theorem stageCopies_end (recs : List (List UInt8)) :
    (∀ c ∈ (stageCopies recs).1, c.off + c.bytes.length ≤ (recs.map List.length).sum) ∧
      (0 < (recs.map List.length).sum →
        ∃ c ∈ (stageCopies recs).1, c.off + c.bytes.length = (recs.map List.length).sum) := by
  induction recs using List.reverseRecOn with
  | nil => simp [stageCopies]
  | append_singleton recs l ih =>
    obtain ⟨hle, hlast⟩ := ih
    rw [stageCopies_concat, map_append, sum_append, stageCopies_pointer]
    have hsum : ([l].map List.length).sum = l.length := by simp
    rw [hsum]
    by_cases hl : l.length = 0
    · rw [if_pos hl, hl, Nat.add_zero]
      exact ⟨hle, hlast⟩
    rw [if_neg hl]
    refine ⟨fun c hc => ?_, fun _ => ⟨_, mem_append_right _ (mem_singleton.2 rfl), rfl⟩⟩
    rcases mem_append.1 hc with hc | hc
    · exact (hle c hc).trans (Nat.le_add_right _ _)
    · obtain rfl := mem_singleton.1 hc
      exact Nat.le_refl _

end Copies

/-! ## The parts -/

section Parts

variable {u l n : Nat}

theorem stripeSplit_limit (hu : u % 2 ^ 32 ≠ 0) (h32 : l < 2 ^ 32) :
    ∃ n, stripeSplit l u = some n ∧ (maxStripeParts < n ↔ maxStripeParts * (u % 2 ^ 32) < l) := by
  rcases Nat.eq_zero_or_pos l with rfl | hpos
  · have hdiv : (0 + u % 2 ^ 32 - 1) / (u % 2 ^ 32) = 0 := Nat.div_eq_of_lt (by omega)
    refine ⟨1, ?_, ?_⟩
    · simp only [stripeSplit, hu, if_false, hdiv, Nat.zero_mod, if_true]
    · simp [maxStripeParts]
  · obtain ⟨n, hn, hstart, hcover⟩ := StripedPut.stripeSplit_cover hu hpos h32
    refine ⟨n, hn, fun hlt => hstart _ hlt, fun hlt => ?_⟩
    exact Nat.lt_of_mul_lt_mul_right (hlt.trans_le hcover)

/-- The slices add up to the stream exactly for units below 32 bits, or streams of one part. -/
theorem slices_cover_iff (h64 : u < 2 ^ 64) (hu : u % 2 ^ 32 ≠ 0) (hpos : 0 < l)
    (h32 : l < 2 ^ 32) (hn : stripeSplit l u = some n) :
    (((List.range n).map (sliceLen u l)).sum = l ↔ u < 2 ^ 32 ∨ l ≤ u % 2 ^ 32) ∧
      (u < 2 ^ 32 ∨ l ≤ u % 2 ^ 32 → ∀ i, i < n → i * u + sliceLen u l i ≤ l) := by
  obtain ⟨n', hn', hstart, hcover⟩ := StripedPut.stripeSplit_cover hu hpos h32
  obtain rfl := Option.some.inj (hn'.symm.trans hn)
  -- each part starts inside the stream
  have hinside : u < 2 ^ 32 ∨ l ≤ u % 2 ^ 32 → (∀ i, i < n' → i * u ≤ l) ∧ l ≤ n' * u := by
    rintro (hshort | hone)
    · rw [Nat.mod_eq_of_lt hshort] at hstart hcover
      exact ⟨fun i hi => (hstart i hi).le, hcover⟩
    refine ⟨fun i hi => ?_, hcover.trans (Nat.mul_le_mul_left _ (Nat.mod_le _ _))⟩
    have hlt := (hstart i hi).trans_le hone
    have hzero : i = 0 := by
      by_contra hne
      exact absurd hlt (Nat.not_lt.2 (Nat.le_mul_of_pos_left _ (Nat.pos_of_ne_zero hne)))
    rw [hzero, Nat.zero_mul]
    exact Nat.zero_le _
  refine ⟨⟨fun hsum => ?_, fun hcond => ?_⟩, fun hcond i hi => ?_⟩
  · by_contra hno
    obtain ⟨hlong, hmore⟩ := not_or.1 hno
    have htwo : 2 ≤ n' := by
      by_contra hlt
      have hle : n' * (u % 2 ^ 32) ≤ 1 * (u % 2 ^ 32) := Nat.mul_le_mul_right _ (by omega)
      omega
    obtain ⟨k, rfl⟩ := Nat.exists_eq_add_of_le htwo
    have hfirst : sliceLen u l 0 = l := by
      unfold sliceLen
      omega
    have hsecond : 0 < sliceLen u l 1 := by
      unfold sliceLen
      omega
    rw [range_add, map_append, sum_append] at hsum
    simp only [range_succ, range_zero, nil_append, cons_append, map_cons,
      map_nil, sum_cons, sum_nil] at hsum
    omega
  · obtain ⟨hin, hend⟩ := hinside hcond
    rw [map_congr_left fun i hi =>
      StripedPut.sliceLen_eq h32 (hin i (mem_range.1 hi)), StripedPut.sum_slices]
    exact Nat.min_eq_right hend
  · have hle := (hinside hcond).1 i hi
    rw [StripedPut.sliceLen_eq h32 hle]
    omega

end Parts

/-! ## Puts above the threshold -/

/-- No copy goes past the end of the staging buffer. -/
def StaysInside (out : PutStaging) : Prop :=
  ∀ size copies, out.buffer = some (size, copies) → ∀ c ∈ copies, c.off + c.bytes.length ≤ size

/-- The buffer holds the records and the requests cover them. -/
def StagesExactly (cfg : Config) (recs : List (List UInt8)) (out : PutStaging) : Prop :=
  out.reqs = none ∨ ∃ size copies reqs, out.buffer = some (size, copies) ∧ out.reqs = some reqs ∧
    (copies.map fun c => c.bytes.length).sum = (recs.map List.length).sum ∧
    (recs.map List.length).sum ≤ size ∧
    (reqs.map (·.dataLen)).sum = (recs.map List.length).sum ∧
    ∀ r ∈ reqs, r.stripeIdx * cfg.stripeUnit + r.dataLen ≤ (recs.map List.length).sum

/-- The put is rejected before anything is copied. -/
def RejectedFirst (cfg : Config) (a : PutArgs) (recs : List (List UInt8)) (fresh : Option Buf) :
    Prop :=
  maxGroups ≤ a.groupIdx ∨ cfg.maxLayers < recs.length ∨ fresh = none

/-- The put is rejected for its parts. -/
def RejectedParts (cfg : Config) (recs : List (List UInt8)) : Prop :=
  cfg.stripeUnit % 2 ^ 32 = 0 ∨
    maxStripeParts * (cfg.stripeUnit % 2 ^ 32) < (recs.map List.length).sum % 2 ^ 32

section Puts

variable {cfg : Config} {a : PutArgs} {recs : List (List UInt8)}

theorem cachePutStaged_long (hlong : cfg.stripeThreshold < (recs.map List.length).sum) (ver : Nat)
    (shape : Shape) (fresh : Option Buf) :
    (RejectedFirst cfg a recs fresh ∧
      cachePutStaged cfg a ver shape recs fresh = ⟨none, none⟩) ∨
    ¬ RejectedFirst cfg a recs fresh ∧
      (cachePutStaged cfg a ver shape recs fresh).buffer =
        some (streamLen recs, (stageCopies recs).1) ∧
      ((RejectedParts cfg recs ∧ (cachePutStaged cfg a ver shape recs fresh).reqs = none) ∨
        ¬ RejectedParts cfg recs ∧ ∃ (n : Nat) (b : PutArgs),
          stripeSplit (streamLen recs) cfg.stripeUnit = some n ∧
          (cachePutStaged cfg a ver shape recs fresh).reqs =
            some ((List.range n).map (stripeReq cfg b ver shape (streamLen recs) n))) := by
  have hthr : cfg.stripeThreshold % 2 ^ 32 < (recs.map List.length).sum :=
    (Nat.mod_le _ _).trans_lt hlong
  unfold RejectedFirst cachePutStaged
  simp only [length_map]
  by_cases hadm : maxGroups ≤ a.groupIdx ∨ cfg.maxLayers < recs.length
  · rw [if_pos hadm]
    refine .inl ⟨?_, rfl⟩
    rcases hadm with h | h
    · exact .inl h
    · exact .inr (.inl h)
  rw [if_neg hadm, if_pos hthr]
  obtain ⟨hgroup, hlayers⟩ := not_or.1 hadm
  cases fresh with
  | none => exact .inl ⟨.inr (.inr rfl), rfl⟩
  | some mem =>
    refine .inr ⟨by simp [hgroup, hlayers], rfl, ?_⟩
    unfold RejectedParts
    simp only [cachePutReqs, length_map, if_neg hadm, if_pos hthr]
    change (_ ∨ maxStripeParts * (cfg.stripeUnit % 2 ^ 32) < streamLen recs) ∧ _ ∨ _
    by_cases hu : cfg.stripeUnit % 2 ^ 32 = 0
    · have hsplit : stripeSplit ((recs.map List.length).sum % 2 ^ 32) cfg.stripeUnit = none := by
        unfold stripeSplit
        exact if_pos hu
      refine .inl ⟨.inl hu, ?_⟩
      rw [hsplit]
    obtain ⟨n, hn, hlimit⟩ := stripeSplit_limit hu
      (show streamLen recs < 2 ^ 32 from Nat.mod_lt _ (by decide))
    rw [show (recs.map List.length).sum % 2 ^ 32 = streamLen recs from rfl, hn]
    simp only [hu, false_or, ← hlimit]
    by_cases hcap : maxStripeParts < n
    · exact .inl ⟨hcap, if_pos hcap⟩
    · exact .inr ⟨hcap, n, _, rfl, if_neg hcap⟩

theorem copies_inside_iff (hpos : 0 < (recs.map List.length).sum) :
    (∀ c ∈ (stageCopies recs).1, c.off + c.bytes.length ≤ streamLen recs) ↔
      (recs.map List.length).sum < 2 ^ 32 := by
  obtain ⟨hle, hlast⟩ := stageCopies_end recs
  have hmod : streamLen recs < 2 ^ 32 := Nat.mod_lt _ (by decide)
  constructor
  · intro hall
    obtain ⟨c, hc, hend⟩ := hlast hpos
    have hfits := hall c hc
    omega
  · intro hlt c hc
    rw [show streamLen recs = (recs.map List.length).sum from Nat.mod_eq_of_lt hlt]
    exact hle c hc

end Puts

/-- Staging stays inside its buffer exactly if the records have less than 2^32 bytes, and a put that
is accepted is staged and cut exactly if, besides, the stripe unit has 32 bits or one part is
enough. -/
theorem staging_exact_iff {cfg : Config} (hunit : cfg.stripeUnit < 2 ^ 64) (a : PutArgs) (ver : Nat)
    (shape : Shape) (recs : List (List UInt8)) (fresh : Option Buf)
    (hlong : cfg.stripeThreshold < (recs.map List.length).sum) :
    (StaysInside (cachePutStaged cfg a ver shape recs fresh) ↔
      RejectedFirst cfg a recs fresh ∨ (recs.map List.length).sum < 2 ^ 32) ∧
    (StagesExactly cfg recs (cachePutStaged cfg a ver shape recs fresh) ↔
      RejectedFirst cfg a recs fresh ∨ RejectedParts cfg recs ∨
        (recs.map List.length).sum < 2 ^ 32 ∧
          (cfg.stripeUnit < 2 ^ 32 ∨ (recs.map List.length).sum ≤ cfg.stripeUnit % 2 ^ 32)) := by
  have hpos : 0 < (recs.map List.length).sum := (Nat.zero_le _).trans_lt hlong
  unfold StaysInside StagesExactly
  rcases cachePutStaged_long (a := a) hlong ver shape fresh with ⟨hrej, hout⟩ | ⟨hadm, hbuf, hreqs⟩
  · rw [hout]
    exact ⟨⟨fun _ => .inl hrej, fun _ _ _ hx => by cases hx⟩,
      ⟨fun _ => .inl hrej, fun _ => .inl rfl⟩⟩
  refine ⟨?_, ?_⟩
  · rw [hbuf, or_iff_right hadm, ← copies_inside_iff hpos]
    constructor
    · intro h
      exact h _ _ rfl
    · rintro h size copies hx
      cases hx
      exact h
  rw [or_iff_right hadm]
  rcases hreqs with ⟨hrej, hnone⟩ | ⟨hrej, n, b, hn, hsome⟩
  · exact ⟨fun _ => .inl hrej, fun _ => .inl hnone⟩
  rw [or_iff_right hrej, hbuf, hsome]
  have hu : cfg.stripeUnit % 2 ^ 32 ≠ 0 := fun h0 => hrej (.inl h0)
  have hmod : streamLen recs < 2 ^ 32 := Nat.mod_lt _ (by decide)
  -- the slices of the requests
  have hlens : ((List.range n).map (stripeReq cfg b ver shape (streamLen recs) n)).map (·.dataLen) =
      (List.range n).map (sliceLen cfg.stripeUnit (streamLen recs)) := by
    rw [map_map]
    rfl
  constructor
  · rintro (hx | ⟨size, copies, reqs, hx, hy, _, hsize, hsum, _⟩)
    · cases hx
    cases hx
    cases hy
    have hlt : (recs.map List.length).sum < 2 ^ 32 := hsize.trans_lt hmod
    have heq : streamLen recs = (recs.map List.length).sum := Nat.mod_eq_of_lt hlt
    rw [hlens, heq] at hsum
    rw [heq] at hn
    exact ⟨hlt, (slices_cover_iff hunit hu hpos hlt hn).1.1 hsum⟩
  rintro ⟨hlt, hcond⟩
  have heq : streamLen recs = (recs.map List.length).sum := Nat.mod_eq_of_lt hlt
  rw [heq] at hn
  obtain ⟨hsum, hinside⟩ := slices_cover_iff hunit hu hpos hlt hn
  refine .inr ⟨_, _, _, rfl, rfl, stageCopies_sum recs, heq.ge, ?_, fun r hr => ?_⟩
  · rw [hlens, heq]
    exact hsum.2 hcond
  · obtain ⟨i, hi, rfl⟩ := mem_map.1 hr
    rw [heq]
    exact hinside hcond i (mem_range.1 hi)

/-- One device with stripes of 64 KiB. -/
def stripeDisk : Config := ⟨1, 2, 64, 4, 65536, 65536, 256⟩

/-- The put of one group, whatever its records. -/
def oneGroupPut : PutArgs := ⟨7, 0, [7], 0, [], false, 0⟩

/-- 70000 bytes in two records. -/
def twoRecords : List (List UInt8) := [List.replicate 40000 1, List.replicate 30000 2]

/-- A put of 70000 bytes is accepted and staged exactly. -/
theorem staging_exact_two_records :
    StaysInside (cachePutStaged stripeDisk oneGroupPut 1 ⟨1, [40000, 30000]⟩ twoRecords
        (some fun _ => 0)) ∧
      StagesExactly stripeDisk twoRecords
        (cachePutStaged stripeDisk oneGroupPut 1 ⟨1, [40000, 30000]⟩ twoRecords
          (some fun _ => 0)) := by
  have hsum : (twoRecords.map List.length).sum = 70000 := by
    simp only [twoRecords, map_cons, map_nil, length_replicate]
    decide
  have hboth := @staging_exact_iff stripeDisk (by decide) oneGroupPut 1
    ⟨1, [40000, 30000]⟩ twoRecords (some fun _ => 0) (by rw [hsum]; decide)
  rw [hsum] at hboth
  exact ⟨hboth.1.2 (.inr (by decide)), hboth.2.2 (.inr (.inr ⟨by decide, .inl (by decide)⟩))⟩

/-- A put of two records of 2 GiB each is accepted, and its records are copied into a buffer of size
0. -/
theorem staging_overflows :
    ∃ recs : List (List UInt8), recs.map List.length = [2 ^ 31, 2 ^ 31] ∧
      ∃ copies reqs,
        (cachePutStaged stripeDisk oneGroupPut 1 ⟨1, [2 ^ 31, 2 ^ 31]⟩ recs
          (some fun _ => 0)).buffer = some (0, copies) ∧
        (cachePutStaged stripeDisk oneGroupPut 1 ⟨1, [2 ^ 31, 2 ^ 31]⟩ recs
          (some fun _ => 0)).reqs = some reqs ∧
        (copies.map fun c => c.bytes.length).sum = 2 ^ 32 ∧
        (∃ c ∈ copies, c.off + c.bytes.length = 2 ^ 32) ∧ reqs.map (·.dataLen) = [0] := by
  obtain ⟨recs, hrecs⟩ : ∃ recs : List (List UInt8), recs.map List.length = [2 ^ 31, 2 ^ 31] := by
    refine ⟨[List.replicate (2 ^ 31) 0, List.replicate (2 ^ 31) 0], ?_⟩
    simp only [map_cons, map_nil, length_replicate]
  have hlen : recs.length = 2 := by
    have hmap := congrArg List.length hrecs
    rwa [length_map] at hmap
  have hsum : (recs.map List.length).sum = 2 ^ 32 := by
    rw [hrecs]
    decide
  have hstream : streamLen recs = 0 := by
    rw [streamLen, hsum]
    decide
  have hadm : ¬ RejectedFirst stripeDisk oneGroupPut recs (some fun _ => 0) := by
    unfold RejectedFirst
    rw [hlen]
    rintro (h | h | h)
    · exact absurd h (by decide)
    · exact absurd h (by decide)
    · cases h
  have hparts : ¬ RejectedParts stripeDisk recs := by
    unfold RejectedParts
    rw [hsum]
    decide
  have hone : stripeSplit 0 stripeDisk.stripeUnit = some 1 := by decide
  obtain ⟨h, _⟩ | ⟨_, hbuf, hreqs⟩ := @cachePutStaged_long stripeDisk oneGroupPut recs
    (by rw [hsum]; decide) 1 ⟨1, [2 ^ 31, 2 ^ 31]⟩ (some fun _ => 0)
  · exact absurd h hadm
  obtain ⟨h, _⟩ | ⟨_, n, b, hn, hreqs⟩ := hreqs
  · exact absurd h hparts
  rw [hstream] at hbuf hn hreqs
  obtain rfl : 1 = n := Option.some.inj (hone.symm.trans hn)
  refine ⟨recs, hrecs, _, _, hbuf, hreqs, ?_, ?_, rfl⟩
  · rw [stageCopies_sum, hsum]
  · obtain ⟨c, hc, hend⟩ := (stageCopies_end recs).2 (by rw [hsum]; decide)
    exact ⟨c, hc, hend.trans hsum⟩

end KvTier.Analysis
