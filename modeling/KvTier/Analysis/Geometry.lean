import KvTier.Analysis.Placement
import KvTier.Model.Geometry

/-!
# Does a reopen keep the geometry?

The second of two opens sizes the regions by the first device, as the first open left it. If the
first open did the same, nothing changes (`reopen_of_sized`).
-/

namespace KvTier.Analysis

open KvTier.Lib KvTier.Model List Option

variable {ab cnt jp p pages q total : Nat} {cfgIn : Option KvConfig} {f : DevFile}

/-! ## Alignment -/

theorem alignRegionPages_eq (h64 : 64 ≤ p) (hfit : p * 4096 < 2 ^ 64) :
    alignRegionPages p ab =
      if 4096 < ab ∧ 64 * 4096 ≤ p * 4096 / ab * ab then p * 4096 / ab * ab / 4096 else p := by
  have hclamp : ¬ p < 64 := by omega
  have hpage : pageSize = 4096 := rfl
  simp only [alignRegionPages, hpage, if_neg hclamp, Nat.mod_eq_of_lt hfit]

theorem alignRegionPages_clamp (p ab : Nat) : alignRegionPages p ab = alignRegionPages (max 64 p) ab := by
  by_cases h : p < 64
  · have hmax : max 64 p = 64 := by omega
    simp only [alignRegionPages, hmax, if_pos h, Nat.lt_irrefl, if_false]
  · have hmax : max 64 p = p := by omega
    rw [hmax]

theorem le_alignRegionPages (p ab : Nat) : 64 ≤ alignRegionPages p ab := by
  have hpage : pageSize = 4096 := rfl
  have hclamp : 64 ≤ if p < 64 then 64 else p := by split <;> omega
  simp only [alignRegionPages, hpage]
  generalize (if p < 64 then 64 else p) = p' at hclamp ⊢
  split
  · rename_i h
    exact (Nat.le_div_iff_mul_le (by decide)).2 h.2
  · exact hclamp

theorem alignRegionPages_le (h64 : 64 ≤ p) (hfit : p * 4096 < 2 ^ 64) :
    alignRegionPages p ab ≤ p := by
  rw [alignRegionPages_eq h64 hfit]
  have hle : p * 4096 / ab * ab ≤ p * 4096 := Nat.div_mul_le_self _ _
  split
  · omega
  · exact Nat.le_refl _

theorem alignRegionPages_min (ab : Nat) : alignRegionPages 64 ab = 64 :=
  Nat.le_antisymm (alignRegionPages_le (Nat.le_refl _) (by decide)) (le_alignRegionPages _ _)

/-- The size of a region of new devices. -/
def freshPages (ab : Nat) : Nat :=
  if 4096 < ab ∧ ab ≤ 2 ^ 25 then 2 ^ 25 / ab * ab / 4096 else 8192

theorem fresh_bounds (hpos : 0 < ab) (hab : ab ≤ 2 ^ 25) :
    1 ≤ 2 ^ 25 / ab ∧ ab ≤ 2 ^ 25 / ab * ab ∧ 2 ^ 25 / ab * ab ≤ 2 ^ 25 ∧
      2 ^ 25 < 2 ^ 25 / ab * ab + ab := by
  have hone : 1 ≤ 2 ^ 25 / ab := (Nat.one_le_div_iff hpos).2 hab
  have hmul : 1 * ab ≤ 2 ^ 25 / ab * ab := Nat.mul_le_mul_right ab hone
  refine ⟨hone, by omega, Nat.div_mul_le_self _ _, ?_⟩
  have hdecomp := Nat.div_add_mod' (2 ^ 25) ab
  have hmod := Nat.mod_lt (2 ^ 25) hpos
  omega

/-- New devices get regions of `freshPages`. -/
theorem alignRegionPages_new (ab : Nat) : alignRegionPages 8192 ab = freshPages ab := by
  have hbytes : 8192 * 4096 = 2 ^ 25 := by decide
  rw [alignRegionPages_eq (by decide) (by decide), freshPages, hbytes]
  by_cases hlow : 4096 < ab
  · by_cases hhigh : ab ≤ 2 ^ 25
    · obtain ⟨-, hself, -, hnext⟩ := fresh_bounds (by omega) hhigh
      have hbig : 64 * 4096 ≤ 2 ^ 25 / ab * ab := by omega
      rw [if_pos ⟨hlow, hbig⟩, if_pos ⟨hlow, hhigh⟩]
    · have hzero : 2 ^ 25 / ab = 0 := Nat.div_eq_of_lt (by omega)
      rw [if_neg (by rintro ⟨-, h⟩; rw [hzero] at h; omega), if_neg fun h => hhigh h.2]
  · rw [if_neg fun h => hlow h.1, if_neg fun h => hlow h.1]

/-- When a size is aligned to the one of new devices. -/
def AlignsToFresh (ab q : Nat) : Prop :=
  (ab ≤ 4096 ∧ q = 8192) ∨
  (4096 < ab ∧ ab ≤ 2 ^ 25 ∧ (q * 4096 / ab = 2 ^ 25 / ab ∨ (2 ^ 24 < ab ∧ q = ab / 4096))) ∨
  (2 ^ 25 < ab ∧ (q = 8192 ∨ (ab < 2 ^ 25 + 4096 ∧ q * 4096 / ab = 1)))

instance (ab q : Nat) : Decidable (AlignsToFresh ab q) := inferInstanceAs (Decidable (_ ∨ _ ∨ _))

theorem mul_div_page_inj {ab k k' : Nat} (hab : 4096 < ab) (h : k * ab / 4096 = k' * ab / 4096) :
    k = k' := by
  -- The larger multiple is at least one alignment, so more than a page, ahead.
  have hstep : ∀ {i j : Nat}, i < j → i * ab / 4096 < j * ab / 4096 := by
    intro i j hij
    have hmul : (i + 1) * ab ≤ j * ab := Nat.mul_le_mul_right ab hij
    rw [Nat.add_one_mul] at hmul
    omega
  rcases Nat.lt_trichotomy k k' with hlt | heq | hgt
  · exact absurd h (Nat.ne_of_lt (hstep hlt))
  · exact heq
  · exact absurd h.symm (Nat.ne_of_lt (hstep hgt))

theorem align_mid_iff (hlow : 4096 < ab) (hhigh : ab ≤ 2 ^ 25) :
    ((if 4096 < ab ∧ 64 * 4096 ≤ q * 4096 / ab * ab then q * 4096 / ab * ab / 4096 else q) =
        2 ^ 25 / ab * ab / 4096) ↔
      (q * 4096 / ab = 2 ^ 25 / ab ∨ (2 ^ 24 < ab ∧ q = ab / 4096)) := by
  obtain ⟨hone, hself, -, hnext⟩ := fresh_bounds (by omega) hhigh
  have hcut : q * 4096 / ab * ab ≤ q * 4096 := Nat.div_mul_le_self _ _
  -- Between 16 and 32 MiB exactly one multiple fits.
  have hsingle : 2 ^ 24 < ab → 2 ^ 25 / ab = 1 := by
    intro hbig
    refine Nat.div_eq_of_lt_le ?_ ?_ <;> omega
  constructor
  · intro heq
    split at heq
    · exact .inl (mul_div_page_inj hlow heq)
    rename_i hsmall
    -- Not aligned at all: then not even one multiple fits in front of the first.
    have hsmall : q * 4096 / ab * ab < 64 * 4096 := by
      by_contra hc
      exact hsmall ⟨hlow, Nat.le_of_not_lt hc⟩
    have hdecomp := Nat.div_add_mod' (q * 4096) ab
    have hmod := Nat.mod_lt (q * 4096) (show 0 < ab by omega)
    rcases Nat.lt_or_ge 1 (2 ^ 25 / ab) with htwo | hle
    · have hmul : 2 * ab ≤ 2 ^ 25 / ab * ab := Nat.mul_le_mul_right ab htwo
      omega
    · have hk : 2 ^ 25 / ab = 1 := by omega
      rw [hk, Nat.one_mul] at heq hnext
      exact .inr ⟨by omega, heq⟩
  rintro (hk | ⟨hbig, hq'⟩)
  · rw [hk, if_pos ⟨hlow, by omega⟩]
  rw [hsingle hbig, Nat.one_mul]
  split
  · rename_i hc
    have hpos : 0 < q * 4096 / ab := by
      by_contra hzero
      have hz : q * 4096 / ab = 0 := Nat.eq_zero_of_not_pos hzero
      rw [hz] at hc
      omega
    have hmul : 1 * ab ≤ q * 4096 / ab * ab := Nat.mul_le_mul_right ab hpos
    have hexact : q * 4096 / ab * ab = ab := by omega
    rw [hexact]
  · exact hq'

theorem alignRegionPages_eq_fresh_iff (h64 : 64 ≤ q) (hfit : q * 4096 < 2 ^ 64) :
    alignRegionPages q ab = freshPages ab ↔ AlignsToFresh ab q := by
  rw [alignRegionPages_eq h64 hfit]
  unfold freshPages
  by_cases hlow : 4096 < ab
  · by_cases hhigh : ab ≤ 2 ^ 25
    · rw [if_pos (⟨hlow, hhigh⟩ : 4096 < ab ∧ ab ≤ 2 ^ 25)]
      rw [align_mid_iff hlow hhigh]
      constructor
      · exact fun h => .inr (.inl ⟨hlow, hhigh, h⟩)
      rintro (⟨hc, -⟩ | ⟨-, -, h⟩ | ⟨hc, -⟩)
      · omega
      · exact h
      · omega
    have hn : ¬ (4096 < ab ∧ ab ≤ 2 ^ 25) := fun h => hhigh h.2
    rw [if_neg hn]
    constructor
    · intro heq
      refine .inr (.inr ⟨by omega, ?_⟩)
      split at heq
      · rename_i hc
        -- One multiple fits, and it has to be in the same page as 32 MiB.
        have hlt : q * 4096 / ab * ab < 2 ^ 25 + 4096 := by omega
        have hk : q * 4096 / ab < 2 := by
          by_contra hge
          have hmul : 2 * ab ≤ q * 4096 / ab * ab := Nat.mul_le_mul_right ab (Nat.le_of_not_lt hge)
          omega
        have hk0 : q * 4096 / ab ≠ 0 := by
          intro hz
          rw [hz] at hc
          omega
        have hk1 : q * 4096 / ab = 1 := Nat.le_antisymm (Nat.le_of_lt_succ hk) (Nat.pos_of_ne_zero hk0)
        rw [hk1] at hlt
        exact .inr ⟨by omega, hk1⟩
      · exact .inl heq
    rintro (⟨hc, -⟩ | ⟨-, hc, -⟩ | ⟨-, rfl | ⟨hab, hk⟩⟩)
    · omega
    · omega
    · have hz : 8192 * 4096 / ab = 0 := Nat.div_eq_of_lt (by omega)
      rw [hz, if_neg (by rintro ⟨-, h⟩; omega)]
    · rw [hk, Nat.one_mul, if_pos ⟨hlow, by omega⟩]
      omega
  have hn : ¬ (4096 < ab ∧ ab ≤ 2 ^ 25) := fun h => hlow h.1
  rw [if_neg hn, if_neg fun h => hlow h.1]
  constructor
  · exact fun h => .inl ⟨by omega, h⟩
  rintro (⟨-, h⟩ | ⟨hc, -⟩ | ⟨hc, -⟩)
  · exact h
  · omega
  · omega

/-! ## The configuration -/

/-- `region_cnt` after its default. -/
def regionCntOf (k : KvConfig) : Nat := orDefault k.regionCnt 6

/-- `journal_pages` after its default. -/
def journalPagesOf (k : KvConfig) : Nat := orDefault k.journalPages 512

/-- `region_align_bytes` after its default. -/
def alignBytesOf (k : KvConfig) : Nat := orDefault k.regionAlignBytes 4096

/-- `region_size_pages` of an open. -/
def openPages (k : KvConfig) (devPages : Option Nat) : Nat :=
  alignRegionPages
    (if k.regionSizePages = 0 then autoRegionPages devPages (journalPagesOf k) (regionCntOf k)
      else k.regionSizePages) (alignBytesOf k)

theorem cacheOpenConfig_geometry {n : Nat} {devPages : Option Nat} {w : WriterConfig}
    (h : cacheOpenConfig cfgIn n devPages = some w) :
    0 < n ∧ w.regionCnt = regionCntOf (givenConfig cfgIn) ∧
      w.journalPages = journalPagesOf (givenConfig cfgIn) ∧
      w.regionSizePages = openPages (givenConfig cfgIn) devPages := by
  simp only [cacheOpenConfig] at h
  split at h
  · rename_i hpos
    split at h
    · cases h
    · cases h
      exact ⟨hpos.1, rfl, rfl, rfl⟩
  · cases h

theorem cacheOpenConfig_accepts {n : Nat} {devPages : Option Nat} {w : WriterConfig}
    (h : cacheOpenConfig cfgIn n devPages = some w) (devPages' : Option Nat) :
    ∃ w', cacheOpenConfig cfgIn n devPages' = some w' := by
  simp only [cacheOpenConfig] at h ⊢
  split at h
  · rename_i hpos
    rw [dif_pos hpos]
    split at h
    · cases h
    · rename_i hok
      exact ⟨_, if_neg hok⟩
  · cases h

theorem orDefault_lt {x dflt b : Nat} (hx : x < b) (hd : dflt < b) : orDefault x dflt < b := by
  unfold orDefault
  split
  · exact hd
  · exact hx

/-! ## The files -/

/-- Pages of the first device; zero if its file is missing. -/
def firstPages (devs : List (Option DevFile)) : Nat := (devs.head?.join.map DevFile.pages).getD 0

theorem mapM_some_iff {α β : Type} {f : α → Option β} {xs : List α} {ys : List β} :
    xs.mapM f = some ys ↔ xs.map f = ys.map some := by
  induction xs generalizing ys with
  | nil => cases ys <;> simp
  | cons x xs ih =>
    cases ys with
    | nil => simp [mapM_cons, bind_eq_some_iff]
    | cons y ys =>
      simp only [mapM_cons, bind_eq_bind, bind_eq_some_iff, Option.pure_def,
        Option.some.injEq, map_cons, List.cons.injEq]
      constructor
      · rintro ⟨z, hz, zs, hzs, rfl, rfl⟩
        exact ⟨hz, ih.1 hzs⟩
      · rintro ⟨hz, hzs⟩
        exact ⟨y, hz, ys, ih.2 hzs, rfl, rfl⟩

theorem pages_mul_lt (f : DevFile) : f.pages * 4096 < 2 ^ 63 := by
  have hle : f.size / 4096 * 4096 ≤ f.size := Nat.div_mul_le_self _ _
  have hsize := f.size_lt
  have hpages : f.pages = f.size / 4096 := rfl
  omega

theorem ftruncate_pages {sb : Option (Nat × Nat)} (h : ftruncate pages sb = some f) :
    f.pages = pages := by
  unfold ftruncate at h
  split at h
  · cases h
    exact Nat.mul_div_cancel pages (by decide)
  · cases h

theorem prepared_pages {dev : Option DevFile}
    (h : (cachePrepDevice pages dev).bind fileDeviceOpen = some f) :
    f.pages = max pages ((dev.map DevFile.pages).getD 0) ∧ 8 ≤ f.pages := by
  obtain ⟨g, hg, hopen⟩ := bind_eq_some_iff.1 h
  unfold fileDeviceOpen at hopen
  split at hopen
  · cases hopen
  rename_i h8
  cases hopen
  refine ⟨?_, Nat.le_of_not_lt h8⟩
  cases dev with
  | none =>
    rw [ftruncate_pages hg]
    exact (Nat.max_zero _).symm
  | some f0 =>
    simp only [cachePrepDevice, map_some, getD_some] at hg ⊢
    split at hg
    · rename_i hlt
      rw [ftruncate_pages hg, Nat.max_eq_left (Nat.le_of_lt hlt)]
    · rename_i hge
      cases hg
      rw [Nat.max_eq_right (Nat.le_of_not_lt hge)]

theorem prepared_again (h8 : 8 ≤ f.pages) (hfit : pages * 4096 < 2 ^ 63) :
    ∃ f', (cachePrepDevice pages (some f)).bind fileDeviceOpen = some f' ∧ f'.sb = f.sb := by
  simp only [cachePrepDevice]
  split
  · rename_i hlt
    have htrunc : ftruncate pages f.sb = some ⟨pages * pageSize, hfit, f.sb⟩ := dif_pos hfit
    have hpages := ftruncate_pages htrunc
    refine ⟨⟨pages * pageSize, hfit, f.sb⟩, ?_, rfl⟩
    rw [htrunc, bind_some, fileDeviceOpen, if_neg (by omega)]
  · exact ⟨f, by rw [bind_some, fileDeviceOpen, if_neg (Nat.not_lt.2 h8)], rfl⟩

/-! ## Sizes -/

/-- What keeps the region size from one open to the next. -/
def KeepsGeometry (k : KvConfig) (devs : List (Option DevFile)) : Prop :=
  k.regionSizePages ≠ 0 ∨
  ((∀ dev ∈ devs, dev.isSome) ∧ journalPagesOf k + 2 < firstPages devs) ∨
  AlignsToFresh (alignBytesOf k)
    (max (freshPages (alignBytesOf k)) ((firstPages devs - journalPagesOf k - 2) / regionCntOf k))

instance (k : KvConfig) (devs : List (Option DevFile)) : Decidable (KeepsGeometry k devs) :=
  inferInstanceAs (Decidable (_ ∨ _ ∨ _))

theorem autoRegionPages_sized (h : jp + 2 < total) :
    autoRegionPages (some total) jp cnt = (total - jp - 2) / cnt := by
  have hbase : regionBasePage = 2 := rfl
  simp only [autoRegionPages, hbase]
  rw [if_pos (by omega)]

theorem autoRegionPages_new {devs : List (Option DevFile)}
    (h : ¬ ((∀ dev ∈ devs, dev.isSome) ∧ jp + 2 < firstPages devs)) :
    autoRegionPages (sizingPages devs) jp cnt = 8192 := by
  unfold sizingPages
  split
  · rename_i hall
    cases hdev : devs.head?.join.map DevFile.pages with
    | none => rfl
    | some total =>
      have hfirst : firstPages devs = total := by rw [firstPages, hdev, getD_some]
      have hsmall : ¬ jp + 2 < total := by
        rw [← hfirst]
        exact fun hc => h ⟨hall, hc⟩
      have hbase : regionBasePage = 2 := rfl
      simp only [autoRegionPages, hbase]
      rw [if_neg (by omega)]
  · rfl

theorem reopened_quotient {p h0 jp cnt : Nat} (hcnt : 0 < cnt) :
    (max (2 + cnt * p + jp) h0 - jp - 2) / cnt = max p ((h0 - jp - 2) / cnt) := by
  have hp : (2 + cnt * p + jp - jp - 2) / cnt = p := by
    have hsub : 2 + cnt * p + jp - jp - 2 = cnt * p := by omega
    rw [hsub, Nat.mul_div_cancel_left p hcnt]
  rcases Nat.le_total (2 + cnt * p + jp) h0 with hle | hle
  · have hmono : (2 + cnt * p + jp - jp - 2) / cnt ≤ (h0 - jp - 2) / cnt :=
      Nat.div_le_div_right (by omega)
    rw [Nat.max_eq_right hle, Nat.max_eq_right (by omega)]
  · have hmono : (h0 - jp - 2) / cnt ≤ (2 + cnt * p + jp - jp - 2) / cnt :=
      Nat.div_le_div_right (by omega)
    rw [Nat.max_eq_left hle, hp, Nat.max_eq_left (by omega)]

section Auto

variable {k : KvConfig} {devs : List (Option DevFile)}

theorem regionCntOf_pos (k : KvConfig) : 0 < regionCntOf k := orDefault_pos (by decide)

theorem openPages_sized (hauto : k.regionSizePages = 0) (hall : ∀ dev ∈ devs, dev.isSome)
    (hfirst : journalPagesOf k + 2 < firstPages devs) :
    openPages k (sizingPages devs) =
      alignRegionPages (max 64 ((firstPages devs - journalPagesOf k - 2) / regionCntOf k))
        (alignBytesOf k) := by
  have hsizing : sizingPages devs = some (firstPages devs) := by
    cases hdev : devs.head?.join.map DevFile.pages with
    | none =>
      rw [firstPages, hdev, getD_none] at hfirst
      omega
    | some total => rw [sizingPages, if_pos hall, firstPages, hdev, getD_some]
  rw [openPages, if_pos hauto, hsizing, autoRegionPages_sized hfirst, ← alignRegionPages_clamp]

theorem openPages_new (hauto : k.regionSizePages = 0)
    (h : ¬ ((∀ dev ∈ devs, dev.isSome) ∧ journalPagesOf k + 2 < firstPages devs)) :
    openPages k (sizingPages devs) = freshPages (alignBytesOf k) := by
  rw [openPages, if_pos hauto, autoRegionPages_new h, alignRegionPages_new]

theorem quotient_le (h0 jp cnt : Nat) : cnt * ((h0 - jp - 2) / cnt) ≤ h0 - jp - 2 :=
  Nat.mul_div_le _ _

theorem pages_fit (hq : q ≤ max 64 total) (h : total * 4096 < 2 ^ 63) : q * 4096 < 2 ^ 64 := by
  rcases Nat.le_total 64 total with hle | hle
  · rw [Nat.max_eq_right hle] at hq
    have hmul := Nat.mul_le_mul_right 4096 hq
    exact Nat.lt_of_le_of_lt hmul (Nat.lt_trans h (by decide))
  · rw [Nat.max_eq_left hle] at hq
    have hmul := Nat.mul_le_mul_right 4096 hq
    exact Nat.lt_of_le_of_lt hmul (by decide)

theorem freshPages_le (ab : Nat) : freshPages ab ≤ 8192 := by
  rw [← alignRegionPages_new]
  exact alignRegionPages_le (by decide) (by decide)

/-- Sizes that are not configured never overflow. -/
theorem auto_total_lt (hk : k.Fits) (hauto : k.regionSizePages = 0)
    (hfirst : firstPages devs * 4096 < 2 ^ 63) :
    2 + regionCntOf k * openPages k (sizingPages devs) + journalPagesOf k < 2 ^ 64 := by
  have hcnt : regionCntOf k < 2 ^ 32 := orDefault_lt hk.regionCnt (by decide)
  have hjp : journalPagesOf k < 2 ^ 32 := orDefault_lt hk.journalPages (by decide)
  by_cases hsized : (∀ dev ∈ devs, dev.isSome) ∧ journalPagesOf k + 2 < firstPages devs
  · rw [openPages_sized hauto hsized.1 hsized.2]
    have hquot := quotient_le (firstPages devs) (journalPagesOf k) (regionCntOf k)
    have hqle : (firstPages devs - journalPagesOf k - 2) / regionCntOf k ≤ firstPages devs :=
      Nat.le_trans (Nat.div_le_self _ _) (by omega)
    generalize (firstPages devs - journalPagesOf k - 2) / regionCntOf k = q at *
    have hqfit : max 64 q * 4096 < 2 ^ 64 := pages_fit (max_le_max_left 64 hqle) hfirst
    have hle : alignRegionPages (max 64 q) (alignBytesOf k) ≤ max 64 q :=
      alignRegionPages_le (Nat.le_max_left _ _) hqfit
    have hmul := Nat.mul_le_mul_left (regionCntOf k) hle
    rcases Nat.le_total 64 q with h | h
    · rw [Nat.max_eq_right h] at hmul ⊢
      omega
    · rw [Nat.max_eq_left h] at hmul ⊢
      omega
  · rw [openPages_new hauto hsized]
    have hmul := Nat.mul_le_mul_left (regionCntOf k) (freshPages_le (alignBytesOf k))
    omega

theorem reopen_pages (hauto : k.regionSizePages = 0)
    (htotal : total = max (2 + regionCntOf k * openPages k (sizingPages devs) + journalPagesOf k)
      (firstPages devs))
    (hfit : total * 4096 < 2 ^ 63) :
    (openPages k (some total) = openPages k (sizingPages devs) ↔ KeepsGeometry k devs) ∧
      2 + regionCntOf k * openPages k (some total) + journalPagesOf k ≤ total := by
  have hcnt := regionCntOf_pos k
  have h64 : 64 ≤ openPages k (sizingPages devs) := le_alignRegionPages _ _
  have hmul64 := Nat.mul_le_mul hcnt h64
  have hbig : journalPagesOf k + 2 < total := by omega
  -- The reopen divides the first device.
  have hopen : openPages k (some total) =
      alignRegionPages ((total - journalPagesOf k - 2) / regionCntOf k) (alignBytesOf k) := by
    rw [openPages, if_pos hauto, autoRegionPages_sized hbig]
  have hquot := quotient_le total (journalPagesOf k) (regionCntOf k)
  have hqle : (total - journalPagesOf k - 2) / regionCntOf k ≤ total :=
    Nat.le_trans (Nat.div_le_self _ _) (by omega)
  have hmax : (total - journalPagesOf k - 2) / regionCntOf k =
      max (openPages k (sizingPages devs))
        ((firstPages devs - journalPagesOf k - 2) / regionCntOf k) := by
    rw [htotal]
    exact reopened_quotient hcnt
  generalize (total - journalPagesOf k - 2) / regionCntOf k = M at *
  have hM64 : 64 ≤ M := by rw [hmax]; exact Nat.le_trans h64 (Nat.le_max_left _ _)
  have hMfit : M * 4096 < 2 ^ 64 := pages_fit (Nat.le_trans hqle (Nat.le_max_right _ _)) hfit
  refine ⟨?_, ?_⟩
  · rw [hopen]
    by_cases hsized : (∀ dev ∈ devs, dev.isSome) ∧ journalPagesOf k + 2 < firstPages devs
    · -- Sized by the device both times: either the device decides again, or the clamp does.
      refine ⟨fun _ => .inr (.inl hsized), fun _ => ?_⟩
      have hfirst := openPages_sized hauto hsized.1 hsized.2
      generalize (firstPages devs - journalPagesOf k - 2) / regionCntOf k = q at *
      rcases Nat.le_total 64 q with hq | hq
      · rw [Nat.max_eq_right hq] at hfirst
        have hqM : q ≤ M := by rw [hmax]; exact Nat.le_max_right _ _
        have hle : openPages k (sizingPages devs) ≤ q := by
          have hqfit : q * 4096 < 2 ^ 64 :=
            pages_fit (Nat.le_trans (Nat.le_trans hqM hqle) (Nat.le_max_right _ _)) hfit
          rw [hfirst]
          exact alignRegionPages_le hq hqfit
        rw [hmax, Nat.max_eq_right hle, hfirst]
      · rw [Nat.max_eq_left hq, alignRegionPages_min] at hfirst
        rw [hfirst, Nat.max_eq_left hq] at hmax
        rw [hfirst, hmax, alignRegionPages_min]
    have hfirst := openPages_new hauto hsized
    rw [hfirst] at hmax ⊢
    rw [alignRegionPages_eq_fresh_iff hM64 hMfit, hmax]
    refine ⟨fun h => .inr (.inr h), ?_⟩
    rintro (h | h | h)
    · exact absurd hauto h
    · exact absurd h hsized
    · exact h
  have hle : openPages k (some total) ≤ M := by
    rw [hopen]
    exact alignRegionPages_le hM64 hMfit
  have hmul := Nat.mul_le_mul_left (regionCntOf k) hle
  omega

end Auto

/-! ## Two opens -/

theorem openDevices_some {devs : List (Option DevFile)} {r : OpenedDevices}
    (h : openDevices cfgIn devs = some r) :
    ∃ w fs, cacheOpenConfig cfgIn devs.length (sizingPages devs) = some w ∧
      (devs.map fun dev => (cachePrepDevice (devTotal w.toConfig) dev).bind fileDeviceOpen) =
        fs.map some ∧
      r = ⟨w.regionSizePages, formattedDevs w.toConfig fs,
        fs.map fun f => { f with sb := some (w.regionCnt, w.regionSizePages) }⟩ := by
  simp only [openDevices, bind_eq_bind, bind_eq_some_iff, mapM_some_iff, Option.some.injEq] at h
  obtain ⟨w, hw, fs, hfs, hr⟩ := h
  exact ⟨w, fs, hw, hfs, hr.symm⟩

theorem formattedDevs_false_iff {cfg : Config} {fs : List DevFile} (hne : fs ≠ [])
    (hsb : ∀ f ∈ fs, f.sb = some (cfg.regionCnt, p)) :
    (∀ b ∈ formattedDevs cfg fs, b = false) ↔ cfg.regionSizePages = p := by
  have hmatch : ∀ f ∈ fs, sbMatches cfg f = decide (cfg.regionSizePages = p) := by
    intro f hf
    rw [sbMatches, hsb f hf]
    by_cases hp : cfg.regionSizePages = p
    · simp [hp]
    · simp [hp, Ne.symm hp]
  obtain ⟨f, rest, rfl⟩ := exists_cons_of_ne_nil hne
  have hhead := hmatch f mem_cons_self
  constructor
  · intro hall
    by_contra hp
    rw [decide_eq_false hp] at hhead
    have htrue : true ∈ formattedDevs cfg (f :: rest) := by simp [formattedDevs, hhead]
    exact Bool.noConfusion (hall true htrue)
  rintro hp b hb
  rw [decide_eq_true hp] at hhead
  simp only [formattedDevs, List.head?_cons, map_some, hhead, getD_some, if_true,
    List.mem_map] at hb
  obtain ⟨g, hg, rfl⟩ := hb
  rw [hmatch g hg, decide_eq_true hp]
  rfl

theorem exists_map_some {α β : Type} {f : α → Option β} {P : β → Prop} {xs : List α}
    (h : ∀ x ∈ xs, ∃ y, f x = some y ∧ P y) :
    ∃ ys : List β, xs.map f = ys.map some ∧ ∀ y ∈ ys, P y := by
  induction xs with
  | nil => exact ⟨[], rfl, fun y hy => by cases hy⟩
  | cons x xs ih =>
    obtain ⟨y, hy, hP⟩ := h x mem_cons_self
    obtain ⟨ys, hys, hall⟩ := ih fun x hx => h x (mem_cons_of_mem _ hx)
    refine ⟨y :: ys, by rw [map_cons, map_cons, hy, hys], ?_⟩
    exact forall_mem_cons.2 ⟨hP, hall⟩

/-- The geometry an open computes. -/
def GeometryOf (k : KvConfig) (devPages : Option Nat) (cfg : Config) : Prop :=
  cfg.regionCnt = regionCntOf k ∧ cfg.journalPages = journalPagesOf k ∧
    cfg.regionSizePages = openPages k devPages

/-- A second open finds the same region size exactly if the first one keeps it. -/
theorem reopen_sizes {k : KvConfig} (hk : k.Fits) {devs : List (Option DevFile)}
    {cfg cfg2 : Config} (h : GeometryOf k (sizingPages devs) cfg)
    (h2 : GeometryOf k (some f.pages) cfg2) (hf : f.pages = max (devTotal cfg) (firstPages devs)) :
    (cfg2.regionSizePages = cfg.regionSizePages ↔ KeepsGeometry k devs) ∧
      devTotal cfg2 ≤ f.pages := by
  obtain ⟨hcnt, hjp, hpages⟩ := h
  obtain ⟨hcnt2, hjp2, hpages2⟩ := h2
  have hbase : regionBasePage = 2 := rfl
  by_cases hauto : k.regionSizePages = 0
  · have hdevfit : firstPages devs * 4096 < 2 ^ 63 := by
      have hle : firstPages devs ≤ f.pages := by rw [hf]; exact Nat.le_max_right _ _
      exact Nat.lt_of_le_of_lt (Nat.mul_le_mul_right 4096 hle) (pages_mul_lt f)
    have htotal : devTotal cfg =
        2 + regionCntOf k * openPages k (sizingPages devs) + journalPagesOf k := by
      rw [devTotal, hcnt, hjp, hpages, hbase]
      exact Nat.mod_eq_of_lt (auto_total_lt hk hauto hdevfit)
    rw [htotal] at hf
    obtain ⟨hiff, hle⟩ := reopen_pages hauto hf (pages_mul_lt f)
    rw [← hpages2, ← hpages] at hiff
    refine ⟨hiff, ?_⟩
    rw [devTotal, hcnt2, hjp2, hpages2, hbase]
    exact Nat.le_trans (Nat.mod_le _ _) hle
  have hsame : cfg2.regionSizePages = cfg.regionSizePages := by
    rw [hpages2, hpages, openPages, openPages, if_neg hauto, if_neg hauto]
  refine ⟨⟨fun _ => .inl hauto, fun _ => hsame⟩, ?_⟩
  have htotal : devTotal cfg2 = devTotal cfg := by
    rw [devTotal, devTotal, hcnt2, hcnt, hjp2, hjp, hsame]
  rw [htotal, hf]
  exact Nat.le_max_left _ _

/-- A second open with the same configuration and device files always succeeds, and it keeps the
size of a region, formatting nothing, exactly when the size is configured, or the first open took it
from the first device, or the first device yields the size of new devices again. -/
theorem reopen_keeps_geometry_iff {cfgIn : Option KvConfig} (hk : (givenConfig cfgIn).Fits)
    {devs : List (Option DevFile)} {r : OpenedDevices} (h : openDevices cfgIn devs = some r) :
    ∃ r', openDevices cfgIn (r.devs.map some) = some r' ∧
      ((r'.regionPages = r.regionPages ∧ ∀ b ∈ r'.formatted, b = false) ↔
        KeepsGeometry (givenConfig cfgIn) devs) := by
  obtain ⟨w, fs, hw, hfs, rfl⟩ := openDevices_some h
  obtain ⟨hn, hcnt, hjp, hpages⟩ := cacheOpenConfig_geometry hw
  generalize hkk : givenConfig cfgIn = k at *
  -- Every file was prepared; the first decides on the geometry of the reopen.
  have hprep : ∀ f ∈ fs, 8 ≤ f.pages := by
    intro f hf
    have hmem : some f ∈ fs.map some := List.mem_map_of_mem hf
    rw [← hfs] at hmem
    obtain ⟨dev, -, hdev⟩ := List.mem_map.1 hmem
    exact (prepared_pages hdev).2
  obtain ⟨dev, rest, rfl⟩ := exists_cons_of_ne_nil (ne_nil_of_length_pos hn)
  obtain ⟨f, frest, rfl⟩ : ∃ f frest, fs = f :: frest := by
    cases fs with
    | nil => cases hfs
    | cons f frest => exact ⟨f, frest, rfl⟩
  have hlen : frest.length = rest.length := by
    have hl := congrArg List.length hfs
    simpa using hl.symm
  have hf := (List.cons.inj hfs).1
  have hfirst : f.pages = max (devTotal w.toConfig) (firstPages (dev :: rest)) :=
    (prepared_pages hf).1
  generalize hdevs2 : ((f :: frest).map fun f : DevFile =>
    { f with sb := some (w.regionCnt, w.regionSizePages) }).map some = devs2
  have hsizing : sizingPages devs2 = some f.pages := by
    subst hdevs2
    simp [sizingPages, DevFile.pages]
  have hlen2 : devs2.length = (dev :: rest).length := by
    subst hdevs2
    simp [hlen]
  obtain ⟨w2, hw2⟩ := cacheOpenConfig_accepts hw (sizingPages devs2)
  obtain ⟨-, hcnt2, hjp2, hpages2⟩ := cacheOpenConfig_geometry hw2
  rw [hkk, hsizing] at hpages2
  rw [hkk] at hcnt2 hjp2
  have hsizes : (w2.regionSizePages = w.regionSizePages ↔ KeepsGeometry k (dev :: rest)) ∧
      devTotal w2.toConfig ≤ f.pages :=
    reopen_sizes hk ⟨hcnt, hjp, hpages⟩ ⟨hcnt2, hjp2, hpages2⟩ hfirst
  have hfit2 : devTotal w2.toConfig * 4096 < 2 ^ 63 :=
    Nat.lt_of_le_of_lt (Nat.mul_le_mul_right 4096 hsizes.2) (pages_mul_lt f)
  -- So every file can be prepared again, with its superblock.
  have hagain : ∀ d ∈ devs2, ∃ g,
      (cachePrepDevice (devTotal w2.toConfig) d).bind fileDeviceOpen = some g ∧
        g.sb = some (w2.regionCnt, w.regionSizePages) := by
    intro d hd
    rw [← hdevs2, List.mem_map] at hd
    obtain ⟨g, hg, rfl⟩ := hd
    obtain ⟨g0, hg0, rfl⟩ := List.mem_map.1 hg
    obtain ⟨g', hg', hsb⟩ := prepared_again
      (f := { g0 with sb := some (w.regionCnt, w.regionSizePages) }) (hprep g0 hg0) hfit2
    refine ⟨g', hg', ?_⟩
    rw [hsb, hcnt2, hcnt]
  obtain ⟨fs2, hfs2, hsb2⟩ := exists_map_some hagain
  have hne2 : fs2 ≠ [] := by
    intro hnil
    have hl := congrArg List.length hfs2
    rw [hnil, length_map, hlen2] at hl
    cases hl
  refine ⟨⟨w2.regionSizePages, formattedDevs w2.toConfig fs2,
    fs2.map fun f => { f with sb := some (w2.regionCnt, w2.regionSizePages) }⟩, ?_, ?_⟩
  · simp only [openDevices, hlen2, hw2, bind_eq_bind, bind_some, mapM_some_iff.2 hfs2]
  · rw [← hsizes.1]
    have hkeep := formattedDevs_false_iff hne2 hsb2
    exact ⟨fun h => h.1, fun h => ⟨h, hkeep.2 h⟩⟩

/-- A reopen of one new device with the defaults. -/
theorem reopen_keeps_geometry_iff_default :
    ∃ r r', openDevices none [none] = some r ∧ openDevices none (r.devs.map some) = some r' ∧
      r'.regionPages = r.regionPages ∧ ∀ b ∈ r'.formatted, b = false := by
  have hopen : openDevices none [none] =
      some ⟨8192, [true], [⟨49666 * 4096, by decide, some (6, 8192)⟩]⟩ := by decide +kernel
  obtain ⟨r', hr', hiff⟩ := reopen_keeps_geometry_iff ⟨by decide, by decide⟩ hopen
  exact ⟨_, r', hopen, hr', hiff.2 (by decide)⟩

/-- Two reopens that format everything: of one new device with an alignment of 5000 bytes, and, with
the defaults, of a large device next to a new one. -/
theorem reopen_formats :
    (∃ r r', openDevices (some { kvConfigDefault with regionAlignBytes := 5000 }) [none] = some r ∧
      openDevices (some { kvConfigDefault with regionAlignBytes := 5000 }) (r.devs.map some) =
        some r' ∧
      r.regionPages = 8190 ∧ r'.regionPages = 8189 ∧ r'.formatted = [true]) ∧
    (∃ r r', openDevices none [some ⟨100000 * 4096, by decide, none⟩, none] = some r ∧
      openDevices none (r.devs.map some) = some r' ∧
      r.regionPages = 8192 ∧ r'.regionPages = 16581 ∧ r'.formatted = [true, true]) := by
  refine ⟨⟨⟨8190, [true], [⟨49654 * 4096, by decide, some (6, 8190)⟩]⟩,
    ⟨8189, [true], [⟨49654 * 4096, by decide, some (6, 8189)⟩]⟩, ?_, ?_, rfl, rfl, rfl⟩,
    ⟨⟨8192, [true, true], [⟨100000 * 4096, by decide, some (6, 8192)⟩,
      ⟨49666 * 4096, by decide, some (6, 8192)⟩]⟩,
    ⟨16581, [true, true], [⟨100000 * 4096, by decide, some (6, 16581)⟩,
      ⟨100000 * 4096, by decide, some (6, 16581)⟩]⟩, ?_, ?_, rfl, rfl, rfl⟩⟩
  · decide +kernel
  · decide +kernel
  · decide +kernel
  · decide +kernel

end KvTier.Analysis
