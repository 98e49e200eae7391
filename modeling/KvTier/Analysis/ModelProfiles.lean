import KvTier.Analysis.Geometry
import KvTier.Model.ModelProfile

/-!
# What layouts derived from a model keep

The tuning is computed without a wrap-around (`kvMpTune_exact`), so its constraints are facts about
natural numbers.
-/

namespace KvTier.Analysis

open KvTier.Model

/-! ## Exact arithmetic -/

theorem orDefault_of_pos {x dflt : Nat} (h : 0 < x) : orDefault x dflt = x := if_neg (by omega)

theorem bytesPerTokenLayer_lt (p : KvModelProfile) : kvMpBytesPerTokenLayer p < 2 ^ 32 := by
  unfold kvMpBytesPerTokenLayer
  split
  · decide
  all_goals exact Nat.mod_lt _ (by decide)

theorem kvLayers_lt (p : KvModelProfile) : kvMpKvLayers p < 2 ^ 16 := by
  unfold kvMpKvLayers
  split
  · decide
  · exact orDefault_lt p.attnLayers.toNat_lt p.nLayers.toNat_lt
  · exact p.nLayers.toNat_lt

theorem alignUp_page (v : Nat) : mpAlignUp id v pageSize = (v + 4096 - 1) / 4096 * 4096 :=
  if_neg (by decide)

section Exact

variable {w : Nat → Nat} (hw : ∀ x < 2 ^ 64, w x = x) (p : KvModelProfile)

include hw

theorem layerBytes_exact : kvMpGroupLayerBytes w p = kvMpGroupLayerBytes id p ∧
    kvMpGroupLayerBytes id p < 2 ^ 48 := by
  have hlt : kvMpBytesPerTokenLayer p * orDefault p.tokensPerGroup.toNat 32 < 2 ^ 32 * 2 ^ 16 :=
    Nat.mul_lt_mul'' (bytesPerTokenLayer_lt p) (orDefault_lt p.tokensPerGroup.toNat_lt (by decide))
  exact ⟨hw _ (by omega), hlt⟩

theorem groupBytes_exact : kvMpGroupBytes w p = kvMpGroupBytes id p ∧
    kvMpGroupBytes id p ≤ (2 ^ 48 - 1) * (2 ^ 16 - 1) := by
  obtain ⟨heq, hl⟩ := layerBytes_exact hw p
  have hle : kvMpGroupLayerBytes id p * kvMpKvLayers p ≤ (2 ^ 48 - 1) * (2 ^ 16 - 1) :=
    Nat.mul_le_mul (Nat.le_pred_of_lt hl) (Nat.le_pred_of_lt (kvLayers_lt p))
  rw [kvMpGroupBytes, heq]
  exact ⟨hw _ (by omega), hle⟩

omit p in
theorem alignUp_exact {v a : Nat} (h : v + a - 1 < 2 ^ 64) :
    mpAlignUp w v a = mpAlignUp id v a := by
  rw [mpAlignUp, hw _ h, mpAlignUp, id]

omit p in
theorem lcm_exact {b : Nat} (h : b < 2 ^ 48) :
    lcmU64 w pageSize b = lcmU64 id pageSize b ∧ lcmU64 id pageSize b < 2 ^ 61 := by
  have hle : pageSize / Nat.gcd pageSize b * b ≤ pageSize * 2 ^ 48 :=
    Nat.mul_le_mul (Nat.div_le_self _ _) h.le
  have hlt := hle.trans_lt (show pageSize * 2 ^ 48 < 2 ^ 61 by decide)
  unfold lcmU64
  split
  · exact ⟨rfl, by decide⟩
  · exact ⟨hw _ (by omega), hlt⟩

/-- Nothing wraps around: every arithmetic that is exact below 2^64 gives the same tuning. -/
theorem kvMpTune_exact {ts tb : Nat} (hts : ts < 2 ^ 40) (htb : tb < 2 ^ 40) (region : Nat) :
    kvMpTune w p pageSize region ts tb = kvMpTune id p pageSize region ts tb := by
  obtain ⟨hl, hlt⟩ := layerBytes_exact hw p
  obtain ⟨hg, hgle⟩ := groupBytes_exact hw p
  have hpage : pageSize = 4096 := rfl
  have hts' := orDefault_lt hts (show 256 * 1024 < 2 ^ 40 by decide)
  have htb' := orDefault_lt htb (show 256 * 1024 < 2 ^ 40 by decide)
  obtain ⟨hlcm, hlcm'⟩ := lcm_exact hw (orDefault_lt hlt (show pageSize < 2 ^ 48 by decide))
  have hgran := orDefault_lt hlcm' (show pageSize < 2 ^ 61 by decide)
  have hup := alignUp_page
  unfold kvMpTune
  simp only [hl, hg, hlcm]
  generalize kvMpGroupBytes id p = g at *
  generalize orDefault ts _ = ts, orDefault tb _ = tb, orDefault (lcmU64 _ _ _) _ = gran at *
  rw [alignUp_exact hw (v := ts) (a := gran) (by omega),
    alignUp_exact hw (v := max tb g) (by omega), alignUp_exact hw (v := ts) (by omega),
    alignUp_exact hw (v := g) (by omega)]
  generalize hthr : (if ts < g then mpAlignUp id ts pageSize
    else orDefault (mpAlignDown ts g) g) = thr
  -- the batch is rounded up to whole groups only if they are small
  by_cases hle : g ≤ thr
  · have hsmall : g < 2 ^ 41 := by
      have := hup ts
      split at hthr <;> omega
    have := hup (max tb g)
    rw [alignUp_exact hw (v := mpAlignUp id (max tb g) pageSize) (a := g) (by omega)]
  · simp only [hle, if_false]

end Exact

theorem wrap64_exact (x : Nat) (h : x < 2 ^ 64) : wrap64 x = x := Nat.mod_eq_of_lt h

/-! ## The constraints -/

/-- The target of a batch in whole pages, then in whole groups. -/
def groupsFor (g tb : Nat) : Nat := mpAlignUp id (mpAlignUp id (max tb g) pageSize) g

/-- When the targets fit groups of `g` bytes: the groups of a batch are whole pages, or they are above
the threshold and that has a page. -/
def TargetsFit (g ts tb : Nat) : Prop :=
  ts < g ∨ if groupsFor g tb ≤ ts / g * g then pageSize ∣ groupsFor g tb else pageSize ≤ ts / g * g

/-- What is documented of a tuning (model_profile.h:78-87). -/
structure Tuned (layer : Nat) (t : KvModelTuning) : Prop where
  batchPages : pageSize ∣ t.batchMinBytes
  batchLe : t.batchMinBytes ≤ t.stripeThreshold
  unitPages : pageSize ∣ t.stripeUnit
  unitLayers : layer ∣ t.stripeUnit
  regionPos : t.regionAlignBytes ≠ 0
  regionGroups : t.groupBytes ∣ t.regionAlignBytes

theorem dvd_alignUp (v a : Nat) (h : 0 < a) : a ∣ mpAlignUp id v a := by
  rw [mpAlignUp, if_neg (by omega)]
  exact Nat.dvd_mul_left _ _

theorem le_alignUp (v a : Nat) (h : 0 < a) : v ≤ mpAlignUp id v a := by
  rw [mpAlignUp, if_neg (by omega)]
  have hlt := Nat.lt_div_mul_add h (a := v + a - 1)
  simp only [id]
  omega

section Tuning

variable {p : KvModelProfile} {t : KvModelTuning} {region ts tb : Nat}

section Sizes

variable (h : kvMpTune id p pageSize region ts tb = some t) (hts : pageSize ≤ ts)
include h hts

/-- The sizes that do not depend on the rounding of batches. -/
theorem tune_sizes :
    t.groupBytes = kvMpGroupBytes id p ∧ 0 < t.groupBytes ∧ pageSize ∣ t.stripeUnit ∧
    kvMpGroupLayerBytes id p ∣ t.stripeUnit ∧ t.stripeUnit ≠ 0 ∧ t.regionAlignBytes ≠ 0 ∧
    t.groupBytes ∣ t.regionAlignBytes ∧ t.groupBytes ≤ t.dramEntryMaxBytes ∧
    t.stripeThreshold < ts + pageSize ∧ 0 < t.batchMinBytes := by
  have hpage : 0 < pageSize := by decide
  simp only [kvMpTune] at h
  split at h
  · cases h
  rename_i hne
  cases h
  have hg : 0 < kvMpGroupBytes id p := by omega
  have hl : 0 < kvMpGroupLayerBytes id p := Nat.pos_of_ne_zero (left_ne_zero_of_mul hg.ne')
  have hlcm : lcmU64 id pageSize (kvMpGroupLayerBytes id p) =
      Nat.lcm pageSize (kvMpGroupLayerBytes id p) := by
    rw [lcmU64, if_neg (by omega)]
    exact Nat.div_mul_right_comm (Nat.gcd_dvd_left _ _) _
  have hlpos := Nat.lcm_pos hpage hl
  have hunit := dvd_alignUp ts _ hlpos
  have hle := le_alignUp ts _ hlpos
  simp only [orDefault_of_pos hl, hlcm, orDefault_of_pos hlpos,
    orDefault_of_pos (x := ts) (by omega), alignUp_page ts, mpAlignDown, hg.ne', if_false]
  refine ⟨trivial, hg, (Nat.dvd_lcm_left _ _).trans hunit, (Nat.dvd_lcm_right _ _).trans hunit,
    by omega, (orDefault_pos hg).ne', ?_, le_alignUp _ _ hpage, ?_, orDefault_pos hpage⟩
  · unfold orDefault
    split
    · exact Nat.dvd_refl _
    · exact Nat.dvd_mul_left _ _
  · have hdown := Nat.div_mul_le_self ts (kvMpGroupBytes id p)
    rw [show pageSize = 4096 from rfl]
    unfold orDefault
    split_ifs <;> omega

/-- The least batch is whole pages within the threshold exactly when the targets fit. -/
theorem tune_batch_iff (htb : pageSize ≤ tb) :
    (pageSize ∣ t.batchMinBytes ∧ t.batchMinBytes ≤ t.stripeThreshold) ↔
      TargetsFit (kvMpGroupBytes id p) ts tb := by
  have hpage : pageSize = 4096 := rfl
  simp only [kvMpTune] at h
  split at h
  · cases h
  rename_i hne
  cases h
  rw [orDefault_of_pos (x := ts) (by omega), orDefault_of_pos (x := tb) (by omega)]
  generalize kvMpGroupBytes id p = g at *
  have hg : 0 < g := by omega
  unfold TargetsFit groupsFor
  rcases Nat.lt_or_ge ts g with hlt | hge
  · -- the batch is cut to the threshold, which is whole pages
    simp only [hlt, if_true, true_or, iff_true]
    have hup := le_alignUp (mpAlignUp id (max tb g) pageSize) g hg
    generalize mpAlignUp id (mpAlignUp _ _ _) g = want at *
    rw [alignUp_page] at hup
    rw [alignUp_page, alignUp_page]
    simp only [mpAlignDown, orDefault, hpage, OfNat.ofNat_ne_zero, if_false]
    split_ifs <;> omega
  have hdown : mpAlignDown ts g = ts / g * g := if_neg hg.ne'
  have hle : g ≤ ts / g * g := Nat.le_mul_of_pos_left _ (Nat.div_pos hge hg)
  have hup := le_alignUp (mpAlignUp id (max tb g) pageSize) g hg
  have hmin := le_alignUp (max tb g) pageSize (by decide)
  rw [if_neg (by omega), hdown, orDefault_of_pos (x := ts / g * g) (by omega), if_pos hle]
  generalize mpAlignUp id (mpAlignUp _ _ _) g = want, ts / g * g = thr at *
  simp only [mpAlignDown, orDefault, hpage, OfNat.ofNat_ne_zero, if_false] at *
  split_ifs <;> omega

theorem tuned_iff (htb : pageSize ≤ tb) :
    Tuned (kvMpGroupLayerBytes id p) t ↔ TargetsFit (kvMpGroupBytes id p) ts tb := by
  obtain ⟨-, -, h1, h2, -, h3, h4, -⟩ := tune_sizes h hts
  rw [← tune_batch_iff h hts htb]
  exact ⟨fun ht => ⟨ht.batchPages, ht.batchLe⟩, fun hb => ⟨hb.1, hb.2, h1, h2, h3, h4⟩⟩

end Sizes

/-- A tuning keeps what is documented of it exactly when the targets fit the groups. -/
theorem tune_constraints_iff (h : kvMpTune wrap64 p pageSize region ts tb = some t)
    (hts : pageSize ≤ ts) (hts' : ts < 2 ^ 40) (htb : pageSize ≤ tb) (htb' : tb < 2 ^ 40) :
    Tuned (kvMpGroupLayerBytes wrap64 p) t ↔ TargetsFit (kvMpGroupBytes wrap64 p) ts tb := by
  rw [kvMpTune_exact wrap64_exact p hts' htb'] at h
  rw [(layerBytes_exact wrap64_exact p).1, (groupBytes_exact wrap64_exact p).1, tuned_iff h hts htb]

end Tuning

/-- A group of 6000 bytes: 25 tokens of 120 bytes in each of two layers. -/
def smallGroups : KvModelProfile := ⟨.mla, 2, 0, 0, 2, 60, 0, 0, 25⟩

/-- Targets of 256 KiB fit the small groups. -/
theorem tune_constraints_wide :
    Tuned (kvMpGroupLayerBytes wrap64 smallGroups) ⟨6000, 1536000, 258000, 253952, 6000, 8192⟩ :=
  (tune_constraints_iff (show kvMpTune wrap64 smallGroups pageSize 0 262144 262144 = _ by decide)
    (by decide) (by decide) (by decide) (by decide)).2 (by unfold TargetsFit; decide)

/-- With a target of one page the least batch is not whole pages. -/
theorem tune_batch_unaligned : ∃ t, kvMpTune wrap64 smallGroups pageSize 0 262144 4096 = some t ∧
    ¬ pageSize ∣ t.batchMinBytes :=
  ⟨_, rfl, by decide⟩

/-! ## The default targets -/

theorem targetsFit_default {g : Nat} (hg : 0 < g) : TargetsFit g (256 * 1024) (256 * 1024) := by
  rcases Nat.lt_or_ge (256 * 1024) g with hlt | hge
  · exact Or.inl hlt
  right
  have hup := le_alignUp (256 * 1024) g hg
  have hle : g ≤ 256 * 1024 / g * g := Nat.le_mul_of_pos_left _ (Nat.div_pos hge hg)
  have hlt := Nat.lt_div_mul_add hg (a := 256 * 1024)
  have hthr := Nat.div_mul_le_self (256 * 1024) g
  have hpage : pageSize = 4096 := rfl
  rw [groupsFor, Nat.max_eq_left hge, show mpAlignUp id (256 * 1024) pageSize = 256 * 1024 from rfl]
  generalize mpAlignUp id (256 * 1024) g = want at *
  split
  · exact ⟨64, by omega⟩
  · omega

/-- The values derived from a model with at most 256 KV layers are a layout that the cache opens
with, computed without a wrap-around. -/
theorem config_values_accepted {p : KvModelProfile} (hlayers : kvMpKvLayers p ≤ 256)
    {t : KvModelTuning} (h : kvMpConfigValues wrap64 p pageSize = some t) :
    (∀ w : Nat → Nat, (∀ x < 2 ^ 64, w x = x) → kvMpConfigValues w p pageSize = some t) ∧
    Tuned (kvMpGroupLayerBytes wrap64 p) t ∧ t.batchMinBytes < 2 ^ 32 ∧ t.stripeUnit ≠ 0 ∧
    kvMpGroupBytes wrap64 p ≤ t.dramEntryMaxBytes ∧
    ∀ (k : KvConfig) (nDevs : Nat) (devPages : Option Nat), k.abiVersion ≤ 2 →
      k.dramAllocBackend ≤ 3 → 0 < nDevs →
      (cacheOpenConfig (some (k.withModel p t)) nDevs devPages).isSome := by
  have hexact : ∀ w : Nat → Nat, (∀ x < 2 ^ 64, w x = x) →
      kvMpConfigValues w p pageSize = kvMpConfigValues id p pageSize := by
    intro w hw
    unfold kvMpConfigValues
    rw [kvMpTune_exact hw p (by decide) (by decide)]
  rw [hexact _ wrap64_exact] at h
  rw [(layerBytes_exact wrap64_exact p).1, (groupBytes_exact wrap64_exact p).1]
  refine ⟨fun w hw => (hexact w hw).trans h, ?_⟩
  unfold kvMpConfigValues at h
  obtain ⟨t, ht, rfl⟩ := Option.map_eq_some_iff.1 h
  -- a target of 0 is the default one
  change kvMpTune id p pageSize 0 (256 * 1024) (256 * 1024) = some t at ht
  obtain ⟨hg, hpos, -, -, hunit, -, -, hdram, hthr, hmin⟩ := tune_sizes ht (by decide)
  obtain ⟨hb, hle, h1, h2, -, -⟩ := (tuned_iff ht (by decide) (by decide)).2
    (targetsFit_default (hg ▸ hpos))
  have hpage : pageSize = 4096 := rfl
  have hlt : t.batchMinBytes < 2 ^ 32 := by omega
  refine ⟨⟨hb, hle, h1, h2, hpos.ne', Nat.dvd_refl _⟩, hlt, hunit, hg ▸ hdram, ?_⟩
  intro k nDevs devPages habi hback hdevs
  have htok : orDefault p.tokensPerGroup.toNat 32 ≠ 0 := (orDefault_pos (by decide)).ne'
  have hcap := orDefault_lt (Nat.lt_succ_of_le hlayers) (show maxLayersCap < 257 by decide)
  have hmod := Nat.mod_eq_zero_of_dvd hb
  simp only [cacheOpenConfig, givenConfig, Option.getD_some, KvConfig.withModel, htok, if_false,
    Nat.mod_eq_of_lt hlt, orDefault_of_pos hmin, orDefault_of_pos (hmin.trans_le hle), hdevs, hmin,
    and_self, dif_pos]
  rw [if_neg (by have : maxLayersCap = 256 := rfl; omega)]
  rfl

/-- The values derived for the small groups are accepted by `cache_open`. -/
theorem config_values_small : ∃ t, kvMpConfigValues wrap64 smallGroups pageSize = some t ∧
    (cacheOpenConfig (some (kvConfigDefault.withModel smallGroups t)) 1 none).isSome :=
  ⟨_, rfl, (config_values_accepted (by decide) rfl).2.2.2.2.2 _ 1 none (by decide) (by decide)
    (by decide)⟩

end KvTier.Analysis
