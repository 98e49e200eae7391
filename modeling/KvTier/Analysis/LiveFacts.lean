import KvTier.Model.Live
import KvTier.Analysis.IndexFacts

/-!
# What one publish does to the live-byte counters

A counter moves by `extentBytes` for each extent it is told about, as long as the extent names a
device and a region that exist (`foldlM_regionLive`).
-/

namespace KvTier.Analysis

open KvTier.Lib KvTier.Model List

variable {cfg : Config} {d : Nat} {lf : RadixLeaf}

/-! ## Counters -/

/-- The bytes a list of extents contributes to one counter. -/
def bytesOf (cfg : Config) (es : List Extent) (d r : Nat) : Int :=
  (es.map fun e => extentBytes cfg e d r).sum

@[simp]
theorem bytesOf_nil (cfg : Config) (d r : Nat) : bytesOf cfg [] d r = 0 := rfl

@[simp]
theorem bytesOf_cons (cfg : Config) (e : Extent) (es : List Extent) (d r : Nat) :
    bytesOf cfg (e :: es) d r = extentBytes cfg e d r + bytesOf cfg es d r := by
  simp [bytesOf]

@[simp]
theorem bytesOf_append (cfg : Config) (es es' : List Extent) (d r : Nat) :
    bytesOf cfg (es ++ es') d r = bytesOf cfg es d r + bytesOf cfg es' d r := by
  simp [bytesOf]

theorem extentBytes_nonneg (cfg : Config) (e : Extent) (d r : Nat) : 0 ≤ extentBytes cfg e d r := by
  unfold extentBytes
  split
  · positivity
  · exact le_refl 0

theorem bytesOf_nonneg (cfg : Config) (es : List Extent) (d r : Nat) : 0 ≤ bytesOf cfg es d r := by
  induction es with
  | nil => exact le_refl 0
  | cons e es ih =>
    have he := extentBytes_nonneg cfg e d r
    rw [bytesOf_cons]
    omega

theorem extentBytes_eq_zero_iff (cfg : Config) (e : Extent) (d r : Nat) :
    extentBytes cfg e d r = 0 ↔
      (e.devId = d → regionOfPage cfg e.pageNo = some r → e.lenPages = 0) := by
  unfold extentBytes
  split
  · rename_i hin
    have hpage : pageSize ≠ 0 := by decide
    simp [hin, hpage]
  · rename_i hout
    exact ⟨fun _ hd hr => absurd ⟨hd, hr⟩ hout, fun _ => rfl⟩

theorem bytesOf_eq_zero_iff (cfg : Config) (es : List Extent) (d r : Nat) :
    bytesOf cfg es d r = 0 ↔
      ∀ e ∈ es, e.devId = d → regionOfPage cfg e.pageNo = some r → e.lenPages = 0 := by
  induction es with
  | nil => simp
  | cons e es ih =>
    have he := extentBytes_nonneg cfg e d r
    have hes := bytesOf_nonneg cfg es d r
    rw [forall_mem_cons, ← ih, ← extentBytes_eq_zero_iff, bytesOf_cons]
    omega

theorem extentBytes_of_invalid (hcfg : cfg.nDevs ≤ invalidDev) {e : Extent}
    (he : e.devId = invalidDev) (hd : d < cfg.nDevs) (r : Nat) : extentBytes cfg e d r = 0 := by
  have hne : ¬ e.devId = d := by omega
  simp [extentBytes, hne]

theorem regionLive_eq (sign : Int) (cfg : Config) (lv : Live) (e : Extent) :
    regionLive sign cfg lv e =
      if InRange cfg e then some (fun d r => lv d r + sign * extentBytes cfg e d r) else none := by
  unfold regionLive
  cases hr : regionOfPage cfg e.pageNo with
  | none =>
    have hin : InRange cfg e := fun r h => by rw [hr] at h; cases h
    simp [hin, extentBytes, hr]
  | some r0 =>
    by_cases hc : cfg.nDevs ≤ e.devId ∨ cfg.regionCnt ≤ r0
    · have hn : ¬ InRange cfg e := fun h => by have := h r0 hr; omega
      simp [hc, hn]
    have hin : InRange cfg e := fun r h => by rw [hr] at h; cases h; omega
    simp only [hc, if_false, hin, if_true, Option.some.injEq]
    funext d r
    unfold extentBytes
    by_cases hdd : d = e.devId
    · subst hdd
      by_cases hrr : r = r0
      · subst hrr
        simp [hr]
      · have hrr' : ¬ r0 = r := fun h => hrr h.symm
        simp [hr, hrr, hrr']
    · have hdd' : ¬ e.devId = d := fun h => hdd h.symm
      simp [hdd, hdd']

theorem foldlM_regionLive (sign : Int) (cfg : Config) (es : List Extent) (lv : Live) :
    es.foldlM (regionLive sign cfg) lv =
      if ∀ e ∈ es, InRange cfg e then
        some (fun d r => lv d r + sign * bytesOf cfg es d r) else none := by
  induction es generalizing lv with
  | nil => simp
  | cons e es ih =>
    rw [foldlM_cons, regionLive_eq]
    by_cases he : InRange cfg e
    · simp only [he, if_true, Option.bind_eq_bind, Option.bind_some, ih, forall_mem_cons, true_and]
      split
      · congr 1
        funext d r
        rw [bytesOf_cons]
        ring
      · rfl
    · simp [he]

theorem bytesOf_of_inRange {es : List Extent} (h : ∀ e ∈ es, InRange cfg e) {d r : Nat}
    (hdr : ¬ (d < cfg.nDevs ∧ r < cfg.regionCnt)) : bytesOf cfg es d r = 0 := by
  induction es with
  | nil => rfl
  | cons e es ih =>
    have he : extentBytes cfg e d r = 0 := by
      unfold extentBytes
      split
      · rename_i hc
        obtain ⟨rfl, hr⟩ := hc
        exact absurd (h e (by simp) r hr) hdr
      · rfl
    rw [bytesOf_cons, he, ih fun e' he' => h e' (by simp [he'])]
    rfl

/-! ## The bytes of a leaf -/

/-- What a leaf contributes to one counter. -/
def leafBytes (cfg : Config) (d r : Nat) (lf : RadixLeaf) : Int := bytesOf cfg lf.extents d r

theorem leafBytes_eq (hcfg : cfg.nDevs ≤ invalidDev) (hd : d < cfg.nDevs) (r : Nat)
    (lf : RadixLeaf) :
    leafBytes cfg d r lf = extentBytes cfg lf.addr0.extent d r +
      extentBytes cfg lf.addr1.extent d r + bytesOf cfg ((lf.stripe.map (·.parts)).getD []) d r := by
  have hslot : ∀ a : KvAddr, bytesOf cfg (if a.devId ≠ invalidDev then [a.extent] else []) d r =
      extentBytes cfg a.extent d r := by
    intro a
    split
    · simp
    · rename_i hinv
      rw [extentBytes_of_invalid hcfg (by simpa [KvAddr.extent] using hinv) hd]
      rfl
  unfold leafBytes RadixLeaf.extents
  rw [bytesOf_append, bytesOf_append, hslot, hslot]

theorem bytesOf_set (cfg : Config) (es : List Extent) (i : Nat) (e : Extent) (hi : i < es.length)
    (d r : Nat) :
    bytesOf cfg (es.set i e) d r + extentBytes cfg (es.getD i StripePart.none) d r =
      bytesOf cfg es d r + extentBytes cfg e d r := by
  induction es generalizing i with
  | nil => simp at hi
  | cons x es ih =>
    cases i with
    | zero =>
      simp only [set_cons_zero, bytesOf_cons, getD_cons_zero]
      omega
    | succ i =>
      have := ih i (by simpa using hi)
      simp only [set_cons_succ, bytesOf_cons, getD_cons_succ]
      omega

theorem bytesOf_replicate_none (hcfg : cfg.nDevs ≤ invalidDev) (hd : d < cfg.nDevs) (r n : Nat) :
    bytesOf cfg (List.replicate n StripePart.none) d r = 0 := by
  induction n with
  | zero => rfl
  | succ n ih =>
    rw [replicate_succ, bytesOf_cons, ih, extentBytes_of_invalid hcfg rfl hd]
    rfl

theorem extentBytes_page_zero (cfg : Config) (dev len d r : Nat) :
    extentBytes cfg ⟨dev, 0, len⟩ d r = 0 := by
  simp [extentBytes, regionOfPage, regionBasePage]

/-- A publish adds and subtracts what the bytes of the leaf change by. -/
theorem leafBytes_leafPublish (hcfg : cfg.nDevs ≤ invalidDev) (hd : d < cfg.nDevs) (r : Nat)
    (old : Option RadixLeaf) (a : PublishArgs) (hoob : (leafPublish old a).oob = false) :
    (leafPublish old a).leaf.elim 0 (leafBytes cfg d r) + bytesOf cfg (leafPublish old a).sub d r =
      old.elim 0 (leafBytes cfg d r) + bytesOf cfg (leafPublish old a).add d r := by
  have hold : bytesOf cfg (oldExtents old) d r = old.elim 0 (leafBytes cfg d r) := by
    cases old <;> rfl
  -- an overwritten slot is subtracted unless it was empty, and an empty one counts nowhere
  have hsub : ∀ e : Extent, bytesOf cfg (if e.devId ≠ invalidDev then [e] else []) d r =
      extentBytes cfg e d r := by
    intro e
    split
    · simp
    · rename_i hinv
      rw [extentBytes_of_invalid hcfg (by simpa using hinv) hd]
      rfl
  have hc := leafPublish_cases old a
  generalize leafPublish old a = res at hc hoob
  cases hc with
  | rejected lf hlf _ => rfl
  | newStripe _ _ =>
    have hidx : a.stripeIdx < a.stripeCnt := by simpa using hoob
    have hset := bytesOf_set cfg (List.replicate a.stripeCnt StripePart.none) a.stripeIdx
      a.addr.extent (by simpa using hidx) d r
    have hnone : (List.replicate a.stripeCnt StripePart.none).getD a.stripeIdx StripePart.none =
        StripePart.none := by
      simp [hidx]
    rw [hnone, extentBytes_of_invalid hcfg rfl hd, bytesOf_replicate_none hcfg hd] at hset
    simp only [Option.elim_some, hold, bytesOf_cons, bytesOf_nil]
    rw [leafBytes_eq hcfg hd]
    simp only [newStripeLeaf, KvAddr.extent, KvAddr.zero, extentBytes_page_zero, Option.map_some,
      Option.getD_some]
    simp only [KvAddr.extent] at hset
    omega
  | addPart lf st _ hlf _ hst =>
    have hidx : a.stripeIdx < st.parts.length := by simpa using hoob
    have hset := bytesOf_set cfg st.parts a.stripeIdx a.addr.extent hidx d r
    subst hlf
    simp only [Option.elim_some, bytesOf_cons, bytesOf_nil, hsub]
    rw [leafBytes_eq hcfg hd, leafBytes_eq hcfg hd]
    simp only [addStripePart, KvAddr.extent, hst, Option.map_some, Option.getD_some]
    simp only [KvAddr.extent] at hset
    omega
  | newPlain _ _ =>
    simp only [Option.elim_some, hold, bytesOf_cons, bytesOf_nil]
    have hempty : extentBytes cfg KvAddr.none.extent d r = 0 :=
      extentBytes_of_invalid hcfg rfl hd r
    rw [leafBytes_eq hcfg hd]
    unfold newPlainLeaf RadixLeaf.setAddr
    generalize (if a.slot < replicaCnt then a.slot else 0) = slot
    by_cases h0 : slot = 0
    · simp [h0, hempty]
      omega
    · simp [h0, hempty]
      omega
  | addReplica lf _ hlf _ _ =>
    subst hlf
    have hslot := hsub (lf.addr a.slot).extent
    simp only [Option.elim_some, bytesOf_cons, bytesOf_nil]
    rw [show (if (lf.addr a.slot).devId ≠ invalidDev then [(lf.addr a.slot).extent] else []) =
      if (lf.addr a.slot).extent.devId ≠ invalidDev then [(lf.addr a.slot).extent] else [] from rfl,
      hslot, leafBytes_eq hcfg hd, leafBytes_eq hcfg hd]
    unfold addReplica RadixLeaf.setAddr RadixLeaf.addr
    split <;> simp <;> omega

/-! ## Which publishes stay in range -/

theorem mem_extents_iff (lf : RadixLeaf) (e : Extent) :
    e ∈ lf.extents ↔
      (lf.addr0.devId ≠ invalidDev ∧ e = lf.addr0.extent) ∨
      (lf.addr1.devId ≠ invalidDev ∧ e = lf.addr1.extent) ∨
      ∃ st, lf.stripe = some st ∧ e ∈ st.parts := by
  have hslot : ∀ a : KvAddr, e ∈ (if a.devId ≠ invalidDev then [a.extent] else []) ↔
      a.devId ≠ invalidDev ∧ e = a.extent := by
    intro a
    split
    · rename_i h; simp [h]
    · rename_i h; simp [h]
  unfold RadixLeaf.extents
  rw [mem_append, mem_append, hslot, hslot, or_assoc]
  cases lf.stripe <;> simp

/-- The extents of the leaf begin in regions. -/
def Placed (cfg : Config) (lf : RadixLeaf) : Prop := ∀ e ∈ lf.extents, InRange cfg e

theorem placed_iff (cfg : Config) (lf : RadixLeaf) :
    Placed cfg lf ↔
      (lf.addr0.devId ≠ invalidDev → InRange cfg lf.addr0.extent) ∧
      (lf.addr1.devId ≠ invalidDev → InRange cfg lf.addr1.extent) ∧
      ∀ st, lf.stripe = some st → ∀ e ∈ st.parts, InRange cfg e := by
  constructor
  · intro h
    refine ⟨fun h0 => ?_, fun h1 => ?_, fun st hst e he => ?_⟩
    · exact h _ ((mem_extents_iff lf _).mpr (Or.inl ⟨h0, rfl⟩))
    · exact h _ ((mem_extents_iff lf _).mpr (Or.inr (Or.inl ⟨h1, rfl⟩)))
    · exact h e ((mem_extents_iff lf e).mpr (Or.inr (Or.inr ⟨st, hst, he⟩)))
  rintro ⟨h0, h1, hst⟩ e he
  rcases (mem_extents_iff lf e).mp he with ⟨hd, rfl⟩ | ⟨hd, rfl⟩ | ⟨st, hs, hmem⟩
  · exact h0 hd
  · exact h1 hd
  · exact hst st hs e hmem

theorem Placed.setAddr (h : Placed cfg lf) (slot : Nat) {a : KvAddr} (ha : InRange cfg a.extent) :
    Placed cfg (lf.setAddr slot a) := by
  obtain ⟨h0, h1, hst⟩ := (placed_iff _ _).mp h
  unfold RadixLeaf.setAddr
  split
  · exact (placed_iff _ _).mpr ⟨fun _ => ha, h1, hst⟩
  · exact (placed_iff _ _).mpr ⟨h0, fun _ => ha, hst⟩

theorem Placed.addr (h : Placed cfg lf) (slot : Nat) (hd : (lf.addr slot).devId ≠ invalidDev) :
    InRange cfg (lf.addr slot).extent := by
  obtain ⟨h0, h1, _⟩ := (placed_iff _ _).mp h
  unfold RadixLeaf.addr at hd ⊢
  split at hd
  · rename_i hs
    rw [if_pos hs]
    exact h0 hd
  · rename_i hs
    rw [if_neg hs]
    exact h1 hd

theorem inRange_page_zero (cfg : Config) (dev len : Nat) : InRange cfg ⟨dev, 0, len⟩ := by
  intro r hr
  simp [regionOfPage, regionBasePage] at hr

/-- `leaf_publish` refuses the address. -/
def Outdated (old : Option RadixLeaf) (a : PublishArgs) : Prop :=
  ∃ lf, old = some lf ∧
    (a.ver < lf.ver ∨ (lf.ver = a.ver ∧ a.flags.stripe = false ∧ replicaCnt ≤ a.slot))

/-- The slots a part can be published to. -/
def partSlots (old : Option RadixLeaf) (a : PublishArgs) : Nat :=
  match old with
  | none => a.stripeCnt
  | some lf => if lf.ver = a.ver then (lf.stripe.map (·.parts.length)).getD a.stripeCnt
    else a.stripeCnt

/-- The publish stays inside the arrays. -/
def PublishOk (cfg : Config) (old : Option RadixLeaf) (a : PublishArgs) : Prop :=
  Outdated old a ∨
    (InRange cfg a.addr.extent ∧ (a.flags.stripe = true → a.stripeIdx < partSlots old a))

/-- A publish stays in bounds exactly if its extents do; it moves the live bytes between them. -/
theorem publishAt_eq_some_iff (s s' : Ledger) (node : Path) (a : PublishArgs) :
    s.publishAt node a = some s' ↔
      (leafPublish (s.idx.tree.leafAt node) a).oob = false ∧
      (∀ e ∈ (leafPublish (s.idx.tree.leafAt node) a).sub, InRange s.cfg e) ∧
      (∀ e ∈ (leafPublish (s.idx.tree.leafAt node) a).add, InRange s.cfg e) ∧
      s' = { s with
        idx := s.idx.publish node a
        live := fun d r => s.live d r -
          bytesOf s.cfg (leafPublish (s.idx.tree.leafAt node) a).sub d r +
          bytesOf s.cfg (leafPublish (s.idx.tree.leafAt node) a).add d r } := by
  unfold Ledger.publishAt
  generalize leafPublish (s.idx.tree.leafAt node) a = res
  have hsub := foldlM_regionLive (-1) s.cfg res.sub s.live
  have hadd := fun lv => foldlM_regionLive 1 s.cfg res.add lv
  cases hoob : res.oob with
  | true => simp [hoob]
  | false =>
    simp only [hoob, Bool.false_eq_true, if_false, true_and]
    change ((res.sub.foldlM (regionLive (-1) s.cfg) s.live).bind fun lv =>
      (res.add.foldlM (regionLive 1 s.cfg) lv).bind fun lv => some _) = some s' ↔ _
    rw [hsub]
    by_cases h1 : ∀ e ∈ res.sub, InRange s.cfg e
    · rw [if_pos h1, Option.bind_some, hadd]
      by_cases h2 : ∀ e ∈ res.add, InRange s.cfg e
      · rw [if_pos h2, Option.bind_some]
        simp only [Option.some.injEq]
        constructor
        · rintro rfl
          refine ⟨h1, h2, ?_⟩
          congr 1
          funext d r
          ring
        rintro ⟨_, _, rfl⟩
        congr 1
        funext d r
        ring
      rw [if_neg h2]
      simp only [Option.bind_none, reduceCtorEq, false_iff, not_and]
      intro _ h
      exact absurd h h2
    rw [if_neg h1]
    simp only [Option.bind_none, reduceCtorEq, false_iff, not_and]
    intro h
    exact absurd h h1

theorem placed_leafPublish {old : Option RadixLeaf} {a : PublishArgs}
    (hold : ∀ lf, old = some lf → Placed cfg lf)
    (hin : ∀ e ∈ (leafPublish old a).add, InRange cfg e) (h : (leafPublish old a).leaf = some lf) :
    Placed cfg lf := by
  have hc := leafPublish_cases old a
  generalize leafPublish old a = res at h hin hc
  cases hc with
  | rejected lf0 hlf _ => exact hold lf h
  | newStripe _ _ =>
    cases h
    refine (placed_iff _ _).mpr ⟨fun _ => inRange_page_zero _ _ _,
      fun _ => inRange_page_zero _ _ _, ?_⟩
    intro st hst e he
    cases hst
    rcases mem_or_eq_of_mem_set he with he | rfl
    · rw [eq_of_mem_replicate he]
      exact inRange_page_zero _ _ _
    · exact hin _ (mem_singleton.mpr rfl)
  | addPart lf0 st0 _ hlf _ hst0 =>
    cases h
    obtain ⟨h0', h1', hst'⟩ := (placed_iff _ _).mp (hold lf0 hlf)
    refine (placed_iff _ _).mpr ⟨h0', h1', ?_⟩
    intro st hst e he
    cases hst
    rcases mem_or_eq_of_mem_set he with he | rfl
    · exact hst' st0 hst0 e he
    · exact hin _ (mem_singleton.mpr rfl)
  | newPlain _ _ =>
    cases h
    refine Placed.setAddr ?_ _ (hin _ (mem_singleton.mpr rfl))
    exact (placed_iff _ _).mpr ⟨fun h => absurd rfl h, fun h => absurd rfl h,
      fun st hst => by cases hst⟩
  | addReplica lf0 _ hlf _ _ =>
    cases h
    exact (hold lf0 hlf).setAddr _ (hin _ (mem_singleton.mpr rfl))

theorem inRange_sub {old : Option RadixLeaf} (a : PublishArgs)
    (hold : ∀ lf, old = some lf → Placed cfg lf) :
    ∀ e ∈ (leafPublish old a).sub, InRange cfg e := by
  have hext : ∀ e ∈ oldExtents old, InRange cfg e := by
    cases old with
    | none => simp [oldExtents]
    | some lf => exact hold lf rfl
  have hc := leafPublish_cases old a
  generalize leafPublish old a = res at hc
  cases hc with
  | rejected lf hlf _ => simp
  | newStripe _ _ => exact hext
  | addPart lf st _ hlf _ hst =>
    intro e he
    change e ∈ (if (st.parts.getD a.stripeIdx StripePart.none).devId ≠ invalidDev then
      [st.parts.getD a.stripeIdx StripePart.none] else []) at he
    split at he
    · rw [mem_singleton] at he
      subst he
      -- the entry of the array, or page 0 of no device
      rw [List.getD_eq_getElem?_getD]
      cases hi : st.parts[a.stripeIdx]? with
      | none => exact inRange_page_zero _ _ _
      | some e => exact ((placed_iff _ _).mp (hold lf hlf)).2.2 st hst e (mem_of_getElem? hi)
    · cases he
  | newPlain _ _ => exact hext
  | addReplica lf _ hlf _ _ =>
    intro e he
    change e ∈ (if (lf.addr a.slot).devId ≠ invalidDev then [(lf.addr a.slot).extent] else []) at he
    split at he
    · rename_i hdev
      rw [mem_singleton] at he
      subst he
      exact (hold lf hlf).addr a.slot hdev
    · cases he

theorem add_leafPublish (old : Option RadixLeaf) (a : PublishArgs) :
    (Outdated old a ∧ (leafPublish old a).add = [] ∧ (leafPublish old a).oob = false) ∨
      (¬ Outdated old a ∧ (leafPublish old a).add = [a.addr.extent] ∧
        ((leafPublish old a).oob = false ↔
          (a.flags.stripe = true → a.stripeIdx < partSlots old a))) := by
  have hc := leafPublish_cases old a
  generalize leafPublish old a = res at hc
  cases hc with
  | rejected lf hlf hwhy => exact Or.inl ⟨⟨lf, hlf, hwhy⟩, rfl, rfl⟩
  | newStripe hs hwhy =>
    have hslots : partSlots old a = a.stripeCnt := by
      unfold partSlots
      cases old with
      | none => rfl
      | some lf =>
        rcases hwhy lf rfl with h | ⟨_, h⟩
        · have : ¬ lf.ver = a.ver := by omega
          simp [this]
        · simp [h]
    refine Or.inr ⟨?_, rfl, by simp [hs, hslots]⟩
    rintro ⟨lf, hlf, hv | ⟨_, hf, _⟩⟩
    · rcases hwhy lf hlf with h | ⟨h, _⟩ <;> omega
    · rw [hs] at hf; cases hf
  | addPart lf st hs hlf hver hst =>
    subst hlf
    refine Or.inr ⟨?_, rfl, by simp [hs, partSlots, hver, hst]⟩
    rintro ⟨lf', hlf', h⟩
    cases hlf'
    rcases h with h | ⟨_, hf, _⟩
    · omega
    · rw [hs] at hf; cases hf
  | newPlain hs hwhy =>
    refine Or.inr ⟨?_, rfl, by simp [hs]⟩
    rintro ⟨lf, hlf, hv | ⟨hv, _⟩⟩ <;> have := hwhy lf hlf <;> omega
  | addReplica lf hs hlf hver hslot =>
    subst hlf
    refine Or.inr ⟨?_, rfl, by simp [hs]⟩
    rintro ⟨lf', hlf', h⟩
    cases hlf'
    omega

theorem publishAt_isSome_iff (s : Ledger) (node : Path) (a : PublishArgs)
    (hpl : ∀ lf, s.idx.tree.leafAt node = some lf → Placed s.cfg lf) :
    (∃ s', s.publishAt node a = some s') ↔ PublishOk s.cfg (s.idx.tree.leafAt node) a := by
  simp only [publishAt_eq_some_iff]
  have hsub := inRange_sub a hpl
  rcases add_leafPublish (s.idx.tree.leafAt node) a with ⟨hst, hadd, hoob⟩ | ⟨hst, hadd, hoob⟩
  · exact ⟨fun _ => Or.inl hst, fun _ => ⟨_, hoob, hsub, by simp [hadd], rfl⟩⟩
  constructor
  · rintro ⟨_, h1, _, h3, _⟩
    exact Or.inr ⟨h3 _ (by simp [hadd]), hoob.mp h1⟩
  · rintro (h | ⟨h1, h2⟩)
    · exact absurd h hst
    · exact ⟨_, hoob.mpr h2, hsub, by simpa [hadd] using h1, rfl⟩

/-! ## A small cache -/

/-- One device with six regions of 64 pages. -/
def ledgerCfg : Config := ⟨1, 6, 64, 512, 65536, 4096, 8⟩

def ledgerArgs (ver page : Nat) (stripe : Bool) (stripeIdx stripeCnt : Nat) : PublishArgs where
  prefixId := 7
  groupIdx := 0
  ver := ver
  addr := ⟨0, page, 0, 1, 0, 0, 0⟩
  slot := 0
  flags := { Flags.empty with stripe := stripe }
  stripeIdx := stripeIdx
  stripeCnt := stripeCnt
  stripeTotal := stripeCnt * 4096
  dataLen := 4096
  shape := none
  path := [7]

end KvTier.Analysis
