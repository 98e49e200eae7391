import KvTier.Analysis.EdgeWords
import KvTier.Analysis.IndexFacts
import KvTier.Model.SideTbl

/-!
# The side table is a map

`SideTbl` has the side table with its masks, 32-bit numbers and unbounded probes.
-/

namespace KvTier.Analysis

open Function KvTier.Lib KvTier.Model

/-! ## Slots as entries -/

/-- The key of a slot; zero is no key. -/
abbrev SideKey := WithZero (UInt64 × Nat)

/-- The key of a prefix and group. -/
def sideKey (prefixId : UInt64) (groupIdx : Nat) : SideKey := ((prefixId, groupIdx) : UInt64 × Nat)

/-- Where the probe of a key starts. -/
def sideHome (k : SideKey) : Nat :=
  match (k : Option (UInt64 × Nat)) with
  | none => 0
  | some k => SideTbl.home k.1 k.2

/-- The entry in a slot. -/
def sideEntry (s : SideTbl.Slot) : SideKey × Option Path :=
  (if s.used then sideKey s.prefixId s.groupIdx else 0, s.node)

/-- The slots as a table with linear probing. -/
def sideTable (cap : Nat) (slots : Nat → SideTbl.Slot) : ProbeTable SideKey (Option Path) :=
  ⟨cap, fun i => sideEntry (slots i)⟩

theorem sideKey_ne_zero (p : UInt64) (g : Nat) : sideKey p g ≠ 0 := WithZero.coe_ne_zero

theorem sideKey_inj {p p' : UInt64} {g g' : Nat} :
    sideKey p g = sideKey p' g' ↔ p = p' ∧ g = g' := by
  unfold sideKey
  rw [WithZero.coe_inj, Prod.mk.injEq]

theorem sideEntry_free (s : SideTbl.Slot) : ((sideEntry s).1 == 0) = !s.used := by
  cases hs : s.used
  · simp [sideEntry, hs]
  · simp [sideEntry, hs, sideKey_ne_zero]

theorem sideEntry_stop (s : SideTbl.Slot) (p : UInt64) (g : Nat) :
    ((sideEntry s).1 == 0 || (sideEntry s).1 == sideKey p g) = (!s.used || s.hasKey p g) := by
  rw [sideEntry_free]
  cases hs : s.used
  · rfl
  · rw [Bool.eq_iff_iff]
    simp [sideEntry, hs, sideKey_inj, SideTbl.Slot.hasKey]

theorem sideTable_update (cap : Nat) (slots : Nat → SideTbl.Slot) (j : Nat) (s : SideTbl.Slot) :
    sideTable cap (update slots j s) =
      ⟨cap, update (sideTable cap slots).slots j (sideEntry s)⟩ := by
  refine congrArg (ProbeTable.mk cap) (funext fun i => ?_)
  by_cases hi : i = j
  · rw [hi, update_self, update_self]
  · rw [update_of_ne hi, update_of_ne hi]
    rfl

theorem items_sideTable (cap : Nat) (slots : Nat → SideTbl.Slot) :
    (sideTable cap slots).items =
      (((List.range cap).map slots).filter (·.used)).map sideEntry := by
  have hused : (fun e : SideKey × Option Path => decide (e.1 ≠ 0)) ∘ sideEntry = (·.used) := by
    funext s
    rw [comp_apply, decide_not, ← beq_eq_decide, sideEntry_free, Bool.not_not]
  unfold ProbeTable.items
  rw [← hused, ← List.filter_map, List.map_map]
  rfl

/-! ## Growing -/

section Grow

variable {k cap fuel : Nat}

theorem place_side (hcap : cap = 2 ^ k) (hk : k < 32) (hfuel : cap ≤ fuel)
    {ns : Nat → SideTbl.Slot} {s : SideTbl.Slot} (hs : s.used = true)
    (hroom : (sideTable cap ns).items.length < cap) :
    ∃ ns', SideTbl.place fuel cap ns s = some ns' ∧
      sideTable cap ns' = (sideTable cap ns).insert sideHome (sideEntry s).1 (sideEntry s).2 := by
  have hkey : (sideEntry s).1 = sideKey s.prefixId s.groupIdx := if_pos hs
  obtain ⟨d, _, hslot, _, _⟩ := ProbeTable.exists_freeSlot sideHome hroom (sideEntry s).1
  generalize (_ + d) % _ = j at hslot
  have hprobe : probeFrom cap (fun j => !(ns j).used) cap (SideTbl.home s.prefixId s.groupIdx % cap) =
      some j := by
    simp only [ProbeTable.freeSlot, sideTable, sideEntry_free, hkey] at hslot
    exact hslot
  refine ⟨update ns j s, ?_, ?_⟩
  · unfold SideTbl.place
    simp only [probeMask_of_probe hcap hk hfuel hprobe, Option.bind_eq_bind, Option.bind_some]
    rfl
  · unfold ProbeTable.insert
    rw [hslot, sideTable_update]
    rfl

theorem foldlM_place_side (hcap : cap = 2 ^ k) (hk : k < 32) (hfuel : cap ≤ fuel)
    (l : List SideTbl.Slot) (hl : ∀ s ∈ l, s.used = true) (ns : Nat → SideTbl.Slot)
    (hroom : (sideTable cap ns).items.length + l.length ≤ cap) :
    ∃ ns', l.foldlM (SideTbl.place fuel cap) ns = some ns' ∧
      sideTable cap ns' = (l.map sideEntry).foldl
        (fun t e => t.insert sideHome e.1 e.2) (sideTable cap ns) := by
  induction l generalizing ns with
  | nil => exact ⟨ns, rfl, rfl⟩
  | cons s l ih =>
    obtain ⟨hs, hl⟩ := List.forall_mem_cons.1 hl
    rw [List.length_cons] at hroom
    have hlt : (sideTable cap ns).items.length < cap := by omega
    obtain ⟨ns₁, hplace, htable⟩ := place_side hcap hk hfuel hs hlt
    have hne : (sideEntry s).1 ≠ 0 := by
      rw [sideEntry, if_pos hs]
      exact sideKey_ne_zero _ _
    have hlen : (sideTable cap ns₁).items.length = (sideTable cap ns).items.length + 1 := by
      rw [htable, (ProbeTable.items_insert hlt hne (sideEntry s).2).length_eq, List.length_cons]
    obtain ⟨ns', hfold, htable'⟩ := ih hl ns₁ (by omega)
    refine ⟨ns', ?_, ?_⟩
    · rw [List.foldlM_cons, hplace, Option.bind_eq_bind, Option.bind_some, hfold]
    · rw [htable', htable, List.map_cons, List.foldl_cons]

theorem grow_side {t : SideTbl} (hcap : t.cap = 2 ^ k) (hk : k + 1 < 32) (fuel : Nat)
    (hfuel : 2 ^ (k + 1) ≤ fuel) :
    ∃ ns, t.grow fuel = some { t with slots := ns, cap := 2 ^ (k + 1) } ∧
      sideTable (2 ^ (k + 1)) ns =
        .ofList sideHome (2 ^ (k + 1)) none (sideTable t.cap t.slots).items := by
  have hlt : 2 ^ (k + 1) < 2 ^ 32 := Nat.pow_lt_pow_right (by decide) hk
  have hnew : t.cap * 2 % 2 ^ 32 = 2 ^ (k + 1) := by
    rw [hcap, ← Nat.pow_succ, Nat.mod_eq_of_lt hlt]
  have hlen : (sideTable t.cap t.slots).items.length ≤ t.cap :=
    (sideTable t.cap t.slots).length_items_le
  rw [items_sideTable, List.length_map, hcap] at hlen
  -- the new slots are free, and there is room for all
  obtain ⟨ns, hfold, htable⟩ := foldlM_place_side rfl hk hfuel
    (((List.range t.cap).map t.slots).filter (·.used)) (fun s hs => (List.mem_filter.1 hs).2)
    (fun _ => {}) (by
      rw [show sideTable (2 ^ (k + 1)) (fun _ => {}) = .empty (2 ^ (k + 1)) none from rfl,
        ProbeTable.items_empty, List.length_nil, Nat.zero_add, Nat.pow_succ, hcap]
      omega)
  refine ⟨ns, ?_, ?_⟩
  · rw [List.foldlM_filter, List.foldlM_map] at hfold
    unfold SideTbl.grow
    simp only [hnew, hfold, Option.bind_eq_bind, Option.bind_some]
    rfl
  · rw [htable, items_sideTable]
    rfl

end Grow

/-! ## The invariant -/

/-- The table stores the entries, below its load limit. -/
structure SideTableOk (t : SideTbl) (es : List (SideKey × Option Path)) : Prop where
  cap : ∃ k, 12 ≤ k ∧ k ≤ 29 ∧ t.cap = 2 ^ k
  stores : ProbeTable.Stores sideHome (sideTable t.cap t.slots) es
  count : t.count = es.length
  load : 10 * es.length < 7 * t.cap + 10
  keys : (es.map Prod.fst).Nodup
  nonzero : 0 ∉ es.map Prod.fst

theorem sideTableOk_init : SideTableOk SideTbl.init [] where
  cap := ⟨12, le_refl _, by decide, rfl⟩
  stores := (ProbeTable.stores_ofList sideHome sideInitCap none [] (Nat.zero_le _) List.nodup_nil
    List.not_mem_nil).1
  count := rfl
  load := by decide
  keys := List.nodup_nil
  nonzero := List.not_mem_nil

section Ok

variable {t : SideTbl} {es : List (SideKey × Option Path)} {fuel : Nat}

section Table

variable (h : SideTableOk t es)
include h

theorem SideTableOk.large : 4096 ≤ t.cap := by
  obtain ⟨k, hk, -, hcap⟩ := h.cap
  rw [hcap]
  exact Nat.pow_le_pow_right (n := 2) (by decide) hk

theorem SideTableOk.small : t.cap ≤ 2 ^ 29 := by
  obtain ⟨k, -, hk, hcap⟩ := h.cap
  rw [hcap]
  exact Nat.pow_le_pow_right (by decide) hk

theorem SideTableOk.room : (sideTable t.cap t.slots).items.length < t.cap := by
  have hlarge := h.large
  have hload := h.load
  rw [h.stores.items.length_eq]
  omega

/-- A slot is not in use. -/
theorem SideTableOk.unused : ∃ i < t.cap, (t.slots i).used = false := by
  obtain ⟨i, hi, hfree⟩ := ProbeTable.exists_free h.room
  refine ⟨i, hi, ?_⟩
  have hbeq : ((sideEntry (t.slots i)).1 == 0) = true := beq_iff_eq.2 hfree
  rw [sideEntry_free] at hbeq
  simpa using hbeq

theorem SideTableOk.probe (hfuel : 2 ^ 29 ≤ fuel) (p : UInt64) (g : Nat) :
    ∃ j, (sideTable t.cap t.slots).slotOf sideHome (sideKey p g) = some j ∧
      probeMask (fun j => !(t.slots j).used || (t.slots j).hasKey p g) (maskOf t.cap) fuel
        (SideTbl.home p g &&& maskOf t.cap) = some j ∧
      (!(t.slots j).used || (t.slots j).hasKey p g) = true ∧ j < t.cap := by
  obtain ⟨k, -, hk, hcap⟩ := h.cap
  have hsmall := h.small
  obtain ⟨i, hi, hfree⟩ := h.unused
  obtain ⟨d, _, hprobe, hstop, _⟩ := exists_probeFrom
    (p := fun j => !(t.slots j).used || (t.slots j).hasKey p g)
    (Nat.mod_lt (SideTbl.home p g) (by omega)) hi (by rw [hfree]; rfl)
  refine ⟨_, ?_, probeMask_of_probe hcap (by omega) (by omega) hprobe, hstop,
    Nat.mod_lt _ (by omega)⟩
  simp only [ProbeTable.slotOf, sideTable, sideEntry_stop]
  exact hprobe

/-- A lookup ends, with the node of its entry. -/
theorem SideTableOk.get (hfuel : 2 ^ 29 ≤ fuel) (p : UInt64) (g : Nat) :
    t.get fuel p g =
      some ((sideTable t.cap t.slots).find sideHome (sideKey p g)).join := by
  have hlarge := h.large
  obtain ⟨j, hslot, hprobe, -, -⟩ := h.probe hfuel p g
  have hfind : (sideTable t.cap t.slots).find sideHome (sideKey p g) =
      if (sideEntry (t.slots j)).1 = 0 then none else some (t.slots j).node := by
    unfold ProbeTable.find
    rw [show probeFrom _ _ _ _ = some j from hslot]
    rfl
  have hused : (sideEntry (t.slots j)).1 = 0 ↔ (t.slots j).used = false := by
    have hfree := sideEntry_free (t.slots j)
    rw [← beq_iff_eq, hfree, Bool.not_eq_true']
  unfold SideTbl.get
  rw [if_neg (by omega), hfind]
  simp only [hprobe, Option.bind_eq_bind, Option.bind_some, hused]
  cases (t.slots j).used
  · rfl
  · rfl

theorem SideTableOk.grow_some (hfuel : 2 ^ 30 ≤ fuel) :
    ∃ t', t.grow fuel = some t' := by
  obtain ⟨k, -, hk, hcap⟩ := h.cap
  have hle : 2 ^ (k + 1) ≤ 2 ^ 30 := Nat.pow_le_pow_right (by decide) (by omega)
  obtain ⟨ns, hgrow, -⟩ := grow_side hcap (by omega) fuel (by omega)
  exact ⟨_, hgrow⟩

/-- Growing keeps the entries. -/
theorem SideTableOk.grow (hfuel : 2 ^ 29 ≤ fuel) (hsmall : t.cap < 2 ^ 29) :
    ∃ t', t.grow fuel = some t' ∧ t'.cap = 2 * t.cap ∧ SideTableOk t' es := by
  obtain ⟨k, hk12, -, hcap⟩ := h.cap
  have hk : k < 29 := by
    by_contra hge
    have hle : 2 ^ 29 ≤ 2 ^ k := Nat.pow_le_pow_right (by decide) (by omega)
    omega
  have hle : 2 ^ (k + 1) ≤ 2 ^ 29 := Nat.pow_le_pow_right (by decide) (by omega)
  obtain ⟨ns, hgrow, htable⟩ := grow_side hcap (by omega) fuel (by omega)
  have hdouble : 2 ^ (k + 1) = 2 * t.cap := by rw [hcap, Nat.pow_succ, Nat.mul_comm]
  have hload := h.load
  have hroom := h.room
  have hperm := h.stores.items
  have hkeys := (hperm.map Prod.fst).nodup_iff
  -- the items of the old table, in its order, are inserted into an empty one
  obtain ⟨hst, -⟩ := ProbeTable.stores_ofList sideHome (2 ^ (k + 1)) none
    (sideTable t.cap t.slots).items (by omega) (hkeys.2 h.keys)
    (fun h0 => h.nonzero ((hperm.map Prod.fst).mem_iff.1 h0))
  refine ⟨_, hgrow, hdouble, ⟨k + 1, by omega, by omega, rfl⟩, ?_, h.count, ?_, h.keys, h.nonzero⟩
  · change ProbeTable.Stores sideHome (sideTable (2 ^ (k + 1)) ns) es
    rw [htable]
    exact ⟨hst.probed, hst.items.trans hperm⟩
  · change 10 * es.length < 7 * 2 ^ (k + 1) + 10
    omega

theorem SideTableOk.makeRoom (hfuel : 2 ^ 29 ≤ fuel) (hlen : es.length < 2 ^ 28) :
    ∃ t', t.makeRoom fuel = some t' ∧ SideTableOk t' es ∧ 10 * es.length < 7 * t'.cap := by
  have hsmall := h.small
  have hlarge := h.large
  have hload := h.load
  unfold SideTbl.makeRoom
  rw [h.count, Nat.mod_eq_of_lt (show t.cap * 7 < 2 ^ 32 by omega),
    Nat.mod_eq_of_lt (show es.length * 10 < 2 ^ 32 by omega)]
  by_cases hfull : t.cap * 7 ≤ es.length * 10
  · obtain ⟨t', hgrow, hcap', hok⟩ := h.grow hfuel (by omega)
    rw [if_pos hfull]
    exact ⟨t', hgrow, hok, by omega⟩
  · rw [if_neg hfull]
    exact ⟨t, rfl, h, by omega⟩

/-- A put ends, and puts its entry. -/
theorem SideTableOk.put (hfuel : 2 ^ 29 ≤ fuel) (hlen : es.length < 2 ^ 28) (a : SidePutArgs) :
    ∃ t', t.put fuel a = some t' ∧
      SideTableOk t' (ProbeTable.assign es (sideKey a.prefixId a.groupIdx) a.node) := by
  obtain ⟨t₁, hroom, h₁, hload⟩ := h.makeRoom hfuel hlen
  set key := sideKey a.prefixId a.groupIdx with hkey
  have hne : key ≠ 0 := sideKey_ne_zero _ _
  obtain ⟨j, hslot, hprobe, hstop, hj⟩ := h₁.probe hfuel a.prefixId a.groupIdx
  have hlt : es.length < t₁.cap := by
    have hlarge := h₁.large
    omega
  have hstores := h₁.stores.put hlt hne a.node
  -- what is written is the entry, whether the slot was in use or not
  have hwrite : ∀ s, sideEntry s = (key, a.node) →
      sideTable t₁.cap (update t₁.slots j s) =
        (sideTable t₁.cap t₁.slots).put sideHome key a.node := by
    intro s hs
    unfold ProbeTable.put
    rw [hslot, sideTable_update, hs]
    rfl
  have hkeys := ProbeTable.keys_assign es key a.node
  have hnonzero : 0 ∉ (ProbeTable.assign es key a.node).map Prod.fst := by
    rw [hkeys]
    split
    · exact h.nonzero
    rw [List.mem_append, List.mem_singleton]
    rintro (h0 | h0)
    · exact h.nonzero h0
    · exact hne h0.symm
  unfold SideTbl.put
  simp only [hroom, hprobe, Option.bind_eq_bind, Option.bind_some]
  cases hused : (t₁.slots j).used with
  | true =>
    rw [hused, Bool.not_true, Bool.false_or, SideTbl.Slot.hasKey, Bool.and_eq_true, beq_iff_eq,
      beq_iff_eq] at hstop
    have hat : (sideEntry (t₁.slots j)).1 = key := by
      rw [sideEntry, if_pos hused, hstop.1, hstop.2]
    -- the key was there, so there are as many as before
    have hmem : key ∈ es.map Prod.fst :=
      List.mem_map.2 ⟨(key, (t₁.slots j).node),
        h₁.stores.items.mem_iff.1 (ProbeTable.mem_items.2 ⟨hne, j, hj, Prod.ext hat rfl⟩), rfl⟩
    have hlen' : (ProbeTable.assign es key a.node).length = es.length := by
      rw [← List.length_map (f := Prod.fst), hkeys, if_pos hmem, List.length_map]
    refine ⟨_, rfl, h₁.cap, ?_, ?_, ?_, ProbeTable.nodup_assign h.keys key a.node, hnonzero⟩
    · change ProbeTable.Stores sideHome (sideTable t₁.cap (update t₁.slots j _)) _
      rw [hwrite _ (by rw [sideEntry, if_pos rfl, hstop.1, hstop.2])]
      exact hstores
    · rw [hlen']
      exact h₁.count
    · rw [hlen']
      exact h₁.load
  | false =>
    have hnew : key ∉ es.map Prod.fst := by
      intro hmem
      obtain ⟨e, he, hek⟩ := List.mem_map.1 hmem
      obtain ⟨-, i, hi, hei⟩ := ProbeTable.mem_items.1 (h₁.stores.items.mem_iff.2 he)
      have hsame := h₁.stores.probed.slotOf_mem hne hi (by rw [hei]; exact hek)
      obtain rfl : j = i := Option.some.inj (hslot.symm.trans hsame)
      have h0 : e.1 = 0 := by
        rw [← congrArg Prod.fst hei]
        exact if_neg (by rw [hused]; exact Bool.false_ne_true)
      exact hne (hek.symm.trans h0)
    have hlen' : (ProbeTable.assign es key a.node).length = es.length + 1 := by
      rw [← List.length_map (f := Prod.fst), hkeys, if_neg hnew, List.length_append,
        List.length_map, List.length_singleton]
    refine ⟨_, rfl, h₁.cap, ?_, ?_, ?_, ProbeTable.nodup_assign h.keys key a.node, hnonzero⟩
    · change ProbeTable.Stores sideHome (sideTable t₁.cap (update t₁.slots j _)) _
      rw [hwrite _ rfl]
      exact hstores
    · rw [hlen']
      change (t₁.count + 1) % 2 ^ 32 = es.length + 1
      rw [h₁.count, Nat.mod_eq_of_lt (by omega)]
    · rw [hlen']
      change 10 * (es.length + 1) < 7 * t₁.cap + 10
      omega

end Table

end Ok

/-! ## Sequences of puts -/

/-- The entry of a put. -/
def putEntry (a : SidePutArgs) : SideKey × Option Path := (sideKey a.prefixId a.groupIdx, a.node)

/-- The node of the last put of a key. -/
def lastPut (ps : List SidePutArgs) (p : UInt64) (g : Nat) : Option Path :=
  ((ps.reverse.find? fun a => a.prefixId == p && a.groupIdx == g).map (·.node)).join

/-- The keys of a sequence of puts. -/
def putKeys (ps : List SidePutArgs) : Finset (UInt64 × Nat) :=
  (ps.map fun a => (a.prefixId, a.groupIdx)).toFinset

theorem card_putKeys (ps : List SidePutArgs) :
    (putKeys ps).card = (ProbeTable.ofPuts (ps.map putEntry)).length := by
  have himage : ((ps.map putEntry).map Prod.fst).toFinset =
      (putKeys ps).image ((↑) : UInt64 × Nat → SideKey) := by
    ext k
    simp [putKeys, putEntry, sideKey]
  rw [ProbeTable.length_ofPuts, himage, Finset.card_image_of_injective _ WithZero.coe_injective]

theorem putAll_ok {fuel : Nat} (hfuel : 2 ^ 29 ≤ fuel) (ps : List SidePutArgs)
    (hkeys : (putKeys ps).card < 2 ^ 28) :
    ∃ t, SideTbl.putAll fuel ps = some t ∧ SideTableOk t (ProbeTable.ofPuts (ps.map putEntry)) := by
  induction ps using List.reverseRecOn with
  | nil => exact ⟨SideTbl.init, rfl, sideTableOk_init⟩
  | append_singleton ps a ih =>
    have hmono : (putKeys ps).card ≤ (putKeys (ps ++ [a])).card := by
      refine Finset.card_le_card fun k hk => ?_
      rw [putKeys, List.mem_toFinset] at hk ⊢
      rw [List.map_append]
      exact List.mem_append_left _ hk
    obtain ⟨t, hall, hok⟩ := ih (by omega)
    rw [card_putKeys] at hmono
    obtain ⟨t', hput, hok'⟩ := hok.put hfuel (by omega) a
    refine ⟨t', ?_, ?_⟩
    · rw [SideTbl.putAll, List.foldlM_append]
      rw [SideTbl.putAll] at hall
      rw [hall]
      simpa using hput
    · rw [List.map_append, List.map_singleton, ProbeTable.ofPuts_concat]
      exact hok'

theorem lastPut_eq (ps : List SidePutArgs) (p : UInt64) (g : Nat) :
    lastPut ps p g = (((ps.map putEntry).reverse.find? fun e => e.1 == sideKey p g).map
      Prod.snd).join := by
  have hsame : ((fun e : SideKey × Option Path => e.1 == sideKey p g) ∘ putEntry) =
      fun a => a.prefixId == p && a.groupIdx == g := by
    funext a
    rw [Bool.eq_iff_iff]
    simp [putEntry, sideKey_inj]
  rw [lastPut, ← List.map_reverse, List.find?_map, hsame, Option.map_map]
  rfl

theorem SideTableOk.get_lastPut {t : SideTbl} {ps : List SidePutArgs}
    (h : SideTableOk t (ProbeTable.ofPuts (ps.map putEntry))) {fuel : Nat} (hfuel : 2 ^ 29 ≤ fuel)
    (p : UInt64) (g : Nat) : t.get fuel p g = some (lastPut ps p g) := by
  rw [h.get hfuel, lastPut_eq]
  refine congrArg (fun o => some (Option.join o)) (Option.ext fun v => ?_)
  rw [h.stores.find_eq_some_iff, ProbeTable.mem_ofPuts]

/-- The side table is a finite map. After any sequence of puts with less than 2^28 different keys
every operation ends, a lookup returns the node of the last put of its key, the count is the number
of keys, and the capacity is a power of two with a slot that is not in use. -/
theorem side_table_map (ps : List SidePutArgs) (hkeys : (putKeys ps).card < 2 ^ 28) {fuel : Nat}
    (hfuel : 2 ^ 30 ≤ fuel) :
    ∃ t, SideTbl.putAll fuel ps = some t ∧
      (∀ p g, t.get fuel p g = some (lastPut ps p g)) ∧
      t.count = (putKeys ps).card ∧
      (∃ k < 32, t.cap = 2 ^ k) ∧
      (∃ i < t.cap, (t.slots i).used = false) ∧
      (∀ a : SidePutArgs, ∃ t', t.put fuel a = some t') ∧
      ∃ t', t.grow fuel = some t' := by
  obtain ⟨t, hall, hok⟩ := putAll_ok (show 2 ^ 29 ≤ fuel by omega) ps hkeys
  have hlen := card_putKeys ps
  refine ⟨t, hall, hok.get_lastPut (by omega), ?_, ?_, hok.unused, fun a => ?_, hok.grow_some hfuel⟩
  · rw [hok.count, hlen]
  · obtain ⟨k, -, hk, hcap⟩ := hok.cap
    exact ⟨k, by omega, hcap⟩
  · obtain ⟨t', hput, -⟩ := hok.put (show 2 ^ 29 ≤ fuel by omega) (by omega) a
    exact ⟨t', hput⟩

/-- Puts of the first 3000 groups of prefix 0. -/
def manyPuts : List SidePutArgs := (List.range 3000).map fun i => ⟨0, i, some [UInt64.ofNat i]⟩

theorem card_manyPuts : (putKeys manyPuts).card = 3000 := by
  have hinj : Injective fun i : Nat => ((0 : UInt64), i) := fun _ _ h => (Prod.mk.inj h).2
  have hnodup : (manyPuts.map fun a => (a.prefixId, a.groupIdx)).Nodup := by
    rw [manyPuts, List.map_map]
    exact List.nodup_range.map hinj
  rw [putKeys, List.toFinset_card_of_nodup hnodup, List.length_map, manyPuts, List.length_map,
    List.length_range]

/-- The table has grown behind them; the key of two zeros is a key like the others. -/
theorem side_table_map_grown :
    ∃ t, SideTbl.putAll (2 ^ 30) manyPuts = some t ∧ SideTbl.init.cap < t.cap ∧ t.count = 3000 ∧
      t.get (2 ^ 30) 0 0 = some (some [0]) ∧ t.get (2 ^ 30) 0 2999 = some (some [2999]) ∧
      t.get (2 ^ 30) 0 3000 = some none := by
  have hkeys : (putKeys manyPuts).card < 2 ^ 28 := by rw [card_manyPuts]; decide
  obtain ⟨t, hall, hget, hcount, -⟩ := side_table_map manyPuts hkeys (le_refl _)
  obtain ⟨t', hall', hok⟩ := putAll_ok (show 2 ^ 29 ≤ 2 ^ 30 by decide) manyPuts hkeys
  obtain rfl : t = t' := Option.some.inj (hall.symm.trans hall')
  have hload := hok.load
  rw [← card_putKeys, card_manyPuts] at hload
  refine ⟨t, hall, ?_, hcount.trans card_manyPuts, (hget 0 0).trans ?_, (hget 0 2999).trans ?_,
    (hget 0 3000).trans ?_⟩
  · exact show 4096 < t.cap by omega
  · decide +kernel
  · decide +kernel
  · decide +kernel

/-! ## The list of slots -/

/-- A put of a node. -/
def slotArgs (s : SideSlot) : SidePutArgs := ⟨s.prefixId, s.groupIdx, some s.node⟩

/-- The list of slots behind a sequence of puts. -/
def sidePuts (l : List SideSlot) : List SideSlot :=
  l.foldl (fun t s => sidePut t s.prefixId s.groupIdx s.node) []

theorem sidePuts_concat (l : List SideSlot) (s : SideSlot) :
    sidePuts (l ++ [s]) = sidePut (sidePuts l) s.prefixId s.groupIdx s.node := by
  rw [sidePuts, List.foldl_append]
  rfl

theorem sideGet_sidePuts (l : List SideSlot) (p : UInt64) (g : Nat) :
    sideGet (sidePuts l) p g = lastPut (l.map slotArgs) p g := by
  induction l using List.reverseRecOn with
  | nil => rfl
  | append_singleton l s ih =>
    rw [sidePuts_concat, sideGet_sidePut, ih, lastPut, lastPut, List.map_append,
      List.reverse_append, List.map_singleton, List.reverse_singleton, List.singleton_append,
      List.find?_cons]
    by_cases hk : p = s.prefixId ∧ g = s.groupIdx
    · simp [slotArgs, hk]
    have hb : ((slotArgs s).prefixId == p && (slotArgs s).groupIdx == g) = false := by
      simp only [slotArgs, Bool.and_eq_false_iff, beq_eq_false_iff_ne]
      by_contra hno
      simp only [not_or, ne_eq, not_not] at hno
      exact hk ⟨hno.1.symm, hno.2.symm⟩
    rw [if_neg hk, hb]

/-- The array of slots and its growth stand for the list of slots: after the same puts, less than
2^28 of them, every lookup finds the same node in both. -/
theorem putAll_sidePuts {fuel : Nat} (hfuel : 2 ^ 29 ≤ fuel) {l : List SideSlot}
    (hl : l.length < 2 ^ 28) :
    ∃ t, SideTbl.putAll fuel (l.map slotArgs) = some t ∧
      ∀ p g, t.get fuel p g = some (sideGet (sidePuts l) p g) := by
  have hkeys : (putKeys (l.map slotArgs)).card < 2 ^ 28 :=
    (List.toFinset_card_le _).trans_lt (by simpa using hl)
  obtain ⟨t, hall, hok⟩ := putAll_ok hfuel (l.map slotArgs) hkeys
  refine ⟨t, hall, fun p g => ?_⟩
  rw [hok.get_lastPut hfuel, sideGet_sidePuts]

/-- The second put of a key replaces the first one. -/
theorem putAll_sidePuts_three :
    ∃ t, SideTbl.putAll (2 ^ 29)
        ([⟨7, 0, [1]⟩, ⟨7, 1, [1, 2]⟩, ⟨7, 0, [3]⟩].map slotArgs) = some t ∧
      t.get (2 ^ 29) 7 0 = some (some [3]) ∧ t.get (2 ^ 29) 7 1 = some (some [1, 2]) := by
  obtain ⟨t, hall, hget⟩ := putAll_sidePuts (Nat.le_refl _)
    (l := [⟨7, 0, [1]⟩, ⟨7, 1, [1, 2]⟩, ⟨7, 0, [3]⟩]) (by decide)
  exact ⟨t, hall, (hget 7 0).trans (by decide), (hget 7 1).trans (by decide)⟩

end KvTier.Analysis
