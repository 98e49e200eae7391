import KvTier.Analysis.EdgeStoreFacts
import KvTier.Model.RadixNodes

/-!
# Masks, 32-bit capacities and probes without a bound

`RadixNode` has the edges of a node as the code handles them: slots are found with a mask,
capacities and counts wrap at 2^32, and a probe runs until it finds its slot.
-/

namespace KvTier.Analysis

open KvTier.Lib KvTier.Model List Option

/-! ## Probes -/

section Probe

variable {k fuel : Nat}

theorem maskOf_two_pow (hk : k < 32) : maskOf (2 ^ k) = 2 ^ k - 1 := by
  have hpos : 0 < 2 ^ k := Nat.two_pow_pos k
  have hlt : 2 ^ k < 2 ^ 32 := Nat.pow_lt_pow_right (by decide) hk
  unfold maskOf
  rw [show 2 ^ k + (2 ^ 32 - 1) = 2 ^ k - 1 + 2 ^ 32 by omega, Nat.add_mod_right,
    Nat.mod_eq_of_lt (by omega)]

theorem probeMask_eq (hk : k < 32) (stop : Nat → Bool) (fuel i : Nat) :
    probeMask stop (2 ^ k - 1) fuel i = probeFrom (2 ^ k) stop fuel i := by
  induction fuel generalizing i with
  | zero => rfl
  | succ fuel ih =>
    have hdvd : 2 ^ k ∣ 2 ^ 32 := Nat.pow_dvd_pow 2 (by omega)
    have hstep : (i + 1) % 2 ^ 32 &&& 2 ^ k - 1 = (i + 1) % 2 ^ k := by
      rw [Nat.and_two_pow_sub_one_eq_mod, Nat.mod_mod_of_dvd _ hdvd]
    unfold probeMask probeFrom
    rw [hstep, ih]

theorem probeMask_of_probe {cap home i : Nat} {stop : Nat → Bool} (hcap : cap = 2 ^ k)
    (hk : k < 32) (hfuel : cap ≤ fuel) (hp : probeFrom cap stop cap (home % cap) = some i) :
    probeMask stop (maskOf cap) fuel (home &&& maskOf cap) = some i := by
  have hpos : 0 < cap := hcap ▸ Nat.two_pow_pos k
  have hlong := probeFrom_of_le hfuel (Nat.mod_lt _ hpos) hp
  subst hcap
  rw [maskOf_two_pow hk, Nat.and_two_pow_sub_one_eq_mod, probeMask_eq hk]
  exact hlong

variable {t : ProbeTable UInt64 Nat}

theorem place_eq (hcap : t.cap = 2 ^ k) (hk : k < 32) (hfuel : t.cap ≤ fuel)
    (hroom : t.items.length < t.cap) (e : UInt64 × Nat) :
    RadixNode.place fuel t.cap t.slots e = some (t.insert edgeHome e.1 e.2).slots := by
  obtain ⟨d, _, hslot, _, _⟩ := ProbeTable.exists_freeSlot edgeHome hroom e.1
  unfold RadixNode.place ProbeTable.insert
  rw [hslot]
  simp only [probeMask_of_probe hcap hk hfuel hslot, bind_eq_bind, bind_some]
  rfl

theorem edgeFindOvf_eq {o : RadixOvf} (hcap : o.table.cap = 2 ^ k) (hk : k < 32)
    (hfuel : o.table.cap ≤ fuel) (hroom : o.table.items.length < o.table.cap) (h : UInt64) :
    RadixNode.edgeFindOvf fuel o h = some (o.table.find edgeHome h) := by
  obtain ⟨i, hi, hfree⟩ := ProbeTable.exists_free hroom
  obtain ⟨d, _, hprobe, _, _⟩ := exists_probeFrom
    (p := fun j => (o.table.slots j).1 == 0 || (o.table.slots j).1 == h)
    (Nat.mod_lt (edgeHome h) (by omega)) hi (by simp [hfree])
  unfold RadixNode.edgeFindOvf ProbeTable.find
  simp only [probeMask_of_probe hcap hk hfuel hprobe, hprobe, bind_eq_bind, bind_some]
  rfl

end Probe

/-! ## Tables -/

section Table

variable {k fuel : Nat}

theorem foldlM_place_eq (fuel : Nat) (es : List (UInt64 × Nat)) {t : ProbeTable UInt64 Nat}
    (hcap : t.cap = 2 ^ k) (hk : k < 32) (hfuel : t.cap ≤ fuel)
    (hroom : t.items.length + es.length ≤ t.cap) (hes : ∀ e ∈ es, e.1 ≠ 0) :
    es.foldlM (RadixNode.place fuel t.cap) t.slots =
      some (es.foldl (fun t e => t.insert edgeHome e.1 e.2) t).slots := by
  induction es generalizing t with
  | nil => rfl
  | cons e es ih =>
    obtain ⟨he, hes⟩ := forall_mem_cons.1 hes
    rw [length_cons] at hroom
    have hlt : t.items.length < t.cap := by omega
    have hcap' : (t.insert edgeHome e.1 e.2).cap = t.cap := ProbeTable.cap_insert e.1 e.2
    have hlen : (t.insert edgeHome e.1 e.2).items.length = _ :=
      (ProbeTable.items_insert hlt he e.2).length_eq
    rw [length_cons] at hlen
    rw [foldlM_cons, place_eq hcap hk hfuel hlt, bind_eq_bind, bind_some, foldl_cons, ← hcap']
    exact ih (hcap'.trans hcap) (hcap' ▸ hfuel) (by omega) hes

theorem foldlM_placeUsed_eq (fuel : Nat) (es : List (UInt64 × Nat)) {o : RadixOvf}
    (hcap : o.table.cap = 2 ^ k) (hk : k < 32) (hfuel : o.table.cap ≤ fuel)
    (hroom : o.table.items.length + es.length ≤ o.table.cap) (hes : ∀ e ∈ es, e.1 ≠ 0)
    (hused : o.used + es.length < 2 ^ 32) :
    es.foldlM (RadixNode.placeUsed fuel) o =
      some (es.foldl (fun o e => ⟨o.used + 1, o.table.insert edgeHome e.1 e.2⟩) o) := by
  induction es generalizing o with
  | nil => rfl
  | cons e es ih =>
    obtain ⟨he, hes⟩ := forall_mem_cons.1 hes
    rw [length_cons] at hroom hused
    have hlt : o.table.items.length < o.table.cap := by omega
    have hcap' : (o.table.insert edgeHome e.1 e.2).cap = o.table.cap :=
      ProbeTable.cap_insert e.1 e.2
    have hlen : (o.table.insert edgeHome e.1 e.2).items.length = _ :=
      (ProbeTable.items_insert hlt he e.2).length_eq
    rw [length_cons] at hlen
    have hplace : RadixNode.placeUsed fuel o e =
        some ⟨o.used + 1, o.table.insert edgeHome e.1 e.2⟩ := by
      unfold RadixNode.placeUsed
      rw [place_eq hcap hk hfuel hlt, Nat.mod_eq_of_lt (by omega)]
      simp only [bind_eq_bind, bind_some, ← hcap']
      rfl
    rw [foldlM_cons, hplace, bind_eq_bind, bind_some, foldl_cons]
    refine ih (hcap'.trans hcap) (hcap' ▸ hfuel) ?_ hes ?_
    · change (o.table.insert edgeHome e.1 e.2).items.length + _ ≤ (o.table.insert _ _ _).cap
      omega
    · change o.used + 1 + es.length < 2 ^ 32
      omega

theorem foldlM_used {α : Type} (n : Nat) (slots : EdgeSlots) (f : α → UInt64 × Nat → Option α)
    (a : α) :
    (List.range n).foldlM (fun a i => if (slots i).1 ≠ 0 then f a (slots i) else pure a) a =
      (((List.range n).map slots).filter fun e => e.1 ≠ 0).foldlM f a := by
  rw [foldlM_filter, foldlM_map]
  simp only [decide_eq_true_eq]

theorem ovfGrow_eq {o : RadixOvf} (hcap : o.table.cap = 2 ^ k) (hk : k + 1 < 32)
    (hfuel : 2 ^ (k + 1) ≤ fuel) :
    RadixNode.ovfGrow fuel o = some (RadixEdges.ovfGrow o) := by
  have hpos : 0 < 2 ^ k := Nat.two_pow_pos k
  have hlt : 2 ^ (k + 1) < 2 ^ 32 := Nat.pow_lt_pow_right (by decide) hk
  have hnew : o.table.cap * 2 % 2 ^ 32 = 2 ^ (k + 1) := by
    rw [hcap, ← Nat.pow_succ, Nat.mod_eq_of_lt hlt]
  have hlen := o.table.length_items_le
  -- the new table is empty, and has room for all
  have hplace := foldlM_place_eq fuel o.table.items
    (t := ProbeTable.empty (2 ^ (k + 1)) 0) rfl hk hfuel
    (by
      rw [ProbeTable.items_empty, length_nil, Nat.zero_add]
      change o.table.items.length ≤ 2 ^ (k + 1)
      rw [Nat.pow_succ]
      omega)
    (fun e he => by simpa using (mem_filter.1 he).2)
  have hloop := (foldlM_used o.table.cap o.table.slots
    (RadixNode.place fuel (2 ^ (k + 1))) fun _ => (0, 0)).trans hplace
  have hgrown : (⟨2 ^ (k + 1), (ProbeTable.ofList edgeHome (2 ^ (k + 1)) 0 o.table.items).slots⟩ :
      ProbeTable UInt64 Nat) = .ofList edgeHome (o.table.cap * 2) 0 o.table.items := by
    rw [hcap, ← Nat.pow_succ]
    exact congrArg (ProbeTable.mk · _)
      (ProbeTable.cap_ofList edgeHome (2 ^ (k + 1)) 0 o.table.items).symm
  unfold RadixNode.ovfGrow RadixEdges.ovfGrow
  simp only [hnew, if_pos (show o.table.cap ≠ 0 by omega), hloop, bind_eq_bind, bind_some]
  rw [← hgrown]
  rfl

theorem ovfGrow_new (fuel : Nat) :
    RadixNode.ovfGrow fuel ⟨0, ⟨0, fun _ => (0, 0)⟩⟩ = some ⟨0, .empty 16 0⟩ := rfl

/-- Moving the inline slots to a table. -/
theorem ovfMigrate_eq_words (hfuel : 16 ≤ fuel) (n : RadixEdges) :
    RadixNode.ovfMigrate fuel n = some n.ovfMigrate := by
  have hlen : n.inlineEdges.length ≤ inlineSlots := by
    have hle := length_filter_le (fun e : UInt64 × Nat => decide (e.1 ≠ 0))
      ((List.range inlineSlots).map n.slots)
    rwa [length_map, length_range] at hle
  have hlen : n.inlineEdges.length ≤ 8 := hlen
  have hplace := foldlM_placeUsed_eq (k := 4) fuel n.inlineEdges (o := ⟨0, .empty 16 0⟩) rfl
    (by decide) hfuel
    (by
      rw [ProbeTable.items_empty, length_nil, Nat.zero_add]
      change n.inlineEdges.length ≤ 16
      omega)
    (fun e he => by simpa using (mem_filter.1 he).2)
    (by
      change 0 + n.inlineEdges.length < 2 ^ 32
      omega)
  unfold RadixNode.ovfMigrate
  rw [ovfGrow_new, bind_eq_bind, bind_some,
    foldlM_used inlineSlots n.slots (RadixNode.placeUsed fuel)]
  rw [ovfMigrate_eq, ← foldl_insert_eq]
  exact hplace

end Table

/-! ## The edges of a node -/

/-- The overflow table of a node with less than 2^28 edges. -/
def WordOk (n : RadixEdges) : Prop :=
  ∀ o, n.ovf = some o → ∃ k, 4 ≤ k ∧ k ≤ 29 ∧ o.table.cap = 2 ^ k

section Node

variable {fuel : Nat} {es : List (UInt64 × Nat)}

theorem OvfOk.room {o : RadixOvf} (h : OvfOk o es) : o.table.items.length < o.table.cap := by
  have hcap := h.cap
  have hload := h.load
  rw [h.stores.items.length_eq]
  omega

/-- A lookup ends, with the edge the slots hold. -/
theorem edgeGet_eq {n : RadixNode} (hfuel : 2 ^ 29 ≤ fuel) (h : EdgesOk n.edges es)
    (hw : WordOk n.edges) (x : UInt64) : n.edgeGet fuel x = some (n.edges.edgeGet x) := by
  unfold RadixNode.edgeGet RadixEdges.edgeGet
  cases h with
  | inline hovf _ _ _ =>
    rw [hovf]
  | ovf o hovf _ ho =>
    obtain ⟨k, _, hk, hcap⟩ := hw o hovf
    have hle : 2 ^ k ≤ 2 ^ 29 := Nat.pow_le_pow_right (by decide) hk
    rw [hovf]
    exact edgeFindOvf_eq hcap (by omega) (by omega) ho.room x

theorem ovfAdd_eq {o : RadixOvf} (hfuel : 2 ^ 29 ≤ fuel) (ho : OvfOk o es)
    (hes : HashesOk (es.map Prod.fst)) {k : Nat} (hk4 : 4 ≤ k) (hk : k ≤ 29)
    (hcap : o.table.cap = 2 ^ k) (hlen : es.length + 1 < 2 ^ 28) {x : UInt64} (hx : x ≠ 0)
    (c : Nat) :
    RadixNode.ovfAdd fuel o (x, c) = some (RadixEdges.ovfAdd o x c) ∧
      ∃ k', 4 ≤ k' ∧ k' ≤ 29 ∧ (RadixEdges.ovfAdd o x c).table.cap = 2 ^ k' := by
  have hle : 2 ^ k ≤ 2 ^ 29 := Nat.pow_le_pow_right (by decide) hk
  have hused := ho.used
  -- one edge into a table with room
  have hone : ∀ {o' : RadixOvf} {k' : Nat}, OvfOk o' es → k' ≤ 29 → o'.table.cap = 2 ^ k' →
      RadixNode.placeUsed fuel o' (x, c) = some ⟨o'.used + 1, o'.table.insert edgeHome x c⟩ := by
    intro o' k' ho' hk' hcap'
    have hle' : 2 ^ k' ≤ 2 ^ 29 := Nat.pow_le_pow_right (by decide) hk'
    have hroom := ho'.room
    have hused' := ho'.used
    have hfold := foldlM_placeUsed_eq fuel [(x, c)] hcap' (by omega) (by omega)
      (by rw [length_singleton]; omega) (forall_mem_singleton.2 hx)
      (by rw [length_singleton]; omega)
    simpa using hfold
  unfold RadixNode.ovfAdd RadixEdges.ovfAdd
  rw [Nat.mod_eq_of_lt (show o.table.cap * 7 < 2 ^ 32 by omega),
    Nat.mod_eq_of_lt (show o.used + 1 < 2 ^ 32 by omega)]
  by_cases hgrow : o.table.cap * 7 / 10 < o.used + 1
  · have hk28 : k ≤ 28 := by
      by_contra hbig
      obtain rfl : k = 29 := by omega
      omega
    obtain ⟨hgrown, hcap2⟩ := ho.grow hes
    have hcap2 : (RadixEdges.ovfGrow o).table.cap = 2 ^ (k + 1) := by
      rw [hcap2, hcap, Nat.pow_succ]
    have hle2 : 2 ^ (k + 1) ≤ 2 ^ 29 := Nat.pow_le_pow_right (by decide) (by omega)
    have hwords : RadixNode.ovfGrow fuel o = some (RadixEdges.ovfGrow o) :=
      ovfGrow_eq hcap (by omega) (by omega)
    simp only [if_pos hgrow, hwords, bind_eq_bind, bind_some]
    refine ⟨hone hgrown (by omega) hcap2, k + 1, by omega, by omega, ?_⟩
    rw [ProbeTable.cap_insert]
    exact hcap2
  simp only [if_neg hgrow, Option.pure_def, bind_eq_bind, bind_some]
  refine ⟨hone ho hk hcap, k, hk4, hk, ?_⟩
  rw [ProbeTable.cap_insert]
  exact hcap

theorem edgeAdd_eq {n : RadixNode} (hfuel : 2 ^ 29 ≤ fuel) (h : EdgesOk n.edges es)
    (hes : HashesOk (es.map Prod.fst)) (hw : WordOk n.edges) (hlen : es.length + 1 < 2 ^ 28)
    {x : UInt64} (hx : x ≠ 0) (c : Nat) :
    n.edgeAdd fuel x c =
        some { n with edges := n.edges.edgeAdd x c, nEdges := (n.nEdges + 1) % 2 ^ 16 } ∧
      WordOk (n.edges.edgeAdd x c) := by
  unfold RadixNode.edgeAdd RadixEdges.edgeAdd
  cases h with
  | ovf o hovf hslots ho =>
    obtain ⟨k, hk4, hk, hcap⟩ := hw o hovf
    obtain ⟨hadd, hcap'⟩ := ovfAdd_eq hfuel ho hes hk4 hk hcap hlen hx c
    simp only [hovf, hadd, bind_eq_bind, bind_some]
    refine ⟨rfl, fun o' ho' => ?_⟩
    cases ho'
    exact hcap'
  | inline hovf hlen8 hslots hfree =>
    rw [freeInline_eq hes hlen8 hslots hfree, hovf]
    by_cases hlt : es.length < inlineSlots
    · simp only [if_pos hlt, hovf]
      refine ⟨rfl, fun o' ho' => ?_⟩
      cases ho'
    have hmigrate := OvfOk.migrate hes hlen8
    obtain ⟨hadd, hcap'⟩ := ovfAdd_eq (k := 4) hfuel hmigrate hes (by decide) (by decide)
      (ProbeTable.cap_ofList edgeHome 16 0 es) hlen hx c
    simp only [if_neg hlt, ovfMigrate_eq_words (show 16 ≤ fuel by omega), ovfMigrate_eq,
      inlineEdges_eq hes hlen8 hslots hfree, hadd, bind_eq_bind, bind_some]
    refine ⟨rfl, fun o' ho' => ?_⟩
    cases ho'
    exact hcap'

end Node

end KvTier.Analysis
