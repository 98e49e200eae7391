import KvTier.Model.Tombs
import KvTier.Analysis.PinFacts

/-!
# What a miss says about a key

A get that finds no leaf asks the tombstones. They are kept by prefix, in a window of four slots
from the home of the prefix.
-/

namespace KvTier.Analysis

open KvTier.Lib KvTier.Model Option

variable {l : TombLabel} {path : Path} {s s' : TombState}

/-! ## The table -/

section Table

variable {t : Tombs} {p q : UInt64} {tick : Nat}

/-- The window of a prefix has a slot for it. -/
def WindowOpen (t : Tombs) (p : UInt64) : Prop := ∃ k < 4, t.takes p k = true

/-- Some slot of the window has the prefix. -/
def InWindow (t : Tombs) (p : UInt64) : Prop := ∃ k < 4, t.keys (t.slot p k) = p

theorem InWindow.open (h : InWindow t p) : WindowOpen t p := by
  obtain ⟨k, hk, hkey⟩ := h
  exact ⟨k, hk, by simp [Tombs.takes, hkey]⟩

theorem lookup_eq_true_iff : t.lookup p = true ↔ t.cap ≠ 0 ∧ p ≠ 0 ∧ InWindow t p := by
  simp [Tombs.lookup, InWindow, and_assoc]

@[simp]
theorem slot_write (k j : Nat) : (t.write p k).slot q j = t.slot q j := rfl

@[simp]
theorem cap_write (k : Nat) : (t.write p k).cap = t.cap := rfl

theorem keys_write (k j : Nat) :
    (t.write p k).keys j = if j = t.slot p k then p else t.keys j := by
  simp [Tombs.write, Function.update_apply]

theorem insert_cases (t : Tombs) (p : UInt64) (tick : Nat) :
    ((t.cap = 0 ∨ p = 0) ∧ t.insert p tick = t) ∨
      (t.cap ≠ 0 ∧ p ≠ 0 ∧ ∃ k < 4, t.takes p k = true ∧ t.insert p tick = t.write p k) ∨
      (t.cap ≠ 0 ∧ p ≠ 0 ∧ ¬ WindowOpen t p ∧ t.insert p tick = t.write p tick) := by
  unfold Tombs.insert
  by_cases hoff : t.cap = 0 ∨ p = 0
  · exact .inl ⟨hoff, if_pos hoff⟩
  rw [if_neg hoff]
  obtain ⟨hcap, hp⟩ := not_or.1 hoff
  cases hfind : (List.range 4).find? (t.takes p) with
  | some k =>
    have hk := List.mem_range.1 (List.mem_of_find?_eq_some hfind)
    exact .inr (.inl ⟨hcap, hp, k, hk, List.find?_some hfind, rfl⟩)
  | none =>
    refine .inr (.inr ⟨hcap, hp, ?_, rfl⟩)
    rintro ⟨k, hk, htake⟩
    exact List.find?_eq_none.1 hfind k (List.mem_range.2 hk) htake

theorem cap_insert (t : Tombs) (p : UInt64) (tick : Nat) : (t.insert p tick).cap = t.cap := by
  rcases insert_cases t p tick with ⟨-, h⟩ | ⟨-, -, k, -, -, h⟩ | ⟨-, -, -, h⟩ <;> rw [h] <;> rfl

theorem slot_insert (t : Tombs) (p : UInt64) (tick : Nat) (q : UInt64) (k : Nat) :
    (t.insert p tick).slot q k = t.slot q k := by
  simp only [Tombs.slot, cap_insert]

theorem keys_insert_cases (t : Tombs) (p : UInt64) (tick j : Nat) :
    (t.insert p tick).keys j = t.keys j ∨ (t.insert p tick).keys j = p := by
  rcases insert_cases t p tick with ⟨-, h⟩ | ⟨-, -, k, -, -, h⟩ | ⟨-, -, -, h⟩
  · exact .inl (by rw [h])
  all_goals
    rw [h, keys_write]
    split_ifs
    · exact .inr rfl
    · exact .inl rfl

/-- When an insertion is found. -/
theorem inWindow_insert_self (hcap : t.cap ≠ 0) (hp : p ≠ 0) :
    InWindow (t.insert p tick) p ↔
      WindowOpen t p ∨ ∃ k < 4, t.slot p k = t.slot p tick := by
  have hoff : ¬ (t.cap = 0 ∨ p = 0) := not_or.2 ⟨hcap, hp⟩
  rcases insert_cases t p tick with ⟨h, -⟩ | ⟨-, -, k, hk, htake, h⟩ | ⟨-, -, hfull, h⟩
  · exact absurd h hoff
  · rw [h]
    refine iff_of_true ⟨k, hk, ?_⟩ (.inl ⟨k, hk, htake⟩)
    rw [slot_write, keys_write, if_pos rfl]
  rw [h, or_iff_right hfull]
  refine exists_congr fun k => and_congr_right fun hk => ?_
  rw [slot_write, keys_write]
  constructor
  · intro hkey
    by_contra hne
    rw [if_neg hne] at hkey
    exact hfull (InWindow.open ⟨k, hk, hkey⟩)
  · intro heq
    rw [if_pos heq]

theorem inWindow_insert_other (hp : p ≠ 0) (hne : q ≠ p) :
    InWindow (t.insert q tick) p ↔
      ∃ k < 4, t.keys (t.slot p k) = p ∧
        (t.cap = 0 ∨ q = 0 ∨ WindowOpen t q ∨ t.slot q tick ≠ t.slot p k) := by
  have hkeep : ∀ k, (t.insert q tick).keys (t.slot p k) = p ↔ t.keys (t.slot p k) = p ∧
      (t.cap = 0 ∨ q = 0 ∨ WindowOpen t q ∨ t.slot q tick ≠ t.slot p k) := by
    intro k
    rcases insert_cases t q tick with ⟨hoff, h⟩ | ⟨-, -, i, hi, htake, h⟩ | ⟨hcap, hq, hfull, h⟩
    · rw [h, and_iff_left]
      exact hoff.imp_right .inl
    · rw [h, keys_write, and_iff_left (.inr (.inr (.inl ⟨i, hi, htake⟩)))]
      split_ifs with heq
      · -- The slot that was written held zero or `q`, so it did not hold `p`.
        refine iff_of_false hne ?_
        intro hkey
        rw [heq] at hkey
        simp only [Tombs.takes, hkey, Bool.or_eq_true, beq_iff_eq] at htake
        exact htake.elim hp fun h => hne h.symm
      · rfl
    rw [h, keys_write]
    split_ifs with heq
    · refine iff_of_false hne ?_
      rintro ⟨-, h0 | h0 | h0 | h0⟩
      · exact hcap h0
      · exact hq h0
      · exact hfull h0
      · exact h0 heq.symm
    · rw [and_iff_left (.inr (.inr (.inr fun h => heq h.symm)))]
  simp only [InWindow, slot_insert, hkeep]

theorem slot_eq_mod {n : Nat} (hn : n < 32) (hcap : t.cap = 2 ^ n) (k : Nat) :
    t.slot p k = ((hashMix64 p).toNat + k) % t.cap := by
  have hdvd : 2 ^ n ∣ 2 ^ 32 := Nat.pow_dvd_pow 2 (by omega)
  unfold Tombs.slot
  rw [hcap, Nat.and_two_pow_sub_one_eq_mod, Nat.and_two_pow_sub_one_eq_mod,
    Nat.mod_mod_of_dvd _ hdvd, Nat.mod_add_mod]

theorem exists_slot_tick {n : Nat} (hn : n < 32) (hcap : t.cap = 2 ^ n) (tick : Nat) :
    (∃ k < 4, t.slot p k = t.slot p tick) ↔ tick % t.cap < 4 := by
  have hpos : 0 < t.cap := hcap ▸ Nat.two_pow_pos n
  simp only [slot_eq_mod hn hcap]
  constructor
  · rintro ⟨k, hk, hslot⟩
    have hmod : k % t.cap = tick % t.cap := Nat.ModEq.add_left_cancel' _ hslot
    rw [← hmod]
    exact (Nat.mod_le _ _).trans_lt hk
  · intro hlt
    exact ⟨tick % t.cap, hlt, by rw [Nat.add_mod_mod]⟩

/-- A tombstone is found right after it is recorded exactly if its window has a slot for it, or the
clock stands at one of the first four slots. `now` is `now_ns()`. -/
theorem tomb_visible_iff (t : Tombs) {n : Nat} (hn : n < 32) (hcap : t.cap = 2 ^ n) {p : UInt64}
    (hp : p ≠ 0) (now : Nat) :
    (t.insert p (now / 2 ^ 20)).lookup p = true ↔ WindowOpen t p ∨ now / 2 ^ 20 % t.cap < 4 := by
  have hne : t.cap ≠ 0 := hcap ▸ (Nat.two_pow_pos n).ne'
  rw [lookup_eq_true_iff, inWindow_insert_self hne hp, exists_slot_tick hn hcap, cap_insert]
  exact ⟨fun h => h.2.2, fun h => ⟨hne, hp, h⟩⟩

/-- Four tombstones with one home. -/
def fourTombs : Tombs := [7191, 9224, 11920, 13416].foldl (fun t p => t.insert p 0) (Tombs.init 65536)

/-- Behind four tombstones with its home, a fifth one that is recorded in the first ticks of the clock
takes the place of one of them. -/
theorem tomb_visible_early :
    ¬ WindowOpen fourTombs 14511 ∧
      (fourTombs.insert 14511 (3 * 2 ^ 20 / 2 ^ 20)).lookup 14511 = true :=
  ⟨show ¬ ∃ k < 4, fourTombs.takes 14511 k = true by decide +kernel,
    (tomb_visible_iff fourTombs (n := 16) (by decide) rfl (by decide) (3 * 2 ^ 20)).2 (.inr (by decide))⟩

/-- One that is recorded four ticks after the clock started goes to a slot no lookup of it looks at. -/
theorem tomb_not_visible :
    (fourTombs.insert 14511 (4 * 2 ^ 20 / 2 ^ 20)).lookup 14511 = false := by
  decide +kernel

end Table

/-! ## Steps of a session -/

/-- The node a step discards, with its tombstone. -/
def discardOf : TombLabel → Option (Path × Option (UInt64 × Nat))
  | .index _ => none
  | .evict p path tick => some (path, some (p, tick))
  | .dropSlot _ _ slot tick =>
    some (slot.node, (TombState.slotTomb slot).map fun p => (p, tick))

/-- The table after a step that may write a tombstone. -/
def withTomb (t : Tombs) : Option (UInt64 × Nat) → Tombs
  | some (p, tick) => t.insert p tick
  | none => t

/-- The ways of a step with tombstones. -/
inductive TombCase (s : TombState) (l : TombLabel) (s' : TombState) : Prop
  | index (l' : LiveLabel) (hl : l = .index l') (hled : s.led.step l' = some s'.led)
      (hkind : (∃ a, l' = .publish a ∧ s'.published = s.published ++
          [(a.prefixId, (resolveNode s.led.idx a.prefixId a.groupIdx a.path).2)]) ∨
        (((∃ now, l' = .ttl now) ∨ (∃ d r, l' = .gcTrim d r) ∨ (∃ q, l' = .pin q) ∨
          (∃ q, l' = .unpin q)) ∧ s'.published = s.published))
      (htombs : s'.tombs = s.tombs) (hdisc : s'.discarded = s.discarded)
  | idle (hs : s' = s)
  | discard (node : Path) (tomb : Option (UInt64 × Nat)) (lf : RadixLeaf)
      (hl : discardOf l = some (node, tomb)) (hleaf : s.leafAt node = some lf)
      (hdrop : s.led.dropAt node = some s'.led) (htombs : s'.tombs = withTomb s.tombs tomb)
      (hpub : s'.published = s.published)
      (hdisc : s'.discarded = s.discarded ++ [(lf.prefixId, node)])

theorem tombCase_of_discard {node : Path} {lf : RadixLeaf} {p : Option UInt64} {tick : Nat}
    (hleaf : s.leafAt node = some lf) (hl : discardOf l = some (node, p.map fun p => (p, tick)))
    (h : s.discard node lf p tick = some s') : TombCase s l s' := by
  obtain ⟨led, hdrop, rfl⟩ := map_eq_some_iff.1 h
  refine .discard node _ lf hl hleaf hdrop ?_ rfl rfl
  cases p <;> rfl

theorem tombCase_of_ledger {l : LiveLabel}
    (hkind : (∃ now, l = .ttl now) ∨ (∃ d r, l = .gcTrim d r) ∨ (∃ q, l = .pin q) ∨
      (∃ q, l = .unpin q))
    (h : (s.led.step l).map (fun led => { s with led := led }) = some s') :
    TombCase s (.index l) s' := by
  obtain ⟨led, hled, rfl⟩ := map_eq_some_iff.1 h
  exact .index l rfl hled (.inr ⟨hkind, rfl⟩) rfl rfl

theorem tomb_step_cases (h : s.step l = some s') : TombCase s l s' := by
  cases l with
  | index l' =>
    cases l' with
    | publish a =>
      obtain ⟨led, hled, rfl⟩ := map_eq_some_iff.1 h
      exact .index (.publish a) rfl hled (.inl ⟨a, rfl, rfl⟩) rfl rfl
    | drop node => cases h
    | evict path => cases h
    | ttl now => exact tombCase_of_ledger (.inl ⟨now, rfl⟩) h
    | dropRegion d r => cases h
    | gcTrim d r => exact tombCase_of_ledger (.inr (.inl ⟨d, r, rfl⟩)) h
    | recompute => cases h
    | pin q => exact tombCase_of_ledger (.inr (.inr (.inl ⟨q, rfl⟩))) h
    | unpin q => exact tombCase_of_ledger (.inr (.inr (.inr ⟨q, rfl⟩))) h
  | evict p path tick =>
    simp only [TombState.step] at h
    split at h
    · exact .idle (Option.some.inj h).symm
    rename_i lf hleaf
    split_ifs at h with hpin
    · exact .idle (Option.some.inj h).symm
    · exact tombCase_of_discard hleaf rfl h
  | dropSlot d r slot tick =>
    simp only [TombState.step] at h
    split_ifs at h with hmem
    split at h
    · exact .idle (Option.some.inj h).symm
    rename_i lf hleaf
    split_ifs at h with hdue
    · exact tombCase_of_discard hleaf rfl h
    · exact .idle (Option.some.inj h).symm

theorem leaf_from {led led' : Ledger} {l : LiveLabel}
    (hkind : (∃ a, l = .publish a) ∨ (∃ now, l = .ttl now) ∨ (∃ d r, l = .gcTrim d r) ∨
      (∃ q, l = .pin q) ∨ (∃ q, l = .unpin q))
    (h : led.step l = some led') {q : Path} {lf : RadixLeaf}
    (hlf : led'.idx.tree.leafAt q = some lf) :
    (∃ a, l = .publish a ∧ (resolveNode led.idx a.prefixId a.groupIdx a.path).2 = q ∧
        lf.prefixId = a.prefixId) ∨
      ∃ lf0, led.idx.tree.leafAt q = some lf0 ∧ lf0.prefixId = lf.prefixId := by
  have hpins : ∀ {node : Path} {f : Nat → Nat}, led.setPins node f = some led' →
      ∃ lf0, led.idx.tree.leafAt q = some lf0 ∧ lf0.prefixId = lf.prefixId := by
    intro node f hset
    cases hnode : led.idx.tree.leafAt node with
    | none =>
      simp only [Ledger.setPins, hnode, Option.some.injEq] at hset
      subst hset
      exact ⟨lf, hlf, rfl⟩
    | some lf0 =>
      rw [leafAt_setPins hnode hset] at hlf
      split_ifs at hlf with hq
      · subst hq
        obtain rfl := Option.some.inj hlf
        exact ⟨lf0, hnode, rfl⟩
      · exact ⟨lf, hlf, rfl⟩
  rcases hkind with ⟨a, rfl⟩ | ⟨now, rfl⟩ | ⟨d, r, rfl⟩ | ⟨node, rfl⟩ | ⟨node, rfl⟩
  · simp only [Ledger.step] at h
    split_ifs at h with hlen
    obtain ⟨_, _, _, rfl⟩ := (publishAt_eq_some_iff _ _ _ _).mp h
    change ((resolveNode led.idx a.prefixId a.groupIdx a.path).1.publish
      (resolveNode led.idx a.prefixId a.groupIdx a.path).2 a).tree.leafAt q = some lf at hlf
    rcases leafAt_publish_from hlf with ⟨hq, hnew⟩ | hold
    · rcases label_leafPublish _ a lf hnew with ⟨hpre, -⟩ | ⟨lf0, hold, hpre, -⟩
      · exact .inl ⟨a, rfl, hq.symm, hpre⟩
      · rw [leafAt_resolveNode, ← hq] at hold
        exact .inr ⟨lf0, hold, hpre.symm⟩
    · rw [leafAt_resolveNode] at hold
      exact .inr ⟨lf, hold, rfl⟩
  · exact .inr ⟨lf, (sweepSlots_leafAt _ h hlf).1, rfl⟩
  · simp only [Ledger.step, Ledger.gcTrim] at h
    split_ifs at h
    all_goals
      obtain rfl := Option.some.inj h
      exact .inr ⟨lf, hlf, rfl⟩
  · exact .inr (hpins (show led.setPins node (· + 1) = some led' from h))
  · exact .inr (hpins (show led.setPins node (· - 1) = some led' from h))

/-! ## Discarded keys -/

/-- The step overwrites no tombstone of the prefix. -/
def KeepsTomb (p : UInt64) (s : TombState) (l : TombLabel) : Prop :=
  ∀ s', s.step l = some s' → ∀ j, s.tombs.keys j = p → s'.tombs.keys j = p

/-- A step publishes at a node. -/
def PutsAt (path : Path) (s : TombState) (l : TombLabel) : Prop :=
  ∃ a, l = .index (.publish a) ∧ (resolveNode s.led.idx a.prefixId a.groupIdx a.path).2 = path

/-- The prefix is found once the tombstone, if any, is recorded. -/
def TombFound (t : Tombs) (p : UInt64) : Option (UInt64 × Nat) → Prop
  | none => t.cap ≠ 0 ∧ InWindow t p
  | some (q, tick) => t.cap ≠ 0 ∧
    if q = p then WindowOpen t p ∨ ∃ k < 4, t.slot p k = t.slot p tick
    else ∃ k < 4, t.keys (t.slot p k) = p ∧
      (q = 0 ∨ WindowOpen t q ∨ t.slot q tick ≠ t.slot p k)

theorem lookup_withTomb {t : Tombs} {p : UInt64} (hp : p ≠ 0) (tomb : Option (UInt64 × Nat)) :
    (withTomb t tomb).lookup p = true ↔ TombFound t p tomb := by
  rw [lookup_eq_true_iff]
  match tomb with
  | none => exact and_congr_right fun _ => and_iff_right hp
  | some (q, tick) =>
    simp only [withTomb, cap_insert, TombFound]
    refine and_congr_right fun hcap => (and_iff_right hp).trans ?_
    split_ifs with hq
    · subst hq
      exact inWindow_insert_self hcap hp
    · rw [inWindow_insert_other hp hq]
      simp only [hcap, false_or]

theorem leafAt_none_step (hnone : s.leafAt path = none) (hput : ¬ PutsAt path s l)
    (h : s.step l = some s') : s'.leafAt path = none := by
  rw [eq_none_iff_forall_ne_some]
  intro lf hlf
  cases tomb_step_cases h with
  | index l' hl hled hkind _ _ =>
    have hk : (∃ a, l' = .publish a) ∨ (∃ now, l' = .ttl now) ∨ (∃ d r, l' = .gcTrim d r) ∨
        (∃ q, l' = .pin q) ∨ (∃ q, l' = .unpin q) :=
      hkind.imp (Exists.imp fun _ => And.left) And.left
    rcases leaf_from hk hled hlf with ⟨a, rfl, hnode, -⟩ | ⟨lf0, hlf0, -⟩
    · exact hput ⟨a, hl, hnode⟩
    · cases hnone.symm.trans hlf0
  | idle hs =>
    subst hs
    cases hnone.symm.trans hlf
  | discard node tomb lf0 _ _ hdrop _ _ _ =>
    change s'.led.idx.tree.leafAt path = some lf at hlf
    rw [idx_dropAt hdrop, leafAt_drop] at hlf
    split_ifs at hlf
    cases hnone.symm.trans hlf

theorem lookup_step {p : UInt64} (hk : KeepsTomb p s l) (h : s.step l = some s')
    (hfound : s.tombs.lookup p = true) : s'.tombs.lookup p = true := by
  have hcap : s'.tombs.cap = s.tombs.cap := by
    cases tomb_step_cases h with
    | index _ _ _ _ htombs _ => rw [htombs]
    | idle hs => rw [hs]
    | discard _ tomb _ _ _ _ htombs _ _ =>
      rw [htombs]
      match tomb with
      | none => rfl
      | some (q, tick) => exact cap_insert _ _ _
  rw [lookup_eq_true_iff] at hfound ⊢
  obtain ⟨hon, hp, k, hlt, hkey⟩ := hfound
  refine ⟨hcap ▸ hon, hp, k, hlt, ?_⟩
  rw [show s'.tombs.slot p k = s.tombs.slot p k by simp only [Tombs.slot, hcap]]
  exact hk s' h _ hkey

theorem getMiss_of_none (h : s.leafAt path = none) (p : UInt64) (now : Nat) :
    getMiss s p path now = some .evicted ↔ s.tombs.lookup p = true := by
  simp only [getMiss, h]
  split_ifs with hfound <;> simp [hfound]

/-- What a get says of a discarded key. After an evict or a pass of a region drop that
discarded the leaf of a node, every get of the key, while it is not put again and its tombstones are
not overwritten, returns `-KV_EVICTED`, exactly if the discard left the prefix in its window of the
table. -/
theorem discarded_key_evicted_iff (s s' : TombState) (l : TombLabel) (p : UInt64) (path : Path)
    (tomb : Option (UInt64 × Nat)) (lf : RadixLeaf) (hp : p ≠ 0)
    (hl : discardOf l = some (path, tomb)) (hleaf : s.leafAt path = some lf)
    (hstep : s.step l = some s') (hgone : s'.leafAt path = none) :
    (∀ ls s2 now,
        RunOf TombState.step (fun s l => KeepsTomb p s l ∧ ¬ PutsAt path s l) s' ls s2 →
          getMiss s2 p path now = some .evicted) ↔
      TombFound s.tombs p tomb := by
  have htombs : s'.tombs = withTomb s.tombs tomb := by
    cases tomb_step_cases hstep with
    | index l' h _ _ _ _ =>
      subst h
      cases hl
    | idle hs =>
      subst hs
      cases hgone.symm.trans hleaf
    | discard node tomb' _ h _ _ htombs _ _ =>
      obtain ⟨-, rfl⟩ := Prod.mk.inj (Option.some.inj (hl.symm.trans h))
      exact htombs
  rw [← lookup_withTomb hp, ← htombs]
  constructor
  · intro hall
    exact (getMiss_of_none hgone p 0).1 (hall [] s' 0 (.nil s'))
  intro hfound ls s2 now hrun
  have hinv := RunOf.invariant
    (fun s : TombState => s.leafAt path = none ∧ s.tombs.lookup p = true)
    (fun s l s1 hs hok hst =>
      ⟨leafAt_none_step hs.1 hok.2 hst, lookup_step hok.1 hst hs.2⟩) hrun ⟨hgone, hfound⟩
  exact (getMiss_of_none hinv.1 p now).2 hinv.2

/-- A put of one page under a prefix. -/
def tombPut (p : UInt64) : PublishArgs where
  prefixId := p
  groupIdx := 0
  ver := 1
  addr := ⟨0, 3, 0, 1, 0, 0, 0⟩
  slot := 0
  flags := Flags.empty
  stripeIdx := 0
  stripeCnt := 0
  stripeTotal := 0
  dataLen := 8
  shape := some ⟨0, [8]⟩
  path := [p]

def tombAfterPut (p : UInt64) : Option TombState :=
  (TombState.start (Ledger.empty ledgerCfg) 65536).step (.index (.publish (tombPut p)))

/-- A key that was put and evicted, with a free table. -/
theorem evicted_key_seven : ∃ s s', tombAfterPut 7 = some s ∧ s.step (.evict 7 [7] 0) = some s' ∧
    TombFound s.tombs 7 (some (7, 0)) ∧ getMiss s' 7 [7] 0 = some .evicted := by
  have hrun : (tombAfterPut 7).bind (fun s : TombState => (s.step (.evict 7 [7] 0)).map
      fun s' : TombState => ((s.leafAt [7]).isSome, s'.leafAt [7])) = some (true, none) := by
    decide +kernel
  obtain ⟨s, hs, hrest⟩ := bind_eq_some_iff.1 hrun
  obtain ⟨s', hs', hres⟩ := map_eq_some_iff.1 hrest
  obtain ⟨hsome, hgone⟩ := Prod.mk.inj hres
  obtain ⟨lf, hleaf⟩ := isSome_iff_exists.1 hsome
  have hfound : TombFound s.tombs 7 (some (7, 0)) := by
    have htombs : s.tombs = Tombs.init 65536 := by
      cases tomb_step_cases hs with
      | index _ _ _ _ htombs _ => exact htombs
      | idle hs => exact congrArg _ hs
      | discard _ _ _ hl _ _ _ _ _ => cases hl
    rw [htombs]
    refine ⟨by decide, ?_⟩
    rw [if_pos rfl]
    exact .inl ⟨0, by decide, by simp [Tombs.takes, Tombs.init]⟩
  exact ⟨s, s', hs, hs', hfound, (discarded_key_evicted_iff s s' (.evict 7 [7] 0) 7 [7] (some (7, 0))
    lf (by decide) rfl hleaf hs' hgone).2 hfound [] s' 0 (.nil s')⟩

/-- Prefix 101 leaves no tombstone. Its key is put and dropped with its region, as the collector and
a forced rotation do, and a get takes it for one that never existed. -/
theorem dropped_key_not_evicted : ∃ s s', tombAfterPut 101 = some s ∧ getMiss s 101 [101] 0 = none ∧
    s.dropRegion 0 0 (fun _ => 0) = some s' ∧ getMiss s' 101 [101] 0 = some .enoent := by
  have hrun : (tombAfterPut 101).bind (fun s : TombState =>
      (s.dropRegion 0 0 fun _ => 0).map fun s' : TombState =>
        (getMiss s 101 [101] 0, getMiss s' 101 [101] 0)) = some (none, some .enoent) := by
    decide +kernel
  obtain ⟨s, hs, hrest⟩ := bind_eq_some_iff.1 hrun
  obtain ⟨s', hs', hres⟩ := map_eq_some_iff.1 hrest
  obtain ⟨hbefore, hafter⟩ := Prod.mk.inj hres
  exact ⟨s, s', hs, hbefore, hs', hafter⟩

/-! ## Keys that were never discarded -/

/-- Tombstones of the prefix are for this key. -/
def OwnTomb (p : UInt64) (path : Path) (s : TombState) (l : TombLabel) : Prop :=
  ∀ node tick lf, discardOf l = some (node, some (p, tick)) → s.leafAt node = some lf →
    node = path ∧ lf.prefixId = p

/-- A key was given a value: in this session, or before it. -/
def HadValue (led : Ledger) (s : TombState) (p : UInt64) (path : Path) : Prop :=
  (p, path) ∈ s.published ∨ ∃ lf, led.idx.tree.leafAt path = some lf ∧ lf.prefixId = p

/-- Leaves and discarded keys had a value, and a tombstone means a discarded key. -/
structure TombInv (led : Ledger) (p : UInt64) (path : Path) (s : TombState) : Prop where
  leaf : ∀ q lf, s.leafAt q = some lf → HadValue led s lf.prefixId q
  discarded : ∀ k ∈ s.discarded, HadValue led s k.1 k.2
  tomb : p ≠ 0 → ∀ j, s.tombs.keys j = p → (p, path) ∈ s.discarded

theorem tombInv_start (led : Ledger) (cap : Nat) (p : UInt64) (path : Path) :
    TombInv led p path (TombState.start led cap) where
  leaf := fun _ lf h => .inr ⟨lf, h, rfl⟩
  discarded := by simp [TombState.start]
  tomb := fun hp _ h => absurd h.symm hp

/-- One step keeps the history. -/
theorem TombInv.step {led : Ledger} {p : UInt64} (h : TombInv led p path s)
    (hown : OwnTomb p path s l) (hstep : s.step l = some s') : TombInv led p path s' := by
  cases tomb_step_cases hstep with
  | index l' hl hled hkind htombs hdisc =>
    have hk : (∃ a, l' = .publish a) ∨ (∃ now, l' = .ttl now) ∨ (∃ d r, l' = .gcTrim d r) ∨
        (∃ q, l' = .pin q) ∨ (∃ q, l' = .unpin q) :=
      hkind.imp (Exists.imp fun _ => And.left) And.left
    have hmono : ∀ {q : UInt64} {node : Path}, HadValue led s q node → HadValue led s' q node := by
      intro q node hv
      refine hv.imp_left fun hmem => ?_
      rcases hkind with ⟨a, -, hpub⟩ | ⟨-, hpub⟩
      · rw [hpub]
        exact List.mem_append_left _ hmem
      · rw [hpub]
        exact hmem
    refine ⟨fun q lf hlf => ?_, fun k hkm => hmono (h.discarded k (hdisc ▸ hkm)), ?_⟩
    · rcases leaf_from hk hled hlf with ⟨a, rfl, hnode, hpre⟩ | ⟨lf0, hlf0, hpre⟩
      · obtain ⟨a', ha', hpub⟩ := hkind.resolve_right fun hno => by
          obtain ⟨⟨_, hno⟩ | ⟨_, _, hno⟩ | ⟨_, hno⟩ | ⟨_, hno⟩, -⟩ := hno <;> cases hno
        obtain rfl := LiveLabel.publish.inj ha'
        refine .inl ?_
        rw [hpub, hpre, hnode]
        simp
      · exact hmono (hpre ▸ h.leaf q lf0 hlf0)
    · rw [htombs, hdisc]
      exact h.tomb
  | idle hs => exact hs ▸ h
  | discard node tomb lf hl hleaf hdrop htombs hpub hdisc =>
    have hmono : ∀ {q : UInt64} {n : Path}, HadValue led s q n → HadValue led s' q n :=
      fun hv => hv.imp_left fun hmem => hpub ▸ hmem
    refine ⟨fun q lf' hlf' => ?_, fun k hkm => ?_, fun hp j hkey => ?_⟩
    · change s'.led.idx.tree.leafAt q = some lf' at hlf'
      rw [idx_dropAt hdrop, leafAt_drop] at hlf'
      split_ifs at hlf'
      exact hmono (h.leaf q lf' hlf')
    · rw [hdisc] at hkm
      rcases List.mem_append.1 hkm with hkm | hkm
      · exact hmono (h.discarded k hkm)
      · rw [List.mem_singleton.1 hkm]
        exact hmono (h.leaf node lf hleaf)
    rw [htombs] at hkey
    rw [hdisc]
    -- Either the tombstone was there before, or this step wrote it for the key itself.
    have hold : s.tombs.keys j = p → (p, path) ∈ s.discarded ++ [(lf.prefixId, node)] :=
      fun hk => List.mem_append_left _ (h.tomb hp j hk)
    cases tomb with
    | none => exact hold hkey
    | some key =>
      obtain ⟨q, tick⟩ := key
      rcases keys_insert_cases s.tombs q tick j with hsame | hq
      · exact hold (hsame.symm.trans hkey)
      obtain rfl : q = p := hq.symm.trans hkey
      obtain ⟨rfl, hpre⟩ := hown node tick lf hl hleaf
      rw [← hpre]
      simp

/-- What `-KV_EVICTED` says of a key. In every session whose tombstones for a prefix are
all due to discards of the one key, a get of that key returns `-KV_EVICTED` only if it had a value
that was discarded by an evict or a drop of a region. -/
theorem evicted_only_after_discard (led : Ledger) (evictTombCap : Nat) (p : UInt64) (path : Path)
    (ls : List TombLabel) (s : TombState) (now : Nat)
    (hrun : RunOf TombState.step (OwnTomb p path) (TombState.start led evictTombCap) ls s)
    (hget : getMiss s p path now = some .evicted) :
    HadValue led s p path ∧ (p, path) ∈ s.discarded := by
  have hinv := RunOf.invariant (TombInv led p path)
    (fun s l s' hs hok hst => hs.step hok hst) hrun (tombInv_start led evictTombCap p path)
  have hnone : s.leafAt path = none := by
    cases hleaf : s.leafAt path with
    | none => rfl
    | some lf =>
      simp only [getMiss, hleaf] at hget
      split_ifs at hget
      cases hget
  obtain ⟨-, hp, k, -, hkey⟩ := lookup_eq_true_iff.1 ((getMiss_of_none hnone p now).1 hget)
  have hmem := hinv.tomb hp _ hkey
  exact ⟨hinv.discarded _ hmem, hmem⟩

/-- A put and an evict of the same key. -/
theorem evicted_only_after_discard_seven : ∃ s,
    RunOf TombState.step (OwnTomb 7 [7]) (TombState.start (Ledger.empty ledgerCfg) 65536)
        [.index (.publish (tombPut 7)), .evict 7 [7] 0] s ∧
      getMiss s 7 [7] 0 = some .evicted ∧ (7, [7]) ∈ s.discarded := by
  have hsteps : (tombAfterPut 7).bind (fun s1 : TombState => (s1.step (.evict 7 [7] 0)).map
      fun s : TombState => ((s1.leafAt [7]).map (·.prefixId), getMiss s 7 [7] 0)) =
      some (some 7, some .evicted) := by decide +kernel
  obtain ⟨s1, hs1, hrest⟩ := bind_eq_some_iff.1 hsteps
  obtain ⟨s2, hs2, hres⟩ := map_eq_some_iff.1 hrest
  obtain ⟨hpre, hget⟩ := Prod.mk.inj hres
  have hown : OwnTomb 7 [7] s1 (.evict 7 [7] 0) := by
    intro node tick lf hl hleaf
    obtain ⟨rfl, -⟩ := Prod.mk.inj (Option.some.inj hl)
    rw [hleaf] at hpre
    exact ⟨rfl, Option.some.inj hpre⟩
  have hrun : RunOf TombState.step (OwnTomb 7 [7])
      (TombState.start (Ledger.empty ledgerCfg) 65536)
      [.index (.publish (tombPut 7)), .evict 7 [7] 0] s2 :=
    .cons (fun _ _ _ h => nomatch h) hs1 (.cons hown hs2 (.nil s2))
  exact ⟨s2, hrun, hget, (evicted_only_after_discard (Ledger.empty ledgerCfg) 65536 7 [7] _ s2 0
    hrun hget).2⟩

/-- The other groups of an evicted prefix are evicted too. Group 0 of prefix 7 is put and evicted; a
get of group 1, which never had a value, returns `-KV_EVICTED`. -/
theorem absent_group_evicted : ∃ s,
    RunOf TombState.step (fun _ _ => True) (TombState.start (Ledger.empty ledgerCfg) 65536)
        [.index (.publish (tombPut 7)), .evict 7 [7] 0] s ∧
      getMiss s 7 [7, 8] 0 = some .evicted ∧ ¬ HadValue (Ledger.empty ledgerCfg) s 7 [7, 8] ∧
      s.discarded = [(7, [7])] := by
  have hfold : ([.index (.publish (tombPut 7)), .evict 7 [7] 0].foldlM TombState.step
      (TombState.start (Ledger.empty ledgerCfg) 65536)).map
        (fun s : TombState => (getMiss s 7 [7, 8] 0, s.published, s.discarded)) =
      some (some .evicted, [(7, [7])], [(7, [7])]) := by decide +kernel
  obtain ⟨s, hs, hres⟩ := map_eq_some_iff.1 hfold
  simp only [Prod.mk.injEq] at hres
  obtain ⟨hget, hpub, hdisc⟩ := hres
  refine ⟨s, RunOf.of_foldlM hs fun _ _ _ => trivial, hget, ?_, hdisc⟩
  rintro (hmem | ⟨lf, hlf, -⟩)
  · rw [hpub] at hmem
    simp at hmem
  · simp [Ledger.empty, Index.empty] at hlf

end KvTier.Analysis
