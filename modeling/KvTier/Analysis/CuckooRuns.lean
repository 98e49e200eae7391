import KvTier.Analysis.CuckooFacts

/-!
# Lookups of a cuckoo filter

Over a sequence of inserts that return 0 and deletes of keys that were inserted more often than
deleted, a filter stores the pairs of the keys that are in (`keysHeld_run`): an insert adds the pair
of its key, wherever the displacing puts the fingerprints, and a delete takes out one copy of a
fingerprint that is there, since its key is in.
-/

namespace KvTier.Analysis

open KvTier.Lib KvTier.Lib.Partners KvTier.Model List

variable {cf : Cuckoo} {ls : List CuckooLabel}

/-! ## New filters -/

theorem bucketCount_spec (need : Nat) (hneed : need ≤ 2 ^ 26) {n j : Nat} (hj : j ≤ 26)
    (hn : 26 ≤ j + n) :
    ∃ k, j ≤ k ∧ k ≤ 26 ∧ Cuckoo.bucketCount need n (2 ^ j) = 2 ^ k ∧ need ≤ 2 ^ k := by
  induction n generalizing j with
  | zero =>
    obtain rfl : j = 26 := by omega
    exact ⟨26, le_refl _, le_refl _, rfl, hneed⟩
  | succ n ih =>
    unfold Cuckoo.bucketCount
    by_cases hlt : 2 ^ j < need
    · have hj26 : j < 26 := by
        by_contra hge
        obtain rfl : j = 26 := by omega
        omega
      have hpow : 2 ^ j * 2 % 2 ^ 32 = 2 ^ (j + 1) := by
        have hle : 2 ^ (j + 1) ≤ 2 ^ 26 := Nat.pow_le_pow_right (by decide) hj26
        rw [← Nat.pow_succ, Nat.mod_eq_of_lt (by omega)]
      obtain ⟨k, hjk, hk, hcount, hle⟩ := ih (j := j + 1) hj26 (by omega)
      rw [if_pos hlt, hpow]
      exact ⟨k, by omega, hk, hcount, hle⟩
    · rw [if_neg hlt]
      exact ⟨j, le_refl _, hj, rfl, by omega⟩

theorem cuckooOk_init {nEntries : Nat} (h : Cuckoo.init nEntries = some cf) :
    CuckooOk cf ∧ pairsOf cf = 0 ∧ cf.count = 0 := by
  unfold Cuckoo.init at h
  split at h
  · cases h
  obtain ⟨k, -, hk, hcount, -⟩ := bucketCount_spec (n := 32) (j := 4)
    (nEntries / ckBucketSlots * 100 % 2 ^ 32 / 85 + 1) (by omega) (by decide) (by decide)
  rw [show (16 : Nat) = 2 ^ 4 from rfl, hcount, Option.some.injEq] at h
  subst h
  refine ⟨⟨⟨k, by omega, rfl⟩, ⟨length_replicate, fun b hb => ?_⟩⟩, ?_, rfl⟩
  · rw [eq_of_mem_replicate hb, length_replicate]
  unfold pairsOf pairsIn stored
  refine Finset.sum_eq_zero fun i hi => ?_
  simp only
  rw [List.getD_eq_getElem?_getD, List.getElem?_replicate, if_pos (Finset.mem_range.1 hi)]
  rfl

/-! ## Slots in use -/

/-- The occupied slots are as many as the pairs. -/
theorem CuckooOk.occupied_eq (h : CuckooOk cf) : cf.occupied = (pairsOf cf).card := by
  have hheld : ∀ b : List UInt8, b.countP (· != 0) = (held b).card := by
    intro b
    have hfree : (fun x : UInt8 => x != 0) = fun x => decide (x ≠ 0) := by
      funext x
      rw [Bool.eq_iff_iff]
      simp
    rw [countP_eq_length_filter, hfree]
    rfl
  have hlist : (List.range cf.nBuckets).map (fun i => cf.buckets.getD i []) = cf.buckets := by
    rw [← h.buckets.length]
    apply ext_getElem
    · simp
    · intro i h1 h2
      simp [List.getD_eq_getElem?_getD, h2]
  have hsum : ∀ g : Nat → Nat, ∑ i ∈ Finset.range cf.nBuckets, g i =
      ((List.range cf.nBuckets).map g).sum := by
    intro g
    simp [Finset.sum, Finset.range, Multiset.range]
  unfold Cuckoo.occupied pairsOf pairsIn
  rw [card_stored, hsum]
  conv_lhs => rw [← hlist, map_map]
  simp only [Function.comp_def, hheld]

theorem CuckooOk.card_lt (h : CuckooOk cf) : (pairsOf cf).card < 2 ^ 32 := by
  obtain ⟨k, hk, hsize⟩ := h.size
  have hle : 2 ^ k ≤ 2 ^ 29 := Nat.pow_le_pow_right (by decide) (by omega)
  have hslots : ∀ i ∈ Finset.range cf.nBuckets, (held (cf.buckets.getD i [])).card ≤ 4 := by
    intro i hi
    refine (length_filter_le _ _).trans ?_
    rw [h.buckets.length_getD (Finset.mem_range.1 hi)]
    rfl
  have hcard := Finset.sum_le_card_nsmul _ _ 4 hslots
  unfold pairsOf pairsIn
  rw [card_stored]
  rw [Finset.card_range, smul_eq_mul] at hcard
  omega

/-! ## Runs -/

/-- How often a key was inserted. -/
def inserts (ls : List CuckooLabel) (key : UInt64) : Nat :=
  ls.countP fun l => match l with
    | .insert k _ => k == key
    | .delete _ => false

/-- How often a key was deleted. -/
def deletes (ls : List CuckooLabel) (key : UInt64) : Nat := ls.count (.delete key)

/-- A key is deleted only while it is inside. -/
def DeletesValid (ls : List CuckooLabel) : Prop :=
  ∀ before key behind, ls = before ++ .delete key :: behind →
    deletes before key < inserts before key

theorem deletesValid_of_all
    (h : (List.range ls.length).all (fun i => match ls[i]? with
      | some (.delete key) => decide (deletes (ls.take i) key < inserts (ls.take i) key)
      | _ => true) = true) :
    DeletesValid ls := by
  rintro before key behind rfl
  have hplace := all_eq_true.1 h before.length (mem_range.2 (by simp))
  simpa using hplace

/-- The keys inserted and not deleted since. -/
def keysIn (ls : List CuckooLabel) : Multiset UInt64 :=
  ls.foldl (fun m l => match l with
    | .insert k _ => k ::ₘ m
    | .delete k => m.erase k) 0

theorem DeletesValid.init {l : CuckooLabel} (h : DeletesValid (ls ++ [l])) : DeletesValid ls := by
  intro before key behind hls
  exact h before key (behind ++ [l]) (by rw [hls]; simp)

theorem keysIn_concat (ls : List CuckooLabel) (l : CuckooLabel) :
    keysIn (ls ++ [l]) = match l with
      | .insert k _ => k ::ₘ keysIn ls
      | .delete k => (keysIn ls).erase k := by
  unfold keysIn
  rw [foldl_append]
  rfl

/-- A key is inside as often as it was inserted and not deleted. -/
theorem count_keysIn (hvalid : DeletesValid ls) (key : UInt64) :
    (keysIn ls).count key + deletes ls key = inserts ls key := by
  induction ls using List.reverseRecOn generalizing key with
  | nil => rfl
  | append_singleton ls l ih =>
    have ih := ih hvalid.init
    have hkey := ih key
    rw [keysIn_concat]
    unfold inserts deletes at hkey ⊢
    rw [countP_append, count_append]
    cases l with
    | insert k odd =>
      by_cases hk : key = k
      · subst hk
        simp only [Multiset.count_cons_self]
        simp
        omega
      have hb : (k == key) = false := beq_false_of_ne (Ne.symm hk)
      simp only [Multiset.count_cons_of_ne hk]
      simp [hb]
      omega
    | delete k =>
      have hin := hvalid ls k [] rfl
      have hself := ih k
      by_cases hk : key = k
      · subst hk
        simp only [Multiset.count_erase_self]
        simp
        omega
      simp only [Multiset.count_erase_of_ne hk]
      have hne : ¬ CuckooLabel.delete k = .delete key := fun h => hk (CuckooLabel.delete.inj h).symm
      simp [hne]
      omega

/-- What holds of a filter behind a run. -/
structure KeysHeld (cf : Cuckoo) (ls : List CuckooLabel) : Prop where
  ok : CuckooOk cf
  pairs : pairsOf cf = (keysIn ls).map (keyPair cf)
  count : cf.count = (pairsOf cf).card

theorem keyPair_congr {cf cf' : Cuckoo} (h : cf'.nBuckets = cf.nBuckets) : keyPair cf' = keyPair cf := by
  funext key
  unfold keyPair Cuckoo.index
  rw [h]

/-- One call keeps the keys that are in. -/
theorem KeysHeld.step {cf cf' : Cuckoo} {l : CuckooLabel} (h : KeysHeld cf ls)
    (hstep : cf.step l = some cf') (hvalid : ∀ key, l = .delete key → key ∈ keysIn ls) :
    KeysHeld cf' (ls ++ [l]) := by
  cases l with
  | insert key odd =>
    unfold Cuckoo.step at hstep
    simp only at hstep
    split at hstep
    · rename_i hok
      cases hstep
      have hins := h.ok.insert_spec key odd
      obtain ⟨hpairs, hcount⟩ := hins.stored hok
      have hok' : CuckooOk (cf.insert key odd).1 :=
        ⟨hins.size.symm ▸ h.ok.size, hins.size.symm ▸ hins.buckets⟩
      refine ⟨hok', ?_, ?_⟩
      · rw [hpairs, h.pairs, keyPair_congr hins.size, keysIn_concat, Multiset.map_cons]
      · have hlt := hok'.card_lt
        rw [hpairs, Multiset.card_cons] at hlt ⊢
        rw [hcount, h.count, Nat.mod_eq_of_lt hlt]
    · cases hstep
  | delete key =>
    cases hstep
    have hmem := hvalid key rfl
    have hdel := h.ok.delete_spec key (by rw [h.pairs]; exact Multiset.mem_map_of_mem _ hmem)
    have hok' : CuckooOk (cf.delete key).1 :=
      ⟨hdel.size.symm ▸ h.ok.size, hdel.size.symm ▸ hdel.buckets⟩
    refine ⟨hok', ?_, ?_⟩
    · have hstored := hdel.stored
      rw [h.pairs, ← Multiset.cons_erase hmem, Multiset.map_cons, Multiset.cons_inj_right] at hstored
      rw [hstored, keyPair_congr hdel.size, keysIn_concat]
    · rw [hdel.count, h.count, ← hdel.stored, Multiset.card_cons]
      rfl

theorem keysHeld_run {nEntries : Nat} {cf₀ cf : Cuckoo} (hinit : Cuckoo.init nEntries = some cf₀)
    (hrun : ls.foldlM Cuckoo.step cf₀ = some cf) (hvalid : DeletesValid ls) : KeysHeld cf ls := by
  induction ls using List.reverseRecOn generalizing cf with
  | nil =>
    cases hrun
    obtain ⟨hok, hpairs, hcount⟩ := cuckooOk_init hinit
    exact ⟨hok, hpairs, by rw [hpairs, hcount]; rfl⟩
  | append_singleton ls l ih =>
    rw [foldlM_append] at hrun
    obtain ⟨cf₁, hbefore, hlast⟩ := Option.bind_eq_some_iff.1 hrun
    simp only [foldlM_cons, foldlM_nil, bind_pure] at hlast
    refine (ih hbefore hvalid.init).step hlast fun key hl => ?_
    subst hl
    have hin := hvalid ls key [] rfl
    have hcount := count_keysIn hvalid.init key
    exact Multiset.count_pos.1 (by omega)

/-- A filter has no false negatives. After any inserts that returned 0 and deletes of keys that were
inserted more often than deleted, in any order and with any choices of the clock, every key that was
inserted more often than deleted is found, and the count is the number of slots in use. -/
theorem cuckoo_no_false_negatives {nEntries : Nat} {cf₀ cf : Cuckoo}
    (hinit : Cuckoo.init nEntries = some cf₀) {ls : List CuckooLabel}
    (hrun : ls.foldlM Cuckoo.step cf₀ = some cf) (hvalid : DeletesValid ls) :
    (∀ key, deletes ls key < inserts ls key → cf.lookup key = true) ∧ cf.count = cf.occupied := by
  have h := keysHeld_run hinit hrun hvalid
  refine ⟨fun key hmore => ?_, ?_⟩
  · have hcount := count_keysIn hvalid key
    rw [h.ok.lookup_iff, h.pairs]
    exact Multiset.mem_map_of_mem _ (Multiset.count_pos.1 (by omega))
  · rw [h.count, h.ok.occupied_eq]

/-- One key is inserted twice and deleted once, and another is deleted and is out. -/
theorem cuckoo_no_false_negatives_twice :
    ∃ cf₀ cf, Cuckoo.init 64 = some cf₀ ∧
      [.insert 7 true, .insert 9 false, .insert 7 false, .delete 7, .delete 9].foldlM
        Cuckoo.step cf₀ = some cf ∧ cf.lookup 7 = true ∧ cf.count = cf.occupied := by
  let ls : List CuckooLabel :=
    [.insert 7 true, .insert 9 false, .insert 7 false, .delete 7, .delete 9]
  obtain ⟨cf₀, hinit⟩ : ∃ cf₀, Cuckoo.init 64 = some cf₀ := ⟨_, rfl⟩
  have hsome : ((Cuckoo.init 64).bind fun cf₀ => ls.foldlM Cuckoo.step cf₀).isSome = true := by
    decide +kernel
  rw [hinit, Option.bind_some, Option.isSome_iff_exists] at hsome
  obtain ⟨cf, hrun⟩ := hsome
  have hvalid : DeletesValid ls := by
    apply deletesValid_of_all
    decide +kernel
  have h := cuckoo_no_false_negatives hinit hrun hvalid
  exact ⟨cf₀, cf, hinit, hrun, h.1 7 (by decide +kernel), h.2⟩

/-! ## Inserts that fail -/

/-- What a failed insert loses. The displacing ends with one pair `c` in hand, and all others are
stored. -/
theorem failed_insert_harmless_iff {cf : Cuckoo} (h : CuckooOk cf) {key : UInt64} {odd : Bool}
    (hfail : (cf.insert key odd).2 = false) :
    (∃ c, c ::ₘ pairsOf (cf.insert key odd).1 = keyPair cf key ::ₘ pairsOf cf ∧
      ((∀ q, cf.lookup q = true → (cf.insert key odd).1.lookup q = true) ↔
        ∀ q, cf.lookup q = true → keyPair cf q = c →
          2 ≤ (keyPair cf key ::ₘ pairsOf cf).count c)) ∧
      ((∀ q, cf.lookup q = true →
          keyPair cf q = keyPair cf key ∨ 2 ≤ (pairsOf cf).count (keyPair cf q)) →
        ∀ q, cf.lookup q = true → (cf.insert key odd).1.lookup q = true) := by
  have hins := h.insert_spec key odd
  obtain ⟨⟨c, hc⟩, -⟩ := hins.failed hfail
  have hok' : CuckooOk (cf.insert key odd).1 :=
    ⟨hins.size.symm ▸ h.size, hins.size.symm ▸ hins.buckets⟩
  have hlookup : ∀ q, (cf.insert key odd).1.lookup q = true ↔
      keyPair cf q ∈ pairsOf (cf.insert key odd).1 := by
    intro q
    rw [hok'.lookup_iff, keyPair_congr hins.size]
  -- a pair that was there is lost only if it is `c` and there is no second one
  have hexact : (∀ q, cf.lookup q = true → (cf.insert key odd).1.lookup q = true) ↔
      ∀ q, cf.lookup q = true → keyPair cf q = c →
        2 ≤ (keyPair cf key ::ₘ pairsOf cf).count c := by
    constructor
    · intro hall q hq hqc
      have hmem := (hlookup q).1 (hall q hq)
      rw [hqc] at hmem
      rw [← hc, Multiset.count_cons_self]
      have hpos := Multiset.count_pos.2 hmem
      omega
    intro htwo q hq
    rw [hlookup]
    by_cases hqc : keyPair cf q = c
    · have hcount := htwo q hq hqc
      rw [← hc, Multiset.count_cons_self] at hcount
      rw [hqc]
      exact Multiset.count_pos.1 (by omega)
    · have hmem : keyPair cf q ∈ c ::ₘ pairsOf (cf.insert key odd).1 :=
        hc ▸ Multiset.mem_cons_of_mem ((h.lookup_iff q).1 hq)
      exact (Multiset.mem_cons.1 hmem).resolve_left hqc
  refine ⟨⟨c, hc, hexact⟩, fun hsafe => hexact.2 fun q hq hqc => ?_⟩
  have hpos := Multiset.count_pos.2 ((h.lookup_iff q).1 hq)
  rw [hqc] at hpos
  rcases hsafe q hq with hkey | htwo
  · rw [← hkey, hqc, Multiset.count_cons_self]
    omega
  · rw [hqc] at htwo
    exact htwo.trans (Multiset.count_le_count_cons _ _ _)

/-- A full filter with the same fingerprint in every slot. -/
def evenFilter : Cuckoo := ⟨16, 64, List.replicate 16 (List.replicate 4 1)⟩

/-- Every fingerprint is there more than once, and a failed insert is harmless. -/
theorem failed_insert_harmless_even :
    (evenFilter.insert 96 true).2 = false ∧
      ∀ q, evenFilter.lookup q = true → (evenFilter.insert 96 true).1.lookup q = true := by
  have hok : CuckooOk evenFilter := by
    refine ⟨⟨4, by decide, rfl⟩, ⟨rfl, fun b hb => ?_⟩⟩
    rw [eq_of_mem_replicate hb]
    rfl
  have hfail : (evenFilter.insert 96 true).2 = false := by decide +kernel
  have hcopies : ∀ c ∈ pairsOf evenFilter, 2 ≤ (pairsOf evenFilter).count c := by decide +kernel
  refine ⟨hfail, (failed_insert_harmless_iff hok hfail).2 fun q hq => ?_⟩
  exact .inr (hcopies _ ((hok.lookup_iff q).1 hq))

def fillingKeys : List UInt64 :=
  (List.range 46).map (fun i => .ofNat (i + 1)) ++
    [48, 49, 50, 51, 53, 56, 57, 61, 64, 65, 66, 69, 71, 74, 80, 88, 90, 95]

/-- A filter for 16 keys takes 64. One more insert fails, and a key that was inserted is no longer
found. -/
theorem failed_insert_loses_key :
    ∃ cf₀ cf, Cuckoo.init 16 = some cf₀ ∧
      (fillingKeys.map (.insert · true)).foldlM Cuckoo.step cf₀ = some cf ∧
      (cf.insert 96 true).2 = false ∧ cf.lookup 4 = true ∧
      (cf.insert 96 true).1.lookup 4 = false := by
  have hcheck : ((Cuckoo.init 16).bind fun cf₀ =>
      (fillingKeys.map (.insert · true)).foldlM Cuckoo.step cf₀).any (fun cf =>
        !(cf.insert 96 true).2 && cf.lookup 4 && !(cf.insert 96 true).1.lookup 4) = true := by
    decide +kernel
  obtain ⟨cf₀, hinit⟩ : ∃ cf₀, Cuckoo.init 16 = some cf₀ := ⟨_, rfl⟩
  rw [hinit, Option.bind_some] at hcheck
  cases hrun : (fillingKeys.map (.insert · true)).foldlM Cuckoo.step cf₀ with
  | none =>
    rw [hrun] at hcheck
    cases hcheck
  | some cf =>
    rw [hrun, Option.any_some] at hcheck
    simp only [Bool.and_eq_true, Bool.not_eq_true'] at hcheck
    exact ⟨cf₀, cf, hinit, hrun, hcheck.1.1, hcheck.1.2, hcheck.2⟩

end KvTier.Analysis
