import KvTier.Model.DramHeap

/-!
# Entries and their blocks

An entry fits its block, and is charged for what it occupies, iff its size does not wrap around in
32 bits.
-/

namespace KvTier.Analysis

open KvTier.Model

theorem le_classCap_pickClass {total : Nat} (h : pickClass total < dramNClasses) :
    total ≤ classCap (pickClass total) := by
  have hfound : decide (total ≤ classCaps[pickClass total]) = true :=
    List.findIdx_getElem (p := fun cap => decide (total ≤ cap)) (w := h)
  rw [decide_eq_true_iff] at hfound
  unfold classCap
  rw [List.getD_eq_getElem?_getD, List.getElem?_eq_getElem h]
  exact hfound

theorem classCap_le {cls : Nat} (h : cls < dramNClasses) : classCap cls ≤ 8 * 1024 * 1024 := by
  have hall : ∀ c < dramNClasses, classCap c ≤ 8 * 1024 * 1024 := by decide
  exact hall cls h

theorem size_classAlloc {d : DramHeap} {cls total : Nat} {heap : Option Nat} {p size : Nat}
    (h : (d.classAlloc cls total heap).2 = some (p, size)) :
    size = if cls < dramNClasses then classCap cls else total := by
  have hheap : ∀ n, heap.map (·, n) = some (p, size) → size = n := by
    intro n hn
    obtain ⟨q, -, hq⟩ := Option.map_eq_some_iff.1 hn
    exact (Prod.mk.inj hq).2.symm
  unfold DramHeap.classAlloc at h
  split at h
  · rename_i hcls
    rw [if_pos hcls]
    split at h
    · exact (Prod.mk.inj (Option.some.inj h)).2.symm
    · split at h
      · exact (Prod.mk.inj (Option.some.inj h)).2.symm
      · exact hheap _ h
  · rename_i hcls
    rw [if_neg hcls]
    exact hheap _ h

/-- The block of an entry has room for its header, its records and its payload, and the entry is
charged for just these, iff its size is less than 2^32. -/
theorem entry_fits_iff {d : DramHeap} {r : ReadResult} {heap : Option Nat} {p size : Nat}
    (hblock : d.putBlock r heap = some (p, size)) :
    (dramEntrySize + r.recs.length * dramRecSize + r.buf.length ≤ size ↔
      dramEntrySize + r.recs.length * dramRecSize + r.buf.length < 2 ^ 32) ∧
    (entryTotal r = dramEntrySize + r.recs.length * dramRecSize + r.buf.length ↔
      dramEntrySize + r.recs.length * dramRecSize + r.buf.length < 2 ^ 32) := by
  have hwrap : entryTotal r < 2 ^ 32 := Nat.mod_lt _ (by decide)
  have hsmall : entrySize r < 2 ^ 32 → entryTotal r = entrySize r := Nat.mod_eq_of_lt
  -- a block has room for the size that was asked for, but less than 2^32 bytes
  have hroom : entryTotal r ≤ size ∧ size < 2 ^ 32 := by
    rw [size_classAlloc hblock]
    split
    · rename_i hcls
      have hle := classCap_le hcls
      exact ⟨le_classCap_pickClass hcls, by omega⟩
    · exact ⟨le_refl _, hwrap⟩
  change (entrySize r ≤ size ↔ entrySize r < 2 ^ 32) ∧ (entryTotal r = entrySize r ↔ entrySize r < 2 ^ 32)
  refine ⟨⟨fun hle => by omega, fun hlt => ?_⟩, ⟨fun heq => heq ▸ hwrap, hsmall⟩⟩
  rw [← hsmall hlt]
  exact hroom.1

/-- One byte and no record take 57 bytes of a block of 4 KiB. -/
theorem entry_fits_byte :
    57 ≤ 4096 ∧ (DramHeap.mk 4096 8192 0 fun _ => []).putBlock ⟨[7], []⟩ none = some (4096, 4096) ∧
      entryTotal ⟨[7], []⟩ = 57 := by
  have hblock : (DramHeap.mk 4096 8192 0 fun _ => []).putBlock ⟨[7], []⟩ none =
      some (4096, 4096) := rfl
  have hfits := entry_fits_iff hblock
  exact ⟨hfits.1.2 (by decide), hblock, hfits.2.2 (by decide)⟩

/-- The entry of a payload of 2^32 - 64 bytes with one record is charged for four bytes. The put is
admitted and gets a block of 4 KiB, into which more than 4 GiB are copied. -/
theorem wrapping_entry_overflows :
    ∃ (c : DramCache) (r : ReadResult) (p size : Nat), dramInit (1024 * 1024) 0 = some c ∧
      r.buf.length < 2 ^ 32 ∧ r.recs.length < 2 ^ 16 ∧ c.Admits r ∧
      (DramHeap.mk 4096 (1024 * 1024) 0 fun _ => []).putBlock r none = some (p, size) ∧
      size < dramEntrySize + r.recs.length * dramRecSize + r.buf.length ∧
      entryTotal r < dramEntrySize + r.recs.length * dramRecSize + r.buf.length := by
  obtain ⟨r, hbuf, hrecs⟩ : ∃ r : ReadResult, r.buf.length = 4294967232 ∧ r.recs.length = 1 :=
    ⟨⟨List.replicate 4294967232 0, [⟨0, 0, 0⟩]⟩, List.length_replicate, rfl⟩
  have hsize : entrySize r = 4294967300 := by rw [entrySize, hbuf, hrecs, dramEntrySize, dramRecSize]
  have htotal : entryTotal r = 4 := by
    rw [entryTotal, hsize]
    decide
  obtain ⟨c, hc⟩ : ∃ c, dramInit (1024 * 1024) 0 = some c := ⟨_, rfl⟩
  have hadmits : c.Admits r := by
    unfold DramCache.Admits
    rw [htotal, hbuf]
    cases hc
    decide
  refine ⟨c, r, 4096, 4096, hc, by omega, by omega, hadmits, ?_, ?_, ?_⟩
  · rw [DramHeap.putBlock, htotal]
    rfl
  · rw [hbuf]
    omega
  · rw [htotal, hbuf]
    omega

end KvTier.Analysis
