import KvTier.Lib.Runs
import KvTier.Lib.TwoSlot
import KvTier.Model.Superblock

/-!
# A device never loses its superblock

Pages 0 and 1 of a device are a two-slot register (`KvTier.Lib.TwoSlot`) whose values are
superblocks and whose epochs are `cur_epoch`.
-/

namespace KvTier.Analysis

open Function KvTier.Lib KvTier.Model

/-! ## Pages -/

theorem sbCrc_crc32 (sb : Superblock) (c : UInt32) : sbCrc { sb with crc32 := c } = sbCrc sb := by
  -- The layout: four bytes of magic, four of checksum, and the rest.
  obtain ⟨rest, hrest⟩ : ∃ rest : List UInt8, ∀ c : UInt32,
      Superblock.codec.enc { sb with crc32 := c } =
        Codec.u32.enc sb.magic ++ (Codec.u32.enc c ++ rest) :=
    ⟨(Codec.pair .u64 <| .pair .u16 <| .pair .u16 <| .pair .u32 <| .pair .u64 <| .pair .u64 <|
        .pair .u64 <| .pair .u64 <| .pair .u64 (.bytes 448)).enc
      (sb.fmtTs, sb.devId, sb.version, sb.regionCnt, sb.regionSizePages, sb.regionBasePage,
        sb.journalPage, sb.journalPages, sb.curEpoch, sb.pad), fun _ => rfl⟩
  have hword : ∀ c : UInt32, (Codec.u32.enc c).length = 4 := fun c => Codec.length_enc _ _
  have htake : ∀ c, (Codec.u32.enc sb.magic ++ (Codec.u32.enc c ++ rest)).take 4 =
      Codec.u32.enc sb.magic := fun c => List.take_left' (hword _)
  have hdrop : ∀ c, (Codec.u32.enc sb.magic ++ (Codec.u32.enc c ++ rest)).drop 8 = rest := by
    intro c
    rw [← List.append_assoc]
    exact List.drop_left' (by rw [List.length_append, hword, hword])
  simp only [sbCrc, hrest, htake, hdrop]

theorem sbOfPage_sbPage (a : SbArgs) (epoch : UInt64) :
    sbOfPage (sbPage (mkSuperblock a epoch)) = some (mkSuperblock a epoch) := by
  have hdec : Superblock.codec.dec (sbPage (mkSuperblock a epoch)) = mkSuperblock a epoch :=
    Codec.dec_enc _ _ _
  have hmagic : (mkSuperblock a epoch).magic = sbMagic := rfl
  have hcrc : sbCrc (mkSuperblock a epoch) = (mkSuperblock a epoch).crc32 := sbCrc_crc32 _ _
  simp only [sbOfPage, hdec, hmagic, hcrc, and_self, if_true]

/-- The epoch of a superblock. -/
def sbEpoch (sb : Superblock) : Nat := sb.curEpoch.toNat

/-- What the two pages hold. -/
def sbSlots (dev : Nat → List UInt8) (i : Nat) : Option Superblock := sbOfPage (dev i)

theorem sbSlots_update (dev : Nat → List UInt8) (i : Nat) (page : List UInt8) :
    sbSlots (update dev i page) = update (sbSlots dev) i (sbOfPage page) := by
  funext j
  by_cases hj : j = i
  · subst hj
    simp only [sbSlots, update_self]
  · simp only [sbSlots, update_of_ne hj]

theorem sbDst_eq (epoch : UInt64) : sbDst epoch = epoch.toNat % 2 := by
  have hmod : (epoch % 2).toNat = epoch.toNat % 2 := UInt64.toNat_mod epoch 2
  have hzero : epoch % 2 = 0 ↔ epoch.toNat % 2 = 0 := by
    rw [← UInt64.toNat_inj, hmod]
    rfl
  simp only [sbDst, hzero]
  split <;> omega

theorem sbLoad_eq_pick {dev : Nat → List UInt8}
    (hne : ∀ x y, sbSlots dev 0 = some x → sbSlots dev 1 = some y → sbEpoch x ≠ sbEpoch y) :
    sbLoad dev = TwoSlot.pick sbEpoch (sbSlots dev 0) (sbSlots dev 1) := by
  have h0 : sbOfPage (dev 0) = sbSlots dev 0 := rfl
  have h1 : sbOfPage (dev 1) = sbSlots dev 1 := rfl
  rw [sbLoad, h0, h1]
  cases hx : sbSlots dev 0 with
  | none => rfl
  | some x =>
    cases hy : sbSlots dev 1 with
    | none => rfl
    | some y =>
      have hepoch := hne x y hx hy
      have htie : ¬ y.curEpoch = x.curEpoch := fun he => hepoch (congrArg UInt64.toNat he.symm)
      simp only [TwoSlot.pick, htie, false_and, or_false, UInt64.lt_iff_toNat_lt, sbEpoch]
      rfl

/-! ## Runs -/

/-- The copy written last is the newest on the device, with the epoch of the counter. -/
structure SbOk (s : SbDevice) : Prop where
  newest : TwoSlot.Newest sbEpoch (sbSlots s.dev) s.last
  counter : ∀ e, s.epochCounter = some e → ∃ sb, s.last = some sb ∧ sb.curEpoch = e

theorem SbOk.sbLoad_eq {s : SbDevice} (h : SbOk s) : sbLoad s.dev = s.last := by
  rw [sbLoad_eq_pick fun x y hx hy => h.newest.ne hx hy]
  exact h.newest.pick

theorem toNat_succ {e : UInt64} (h : e.toNat + 1 < 2 ^ 64) : (e + 1).toNat = e.toNat + 1 := by
  rw [UInt64.toNat_add]
  exact Nat.mod_eq_of_lt h

theorem SbOk.sbWrite {s : SbDevice} {a : SbArgs} {e : UInt64}
    (h : TwoSlot.Newest sbEpoch
      (update (sbSlots s.dev) (e.toNat % 2) (some (mkSuperblock a e)))
      (some (mkSuperblock a e))) : SbOk (s.sbWrite a e) := by
  refine ⟨?_, ?_⟩
  · simp only [SbDevice.sbWrite, sbSlots_update, sbOfPage_sbPage, sbDst_eq]
    exact h
  · rintro e' he'
    exact ⟨_, rfl, Option.some.inj he'⟩

theorem SbOk.sbTorn {s : SbDevice} {e : UInt64} {page : List UInt8} (hpage : sbOfPage page = none)
    (h : TwoSlot.Newest sbEpoch (update (sbSlots s.dev) (e.toNat % 2) none) s.last) :
    SbOk (s.sbTorn e page) := by
  refine ⟨?_, ?_⟩
  · simp only [SbDevice.sbTorn, sbSlots_update, hpage, sbDst_eq]
    exact h
  · rintro e' he'
    cases he'

theorem SbOk.step {s s' : SbDevice} {l : SbLabel} (h : SbOk s) (hok : s.noWrap l)
    (hs : s.step l = some s') : SbOk s' := by
  cases l with
  | format e a =>
    simp only [SbDevice.step] at hs
    split at hs
    · rename_i hc
      cases hs
      -- No superblock is found, so none was ever completed.
      have hnone : s.last = none := by rw [← h.sbLoad_eq]; exact hc.2
      have hnew := h.newest
      rw [hnone] at hnew
      exact .sbWrite (hnew.first (mkSuperblock a e))
    · cases hs
  | formatTorn e page =>
    simp only [SbDevice.step] at hs
    split at hs
    · rename_i hc
      cases hs
      have hnone : s.last = none := by rw [← h.sbLoad_eq]; exact hc.2.1
      have hnew := h.newest
      rw [hnone] at hnew
      refine .sbTorn hc.2.2 ?_
      rw [hnone]
      exact hnew.tearFirst _
    · cases hs
  | load =>
    simp only [SbDevice.step] at hs
    split at hs
    · rename_i sb hrun hload
      cases hs
      refine ⟨h.newest, ?_⟩
      rintro e he
      refine ⟨sb, ?_, Option.some.inj he⟩
      rw [← h.sbLoad_eq]
      exact hload
    · cases hs
  | write a =>
    simp only [SbDevice.step, Option.map_eq_some_iff] at hs
    obtain ⟨e, he, rfl⟩ := hs
    obtain ⟨sb, hlast, rfl⟩ := h.counter e he
    have hnew := h.newest
    rw [hlast] at hnew
    exact .sbWrite (hnew.write (y := mkSuperblock a (sb.curEpoch + 1)) (toNat_succ (hok _ he)))
  | writeTorn page =>
    simp only [SbDevice.step] at hs
    split at hs
    · rename_i hpage
      obtain ⟨e, he, rfl⟩ := Option.map_eq_some_iff.1 hs
      obtain ⟨sb, hlast, rfl⟩ := h.counter e he
      have hnew := h.newest
      rw [hlast] at hnew
      refine .sbTorn hpage ?_
      rw [hlast]
      exact hnew.tear (toNat_succ (hok _ he))
    · cases hs
  | stop =>
    cases hs
    exact ⟨h.newest, fun e he => by cases he⟩

theorem sbLast_isSome {s s' : SbDevice} {l : SbLabel} (h : s.last.isSome)
    (hs : s.step l = some s') : s'.last.isSome := by
  cases l with
  | format e a =>
    simp only [SbDevice.step] at hs
    split at hs <;> cases hs
    rfl
  | formatTorn e page | load =>
    simp only [SbDevice.step] at hs
    split at hs <;> cases hs
    exact h
  | write a =>
    obtain ⟨e, -, rfl⟩ := Option.map_eq_some_iff.1 hs
    rfl
  | writeTorn page =>
    simp only [SbDevice.step] at hs
    split at hs
    · obtain ⟨e, -, rfl⟩ := Option.map_eq_some_iff.1 hs
      exact h
    · cases hs
  | stop =>
    cases hs
    exact h

/-- Through every history of formats, rotations, recoveries and torn writes of a device that had no
superblock, `sb_load` returns the last complete one, and once there is one there always is. -/
theorem superblock_double_write {dev : Nat → List UInt8} {s s' : SbDevice} {ls ls' : List SbLabel}
    (hfresh : sbOfPage (dev 0) = none ∧ sbOfPage (dev 1) = none)
    (hrun : RunOf SbDevice.step SbDevice.noWrap (.fresh dev) ls s)
    (hrest : RunOf SbDevice.step SbDevice.noWrap s ls' s') :
    sbLoad s'.dev = s'.last ∧ (s.last.isSome → (sbLoad s'.dev).isSome) := by
  have hstart : SbOk (.fresh dev) := ⟨hfresh, fun e he => by cases he⟩
  have hend : SbOk s' := (hrun.append hrest).invariant SbOk (fun _ _ _ h hok hs => h.step hok hs) hstart
  refine ⟨hend.sbLoad_eq, fun hsome => ?_⟩
  rw [hend.sbLoad_eq]
  exact hrest.invariant (fun s => s.last.isSome) (fun _ _ _ h _ hs => sbLast_isSome h hs) hsome

/-- A format, a rotation, and a rotation that is torn. -/
theorem superblock_double_write_tornRotation :
    ∃ s s' : SbDevice, s.last = some (mkSuperblock ⟨7, 0, 6, 64⟩ 1) ∧
      SbDevice.step s (.writeTorn []) = some s' ∧
      sbLoad s'.dev = some (mkSuperblock ⟨7, 0, 6, 64⟩ 1) := by
  have hblank : sbOfPage [] = none := by
    have hmagic : (Superblock.codec.dec []).magic ≠ sbMagic := by decide
    simp only [sbOfPage, hmagic, false_and, if_false]
  have hload : sbLoad (fun _ => []) = none := by simp only [sbLoad, hblank]
  have hformat : SbDevice.step (.fresh fun _ => []) (.format 0 ⟨7, 0, 6, 64⟩) =
      some (SbDevice.sbWrite (.fresh fun _ => []) ⟨7, 0, 6, 64⟩ 0) := by
    simp only [SbDevice.step, SbDevice.fresh, hload, and_self, if_true]
  have htorn : ∀ s : SbDevice, ∀ e, s.epochCounter = some e →
      s.step (.writeTorn []) = some (s.sbTorn (e + 1) []) := by
    intro s e he
    simp only [SbDevice.step, hblank, he, if_true, Option.map_some]
  refine ⟨((SbDevice.fresh fun _ => []).sbWrite ⟨7, 0, 6, 64⟩ 0).sbWrite ⟨7, 0, 6, 64⟩ 1,
    _, rfl, htorn _ 1 rfl, ?_⟩
  have hwrap : ∀ e : UInt64, e.toNat + 1 < 2 ^ 64 → ∀ s : SbDevice, s.epochCounter = some e →
      ∀ l, s.noWrap l := by
    rintro e he s hs l e' he'
    rw [hs, Option.some.injEq] at he'
    subst he'
    exact he
  exact (superblock_double_write ⟨hblank, hblank⟩
    (.cons (fun e he => by cases he) hformat
      (.cons (l := .write ⟨7, 0, 6, 64⟩) (hwrap 0 (by decide) _ rfl _) rfl (.nil _)))
    (.cons (hwrap 1 (by decide) _ rfl _) (htorn _ 1 rfl) (.nil _))).1

end KvTier.Analysis
