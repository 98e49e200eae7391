import KvTier.Analysis.BatchLayout
import KvTier.Analysis.LeafRules

/-!
# Reading a leaf from its replicas

A leaf that is not striped has two address slots, each the address of a published replica or the
sentinel `KV_INVALID_DEV`, and the device of a replica is one of the cache: this holds in every
state of every history of sessions (`slotsInRange`).
-/

namespace KvTier.Analysis

open KvTier.Lib KvTier.Model List

/-! ## The slots of a leaf -/

/-- A slot is empty, or names a device of the cache. -/
def SlotInRange (nDevs : Nat) (a : KvAddr) : Prop := a.devId = invalidDev ∨ a.devId < nDevs

/-- The slots of a leaf that is not striped. -/
def SlotsInRange (nDevs : Nat) (_g : Nat) (lf : RadixLeaf) : Prop :=
  lf.stripe = none → SlotInRange nDevs lf.addr0 ∧ SlotInRange nDevs lf.addr1

theorem SlotInRange.setAddr {n : Nat} {lf : RadixLeaf} {a : KvAddr} (ha : a.devId < n)
    (h0 : SlotInRange n lf.addr0) (h1 : SlotInRange n lf.addr1) (slot : Nat) :
    SlotInRange n (lf.setAddr slot a).addr0 ∧ SlotInRange n (lf.setAddr slot a).addr1 := by
  unfold RadixLeaf.setAddr
  split
  · exact ⟨.inr ha, h1⟩
  · exact ⟨h0, .inr ha⟩

theorem slotsInRange : LeafRule SlotsInRange
    (fun n a => a.flags.stripe = false → a.addr.devId < n) (fun d r => r.addrDev = d) where
  publish := by
    intro n old a lf ha hold hl
    have hc := leafPublish_cases old a
    generalize leafPublish old a = res at hl hc
    cases hc with
    | rejected lf0 hlf0 _ => exact hold lf hl
    | newStripe | addPart => cases hl; exact fun h => by cases h
    | newPlain hs _ =>
      cases hl
      exact fun _ => SlotInRange.setAddr (ha hs) (.inl rfl) (.inl rfl) _
    | addReplica lf0 hs hlf0 _ _ =>
      cases hl
      intro hplain
      have hplain0 : lf0.stripe = none := by
        rw [← stripe_setAddr lf0 a.slot a.addr]
        exact hplain
      obtain ⟨h0, h1⟩ := hold lf0 hlf0 hplain0
      exact SlotInRange.setAddr (ha hs) h0 h1 a.slot
  replay := by
    intro n d r a hd _ hr hof hs
    cases hof with
    | plain shape _ =>
      have haddr : (replayArgs r shape).addr.devId = r.addrDev := rfl
      rw [haddr, hr]
      exact hd
    | part => cases hs
  reload := by
    intro n g shapes lf h
    exact h

theorem SessionRun.slotsInRange {cfg : Config} {ls : List SessionLabel} {s : Session}
    (hcfg : ConfigOk cfg) (hrun : SessionRun cfg ls s) :
    LeavesAll (SlotsInRange s.store.cfg.nDevs) s.store.idx := by
  have hinv := RunOf.invariant
    (fun s : Session => SessionOk s.store ∧ LeavesOk SlotsInRange (fun d r => r.addrDev = d) s.store)
    (fun s l s' h hl hs => by
      refine ⟨h.1.session_step hl hs, Analysis.slotsInRange.session_step h.1 h.2 hl ?_ hs⟩
      rintro l' rfl
      cases l' with
      | publish i page crc now =>
        intro r hr
        exact ⟨fun _ => (h.1.reqs r (mem_of_getElem? hr)).dev, fun _ => rfl⟩
      | _ => trivial)
    hrun ⟨SessionOk.format hcfg, LeavesOk.format cfg⟩
  exact hinv.2.leaves

/-! ## Chunks -/

/-- The pages of the address hold the image, with its checksum. -/
structure PassesCheck (disk : Disk) (a : KvAddr) (img : List UInt8) : Prop where
  holds : PagesHold disk a.devId a.pageNo img
  length : img.length = a.lenPages * pageSize
  pages : a.lenPages ≠ 0
  crc : (crc32 img).toNat = a.crc

theorem window_of_agree {buf : Buf} {img : List UInt8} (h : ∀ i, i < img.length → buf i = img.getD i 0)
    {n : Nat} (hn : n ≤ img.length) : window buf n = img.take n := by
  apply ext_getElem
  · rw [length_window, length_take, Nat.min_eq_left hn]
  intro i h1 h2
  rw [length_window] at h1
  have hi : i < img.length := Nat.lt_of_lt_of_le h1 hn
  simp only [window, getElem_map, getElem_range, getElem_take]
  rw [h i hi, List.getD_eq_getElem?_getD, List.getElem?_eq_getElem hi]
  rfl

section Chunk

variable {cfg : Config} {disk : Disk} {a : KvAddr} {img : List UInt8}

/-- A chunk that passes its check is read. -/
theorem cacheReadChunk_eq (hdev : a.devId < cfg.nDevs) (h : PassesCheck disk a img) (fresh : Buf) :
    ∃ buf, cacheReadChunk cfg disk fresh a = .ok buf ∧
      (∀ i, i < img.length → buf i = img.getD i 0) ∧ ∀ i, img.length ≤ i → buf i = fresh i := by
  obtain ⟨f, hf⟩ : ∃ f : Buf, ∀ i, f i = img.getD i 0 := ⟨_, fun _ => rfl⟩
  have hpages : ∀ k, k < a.lenPages → ∃ b, disk a.devId (a.pageNo + k) = some b ∧
      ∀ j, j < pageSize → b j = f (k * pageSize + j) := by
    intro k hk
    obtain ⟨b, hb, hbytes⟩ := h.holds k (by rw [h.length]; exact Nat.mul_le_mul_right _ hk)
    exact ⟨b, hb, fun j hj => (hbytes j hj).trans (hf _).symm⟩
  have hread := cacheSyncRead_eq hpages fresh
  have hagree : ∀ i, i < img.length → filled f fresh (a.lenPages * pageSize) i = img.getD i 0 := by
    intro i hi
    rw [filled, if_pos (by rw [← h.length]; exact hi), hf]
  have hrest : ∀ i, img.length ≤ i → filled f fresh (a.lenPages * pageSize) i = fresh i := by
    intro i hi
    rw [filled, if_neg (by rw [← h.length]; omega)]
  generalize filled f fresh (a.lenPages * pageSize) = buf at hread hagree hrest
  have hvalid : pagesValidate buf a.lenPages a.crc = true := by
    rw [pagesValidate, decide_eq_true_iff, pagesCrc, ← h.length,
      window_of_agree hagree (Nat.le_refl _), take_length]
    exact ⟨h.pages, h.crc⟩
  refine ⟨buf, ?_, hagree, hrest⟩
  simp only [cacheReadChunk, if_neg (Nat.not_le.2 hdev), hread, hvalid, if_true]

/-- A chunk that is read passes its check. -/
theorem PassesCheck.of_read {fresh buf : Buf} (h : cacheReadChunk cfg disk fresh a = .ok buf) :
    PassesCheck disk a (window buf (a.lenPages * pageSize)) := by
  unfold cacheReadChunk at h
  split at h
  · cases h
  split at h
  · cases h
  rename_i buf' hread
  split at h
  · rename_i hvalid
    cases h
    rw [pagesValidate, decide_eq_true_iff] at hvalid
    refine ⟨?_, length_window _ _, hvalid.1, hvalid.2⟩
    unfold cacheSyncRead at hread
    split at hread
    · rename_i hall
      cases hread
      intro k hk
      rw [length_window] at hk
      have hkn : k < a.lenPages := Nat.le_of_mul_le_mul_right hk (by decide)
      have hsome := all_eq_true.1 hall k (mem_range.2 hkn)
      obtain ⟨b, hb⟩ := Option.isSome_iff_exists.1 hsome
      refine ⟨b, hb, fun j hj => ?_⟩
      have hidx : k * pageSize + j < a.lenPages * pageSize := by
        rw [Nat.add_one_mul] at hk
        omega
      have hdiv : (k * pageSize + j) / pageSize = k := by
        rw [Nat.mul_comm, Nat.mul_add_div (by decide), Nat.div_eq_of_lt hj, Nat.add_zero]
      have hmod : (k * pageSize + j) % pageSize = j := by
        rw [Nat.mul_comm, Nat.mul_add_mod, Nat.mod_eq_of_lt hj]
      rw [List.getD_eq_getElem?_getD, List.getElem?_eq_getElem (by rw [length_window]; exact hidx)]
      simp [window, hidx, hdiv, hmod, hb]
    · cases hread
  · cases h

theorem PassesCheck.unique {img' : List UInt8} (h : PassesCheck disk a img)
    (h' : PassesCheck disk a img') : img = img' := by
  apply ext_getElem
  · rw [h.length, h'.length]
  intro i h1 h2
  have hk : (i / pageSize + 1) * pageSize ≤ img.length := by
    rw [h.length] at h1 ⊢
    exact Nat.mul_le_mul_right _ (Nat.div_lt_of_lt_mul (by rw [Nat.mul_comm]; exact h1))
  have hk' : (i / pageSize + 1) * pageSize ≤ img'.length := by
    rw [h'.length, ← h.length]
    exact hk
  obtain ⟨b, hb, hbytes⟩ := h.holds _ hk
  obtain ⟨b', hb', hbytes'⟩ := h'.holds _ hk'
  rw [hb, Option.some.injEq] at hb'
  subst hb'
  have hj : i % pageSize < pageSize := Nat.mod_lt _ (by decide)
  have hi : i / pageSize * pageSize + i % pageSize = i := Nat.div_add_mod' i pageSize
  have heq := (hbytes _ hj).symm.trans (hbytes' _ hj)
  rw [hi, List.getD_eq_getElem?_getD, List.getD_eq_getElem?_getD, List.getElem?_eq_getElem h1,
    List.getElem?_eq_getElem h2] at heq
  exact heq

end Chunk

/-! ## Leaves -/

section Leaf

variable {cfg : Config} {disk : Disk} {lf : RadixLeaf} {sh : Shape}

theorem cacheReadChunk_error {a : KvAddr} (hdev : a.devId < cfg.nDevs)
    (h : ∀ img, ¬ PassesCheck disk a img) (fresh : Buf) :
    ∃ e, cacheReadChunk cfg disk fresh a = .error e ∧ e ≠ .badDevice := by
  cases hread : cacheReadChunk cfg disk fresh a with
  | ok buf => exact absurd (PassesCheck.of_read hread) (h _)
  | error e =>
    refine ⟨e, rfl, ?_⟩
    rintro rfl
    unfold cacheReadChunk at hread
    rw [if_neg (Nat.not_le.2 hdev)] at hread
    split at hread
    · cases hread
    · split at hread <;> cases hread

theorem readLeaf_plain (hplain : lf.stripe = none) (hshape : lf.shape = some sh) (m : ReadMem) :
    readLeaf cfg disk m lf =
      (readReplicas cfg disk m lf).map fun buf => ⟨buf, shapeRecs 0 0 (sh.lens.take maxLayersCap)⟩ := by
  simp only [readLeaf, hplain, hshape, shapeFill]
  cases readReplicas cfg disk m lf <;> rfl

theorem readReplicas_badDevice (h : cfg.nDevs ≤ lf.addr0.devId) (m : ReadMem) :
    readReplicas cfg disk m lf = .error .badDevice := by
  have hfirst : cacheReadChunk cfg disk m.stream lf.addr0 = .error .badDevice := if_pos h
  simp only [readReplicas, hfirst]
  rfl

theorem readReplicas_first (hdev : lf.addr0.devId < cfg.nDevs) {img : List UInt8}
    (h : PassesCheck disk lf.addr0 img) (m : ReadMem) :
    ∃ buf, readReplicas cfg disk m lf = .ok (window buf (shapeTotal lf.shape)) ∧
      (∀ i, i < img.length → buf i = img.getD i 0) ∧ ∀ i, img.length ≤ i → buf i = m.stream i := by
  obtain ⟨buf, hread, hagree, hrest⟩ := cacheReadChunk_eq hdev h m.stream
  refine ⟨buf, ?_, hagree, hrest⟩
  simp only [readReplicas, hread]
  rfl

theorem readReplicas_second (hdev : lf.addr0.devId < cfg.nDevs)
    (h : ∀ img, ¬ PassesCheck disk lf.addr0 img) (m : ReadMem) :
    (∃ e, readReplicas cfg disk m lf = .error e ∧ e ≠ .badDevice ∧ lf.addr1.devId = invalidDev) ∨
    (lf.addr1.devId ≠ invalidDev ∧ readReplicas cfg disk m lf =
      (cacheReadChunk cfg disk m.tmp lf.addr1).map fun buf => window buf (shapeTotal lf.shape)) := by
  obtain ⟨e, he, hne⟩ := cacheReadChunk_error hdev h m.stream
  by_cases h1 : lf.addr1.devId = invalidDev
  · refine .inl ⟨e, ?_, hne, h1⟩
    cases e with
    | badDevice => exact absurd rfl hne
    | eread | ecrc => simp only [readReplicas, he, h1, ne_eq, not_true, if_false]; rfl
  refine .inr ⟨h1, ?_⟩
  cases e with
  | badDevice => exact absurd rfl hne
  | eread | ecrc => simp only [readReplicas, he, h1, ne_eq, not_false_iff, if_true]

theorem readReplicas_ne_badDevice (h0 : lf.addr0.devId < cfg.nDevs)
    (h1 : SlotInRange cfg.nDevs lf.addr1) (m : ReadMem) :
    readReplicas cfg disk m lf ≠ .error .badDevice := by
  by_cases hpass : ∃ img, PassesCheck disk lf.addr0 img
  · obtain ⟨img, himg⟩ := hpass
    obtain ⟨buf, hread, -⟩ := readReplicas_first h0 himg m
    rw [hread]
    exact fun hc => by cases hc
  have hno : ∀ img, ¬ PassesCheck disk lf.addr0 img := fun img himg => hpass ⟨img, himg⟩
  rcases readReplicas_second h0 hno m with ⟨e, hread, hne, -⟩ | ⟨hpub, hread⟩
  · rw [hread]
    exact fun hc => hne (by cases hc; rfl)
  have hdev1 : lf.addr1.devId < cfg.nDevs := h1.resolve_left hpub
  rw [hread]
  by_cases hpass1 : ∃ img, PassesCheck disk lf.addr1 img
  · obtain ⟨img, himg⟩ := hpass1
    obtain ⟨buf, hbuf, -⟩ := cacheReadChunk_eq hdev1 himg m.tmp
    rw [hbuf]
    exact fun hc => by cases hc
  · obtain ⟨e, he, hne⟩ := cacheReadChunk_error hdev1 (fun img himg => hpass1 ⟨img, himg⟩) m.tmp
    rw [he]
    exact fun hc => hne (by cases hc; rfl)

/-- If slot 0 does not pass for other bytes, a read returns the image of the published slot. -/
theorem readReplicas_eq (h0 : lf.addr0.devId < cfg.nDevs) (h1 : SlotInRange cfg.nDevs lf.addr1)
    {k : Nat} {img : List UInt8} (hpub : (lf.addr k).devId ≠ invalidDev)
    (himg : PassesCheck disk (lf.addr k) img) (hlen : shapeTotal lf.shape ≤ img.length)
    (hfirst : ∀ img0, PassesCheck disk lf.addr0 img0 →
      img0.take (shapeTotal lf.shape) = img.take (shapeTotal lf.shape)) (m : ReadMem) :
    readReplicas cfg disk m lf = .ok (img.take (shapeTotal lf.shape)) := by
  by_cases hpass : ∃ img0, PassesCheck disk lf.addr0 img0
  · obtain ⟨img0, himg0⟩ := hpass
    obtain ⟨buf, hread, hagree, -⟩ := readReplicas_first h0 himg0 m
    have hsame := hfirst img0 himg0
    have hlen0 : shapeTotal lf.shape ≤ img0.length := by
      have hl := congrArg List.length hsame
      rw [length_take, length_take, Nat.min_eq_left hlen] at hl
      omega
    rw [hread, window_of_agree hagree hlen0, hsame]
  have hno : ∀ img, ¬ PassesCheck disk lf.addr0 img := fun img himg => hpass ⟨img, himg⟩
  -- Then the replica that is there is the one in slot 1.
  have hk : k ≠ 0 := by
    rintro rfl
    exact hno img himg
  have haddr : lf.addr k = lf.addr1 := if_neg hk
  rw [haddr] at hpub himg
  rcases readReplicas_second h0 hno m with ⟨e, -, -, hinv⟩ | ⟨-, hread⟩
  · exact absurd hinv hpub
  · obtain ⟨buf, hbuf, hagree, -⟩ := cacheReadChunk_eq (h1.resolve_left hpub) himg m.tmp
    rw [hread, hbuf]
    simp only [Except.map, window_of_agree hagree hlen]

theorem take_eq_of_readReplicas (h0 : lf.addr0.devId < cfg.nDevs) {img img0 : List UInt8}
    (hlen : shapeTotal lf.shape ≤ img.length) (himg0 : PassesCheck disk lf.addr0 img0)
    (hread : ∀ m, readReplicas cfg disk m lf = .ok (img.take (shapeTotal lf.shape))) :
    img0.take (shapeTotal lf.shape) = img.take (shapeTotal lf.shape) := by
  by_cases hlen0 : shapeTotal lf.shape ≤ img0.length
  · obtain ⟨buf, hbuf, hagree, -⟩ := readReplicas_first h0 himg0 ⟨fun _ => 0, fun _ => 0⟩
    rw [hread, Except.ok.injEq] at hbuf
    rw [hbuf, window_of_agree hagree hlen0]
  -- Behind the pages stands what the allocation held: one byte more than the payload has.
  have hlt : img0.length < shapeTotal lf.shape := Nat.lt_of_not_le hlen0
  have hidx : img0.length < img.length := Nat.lt_of_lt_of_le hlt hlen
  obtain ⟨buf, hbuf, -, hrest⟩ := readReplicas_first h0 himg0
    ⟨fun _ => img.getD img0.length 0 + 1, fun _ => 0⟩
  rw [hread, Except.ok.injEq] at hbuf
  have hget := congrArg (fun l : List UInt8 => l.getD img0.length 0) hbuf
  simp only [List.getD_eq_getElem?_getD, List.getElem?_take, window, hlt, if_true,
    List.getElem?_map, List.getElem?_range, Option.map_some, Option.getD_some,
    hrest img0.length (Nat.le_refl _), List.getElem?_eq_getElem hidx] at hget
  have hne : ∀ b : UInt8, b + 1 ≠ b := by
    intro b hb
    have hnat : (b.toNat + 1) % 256 = b.toNat := congrArg UInt8.toNat hb
    omega
  exact absurd hget.symm (hne _)

end Leaf

/-- In every state of every history of sessions, a leaf with a replica that passes its check is read
as that replica's payload exactly when slot 0 is published and holds, if it passes its check, the
same payload; and the device array is never left exactly when slot 0 is published. -/
theorem replica_fallback_iff {cfg : Config} {ls : List SessionLabel} {s : Session}
    (hcfg : ConfigOk cfg) (hrun : SessionRun cfg ls s) {q : Path} {lf : RadixLeaf} {sh : Shape}
    (hleaf : s.store.idx.tree.leafAt q = some lf) (hplain : lf.stripe = none)
    (hshape : lf.shape = some sh) {disk : Disk} {k : Nat} {img : List UInt8}
    (hpub : (lf.addr k).devId ≠ invalidDev) (himg : PassesCheck disk (lf.addr k) img)
    (hlen : shapeTotal lf.shape ≤ img.length) :
    ((∀ m, readLeaf s.store.cfg disk m lf =
        .ok ⟨img.take (shapeTotal lf.shape), shapeRecs 0 0 (sh.lens.take maxLayersCap)⟩) ↔
      lf.addr0.devId ≠ invalidDev ∧ ∀ img0, PassesCheck disk lf.addr0 img0 →
        img0.take (shapeTotal lf.shape) = img.take (shapeTotal lf.shape)) ∧
    ((∀ m, readLeaf s.store.cfg disk m lf ≠ .error .badDevice) ↔ lf.addr0.devId ≠ invalidDev) := by
  obtain ⟨h0, h1⟩ := hrun.slotsInRange hcfg q lf hleaf hplain
  have hdevs : s.store.cfg.nDevs ≤ invalidDev := by
    have hint := (hrun.ok hcfg).cfg.devsInt
    have hinv : invalidDev = 2 ^ 32 - 1 := rfl
    omega
  have hread : ∀ m, readLeaf s.store.cfg disk m lf = (readReplicas s.store.cfg disk m lf).map
      fun buf => ⟨buf, shapeRecs 0 0 (sh.lens.take maxLayersCap)⟩ := readLeaf_plain hplain hshape
  have hinvalid : lf.addr0.devId = invalidDev → ∀ m,
      readReplicas s.store.cfg disk m lf = .error .badDevice := by
    intro hinv m
    exact readReplicas_badDevice (by rw [hinv]; exact hdevs) m
  refine ⟨⟨fun hok => ?_, fun hcond m => ?_⟩, fun hok hinv => ?_, fun hne m hbad => ?_⟩
  · -- What was read came through slot 0.
    have hok' : ∀ m, readReplicas s.store.cfg disk m lf = .ok (img.take (shapeTotal lf.shape)) := by
      intro m
      have hm := hok m
      rw [hread m] at hm
      cases hr : readReplicas s.store.cfg disk m lf with
      | error e => rw [hr] at hm; cases hm
      | ok buf => rw [hr] at hm; cases hm; rfl
    have hne : lf.addr0.devId ≠ invalidDev := by
      intro hinv
      have hm := hok' ⟨fun _ => 0, fun _ => 0⟩
      rw [hinvalid hinv] at hm
      cases hm
    exact ⟨hne, fun img0 himg0 =>
      take_eq_of_readReplicas (h0.resolve_left hne) hlen himg0 hok'⟩
  · rw [hread m, readReplicas_eq (h0.resolve_left hcond.1) h1 hpub himg hlen hcond.2 m]
    rfl
  · refine hok ⟨fun _ => 0, fun _ => 0⟩ ?_
    rw [hread, hinvalid hinv]
    rfl
  have hgood : readReplicas s.store.cfg disk m lf ≠ .error .badDevice :=
    readReplicas_ne_badDevice (h0.resolve_left hne) h1 m
  rw [hread m] at hbad
  cases hr : readReplicas s.store.cfg disk m lf with
  | ok buf => rw [hr] at hbad; cases hbad
  | error e =>
    rw [hr] at hbad hgood
    cases hbad
    exact hgood rfl

/-! ## A hot put of three bytes -/

/-- A page of zeros. -/
def zeroImage : List UInt8 := List.replicate pageSize 0

/-- Devices full of zeros. -/
def zeroDisk : Disk := fun _ _ => some fun _ => 0

def slotPublished (slot crc : Nat) : List SessionLabel :=
  [.op (.put ⟨0, 0, [1], 0, [3], true, 0⟩), .op (.publish slot 2 crc 0)]

theorem slot1_published (crc : Nat) : ∃ s lf, SessionRun twoDevs (slotPublished 1 crc) s ∧
    s.store.idx.tree.leafAt [1] = some lf ∧ lf.stripe = none ∧ lf.shape = some ⟨0, [3]⟩ ∧
    lf.addr0 = KvAddr.none ∧ lf.addr 1 = ⟨1, 2, 0, 1, 0, 0, crc⟩ :=
  ⟨_, _, .cons trivial rfl (.cons trivial rfl (.nil _)), rfl, rfl, rfl, rfl, rfl⟩

theorem both_published (crc : Nat) : ∃ s lf,
    SessionRun twoDevs (slotPublished 0 crc ++ [.op (.publish 0 2 crc 0)]) s ∧
    s.store.idx.tree.leafAt [1] = some lf ∧ lf.stripe = none ∧ lf.shape = some ⟨0, [3]⟩ ∧
    lf.addr0 = ⟨0, 2, 0, 1, 0, 0, crc⟩ ∧ lf.addr 1 = ⟨1, 2, 0, 1, 0, 0, crc⟩ :=
  ⟨_, _, .cons trivial rfl (.cons trivial rfl (.cons trivial rfl (.nil _))), rfl, rfl, rfl, rfl, rfl⟩

theorem getD_zeroImage (i : Nat) : zeroImage.getD i 0 = 0 := by
  simp only [zeroImage, List.getD_eq_getElem?_getD, List.getElem?_replicate]
  split <;> rfl

theorem passesCheck_zeros {disk : Disk} {a : KvAddr}
    (hdisk : disk a.devId a.pageNo = some fun _ => 0) (hlen : a.lenPages = 1)
    (hcrc : a.crc = (crc32 zeroImage).toNat) : PassesCheck disk a zeroImage := by
  have hlen1 : zeroImage.length = 1 * pageSize := by
    rw [zeroImage, length_replicate, Nat.one_mul]
  refine ⟨fun k hk => ?_, by rw [hlen1, hlen], by rw [hlen]; decide, hcrc.symm⟩
  have hk0 : k = 0 := by
    rw [hlen1] at hk
    have hle := Nat.le_of_mul_le_mul_right hk (show 0 < pageSize by decide)
    omega
  subst hk0
  exact ⟨fun _ => 0, hdisk, fun j hj => (getD_zeroImage _).symm⟩

theorem readLeaf_zeroPage {cfg : Config} (hcfg : ConfigOk cfg) {disk : Disk} {page now exp sh : Nat}
    (hdisk : disk 0 page = some fun _ => 0) {lf : RadixLeaf}
    (haddr : lf.addr0 = ⟨0, page, 0, 1, now, exp, (crc32 zeroImage).toNat⟩)
    (hnone : lf.addr1 = KvAddr.none) (hplain : lf.stripe = none)
    (hshape : lf.shape = some ⟨sh, [1]⟩) (m : ReadMem) :
    readLeaf cfg disk m lf = .ok ⟨[0], [⟨0, 0, 1⟩]⟩ := by
  have hpass : PassesCheck disk lf.addr0 zeroImage := by
    rw [haddr]
    exact passesCheck_zeros hdisk rfl rfl
  have hpub : (lf.addr 0).devId ≠ invalidDev := by
    rw [RadixLeaf.addr, if_pos rfl, haddr]
    exact show (0 : Nat) ≠ invalidDev by decide
  have hdev : lf.addr0.devId < cfg.nDevs := by rw [haddr]; exact hcfg.devs
  have hslot : SlotInRange cfg.nDevs lf.addr1 := by rw [hnone]; exact .inl rfl
  have hfit : shapeTotal lf.shape ≤ zeroImage.length := by
    rw [hshape, zeroImage, length_replicate]
    exact show [1].sum % 2 ^ 32 ≤ 4096 by decide
  rw [readLeaf_plain hplain hshape, readReplicas_eq hdev hslot hpub hpass hfit
    (fun img0 himg0 => by rw [himg0.unique hpass]), hshape]
  rfl

/-- With the first device unreadable, the payload is read from the second. -/
theorem replica_fallback_iff_second : ∃ s lf, SessionRun twoDevs
      (slotPublished 0 (crc32 zeroImage).toNat ++ [.op (.publish 0 2 (crc32 zeroImage).toNat 0)]) s ∧
    s.store.idx.tree.leafAt [1] = some lf ∧ ∀ m, readLeaf s.store.cfg
      (fun dev page => if dev = 0 then none else zeroDisk dev page) m lf =
        .ok ⟨[0, 0, 0], [⟨0, 0, 3⟩]⟩ := by
  obtain ⟨s, lf, hrun, hleaf, hplain, hshape, haddr0, haddr⟩ :=
    both_published (crc32 zeroImage).toNat
  have hpass : PassesCheck (fun dev page => if dev = 0 then none else zeroDisk dev page)
      (lf.addr 1) zeroImage :=
    passesCheck_zeros (by rw [haddr]; rfl) (by rw [haddr]) (by rw [haddr])
  have hlen : shapeTotal lf.shape ≤ zeroImage.length := by
    rw [hshape, zeroImage, length_replicate]
    decide
  refine ⟨s, lf, hrun, hleaf, ?_⟩
  have hiff := (replica_fallback_iff ⟨by decide, by decide, by decide⟩ hrun hleaf hplain hshape
    (k := 1) (by rw [haddr]; decide) hpass hlen).1
  rw [hshape] at hiff
  refine hiff.2 ⟨by rw [haddr0]; decide, fun img0 himg0 => ?_⟩
  have hone : (0 + 1) * pageSize ≤ img0.length := by rw [himg0.length, haddr0]
  obtain ⟨page, hpage, -⟩ := himg0.holds 0 hone
  rw [haddr0] at hpage
  cases hpage

/-- A put of which only slot 1 is published, with its pages as they were written, is read from
device number `KV_INVALID_DEV`. -/
theorem slot1_read_out_of_range : ∃ s lf, SessionRun twoDevs
      (slotPublished 1 (crc32 zeroImage).toNat) s ∧ s.store.idx.tree.leafAt [1] = some lf ∧
    lf.stripe = none ∧ (lf.addr 1).devId = 1 ∧ PassesCheck zeroDisk (lf.addr 1) zeroImage ∧
    ∀ m, readLeaf s.store.cfg zeroDisk m lf = .error .badDevice := by
  obtain ⟨s, lf, hrun, hleaf, hplain, hshape, hnone, haddr⟩ :=
    slot1_published (crc32 zeroImage).toNat
  have hpass : PassesCheck zeroDisk (lf.addr 1) zeroImage :=
    passesCheck_zeros rfl (by rw [haddr]) (by rw [haddr])
  refine ⟨s, lf, hrun, hleaf, hplain, by rw [haddr], hpass, fun m => ?_⟩
  have hdevs := (hrun.ok ⟨by decide, by decide, by decide⟩).cfg.devsInt
  have hinv : lf.addr0.devId = 2 ^ 32 - 1 := by
    rw [hnone]
    rfl
  rw [readLeaf_plain hplain hshape, readReplicas_badDevice (by omega)]
  rfl

end KvTier.Analysis
