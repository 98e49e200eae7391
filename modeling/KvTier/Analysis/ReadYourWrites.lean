import KvTier.Analysis.Coherence
import KvTier.Analysis.SingleRuns
import KvTier.Analysis.Versions
import KvTier.Model.Serving

/-!
# Reading one's own writes

A put is published at the node that the side table has for its prefix and group, and only a key
without a node gets the node of its token path; a get goes by the token path alone.
-/

namespace KvTier.Analysis

open KvTier.Lib KvTier.Model List Option

variable {l : Label} {lf : RadixLeaf} {now page : Nat} {r : PutReq}

/-! ## Gets that run alone -/

section Gets

variable {s : Reads}

/-- The leaf a get finds: there, and not expired. -/
def liveLeaf (s : Reads) (path : Path) (now : Nat) : Option RadixLeaf :=
  if path.length = 0 ∨ maxGroups < path.length then none
  else
    match s.sess.store.idx.tree.leafAt path with
    | none => none
    | some lf =>
      if lf.ver = 0 ∨ (lf.addr0.expireTs ≠ 0 ∧ lf.addr0.expireTs < now) then none else some lf

theorem leafAt_of_liveLeaf {path : Path} (h : liveLeaf s path now = some lf) :
    s.sess.store.idx.tree.leafAt path = some lf := by
  unfold liveLeaf at h
  split at h
  · cases h
  split at h
  · cases h
  split at h
  · cases h
  · cases h
    assumption

theorem pin_eq (hopen : s.sess.opening = none) (prefixId : UInt64) (path : Path) (now : Nat) :
    s.pin prefixId path now =
      match liveLeaf s path now with
      | none => some s
      | some lf => some { s with pins := s.pins ++ [⟨path, prefixId, lf, now, true, .pinned⟩] } := by
  rw [Reads.pin, if_neg (not_not.2 hopen), liveLeaf]
  by_cases hlen : path.length = 0 ∨ maxGroups < path.length
  · rw [if_pos hlen, if_pos hlen]
  rw [if_neg hlen, if_neg hlen]
  cases s.sess.store.idx.tree.leafAt path with
  | none => rfl
  | some lf =>
    by_cases hdead : lf.ver = 0 ∨ (lf.addr0.expireTs ≠ 0 ∧ lf.addr0.expireTs < now)
    · simp only [if_pos hdead]
    · simp only [if_neg hdead]

/-- The get returns a result, with this DRAM cache. -/
def answered (s : Reads) (lf : RadixLeaf) (now : Nat) (dram : Option DramCache) (r : ReadResult) :
    Reads :=
  { s with dram := dram, served := ⟨lf.ver, now, r⟩ :: s.served }

def readThrough (s : Reads) (lf : RadixLeaf) (k : DramKey) (now : Nat) (alloc : Bool) (disk : Disk)
    (m : ReadMem) : Option Reads :=
  match readLeaf s.sess.store.cfg disk m lf with
  | .error _ => some s
  | .ok r =>
    match s.dram with
    | none => some (answered s lf now none r)
    | some d => (d.put k lf.ver lf.addr0.expireTs r alloc).map fun d' =>
        answered s lf now (some d') r

/-- A get without another thread in between. -/
theorem cacheGet_eq (hopen : s.sess.opening = none) (hpins : s.pins = []) (prefixId : UInt64)
    (path : Path) (now : Nat) (alloc : Bool) (disk : Disk) (m : ReadMem) :
    s.cacheGet prefixId path now alloc disk m =
      match liveLeaf s path now with
      | none => some s
      | some lf =>
        match s.dram.map fun d => d.get (prefixId, groupOf path) lf.ver now alloc with
        | some (d', some r) => some (answered s lf now (some d') r)
        | _ => readThrough s lf (prefixId, groupOf path) now alloc disk m := by
  obtain ⟨sess, dram, pins, served⟩ := s
  subst hpins
  have hopen : sess.opening = none := hopen
  rw [Reads.cacheGet, pin_eq hopen]
  cases liveLeaf ⟨sess, dram, [], served⟩ path now with
  | none => simp
  | some lf =>
    -- The pin of this get is the only one.
    have hthrough : ∀ dram, ((Reads.ssdRead ⟨sess, dram,
          [⟨path, prefixId, lf, now, true, .missed⟩], served⟩ 0 disk m).bind fun s =>
        if s.pins.isEmpty then some s else s.backfill 0 alloc) =
        readThrough ⟨sess, dram, [], served⟩ lf (prefixId, groupOf path) now alloc disk m := by
      intro dram
      cases hread : readLeaf sess.store.cfg disk m lf with
      | error e => simp [Reads.ssdRead, readThrough, hread, Reads.finish]
      | ok r =>
        cases dram with
        | none =>
          simp [Reads.ssdRead, readThrough, hread, Reads.backfill, Reads.finish, answered]
        | some d =>
          simp [Reads.ssdRead, readThrough, hread, Reads.backfill, Reads.finish, answered, Pin.key]
    simp only [nil_append]
    cases dram with
    | none =>
      have hmiss : Reads.dramGet ⟨sess, none, [⟨path, prefixId, lf, now, true, .pinned⟩], served⟩ 0
          now alloc = some ⟨sess, none, [⟨path, prefixId, lf, now, true, .missed⟩], served⟩ := by
        simp [Reads.dramGet]
      simp only [bind_some, hmiss, isEmpty_cons, Bool.false_eq_true, if_false, hthrough, map_none]
    | some d =>
      rcases get_cases d (prefixId, groupOf path) lf.ver now alloc with hget | ⟨e, _, _, _, _, hget⟩
      · have hmiss : Reads.dramGet ⟨sess, some d, [⟨path, prefixId, lf, now, true, .pinned⟩], served⟩
            0 now alloc = some ⟨sess, some d, [⟨path, prefixId, lf, now, true, .missed⟩], served⟩ := by
          simp [Reads.dramGet, Pin.key, hget]
        simp only [bind_some, hmiss, isEmpty_cons, Bool.false_eq_true, if_false,
          hthrough, map_some, hget]
      · simp only [map_some, hget]
        simp [Reads.dramGet, Pin.key, hget, Reads.finish, answered]

end Gets

/-! ## Puts, their requests and their leaves -/

/-- What a get of the put returns. -/
def payloadOf (x : TokenPut) : ReadResult := ⟨x.recs.flatten, shapeRecs 0 0 x.lens⟩

/-- A put that was accepted, with its bounds. -/
structure PutTaken (v0 hi v : Nat) (x : TokenPut) : Prop where
  after : v0 < v
  upto : v ≤ hi
  group : x.groupIdx < maxGroups
  layers : x.recs.length ≤ maxLayersCap
  fits : dramEntrySize + x.recs.length * dramRecSize + x.lens.sum < 2 ^ 32

/-- The request of a put. -/
structure IsReq (cfg : Config) (x : TokenPut) (r : PutReq) : Prop where
  prefixId : r.prefixId = x.prefixId
  groupIdx : r.groupIdx = x.groupIdx
  path : r.path = x.path
  expireTs : r.expireTs = x.expireTs
  flags : r.flags = Flags.empty
  slot : r.slot = 0
  dataLen : r.dataLen = x.lens.sum
  shape : r.shape.lens = x.lens
  dev : r.dev < cfg.nDevs

/-- What the writer fills in for a put at a page. -/
def laidFor (x : TokenPut) (page : Nat) : LaidReq :=
  ⟨page, payloadNpages x.lens.sum, x.lens.sum, crcOf (.records x.recs)⟩

/-- A leaf that points at the image of a put. -/
structure HoldsPut (cfg : Config) (disk : Disk) (x : TokenPut) (lf : RadixLeaf) : Prop where
  prefixId : lf.prefixId = x.prefixId
  plain : lf.stripe = none
  shape : ∃ id, lf.shape = some ⟨id, x.lens⟩
  dev : lf.addr0.devId < cfg.nDevs
  lenPages : lf.addr0.lenPages = payloadNpages x.lens.sum
  crc : lf.addr0.crc = crcOf (.records x.recs)
  expireTs : lf.addr0.expireTs = x.expireTs
  pages : PagesHold disk lf.addr0.devId lf.addr0.pageNo (imageOf (.records x.recs))

theorem length_path (x : TokenPut) : x.path.length = x.groupIdx + 1 := by
  simp [TokenPut.path, groupPath]

theorem groupOf_path (x : TokenPut) : groupOf x.path = x.groupIdx := by
  rw [groupOf, length_path, Nat.add_sub_cancel]

section Puts

variable {cfg : Config} {disk : Disk} {x : TokenPut} {v0 hi v : Nat}

theorem PutTaken.sum_lt (h : PutTaken v0 hi v x) : x.lens.sum < 2 ^ 32 := by
  have := h.fits
  omega

theorem PutTaken.length_image (h : PutTaken v0 hi v x) :
    (imageOf (.records x.recs)).length = payloadNpages x.lens.sum * pageSize :=
  length_imageOf (r := .records x.recs) h.sum_lt

theorem HoldsPut.readLeaf_eq (h : HoldsPut cfg disk x lf) (ht : PutTaken v0 hi v x)
    (hpos : 0 < x.lens.sum) (m : ReadMem) : readLeaf cfg disk m lf = .ok (payloadOf x) := by
  have h32 := ht.sum_lt
  have hlen := ht.length_image
  obtain ⟨id, hshape⟩ := h.shape
  obtain ⟨-, -, hle⟩ := payloadNpages_mul h32
  have hpages : payloadNpages x.lens.sum ≠ 0 := by
    intro hzero
    rw [hzero] at hle
    omega
  have hpass : PassesCheck disk lf.addr0 (imageOf (.records x.recs)) :=
    ⟨h.pages, by rw [hlen, h.lenPages], by rw [h.lenPages]; exact hpages, h.crc.symm⟩
  obtain ⟨buf, hread, hagree, -⟩ := readReplicas_first h.dev hpass m
  have htotal : shapeTotal lf.shape = x.lens.sum := by
    rw [hshape]
    exact Nat.mod_eq_of_lt h32
  have hbytes : window buf (shapeTotal lf.shape) = x.recs.flatten := by
    have hflat : x.lens.sum = (bytesOfReq (.records x.recs)).length :=
      (length_bytesOfReq (.records x.recs)).symm
    rw [htotal, window_of_agree hagree (by rw [hlen]; exact hle), imageOf, hflat, take_left]
    rfl
  have htake : x.lens.take maxLayersCap = x.lens :=
    take_of_length_le (by rw [TokenPut.lens, length_map]; exact ht.layers)
  rw [readLeaf_plain h.plain hshape, hread, hbytes, htake]
  rfl

theorem isReq_plainReq (hcfg : ConfigOk cfg) (h32 : x.lens.sum < 2 ^ 32) (ver : Nat) {shape : Shape}
    (hshape : shape.lens = x.lens) : IsReq cfg x (plainReq cfg x.args ver shape Flags.empty 0) where
  prefixId := rfl
  groupIdx := rfl
  path := rfl
  expireTs := rfl
  flags := rfl
  slot := rfl
  dataLen := Nat.mod_eq_of_lt h32
  shape := hshape
  dev := Nat.mod_lt _ hcfg.devs

theorem HoldsPut.newPlainLeaf (hreq : IsReq cfg x r)
    (hpages : PagesHold disk r.dev page (imageOf (.records x.recs))) (now : Nat) :
    HoldsPut cfg disk x (newPlainLeaf (r.args page (crcOf (.records x.recs)) now)) := by
  have haddr : (Model.newPlainLeaf (r.args page (crcOf (.records x.recs)) now)).addr0 =
      (r.args page (crcOf (.records x.recs)) now).addr := by
    simp [Model.newPlainLeaf, PutReq.args, hreq.slot, replicaCnt, RadixLeaf.setAddr]
  refine ⟨?_, ?_, ⟨r.shape.id, ?_⟩, ?_, ?_, ?_, ?_, ?_⟩
  · rw [prefixId_newPlainLeaf]
    exact hreq.prefixId
  · rw [Model.newPlainLeaf, stripe_setAddr]
  · rw [Model.newPlainLeaf, shape_setAddr, ← hreq.shape]
    rfl
  · rw [haddr]
    exact hreq.dev
  · rw [haddr, ← hreq.dataLen]
    rfl
  · rw [haddr]
    simp [PutReq.args, hreq.flags, Flags.empty]
  · rw [haddr]
    exact hreq.expireTs
  · rw [haddr]
    exact hpages

theorem pagesHold_writePages_of_disjoint {dev page : Nat} {img : List UInt8}
    (h : PagesHold disk dev page img) {n : Nat} (hn : img.length = n * pageSize) {dev' page' n' : Nat}
    (hfree : dev' = dev → ∀ p, page' ≤ p → p < page' + n' → p < page ∨ page + n ≤ p) (buf : Buf) :
    PagesHold (disk.writePages dev' page' buf n') dev page img := by
  intro k hk
  have hkn : k < n := by
    rw [hn] at hk
    exact Nat.le_of_mul_le_mul_right hk (by decide)
  obtain ⟨b, hb, hbytes⟩ := h k hk
  refine ⟨b, ?_, hbytes⟩
  rw [Disk.writePages, if_neg, hb]
  rintro ⟨hdev, hlo, hhi⟩
  rcases hfree hdev.symm _ hlo hhi with hlt | hge
  · omega
  · omega

theorem HoldsPut.write (h : HoldsPut cfg disk x lf) (ht : PutTaken v0 hi v x) {dev page n : Nat}
    (hfree : dev = lf.addr0.devId → ∀ p, page ≤ p → p < page + n →
      p < lf.addr0.pageNo ∨ lf.addr0.pageNo + lf.addr0.lenPages ≤ p)
    (buf : Buf) : HoldsPut cfg (disk.writePages dev page buf n) x lf := by
  refine ⟨h.prefixId, h.plain, h.shape, h.dev, h.lenPages, h.crc, h.expireTs, ?_⟩
  exact pagesHold_writePages_of_disjoint h.pages (by rw [ht.length_image, h.lenPages]) hfree buf

end Puts

/-! ## The invariant -/

/-- No later put of the key was called. -/
def LastPut (puts : List (Nat × TokenPut)) (v : Nat) (x : TokenPut) : Prop :=
  ∀ e ∈ puts, v < e.1 → e.2.key ≠ x.key

/-- The key was not dropped since version `v` was published. -/
def KeptSince (v : Nat) (k : UInt64 × Nat) : List Event → Prop
  | [] => True
  | .publish r _ :: hist => r.ver = v ∨ KeptSince v k hist
  | .drop p g :: hist => (p, g) ≠ k ∧ KeptSince v k hist

instance (puts : List (Nat × TokenPut)) (v : Nat) (x : TokenPut) : Decidable (LastPut puts v x) :=
  inferInstanceAs (Decidable (∀ e ∈ puts, v < e.1 → e.2.key ≠ x.key))

/-- Whether a key was kept is decided along the history. -/
def decideKeptSince (v : Nat) (k : UInt64 × Nat) : (hist : List Event) → Decidable (KeptSince v k hist)
  | [] => .isTrue trivial
  | .publish r _ :: hist =>
    have := decideKeptSince v k hist
    inferInstanceAs (Decidable (r.ver = v ∨ KeptSince v k hist))
  | .drop p g :: hist =>
    have := decideKeptSince v k hist
    inferInstanceAs (Decidable ((p, g) ≠ k ∧ KeptSince v k hist))

instance (v : Nat) (k : UInt64 × Nat) (hist : List Event) : Decidable (KeptSince v k hist) :=
  decideKeptSince v k hist

/-- The key has the node of its path to itself. -/
structure OwnNode (idx : Index) (prefixId : UInt64) (groupIdx : Nat) (path : Path) : Prop where
  node : ∀ q, sideGet idx.side prefixId groupIdx = some q → q = path
  alone : ∀ p g, sideGet idx.side p g = some path → p = prefixId

/-- No leaf and no laid request has one of the pages. -/
structure SparePages (st : Store) (laid : List (Nat × LaidReq)) (dev page n : Nat) : Prop where
  leaves : ∀ q lf, st.idx.tree.leafAt q = some lf → ∀ e ∈ lf.extents, dev = e.devId →
    ∀ p, page ≤ p → p < page + n → p < e.pageNo ∨ e.pageNo + e.lenPages ≤ p
  reqs : ∀ r ∈ st.pending, ∀ l, (r.ver, l) ∈ laid → dev = r.dev →
    ∀ p, page ≤ p → p < page + n → p < l.pageNo ∨ l.pageNo + l.npages ≤ p

/-- Requests, pages and leaves are those of the puts. -/
structure Serves (v0 : Nat) (st : Store) (disk : Disk) (puts : List (Nat × TokenPut))
    (laid : List (Nat × LaidReq)) : Prop where
  sess : SessionOk st
  issued : v0 ≤ st.verCounter
  taken : ∀ v x, (v, x) ∈ puts → PutTaken v0 st.verCounter v x
  unique : ∀ v x x', (v, x) ∈ puts → (v, x') ∈ puts → x = x'
  reqs : ∀ r ∈ st.pending, ∃ x, (r.ver, x) ∈ puts ∧ IsReq st.cfg x r
  distinct : (st.pending.map (·.ver)).Nodup
  placed : ∀ v l, (v, l) ∈ laid → ∃ x, (v, x) ∈ puts ∧ l = laidFor x l.pageNo
  written : ∀ r ∈ st.pending, ∀ x l, (r.ver, x) ∈ puts → (r.ver, l) ∈ laid →
    PagesHold disk r.dev l.pageNo (imageOf (.records x.recs))
  leaves : ∀ q lf, st.idx.tree.leafAt q = some lf → lf.ver ≤ v0 ∨
    ∃ x, (lf.ver, x) ∈ puts ∧ q = x.path ∧ HoldsPut st.cfg disk x lf ∧
      ∀ r ∈ st.pending, r.ver ≠ lf.ver
  kept : ∀ v x, (v, x) ∈ puts → (∀ r ∈ st.pending, r.ver ≠ v) → LastPut puts v x →
    KeptSince v x.key st.hist → ∃ lf, st.idx.tree.leafAt x.path = some lf ∧ lf.ver = v

section Steps

variable {v0 : Nat} {st st' : Store} {disk : Disk} {puts : List (Nat × TokenPut)}
  {laid : List (Nat × LaidReq)}

section Served

variable (h : Serves v0 st disk puts laid)
include h

theorem Serves.ver_le {q : Path} (hlf : st.idx.tree.leafAt q = some lf) :
    lf.ver ≤ st.verCounter := by
  rcases h.leaves q lf hlf with hold | ⟨x, hx, -⟩
  · exact hold.trans h.issued
  · exact (h.taken _ _ hx).upto

theorem Serves.holdsPut {q : Path} (hlf : st.idx.tree.leafAt q = some lf) {x : TokenPut}
    (hx : (lf.ver, x) ∈ puts) :
    q = x.path ∧ HoldsPut st.cfg disk x lf := by
  rcases h.leaves q lf hlf with hold | ⟨x', hx', hq, hput, -⟩
  · have := (h.taken _ _ hx).after
    omega
  · obtain rfl := h.unique _ _ _ hx hx'
    exact ⟨hq, hput⟩

theorem Serves.congr (hok : SessionOk st') (hcfg : st'.cfg = st.cfg) (hidx : st'.idx = st.idx)
    (hver : st'.verCounter = st.verCounter) (hpend : st'.pending = st.pending)
    (hhist : st'.hist = st.hist) :
    Serves v0 st' disk puts laid where
  sess := hok
  issued := by rw [hver]; exact h.issued
  taken := by rw [hver]; exact h.taken
  unique := h.unique
  reqs := by rw [hpend, hcfg]; exact h.reqs
  distinct := by rw [hpend]; exact h.distinct
  placed := h.placed
  written := by rw [hpend]; exact h.written
  leaves := by rw [hidx, hcfg, hpend]; exact h.leaves
  kept := by rw [hidx, hpend, hhist]; exact h.kept

/-- A put is taken. -/
theorem Serves.put {x : TokenPut} (hver : st.verCounter + 1 < 2 ^ 32)
    (hfits : dramEntrySize + x.recs.length * dramRecSize + x.lens.sum < 2 ^ 32)
    (hsum : x.lens.sum ≤ st.cfg.stripeThreshold % 2 ^ 32)
    (hstep : st.step (.put x.args) = some st') :
    Serves v0 st' disk (if st'.verCounter = st.verCounter then puts
      else ((st.verCounter + 1) % 2 ^ 32, x) :: puts) laid := by
  have hok := h.sess.step hstep
  have h32 : x.lens.sum < 2 ^ 32 := by omega
  cases step_cases hstep with
  | putRejected a =>
    rw [if_pos rfl]
    exact h
  | put a reqs hlen hg hl hreqs =>
    rw [cachePutReqs_single hg hl rfl hsum, Nat.mod_eq_of_lt hver] at hreqs
    have hcount : (afterPut st x.args reqs).verCounter = st.verCounter + 1 := rfl
    rw [if_neg (by rw [hcount]; omega), Nat.mod_eq_of_lt hver]
    have hlayers : x.recs.length ≤ maxLayersCap := by
      have hl : x.lens.length ≤ st.cfg.maxLayers := hl
      rw [TokenPut.lens, length_map] at hl
      exact hl.trans h.sess.cfg.layers
    -- The new version is above all versions of the run.
    have hold : ∀ v x', (v, x') ∈ puts → v ≠ st.verCounter + 1 := by
      intro v x' hx'
      have := (h.taken v x' hx').upto
      omega
    have hpend : ∀ r ∈ st.pending, r.ver ≠ st.verCounter + 1 := by
      intro r hr
      obtain ⟨x', hx', -⟩ := h.reqs r hr
      exact hold _ _ hx'
    have hmem : ∀ r ∈ (afterPut st x.args reqs).pending, r ∈ st.pending ∨
        r = plainReq st.cfg x.args (st.verCounter + 1)
          (shapePoolIntern st.idx.shapes x.args.lens).2 Flags.empty 0 := by
      intro r hr
      rcases mem_append.1 hr with hr | hr
      · exact .inl hr
      · rw [hreqs] at hr
        exact .inr (mem_singleton.1 hr)
    refine ⟨hok, Nat.le_succ_of_le h.issued, ?_, ?_, ?_, ?_, ?_, ?_, ?_, ?_⟩
    · intro v x' hx'
      rcases mem_cons.1 hx' with he | hx'
      · cases he
        exact ⟨Nat.lt_succ_of_le h.issued, Nat.le_refl _, hg, hlayers, hfits⟩
      · obtain ⟨h1, h2, h3, h4, h5⟩ := h.taken v x' hx'
        exact ⟨h1, Nat.le_succ_of_le h2, h3, h4, h5⟩
    · intro v x1 x2 h1 h2
      rcases mem_cons.1 h1 with he1 | h1
      · rcases mem_cons.1 h2 with he2 | h2
        · cases he1
          cases he2
          rfl
        · cases he1
          exact absurd rfl (hold _ _ h2)
      rcases mem_cons.1 h2 with he2 | h2
      · cases he2
        exact absurd rfl (hold _ _ h1)
      · exact h.unique v x1 x2 h1 h2
    · intro r hr
      rcases hmem r hr with hr | rfl
      · obtain ⟨x', hx', hreq⟩ := h.reqs r hr
        exact ⟨x', mem_cons_of_mem _ hx', hreq⟩
      · exact ⟨x, mem_cons_self, isReq_plainReq h.sess.cfg h32 _ (lens_shapePoolIntern _ _)⟩
    · rw [show (afterPut st x.args reqs).pending = st.pending ++ reqs from rfl, hreqs,
        map_append, nodup_append]
      refine ⟨h.distinct, nodup_singleton _, ?_⟩
      rintro v hv w hw rfl
      obtain ⟨r, hr, rfl⟩ := List.mem_map.1 hv
      exact hpend r hr (mem_singleton.1 hw)
    · intro v l hl'
      obtain ⟨x', hx', he⟩ := h.placed v l hl'
      exact ⟨x', mem_cons_of_mem _ hx', he⟩
    · intro r hr x' l hx' hl'
      obtain ⟨x'', hx'', -⟩ := h.placed _ l hl'
      have hne := hold _ _ hx''
      rcases hmem r hr with hr | rfl
      · rcases mem_cons.1 hx' with he | hx'
        · exact absurd (congrArg Prod.fst he) hne
        · exact h.written r hr x' l hx' hl'
      · exact absurd rfl hne
    · intro q lf hlf
      rcases h.leaves q lf hlf with hle | ⟨x', hx', hq, hput, hno⟩
      · exact .inl hle
      refine .inr ⟨x', mem_cons_of_mem _ hx', hq, hput, fun r hr => ?_⟩
      rcases hmem r hr with hr | rfl
      · exact hno r hr
      · exact (hold _ _ hx').symm
    intro v x' hx' hno hlast hkept
    rcases mem_cons.1 hx' with he | hx'
    · -- the new put is not published yet
      cases he
      refine absurd rfl (hno (plainReq st.cfg x.args (st.verCounter + 1)
        (shapePoolIntern st.idx.shapes x.args.lens).2 Flags.empty 0) ?_)
      refine mem_append_right _ ?_
      rw [hreqs]
      exact mem_singleton.2 rfl
    · exact h.kept v x' hx' (fun r hr => hno r (mem_append_left _ hr))
        (fun e he => hlast e (mem_cons_of_mem _ he)) hkept

end Served

theorem HoldsPut.extent_mem {cfg : Config} (hcfg : ConfigOk cfg) {x : TokenPut}
    (h : HoldsPut cfg disk x lf) : lf.addr0.extent ∈ lf.extents := by
  have hdev := h.dev
  have hint := hcfg.devsInt
  have hvalid : lf.addr0.devId ≠ invalidDev := by
    unfold invalidDev
    omega
  rw [RadixLeaf.extents, if_pos hvalid, List.append_assoc]
  exact mem_append_left _ (mem_singleton.2 rfl)

/-- A request is written to spare pages. -/
theorem Serves.write (h : Serves v0 st disk puts laid) (hr : r ∈ st.pending) {x : TokenPut}
    (hx : (r.ver, x) ∈ puts) (hnew : ∀ l, (r.ver, l) ∉ laid)
    (hspare : SparePages st laid r.dev page (payloadNpages x.lens.sum)) (buf : Buf) :
    Serves v0 st (disk.writePages r.dev page (blitList buf 0 (imageOf (.records x.recs)))
      (payloadNpages x.lens.sum)) puts ((r.ver, laidFor x page) :: laid) := by
  have ht := h.taken _ _ hx
  refine ⟨h.sess, h.issued, h.taken, h.unique, h.reqs, h.distinct, ?_, ?_, ?_, h.kept⟩
  · intro v l hl
    rcases mem_cons.1 hl with he | hl
    · cases he
      exact ⟨x, hx, rfl⟩
    · exact h.placed v l hl
  · intro r' hr' x' l hx' hl
    rcases mem_cons.1 hl with he | hl
    · -- the request that was just written
      obtain ⟨hv, rfl⟩ := Prod.mk.inj he
      obtain rfl : r' = r := inj_on_of_nodup_map h.distinct hr' hr hv
      obtain rfl := h.unique _ _ _ hx hx'
      exact pagesHold_writePages disk r'.dev page buf ht.length_image
    obtain ⟨x'', hx'', hl'⟩ := h.placed _ l hl
    obtain rfl := h.unique _ _ _ hx' hx''
    have hpages : l.npages = payloadNpages x'.lens.sum := by
      rw [hl']
      rfl
    refine pagesHold_writePages_of_disjoint (h.written r' hr' x' l hx' hl)
      (h.taken _ _ hx').length_image (fun hdev p hlo hhi => ?_) _
    rw [← hpages]
    exact hspare.reqs r' hr' l hl hdev p hlo hhi
  intro q lf hlf
  rcases h.leaves q lf hlf with hle | ⟨x', hx', hq, hput, hno⟩
  · exact .inl hle
  · refine .inr ⟨x', hx', hq, hput.write (h.taken _ _ hx') (fun hdev p hlo hhi => ?_) _, hno⟩
    exact hspare.leaves q lf hlf _ (hput.extent_mem h.sess.cfg) hdev p hlo hhi

/-- A leaf is dropped. -/
theorem Serves.drop (h : Serves v0 st disk puts laid) {node : Path}
    (hstep : st.step (.drop node) = some st') : Serves v0 st' disk puts laid := by
  have hok := h.sess.step hstep
  cases step_cases hstep with
  | drop node lf hidle hleaf hpin hdev =>
    have hat : ∀ q, (st.idx.drop node).tree.leafAt q =
        if q = node then none else st.idx.tree.leafAt q := leafAt_drop st.idx node
    refine ⟨hok, h.issued, h.taken, h.unique, h.reqs, h.distinct, h.placed, h.written, ?_, ?_⟩
    · intro q lf' hlf'
      change (st.idx.drop node).tree.leafAt q = some lf' at hlf'
      rw [hat] at hlf'
      split at hlf'
      · cases hlf'
      · exact h.leaves q lf' hlf'
    intro v x hx hno hlast hkept
    obtain ⟨hne, hkept⟩ : (lf.prefixId, groupOf node) ≠ x.key ∧ KeptSince v x.key st.hist := hkept
    obtain ⟨lf', hlf', hver⟩ := h.kept v x hx hno hlast hkept
    refine ⟨lf', ?_, hver⟩
    change (st.idx.drop node).tree.leafAt x.path = some lf'
    rw [hat, if_neg, hlf']
    -- a drop of this leaf is a drop of the key
    rintro rfl
    obtain rfl := Option.some.inj (hleaf.symm.trans hlf')
    have hput := (h.holdsPut hleaf (by rw [hver]; exact hx)).2
    exact hne (by rw [hput.prefixId, groupOf_path]; rfl)

theorem OwnNode.resolvedNode_eq (h : OwnNode st.idx r.prefixId r.groupIdx r.path) :
    resolvedNode st r = r.path := by
  unfold resolvedNode resolveNode
  split
  · rename_i node hnode
    exact h.node node hnode
  · rfl

theorem OwnNode.prefixId_eq (hside : SideOk st.idx)
    (h : OwnNode st.idx r.prefixId r.groupIdx r.path) (hlf : st.idx.tree.leafAt r.path = some lf) :
    lf.prefixId = r.prefixId :=
  h.alone _ _ (hside.leaf _ lf hlf)

theorem Serves.leafPublish_cases (h : Serves v0 st disk puts laid) (hr : r ∈ st.pending)
    {x : TokenPut} (hx : (r.ver, x) ∈ puts) (hreq : IsReq st.cfg x r) (page crc now : Nat) :
    ((leafPublish (st.idx.tree.leafAt r.path) (r.args page crc now)).leaf =
        some (newPlainLeaf (r.args page crc now)) ∧
      (leafPublish (st.idx.tree.leafAt r.path) (r.args page crc now)).accepted = true ∧
      ∀ lf, st.idx.tree.leafAt r.path = some lf → lf.ver < r.ver) ∨
    ((leafPublish (st.idx.tree.leafAt r.path) (r.args page crc now)).leaf =
        st.idx.tree.leafAt r.path ∧
      (leafPublish (st.idx.tree.leafAt r.path) (r.args page crc now)).accepted = false ∧
      ∃ lf, st.idx.tree.leafAt r.path = some lf ∧ r.ver < lf.ver) := by
  have hplain : (r.args page crc now).flags.stripe = false := by
    simp [PutReq.args, hreq.flags, Flags.empty]
  have hslot : (r.args page crc now).slot = 0 := hreq.slot
  have hc := Analysis.leafPublish_cases (st.idx.tree.leafAt r.path) (r.args page crc now)
  generalize leafPublish (st.idx.tree.leafAt r.path) (r.args page crc now) = res at hc ⊢
  cases hc with
  | rejected lf hold hwhy =>
    refine .inr ⟨rfl, rfl, lf, hold, ?_⟩
    rcases hwhy with hlt | ⟨-, -, hbad⟩
    · exact hlt
    · rw [hslot, replicaCnt] at hbad
      omega
  | newStripe hs _ | addPart _ _ hs _ _ _ => rw [hplain] at hs; cases hs
  | newPlain _ hwhy => exact .inl ⟨rfl, rfl, hwhy⟩
  | addReplica lf _ hold hver _ =>
    -- a leaf of this version would have been published by this request
    have hver : lf.ver = r.ver := hver
    rcases h.leaves _ lf hold with hle | ⟨x', -, -, -, hno⟩
    · have := (h.taken _ _ hx).after
      omega
    · exact absurd hver.symm (hno r hr)

theorem mem_eraseIdx_ver {reqs : List PutReq} (hnd : (reqs.map (·.ver)).Nodup) {i : Nat}
    (hr : reqs[i]? = some r) :
    (∀ r' ∈ reqs.eraseIdx i, r'.ver ≠ r.ver) ∧ ∀ r' ∈ reqs, r' = r ∨ r' ∈ reqs.eraseIdx i := by
  obtain ⟨hi, he⟩ := List.getElem?_eq_some_iff.1 hr
  have hperm : (r :: reqs.eraseIdx i).Perm reqs := by
    rw [← he]
    exact getElem_cons_eraseIdx_perm hi
  refine ⟨fun r' hr' hv => ?_, fun r' hr' => mem_cons.1 (hperm.mem_iff.2 hr')⟩
  have hnd' := (map_ver_eraseIdx_perm hr).nodup_iff.1 hnd
  exact (nodup_cons.1 hnd').1 (List.mem_map.2 ⟨r', hr', hv⟩)

/-- A request is published. -/
theorem Serves.publish (h : Serves v0 st disk puts laid) {i now : Nat}
    (hr : st.pending[i]? = some r) {l : LaidReq} (hl : (r.ver, l) ∈ laid)
    (hown : OwnNode st.idx r.prefixId r.groupIdx r.path)
    (hstep : st.step (.publish i l.pageNo l.crc now) = some st') :
    Serves v0 st' disk puts laid := by
  have hok := h.sess.step hstep
  have hmem := mem_of_getElem? hr
  obtain ⟨x, hx, hreq⟩ := h.reqs r hmem
  obtain ⟨x', hx', hlaid⟩ := h.placed _ l hl
  obtain rfl := h.unique _ _ _ hx hx'
  have hcrc : l.crc = crcOf (.records x.recs) := by
    rw [hlaid]
    rfl
  have hnode := hown.resolvedNode_eq
  obtain ⟨hother, hback⟩ := mem_eraseIdx_ver h.distinct hr
  have hside := h.sess.index.side
  have hpath := (h.sess.reqs r hmem).path
  -- The leaf that is there, if any, belongs to the key of the request.
  have hkey : ∀ lf, st.idx.tree.leafAt r.path = some lf → ∀ x', (lf.ver, x') ∈ puts →
      x'.key = x.key := by
    intro lf hlf x' hx'
    obtain ⟨hq, hput⟩ := h.holdsPut hlf hx'
    have hprefix : x'.prefixId = x.prefixId := by
      rw [← hput.prefixId, hown.prefixId_eq hside hlf, hreq.prefixId]
    have hgroup : x'.groupIdx = x.groupIdx := by
      rw [← groupOf_path x', ← hq, hreq.path, groupOf_path]
    rw [TokenPut.key, hprefix, hgroup]
    rfl
  have hcommon : st'.cfg = st.cfg → st'.verCounter = st.verCounter →
      st'.pending = st.pending.eraseIdx i →
      (∀ q lf, st'.idx.tree.leafAt q = some lf →
        (q = x.path ∧ lf = newPlainLeaf (r.args l.pageNo l.crc now)) ∨
          st.idx.tree.leafAt q = some lf) →
      (∀ v x', (v, x') ∈ puts → (∀ r ∈ st'.pending, r.ver ≠ v) → LastPut puts v x' →
        KeptSince v x'.key st'.hist → ∃ lf, st'.idx.tree.leafAt x'.path = some lf ∧ lf.ver = v) →
      Serves v0 st' disk puts laid := by
    intro hcfg hver hpend hleaf hkept
    have hsub : ∀ r' ∈ st'.pending, r' ∈ st.pending := by
      intro r' hr'
      rw [hpend] at hr'
      exact mem_of_mem_eraseIdx hr'
    refine ⟨hok, by rw [hver]; exact h.issued, by rw [hver]; exact h.taken, h.unique, ?_, ?_,
      h.placed, fun r' hr' => h.written r' (hsub r' hr'), ?_, hkept⟩
    · rw [hcfg]
      exact fun r' hr' => h.reqs r' (hsub r' hr')
    · rw [hpend]
      exact h.distinct.sublist ((eraseIdx_sublist st.pending i).map _)
    intro q lf hlf
    rw [hcfg]
    rcases hleaf q lf hlf with ⟨rfl, rfl⟩ | hold
    · refine .inr ⟨x, by rw [ver_newPlainLeaf]; exact hx, rfl, ?_, fun r' hr' => ?_⟩
      · rw [hcrc]
        exact HoldsPut.newPlainLeaf hreq (h.written r hmem x l hx hl) now
      · rw [ver_newPlainLeaf]
        rw [hpend] at hr'
        exact hother r' hr'
    · rcases h.leaves q lf hold with hle | ⟨x', hx', hq, hput, hno⟩
      · exact .inl hle
      · exact .inr ⟨x', hx', hq, hput, fun r' hr' => hno r' (hsub r' hr')⟩
  -- Who is not pending afterwards is the put of this request, or was not pending before.
  have hbefore : ∀ {v : Nat}, (∀ r' ∈ st.pending.eraseIdx i, r'.ver ≠ v) → r.ver ≠ v →
      ∀ r' ∈ st.pending, r'.ver ≠ v := by
    intro v hno hne r' hr'
    rcases hback r' hr' with rfl | hr'
    · exact hne
    · exact hno r' hr'
  have hcases := h.leafPublish_cases hmem hx hreq l.pageNo l.crc now
  have hat : ∀ q, ((resolvedIdx st r).publish (resolvedNode st r)
      (r.args l.pageNo l.crc now)).tree.leafAt q =
      if q = r.path then (leafPublish (st.idx.tree.leafAt r.path) (r.args l.pageNo l.crc now)).leaf
      else st.idx.tree.leafAt q := by
    intro q
    rw [leafAt_published hside hpath, hnode]
  cases step_cases hstep with
  | publish _ _ _ _ r' hidle hr' hacc =>
    obtain rfl := Option.some.inj (hr.symm.trans hr')
    rw [hnode] at hacc
    obtain ⟨hleaf, -, hlater⟩ := hcases.resolve_right fun hrej => by
      rw [hrej.2.1] at hacc
      cases hacc
    refine hcommon rfl rfl rfl (fun q lf hlf => ?_) fun v x' hx' hno hlast hkept => ?_
    · change ((resolvedIdx st r).publish _ _).tree.leafAt q = some lf at hlf
      rw [hat] at hlf
      split at hlf
      · rename_i hq
        rw [hleaf] at hlf
        exact .inl ⟨hq.trans hreq.path, (Option.some.inj hlf).symm⟩
      · exact .inr hlf
    change ∃ lf, ((resolvedIdx st r).publish _ _).tree.leafAt x'.path = some lf ∧ lf.ver = v
    by_cases hv : r.ver = v
    · subst hv
      obtain rfl := h.unique _ _ _ hx hx'
      refine ⟨newPlainLeaf (r.args l.pageNo l.crc now), ?_, ver_newPlainLeaf _⟩
      rw [hat, if_pos hreq.path.symm, hleaf]
    obtain ⟨lf, hlf, rfl⟩ := h.kept v x' hx' (hbefore hno hv) hlast (hkept.resolve_left hv)
    refine ⟨lf, ?_, rfl⟩
    rw [hat, if_neg, hlf]
    -- at the node of this request there is an earlier put of its key
    intro hq
    rw [hq] at hlf
    exact hlast _ hx (hlater lf hlf) (hkey lf hlf x' hx').symm
  | publishRejected _ _ _ _ r' hidle hr' hrej =>
    obtain rfl := Option.some.inj (hr.symm.trans hr')
    rw [hnode] at hrej
    obtain ⟨hleaf, -, lf0, hlf0, hlater⟩ := hcases.resolve_left fun hacc => by
      rw [hacc.2.1] at hrej
      cases hrej
    have hsame : ∀ q, ((resolvedIdx st r).publish (resolvedNode st r)
        (r.args l.pageNo l.crc now)).tree.leafAt q = st.idx.tree.leafAt q := by
      intro q
      rw [hat, hleaf]
      split
      · rename_i hq
        rw [hq]
      · rfl
    refine hcommon rfl rfl rfl (fun q lf hlf => .inr ?_) fun v x' hx' hno hlast hkept => ?_
    · change ((resolvedIdx st r).publish _ _).tree.leafAt q = some lf at hlf
      rwa [hsame] at hlf
    change ∃ lf, ((resolvedIdx st r).publish _ _).tree.leafAt x'.path = some lf ∧ lf.ver = v
    rw [hsame]
    by_cases hv : r.ver = v
    · -- the leaf that is there is of a later put
      subst hv
      obtain rfl := h.unique _ _ _ hx hx'
      rcases h.leaves _ lf0 hlf0 with hle | ⟨x0, hx0, -⟩
      · have := (h.taken _ _ hx).after
        omega
      · exact absurd (hkey lf0 hlf0 x0 hx0) (hlast _ hx0 hlater)
    · exact h.kept v x' hx' (hbefore hno hv) hlast hkept

end Steps

/-! ## The DRAM cache over it -/

/-- An entry holds the payload of its version. -/
def EntryOf (hi : Nat) (puts : List (Nat × TokenPut)) : EntryProp := fun _ ver _ r =>
  ver ≤ hi ∧ ∀ x, (ver, x) ∈ puts → 0 < x.lens.sum → r = payloadOf x

/-- Store, disk and DRAM serve the puts. -/
structure ServingInv (v0 : Nat) (s : Serving) : Prop where
  opened : s.reads.sess.opening = none
  pins : s.reads.pins = []
  serves : Serves v0 s.store s.disk s.puts s.laid
  acks : AckBooks s.store
  dram : ∀ d, s.reads.dram = some d → DramHolds (EntryOf s.store.verCounter s.puts) d

/-- The steps after which puts can be read. -/
def KeepsReadable (s : Serving) : ServingLabel → Prop
  | .put x => s.store.verCounter + 1 < 2 ^ 32 ∧
      dramEntrySize + x.recs.length * dramRecSize + x.lens.sum < 2 ^ 32 ∧ 0 ∉ x.path
  | .write i page _ => ∀ r x, s.store.pending[i]? = some r → s.puts.lookup r.ver = some x →
      SparePages s.store s.laid r.dev page (payloadNpages x.lens.sum)
  | .publish i _ => ∀ r, s.store.pending[i]? = some r →
      OwnNode s.store.idx r.prefixId r.groupIdx r.path
  | _ => True

section Dram

variable {v0 : Nat} {s s' : Serving}

theorem reads_op {s t : Reads} (hopen : s.sess.opening = none) (hpins : s.pins = [])
    (h : s.step (.op l) = some t) :
    ∃ st, s.sess.store.step l = some st ∧ t.sess = ⟨st, none⟩ ∧ t.pins = [] ∧
      ∀ E, (∀ d, s.dram = some d → DramHolds E d) → ∀ d, t.dram = some d → DramHolds E d := by
  cases opStep_cases h with
  | op l t' hstep hfree =>
    simp only [Session.step, hopen] at hstep
    obtain ⟨st, hst, rfl⟩ := map_eq_some_iff.1 hstep
    refine ⟨st, hst, sess_after _ _ _, eq_nil_iff_forall_not_mem.2 fun p hp => ?_,
      fun E hE d hd => ?_⟩
    · obtain ⟨p0, hp0, -⟩ := pins_after hp
      rw [hpins] at hp0
      cases hp0
    rcases dram_after s ⟨st, none⟩ l with he | ⟨k, he⟩
    · rw [he] at hd
      exact hE d hd
    · rw [he] at hd
      obtain ⟨d0, hd0, rfl⟩ := map_eq_some_iff.1 hd
      exact (hE d0 hd0).invalidate k

theorem ServingInv.of_op (h : ServingInv v0 s) {t : Reads} (ht : s.reads.step (.op l) = some t)
    {disk : Disk} {puts : List (Nat × TokenPut)} {laid : List (Nat × LaidReq)}
    (hserves : ∀ st, s.store.step l = some st → t.sess.store = st →
      Serves v0 st disk puts laid ∧
        (st.verCounter = s.store.verCounter ∨ st.verCounter < 2 ^ 32) ∧
        ∀ k v e r, EntryOf s.store.verCounter s.puts k v e r → EntryOf st.verCounter puts k v e r) :
    ServingInv v0 ⟨t, disk, puts, laid⟩ := by
  obtain ⟨st, hst, hsess, hpins, hdram⟩ := reads_op h.opened h.pins ht
  have hstore : t.sess.store = st := by rw [hsess]
  obtain ⟨hok, hver, hentry⟩ := hserves st hst hstore
  refine ⟨?_, hpins, ?_, ?_, fun d hd => ?_⟩
  · show t.sess.opening = none
    rw [hsess]
  · show Serves v0 t.sess.store disk puts laid
    rw [hstore]
    exact hok
  · show AckBooks t.sess.store
    rw [hstore]
    exact h.acks.step hver hst
  · show DramHolds (EntryOf t.sess.store.verCounter puts) d
    rw [hstore]
    exact hdram _ (fun d hd i e he => hentry _ _ _ _ (h.dram d hd i e he)) d hd

theorem Serves.op {st st' : Store} {disk : Disk} {puts : List (Nat × TokenPut)}
    {laid : List (Nat × LaidReq)} (h : Serves v0 st disk puts laid) (hput : ∀ a, l ≠ .put a)
    (hpub : ∀ i page crc now, l ≠ .publish i page crc now) (hstep : st.step l = some st') :
    Serves v0 st' disk puts laid ∧ st'.verCounter = st.verCounter := by
  have hok := h.sess.step hstep
  cases step_cases hstep with
  | putRejected a | put a => exact absurd rfl (hput a)
  | publish i page crc now | publishRejected i page crc now =>
    exact absurd rfl (hpub i page crc now)
  | flush | ack | trim | ckpt | resetPage | resetDone =>
    exact ⟨h.congr hok rfl rfl rfl rfl rfl, rfl⟩
  | drop => exact ⟨h.drop hstep, rfl⟩

theorem ServingInv.cached (h : ServingInv v0 s) {path : Path}
    (hlf : s.store.idx.tree.leafAt path = some lf) {m : ReadMem} {r : ReadResult}
    (hread : readLeaf s.store.cfg s.disk m lf = .ok r) (k : DramKey) (expireTs : Nat) :
    EntryOf s.store.verCounter s.puts k lf.ver expireTs r := by
  refine ⟨h.serves.ver_le hlf, fun x hx hpos => ?_⟩
  have hput := (h.serves.holdsPut hlf hx).2
  rw [hput.readLeaf_eq (h.serves.taken _ _ hx) hpos] at hread
  exact (Except.ok.inj hread).symm

theorem ServingInv.get (h : ServingInv v0 s) {prefixId : UInt64} {tokens : List UInt32}
    {alloc : Bool} {m : ReadMem} {res : Option Served}
    (hget : s.get prefixId tokens now alloc m = some (s', res)) : ServingInv v0 s' := by
  obtain ⟨t, ht, he⟩ := map_eq_some_iff.1 hget
  obtain ⟨rfl, rfl⟩ := Prod.mk.inj he
  have ht := (cacheGet_eq (s := { s.reads with served := [] }) h.opened h.pins prefixId _ now alloc
    s.disk m).symm.trans ht
  have hkeep : ∀ dram served, (∀ d, dram = some d →
      DramHolds (EntryOf s.store.verCounter s.puts) d) →
      ServingInv v0 { s with reads := ⟨s.reads.sess, dram, s.reads.pins, served⟩ } :=
    fun dram served hdram => ⟨h.opened, h.pins, h.serves, h.acks, hdram⟩
  split at ht
  · cases ht
    exact hkeep _ _ h.dram
  rename_i lf hlive
  have hlf : s.store.idx.tree.leafAt _ = some lf := leafAt_of_liveLeaf hlive
  split at ht
  · -- a hit
    rename_i d' r hhit
    cases ht
    obtain ⟨d, hd, hdget⟩ := map_eq_some_iff.1 hhit
    refine hkeep _ _ fun d1 hd1 => ?_
    obtain rfl := Option.some.inj hd1
    have hsame := (h.dram d hd).get (prefixId, groupOf (tokenPath prefixId tokens))
      lf.ver now alloc
    rw [hdget] at hsame
    exact hsame
  unfold readThrough at ht
  split at ht
  · cases ht
    exact hkeep _ _ h.dram
  rename_i r hread
  split at ht
  · cases ht
    exact hkeep _ _ fun d hd => by cases hd
  -- what was read is put into the cache
  rename_i d hd
  obtain ⟨d', hput, rfl⟩ := map_eq_some_iff.1 ht
  refine hkeep _ _ fun d1 hd1 => ?_
  obtain rfl := Option.some.inj hd1
  exact (h.dram d hd).put (h.cached hlf hread _ _) hput

theorem verCounter_put {st st' : Store} {a : PutArgs} (h : st.step (.put a) = some st') :
    st'.verCounter = st.verCounter ∨ st'.verCounter = st.verCounter + 1 := by
  cases step_cases h with
  | putRejected => exact .inl rfl
  | put => exact .inr rfl

theorem mem_of_lookup {β : Type} {xs : List (Nat × β)} {v : Nat} {b : β}
    (h : xs.lookup v = some b) : (v, b) ∈ xs := by
  obtain ⟨pre, post, rfl, -⟩ := lookup_eq_some_iff.1 h
  exact mem_append_right _ mem_cons_self

theorem isSome_lookup_of_mem {β : Type} {xs : List (Nat × β)} {v : Nat} {b : β} (h : (v, b) ∈ xs) :
    (xs.lookup v).isSome = true := by
  rw [isSome_iff_ne_none]
  intro hnone
  have := lookup_eq_none_iff.1 hnone (v, b) h
  simp at this

/-- One step of the puts and gets. -/
theorem ServingInv.step (h : ServingInv v0 s) {l : ServingLabel} (hl : KeepsReadable s l)
    (hstep : s.step l = some s') : ServingInv v0 s' := by
  cases l with
  | put x =>
    simp only [Serving.step, Serving.put] at hstep
    split at hstep
    · cases hstep
    rename_i hsum
    obtain ⟨t, ht, rfl⟩ := map_eq_some_iff.1 hstep
    obtain ⟨hver, hfits, -⟩ := hl
    refine h.of_op ht fun st hst hstore => ?_
    rw [hstore]
    refine ⟨h.serves.put hver hfits (Nat.le_of_not_lt hsum) hst, ?_, ?_⟩
    · exact (verCounter_put hst).imp_right fun he => by rw [he]; exact hver
    -- no entry has the new version
    rintro k v e r ⟨hle, hentry⟩
    rcases verCounter_put hst with he | he
    · rw [if_pos he, he]
      exact ⟨hle, hentry⟩
    rw [if_neg (by rw [he]; exact Nat.succ_ne_self _), he, Nat.mod_eq_of_lt hver]
    refine ⟨Nat.le_succ_of_le hle, fun x' hx' hpos => ?_⟩
    rcases mem_cons.1 hx' with heq | hx'
    · have hv : v = s.store.verCounter + 1 := congrArg Prod.fst heq
      omega
    · exact hentry x' hx' hpos
  | write i page buf =>
    obtain ⟨r, hr, hrest⟩ := bind_eq_some_iff.1 hstep
    obtain ⟨x, hlook, hrest⟩ := bind_eq_some_iff.1 hrest
    have hx := mem_of_lookup hlook
    split at hrest
    · cases hrest
    rename_i hnew
    have ht := h.serves.taken _ _ hx
    have hlay := layReq_eq buf 0 page (r := .records x.recs) ht.sum_lt
    rw [hlay] at hrest
    cases hrest
    refine ⟨h.opened, h.pins, ?_, h.acks, h.dram⟩
    refine h.serves.write (mem_of_getElem? hr) hx (fun l hl => ?_) (hl r x hr hlook) buf
    exact hnew (isSome_lookup_of_mem hl)
  | publish i now =>
    obtain ⟨r, hr, hrest⟩ := bind_eq_some_iff.1 hstep
    obtain ⟨l, hlook, hrest⟩ := bind_eq_some_iff.1 hrest
    obtain ⟨t, ht, rfl⟩ := map_eq_some_iff.1 hrest
    refine h.of_op ht fun st hst hstore => ?_
    have hver : st.verCounter = s.store.verCounter := by
      cases step_cases hst with
      | publish => rfl
      | publishRejected => rfl
    refine ⟨h.serves.publish hr (mem_of_lookup hlook) (hl r hr) hst, .inl hver, ?_⟩
    rw [hver]
    exact fun _ _ _ _ he => he
  | op l =>
    have hl : (∀ a, l ≠ .put a) ∧ (∀ i page crc now, l ≠ .publish i page crc now) ∧
        (s.reads.step (.op l)).map (fun t => { s with reads := t }) = some s' := by
      cases l with
      | put a => cases hstep
      | publish i page crc now => cases hstep
      | _ => exact ⟨fun _ => nofun, fun _ _ _ _ => nofun, hstep⟩
    obtain ⟨hput, hpub, hstep⟩ := hl
    obtain ⟨t, ht, rfl⟩ := map_eq_some_iff.1 hstep
    refine h.of_op ht fun st hst hstore => ?_
    obtain ⟨hserves, hver⟩ := h.serves.op hput hpub hst
    refine ⟨hserves, .inl hver, ?_⟩
    rw [hver]
    exact fun _ _ _ _ he => he
  | get prefixId tokens now alloc m =>
    obtain ⟨⟨t, res⟩, hget, rfl⟩ := map_eq_some_iff.1 hstep
    exact h.get hget

theorem ServingInv.start {cfg : Config} {ls : List SessionLabel} {store : Store} (hcfg : ConfigOk cfg)
    (hrun : SessionRun cfg ls ⟨store, none⟩) (hidle : store.pending = []) (dramBytes dramEntryMax : Nat)
    (disk : Disk) :
    ServingInv store.verCounter (Serving.start store dramBytes dramEntryMax disk) := by
  have hok : SessionOk store := hrun.ok hcfg
  have hvers := hrun.vers hcfg rfl
  refine ⟨rfl, rfl, ⟨?_, Nat.le_refl _, nofun, nofun, ?_, ?_, nofun, ?_, ?_, nofun⟩, ?_, ?_⟩
  · exact hok.congr rfl hok.index hok.reqs rfl rfl
  · intro r hr
    change r ∈ store.pending at hr
    rw [hidle] at hr
    cases hr
  · show (store.pending.map (·.ver)).Nodup
    rw [hidle]
    exact nodup_nil
  · intro r hr
    change r ∈ store.pending at hr
    rw [hidle] at hr
    cases hr
  · exact fun q lf hlf => .inl (hvers.leaf q lf hlf)
  · exact ⟨hvers.pending, nofun, nofun⟩
  · exact fun d hd => DramHolds.init hd

theorem ServingInv.liveLeaf_eq (h : ServingInv v0 s) {v : Nat} {x : TokenPut}
    (hput : (v, x) ∈ s.puts) (hack : v ∈ s.store.acked)
    (hgroups : (x.tokens.length + 31) / 32 = x.groupIdx + 1) (hlast : LastPut s.puts v x)
    (hkept : KeptSince v x.key s.store.hist) (hexp : x.expireTs = 0 ∨ now ≤ x.expireTs) :
    tokenPath x.prefixId x.tokens = x.path ∧ ∃ lf, lf.ver = v ∧ HoldsPut s.store.cfg s.disk x lf ∧
      liveLeaf { s.reads with served := [] } x.path now = some lf := by
  have ht := h.serves.taken v x hput
  obtain ⟨lf, hlf, rfl⟩ := h.serves.kept v x hput (h.acks.acked v hack).2.1 hlast hkept
  have hholds := (h.serves.holdsPut hlf hput).2
  have hsmall : x.tokens.length < 2 ^ 32 - 32 := by
    have := ht.group
    unfold maxGroups at this
    omega
  refine ⟨?_, lf, rfl, hholds, ?_⟩
  · rw [tokenPath, TokenPut.path, nGroups, tokensPerGroup, Nat.mod_eq_of_lt (by omega)]
    rw [show x.tokens.length + 32 - 1 = x.tokens.length + 31 by omega, hgroups]
  have hlen : ¬ (x.path.length = 0 ∨ maxGroups < x.path.length) := by
    have := ht.group
    rw [length_path]
    omega
  have hlive : ¬ (lf.ver = 0 ∨ (lf.addr0.expireTs ≠ 0 ∧ lf.addr0.expireTs < now)) := by
    have := ht.after
    rw [hholds.expireTs]
    omega
  have hlf' : s.reads.sess.store.idx.tree.leafAt x.path = some lf := hlf
  simp only [liveLeaf, if_neg hlen, hlf', if_neg hlive]

theorem dram_put_isSome (d : DramCache) (k : DramKey) (ver expireTs : Nat) {r : ReadResult}
    (alloc : Bool) (hsize : entryTotal r = entrySize r) :
    ∃ d', d.put k ver expireTs r alloc = some d' := by
  unfold DramCache.put
  split
  · exact ⟨_, rfl⟩
  simp only
  split
  · exact ⟨_, rfl⟩
  split
  · exact ⟨_, rfl⟩
  · rw [if_neg (not_not.2 hsize)]
    exact ⟨_, rfl⟩

theorem entryTotal_payloadOf {hi v : Nat} {x : TokenPut} (h : PutTaken v0 hi v x) :
    entryTotal (payloadOf x) = entrySize (payloadOf x) := by
  have hsize : entrySize (payloadOf x) =
      dramEntrySize + x.recs.length * dramRecSize + x.lens.sum := by
    rw [entrySize, payloadOf, length_shapeRecs, TokenPut.lens, length_map, length_flatten]
  rw [entryTotal, hsize]
  exact Nat.mod_eq_of_lt h.fits

/-- What is put is read. In every run in which the versions do not wrap around, no hash is 0, the
writer writes to spare pages, and a put is published where its key has no node yet or the one its
tokens lead to, a get with the tokens of a put returns its payload and its record lengths, if the
put was acknowledged, is the last one of its key, and was neither dropped since nor has expired. -/
theorem read_your_writes {cfg : Config} {ls0 : List SessionLabel} {store : Store}
    (hcfg : ConfigOk cfg) (hrun0 : NonzeroRun cfg ls0 ⟨store, none⟩) (hidle : store.pending = [])
    {dramBytes dramEntryMax : Nat} {disk : Disk} {ls : List ServingLabel} {s : Serving}
    (hrun : RunOf Serving.step KeepsReadable (Serving.start store dramBytes dramEntryMax disk) ls s)
    {v : Nat} {x : TokenPut} (hput : (v, x) ∈ s.puts) (hack : v ∈ s.store.acked)
    (hbytes : 0 < x.lens.sum) (hgroups : (x.tokens.length + 31) / 32 = x.groupIdx + 1)
    (hlast : LastPut s.puts v x) (hkept : KeptSince v x.key s.store.hist) {now : Nat}
    (hexp : x.expireTs = 0 ∨ now ≤ x.expireTs) (alloc : Bool) (m : ReadMem) :
    ∃ s', s.get x.prefixId x.tokens now alloc m = some (s', some ⟨v, now, payloadOf x⟩) := by
  have hinv : ServingInv store.verCounter s :=
    RunOf.invariant (ServingInv store.verCounter) (fun _ _ _ h hl hs => h.step hl hs) hrun
      (ServingInv.start hcfg hrun0.session hidle dramBytes dramEntryMax disk)
  have ht := hinv.serves.taken v x hput
  obtain ⟨hpath, lf, rfl, hholds, hlive⟩ := hinv.liveLeaf_eq hput hack hgroups hlast hkept hexp
  have hread : readLeaf s.reads.sess.store.cfg s.disk m lf = .ok (payloadOf x) :=
    hholds.readLeaf_eq ht hbytes m
  rw [Serving.get, hpath, cacheGet_eq (s := { s.reads with served := [] }) hinv.opened hinv.pins, hlive]
  simp only
  split
  · -- The DRAM cache has the version: what it has is the payload.
    rename_i d' r hhit
    obtain ⟨d, hd, hget⟩ := map_eq_some_iff.1 hhit
    rcases get_cases d (x.prefixId, groupOf x.path) lf.ver now alloc with
      hmiss | ⟨e, hmem, -, hver, -, hhit'⟩
    · rw [hmiss] at hget
      cases congrArg Prod.snd hget
    rw [hhit'] at hget
    have hdata : e.data = payloadOf x :=
      (hinv.dram d hd _ e hmem).2 x (by rw [hver]; exact hput) hbytes
    have hr : { e.data with recs := e.data.recs.take maxLayersCap } = r :=
      Option.some.inj (congrArg Prod.snd hget)
    have htake : (payloadOf x).recs.take maxLayersCap = (payloadOf x).recs := by
      refine take_of_length_le ?_
      rw [payloadOf, length_shapeRecs, TokenPut.lens, length_map]
      exact ht.layers
    rw [hdata, htake] at hr
    rw [← hr]
    exact ⟨_, rfl⟩
  -- It does not: the payload is read from the device, and put into the cache.
  rw [readThrough, hread]
  simp only
  split
  · exact ⟨_, rfl⟩
  rename_i d hd
  obtain ⟨d', hd'⟩ := dram_put_isSome d (x.prefixId, groupOf x.path) lf.ver lf.addr0.expireTs
    alloc (entryTotal_payloadOf ht)
  rw [hd']
  exact ⟨_, rfl⟩

end Dram

/-! ## Two puts of one group -/

/-- A put of one byte by its tokens. -/
def bytePut (tokens : List UInt32) : TokenPut := ⟨7, 0, tokens, 0, [[9]]⟩

/-- A put from its call to its acknowledgement. -/
def putAndAck (tokens : List UInt32) (page ver : Nat) : List ServingLabel :=
  [.put (bytePut tokens), .write 0 page fun _ => 0, .publish 0 5, .op (.flush 0), .op (.ack ver)]

/-- The formatted cache, without a DRAM cache. -/
def servingFresh : Serving := Serving.start (Store.format oneDevice) 0 0 fun _ _ => none

/-- The first put of a cache. -/
def firstPutCheck (s : Serving) : ServingLabel → Bool
  | .put x => decide (s.store.verCounter + 1 < 2 ^ 32 ∧
      dramEntrySize + x.recs.length * dramRecSize + x.lens.sum < 2 ^ 32 ∧ 0 ∉ x.path)
  | .write _ _ _ => decide (s.store.idx.tree = .nil ∧ s.laid = [])
  | .publish _ _ => decide (s.store.idx.side = [])
  | _ => true

theorem keepsReadable_of_check (s : Serving) (l : ServingLabel) (h : firstPutCheck s l = true) :
    KeepsReadable s l := by
  cases l with
  | put x =>
    have h : s.store.verCounter + 1 < 2 ^ 32 ∧
        dramEntrySize + x.recs.length * dramRecSize + x.lens.sum < 2 ^ 32 ∧ 0 ∉ x.path :=
      of_decide_eq_true h
    exact h
  | write i page buf =>
    obtain ⟨htree, hlaid⟩ := of_decide_eq_true h
    refine fun r x _ _ => ⟨fun q lf hlf => ?_, fun r' _ l hl => ?_⟩
    · rw [htree, Trie.leafAt_nil] at hlf
      cases hlf
    · rw [hlaid] at hl
      cases hl
  | publish i now =>
    have hside := of_decide_eq_true h
    refine fun r _ => ⟨fun q hq => ?_, fun p g hg => ?_⟩
    · rw [hside] at hq
      cases hq
    · rw [hside] at hg
      cases hg
  | op l => trivial
  | get p tokens now alloc m => trivial

/-- The payload of a first put is read by its tokens. -/
theorem read_your_writes_first : ∃ s s', RunOf Serving.step KeepsReadable servingFresh
      (putAndAck [1] 10 1) s ∧
    s.get 7 [1] 6 true ⟨fun _ => 0, fun _ => 0⟩ = some (s', some ⟨1, 6, ⟨[9], [⟨0, 0, 1⟩]⟩⟩) := by
  have hfold : ((putAndAck [1] 10 1).foldlM
      (fun s l => if firstPutCheck s l then s.step l else none) servingFresh).map
      (fun s => decide ((1, bytePut [1]) ∈ s.puts ∧ 1 ∈ s.store.acked ∧
        LastPut s.puts 1 (bytePut [1]) ∧ KeptSince 1 (bytePut [1]).key s.store.hist)) =
      some true := by decide +kernel
  obtain ⟨s, hs, hres⟩ := map_eq_some_iff.1 hfold
  obtain ⟨hput, hacked, hlast, hkept⟩ := of_decide_eq_true hres
  have hrun := RunOf.of_checked firstPutCheck keepsReadable_of_check hs
  have hcfg : ConfigOk oneDevice := by decide
  have hrun0 : NonzeroRun oneDevice [] ⟨Store.format oneDevice, none⟩ := .nil _
  have hexp : (bytePut [1]).expireTs = 0 ∨ 6 ≤ (bytePut [1]).expireTs := .inl rfl
  obtain ⟨s', hget⟩ := read_your_writes hcfg hrun0 rfl hrun hput hacked (by decide) rfl hlast hkept
    hexp true ⟨fun _ => 0, fun _ => 0⟩
  exact ⟨s, s', hrun, hget⟩

/-- An acknowledged put is not found. Two puts of one group, the second with one more token, are
both acknowledged; a get with the tokens of the second one returns `-KV_ENOENT`: the second put was
published at the node of the first one. -/
theorem acked_put_not_found : ∃ s s', RunOf Serving.step (fun _ _ => True) servingFresh
      (putAndAck [1] 10 1 ++ putAndAck [1, 2] 11 2) s ∧
    (2, bytePut [1, 2]) ∈ s.puts ∧ 2 ∈ s.store.acked ∧ LastPut s.puts 2 (bytePut [1, 2]) ∧
    KeptSince 2 (bytePut [1, 2]).key s.store.hist ∧
    s.get 7 [1, 2] 6 true ⟨fun _ => 0, fun _ => 0⟩ = some (s', none) := by
  have hfold : ((putAndAck [1] 10 1 ++ putAndAck [1, 2] 11 2).foldlM Serving.step servingFresh).bind
      (fun s => (s.get 7 [1, 2] 6 true ⟨fun _ => 0, fun _ => 0⟩).map fun res =>
        decide ((2, bytePut [1, 2]) ∈ s.puts ∧ 2 ∈ s.store.acked ∧
          LastPut s.puts 2 (bytePut [1, 2]) ∧ KeptSince 2 (bytePut [1, 2]).key s.store.hist ∧
          res.2 = none)) = some true := by decide +kernel
  obtain ⟨s, hs, hrest⟩ := bind_eq_some_iff.1 hfold
  obtain ⟨⟨s', res⟩, hget, hres⟩ := map_eq_some_iff.1 hrest
  obtain ⟨hput, hacked, hlast, hkept, rfl⟩ := of_decide_eq_true hres
  exact ⟨s, s', RunOf.of_foldlM hs fun _ _ _ => trivial, hput, hacked, hlast, hkept, hget⟩

end KvTier.Analysis
