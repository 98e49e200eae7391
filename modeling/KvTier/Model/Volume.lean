import KvTier.Model.Region
import KvTier.Model.Session

/-!
# Regions over all sessions

The sessions of a cache together with the regions of its devices: what an open reads back of the
region headers, which region of each device it goes on with (cache.cpp:1013-1120), and what
rotations and `gc_tick` do to the regions of the open cache (writer.cpp:117-158, gc.cpp:38-47,
cache.cpp:425-476).
-/

namespace KvTier.Model

open KvTier.Lib

/-! ## Dropping the leaves of a region -/

/-- One slot of a sweep over the side table (cache.cpp:444-471). -/
def Store.sweepSlot (due : RadixLeaf → Bool) (s : Store) (slot : SideSlot) : Option Store :=
  match s.idx.tree.leafAt slot.node with
  | none => some s
  | some lf => if due lf && lf.refcnt == 0 then s.drop slot.node else some s

/-- A sweep over the side table, with the DEL records of the leaves it drops. -/
def Store.sweep (due : RadixLeaf → Bool) (s : Store) : Option Store :=
  s.idx.side.foldlM (Store.sweepSlot due) s

/-- `cache_drop_region` (cache.cpp:438-476). -/
def Store.dropRegion (s : Store) (d region : Nat) : Option Store :=
  s.sweep (inRegion s.cfg d region)

/-! ## What an open makes of the regions -/

/-- The headers of the regions of a device, and the epoch in its superblock. -/
structure DevMeta where
  hdrs : Nat → RegionHdr
  epoch : Nat

/-- `RegionMgr::load` (region.cpp:103-132), and what the TRIM records of the journals do to the
regions (cache.cpp:690-700). -/
def loadRegions (disk : Nat → DevMeta) (trims : List (Nat × Nat)) (d : Nat) : RegionMgr where
  rg i :=
    let h := (disk d).hdrs i
    if (d, i) ∈ trims then { h with state := .free } else h
  epochCounter := (disk d).epoch

/-- The state an open gives to a region (cache.cpp:1076-1079). -/
def classifyState (live : Int) (st : RgState) : RgState :=
  if live = 0 ∧ st ≠ .opened then .free else if st ≠ .opened then .frozen else st

/-- The states of the regions of a device, by their live bytes (cache.cpp:1073-1082). -/
def classify (live : Live) (rms : Nat → RegionMgr) (d : Nat) : RegionMgr :=
  { rms d with rg := fun i =>
      { (rms d).rg i with state := classifyState (live d i) ((rms d).rg i).state } }

/-- The region an open goes on with, and how it was found. -/
inductive Reuse where
  /-- The first free region. -/
  | free (i : Nat)
  /-- The oldest frozen region, whose leaves are dropped. -/
  | oldest (i : Nat)
  /-- Region 0, as it is. -/
  | zero
deriving DecidableEq, Repr

/-- `opened` (cache.cpp:1086-1106). -/
def Reuse.region : Reuse → Nat
  | .free i => i
  | .oldest i => i
  | .zero => 0

/-- The loop over the frozen regions (cache.cpp:1094-1101). -/
def oldestFrozen (regionCnt : Nat) (rm : RegionMgr) : Option Nat :=
  ((List.range regionCnt).foldl
    (fun best i =>
      if (rm.rg i).state = .frozen ∧ (rm.rg i).epoch ≠ 0 ∧ (rm.rg i).epoch < best.2 then
        (some i, (rm.rg i).epoch)
      else best)
    ((none : Option Nat), 2 ^ 64 - 1)).1

/-- The choice of a region (cache.cpp:1085-1106). -/
def reuse (regionCnt : Nat) (rm : RegionMgr) : Reuse :=
  match (List.range regionCnt).find? fun i => (rm.rg i).state == .free with
  | some i => .free i
  | none =>
    match oldestFrozen regionCnt rm with
    | some i => .oldest i
    | none => .zero

/-- The index with its journals, and the regions. -/
structure Opening where
  store : Store
  sp : Space

/-- The leaves of the region that is reused (cache.cpp:1102-1103). -/
def Opening.drop (o : Opening) (d : Nat) : Reuse → Option Opening
  | .oldest i => do
    let store ← o.store.dropRegion d i
    let led ← o.sp.led.dropRegion d i
    pure ⟨store, { o.sp with led := led }⟩
  | _ => some o

/-- One device of an open (cache.cpp:1084-1120). -/
def Opening.device (now : Nat) (o : Opening) (d : Nat) : Option Opening := do
  let r := reuse o.sp.cfg.regionCnt (o.sp.rms d)
  let o ← o.drop d r
  pure { o with sp := o.sp.openRegion d r.region now }

/-! ## The volume -/

/-- A write of a header or a superblock. -/
inductive MetaWrite where
  | header (i : Nat) (h : RegionHdr)
  | super (epoch : Nat)
deriving DecidableEq, Repr

/-- The write reaches the device. -/
def MetaWrite.apply (m : DevMeta) : MetaWrite → DevMeta
  | .header i h => { m with hdrs := Function.update m.hdrs i h }
  | .super epoch => { m with epoch := epoch }

/-- The cache over its devices, with their regions. -/
structure Volume where
  sess : Session
  live : Live
  rms : Nat → RegionMgr
  cur : Nat → Cursor
  look : Option (Nat × Nat)
  disk : Nat → DevMeta
  todo : Nat → List MetaWrite

/-- What may happen next. -/
inductive VolumeLabel where
  /-- A step of the open cache, or of the end of an open. -/
  | op (l : Label)
  /-- `writer_freeze_and_rotate` returns `KV_EOK`. -/
  | rotate (d now : Nat)
  /-- `gc_tick` finds a region frozen and without live bytes. -/
  | gcLook (d i : Nat)
  /-- `trim_region` on that region. -/
  | gcTrim
  /-- The next write of a header or superblock reaches its device. -/
  | write (d : Nat)
  /-- The process ends and the cache is opened again, up to its checkpoint. -/
  | reopen (now : Nat)
deriving DecidableEq, Repr

namespace Volume

/-- The configuration. -/
def cfg (s : Volume) : Config := s.sess.store.cfg

/-- The index with its counters. -/
def led (s : Volume) : Ledger := ⟨s.cfg, s.sess.store.idx, s.live⟩

/-- The regions and the cursors, with the index. -/
def space (s : Volume) : Space := ⟨s.led, s.rms, s.cur⟩

/-- Region `i` of device `d`. -/
def rg (s : Volume) (d i : Nat) : RegionHdr := (s.rms d).rg i

/-- The formatted devices (cache.cpp:1014-1043). -/
def format (cfg : Config) (now : Nat) : Volume :=
  let sp := Space.format cfg now
  { sess := Session.format cfg
    live := sp.led.live
    rms := sp.rms
    cur := sp.cur
    look := none
    disk d := ⟨(sp.rms d).rg, (sp.rms d).epochCounter⟩
    todo _ := [] }

/-- The counters after a step of the store. -/
def liveAfter (s : Volume) : Label → Option Live
  | .publish i page crc now =>
    match s.sess.store.pending[i]? with
    | none => none
    | some r => (s.led.publish (r.args page crc now)).map (·.live)
  | .drop node => (s.led.dropAt node).map (·.live)
  | _ => some s.live

/-- A step of the store, with its accounting. TRIM records are part of rotations. -/
def op (s : Volume) : Label → Option Volume
  | .trim _ _ _ => none
  | l => do
    let sess ← s.sess.step (.op l)
    let live ← s.liveAfter l
    pure { s with sess := sess, live := live }

/-- The region a rotation drops, if it has to (gc.cpp:151-178). -/
def rotationVictim (sp : Space) (d : Nat) : Option Nat :=
  let old := (sp.cur d).region
  if (sp.rg d ((old + 1) % sp.cfg.regionCnt)).state = .free then none
  else match sp.emptyRegion d old with
    | some _ => none
    | none => sp.victimRegion d old

/-- The leaves of that region (gc.cpp:175). -/
def dropVictim (store : Store) (d : Nat) : Option Nat → Option Store
  | none => some store
  | some v => store.dropRegion d v

/-- `writer_freeze_and_rotate` (writer.cpp:117-158) of an open cache, if it returns `KV_EOK`. -/
def rotate (s : Volume) (d now : Nat) : Option Volume :=
  if s.cfg.nDevs ≤ d ∨ s.sess.opening ≠ none then none
  else do
    let old := (s.cur d).region
    let frozen := s.space.freeze d now
    let store ← s.sess.store.step (.trim d old (s.rg d old).epoch)
    let store ← store.step (.flush d)
    let store ← dropVictim store d (rotationVictim frozen d)
    let (freed, found) ← frozen.nextRegion d
    let next ← found
    let trimmed := if (s.rg d next).state = .free then [] else [.header next (freed.rg d next)]
    let opened := freed.openRegion d next now
    pure { s with
      sess := { s.sess with store := store }
      live := opened.led.live
      rms := opened.rms
      cur := opened.cur
      todo := Function.update s.todo d (s.todo d ++ [.header old (frozen.rg d old)] ++ trimmed ++
        [.header next (opened.rg d next), .super (opened.rms d).epochCounter]) }

/-- `gc_tick` looks at a region (gc.cpp:41-43, 109-113); its age is left open. -/
def gcLook (s : Volume) (d i : Nat) : Option Volume :=
  if d < s.cfg.nDevs ∧ i < s.cfg.regionCnt ∧ s.look = none ∧ s.space.trimmable d i = true then
    some { s with look := some (d, i) }
  else none

/-- `trim_region` on the region `gc_tick` looked at (cache.cpp:425-436). -/
def gcTrim (s : Volume) : Option Volume :=
  match s.look with
  | none => none
  | some (d, i) =>
    let sp := s.space.trimRegion d i
    some { s with
      live := sp.led.live
      rms := sp.rms
      look := none
      todo := Function.update s.todo d (s.todo d ++ [.header i (sp.rg d i)]) }

/-- A write reaches its device. -/
def write (s : Volume) (d : Nat) : Option Volume :=
  match s.todo d with
  | [] => none
  | w :: ws => some { s with
      disk := Function.update s.disk d (w.apply (s.disk d))
      todo := Function.update s.todo d ws }

/-- What replay recovers (cache.cpp:1053-1066). -/
def recovered (s : Volume) : Replay :=
  recover s.sess.store.ckpt s.cfg.nDevs s.cfg.regionCnt s.cfg.regionSizePages
    fun d => journalRead ((s.sess.store.jours d).reinit s.cfg.journalPages)

/-- The regions after the journals were replayed (cache.cpp:1013, 1045-1051, 1064-1066). -/
def loaded (s : Volume) : Nat → RegionMgr := loadRegions s.disk s.recovered.trims

/-- The index and the regions before an open chooses the regions it goes on with
(cache.cpp:1053-1082). -/
def found (s : Volume) : Option Opening := do
  let store := (Session.reopen s.sess.store s.cfg).store
  let led ← Ledger.recompute ⟨s.cfg, store.idx, fun _ _ => 0⟩
  pure ⟨store, led, classify led.live s.loaded, fun _ => ⟨0, 1⟩⟩

/-- The process ends, and `cache_open_impl` runs up to its checkpoint (cache.cpp:1013-1120). -/
def reopen (s : Volume) (now : Nat) : Option Volume := do
  let o ← s.found
  let o' ← (List.range s.cfg.nDevs).foldlM (Opening.device now) o
  pure
    { sess := { Session.reopen s.sess.store s.cfg with store := o'.store }
      live := o'.sp.led.live
      rms := o'.sp.rms
      cur := o'.sp.cur
      look := none
      disk := s.disk
      todo := fun d => (List.range s.cfg.regionCnt).map (fun i => .header i (o.sp.rg d i)) ++
        [.header (o'.sp.cur d).region (o'.sp.rg d (o'.sp.cur d).region),
          .super (o'.sp.rms d).epochCounter] }

/-- One step. -/
def step (s : Volume) : VolumeLabel → Option Volume
  | .op l => s.op l
  | .rotate d now => s.rotate d now
  | .gcLook d i => s.gcLook d i
  | .gcTrim => s.gcTrim
  | .write d => s.write d
  | .reopen now => s.reopen now

/-! ## Histories of the devices -/

/-- `writer_freeze_and_rotate` of an open cache, if it returns `-KV_EFULL` (writer.cpp:117-139). -/
def rotateFails (s : Volume) (d now : Nat) : Option Volume :=
  if s.cfg.nDevs ≤ d ∨ s.sess.opening ≠ none then none
  else do
    let old := (s.cur d).region
    let frozen := s.space.freeze d now
    let store ← s.sess.store.step (.trim d old (s.rg d old).epoch)
    let store ← store.step (.flush d)
    let (freed, found) ← frozen.nextRegion d
    match found with
    | some _ => none
    | none => pure { s with
        sess := { s.sess with store := store }
        rms := freed.rms
        todo := Function.update s.todo d (s.todo d ++ [.header old (frozen.rg d old)]) }

/-- An open formats each device but the first whose superblock it cannot use, with the epoch of the
first device, and clears its journal (cache.cpp:1045-1051). -/
def reformat (s : Volume) (ds : List Nat) : Volume :=
  let lost d := d ∈ ds ∧ d ≠ 0
  { s with
    sess := { s.sess with store := { s.sess.store with
      jours := fun d =>
        if lost d then journalReset (s.sess.store.jours d) else s.sess.store.jours d } }
    disk := fun d =>
      if lost d then ⟨fun _ => ⟨(s.disk 0).epoch, 0, 0, .free⟩, (s.disk 0).epoch⟩ else s.disk d
    todo := fun d => if lost d then [] else s.todo d }

end Volume

/-- What may happen to the devices. -/
inductive HistoryLabel where
  /-- A step of the open cache, or a write that reaches its device. -/
  | step (l : VolumeLabel)
  /-- `writer_freeze_and_rotate` returns `-KV_EFULL`. -/
  | rotateFails (d now : Nat)
  /-- The process ends, and the next open formats all devices. -/
  | format (now : Nat)
  /-- The process ends and the cache is opened again; the superblocks of some devices are lost. -/
  | reopen (lost : List Nat) (now : Nat)
deriving DecidableEq, Repr

/-- One step. -/
def Volume.history (s : Volume) : HistoryLabel → Option Volume
  | .step (.reopen _) => none
  | .step l => s.step l
  | .rotateFails d now => s.rotateFails d now
  | .format now => some (Volume.format s.cfg now)
  | .reopen lost now => (s.reformat lost).step (.reopen now)

end KvTier.Model
