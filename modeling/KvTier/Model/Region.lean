import KvTier.Model.Live

/-!
# Regions and write cursors

The region manager of each device and the cursor of its writer: trimming a region, freeing one by
force, and the rotation that freezes the writer's region and opens another (region.hpp, region.cpp,
cache.cpp:425-436, gc.cpp:38-47, 151-178, writer.cpp:117-158).
-/

namespace KvTier.Model

open KvTier.Lib

/-- `KV_RG_FREE`, `KV_RG_OPEN` and `KV_RG_FROZEN`; no code sets `KV_RG_CLEANING`. -/
inductive RgState where
  | free
  | opened
  | frozen
deriving DecidableEq, Repr

/-- `RegionHdrSh` (region.hpp:49-56). -/
structure RegionHdr where
  epoch : Nat
  baseTs : Nat
  closeTs : Nat
  state : RgState
deriving DecidableEq, Repr

/-- A region as `RegionMgr::init` leaves it. -/
def RegionHdr.init : RegionHdr := ⟨0, 0, 0, .free⟩

/-- `RegionMgr` (region.hpp:58-87). -/
structure RegionMgr where
  rg : Nat → RegionHdr
  epochCounter : Nat

/-- The write cursor of a shard writer: its region and the next page, relative to the region's
header. -/
structure Cursor where
  region : Nat
  nextPage : Nat
deriving DecidableEq, Repr

/-- The index with its counters, the regions of every device and the writers' cursors. -/
structure Space where
  led : Ledger
  rms : Nat → RegionMgr
  cur : Nat → Cursor

/-- The regions after `cache_open_impl` formatted its devices (cache.cpp:1016-1036): region 0 of
every device is open. -/
def Space.format (cfg : Config) (now : Nat) : Space where
  led := Ledger.empty cfg
  rms _ := ⟨fun i => if i = 0 then ⟨1, now, 0, .opened⟩ else RegionHdr.init, 1⟩
  cur _ := ⟨0, 1⟩

namespace Space

/-- The configuration. -/
def cfg (s : Space) : Config := s.led.cfg

/-- Region `i` of device `d`. -/
def rg (s : Space) (d i : Nat) : RegionHdr := (s.rms d).rg i

/-- `live_bytes` of region `i` of device `d`. -/
def live (s : Space) (d i : Nat) : Int := s.led.live d i

/-- Replace a region's header in memory. -/
def setRg (s : Space) (d i : Nat) (h : RegionHdr) : Space :=
  let rm : RegionMgr := { s.rms d with rg := Function.update (s.rms d).rg i h }
  { s with rms := Function.update s.rms d rm }

/-- Set the counter of a region to 0. -/
def clearLive (s : Space) (d i : Nat) : Space :=
  { s with led := { s.led with
      live := Function.update s.led.live d (Function.update (s.led.live d) i 0) } }

/-- `trim_region` (cache.cpp:425-436). -/
def trimRegion (s : Space) (d i : Nat) : Space :=
  (s.setRg d i { s.rg d i with state := .free, epoch := 0, closeTs := 0 }).clearLive d i

/-- A region is made the one the writer goes on with (writer.cpp:140-153, cache.cpp:1100-1113). -/
def openRegion (s : Space) (d i now : Nat) : Space :=
  let epoch := (s.rms d).epochCounter + 1
  let s := (s.setRg d i ⟨epoch, now, 0, .opened⟩).clearLive d i
  { s with
    rms := Function.update s.rms d { s.rms d with epochCounter := epoch }
    cur := Function.update s.cur d ⟨i, 1⟩ }

/-- The first loop of `cache_force_free_region` (gc.cpp:154-161): a frozen region without live
bytes. -/
def emptyRegion (s : Space) (d avoid : Nat) : Option Nat :=
  (List.range s.cfg.regionCnt).find? fun i =>
    i != avoid && (s.rg d i).state == .frozen && s.live d i == 0

/-- The second loop (gc.cpp:163-172): the first frozen region with the fewest live
bytes. -/
def victimRegion (s : Space) (d avoid : Nat) : Option Nat :=
  ((List.range s.cfg.regionCnt).foldl
    (fun best i =>
      if i ≠ avoid ∧ (s.rg d i).state = .frozen ∧ s.live d i < best.2 then (some i, s.live d i)
      else best)
    ((none : Option Nat), (2 ^ 63 - 1 : Int))).1

/-- `cache_force_free_region` (gc.cpp:151-178); the second component is the region, or `none` for
-1. -/
def forceFreeRegion (s : Space) (d avoid : Nat) : Option (Space × Option Nat) :=
  match s.emptyRegion d avoid with
  | some i => some (s.trimRegion d i, some i)
  | none =>
    match s.victimRegion d avoid with
    | none => some (s, none)
    | some v => do
      let led ← s.led.dropRegion d v
      pure ({ s with led := led }.trimRegion d v, some v)

/-- The first half of `writer_freeze_and_rotate` (writer.cpp:123-131): the cursor's region is
frozen. -/
def freeze (s : Space) (d now : Nat) : Space :=
  s.setRg d (s.cur d).region { s.rg d (s.cur d).region with closeTs := now, state := .frozen }

/-- The region a rotation goes on with (writer.cpp:133-139): the next one in order if it is free,
else one freed by force. -/
def nextRegion (s : Space) (d : Nat) : Option (Space × Option Nat) :=
  let old := (s.cur d).region
  let next := (old + 1) % s.cfg.regionCnt
  if (s.rg d next).state = .free then some (s, some next) else s.forceFreeRegion d old

/-- `writer_freeze_and_rotate` (writer.cpp:117-158); `false` is `-KV_EFULL`. -/
def freezeAndRotate (s : Space) (d now : Nat) : Option (Space × Bool) := do
  let (s, r) ← (s.freeze d now).nextRegion d
  match r with
  | none => pure (s, false)
  | some next => pure (s.openRegion d next now, true)

/-- What `gc_tick` asks of a region before it trims it (gc.cpp:41-43, 107-112); the two places where
it does also ask for its age. -/
def trimmable (s : Space) (d i : Nat) : Bool :=
  (s.rg d i).state == .frozen && s.live d i == 0

end Space

end KvTier.Model
