import KvTier.Lib.Codec
import KvTier.Model.Payload

/-!
# The superblock of a device

`RegionMgr::sb_load` and `RegionMgr::sb_write` (region.cpp:20-78) on the bytes of pages 0 and 1 of a
device, and the history of a device's superblocks: `format` writes the first one, every rotation and
every recovery counts `epoch_counter` up and writes the next, and every open reads it back.
-/

namespace KvTier.Model

open KvTier.Lib

/-- `Superblock` (region.hpp:14-27). -/
structure Superblock where
  magic : UInt32
  crc32 : UInt32
  fmtTs : UInt64
  devId : UInt16
  version : UInt16
  regionCnt : UInt32
  regionSizePages : UInt64
  regionBasePage : UInt64
  journalPage : UInt64
  journalPages : UInt64
  curEpoch : UInt64
  pad : Vector UInt8 448
deriving DecidableEq

/-- The layout of a superblock, packed. -/
def Superblock.codec : Codec Superblock :=
  (.pair .u32 <| .pair .u32 <| .pair .u64 <| .pair .u16 <| .pair .u16 <| .pair .u32 <| .pair .u64 <|
    .pair .u64 <| .pair .u64 <| .pair .u64 <| .pair .u64 (.bytes 448) : Codec _).iso
  (fun (magic, crc32, fmtTs, devId, version, regionCnt, regionSizePages, regionBasePage,
      journalPage, journalPages, curEpoch, pad) =>
    ⟨magic, crc32, fmtTs, devId, version, regionCnt, regionSizePages, regionBasePage, journalPage,
      journalPages, curEpoch, pad⟩)
  (fun sb => (sb.magic, sb.crc32, sb.fmtTs, sb.devId, sb.version, sb.regionCnt, sb.regionSizePages,
    sb.regionBasePage, sb.journalPage, sb.journalPages, sb.curEpoch, sb.pad))
  (fun _ => rfl)

/-- `KV_SB_MAGIC` (kvtier.h:37). -/
def sbMagic : UInt32 := 0x3143564B

/-- `sb_crc` (region.cpp:20-24): all but the checksum itself. -/
def sbCrc (sb : Superblock) : UInt32 :=
  let bs := Superblock.codec.enc sb
  ⟨crc32Partial (crc32Partial 0 (bs.take 4)) (bs.drop 8)⟩

/-- What `sb_load` finds in a page: a superblock, if it passes the check. -/
def sbOfPage (page : List UInt8) : Option Superblock :=
  let sb := Superblock.codec.dec page
  if sb.magic = sbMagic ∧ sbCrc sb = sb.crc32 then some sb else none

/-- `RegionMgr::sb_load` (region.cpp:28-55); `none` is `-KV_ENOENT`. -/
def sbLoad (dev : Nat → List UInt8) : Option Superblock :=
  match sbOfPage (dev 0), sbOfPage (dev 1) with
  | none, sb1 => sb1
  | some sb0, none => some sb0
  | some sb0, some sb1 =>
    if sb0.curEpoch < sb1.curEpoch ∨ (sb1.curEpoch = sb0.curEpoch ∧ sb0.fmtTs < sb1.fmtTs) then
      some sb1
    else some sb0

/-- What a region manager writes of itself: its device, its regions, and `base_ts` of its first
region, or the clock. -/
structure SbArgs where
  fmtTs : UInt64
  devId : UInt16
  regionCnt : UInt32
  regionSizePages : UInt64
deriving DecidableEq, Repr

/-- The superblock of `sb_write` (region.cpp:57-70). -/
def mkSuperblock (a : SbArgs) (epochCounter : UInt64) : Superblock :=
  let sb : Superblock :=
    { magic := sbMagic
      crc32 := 0
      fmtTs := a.fmtTs
      devId := a.devId
      version := 1
      regionCnt := a.regionCnt
      regionSizePages := a.regionSizePages
      regionBasePage := 2
      journalPage := 0
      journalPages := 0
      curEpoch := epochCounter
      pad := Vector.replicate 448 0 }
  { sb with crc32 := sbCrc sb }

/-- The page of a superblock (region.cpp:72-74). -/
def sbPage (sb : Superblock) : List UInt8 :=
  Superblock.codec.enc sb ++ List.replicate (pageSize - 512) 0

/-- The page `sb_write` goes to (region.cpp:76). -/
def sbDst (epochCounter : UInt64) : Nat := if epochCounter % 2 = 0 then 0 else 1

/-- A device over its sessions: its pages, `epoch_counter` of the manager while one runs, and, as
history, the superblock of the last `sb_write` that completed. -/
structure SbDevice where
  dev : Nat → List UInt8
  epochCounter : Option UInt64
  last : Option Superblock

/-- What may happen next. -/
inductive SbLabel where
  /-- `format`, of a device that has no superblock. -/
  | format (curEpoch : UInt64) (a : SbArgs)
  /-- A crash in the `sb_write` of a format; `page` is what is left of its page. -/
  | formatTorn (curEpoch : UInt64) (page : List UInt8)
  /-- `load`, by the next open. -/
  | load
  /-- `epoch_counter++` and `sb_write`: a rotation, or the end of an open. -/
  | write (a : SbArgs)
  /-- A crash in such an `sb_write`. -/
  | writeTorn (page : List UInt8)
  /-- The process ends. -/
  | stop
deriving DecidableEq

namespace SbDevice

/-- A device on which nothing was completed yet. -/
def fresh (dev : Nat → List UInt8) : SbDevice := ⟨dev, none, none⟩

/-- The 64-bit epoch counter does not wrap around in the next step. -/
def noWrap (s : SbDevice) (_ : SbLabel) : Prop :=
  ∀ e, s.epochCounter = some e → e.toNat + 1 < 2 ^ 64

/-- `sb_write` of a superblock that completes. -/
def sbWrite (s : SbDevice) (a : SbArgs) (epoch : UInt64) : SbDevice where
  dev := Function.update s.dev (sbDst epoch) (sbPage (mkSuperblock a epoch))
  epochCounter := some epoch
  last := some (mkSuperblock a epoch)

/-- `sb_write` that is torn by a crash. -/
def sbTorn (s : SbDevice) (epoch : UInt64) (page : List UInt8) : SbDevice :=
  { s with dev := Function.update s.dev (sbDst epoch) page, epochCounter := none }

/-- One step. -/
def step (s : SbDevice) : SbLabel → Option SbDevice
  | .format curEpoch a =>
    if s.epochCounter = none ∧ sbLoad s.dev = none then some (s.sbWrite a curEpoch) else none
  | .formatTorn curEpoch page =>
    if s.epochCounter = none ∧ sbLoad s.dev = none ∧ sbOfPage page = none then
      some (s.sbTorn curEpoch page)
    else none
  | .load =>
    match s.epochCounter, sbLoad s.dev with
    | none, some sb => some { s with epochCounter := some sb.curEpoch }
    | _, _ => none
  | .write a => s.epochCounter.map fun e => s.sbWrite a (e + 1)
  | .writeTorn page =>
    if sbOfPage page = none then s.epochCounter.map fun e => s.sbTorn (e + 1) page else none
  | .stop => some { s with epochCounter := none }

end SbDevice

end KvTier.Model
