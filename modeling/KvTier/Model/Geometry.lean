import KvTier.Model.Placement

/-!
# Geometry of the devices at an open

What `cache_open_impl` (cache.cpp:932-1051) makes of the configuration (`cacheOpenConfig`) and of
the device files: the files are looked at to size the regions, made or grown, and compared by their
superblocks with the geometry of the cache.
-/

namespace KvTier.Model

/-- The fields of a configuration have the widths of `kv_config` (kv_config_gen.h). -/
structure KvConfig.Fits (k : KvConfig) : Prop where
  regionCnt : k.regionCnt < 2 ^ 32
  journalPages : k.journalPages < 2 ^ 32

/-- A regular file behind a device URI: `st_size`, and `region_cnt` and `region_size_pages` of the
superblock `sb_load` finds. -/
structure DevFile where
  size : Nat
  size_lt : size < 2 ^ 63
  sb : Option (Nat × Nat)
deriving DecidableEq

namespace DevFile

/-- Whole pages of the file. -/
def pages (f : DevFile) : Nat := f.size / pageSize

end DevFile

/-- What sizes the regions (cache.cpp:933-942): the pages of the first device, if every file exists.
-/
def sizingPages (devs : List (Option DevFile)) : Option Nat :=
  if ∀ dev ∈ devs, dev.isSome then devs.head?.join.map DevFile.pages else none

/-- `dev_total` (cache.cpp:968-971). -/
def devTotal (cfg : Config) : Nat :=
  (regionBasePage + cfg.regionCnt * cfg.regionSizePages + cfg.journalPages) % 2 ^ 64

/-- A file made or grown to `pages`; `none` if that is no file size. -/
def ftruncate (pages : Nat) (sb : Option (Nat × Nat)) : Option DevFile :=
  if h : pages * pageSize < 2 ^ 63 then some ⟨pages * pageSize, h, sb⟩ else none

/-- `cache_prep_device` (cache.cpp:809-836). -/
def cachePrepDevice (pages : Nat) : Option DevFile → Option DevFile
  | none => ftruncate pages none
  | some f => if f.pages < pages then ftruncate pages f.sb else some f

/-- `FileDevice::open` (device.cpp:21-52): a device has at least 8 pages. -/
def fileDeviceOpen (f : DevFile) : Option DevFile := if f.pages < 8 then none else some f

/-- What an open leaves: the size of a region, for every device whether it was formatted, and the
device files. -/
structure OpenedDevices where
  regionPages : Nat
  formatted : List Bool
  devs : List DevFile
deriving DecidableEq

/-- `RegionMgr::load` accepts the superblock (region.cpp:103-111). -/
def sbMatches (cfg : Config) (f : DevFile) : Bool := f.sb == some (cfg.regionCnt, cfg.regionSizePages)

/-- Which devices an open formats: all of them if the first does not load (cache.cpp:1014-1019),
otherwise each that does not (cache.cpp:1044-1051). -/
def formattedDevs (cfg : Config) (fs : List DevFile) : List Bool :=
  if (fs.head?.map (sbMatches cfg)).getD false then fs.map fun f => !sbMatches cfg f
  else fs.map fun _ => true

/-- `cache_open_impl` as far as it concerns geometry; `none` if the open fails. -/
def openDevices (cfgIn : Option KvConfig) (devs : List (Option DevFile)) : Option OpenedDevices := do
  let w ← cacheOpenConfig cfgIn devs.length (sizingPages devs)
  let fs ← devs.mapM fun dev => (cachePrepDevice (devTotal w.toConfig) dev).bind fileDeviceOpen
  some
    { regionPages := w.toConfig.regionSizePages
      formatted := formattedDevs w.toConfig fs
      -- Format and recovery both end in `sb_write` of every device.
      devs := fs.map fun f => { f with sb := some (w.toConfig.regionCnt, w.toConfig.regionSizePages) } }

end KvTier.Model
