import KvTier.Model.Region
import KvTier.Model.Writer

/-!
# Where batches are written

What `cache_open_impl` makes of a configuration (cache.cpp:23-37, 859-960), and
`writer_submit_batch` (writer.cpp:256-355) with the cursor it advances and the rotation it asks for.
-/

namespace KvTier.Model

open KvTier.Lib

/-! ## The configuration -/

/-- The fields of `kv_config` that decide on the layout, or on whether the cache opens. -/
structure KvConfig where
  nGroupsTokens : Nat
  regionCnt : Nat
  regionSizePages : Nat
  journalPages : Nat
  stripeThreshold : Nat
  maxLayers : Nat
  batchMinBytes : Nat
  dramAllocBackend : Nat
  stripeUnit : Nat
  regionAlignBytes : Nat
  abiVersion : Nat
deriving DecidableEq, Repr

/-- `kv_config_default` (kv_config_defaults.h). -/
def kvConfigDefault : KvConfig where
  nGroupsTokens := 32
  regionCnt := 6
  regionSizePages := 0
  journalPages := 512
  stripeThreshold := 1024 * 1024
  maxLayers := maxLayersCap
  batchMinBytes := 256 * 1024
  dramAllocBackend := 0
  stripeUnit := 0
  regionAlignBytes := 0
  abiVersion := 2

/-- A field whose zero stands for a default. -/
def orDefault (x dflt : Nat) : Nat := if x = 0 then dflt else x

/-- The size of a region when the configuration leaves it open (cache.cpp:930-947): from the pages
of the first device, or `none` when some device does not exist yet. -/
def autoRegionPages (devPages : Option Nat) (journalPages regionCnt : Nat) : Nat :=
  match devPages with
  | none => 8192
  | some total =>
    let usable := total - journalPages
    if regionBasePage < usable then (usable - regionBasePage) / regionCnt else 8192

/-- The size of a region (cache.cpp:948-957): at least 64 pages, cut to the alignment. -/
def alignRegionPages (pages align : Nat) : Nat :=
  let pages := if pages < 64 then 64 else pages
  let aligned := pages * pageSize % 2 ^ 64 / align * align
  if pageSize < align ∧ 64 * pageSize ≤ aligned then aligned / pageSize else pages

/-- The configuration `cache_open_impl` starts from (cache.cpp:865-870). -/
def givenConfig (cfgIn : Option KvConfig) : KvConfig :=
  let k := cfgIn.getD kvConfigDefault
  if k.nGroupsTokens = 0 then kvConfigDefault else k

/-- The configuration `cache_open_impl` works with, or `none` where it returns `-KV_EINVAL`
(cache.cpp:859-960). -/
def cacheOpenConfig (cfgIn : Option KvConfig) (nDevs : Nat) (devPages : Option Nat) :
    Option WriterConfig :=
  let k := givenConfig cfgIn
  let regionCnt := orDefault k.regionCnt 6
  let journalPages := orDefault k.journalPages 512
  let pages := if k.regionSizePages = 0 then autoRegionPages devPages journalPages regionCnt
    else k.regionSizePages
  let cfg : Config :=
    { nDevs := nDevs
      regionCnt := regionCnt
      regionSizePages := alignRegionPages pages (orDefault k.regionAlignBytes pageSize)
      journalPages := journalPages
      stripeThreshold := orDefault k.stripeThreshold (1024 * 1024)
      stripeUnit := orDefault k.stripeUnit (256 * 1024)
      maxLayers := orDefault k.maxLayers maxLayersCap }
  let batchMin := orDefault k.batchMinBytes (256 * 1024)
  if h : 0 < nDevs ∧ 0 < batchMin then
    if 2 < k.abiVersion ∨ maxLayersCap < cfg.maxLayers ∨ batchMin % pageSize ≠ 0 ∨
        cfg.stripeThreshold < batchMin ∨ 3 < k.dramAllocBackend then none
    else some ⟨cfg, batchMin, h.1, h.2⟩
  else none

/-! ## Submitting batches -/

/-- The pages of a batch (writer.cpp:267-269). -/
def batchPages (reqs : List QReq) : Nat := (reqs.map fun r => payloadNpages r.req.dataLen).sum

/-- A batch that was submitted: `[start, start + npages)` on its device, from a region. -/
structure Write where
  dev : Nat
  region : Nat
  start : Nat
  npages : Nat
  reqs : List QReq
deriving DecidableEq, Repr

/-- Whether a write stays behind the header of its region and before the next region. -/
def Write.Inside (cfg : Config) (w : Write) : Prop :=
  w.region < cfg.regionCnt ∧ pageBase cfg w.region + 1 ≤ w.start ∧
    w.start + w.npages ≤ pageBase cfg w.region + cfg.regionSizePages

instance (cfg : Config) (w : Write) : Decidable (w.Inside cfg) :=
  inferInstanceAs (Decidable (_ ∧ _ ∧ _))

/-- The producers and writers with the regions they write to; `writes` is history. -/
structure Placing where
  ws : Writers
  sp : Space
  writes : List Write

namespace Placing

/-- The rotation of a submission, if its pages do not fit any more (writer.cpp:270-272). -/
def makeRoom (sp : Space) (d need now : Nat) : Option (Space × Bool) :=
  if sp.cfg.regionSizePages < (sp.cur d).nextPage + need then sp.freezeAndRotate d now
  else some (sp, true)

/-- The batch is written at the cursor (writer.cpp:287-289, 323-327). -/
def place (sp : Space) (d need : Nat) (reqs : List QReq) : Space × Write :=
  let c := sp.cur d
  ({ sp with cur := Function.update sp.cur d { c with nextPage := c.nextPage + need } },
    ⟨d, c.region, pageBase sp.cfg c.region + c.nextPage, need, reqs⟩)

/-- `writer_submit_batch` (writer.cpp:256-355). -/
def submit (s : Placing) (d now : Nat) : Option Placing :=
  let b := (s.ws.shards d).cur
  if b.reqs = [] then (s.ws.step (.submit d true)).map fun ws => { s with ws := ws }
  else do
    let need := batchPages b.reqs
    let (sp, room) ← makeRoom s.sp d need now
    let ws ← s.ws.step (.submit d room)
    if room then
      let (sp, w) := place sp d need b.reqs
      pure ⟨ws, sp, s.writes ++ [w]⟩
    else pure ⟨ws, sp, s.writes⟩

end Placing

end KvTier.Model
