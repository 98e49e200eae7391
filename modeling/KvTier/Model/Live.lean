import KvTier.Model.Put

/-!
# Live-byte accounting

The `live_bytes` counters of the regions and the operations that move them: publishes, drops, the
sweeps over the side table, trims and `cache_recompute_live`. A counter is reached through
`rms[dev_id].rg[region]`.
-/

namespace KvTier.Model

open KvTier.Lib

/-- `kRegionBasePage` (region.hpp:47). -/
def regionBasePage : Nat := 2

/-- `RegionMgr::page_base` (region.hpp:74-76). -/
def pageBase (cfg : Config) (region : Nat) : Nat := regionBasePage + region * cfg.regionSizePages

/-- `region_of_page` (cache.hpp:122-126); `none` is -1. -/
def regionOfPage (cfg : Config) (page : Nat) : Option Nat :=
  if page < regionBasePage then none else some ((page - regionBasePage) / cfg.regionSizePages)

/-- `live_bytes` of every region of every device. -/
abbrev Live := Nat → Nat → Int

/-- The bytes an extent contributes to one counter. -/
def extentBytes (cfg : Config) (e : Extent) (d r : Nat) : Int :=
  if e.devId = d ∧ regionOfPage cfg e.pageNo = some r then e.lenPages * pageSize else 0

/-- Whether the array accesses for an extent, if there are any, are in range. -/
def InRange (cfg : Config) (e : Extent) : Prop :=
  ∀ r, regionOfPage cfg e.pageNo = some r → e.devId < cfg.nDevs ∧ r < cfg.regionCnt

instance (cfg : Config) (e : Extent) : Decidable (InRange cfg e) :=
  decidable_of_iff ((regionOfPage cfg e.pageNo).all (fun r =>
      decide (e.devId < cfg.nDevs ∧ r < cfg.regionCnt)) = true)
    (by unfold InRange; cases regionOfPage cfg e.pageNo <;> simp)

/-- `region_live_add` and `region_live_sub` (cache.cpp:209-225), by the sign of the change. -/
def regionLive (sign : Int) (cfg : Config) (lv : Live) (e : Extent) : Option Live :=
  match regionOfPage cfg e.pageNo with
  | none => some lv
  | some r =>
    if cfg.nDevs ≤ e.devId ∨ cfg.regionCnt ≤ r then none
    else some (Function.update lv e.devId (Function.update (lv e.devId) r
      (lv e.devId r + sign * (e.lenPages * pageSize))))

/-- `region_live_add` (cache.cpp:209-216). -/
def regionLiveAdd (cfg : Config) (lv : Live) (e : Extent) : Option Live := regionLive 1 cfg lv e

/-- `region_live_sub` (cache.cpp:218-225). -/
def regionLiveSub (cfg : Config) (lv : Live) (e : Extent) : Option Live := regionLive (-1) cfg lv e

/-- `leaf_sub_live` (cache.cpp:227-239). -/
def leafSubLive (cfg : Config) (lv : Live) (lf : RadixLeaf) : Option Live :=
  lf.extents.foldlM (regionLiveSub cfg) lv

/-- The index with its counters. -/
structure Ledger where
  cfg : Config
  idx : Index
  live : Live

/-- The ledger of a formatted cache. -/
def Ledger.empty (cfg : Config) : Ledger := ⟨cfg, Index.empty, fun _ _ => 0⟩

/-- `leaf_publish` with its accounting (cache.cpp:278-395): what is replaced is subtracted before
the new extent is added. -/
def Ledger.publishAt (s : Ledger) (node : Path) (a : PublishArgs) : Option Ledger :=
  let res := leafPublish (s.idx.tree.leafAt node) a
  if res.oob then none
  else do
    let lv ← res.sub.foldlM (regionLiveSub s.cfg) s.live
    let lv ← res.add.foldlM (regionLiveAdd s.cfg) lv
    pure { s with idx := s.idx.publish node a, live := lv }

/-- A completed request, or a replayed record: the node is resolved and published to
(writer.cpp:184-231, cache.cpp:703-784). -/
def Ledger.publish (s : Ledger) (a : PublishArgs) : Option Ledger :=
  let (idx, node) := resolveNode s.idx a.prefixId a.groupIdx a.path
  Ledger.publishAt { s with idx := idx } node a

/-- `leaf_drop` with its accounting (cache.cpp:397-423). -/
def Ledger.dropAt (s : Ledger) (node : Path) : Option Ledger :=
  match s.idx.tree.leafAt node with
  | none => some s
  | some lf => do
    let lv ← leafSubLive s.cfg s.live lf
    pure { s with idx := s.idx.drop node, live := lv }

/-- `cache_evict_impl` on the node its tokens lead to (cache.cpp:1608-1619): a pinned leaf is busy.
-/
def Ledger.evict (s : Ledger) (path : Path) : Option Ledger :=
  match s.idx.tree.leafAt path with
  | none => some s
  | some lf => if 0 < lf.refcnt then some s else s.dropAt path

/-- One slot of a sweep over the side table: the leaf of its node is dropped if it is due and not
pinned. -/
def Ledger.sweepSlot (due : RadixLeaf → Bool) (s : Ledger) (slot : SideSlot) : Option Ledger :=
  match s.idx.tree.leafAt slot.node with
  | none => some s
  | some lf => if due lf && lf.refcnt == 0 then s.dropAt slot.node else some s

/-- A sweep over the side table. -/
def Ledger.sweep (due : RadixLeaf → Bool) (s : Ledger) : Option Ledger :=
  s.idx.side.foldlM (Ledger.sweepSlot due) s

/-- The test of the TTL sweep (gc.cpp:28-29). -/
def ttlDue (now : Nat) (lf : RadixLeaf) : Bool :=
  lf.addr0.expireTs != 0 && decide (lf.addr0.expireTs < now)

/-- The TTL sweep of `gc_tick` (gc.cpp:19-34). -/
def Ledger.ttlSweep (s : Ledger) (now : Nat) : Option Ledger := s.sweep (ttlDue now)

/-- Whether an extent starts in a region (cache.cpp:451-452, 460-461). -/
def Extent.startsIn (cfg : Config) (d region : Nat) (e : Extent) : Bool :=
  e.devId == d && decide (pageBase cfg region ≤ e.pageNo) &&
    decide (e.pageNo < pageBase cfg region + cfg.regionSizePages)

/-- `in_region` of `cache_drop_region` (cache.cpp:449-465). -/
def inRegion (cfg : Config) (d region : Nat) (lf : RadixLeaf) : Bool :=
  Extent.startsIn cfg d region lf.addr0.extent || Extent.startsIn cfg d region lf.addr1.extent ||
    ((lf.stripe.map (·.parts)).getD []).any (Extent.startsIn cfg d region)

/-- `cache_drop_region` (cache.cpp:438-476). -/
def Ledger.dropRegion (s : Ledger) (d region : Nat) : Option Ledger :=
  s.sweep (inRegion s.cfg d region)

/-- The trims of `gc_tick`: only a region with no live bytes is trimmed, and the counter is set to 0
(gc.cpp:38-47, 107-112, cache.cpp:425-436). -/
def Ledger.gcTrim (s : Ledger) (d region : Nat) : Option Ledger :=
  if s.live d region = 0 then
    some { s with live := Function.update s.live d (Function.update (s.live d) region 0) }
  else some s

/-- The counters are set to 0, and the extents of the leaves added. -/
def Ledger.recomputeOver (s : Ledger) (leaves : List (Path × RadixLeaf)) : Option Ledger := do
  let lv ← (leaves.flatMap (·.2.extents)).foldlM (regionLiveAdd s.cfg)
    (fun d r => if d < s.cfg.nDevs ∧ r < s.cfg.regionCnt then 0 else s.live d r)
  pure { s with live := lv }

/-- The leaves `radix_visit_leaves` comes to (radix.cpp:185-231): an edge with hash 0 is taken for an
empty slot. -/
def radixVisitLeaves (t : Radix) : List (Path × RadixLeaf) :=
  (t.entries []).filter fun e => decide (0 ∉ e.1)

/-- `cache_recompute_live` (cache.cpp:478-504). -/
def Ledger.cacheRecomputeLive (s : Ledger) : Option Ledger :=
  s.recomputeOver (radixVisitLeaves s.idx.tree)

/-- `cache_recompute_live` where no leaf lies below hash 0. -/
def Ledger.recompute (s : Ledger) : Option Ledger := s.recomputeOver (s.idx.tree.entries [])

/-- A reader takes or gives back its pin (cache.cpp:1448, 1466, 1573). -/
def Ledger.setPins (s : Ledger) (node : Path) (f : Nat → Nat) : Option Ledger :=
  match s.idx.tree.leafAt node with
  | none => some s
  | some lf =>
    some { s with idx := { s.idx with
      tree := s.idx.tree.setLeaf node (some { lf with refcnt := f lf.refcnt }) } }

/-- What may happen to the index and its counters. -/
inductive LiveLabel where
  /-- `leaf_publish` of a completed request or a replayed record. -/
  | publish (a : PublishArgs)
  /-- `leaf_drop` on a node. -/
  | drop (node : Path)
  /-- `cache_evict` along a path. -/
  | evict (path : Path)
  /-- The TTL sweep at a time. -/
  | ttl (now : Nat)
  /-- `cache_drop_region`. -/
  | dropRegion (d region : Nat)
  /-- A trim of `gc_tick`. -/
  | gcTrim (d region : Nat)
  /-- `cache_recompute_live` where no leaf lies below hash 0. -/
  | recompute
  /-- A reader pins the leaf of a node. -/
  | pin (node : Path)
  /-- A reader gives its pin back. -/
  | unpin (node : Path)
deriving DecidableEq, Repr

/-- One operation; `none` is an access outside an array. -/
def Ledger.step (s : Ledger) : LiveLabel → Option Ledger
  | .publish a => if a.path.length ≠ a.groupIdx + 1 then none else s.publish a
  | .drop node => s.dropAt node
  | .evict path => s.evict path
  | .ttl now => s.ttlSweep now
  | .dropRegion d region => s.dropRegion d region
  | .gcTrim d region => s.gcTrim d region
  | .recompute => s.recompute
  | .pin node => s.setPins node (· + 1)
  | .unpin node => s.setPins node (· - 1)

/-! ## Counters that are reset -/

/-- What the threads of an open cache do to the index and its counters. -/
inductive ResetLabel where
  | op (l : LiveLabel)
  /-- A counter is set to 0 whatever it was: `trim_region`, or a region that is opened
  (cache.cpp:431, writer.cpp:146). -/
  | clear (d region : Nat)
deriving DecidableEq, Repr

/-- One of these steps. -/
def Ledger.stepOrReset (s : Ledger) : ResetLabel → Option Ledger
  | .op l => s.step l
  | .clear d region =>
    some { s with live := Function.update s.live d (Function.update (s.live d) region 0) }

end KvTier.Model
