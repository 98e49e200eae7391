import KvTier.Model.Placement

/-!
# One tick of the garbage collector

`gc_tick` (gc.cpp:9-122) as far as leaves and regions go: the TTL sweep, the trims of empty regions,
the watermarks with their hysteresis, and the rounds that drop the oldest generation.
-/

namespace KvTier.Model

open KvTier.Lib

/-- What `gc_tick` reads of the configuration. -/
structure GcConfig where
  epochSecs : Nat
  gcStartPct : Nat
  gcStopPct : Nat
  gcStepGens : Nat
  minGenAgeSecs : Nat
deriving DecidableEq, Repr

/-- The percentages and the number of rounds with their defaults (gc.cpp:72-74). -/
def GcConfig.startPct (cfg : GcConfig) : Nat := orDefault cfg.gcStartPct 80
def GcConfig.stopPct (cfg : GcConfig) : Nat := orDefault cfg.gcStopPct 70
def GcConfig.steps (cfg : GcConfig) : Nat := orDefault cfg.gcStepGens 1

/-- `gc_draining` and `stat_gc_triggers`. -/
structure GcMarks where
  draining : Bool
  triggers : Nat
deriving DecidableEq, Repr

/-- A call of `cache_drop_region`, with the header of the region. -/
structure GcDrop where
  dev : Nat
  region : Nat
  hdr : RegionHdr
deriving DecidableEq, Repr

namespace Space

/-- All regions, in the order of the loops of `gc_tick`. -/
def regions (s : Space) : List (Nat × Nat) :=
  (List.range s.cfg.nDevs).flatMap fun d => (List.range s.cfg.regionCnt).map fun i => (d, i)

/-- `cap_bytes` (gc.cpp:66-67). -/
def capBytes (s : Space) : Nat :=
  (s.regions.map fun _ => s.cfg.regionSizePages * pageSize).sum % 2 ^ 64

/-- `live_total` (gc.cpp:68-69): the counters of the regions that are not free, each read as an
unsigned number. -/
def liveTotal (s : Space) : Nat :=
  (s.regions.map fun r =>
    if (s.rg r.1 r.2).state ≠ .free then ((s.live r.1 r.2) % 2 ^ 64).toNat else 0).sum % 2 ^ 64

/-- The trim pass (gc.cpp:38-47). -/
def trimPass (s : Space) (epochSecs now : Nat) : Space :=
  s.regions.foldl (fun s r =>
    if s.trimmable r.1 r.2 = true ∧ (s.rg r.1 r.2).closeTs ≠ 0 ∧
        ((s.rg r.1 r.2).baseTs + epochSecs) % 2 ^ 64 < now then s.trimRegion r.1 r.2 else s) s

end Space

/-- `over_start` and `over_stop` (gc.cpp:77-79), in 64 bits. -/
def overPct (cap live pct : Nat) : Bool :=
  cap != 0 && decide (cap * pct % 2 ^ 64 < live * 100 % 2 ^ 64)

/-- The hysteresis (gc.cpp:81-86). -/
def GcMarks.tick (m : GcMarks) (overStart overStop : Bool) : GcMarks :=
  if overStart && !m.draining then ⟨true, m.triggers + 1⟩
  else if !overStop && m.draining then { m with draining := false }
  else m

/-- Whether the first scan takes a region into account (gc.cpp:94-99). -/
def genEligible (minGenAge now : Nat) (h : RegionHdr) : Bool :=
  h.state == .frozen && h.epoch != 0 &&
    !(minGenAge != 0 && decide (now < (h.baseTs + minGenAge) % 2 ^ 64))

/-- The first scan (gc.cpp:90-103); `2 ^ 64 - 1` is the start value. -/
def oldestEpoch (s : Space) (minGenAge now : Nat) : Nat :=
  s.regions.foldl (fun oldest r =>
    if genEligible minGenAge now (s.rg r.1 r.2) = true ∧ (s.rg r.1 r.2).epoch < oldest then
      (s.rg r.1 r.2).epoch
    else oldest) (2 ^ 64 - 1)

/-- The second scan at one region (gc.cpp:108-115). -/
def dropGeneration (oldest : Nat) (st : Space × List GcDrop) (r : Nat × Nat) :
    Option (Space × List GcDrop) :=
  let h := st.1.rg r.1 r.2
  if h.state = .frozen ∧ h.epoch = oldest then
    (st.1.led.dropRegion r.1 r.2).map fun led =>
      let s := { st.1 with led := led }
      (if s.live r.1 r.2 = 0 then s.trimRegion r.1 r.2 else s, st.2 ++ [⟨r.1, r.2, h⟩])
  else some st

/-- One round (gc.cpp:90-117); `none` inside is the `break`. -/
def gcRound (minGenAge now : Nat) (s : Space) : Option (Option (Space × List GcDrop)) :=
  let oldest := oldestEpoch s minGenAge now
  if oldest = 2 ^ 64 - 1 then some none
  else (s.regions.foldlM (dropGeneration oldest) (s, [])).map some

/-- The rounds (gc.cpp:89-118), with the state each of them started from. -/
def gcRounds (minGenAge now : Nat) : Nat → Space → Option (Space × List (Space × List GcDrop))
  | 0, s => some (s, [])
  | n + 1, s => do
    match ← gcRound minGenAge now s with
    | none => some (s, [])
    | some (s', drops) =>
      let (s'', rest) ← gcRounds minGenAge now n s'
      some (s'', (s, drops) :: rest)

/-- The second half of `gc_tick` (gc.cpp:61-120): the marks, whether generations are dropped, and
the rounds. -/
structure GcDrain where
  marks : GcMarks
  ran : Bool
  space : Space
  rounds : List (Space × List GcDrop)

/-- The part of `gc_tick` behind the sweeps. -/
def gcDrain (cfg : GcConfig) (now : Nat) (m : GcMarks) (s : Space) : Option GcDrain :=
  let overStart := overPct s.capBytes s.liveTotal cfg.startPct
  let overStop := overPct s.capBytes s.liveTotal cfg.stopPct
  let m := m.tick overStart overStop
  if m.draining && overStop then
    (gcRounds cfg.minGenAgeSecs now cfg.steps s).map fun r => ⟨m, true, r.1, r.2⟩
  else some ⟨m, false, s, []⟩

/-- The first half (gc.cpp:19-47); `ttl` tells whether a second has passed since the last TTL sweep.
-/
def gcSwept (cfg : GcConfig) (now : Nat) (ttl : Bool) (s : Space) : Option Space :=
  (if ttl then s.led.ttlSweep now else some s.led).map fun led =>
    Space.trimPass { s with led := led } cfg.epochSecs now

/-- `gc_tick`. -/
def gcTick (cfg : GcConfig) (now : Nat) (ttl : Bool) (m : GcMarks) (s : Space) : Option GcDrain :=
  (gcSwept cfg now ttl s).bind (gcDrain cfg now m)

end KvTier.Model
