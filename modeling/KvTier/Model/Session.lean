import KvTier.Model.Store

/-!
# Sessions

The store over any number of sessions.
-/

namespace KvTier.Model

open KvTier.Lib

/-- `journal_init` on an area that was written before (journal.cpp:9-19): the journal starts at its
first page. -/
def Journal.reinit (j : Journal) (journalPages : Nat) : Journal :=
  { j with
    journalPages := journalPages
    log := { j.log with curPage := 0, stage := [] }
    curOff := 0
    dropped := 0 }

/-- The highest version of a leaf (cache.cpp:1115-1120). -/
def maxLeafVer (t : Radix) : Nat := ((t.entries []).map (·.2.ver)).foldl max 0

/-- The cache over its devices. -/
structure Session where
  store : Store
  opening : Option Nat

/-- What may happen next. -/
inductive SessionLabel where
  /-- A step of the open cache, or of the open itself. -/
  | op (l : Label)
  /-- The process ends and the cache is opened again. -/
  | reopen (cfg : Config)
deriving DecidableEq, Repr

namespace Session

/-- The first session. -/
def format (cfg : Config) : Session := ⟨Store.format cfg, none⟩

/-- `cache_open_impl` up to the region it drops (cache.cpp:1012-1066). -/
def reopen (s : Store) (cfg : Config) : Session :=
  if cfg.regionCnt = s.cfg.regionCnt ∧ cfg.regionSizePages = s.cfg.regionSizePages then
    let jours d := (s.jours d).reinit cfg.journalPages
    let st := recover s.ckpt cfg.nDevs cfg.regionCnt cfg.regionSizePages
      fun d => journalRead (jours d)
    ⟨{ s with
        cfg := cfg
        idx := st.idx
        jours := jours
        verCounter := 0
        phase := .idle
        pending := []
        waiting := [] }, some st.maxVer⟩
  else ⟨{ Store.format cfg with acked := s.acked, hist := s.hist }, none⟩

/-- The rest of `cache_open_impl` (cache.cpp:1083-1131): leaves of the reused region are dropped,
the version counter goes on behind the highest version, and a checkpoint is written, with which the
open is done. -/
def openStep (s : Store) (maxVer : Nat) : Label → Option Session
  | .drop node => (s.step (.drop node)).map (⟨·, some maxVer⟩)
  | .ckpt =>
    ({ s with verCounter := max maxVer (maxLeafVer s.idx.tree) + 1 }.step .ckpt).map
      (⟨·, some maxVer⟩)
  | .reset => (s.step .reset).map fun s => ⟨s, if s.phase = .idle then none else some maxVer⟩
  | _ => none

/-- One step. -/
def step (s : Session) : SessionLabel → Option Session
  | .op l =>
    match s.opening with
    | none => (s.store.step l).map (⟨·, none⟩)
    | some maxVer => openStep s.store maxVer l
  | .reopen cfg => some (reopen s.store cfg)

end Session

end KvTier.Model
