import KvTier.Model.Put
import KvTier.Model.Replay

/-!
# The running store

One open cache over its devices, as a state machine: puts issue requests, completed requests are
published and journaled under the index lock, journals are flushed, puts are acknowledged, leaves
are dropped (by an evict, a TTL sweep or a region drop), rotations add TRIM records, and
`cache_checkpoint` writes the checkpoint file and then clears the journals page by page.
-/

namespace KvTier.Model

open KvTier.Lib

/-- An operation that changed the index. -/
inductive Event where
  | publish (req : PutReq) (args : PublishArgs)
  | drop (prefixId : UInt64) (groupIdx : Nat)
deriving DecidableEq, Repr

/-- The key an event is about. -/
def Event.key : Event → UInt64 × Nat
  | .publish r _ => (r.prefixId, r.groupIdx)
  | .drop p g => (p, g)

/-- A completed request of a put that is not acknowledged yet. -/
structure Waiting where
  ver : Nat
  dev : Nat
  flushed : Bool
deriving DecidableEq, Repr

/-- Where `cache_checkpoint` is (cache.cpp:790-802). -/
inductive CkptPhase where
  | idle
  | resetting (dev page : Nat)
deriving DecidableEq, Repr

/-- The cache, its journals and checkpoint file, and the history of the run. -/
structure Store where
  cfg : Config
  idx : Index
  jours : Nat → Journal
  ckpt : Option CkptFile
  verCounter : Nat
  phase : CkptPhase
  pending : List PutReq
  waiting : List Waiting
  acked : List Nat
  hist : List Event

/-- What may happen next. -/
inductive Label where
  /-- `cache_put` queues its requests. -/
  | put (a : PutArgs)
  /-- Request `i` completes: its part of `on_batch_io_done` under the index lock. -/
  | publish (i page crc now : Nat)
  /-- `journal_flush` of a device. -/
  | flush (d : Nat)
  /-- The acknowledgement of the put with a version. -/
  | ack (v : Nat)
  /-- `leaf_drop` on a node. -/
  | drop (node : Path)
  /-- `journal_trim` of a rotation. -/
  | trim (d regionIdx epoch : Nat)
  /-- `ckpt_write` up to and including its rename. -/
  | ckpt
  /-- The next step of the journal resets of `cache_checkpoint`. -/
  | reset
deriving DecidableEq, Repr

/-- The store after `cache_open_impl` formatted its devices (cache.cpp:1016-1043). -/
def Store.format (cfg : Config) : Store where
  cfg := cfg
  idx := Index.empty
  jours d := ⟨d, cfg.journalPages, ⟨fun _ => [], 0, []⟩, 0, 0⟩
  ckpt := some (ckptWrite Index.empty 0 cfg.nDevs cfg.regionCnt cfg.regionSizePages)
  verCounter := 0
  phase := .idle
  pending := []
  waiting := []
  acked := []
  hist := []

/-- Append a record to one journal; the result code is ignored by the callers. -/
def Store.append (s : Store) (d : Nat) (r : JournalRec) : Store :=
  { s with jours := Function.update s.jours d (journalAppend (s.jours d) r).1 }

/-- `cache_put_impl` (cache.cpp:1187-1362): an inadmissible group or layer count is rejected before
a version is taken. -/
def Store.put (s : Store) (a : PutArgs) : Option Store :=
  if a.path.length ≠ a.groupIdx + 1 then none
  else if maxGroups ≤ a.groupIdx ∨ s.cfg.maxLayers < a.lens.length then some s
  else
    let ver := (s.verCounter + 1) % 2 ^ 32
    let (shapes, shape) := shapePoolIntern s.idx.shapes a.lens
    let s' := { s with idx := { s.idx with shapes := shapes }, verCounter := s.verCounter + 1 }
    match cachePutReqs s.cfg a ver shape with
    | none => some s'
    | some reqs => some { s' with pending := s.pending ++ reqs }

/-- A completed request under the index lock (writer.cpp:182-232). -/
def Store.publish (s : Store) (i page crc now : Nat) : Option Store :=
  if s.phase ≠ .idle then none
  else match s.pending[i]? with
    | none => none
    | some r =>
      let a := r.args page crc now
      let (idx, node) := resolveNode s.idx r.prefixId r.groupIdx r.path
      let res := leafPublish (idx.tree.leafAt node) a
      let s' := { s with
        idx := idx.publish node a
        pending := s.pending.eraseIdx i
        waiting := s.waiting ++ [⟨r.ver, r.dev, false⟩] }
      if res.accepted then
        some { s'.append r.dev (journalPutRec a) with hist := .publish r a :: s.hist }
      else some s'

/-- `journal_flush` (journal.cpp:216-219); the journal being cleared is locked. -/
def Store.flush (s : Store) (d : Nat) : Option Store :=
  match s.phase with
  | .resetting d' _ => if d = d' then none else some (go s)
  | .idle => some (go s)
where
  go (s : Store) : Store :=
    { s with
      jours := Function.update s.jours d (journalFlush (s.jours d))
      waiting := s.waiting.map fun w => if w.dev = d then { w with flushed := true } else w }

/-- The acknowledgement of a put: every request of it was published, and its journal flushed
afterwards (writer.cpp:241-248). -/
def Store.ack (s : Store) (v : Nat) : Option Store :=
  if (s.pending.any (·.ver == v)) ∨ ¬ (s.waiting.any (·.ver == v)) ∨
      (s.waiting.any fun w => w.ver == v && !w.flushed) then none
  else some { s with
    waiting := s.waiting.filter (·.ver != v)
    acked := v :: s.acked }

/-- `leaf_drop` on an unpinned leaf, under the index lock (cache.cpp:397-423). -/
def Store.drop (s : Store) (node : Path) : Option Store :=
  if s.phase ≠ .idle then none
  else match s.idx.tree.leafAt node with
    | none => none
    | some lf =>
      if lf.refcnt ≠ 0 ∨ s.cfg.nDevs ≤ lf.delJournal then none
      else
        let s' := { s with
          idx := s.idx.drop node
          hist := .drop lf.prefixId (groupOf node) :: s.hist }
        some (s'.append lf.delJournal (journalDelRec lf.prefixId (groupOf node)))

/-- `journal_trim` (writer.cpp:130). -/
def Store.trim (s : Store) (d regionIdx epoch : Nat) : Option Store :=
  match s.phase with
  | .resetting d' _ =>
    if d = d' then none else some (s.append d (journalTrimRec regionIdx epoch))
  | .idle => some (s.append d (journalTrimRec regionIdx epoch))

/-- `ckpt_write` (cache.cpp:795-796): the file is replaced in one rename. -/
def Store.writeCkpt (s : Store) : Option Store :=
  if s.phase ≠ .idle then none
  else some { s with
    ckpt := some (ckptWrite s.idx s.verCounter s.cfg.nDevs s.cfg.regionCnt
      s.cfg.regionSizePages)
    phase := .resetting 0 0 }

/-- One page write of the journal resets, or the end of one reset (cache.cpp:798-799). -/
def Store.reset (s : Store) : Option Store :=
  match s.phase with
  | .idle => none
  | .resetting d p =>
    if p < s.cfg.journalPages then
      some { s with
        jours := Function.update s.jours d (journalResetPage (s.jours d) p)
        phase := .resetting d (p + 1) }
    else
      some { s with
        jours := Function.update s.jours d (journalResetDone (s.jours d))
        phase := if d + 1 < s.cfg.nDevs then .resetting (d + 1) 0 else .idle }

/-- One step of the store. -/
def Store.step (s : Store) : Label → Option Store
  | .put a => s.put a
  | .publish i page crc now => s.publish i page crc now
  | .flush d => if d < s.cfg.nDevs then s.flush d else none
  | .ack v => s.ack v
  | .drop node => s.drop node
  | .trim d regionIdx epoch => if d < s.cfg.nDevs then s.trim d regionIdx epoch else none
  | .ckpt => s.writeCkpt
  | .reset => s.reset

/-- A run of the store. -/
def Store.run (s : Store) (ls : List Label) : Option Store := ls.foldlM Store.step s

/-- What the next `cache_open` rebuilds after a crash in this state. -/
def Store.recovered (s : Store) : Replay :=
  recover s.ckpt s.cfg.nDevs s.cfg.regionCnt s.cfg.regionSizePages
    (fun d => journalRead (s.jours d))

end KvTier.Model
