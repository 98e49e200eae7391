import KvTier.Model.Journal
import KvTier.Model.Checkpoint

/-!
# Recovery of the index

`replay_apply` (cache.cpp:620-786) on one journal record, and the part of `cache_open_impl` that
loads the checkpoint, builds the side table and replays the journals in device order
(cache.cpp:1053-1066).
-/

namespace KvTier.Model

open KvTier.Lib

/-- `replay_part` (cache.cpp:620-625). -/
structure ReplayPart where
  devId : Nat
  pageNo : Nat
  lenPages : Nat
  dataLen : Nat
deriving DecidableEq, Repr

/-- A part as `assign` leaves it. -/
def ReplayPart.zero : ReplayPart := ⟨0, 0, 0, 0⟩

/-- `replay_stripe` (cache.cpp:627-635). -/
structure ReplayStripe where
  prefixId : UInt64
  groupIdx : Nat
  ver : Nat
  stripeCnt : Nat
  nSeen : Nat
  parts : List ReplayPart
deriving DecidableEq, Repr

/-- `replay_state` (cache.cpp:637-642) with the index it works on and the regions its TRIM records
name. -/
structure Replay where
  idx : Index
  stripes : List ReplayStripe
  maxVer : Nat
  trims : List (Nat × Nat)
deriving DecidableEq, Repr

/-- The entries of the reassembly table. -/
def replayStripeCap : Nat := 256

/-- Whether a table entry is the one of a record's put (cache.cpp:648-650). -/
def ReplayStripe.isFor (s : ReplayStripe) (r : JournalRec) : Bool :=
  s.prefixId == r.prefixId && s.groupIdx == r.groupIdx && s.ver == r.ver

/-- `replay_find_stripe` (cache.cpp:644-663): the table with an entry for the put of the record, and
the position of that entry. -/
def replayFindStripe (stripes : List ReplayStripe) (r : JournalRec) :
    Option (List ReplayStripe × Nat) :=
  match stripes.findIdx? (·.isFor r) with
  | some i => some (stripes, i)
  | none =>
    if replayStripeCap ≤ stripes.length ∨ r.stripeCnt < 2 then none
    else some (stripes ++ [⟨r.prefixId, r.groupIdx, r.ver, r.stripeCnt, 0,
      List.replicate r.stripeCnt ReplayPart.zero⟩], stripes.length)

/-- A part record fills its slot of the entry (cache.cpp:748-754). -/
def ReplayStripe.fill (s : ReplayStripe) (r : JournalRec) : ReplayStripe :=
  if r.stripeIdx < s.stripeCnt then
    { s with
      parts := s.parts.set r.stripeIdx ⟨r.addrDev, r.addrPage, r.addrLen, r.addrOff⟩
      nSeen := s.nSeen + 1 }
  else s

/-- `stream_len`, summed in 32 bits (cache.cpp:756-758). -/
def ReplayStripe.streamLen (s : ReplayStripe) : Nat :=
  ((s.parts.take s.stripeCnt).map (·.dataLen)).sum % 2 ^ 32

/-- The address of a replayed record (cache.cpp:732-740). -/
def replayAddr (r : JournalRec) : KvAddr where
  devId := r.addrDev
  pageNo := r.addrPage
  pageOff := 0
  lenPages := r.addrLen
  lastWriteTs := 0
  expireTs := r.expireTs
  crc := r.dataCrc

/-- The publish of part `p` of a complete entry (cache.cpp:760-773). -/
def replayPartArgs (r : JournalRec) (s : ReplayStripe) (shape : Option Shape) (p : Nat) :
    PublishArgs :=
  let part := s.parts.getD p ReplayPart.zero
  { prefixId := r.prefixId
    groupIdx := r.groupIdx
    ver := r.ver
    addr := { replayAddr r with
      devId := part.devId
      pageNo := part.pageNo
      lenPages := part.lenPages }
    slot := 0
    flags := { Flags.empty with stripe := true }
    stripeIdx := p
    stripeCnt := s.stripeCnt
    stripeTotal := s.streamLen
    dataLen := part.dataLen
    shape := shape
    path := r.path }

/-- The publish of a record that is not a stripe part (cache.cpp:779-784). -/
def replayArgs (r : JournalRec) (shape : Option Shape) : PublishArgs where
  prefixId := r.prefixId
  groupIdx := r.groupIdx
  ver := r.ver
  addr := replayAddr r
  slot := if r.flags.slot1 then 1 else 0
  flags := r.flags
  stripeIdx := 0
  stripeCnt := 0
  stripeTotal := 0
  dataLen := r.addrOff
  shape := shape
  path := r.path

/-- The record lengths a PUT record stands for (cache.cpp:717-727). -/
def replayLens (r : JournalRec) : List Nat :=
  let n := min r.nRecs maxLayersCap
  if r.flags.uniform then List.replicate n (r.lens.headD 0) else r.lens.take n

/-- The shape of a PUT record (cache.cpp:715-729). -/
def replayShape (shapes : List Shape) (r : JournalRec) : List Shape × Option Shape :=
  if r.nRecs = 0 then (shapes, none)
  else
    let (shapes, s) := shapePoolIntern shapes (replayLens r)
    (shapes, some s)

/-- The publishes of a complete entry, part by part. -/
def replayPublishAll (idx : Index) (node : Path) (r : JournalRec) (s : ReplayStripe)
    (shape : Option Shape) : Index :=
  (List.range s.stripeCnt).foldl (fun idx p => idx.publish node (replayPartArgs r s shape p)) idx

/-- `replay_apply` on a PUT record whose node is known (cache.cpp:715-785). -/
def replayPut (st : Replay) (node : Path) (r : JournalRec) : Replay :=
  let (shapes, shape) := replayShape st.idx.shapes r
  let idx := { st.idx with shapes := shapes }
  if 1 < r.stripeCnt then
    match replayFindStripe st.stripes r with
    | none => { st with idx := idx }
    | some (stripes, i) =>
      let s := (stripes.getD i ⟨0, 0, 0, 0, 0, []⟩).fill r
      let st := { st with idx := idx, stripes := stripes.set i s }
      if s.stripeCnt ≤ s.nSeen then
        { st with idx := replayPublishAll idx node r s shape }
      else st
  else { st with idx := idx.publish node (replayArgs r shape) }

/-- `replay_apply` (cache.cpp:671-786). -/
def replayApply (nDevs regionCnt : Nat) (st : Replay) (r : JournalRec) : Replay :=
  let st := { st with maxVer := max st.maxVer r.ver }
  match r.op with
  | .del =>
    match sideGet st.idx.side r.prefixId r.groupIdx with
    | none => st
    | some node =>
      match st.idx.tree.leafAt node with
      | none => st
      | some lf => if lf.refcnt = 0 then { st with idx := st.idx.drop node } else st
  | .trim =>
    if r.devId < nDevs ∧ r.addrPage < regionCnt then
      { st with trims := st.trims ++ [(r.devId, r.addrPage)] }
    else st
  | .put =>
    if sideGet st.idx.side r.prefixId r.groupIdx = none ∧ r.path = [] then st
    else
      let (idx, node) := resolveNode st.idx r.prefixId r.groupIdx r.path
      replayPut { st with idx := idx } node r

/-- Replay of one journal's records. -/
def replayJournal (nDevs regionCnt : Nat) (st : Replay) (rs : List JournalRec) : Replay :=
  rs.foldl (replayApply nDevs regionCnt) st

/-- The state replay starts from: the checkpoint's tree with its side table. -/
def replayInit (ckpt : Option CkptFile) (nDevs regionCnt regionSizePages : Nat) : Replay where
  idx := sideBuild (ckptLoad ckpt nDevs regionCnt regionSizePages).1
  stripes := []
  maxVer := 0
  trims := []

/-- `ckpt_load`, then the replay of every journal in device order
(cache.cpp:1053-1066). -/
def recover (ckpt : Option CkptFile) (nDevs regionCnt regionSizePages : Nat)
    (journals : Nat → List JournalRec) : Replay :=
  (List.range nDevs).foldl (fun st d => replayJournal nDevs regionCnt st (journals d))
    (replayInit ckpt nDevs regionCnt regionSizePages)

end KvTier.Model
