import KvTier.Model.Index

/-!
# The requests of a put

`cache_put_impl` (cache.cpp:1187-1362) up to the point where its requests are queued: a payload
above the stripe threshold becomes one request per stripe part, a hot put two replicas, any other
put one request.
-/

namespace KvTier.Model

/-- The parts of `kv_config` and of the derived layout that the modelled code reads. -/
structure Config where
  nDevs : Nat
  regionCnt : Nat
  regionSizePages : Nat
  journalPages : Nat
  stripeThreshold : Nat
  stripeUnit : Nat
  maxLayers : Nat
deriving DecidableEq, Repr

/-- The arguments of `cache_put`: the tokens through their path hashes, the records through their
lengths, `hot` as `hot_check_path` answered, and the checksum of the staged stream for a striped
put. -/
structure PutArgs where
  prefixId : UInt64
  groupIdx : Nat
  path : Path
  expireTs : Nat
  lens : List Nat
  hot : Bool
  streamCrc : Nat
deriving DecidableEq, Repr

/-- `stripe_split` (chunk.cpp:113-121); its `unit` parameter has 32 bits. -/
def stripeSplit (totalLen stripeUnit : Nat) : Option Nat :=
  let unit := stripeUnit % 2 ^ 32
  if unit = 0 then none
  else
    let n := ((totalLen + unit - 1) / unit) % 2 ^ 32
    some (if n = 0 then 1 else n)

/-- The length of stripe part `part` (cache.cpp:1290-1293), in 64-bit arithmetic. -/
def sliceLen (stripeUnit streamLen part : Nat) : Nat :=
  min stripeUnit ((streamLen + 2 ^ 64 - part * stripeUnit % 2 ^ 64) % 2 ^ 64) % 2 ^ 32

/-- The request of stripe part `part` (cache.cpp:1275-1305). -/
def stripeReq (cfg : Config) (a : PutArgs) (ver : Nat) (shape : Shape)
    (streamLen nParts part : Nat) : PutReq where
  prefixId := a.prefixId
  groupIdx := a.groupIdx
  path := a.path
  expireTs := a.expireTs
  ver := ver
  flags := { Flags.empty with stripe := true }
  stripeIdx := part
  stripeCnt := nParts
  stripeTotal := streamLen
  dataLen := sliceLen cfg.stripeUnit streamLen part
  crc := a.streamCrc
  slot := 0
  shape := shape
  dev := (baseDev cfg.nDevs a.prefixId + part) % cfg.nDevs

/-- The request of one replica (cache.cpp:1314-1338), or of a plain put
(cache.cpp:1342-1360). -/
def plainReq (cfg : Config) (a : PutArgs) (ver : Nat) (shape : Shape) (flags : Flags)
    (slot : Nat) : PutReq where
  prefixId := a.prefixId
  groupIdx := a.groupIdx
  path := a.path
  expireTs := a.expireTs
  ver := ver
  flags := flags
  stripeIdx := 0
  stripeCnt := 0
  stripeTotal := 0
  dataLen := a.lens.sum % 2 ^ 32
  crc := 0
  slot := slot
  shape := shape
  dev := (baseDev cfg.nDevs a.prefixId + slot) % cfg.nDevs

/-- The requests of a put, or `none` for `-KV_EINVAL`. -/
def cachePutReqs (cfg : Config) (a : PutArgs) (ver : Nat) (shape : Shape) :
    Option (List PutReq) :=
  if maxGroups ≤ a.groupIdx ∨ cfg.maxLayers < a.lens.length then none
  else if cfg.stripeThreshold % 2 ^ 32 < a.lens.sum then
    let streamLen := a.lens.sum % 2 ^ 32
    match stripeSplit streamLen cfg.stripeUnit with
    | none => none
    | some nParts =>
      if maxStripeParts < nParts then none
      else some ((List.range nParts).map (stripeReq cfg a ver shape streamLen nParts))
  else if a.hot then
    let flags := { Flags.empty with replica := true, hot := true }
    some ((List.range 2).map (plainReq cfg a ver shape flags))
  else some [plainReq cfg a ver shape Flags.empty 0]

/-- The publish of a completed request (writer.cpp:218-231): `page` is where its batch was written,
`crc` the checksum of a payload that is not striped, `now` the clock. -/
def PutReq.args (r : PutReq) (page crc now : Nat) : PublishArgs where
  prefixId := r.prefixId
  groupIdx := r.groupIdx
  ver := r.ver
  addr :=
    { devId := r.dev
      pageNo := page
      pageOff := 0
      lenPages := payloadNpages r.dataLen
      lastWriteTs := now
      expireTs := r.expireTs
      crc := if r.flags.stripe then r.crc else crc }
  slot := r.slot
  flags := r.flags
  stripeIdx := r.stripeIdx
  stripeCnt := r.stripeCnt
  stripeTotal := r.stripeTotal
  dataLen := r.dataLen
  shape := some r.shape
  path := r.path

end KvTier.Model
