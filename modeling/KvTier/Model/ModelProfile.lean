import KvTier.Model.Placement

/-!
# Layouts derived from a model

model_profile.cpp: the bytes of a token group of a model, and the sizes that follow from them.
-/

namespace KvTier.Model

/-- `kv_attn_kind` (model_profile.h:24-33). -/
inductive AttnKind where
  | mha | mqa | gqa | mla | swa | ssm | hybrid | sparse
deriving DecidableEq, Repr

/-- `kv_model_profile` (model_profile.h:35-52). -/
structure KvModelProfile where
  kind : AttnKind
  nLayers : UInt16
  nKvHeads : UInt16
  headDim : UInt16
  dtypeBytes : UInt16
  latentDim : UInt32
  ropeDim : UInt32
  attnLayers : UInt16
  tokensPerGroup : UInt16
deriving DecidableEq, Repr

/-- `kv_mp_kv_layers` (model_profile.cpp:41-49). -/
def kvMpKvLayers (p : KvModelProfile) : Nat :=
  match p.kind with
  | .ssm => 0
  | .hybrid => orDefault p.attnLayers.toNat p.nLayers.toNat
  | _ => p.nLayers.toNat

/-- `kv_mp_bytes_per_token_layer` (model_profile.cpp:51-75), cut to 32 bits. -/
def kvMpBytesPerTokenLayer (p : KvModelProfile) : Nat :=
  let d := orDefault p.dtypeBytes.toNat 2
  let latent := (p.latentDim.toNat + p.ropeDim.toNat) * d
  let heads := 2 * p.nKvHeads.toNat * p.headDim.toNat * d
  match p.kind with
  | .ssm => 0
  | .mla => latent % 2 ^ 32
  | .mqa => 2 * p.headDim.toNat * d % 2 ^ 32
  | .sparse => (if p.latentDim ≠ 0 then latent else heads) % 2 ^ 32
  | _ => heads % 2 ^ 32

/-- What a sum or a product of 64-bit words leaves. -/
def wrap64 (x : Nat) : Nat := x % 2 ^ 64

section Words

-- the arithmetic of `uint64_t`: `wrap64`, or another one that agrees with it where nothing wraps
variable (w : Nat → Nat)

/-- `mp_align_up` (model_profile.cpp:22-26); the product is at most the sum. -/
def mpAlignUp (v a : Nat) : Nat := if a = 0 then v else w (v + a - 1) / a * a

/-- `mp_align_down` (model_profile.cpp:28-32). -/
def mpAlignDown (v a : Nat) : Nat := if a = 0 then v else v / a * a

/-- `lcm_u64` with `gcd_u64`, which is Euclid's loop (model_profile.cpp:7-20). -/
def lcmU64 (a b : Nat) : Nat := if a = 0 ∨ b = 0 then 0 else w (a / Nat.gcd a b * b)

/-- `kv_mp_group_layer_bytes` (model_profile.cpp:82-90) for the group size of the profile. -/
def kvMpGroupLayerBytes (p : KvModelProfile) : Nat :=
  w (kvMpBytesPerTokenLayer p * orDefault p.tokensPerGroup.toNat 32)

/-- `kv_mp_group_bytes` (model_profile.cpp:92-95). -/
def kvMpGroupBytes (p : KvModelProfile) : Nat := w (kvMpGroupLayerBytes w p * kvMpKvLayers p)

/-- `kv_model_tuning` (model_profile.h:78-87). -/
structure KvModelTuning where
  groupBytes : Nat
  stripeUnit : Nat
  stripeThreshold : Nat
  batchMinBytes : Nat
  regionAlignBytes : Nat
  dramEntryMaxBytes : Nat
deriving DecidableEq, Repr

/-- `kv_mp_tune` (model_profile.cpp:107-167); `none` where it returns `KV_MP_EINVAL`. -/
def kvMpTune (p : KvModelProfile) (pageSize regionSize targetStripe targetBatch : Nat) :
    Option KvModelTuning :=
  let layerBytes := kvMpGroupLayerBytes w p
  let groupBytes := kvMpGroupBytes w p
  if pageSize = 0 ∨ groupBytes = 0 then none
  else
    let targetStripe := orDefault targetStripe (256 * 1024)
    let targetBatch := orDefault targetBatch (256 * 1024)
    let unitGran := orDefault (lcmU64 w pageSize (orDefault layerBytes pageSize)) pageSize
    let threshold :=
      if targetStripe < groupBytes then mpAlignUp w targetStripe pageSize
      else orDefault (mpAlignDown targetStripe groupBytes) groupBytes
    let want := mpAlignUp w (max targetBatch groupBytes) pageSize
    let want := if groupBytes ≤ threshold then mpAlignUp w want groupBytes else want
    let want := if threshold < want then mpAlignDown threshold pageSize else want
    some
      { groupBytes := groupBytes
        stripeUnit := mpAlignUp w targetStripe unitGran
        stripeThreshold := threshold
        batchMinBytes := orDefault want pageSize
        regionAlignBytes := orDefault (mpAlignDown regionSize groupBytes) groupBytes
        dramEntryMaxBytes := mpAlignUp w groupBytes pageSize }

/-- `kv_mp_config_values` (model_profile.cpp:169-186): the tuning for the default targets, with the
bytes of a group for the alignment of regions. -/
def kvMpConfigValues (p : KvModelProfile) (pageSize : Nat) : Option KvModelTuning :=
  (kvMpTune w p pageSize 0 0 0).map fun t => { t with regionAlignBytes := t.groupBytes }

end Words

/-- A configuration with the values of a model (test_layout.cpp:85-92); `batch_min_bytes` has 32
bits there. -/
def KvConfig.withModel (k : KvConfig) (p : KvModelProfile) (t : KvModelTuning) : KvConfig :=
  { k with
    nGroupsTokens := orDefault p.tokensPerGroup.toNat 32
    maxLayers := kvMpKvLayers p
    stripeUnit := t.stripeUnit
    stripeThreshold := t.stripeThreshold
    batchMinBytes := t.batchMinBytes % 2 ^ 32
    regionAlignBytes := t.regionAlignBytes }

end KvTier.Model
