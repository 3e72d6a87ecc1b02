import PureMls.Model.RatchetTree

/-! # Key schedule and epoch state -/

namespace PureMls

/-! ## Pre-shared keys -/

structure PreSharedKeyID where
  pskType : ℕ
  pskId : Bytes
  pskNonce : Bytes
  usage : ℕ
  pskGroupId : Bytes
  pskEpoch : ℕ
  deriving DecidableEq

namespace PreSharedKeyID

/-- A VarInt length prefix from `hkdf.py` and the bytes. -/
def sized (data : Bytes) : Py Bytes := do
  let size ← varintEncode data.length
  pure (size ++ data)

def toBytes (psk : PreSharedKeyID) : Py Bytes :=
  if psk.pskType = 1 then do
    let type ← structPack 1 psk.pskType
    let pskId ← sized psk.pskId
    let nonce ← sized psk.pskNonce
    pure (type ++ pskId ++ nonce)
  else do
    let type ← structPack 1 psk.pskType
    let usage ← structPack 1 psk.usage
    let groupId ← sized psk.pskGroupId
    let epoch ← structPack 8 psk.pskEpoch
    let nonce ← sized psk.pskNonce
    pure (type ++ usage ++ groupId ++ epoch ++ nonce)

def fromBytesAt : Decoder PreSharedKeyID := do
  let type ← readU8
  if type = 1 then do
    let pskId ← readOpaque
    let nonce ← readOpaque
    pure ⟨type, pskId, nonce, 0, [], 0⟩
  else do
    let usage ← readU8
    let groupId ← readOpaque
    let epoch ← readU64
    let nonce ← readOpaque
    pure ⟨type, [], nonce, usage, groupId, epoch⟩

end PreSharedKeyID

/-- `b"\x00" * 32` -/
def zeros32 : Bytes := List.replicate 32 0

variable (C : Crypto)

/-- One round of the PSK chain. -/
def pskRound (count : ℕ) (acc : Bytes) (entry : (PreSharedKeyID × Bytes) × ℕ) : Py Bytes := do
  let extracted := hkdfExtract C zeros32 entry.1.2
  let id ← entry.1.1.toBytes
  let index ← structPack 2 entry.2
  let size ← structPack 2 count
  let input ← expandWithLabel C extracted "derived psk" (id ++ (index ++ size)) 32
  pure (hkdfExtract C input acc)

/-- `_psk_secret`; an absent list is the empty one. -/
def pskSecret (pskList : List (PreSharedKeyID × Bytes)) : Py Bytes :=
  pskList.zipIdx.foldlM (pskRound C pskList.length) zeros32

/-! ## Key schedule -/

structure KeySchedule where
  joinerSecret : Bytes
  epochSecret : Bytes
  senderDataSecret : Bytes
  encryptionSecret : Bytes
  exporterSecret : Bytes
  epochAuthenticator : Bytes
  externalSecret : Bytes
  resumptionPskSecret : Bytes
  confirmationKey : Bytes
  membershipKey : Bytes
  initSecret : Bytes
  deriving DecidableEq

namespace KeySchedule

/-- `_derive_epoch_secret`: the epoch secret and the joiner secret. -/
def deriveEpochSecret (initSecret commitSecret groupContext : Bytes)
    (pskList : List (PreSharedKeyID × Bytes)) : Py (Bytes × Bytes) := do
  let raw := hkdfExtract C initSecret commitSecret
  let joinerSecret ← expandWithLabel C raw "joiner" groupContext 32
  let psk ← pskSecret C pskList
  let intermediate := hkdfExtract C joinerSecret psk
  let epochSecret ← expandWithLabel C intermediate "epoch" groupContext 32
  pure (epochSecret, joinerSecret)

/-- `_from_epoch_secret` -/
def fromEpochSecret (epochSecret joinerSecret : Bytes) : Py KeySchedule := do
  let senderData ← deriveSecret C epochSecret "sender data"
  let encryption ← deriveSecret C epochSecret "encryption"
  let exporter ← deriveSecret C epochSecret "exporter"
  let authentication ← deriveSecret C epochSecret "authentication"
  let external ← deriveSecret C epochSecret "external"
  let resumption ← deriveSecret C epochSecret "resumption"
  let confirm ← deriveSecret C epochSecret "confirm"
  let membership ← deriveSecret C epochSecret "membership"
  let init ← deriveSecret C epochSecret "init"
  pure ⟨joinerSecret, epochSecret, senderData, encryption, exporter, authentication, external,
    resumption, confirm, membership, init⟩

def derive (initSecret commitSecret groupContext : Bytes)
    (pskList : List (PreSharedKeyID × Bytes)) : Py KeySchedule := do
  let (epochSecret, joinerSecret) ← deriveEpochSecret C initSecret commitSecret groupContext pskList
  fromEpochSecret C epochSecret joinerSecret

def deriveConfirmationKey (initSecret commitSecret groupContext : Bytes)
    (pskList : List (PreSharedKeyID × Bytes)) : Py Bytes := do
  let (epochSecret, _) ← deriveEpochSecret C initSecret commitSecret groupContext pskList
  deriveSecret C epochSecret "confirm"

def deriveWelcomeKey (joinerSecret psk : Bytes) : Py Bytes := do
  let welcome ← deriveSecret C (hkdfExtract C joinerSecret psk) "welcome"
  expandWithLabel C welcome "key" [] 16

def deriveWelcomeNonce (joinerSecret psk : Bytes) : Py Bytes := do
  let welcome ← deriveSecret C (hkdfExtract C joinerSecret psk) "welcome"
  expandWithLabel C welcome "nonce" [] 12

/-- All secrets in wire order. -/
def secrets (ks : KeySchedule) : List Bytes :=
  [ks.joinerSecret, ks.epochSecret, ks.senderDataSecret, ks.encryptionSecret, ks.exporterSecret,
    ks.epochAuthenticator, ks.externalSecret, ks.resumptionPskSecret, ks.confirmationKey,
    ks.membershipKey, ks.initSecret]

def toBytes (ks : KeySchedule) : Bytes := ks.secrets.flatten

def fromBytes (data : Bytes) : Py KeySchedule := do
  Py.require (data.length = 352)
    (.valueError s!"Invalid KeySchedule size: {data.length} (expected 352)")
  let field (i : ℕ) := slice data (32 * i) (32 * i + 32)
  pure ⟨field 0, field 1, field 2, field 3, field 4, field 5, field 6, field 7, field 8, field 9,
    field 10⟩

end KeySchedule

/-! ## Epoch state -/

structure EpochState where
  groupId : Bytes
  epochId : ℕ
  tree : RatchetTree
  keySchedule : KeySchedule
  deriving DecidableEq

namespace EpochState

def advanceEpoch (state : EpochState) (commitSecret : Bytes) (nextTree : RatchetTree)
    (groupContext : Bytes) (pskList : List (PreSharedKeyID × Bytes)) : Py EpochState := do
  let next ← KeySchedule.derive C state.keySchedule.initSecret commitSecret groupContext pskList
  pure ⟨state.groupId, state.epochId + 1, nextTree, next⟩

def genesis (groupId : Bytes) (creatorTree : RatchetTree) (groupContext : Bytes) :
    Py EpochState := do
  let keySchedule ← KeySchedule.derive C zeros32 zeros32 groupContext []
  pure ⟨groupId, 0, creatorTree, keySchedule⟩

def toBytes (state : EpochState) : Py Bytes := do
  let treeBytes ← state.tree.toBytes
  let gidLen ← toBytesBig 2 state.groupId.length
  let epoch ← toBytesBig 8 state.epochId
  let treeLen ← toBytesBig 4 treeBytes.length
  pure (gidLen ++ state.groupId ++ epoch ++ treeLen ++ treeBytes ++ state.keySchedule.toBytes)

def fromBytes (data : Bytes) : Py EpochState := do
  let gidLen := beNat (slice data 0 2)
  let groupId := slice data 2 (2 + gidLen)
  let epochId := beNat (slice data (2 + gidLen) (2 + gidLen + 8))
  let treeLen := beNat (slice data (2 + gidLen + 8) (2 + gidLen + 8 + 4))
  let treeStart := 2 + gidLen + 8 + 4
  let tree ← RatchetTree.fromBytes (slice data treeStart (treeStart + treeLen))
  let keySchedule ← KeySchedule.fromBytes
    (slice data (treeStart + treeLen) (treeStart + treeLen + 352))
  pure ⟨groupId, epochId, tree, keySchedule⟩

end EpochState

end PureMls
