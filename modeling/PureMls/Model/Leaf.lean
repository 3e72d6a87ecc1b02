import PureMls.Model.Crypto

/-! # Leaves, key packages and parent nodes

The wire structures that sit in the ratchet tree, with their encoders, decoders and
signatures. -/

namespace PureMls

/-! ## Credential -/

structure Credential where
  identity : Bytes
  credentialType : ℕ
  deriving DecidableEq

namespace Credential

def toBytes (credential : Credential) : Py Bytes := do
  let type ← tlsU16 credential.credentialType
  let identity ← tlsOpaque credential.identity
  pure (type ++ identity)

def fromBytesAt : Decoder Credential := do
  let type ← readU16
  let identity ← readOpaque
  pure ⟨identity, type⟩

def basic (identity : Bytes) : Credential := ⟨identity, 0x0001⟩

end Credential

/-! ## Capabilities -/

structure Capabilities where
  versions : List ℕ
  ciphersuites : List ℕ
  extensions : List ℕ
  proposals : List ℕ
  credentials : List ℕ
  deriving DecidableEq

namespace Capabilities

def default : Capabilities := ⟨[1], [0x0001], [1, 2, 4], [1, 2, 3], [1]⟩

def tlsVecVarint (vals : List ℕ) : Py Bytes := do
  let body ← joinBytes tlsU16 vals
  let size ← tlsVarint body.length
  pure (size ++ body)

def marshal (capabilities : Capabilities) : Py Bytes := do
  let versions ← tlsVecVarint capabilities.versions
  let ciphersuites ← tlsVecVarint capabilities.ciphersuites
  let extensions ← tlsVecVarint capabilities.extensions
  let proposals ← tlsVecVarint capabilities.proposals
  let credentials ← tlsVecVarint capabilities.credentials
  pure (versions ++ ciphersuites ++ extensions ++ proposals ++ credentials)

/-- A vector of uint16 values; the slice is not checked against the buffer. -/
def readVarintVec : Decoder (List ℕ) := do
  let length ← varintDecode
  let raw ← readSlice length
  pure ((chunks 2 raw).map beNat)

def fromBytesAt : Decoder Capabilities := do
  let versions ← readVarintVec
  let ciphersuites ← readVarintVec
  let extensions ← readVarintVec
  let proposals ← readVarintVec
  let credentials ← readVarintVec
  pure ⟨versions, ciphersuites, extensions, proposals, credentials⟩

end Capabilities

/-! ## LeafNode -/

/-- `LEAF_NODE_SOURCE_KEY_PACKAGE` -/
def leafNodeSourceKeyPackage : ℕ := 0x01

/-- `LEAF_NODE_SOURCE_UPDATE` -/
def leafNodeSourceUpdate : ℕ := 0x02

/-- `LEAF_NODE_SOURCE_COMMIT` -/
def leafNodeSourceCommit : ℕ := 0x03

structure LeafNode where
  encryptionKey : Bytes
  signatureKey : Bytes
  credential : Credential
  capabilities : Capabilities
  leafNodeSource : ℕ
  lifetime : Option (ℕ × ℕ)
  parentHash : Option Bytes
  extensions : List (ℕ × Bytes)
  signature : Bytes
  deriving DecidableEq

namespace LeafNode

/-- The fields up to and including `leaf_node_source`. -/
def head (leaf : LeafNode) : Py Bytes := do
  let encryptionKey ← tlsOpaque leaf.encryptionKey
  let signatureKey ← tlsOpaque leaf.signatureKey
  let credential ← leaf.credential.toBytes
  let capabilities ← leaf.capabilities.marshal
  let source ← tlsU8 leaf.leafNodeSource
  pure (encryptionKey ++ signatureKey ++ credential ++ capabilities ++ source)

/-- The block selected by `leaf_node_source`. -/
def sourceBlock (leaf : LeafNode) : Py Bytes :=
  if leaf.leafNodeSource = leafNodeSourceKeyPackage then
    match leaf.lifetime with
    | some (notBefore, notAfter) => do
      let nb ← tlsU64 notBefore
      let na ← tlsU64 notAfter
      pure (nb ++ na)
    | none => do
      let nb ← tlsU64 0
      let na ← tlsU64 0
      pure (nb ++ na)
  else if leaf.leafNodeSource = leafNodeSourceCommit then
    tlsOpaque (leaf.parentHash.getD [])
  else pure []

/-- The place in the group that update and commit leaves are bound to. -/
def groupBlock (leaf : LeafNode) (groupId : Bytes) (leafIndex : ℕ) : Py Bytes :=
  if leaf.leafNodeSource = leafNodeSourceUpdate ∨
      leaf.leafNodeSource = leafNodeSourceCommit then do
    let gid ← tlsOpaque groupId
    let index ← tlsU32 leafIndex
    pure (gid ++ index)
  else pure []

/-- LeafNodeTBS. -/
def tbsBytes (leaf : LeafNode) (groupId : Bytes) (leafIndex : ℕ) : Py Bytes := do
  let suite ← tlsU16 0x0001
  let head ← leaf.head
  let source ← leaf.sourceBlock
  let extensions ← tlsExtensions leaf.extensions
  let group ← leaf.groupBlock groupId leafIndex
  pure (suite ++ head ++ source ++ extensions ++ group)

def sign (leaf : LeafNode) (signFn : Bytes → Bytes) (groupId : Bytes) (leafIndex : ℕ) :
    Py LeafNode := do
  let tbs ← leaf.tbsBytes groupId leafIndex
  pure { leaf with signature := signFn tbs }

def verifySignature (C : Crypto) (leaf : LeafNode) (groupId : Bytes) (leafIndex : ℕ) :
    Py Unit := do
  Py.require (leaf.signature ≠ []) (.valueError "LeafNode has no signature")
  let key ← ed25519FromPublicBytes leaf.signatureKey
  let tbs ← leaf.tbsBytes groupId leafIndex
  ed25519Check C key leaf.signature tbs

def toBytes (leaf : LeafNode) : Py Bytes := do
  let head ← leaf.head
  let source ← leaf.sourceBlock
  let extensions ← tlsExtensions leaf.extensions
  let signature ← tlsOpaque leaf.signature
  pure (head ++ source ++ extensions ++ signature)

/-- Reads the block selected by the source that was just read. -/
def readSourceBlock (source : ℕ) : Decoder (Option (ℕ × ℕ) × Option Bytes) :=
  if source = leafNodeSourceKeyPackage then do
    let nb ← readU64
    let na ← readU64
    pure (some (nb, na), none)
  else if source = leafNodeSourceCommit then do
    let parentHash ← readOpaque
    pure (none, some parentHash)
  else pure (none, none)

def fromBytesAt : Decoder LeafNode := do
  let encryptionKey ← readOpaque
  let signatureKey ← readOpaque
  let credential ← Credential.fromBytesAt
  let capabilities ← Capabilities.fromBytesAt
  let source ← readU8
  let block ← readSourceBlock source
  let extensions ← readExtensions
  let signature ← readOpaque
  pure ⟨encryptionKey, signatureKey, credential, capabilities, source, block.1, block.2,
    extensions, signature⟩

/-- Create and sign the leaf of a new member. -/
def create (encryptionKey signatureKey identity : Bytes) (signFn : Bytes → Bytes) :
    Py LeafNode :=
  LeafNode.sign
    ⟨encryptionKey, signatureKey, Credential.basic identity, Capabilities.default,
      leafNodeSourceKeyPackage, none, none, [], []⟩
    signFn [] 0

end LeafNode

/-! ## KeyPackage -/

/-- A KeyPackage whose `_VERSION` and `_CIPHER_SUITE` are those of the class, as wherever this
library makes one. -/
structure KeyPackage where
  leafNode : LeafNode
  initKeyPub : Bytes
  leafNodeSignature : Bytes
  deriving DecidableEq

namespace KeyPackage

/-- KeyPackageTBS. -/
def tbsBytes (keyPackage : KeyPackage) : Py Bytes := do
  let version ← tlsU16 0x0001
  let suite ← tlsU16 0x0001
  let initKey ← tlsOpaque keyPackage.initKeyPub
  let leaf ← keyPackage.leafNode.toBytes
  let extensions ← tlsVarint 0
  pure (version ++ suite ++ initKey ++ leaf ++ extensions)

def verifySignature (C : Crypto) (keyPackage : KeyPackage) : Py Unit := do
  keyPackage.leafNode.verifySignature C [] 0
  Py.require (keyPackage.leafNodeSignature ≠ []) (.valueError "KeyPackage has no signature")
  let key ← ed25519FromPublicBytes keyPackage.leafNode.signatureKey
  let tbs ← keyPackage.tbsBytes
  ed25519Check C key keyPackage.leafNodeSignature tbs

def toBytes (keyPackage : KeyPackage) : Py Bytes := do
  let tbs ← keyPackage.tbsBytes
  let signature ← tlsOpaque keyPackage.leafNodeSignature
  pure (tbs ++ signature)

def fromBytesAt : Decoder KeyPackage := do
  let version ← readU16
  Decoder.lift (Py.require (version = 0x0001)
    (.valueError s!"Unsupported KeyPackage version: {hexLiteral 4 version}"))
  let suite ← readU16
  Decoder.lift (Py.require (suite = 0x0001)
    (.valueError s!"Unsupported cipher suite: {hexLiteral 4 suite}"))
  let initKeyPub ← readOpaque
  let leafNode ← LeafNode.fromBytesAt
  let _ ← readExtensions
  let signature ← readOpaque
  pure ⟨leafNode, initKeyPub, signature⟩

def fromBytes (data : Bytes) : Py KeyPackage := fromBytesAt.run data

/-- Build and sign a complete KeyPackage. -/
def create (encryptionKey initKeyPub signatureKey identity : Bytes) (signFn : Bytes → Bytes) :
    Py KeyPackage := do
  let leafNode ← LeafNode.create encryptionKey signatureKey identity signFn
  let tbs ← KeyPackage.tbsBytes ⟨leafNode, initKeyPub, []⟩
  pure ⟨leafNode, initKeyPub, signFn tbs⟩

end KeyPackage

/-- A KeyPackage whose `_VERSION` and `_CIPHER_SUITE` were passed to its constructor. -/
structure VersionedKeyPackage extends KeyPackage where
  version : ℕ
  cipherSuite : ℕ
  deriving DecidableEq

namespace VersionedKeyPackage

def tbsBytes (keyPackage : VersionedKeyPackage) : Py Bytes := do
  let version ← tlsU16 keyPackage.version
  let suite ← tlsU16 keyPackage.cipherSuite
  let initKey ← tlsOpaque keyPackage.initKeyPub
  let leaf ← keyPackage.leafNode.toBytes
  let extensions ← tlsVarint 0
  pure (version ++ suite ++ initKey ++ leaf ++ extensions)

def toBytes (keyPackage : VersionedKeyPackage) : Py Bytes := do
  let tbs ← keyPackage.tbsBytes
  let signature ← tlsOpaque keyPackage.leafNodeSignature
  pure (tbs ++ signature)

/-- What is read has the values of the class again. -/
def fromBytesAt : Decoder VersionedKeyPackage := do
  let keyPackage ← KeyPackage.fromBytesAt
  pure ⟨keyPackage, 0x0001, 0x0001⟩

end VersionedKeyPackage

/-- The KeyPackage view of a leaf. -/
def LeafNode.keyPackage (leaf : LeafNode) : KeyPackage :=
  ⟨leaf, leaf.encryptionKey, leaf.signature⟩

/-- The input of RefHash over a KeyPackage. -/
def kpRefInput (keyPackage : KeyPackage) : Py Bytes := do
  let kpBytes ← keyPackage.toBytes
  let label := ascii "MLS 1.0 KeyPackage Reference"
  let labelSize ← tlsVarint label.length
  let kpSize ← tlsVarint kpBytes.length
  pure (labelSize ++ label ++ kpSize ++ kpBytes)

def makeKpRef (C : Crypto) (keyPackage : KeyPackage) : Py Bytes :=
  C.sha256 <$> kpRefInput keyPackage

/-! ## ParentNode -/

structure ParentNode where
  publicKey : Bytes
  parentHash : Bytes
  unmergedLeaves : List ℕ
  deriving DecidableEq

namespace ParentNode

def unmergedLeavesBytes (parent : ParentNode) : Py Bytes := joinBytes tlsU32 parent.unmergedLeaves

def toBytes (parent : ParentNode) : Py Bytes := do
  let publicKey ← tlsOpaque parent.publicKey
  let parentHash ← tlsOpaque parent.parentHash
  let unmergedRaw ← parent.unmergedLeavesBytes
  let unmerged ← tlsOpaque unmergedRaw
  pure (publicKey ++ parentHash ++ unmerged)

def fromBytesAt : Decoder ParentNode := do
  let publicKey ← readOpaque
  let parentHash ← readOpaque
  let unmergedRaw ← readOpaque
  pure ⟨publicKey, parentHash, (chunks 4 unmergedRaw).map beNat⟩

end ParentNode

/-! ## Entries of the node array -/

inductive Node where
  | leaf (node : LeafNode)
  | parent (node : ParentNode)
  deriving DecidableEq

namespace Node

/-- The HPKE key of the node: a leaf's `public_key` is its encryption key. -/
def publicKey : Node → Bytes
  | leaf node => node.encryptionKey
  | parent node => node.publicKey

def toBytes : Node → Py Bytes
  | leaf node => node.toBytes
  | parent node => node.toBytes

end Node

end PureMls
