import PureMls.Foundation.Dict
import PureMls.Model.KeySchedule

/-! # Messages

Group context, Welcome, commits and the transcript that links them. -/

namespace PureMls

/-! ## GroupContext -/

structure GroupContext where
  groupId : Bytes
  epoch : ℕ
  treeHash : Bytes
  confirmedTranscriptHash : Bytes
  extensionsBytes : Bytes
  deriving DecidableEq

namespace GroupContext

def toBytes (ctx : GroupContext) : Py Bytes := do
  let version ← toBytesBig 2 0x0001
  let suite ← toBytesBig 2 0x0001
  let groupId ← tlsOpaque ctx.groupId
  let epoch ← toBytesBig 8 ctx.epoch
  let treeHash ← tlsOpaque ctx.treeHash
  let cth ← tlsOpaque ctx.confirmedTranscriptHash
  let extensions ← tlsOpaque ctx.extensionsBytes
  pure (version ++ suite ++ groupId ++ epoch ++ treeHash ++ cth ++ extensions)

def fromBytesAt : Decoder GroupContext := do
  let version ← readU16
  Decoder.lift (Py.require (version = 0x0001)
    (.valueError s!"Unsupported GroupContext version: {hexLiteral 4 version}"))
  let suite ← readU16
  Decoder.lift (Py.require (suite = 0x0001)
    (.valueError s!"Unsupported cipher suite: {hexLiteral 4 suite}"))
  let groupId ← readOpaque
  let epoch ← readU64
  let treeHash ← readOpaque
  let cth ← readOpaque
  let extLen ← varintDecode
  let extensionsBytes ← readSlice extLen
  pure ⟨groupId, epoch, treeHash, cth, extensionsBytes⟩

end GroupContext

/-- `_make_group_context` -/
def makeGroupContext (C : Crypto) (groupId : Bytes) (epochId : ℕ) (tree : RatchetTree)
    (confirmedTranscriptHash : Bytes) : Py GroupContext := do
  let treeHash ← tree.treeHash C
  pure ⟨groupId, epochId, treeHash, confirmedTranscriptHash, []⟩

/-! ## Welcome -/

structure GroupSecrets where
  joinerSecret : Bytes
  pathSecret : Option Bytes
  psks : List PreSharedKeyID
  deriving DecidableEq

namespace GroupSecrets

/-- The optional path secret; an empty one counts as absent. -/
def pathBytes (secrets : GroupSecrets) : Py Bytes :=
  if secrets.pathSecret.getD [] ≠ [] then do
    let path ← tlsOpaque (secrets.pathSecret.getD [])
    pure (0x01 :: path)
  else pure [0x00]

def toBytes (secrets : GroupSecrets) : Py Bytes := do
  let joiner ← tlsOpaque secrets.joinerSecret
  let path ← secrets.pathBytes
  let pskBytes ← joinBytes PreSharedKeyID.toBytes secrets.psks
  let psks ← tlsOpaque pskBytes
  pure (joiner ++ path ++ psks)

def readPathSecret : Decoder (Option Bytes) := do
  let hasPath ← readU8
  if hasPath ≠ 0 then do
    let path ← readOpaque
    pure (some path)
  else pure none

/-- The PSK identifiers, absent when the buffer ends before them. -/
def readPsks : Decoder (List PreSharedKeyID) := fun data offset =>
  if offset < data.length then do
    let (length, offset) ← varintDecode data offset
    PreSharedKeyID.fromBytesAt.whileBelow (offset + length) (data.length + 1) data offset
  else pure ([], offset)

def fromBytesAt : Decoder GroupSecrets := do
  let joinerSecret ← readOpaque
  let pathSecret ← readPathSecret
  let psks ← readPsks
  pure ⟨joinerSecret, pathSecret, psks⟩

def fromBytes (data : Bytes) : Py GroupSecrets := fromBytesAt.run data

end GroupSecrets

structure EncryptedGroupSecrets where
  newMember : Bytes
  kemOutput : Bytes
  ciphertext : Bytes
  deriving DecidableEq

structure Welcome where
  cipherSuite : ℕ
  encryptedGroupSecrets : List EncryptedGroupSecrets
  encryptedGroupInfo : Bytes
  deriving DecidableEq

/-! ## GroupInfo -/

/-- `rawData` is the buffer that `from_bytes` has read, and empty before. -/
structure GroupInfo where
  groupContext : GroupContext
  extensionsBytes : Bytes
  confirmationTag : Bytes
  signer : ℕ
  signature : Bytes
  rawData : Bytes
  deriving DecidableEq

namespace GroupInfo

def tbsBytes (info : GroupInfo) : Py Bytes := do
  let ctx ← info.groupContext.toBytes
  let extensions ← tlsOpaque info.extensionsBytes
  let tag ← tlsOpaque info.confirmationTag
  let signer ← tlsU32 info.signer
  pure (ctx ++ extensions ++ tag ++ signer)

def toBytes (info : GroupInfo) : Py Bytes := do
  let tbs ← info.tbsBytes
  let signature ← tlsOpaque info.signature
  pure (tbs ++ signature)

/-- The signer index: four bytes taken without a bounds check. -/
def readSigner : Decoder ℕ := do
  let raw ← readSlice 4
  pure (beNat raw)

/-- The fields that `from_bytes` constructs the object from. -/
def fromBytesAt : Decoder GroupInfo := do
  let groupContext ← GroupContext.fromBytesAt
  let extLen ← varintDecode
  let extensionsBytes ← readSlice extLen
  let confirmationTag ← readOpaque
  let signer ← readSigner
  let signature ← readOpaque
  pure ⟨groupContext, extensionsBytes, confirmationTag, signer, signature, []⟩

def fromBytes (data : Bytes) : Py GroupInfo := do
  let obj ← fromBytesAt.run data
  pure { obj with rawData := data }

/-- SignerContent of the GroupInfo. -/
def signerContent (info : GroupInfo) : Py Bytes := do
  let label ← tlsOpaque (ascii "MLS 1.0 GroupInfoTBS")
  let tbs ← info.tbsBytes
  let content ← tlsOpaque tbs
  pure (label ++ content)

def buildAndSign (C : Crypto) (groupContext : GroupContext) (confirmationTag : Bytes)
    (signer : ℕ) (sigKey : SignatureKey) (extensions : List (ℕ × Bytes)) : Py GroupInfo := do
  let extBytes ← joinBytes tlsExtension extensions
  let info : GroupInfo := ⟨groupContext, extBytes, confirmationTag, signer, [], []⟩
  let payload ← info.signerContent
  pure { info with signature := sigKey.sign C payload }

def verify (C : Crypto) (info : GroupInfo) (committerSigKey : Bytes) : Py Unit := do
  let payload ← info.signerContent
  Py.require (SignatureKey.verify C committerSigKey info.signature payload)
    (.valueError "Ed25519 signature verification failed for GroupInfo")

end GroupInfo

/-! ## UpdatePath -/

structure HPKECiphertext where
  kemOutput : Bytes
  ciphertext : Bytes
  deriving DecidableEq

namespace HPKECiphertext

def toBytes (ct : HPKECiphertext) : Py Bytes := do
  let kemOutput ← tlsOpaque ct.kemOutput
  let ciphertext ← tlsOpaque ct.ciphertext
  pure (kemOutput ++ ciphertext)

def fromBytesAt : Decoder HPKECiphertext := do
  let kemOutput ← readOpaque
  let ciphertext ← readOpaque
  pure ⟨kemOutput, ciphertext⟩

end HPKECiphertext

structure UpdatePathNode where
  newPublicKey : Bytes
  encryptedPathSecret : List HPKECiphertext
  deriving DecidableEq

namespace UpdatePathNode

def toBytes (node : UpdatePathNode) : Py Bytes := do
  let enc ← joinBytes HPKECiphertext.toBytes node.encryptedPathSecret
  let newPublicKey ← tlsOpaque node.newPublicKey
  let count ← tlsU32 node.encryptedPathSecret.length
  pure (newPublicKey ++ count ++ enc)

def fromBytesAt : Decoder UpdatePathNode := do
  let newPublicKey ← readOpaque
  let n ← readU32
  let encryptedPathSecret ← HPKECiphertext.fromBytesAt.times n
  pure ⟨newPublicKey, encryptedPathSecret⟩

end UpdatePathNode

structure UpdatePath where
  leafKeyPackage : KeyPackage
  nodes : List UpdatePathNode
  deriving DecidableEq

namespace UpdatePath

def toBytes (path : UpdatePath) : Py Bytes := do
  let kpBytes ← path.leafKeyPackage.toBytes
  let nodesBytes ← joinBytes UpdatePathNode.toBytes path.nodes
  let kp ← tlsOpaque kpBytes
  let count ← tlsU32 path.nodes.length
  pure (kp ++ count ++ nodesBytes)

def fromBytesAt : Decoder UpdatePath := do
  let kpBytes ← readOpaque
  let kp ← Decoder.lift (KeyPackage.fromBytes kpBytes)
  let n ← readU32
  let nodes ← UpdatePathNode.fromBytesAt.times n
  pure ⟨kp, nodes⟩

def fromBytes (data : Bytes) : Py UpdatePath := fromBytesAt.run data

end UpdatePath

/-! ## GroupUpdate -/

/-- A commit. The optional fields after `updatePath` are context that is not on the wire. -/
structure GroupUpdate where
  epochId : ℕ
  tree : RatchetTree
  encryptedCommitSecrets : Dict Bytes Bytes
  committerIndex : ℕ
  signature : Bytes
  groupId : Bytes
  updatePath : Option UpdatePath
  groupCtx : Option GroupContext
  oldGroupCtx : Option GroupContext
  confirmationKey : Option Bytes
  epochAuthenticator : Option Bytes
  membershipKey : Option Bytes
  transcriptHash : Option Bytes
  confirmationTag : Option Bytes
  membershipTag : Option Bytes
  deriving DecidableEq

namespace GroupUpdate

def secretBytes (entry : Bytes × Bytes) : Py Bytes := do
  let kpRef ← tlsOpaque entry.1
  let encCt ← tlsOpaque entry.2
  pure (kpRef ++ encCt)

/-- `sorted(self.encrypted_commit_secrets.items())` -/
def sortedSecrets (update : GroupUpdate) : List (Bytes × Bytes) :=
  sortedBy (fun a b => a.1 ≤ b.1) update.encryptedCommitSecrets.entries

def pathBytes (update : GroupUpdate) : Py Bytes :=
  match update.updatePath with
  | some path => do
    let pathBytes ← path.toBytes
    let path ← tlsOpaque32 pathBytes
    pure (0x01 :: path)
  | none => pure [0x00]

/-- `_body_bytes`: the unsigned commit. -/
def bodyBytes (update : GroupUpdate) : Py Bytes := do
  let treeRaw ← update.tree.toBytes
  let secrets ← joinBytes secretBytes update.sortedSecrets
  let epoch ← tlsU64 update.epochId
  let tree ← tlsOpaque32 treeRaw
  let count ← tlsU32 update.encryptedCommitSecrets.entries.length
  let committer ← tlsU32 update.committerIndex
  let path ← update.pathBytes
  pure (epoch ++ tree ++ count ++ secrets ++ committer ++ path)

def toBytes (update : GroupUpdate) : Py Bytes := do
  let body ← update.bodyBytes
  let signature ← tlsOpaque update.signature
  pure (body ++ signature)

def readSecret : Decoder (Bytes × Bytes) := do
  let kpRef ← readOpaque
  let encCt ← readOpaque
  pure (kpRef, encCt)

def readPath : Decoder (Option UpdatePath) := do
  let hasPath ← readU8
  if hasPath ≠ 0 then do
    let upBytes ← readOpaque32
    let path ← Decoder.lift (UpdatePath.fromBytes upBytes)
    pure (some path)
  else pure none

def fromBytesAt : Decoder GroupUpdate := do
  let epochId ← readU64
  let treeRaw ← readOpaque32
  let tree ← Decoder.lift (RatchetTree.fromBytes treeRaw)
  let secretsCount ← readU32
  let secrets ← readSecret.times secretsCount
  let committerIndex ← readU32
  let updatePath ← readPath
  let signature ← readOpaque
  pure ⟨epochId, tree, secrets.foldl (fun d entry => d.set entry.1 entry.2) Dict.empty,
    committerIndex, signature, [], updatePath, none, none, none, none, none, none, none, none⟩

def fromBytes (data : Bytes) : Py GroupUpdate := fromBytesAt.run data

end GroupUpdate

/-! ## FramedContent and PublicMessage -/

structure FramedContent where
  groupId : Bytes
  epoch : ℕ
  senderLeafIndex : ℕ
  authenticatedData : Bytes
  content : Bytes
  deriving DecidableEq

namespace FramedContent

def toBytes (framed : FramedContent) : Py Bytes := do
  let groupId ← tlsOpaque framed.groupId
  let epoch ← tlsU64 framed.epoch
  let senderType ← tlsU8 0x01
  let sender ← tlsU32 framed.senderLeafIndex
  let data ← tlsOpaque framed.authenticatedData
  let contentType ← tlsU8 0x03
  let content ← tlsOpaque32 framed.content
  pure (groupId ++ epoch ++ senderType ++ sender ++ data ++ contentType ++ content)

def fromBytesAt : Decoder FramedContent := do
  let groupId ← readOpaque
  let epoch ← readU64
  let senderType ← readU8
  Decoder.lift (Py.require (senderType = 0x01)
    (.valueError s!"Unsupported SenderType: {hexLiteral 2 senderType}"))
  let senderLeafIndex ← readU32
  let authenticatedData ← readOpaque
  let contentType ← readU8
  Decoder.lift (Py.require (contentType = 0x03)
    (.valueError s!"Unsupported ContentType: {hexLiteral 2 contentType}"))
  let content ← readOpaque32
  pure ⟨groupId, epoch, senderLeafIndex, authenticatedData, content⟩

def fromBytes (data : Bytes) : Py FramedContent := fromBytesAt.run data

end FramedContent

structure FramedContentAuthData where
  signature : Bytes
  confirmationTag : Bytes
  deriving DecidableEq

namespace FramedContentAuthData

def toBytes (auth : FramedContentAuthData) : Py Bytes := do
  let signature ← tlsOpaque auth.signature
  let confirmationTag ← tlsOpaque auth.confirmationTag
  pure (signature ++ confirmationTag)

def fromBytesAt : Decoder FramedContentAuthData := do
  let signature ← readOpaque
  let confirmationTag ← readOpaque
  pure ⟨signature, confirmationTag⟩

end FramedContentAuthData

structure PublicMessage where
  content : FramedContent
  auth : FramedContentAuthData
  membershipTag : Bytes
  deriving DecidableEq

namespace PublicMessage

def toBytes (message : PublicMessage) : Py Bytes := do
  let contentBytes ← message.content.toBytes
  let content ← tlsOpaque32 contentBytes
  let authBytes ← message.auth.toBytes
  let auth ← tlsOpaque32 authBytes
  let membershipTag ← tlsOpaque message.membershipTag
  pure (content ++ auth ++ membershipTag)

def fromBytesAt : Decoder PublicMessage := do
  let contentBytes ← readOpaque32
  let authBytes ← readOpaque32
  let membershipTag ← readOpaque
  let content ← Decoder.lift (FramedContent.fromBytes contentBytes)
  let auth ← Decoder.lift (FramedContentAuthData.fromBytesAt.run authBytes)
  pure ⟨content, auth, membershipTag⟩

def fromBytes (data : Bytes) : Py PublicMessage := fromBytesAt.run data

def fromGroupUpdate (C : Crypto) (update : GroupUpdate) (confirmationKey transcriptHash : Bytes)
    (oldGroupCtx : GroupContext) : Py PublicMessage := do
  let commitBody ← update.toBytes
  match update.membershipTag with
  | none => .error (.valueError "GroupUpdate is missing _membership_tag")
  | some tag =>
    let content : FramedContent :=
      ⟨oldGroupCtx.groupId, oldGroupCtx.epoch, update.committerIndex, [], commitBody⟩
    pure ⟨content, ⟨update.signature, C.hmacSha256 confirmationKey transcriptHash⟩, tag⟩

def toGroupUpdate (message : PublicMessage) : Py GroupUpdate := do
  let update ← GroupUpdate.fromBytes message.content.content
  pure { update with
    signature := message.auth.signature
    confirmationTag := some message.auth.confirmationTag
    groupId := message.content.groupId
    membershipTag := some message.membershipTag }

end PublicMessage

/-! ## MLSMessage -/

/-- The outermost frame: a wire format and its payload. -/
structure MLSMessage where
  wireFormat : ℕ
  body : Bytes
  deriving DecidableEq

namespace MLSMessage

def toBytes (message : MLSMessage) : Py Bytes := do
  let version ← tlsU16 0x0001
  let wireFormat ← tlsU16 message.wireFormat
  let body ← tlsOpaque32 message.body
  pure (version ++ wireFormat ++ body)

def fromBytesAt : Decoder MLSMessage := do
  let version ← readU16
  Decoder.lift (Py.require (version = 0x0001)
    (.valueError s!"Unsupported MLSMessage version: {hexLiteral 4 version}"))
  let wireFormat ← readU16
  let body ← readOpaque32
  pure ⟨wireFormat, body⟩

def fromBytes (data : Bytes) : Py MLSMessage := fromBytesAt.run data

def wrapCommit (C : Crypto) (commit : GroupUpdate) : Py MLSMessage :=
  match commit.groupCtx, commit.oldGroupCtx, commit.confirmationKey, commit.epochAuthenticator,
    commit.membershipKey, commit.transcriptHash with
  | some _, some oldGroupCtx, some confirmationKey, some _, some _, some transcriptHash => do
    let message ← PublicMessage.fromGroupUpdate C commit confirmationKey transcriptHash oldGroupCtx
    let body ← message.toBytes
    pure ⟨0x0001, body⟩
  | _, _, _, _, _, _ => .error (.valueError ("wrap_commit() requires a GroupUpdate produced by " ++
    "add_member() or remove_member(); deserialized GroupUpdate objects carry no epoch key " ++
    "material and cannot be re-wrapped."))

def unwrapCommit (message : MLSMessage) : Py GroupUpdate := do
  Py.require (message.wireFormat = 0x0001)
    (.valueError s!"Expected MLS_PUBLIC_MESSAGE, got {hexLiteral 4 message.wireFormat}")
  let message ← PublicMessage.fromBytes message.body
  message.toGroupUpdate

def wrapKeyPackage (kp : KeyPackage) : Py MLSMessage := do
  let body ← kp.toBytes
  pure ⟨0x0005, body⟩

def unwrapKeyPackage (message : MLSMessage) : Py KeyPackage := do
  Py.require (message.wireFormat = 0x0005)
    (.valueError s!"Expected MLS_KEY_PACKAGE, got {hexLiteral 4 message.wireFormat}")
  KeyPackage.fromBytes message.body

end MLSMessage

/-! ## The transcript -/

/-- `_make_framed_content_tbs` -/
def makeFramedContentTbs (ctx : GroupContext) (framed : FramedContent) : Py Bytes := do
  let version ← tlsU16 0x0001
  let wireFormat ← tlsU16 0x0001
  let ctxBytes ← ctx.toBytes
  let framedBytes ← framed.toBytes
  pure (version ++ wireFormat ++ ctxBytes ++ framedBytes)

/-- `_compute_confirmed_transcript_hash_input` -/
def computeConfirmedTranscriptHashInput (framedBytes signature : Bytes) : Py Bytes := do
  let wireFormat ← tlsU16 0x0001
  let signatureBytes ← tlsOpaque signature
  pure (wireFormat ++ framedBytes ++ signatureBytes)

/-- `_compute_confirmed_transcript_hash` -/
def computeConfirmedTranscriptHash (C : Crypto) (interim confirmedInput : Bytes) : Bytes :=
  C.sha256 (interim ++ confirmedInput)

/-- `_compute_interim_transcript_hash` -/
def computeInterimTranscriptHash (C : Crypto) (confirmed tag : Bytes) : Bytes :=
  C.sha256 (confirmed ++ tag)

/-- `_derive_path_node_key` -/
def derivePathNodeKey (C : Crypto) (pathSecret : Bytes) : Py Bytes :=
  expandWithLabel C pathSecret "node" [] 32

/-- `_derive_next_path_secret` -/
def deriveNextPathSecret (C : Crypto) (pathSecret : Bytes) : Py Bytes :=
  expandWithLabel C pathSecret "path" [] 32

end PureMls
