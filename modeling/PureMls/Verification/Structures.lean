import PureMls.Verification.Derivation
import PureMls.Verification.MessageCodec

/-! # The structure codecs

Which values have an encoding, and that every one of them round-trips wherever its encoding
stands in a buffer. -/

namespace PureMls

/-- Wherever the encoding of `x` stands, the decoder reads `y` and stops just after it; `y` has
the same encoding. -/
def RoundTrips {α : Type} (encode : α → Py Bytes) (decode : Decoder α) (x y : α) : Prop :=
  ∃ enc, encode x = .ok enc ∧ encode y = .ok enc ∧
    ∀ pre post, decode (pre ++ enc ++ post) pre.length = .ok (y, pre.length + enc.length)

theorem RoundTrips.of {α : Type} {encode : α → Py Bytes} {decode : Decoder α} {x y : α}
    (hreturns : (encode x).Returns) (hreads : ∀ e, encode x = .ok e → ReadsAs decode e y)
    (hsame : encode y = encode x) : RoundTrips encode decode x y := by
  obtain ⟨enc, henc⟩ := hreturns
  refine ⟨enc, henc, hsame.trans henc, fun pre post => ?_⟩
  rw [List.append_assoc]
  exact (hreads enc henc).at_start pre post

/-- The same for a buffer that holds nothing else. -/
def RoundTripsWhole {α : Type} (encode : α → Py Bytes) (decode : Bytes → Py α) (x y : α) : Prop :=
  ∃ enc, encode x = .ok enc ∧ encode y = .ok enc ∧ decode enc = .ok y

theorem RoundTrips.unique {α : Type} {encode : α → Py Bytes} {decode : Decoder α} {x y y' : α}
    (h : RoundTrips encode decode x y) (h' : RoundTrips encode decode x y') : y = y' := by
  obtain ⟨enc, henc, -, hread⟩ := h
  obtain ⟨enc', henc', -, hread'⟩ := h'
  obtain rfl := Except.ok.inj (henc.symm.trans henc')
  have heq := (hread [] []).symm.trans (hread' [] [])
  exact (Prod.mk.inj (Except.ok.inj heq)).1

theorem RoundTrips.whole {α : Type} {encode : α → Py Bytes} {decode : Decoder α} {x y : α}
    (h : RoundTrips encode decode x y) : RoundTripsWhole encode decode.run x y := by
  obtain ⟨enc, henc, hsame, hread⟩ := h
  have hwhole := hread [] []
  rw [List.nil_append, List.append_nil] at hwhole
  exact ⟨enc, henc, hsame, by rw [Decoder.run, List.length_nil.symm, hwhole]; rfl⟩

theorem RoundTripsWhole.unique {α : Type} {encode : α → Py Bytes} {decode : Bytes → Py α}
    {x y y' : α} (h : RoundTripsWhole encode decode x y)
    (h' : RoundTripsWhole encode decode x y') : y = y' := by
  obtain ⟨enc, henc, -, hread⟩ := h
  obtain ⟨enc', henc', -, hread'⟩ := h'
  obtain rfl := Except.ok.inj (henc.symm.trans henc')
  exact Except.ok.inj (hread.symm.trans hread')

/-- A body that a VarInt length is written for. -/
def Short (body : Py Bytes) : Prop := ∀ raw, body = .ok raw → raw.length < 2 ^ 30

/-! ## Which values have an encoding -/

theorem returns_structPack {n v : ℕ} (h : v < 256 ^ n) : (structPack n v).Returns :=
  ⟨_, structPack_eq_ok.mpr ⟨h, rfl⟩⟩

theorem returns_toBytesBig {n v : ℕ} (h : v < 256 ^ n) : (toBytesBig n v).Returns :=
  ⟨_, toBytesBig_eq_ok.mpr ⟨h, rfl⟩⟩

theorem returns_opaqueV {data : Bytes} (h : data.length < 2 ^ 30) : (tlsOpaque data).Returns :=
  tlsOpaque_ok h

/-- A vector: the body, its length, and the two together. -/
theorem returns_vector {body : Py Bytes} (hbody : body.Returns) (hshort : Short body) :
    (body >>= fun raw => tlsVarint raw.length >>= fun size => pure (size ++ raw)).Returns :=
  hbody.bind fun raw hraw => (returns_varint (hshort raw hraw)).bind fun _ _ => .pure _

/-- Types fit two bytes, the data and the whole list a VarInt length. -/
structure ExtensionsInRange (extensions : List (ℕ × Bytes)) : Prop where
  types : ∀ extension ∈ extensions, extension.1 < 2 ^ 16
  data : ∀ extension ∈ extensions, extension.2.length < 2 ^ 30
  body : Short (joinBytes tlsExtension extensions)

theorem returns_extensions {extensions : List (ℕ × Bytes)} (h : ExtensionsInRange extensions) :
    (tlsExtensions extensions).Returns :=
  returns_vector (returns_joinBytes fun extension hmem =>
    (returns_structPack (h.types extension hmem)).bind fun _ _ =>
      (returns_opaqueV (h.data extension hmem)).bind fun _ _ => .pure _) h.body

namespace Credential

structure InRange (credential : Credential) : Prop where
  credentialType : credential.credentialType < 2 ^ 16
  identity : credential.identity.length < 2 ^ 30

theorem returns_toBytes {credential : Credential} (h : credential.InRange) :
    credential.toBytes.Returns :=
  (returns_structPack h.credentialType).bind fun _ _ => (returns_opaqueV h.identity).bind fun _ _ =>
    .pure _

end Credential

namespace Capabilities

/-- A vector of uint16 values whose body has a VarInt length. -/
structure VecInRange (vals : List ℕ) : Prop where
  items : ∀ v ∈ vals, v < 2 ^ 16
  body : Short (joinBytes tlsU16 vals)

structure InRange (capabilities : Capabilities) : Prop where
  versions : VecInRange capabilities.versions
  ciphersuites : VecInRange capabilities.ciphersuites
  extensions : VecInRange capabilities.extensions
  proposals : VecInRange capabilities.proposals
  credentials : VecInRange capabilities.credentials

theorem VecInRange.returns {vals : List ℕ} (h : VecInRange vals) : (tlsVecVarint vals).Returns :=
  returns_vector (returns_joinBytes fun v hv => returns_structPack (h.items v hv)) h.body

theorem returns_marshal {capabilities : Capabilities} (h : capabilities.InRange) :
    capabilities.marshal.Returns :=
  h.versions.returns.bind fun _ _ => h.ciphersuites.returns.bind fun _ _ =>
    h.extensions.returns.bind fun _ _ => h.proposals.returns.bind fun _ _ =>
    h.credentials.returns.bind fun _ _ => .pure _

end Capabilities

namespace LeafNode

structure InRange (leaf : LeafNode) : Prop where
  encryptionKey : leaf.encryptionKey.length < 2 ^ 30
  signatureKey : leaf.signatureKey.length < 2 ^ 30
  credential : leaf.credential.InRange
  capabilities : leaf.capabilities.InRange
  leafNodeSource : leaf.leafNodeSource < 2 ^ 8
  lifetime : ∀ lifetime ∈ leaf.lifetime, lifetime.1 < 2 ^ 64 ∧ lifetime.2 < 2 ^ 64
  parentHash : ∀ parentHash ∈ leaf.parentHash, parentHash.length < 2 ^ 30
  extensions : ExtensionsInRange leaf.extensions
  signature : leaf.signature.length < 2 ^ 30

theorem returns_sourceBlock {leaf : LeafNode} (h : leaf.InRange) : leaf.sourceBlock.Returns := by
  unfold sourceBlock
  split_ifs
  · cases hl : leaf.lifetime with
    | none =>
        have hzero : (0 : ℕ) < 256 ^ 8 := by decide
        exact (returns_structPack hzero).bind fun _ _ => (returns_structPack hzero).bind fun _ _ =>
          .pure _
    | some lifetime =>
        obtain ⟨hbefore, hafter⟩ := h.lifetime lifetime hl
        exact (returns_structPack hbefore).bind fun _ _ =>
          (returns_structPack hafter).bind fun _ _ => .pure _
  · refine returns_opaqueV ?_
    cases hp : leaf.parentHash with
    | none => exact Nat.two_pow_pos 30
    | some parentHash => exact h.parentHash parentHash hp
  · exact .pure _

theorem returns_toBytes {leaf : LeafNode} (h : leaf.InRange) : leaf.toBytes.Returns := by
  have hhead : leaf.head.Returns :=
    (returns_opaqueV h.encryptionKey).bind fun _ _ =>
      (returns_opaqueV h.signatureKey).bind fun _ _ =>
      (Credential.returns_toBytes h.credential).bind fun _ _ =>
      (Capabilities.returns_marshal h.capabilities).bind fun _ _ =>
      (returns_structPack h.leafNodeSource).bind fun _ _ => .pure _
  exact hhead.bind fun _ _ => (returns_sourceBlock h).bind fun _ _ =>
    (returns_extensions h.extensions).bind fun _ _ => (returns_opaqueV h.signature).bind fun _ _ =>
      .pure _

end LeafNode

namespace KeyPackage

structure InRange (keyPackage : KeyPackage) : Prop where
  leafNode : keyPackage.leafNode.InRange
  initKeyPub : keyPackage.initKeyPub.length < 2 ^ 30
  leafNodeSignature : keyPackage.leafNodeSignature.length < 2 ^ 30

theorem returns_toBytes {keyPackage : KeyPackage} (h : keyPackage.InRange) :
    keyPackage.toBytes.Returns := by
  have htbs : keyPackage.tbsBytes.Returns :=
    Py.Returns.bind ⟨_, rfl⟩ fun _ _ => Py.Returns.bind ⟨_, rfl⟩ fun _ _ =>
      (returns_opaqueV h.initKeyPub).bind fun _ _ =>
      (LeafNode.returns_toBytes h.leafNode).bind fun _ _ => Py.Returns.bind ⟨_, rfl⟩ fun _ _ =>
        .pure _
  exact htbs.bind fun _ _ => (returns_opaqueV h.leafNodeSignature).bind fun _ _ => .pure _

end KeyPackage

namespace VersionedKeyPackage

structure InRange (versioned : VersionedKeyPackage) : Prop where
  keyPackage : versioned.toKeyPackage.InRange
  version : versioned.version < 2 ^ 16
  cipherSuite : versioned.cipherSuite < 2 ^ 16

/-- With the version and the cipher suite of the class it is written as the other key packages. -/
theorem toBytes_eq (keyPackage : KeyPackage) :
    VersionedKeyPackage.toBytes ⟨keyPackage, 0x0001, 0x0001⟩ = keyPackage.toBytes := rfl

theorem roundTrips {keyPackage : KeyPackage} (h : keyPackage.InRange) :
    RoundTrips toBytes fromBytesAt ⟨keyPackage, 0x0001, 0x0001⟩
      ⟨keyPackage.canon, 0x0001, 0x0001⟩ := by
  have hreturns : (toBytes ⟨keyPackage, 0x0001, 0x0001⟩).Returns := by
    rw [toBytes_eq]
    exact KeyPackage.returns_toBytes h
  refine .of hreturns (fun e he => ?_) keyPackage.toBytes_canon
  have hread : ReadsAs KeyPackage.fromBytesAt e keyPackage.canon := KeyPackage.readsAs he
  exact hread.bind_last (.pure _)

/-- Another version or cipher suite is not read back. -/
theorem not_roundTrips {versioned other : VersionedKeyPackage}
    (h : versioned.version ≠ 0x0001 ∨ versioned.cipherSuite ≠ 0x0001) :
    ¬ RoundTrips toBytes fromBytesAt versioned other := by
  rintro ⟨enc, henc, hother, hread⟩
  obtain ⟨⟨kp, next⟩, -, heq⟩ := Py.bind_eq_ok.mp (hread [] [])
  cases heq
  simp only [toBytes, tbsBytes, Py.bind_eq_ok, Py.pure_eq, Except.ok.injEq] at henc hother
  obtain ⟨_, ⟨version, hversion, suite, hsuite, _, -, _, -, _, -, rfl⟩, _, -, rfl⟩ := henc
  obtain ⟨_, ⟨version', hversion', suite', hsuite', _, -, _, -, _, -, rfl⟩, _, -, hsame⟩ := hother
  simp only [List.append_assoc] at hsame
  obtain ⟨hone, -, hrest⟩ := (readsAs_u16 hversion').unique (readsAs_u16 hversion) hsame
  obtain ⟨hone', -, -⟩ := (readsAs_u16 hsuite').unique (readsAs_u16 hsuite) hrest
  rcases h with h | h
  · exact h hone.symm
  · exact h hone'.symm

end VersionedKeyPackage

namespace ParentNode

structure InRange (parent : ParentNode) : Prop where
  publicKey : parent.publicKey.length < 2 ^ 30
  parentHash : parent.parentHash.length < 2 ^ 30
  unmergedLeaves : ∀ leaf ∈ parent.unmergedLeaves, leaf < 2 ^ 32
  unmergedBody : Short parent.unmergedLeavesBytes

theorem returns_toBytes {parent : ParentNode} (h : parent.InRange) : parent.toBytes.Returns :=
  (returns_opaqueV h.publicKey).bind fun _ _ => (returns_opaqueV h.parentHash).bind fun _ _ =>
    (returns_joinBytes fun leaf hleaf => returns_structPack (h.unmergedLeaves leaf hleaf)).bind
      fun raw hraw => (returns_opaqueV (h.unmergedBody raw hraw)).bind fun _ _ => .pure _

end ParentNode

namespace RatchetTree

/-- A tree with a power of two of leaves and a full node array, its nodes in range. -/
structure InRange (tree : RatchetTree) : Prop where
  shape : tree.Shape
  leaves : ∀ leaf, some (.leaf leaf) ∈ tree.nodes → leaf.InRange
  parents : ∀ parent, some (.parent parent) ∈ tree.nodes → parent.InRange
  body : Short (joinBytes entryBytes tree.nodes)

theorem returns_toBytes {tree : RatchetTree} (h : tree.InRange) : tree.toBytes.Returns := by
  refine returns_vector (returns_joinBytes fun node hnode => ?_) h.body
  rcases node with _ | leaf | parent
  · exact .pure _
  · exact (LeafNode.returns_toBytes (h.leaves leaf hnode)).bind fun _ _ => .pure _
  · exact (ParentNode.returns_toBytes (h.parents parent hnode)).bind fun _ _ => .pure _

theorem readsAs {tree : RatchetTree} (h : tree.Shape) {e : Bytes} (he : tree.toBytes = .ok e) :
    ReadsAs fromBytesAt e tree.canon := by
  have hfrom := fromBytes_toBytes h he
  simp only [toBytes, Py.bind_eq_ok, Py.pure_eq, Except.ok.injEq] at he
  obtain ⟨parts, -, size, hsize, rfl⟩ := he
  have hopaque : tlsOpaque parts = .ok (size ++ parts) := by
    rw [tlsOpaque, hsize]
    rfl
  have hparse : parse parts = .ok tree.canon := by
    simpa only [fromBytes, (readsAs_opaqueV hopaque).run_self, Py.ok_bind] using hfrom
  exact (readsAs_opaqueV hopaque).bind_last (.lift hparse)

end RatchetTree

namespace PreSharedKeyID

structure InRange (psk : PreSharedKeyID) : Prop where
  pskType : psk.pskType < 2 ^ 8
  pskId : psk.pskId.length < 2 ^ 30
  pskNonce : psk.pskNonce.length < 2 ^ 30
  usage : psk.usage < 2 ^ 8
  pskGroupId : psk.pskGroupId.length < 2 ^ 30
  pskEpoch : psk.pskEpoch < 2 ^ 64

private theorem returns_sized {data : Bytes} (h : data.length < 2 ^ 30) : (sized data).Returns :=
  Py.Returns.bind (varintEncode_ok h) fun _ _ => .pure _

theorem returns_toBytes {psk : PreSharedKeyID} (h : psk.InRange) : psk.toBytes.Returns := by
  unfold toBytes
  split_ifs
  · exact (returns_structPack h.pskType).bind fun _ _ => (returns_sized h.pskId).bind fun _ _ =>
      (returns_sized h.pskNonce).bind fun _ _ => .pure _
  · exact (returns_structPack h.pskType).bind fun _ _ =>
      (returns_structPack h.usage).bind fun _ _ =>
      (returns_sized h.pskGroupId).bind fun _ _ => (returns_structPack h.pskEpoch).bind fun _ _ =>
      (returns_sized h.pskNonce).bind fun _ _ => .pure _

end PreSharedKeyID

namespace GroupContext

structure InRange (ctx : GroupContext) : Prop where
  groupId : ctx.groupId.length < 2 ^ 30
  epoch : ctx.epoch < 2 ^ 64
  treeHash : ctx.treeHash.length < 2 ^ 30
  confirmedTranscriptHash : ctx.confirmedTranscriptHash.length < 2 ^ 30
  extensionsBytes : ctx.extensionsBytes.length < 2 ^ 30

theorem returns_toBytes {ctx : GroupContext} (h : ctx.InRange) : ctx.toBytes.Returns :=
  Py.Returns.bind ⟨_, rfl⟩ fun _ _ => Py.Returns.bind ⟨_, rfl⟩ fun _ _ =>
    (returns_opaqueV h.groupId).bind fun _ _ => (returns_toBytesBig h.epoch).bind fun _ _ =>
    (returns_opaqueV h.treeHash).bind fun _ _ =>
    (returns_opaqueV h.confirmedTranscriptHash).bind fun _ _ =>
    (returns_opaqueV h.extensionsBytes).bind fun _ _ => .pure _

end GroupContext

namespace HPKECiphertext

structure InRange (ct : HPKECiphertext) : Prop where
  kemOutput : ct.kemOutput.length < 2 ^ 30
  ciphertext : ct.ciphertext.length < 2 ^ 30

theorem returns_toBytes {ct : HPKECiphertext} (h : ct.InRange) : ct.toBytes.Returns :=
  (returns_opaqueV h.kemOutput).bind fun _ _ => (returns_opaqueV h.ciphertext).bind fun _ _ =>
    .pure _

end HPKECiphertext

namespace UpdatePathNode

structure InRange (node : UpdatePathNode) : Prop where
  newPublicKey : node.newPublicKey.length < 2 ^ 30
  count : node.encryptedPathSecret.length < 2 ^ 32
  ciphertexts : ∀ ct ∈ node.encryptedPathSecret, ct.InRange

theorem returns_toBytes {node : UpdatePathNode} (h : node.InRange) : node.toBytes.Returns :=
  (returns_joinBytes fun ct hct => HPKECiphertext.returns_toBytes (h.ciphertexts ct hct)).bind fun _
    _ =>
    (returns_opaqueV h.newPublicKey).bind fun _ _ => (returns_structPack h.count).bind fun _ _ =>
      .pure _

end UpdatePathNode

namespace UpdatePath

structure InRange (path : UpdatePath) : Prop where
  leafKeyPackage : path.leafKeyPackage.InRange
  leafBody : Short path.leafKeyPackage.toBytes
  count : path.nodes.length < 2 ^ 32
  nodes : ∀ node ∈ path.nodes, node.InRange

theorem returns_toBytes {path : UpdatePath} (h : path.InRange) : path.toBytes.Returns :=
  (KeyPackage.returns_toBytes h.leafKeyPackage).bind fun raw hraw =>
    (returns_joinBytes fun node hnode => UpdatePathNode.returns_toBytes (h.nodes node hnode)).bind
      fun _ _ => (returns_opaqueV (h.leafBody raw hraw)).bind fun _ _ =>
      (returns_structPack h.count).bind fun _ _ => .pure _

end UpdatePath

namespace GroupSecrets

structure InRange (secrets : GroupSecrets) : Prop where
  joinerSecret : secrets.joinerSecret.length < 2 ^ 30
  pathSecret : ∀ pathSecret ∈ secrets.pathSecret, pathSecret.length < 2 ^ 30
  psks : ∀ psk ∈ secrets.psks, psk.InRange
  pskBody : Short (joinBytes PreSharedKeyID.toBytes secrets.psks)

theorem returns_toBytes {secrets : GroupSecrets} (h : secrets.InRange) :
    secrets.toBytes.Returns := by
  have hpath : secrets.pathBytes.Returns := by
    unfold pathBytes
    split_ifs
    · cases hp : secrets.pathSecret with
      | none => exact Py.Returns.bind ⟨_, rfl⟩ fun _ _ => .pure _
      | some path => exact (returns_opaqueV (h.pathSecret path hp)).bind fun _ _ => .pure _
    · exact .pure _
  exact (returns_opaqueV h.joinerSecret).bind fun _ _ => hpath.bind fun _ _ =>
    (returns_joinBytes fun psk hpsk => PreSharedKeyID.returns_toBytes (h.psks psk hpsk)).bind
      fun raw hraw => (returns_opaqueV (h.pskBody raw hraw)).bind fun _ _ => .pure _

end GroupSecrets

namespace GroupInfo

structure InRange (info : GroupInfo) : Prop where
  groupContext : info.groupContext.InRange
  extensionsBytes : info.extensionsBytes.length < 2 ^ 30
  confirmationTag : info.confirmationTag.length < 2 ^ 30
  signer : info.signer < 2 ^ 32
  signature : info.signature.length < 2 ^ 30

theorem returns_toBytes {info : GroupInfo} (h : info.InRange) : info.toBytes.Returns := by
  have htbs : info.tbsBytes.Returns :=
    (GroupContext.returns_toBytes h.groupContext).bind fun _ _ =>
      (returns_opaqueV h.extensionsBytes).bind fun _ _ =>
      (returns_opaqueV h.confirmationTag).bind fun _ _ =>
      (returns_structPack h.signer).bind fun _ _ => .pure _
  exact htbs.bind fun _ _ => (returns_opaqueV h.signature).bind fun _ _ => .pure _

end GroupInfo

/-! ## Round trips -/

theorem LeafNode.roundTrips {leaf : LeafNode} (h : leaf.InRange) :
    RoundTrips toBytes fromBytesAt leaf leaf.canon :=
  .of (returns_toBytes h) (fun _ => readsAs) leaf.toBytes_canon

theorem GroupSecrets.roundTrips {secrets : GroupSecrets} (h : secrets.InRange) :
    RoundTrips toBytes fromBytesAt secrets secrets.canon :=
  .of (returns_toBytes h) (fun _ => readsAs) secrets.toBytes_canon

/-- Every structure in range is read back, wherever its encoding stands, as itself up to what
the encoding does not carry, and is encoded the same again. -/
theorem structures_round_trip :
    (∀ x : Credential, x.InRange → RoundTrips Credential.toBytes Credential.fromBytesAt x x) ∧
    (∀ x : Capabilities, x.InRange → RoundTrips Capabilities.marshal Capabilities.fromBytesAt x x) ∧
    (∀ x : LeafNode, x.InRange → RoundTrips LeafNode.toBytes LeafNode.fromBytesAt x x.canon) ∧
    (∀ x : KeyPackage, x.InRange →
      RoundTrips VersionedKeyPackage.toBytes VersionedKeyPackage.fromBytesAt
        ⟨x, 0x0001, 0x0001⟩ ⟨x.canon, 0x0001, 0x0001⟩) ∧
    (∀ x : ParentNode, x.InRange → RoundTrips ParentNode.toBytes ParentNode.fromBytesAt x x) ∧
    (∀ x : RatchetTree, x.InRange →
      RoundTrips RatchetTree.toBytes RatchetTree.fromBytesAt x x.canon) ∧
    (∀ x : HPKECiphertext, x.InRange →
      RoundTrips HPKECiphertext.toBytes HPKECiphertext.fromBytesAt x x) ∧
    (∀ x : UpdatePathNode, x.InRange →
      RoundTrips UpdatePathNode.toBytes UpdatePathNode.fromBytesAt x x) ∧
    (∀ x : UpdatePath, x.InRange → RoundTrips UpdatePath.toBytes UpdatePath.fromBytesAt x x.canon) ∧
    (∀ x : PreSharedKeyID, x.InRange →
      RoundTrips PreSharedKeyID.toBytes PreSharedKeyID.fromBytesAt x x.canon) ∧
    (∀ x : GroupContext, x.InRange → RoundTrips GroupContext.toBytes GroupContext.fromBytesAt x x) ∧
    (∀ x : GroupSecrets, x.InRange →
      RoundTripsWhole GroupSecrets.toBytes GroupSecrets.fromBytes x x.canon) ∧
    (∀ x : GroupInfo, x.InRange → ∃ enc, x.toBytes = .ok enc ∧
      RoundTripsWhole GroupInfo.toBytes GroupInfo.fromBytes x { x with rawData := enc }) := by
  refine ⟨fun x h => ?_, fun x h => ?_, fun x h => ?_, fun x h => ?_, fun x h => ?_, fun x h => ?_,
    fun x h => ?_, fun x h => ?_, fun x h => ?_, fun x h => ?_, fun x h => ?_, fun x h => ?_,
    fun x h => ?_⟩
  · exact .of (Credential.returns_toBytes h) (fun _ => Credential.readsAs) rfl
  · exact .of (Capabilities.returns_marshal h) (fun _ => Capabilities.readsAs) rfl
  · exact LeafNode.roundTrips h
  · exact VersionedKeyPackage.roundTrips h
  · exact .of (ParentNode.returns_toBytes h) (fun _ => ParentNode.readsAs) rfl
  · exact .of (RatchetTree.returns_toBytes h) (fun _ => RatchetTree.readsAs h.shape) x.toBytes_canon
  · exact .of (HPKECiphertext.returns_toBytes h) (fun _ => HPKECiphertext.readsAs) rfl
  · exact .of (UpdatePathNode.returns_toBytes h) (fun _ => UpdatePathNode.readsAs) rfl
  · exact .of (UpdatePath.returns_toBytes h) (fun _ => UpdatePath.readsAs) x.toBytes_canon
  · exact .of (PreSharedKeyID.returns_toBytes h) (fun _ => PreSharedKeyID.readsAs) x.toBytes_canon
  · exact .of (GroupContext.returns_toBytes h) (fun _ => GroupContext.readsAs) rfl
  · exact (GroupSecrets.roundTrips h).whole
  · obtain ⟨enc, henc⟩ := GroupInfo.returns_toBytes h
    exact ⟨enc, henc, enc, henc, henc, GroupInfo.fromBytes_toBytes henc⟩

namespace Sample

theorem emptyVec : Capabilities.VecInRange [] := by
  refine ⟨by simp, fun raw hraw => ?_⟩
  obtain rfl := Except.ok.inj hraw
  decide

/-- A leaf of the update kind that carries a lifetime. -/
def updateLeaf : LeafNode :=
  ⟨[], [], .basic (ascii "alice"), ⟨[], [], [], [], []⟩, leafNodeSourceUpdate, some (1, 2), none,
    [], []⟩

theorem updateLeaf_inRange : updateLeaf.InRange := by
  have hexts : ExtensionsInRange [] := by
    refine ⟨by simp, by simp, fun raw hraw => ?_⟩
    obtain rfl := Except.ok.inj hraw
    decide
  refine ⟨by decide, by decide, ⟨by decide, by decide⟩,
    ⟨emptyVec, emptyVec, emptyVec, emptyVec, emptyVec⟩, by decide, ?_, ?_, hexts, by decide⟩
  · intro lifetime h
    obtain rfl := Option.some.inj h
    decide
  · rintro parentHash ⟨⟩

/-- Secrets with an empty path secret. -/
def emptyPath : GroupSecrets := ⟨[], some [], []⟩

theorem emptyPath_inRange : emptyPath.InRange := by
  refine ⟨by decide, ?_, by simp [emptyPath], fun raw hraw => ?_⟩
  · intro pathSecret h
    obtain rfl := Option.some.inj h
    decide
  · obtain rfl := Except.ok.inj hraw
    decide

/-- A key package of version 2. -/
def otherVersion : VersionedKeyPackage := ⟨⟨updateLeaf, [], []⟩, 0x0002, 0x0001⟩

theorem otherVersion_inRange : otherVersion.InRange :=
  ⟨⟨updateLeaf_inRange, by decide, by decide⟩, by decide, by decide⟩

def emptyInfo : GroupInfo := ⟨⟨[], 0, [], [], []⟩, [], [], 0, [], []⟩

theorem emptyInfo_inRange : emptyInfo.InRange := by
  refine ⟨⟨by decide, by decide, by decide, by decide, ?_⟩, by decide, by decide, by decide,
    by decide⟩
  decide

end Sample

/-- The lifetime of an update leaf does not come back, nor does an empty path secret; a key package
of another version is not read, and a GroupInfo comes back with the buffer that was read. -/
theorem unselected_fields_dropped :
    (∃ leaf : LeafNode, leaf.InRange ∧ ∀ leaf',
      RoundTrips LeafNode.toBytes LeafNode.fromBytesAt leaf leaf' →
        leaf'.lifetime.getD (0, 0) ≠ leaf.lifetime.getD (0, 0)) ∧
    (∃ secrets : GroupSecrets, secrets.InRange ∧ ∀ secrets',
      RoundTripsWhole GroupSecrets.toBytes GroupSecrets.fromBytes secrets secrets' →
        secrets'.pathSecret ≠ secrets.pathSecret) ∧
    (∃ versioned : VersionedKeyPackage, versioned.InRange ∧ ∀ other,
      ¬ RoundTrips VersionedKeyPackage.toBytes VersionedKeyPackage.fromBytesAt versioned other) ∧
    ∃ info : GroupInfo, info.InRange ∧ ∀ info',
      RoundTripsWhole GroupInfo.toBytes GroupInfo.fromBytes info info' → info' ≠ info := by
  refine ⟨⟨Sample.updateLeaf, Sample.updateLeaf_inRange, fun leaf' h => ?_⟩,
    ⟨Sample.emptyPath, Sample.emptyPath_inRange, fun secrets' h => ?_⟩,
    ⟨Sample.otherVersion, Sample.otherVersion_inRange, fun other =>
      VersionedKeyPackage.not_roundTrips (.inl (by decide))⟩,
    ⟨Sample.emptyInfo, Sample.emptyInfo_inRange, ?_⟩⟩
  · rw [← (LeafNode.roundTrips Sample.updateLeaf_inRange).unique h]
    decide
  · rw [← (GroupSecrets.roundTrips Sample.emptyPath_inRange).whole.unique h]
    decide
  · rintro info' ⟨enc, henc, -, hread⟩ rfl
    have hraw := congrArg GroupInfo.rawData
      (Except.ok.inj (hread.symm.trans (GroupInfo.fromBytes_toBytes henc)))
    have hempty : Sample.emptyInfo.toBytes = .ok [] := henc.trans (congrArg Except.ok hraw.symm)
    exact absurd hempty (by decide)

end PureMls
