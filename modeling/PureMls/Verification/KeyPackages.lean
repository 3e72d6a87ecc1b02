import PureMls.Foundation.Grammar
import PureMls.Verification.RoundTrip

/-! # Received key packages

What becomes of any RFC 9420 encoding of a key package: it is read to its end, and its bytes
come back unless it has extensions. -/

namespace PureMls

namespace Rfc

/-! ## The encoders write the grammar -/

theorem tlsU16_eq (v : UInt16) : tlsU16 v.toNat = .ok (uint16 v) :=
  structPack_eq_ok.mpr ⟨v.toNat_lt, rfl⟩

theorem tlsU64_eq (v : UInt64) : tlsU64 v.toNat = .ok (uint64 v) :=
  structPack_eq_ok.mpr ⟨v.toNat_lt, rfl⟩

theorem tlsVarint_eq {n : ℕ} (h : n < 2 ^ 30) : tlsVarint n = .ok (varint n) :=
  tlsVarint_eq_ok.mpr ⟨h, rfl⟩

theorem tlsOpaque_eq (value : OpaqueV) : tlsOpaque value.data = .ok value.encode := by
  rw [tlsOpaque, tlsVarint_eq value.fits]
  rfl

/-- A vector whose items the code holds as `g x` and encodes by `f`. -/
theorem joinBytes_eq {α β : Type} {item : α → Bytes} {f : β → Py Bytes} {g : α → β}
    (h : ∀ x, f (g x) = .ok (item x)) (vec : Vec item) :
    joinBytes f (vec.items.map g) = .ok vec.body := by
  have hitems : vec.items.mapM (fun x => f (g x)) = .ok (vec.items.map item) := by
    refine mapM_of_forall₂ ?_
    rw [List.forall₂_map_right_iff]
    exact List.forall₂_same.mpr fun x _ => h x
  rw [joinBytes, List.mapM_map]
  exact Py.map_eq_ok.mpr ⟨_, hitems, List.flatMap_def.symm⟩

theorem vec_eq {α β : Type} {item : α → Bytes} {f : β → Py Bytes} {g : α → β}
    (h : ∀ x, f (g x) = .ok (item x)) (vec : Vec item) :
    (joinBytes f (vec.items.map g) >>= fun body =>
      tlsVarint body.length >>= fun size => pure (size ++ body)) = .ok vec.encode := by
  have hsize : tlsVarint vec.body.length = .ok (varint vec.body.length) := tlsVarint_eq vec.fits
  rw [joinBytes_eq h, Py.ok_bind, hsize]
  rfl

/-! ## The values that are read -/

def Extension.parsed (extension : Extension) : ℕ × Bytes :=
  (extension.extensionType.toNat, extension.extensionData.data)

theorem Extension.toBytes_parsed (extension : Extension) :
    tlsExtension extension.parsed = .ok extension.encode := by
  rw [tlsExtension, parsed, tlsU16_eq, Py.ok_bind, tlsOpaque_eq]
  rfl

theorem tlsExtensions_eq (extensions : Vec Extension.encode) :
    tlsExtensions (extensions.items.map Extension.parsed) = .ok extensions.encode :=
  vec_eq Extension.toBytes_parsed extensions

/-- The certificates of a chain stay in their encoded form. -/
def Credential.parsed : Credential → PureMls.Credential
  | basic identity => ⟨identity.data, 1⟩
  | x509 certificates => ⟨certificates.body, 2⟩

theorem Credential.toBytes_parsed (credential : Credential) :
    credential.parsed.toBytes = .ok credential.encode := by
  cases credential with
  | basic identity =>
      have hopaque : tlsOpaque identity.data = .ok identity.encode := tlsOpaque_eq identity
      simp only [parsed, PureMls.Credential.toBytes, hopaque]
      rfl
  | x509 certificates =>
      have hopaque : tlsOpaque certificates.body = .ok certificates.encode :=
        tlsOpaque_eq ⟨certificates.body, certificates.fits⟩
      simp only [parsed, PureMls.Credential.toBytes, hopaque]
      rfl

def Capabilities.parsed (capabilities : Capabilities) : PureMls.Capabilities :=
  ⟨capabilities.versions.items.map UInt16.toNat, capabilities.cipherSuites.items.map UInt16.toNat,
    capabilities.extensions.items.map UInt16.toNat, capabilities.proposals.items.map UInt16.toNat,
    capabilities.credentials.items.map UInt16.toNat⟩

theorem Capabilities.marshal_parsed (capabilities : Capabilities) :
    capabilities.parsed.marshal = .ok capabilities.encode := by
  have hvec : ∀ vec : Vec uint16,
      PureMls.Capabilities.tlsVecVarint (vec.items.map UInt16.toNat) = .ok vec.encode :=
        vec_eq tlsU16_eq
  simp only [PureMls.Capabilities.marshal, parsed, hvec, Py.ok_bind]
  rfl

def LeafNodeSource.code : LeafNodeSource → ℕ
  | keyPackage .. => leafNodeSourceKeyPackage
  | update => leafNodeSourceUpdate
  | commit _ => leafNodeSourceCommit

def LeafNodeSource.lifetime : LeafNodeSource → Option (ℕ × ℕ)
  | keyPackage notBefore notAfter => some (notBefore.toNat, notAfter.toNat)
  | _ => none

def LeafNodeSource.parentHash : LeafNodeSource → Option Bytes
  | commit parentHash => some parentHash.data
  | _ => none

def LeafNode.parsed (leaf : LeafNode) : PureMls.LeafNode :=
  ⟨leaf.encryptionKey.data, leaf.signatureKey.data, leaf.credential.parsed,
    leaf.capabilities.parsed, leaf.source.code, leaf.source.lifetime, leaf.source.parentHash,
    leaf.extensions.items.map Extension.parsed, leaf.signature.data⟩

theorem LeafNode.canon_parsed (leaf : LeafNode) : leaf.parsed.canon = leaf.parsed := by
  obtain ⟨_, _, _, _, source, _, _⟩ := leaf
  cases source <;> rfl

/-- The source byte and the block it selects. -/
theorem LeafNode.sourceBlock_parsed (leaf : LeafNode) :
    ∃ block, leaf.parsed.sourceBlock = .ok block ∧
      leaf.source.encode = beBytes 1 leaf.source.code ++ block := by
  obtain ⟨_, _, _, _, source, _, _⟩ := leaf
  cases source with
  | keyPackage notBefore notAfter =>
      refine ⟨uint64 notBefore ++ uint64 notAfter, ?_, rfl⟩
      have hblock : (tlsU64 notBefore.toNat >>= fun nb => tlsU64 notAfter.toNat >>= fun na =>
          pure (nb ++ na)) = .ok (uint64 notBefore ++ uint64 notAfter) := by
        rw [tlsU64_eq, tlsU64_eq]
        rfl
      exact hblock
  | update => exact ⟨[], rfl, rfl⟩
  | commit parentHash => exact ⟨parentHash.encode, tlsOpaque_eq parentHash, rfl⟩

theorem LeafNode.toBytes_parsed (leaf : LeafNode) : leaf.parsed.toBytes = .ok leaf.encode := by
  obtain ⟨block, hblock, hsource⟩ := leaf.sourceBlock_parsed
  have hcode : tlsU8 leaf.source.code = .ok (beBytes 1 leaf.source.code) := by
    cases leaf.source <;> rfl
  have hhead : leaf.parsed.head = .ok (leaf.encryptionKey.encode ++ leaf.signatureKey.encode ++
      leaf.credential.encode ++ leaf.capabilities.encode ++ beBytes 1 leaf.source.code) := by
    simp only [PureMls.LeafNode.head, parsed, tlsOpaque_eq, Credential.toBytes_parsed,
      Capabilities.marshal_parsed, hcode, Py.ok_bind]
    rfl
  have hexts : tlsExtensions leaf.parsed.extensions = .ok leaf.extensions.encode :=
    tlsExtensions_eq leaf.extensions
  have hsignature : tlsOpaque leaf.parsed.signature = .ok leaf.signature.encode :=
    tlsOpaque_eq leaf.signature
  simp only [PureMls.LeafNode.toBytes, hhead, hblock, hexts, hsignature, Py.ok_bind, encode,
    hsource, List.append_assoc]
  rfl

/-- A key package is kept without its extensions. -/
def KeyPackage.parsed (keyPackage : KeyPackage) : PureMls.KeyPackage :=
  ⟨keyPackage.leafNode.parsed, keyPackage.initKey.data, keyPackage.signature.data⟩

namespace KeyPackage

/-- Every encoding is accepted and read to its end. -/
theorem readsAs (keyPackage : KeyPackage) :
    ReadsAs PureMls.KeyPackage.fromBytesAt keyPackage.encode keyPackage.parsed := by
  have hcanon : keyPackage.parsed.canon = keyPackage.parsed := by
    rw [PureMls.KeyPackage.canon, parsed, LeafNode.canon_parsed]
  rw [← hcanon]
  exact PureMls.KeyPackage.readsAs_extended (tlsU16_eq 1) (tlsOpaque_eq keyPackage.initKey)
    keyPackage.leafNode.toBytes_parsed (tlsExtensions_eq keyPackage.extensions)
    (tlsOpaque_eq keyPackage.signature)

/-- What is signed and encoded has no extensions. -/
def bareTbs (keyPackage : KeyPackage) : Bytes :=
  uint16 1 ++ uint16 1 ++ keyPackage.initKey.encode ++ keyPackage.leafNode.encode ++ [0]

theorem tbsBytes_parsed (keyPackage : KeyPackage) :
    keyPackage.parsed.tbsBytes = .ok keyPackage.bareTbs := by
  have hversion : tlsU16 0x0001 = .ok (uint16 1) := tlsU16_eq 1
  have hnone : tlsVarint 0 = .ok [0] := rfl
  simp only [PureMls.KeyPackage.tbsBytes, parsed, hversion, tlsOpaque_eq, LeafNode.toBytes_parsed,
    hnone, Py.ok_bind]
  rfl

theorem toBytes_parsed (keyPackage : KeyPackage) :
    keyPackage.parsed.toBytes = .ok (keyPackage.bareTbs ++ keyPackage.signature.encode) := by
  have hsignature :
    tlsOpaque keyPackage.parsed.leafNodeSignature = .ok keyPackage.signature.encode :=
    tlsOpaque_eq keyPackage.signature
  rw [PureMls.KeyPackage.toBytes, tbsBytes_parsed, Py.ok_bind, hsignature]
  rfl

theorem bareTbs_eq_iff {keyPackage : KeyPackage} :
    keyPackage.bareTbs = keyPackage.tbs ↔ keyPackage.extensions.items = [] := by
  rw [bareTbs, tbs, List.append_cancel_left_eq, eq_comm]
  exact Vec.encode_eq_zero_iff Extension.encode_ne_nil

end KeyPackage

end Rfc

/-! ## What is promised of the received bytes -/

/-- `label` of the reference of a key package. -/
def kpRefLabel : Rfc.OpaqueV := ⟨ascii "MLS 1.0 KeyPackage Reference", by decide⟩

/-- Nothing of the encoding `data` is lost in `parsed`; `tbs` is the part before the signature. A
reference exists for data that fits a length prefix. -/
structure Retains (C : Crypto) (data tbs : Bytes) (parsed : KeyPackage) : Prop where
  accepted : ∀ pre post,
    KeyPackage.fromBytesAt (pre ++ data ++ post) pre.length = .ok (parsed, pre.length + data.length)
  encoded : parsed.toBytes = .ok data
  reference : ∀ value : Rfc.OpaqueV, value.data = data →
    makeKpRef C parsed = .ok (C.sha256 (Rfc.refHashInput kpRefLabel value))
  signed : parsed.tbsBytes = .ok tbs

theorem makeKpRef_eq {C : Crypto} {keyPackage : KeyPackage} {value : Rfc.OpaqueV}
    (h : keyPackage.toBytes = .ok value.data) :
    makeKpRef C keyPackage = .ok (C.sha256 (Rfc.refHashInput kpRefLabel value)) := by
  have hlabel : tlsVarint (ascii "MLS 1.0 KeyPackage Reference").length =
      .ok (Rfc.varint kpRefLabel.data.length) := Rfc.tlsVarint_eq kpRefLabel.fits
  have hinput : kpRefInput keyPackage = .ok (Rfc.refHashInput kpRefLabel value) := by
    rw [kpRefInput, h, Py.ok_bind]
    simp only [hlabel, Rfc.tlsVarint_eq value.fits, Py.ok_bind, Rfc.refHashInput,
      Rfc.OpaqueV.encode, ← List.append_assoc]
    rfl
  rw [makeKpRef, hinput]
  rfl

/-- What the bytes are read as is determined by them. -/
theorem Retains.parsed_eq {C : Crypto} {keyPackage : Rfc.KeyPackage} {tbs : Bytes}
    {parsed : KeyPackage}
    (h : Retains C keyPackage.encode tbs parsed) : parsed = keyPackage.parsed := by
  have hread := h.accepted [] []
  rw [List.append_assoc, keyPackage.readsAs.at_start [] []] at hread
  exact (Prod.mk.inj (Except.ok.inj hread)).1.symm

/-- A key package is retained exactly when its list of extensions is empty. -/
theorem key_package_retained_iff (C : Crypto) (keyPackage : Rfc.KeyPackage) :
    (∃ parsed, Retains C keyPackage.encode keyPackage.tbs parsed) ↔
      keyPackage.extensions.items = [] := by
  constructor
  · rintro ⟨parsed, h⟩
    have htbs := h.signed
    rw [h.parsed_eq, keyPackage.tbsBytes_parsed] at htbs
    exact Rfc.KeyPackage.bareTbs_eq_iff.mp (Except.ok.inj htbs)
  · intro hexts
    have htbs := Rfc.KeyPackage.bareTbs_eq_iff.mpr hexts
    have hencoded : keyPackage.parsed.toBytes = .ok keyPackage.encode := by
      rw [keyPackage.toBytes_parsed, htbs, Rfc.KeyPackage.encode]
    refine ⟨keyPackage.parsed, fun pre post => ?_, hencoded, fun value hvalue => ?_, ?_⟩
    · rw [List.append_assoc]
      exact keyPackage.readsAs.at_start pre post
    · exact makeKpRef_eq (hvalue ▸ hencoded)
    · rw [keyPackage.tbsBytes_parsed, htbs]

namespace Sample

def rawKey (b : UInt8) : Rfc.OpaqueV := ⟨List.replicate 32 b, by simp⟩

def firstOnly : Rfc.Vec Rfc.uint16 := ⟨[1], by decide⟩

/-- The leaf of a new member. -/
def freshLeaf : Rfc.LeafNode :=
  ⟨rawKey 1, rawKey 2, .basic ⟨ascii "alice", by decide⟩,
    ⟨firstOnly, firstOnly, firstOnly, firstOnly, firstOnly⟩,
    .keyPackage 0 1, ⟨[], by decide⟩, ⟨List.replicate 64 3, by decide⟩⟩

/-- A key package with an application identifier among its extensions. -/
def extendedPackage : Rfc.KeyPackage :=
  ⟨rawKey 4, freshLeaf, ⟨[⟨1, ⟨ascii "app", by decide⟩⟩], by decide⟩,
    ⟨List.replicate 64 5, by decide⟩⟩

end Sample

/-- The extension of a key package does not come back: it is read, but neither its encoding nor
what is checked against the signature has it. -/
theorem package_extension_lost :
    KeyPackage.fromBytes Sample.extendedPackage.encode = .ok Sample.extendedPackage.parsed ∧
      Sample.extendedPackage.parsed.toBytes ≠ .ok Sample.extendedPackage.encode ∧
      ∀ C parsed, ¬ Retains C Sample.extendedPackage.encode Sample.extendedPackage.tbs parsed := by
  have hbare : Sample.extendedPackage.bareTbs ≠ Sample.extendedPackage.tbs :=
    mt Rfc.KeyPackage.bareTbs_eq_iff.mp (List.cons_ne_nil _ _)
  refine ⟨Sample.extendedPackage.readsAs.run_self, fun h => hbare ?_, fun C parsed h => hbare ?_⟩
  · rw [Rfc.KeyPackage.toBytes_parsed, Except.ok.injEq, Rfc.KeyPackage.encode] at h
    exact List.append_cancel_right h
  · have htbs := h.signed
    rw [h.parsed_eq, Rfc.KeyPackage.tbsBytes_parsed] at htbs
    exact Except.ok.inj htbs

end PureMls
