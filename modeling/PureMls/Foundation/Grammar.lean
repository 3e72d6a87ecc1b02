import PureMls.Foundation.Python

/-! # The grammar of a key package

The encodings that RFC 9420 gives a `KeyPackage` of version 1 and cipher suite 1. The types only
hold values that fit their length prefixes, so every value has an encoding. -/

namespace PureMls.Rfc

/-! ## Presentation language -/

/-- A variable-size integer in its shortest form. -/
def varint (n : ℕ) : Bytes :=
  if n < 2 ^ 6 then beBytes 1 n
  else if n < 2 ^ 14 then beBytes 2 (2 ^ 14 + n)
  else beBytes 4 (2 ^ 31 + n)

theorem varint_ne_nil (n : ℕ) : varint n ≠ [] := by
  unfold varint
  split_ifs <;> simp [beBytes]

theorem length_varint (n : ℕ) : (varint n).length ≤ 4 := by
  unfold varint
  split_ifs <;> simp

/-- A variable-size integer, not necessarily in its shortest form. -/
inductive VarintForm : Bytes → ℕ → Prop where
  | one {n} : n < 2 ^ 6 → VarintForm (beBytes 1 n) n
  | two {n} : n < 2 ^ 14 → VarintForm (beBytes 2 (2 ^ 14 + n)) n
  | four {n} : n < 2 ^ 30 → VarintForm (beBytes 4 (2 ^ 31 + n)) n

theorem VarintForm.lt {enc : Bytes} {n : ℕ} (h : VarintForm enc n) : n < 2 ^ 30 := by
  cases h <;> omega

theorem varintForm_varint {n : ℕ} (h : n < 2 ^ 30) : VarintForm (varint n) n := by
  unfold varint
  split_ifs with h1 h2
  · exact .one h1
  · exact .two h2
  · exact .four h

def uint16 (v : UInt16) : Bytes := beBytes 2 v.toNat

def uint64 (v : UInt64) : Bytes := beBytes 8 v.toNat

/-- `opaque value<V>` -/
structure OpaqueV where
  data : Bytes
  fits : data.length < 2 ^ 30

def OpaqueV.encode (value : OpaqueV) : Bytes := varint value.data.length ++ value.data

/-- `T items<V>`, where `item` encodes a `T`. -/
structure Vec {α : Type} (item : α → Bytes) where
  items : List α
  fits : (items.flatMap item).length < 2 ^ 30

namespace Vec

variable {α : Type} {item : α → Bytes}

def body (vec : Vec item) : Bytes := vec.items.flatMap item

def encode (vec : Vec item) : Bytes := varint vec.body.length ++ vec.body

/-- A vector of nonempty items has the encoding of an empty one only if it is empty. -/
theorem encode_eq_zero_iff (hitem : ∀ x, item x ≠ []) {vec : Vec item} :
    vec.encode = [0] ↔ vec.items = [] := by
  constructor
  · intro h
    have hlen := congrArg List.length h
    have hsize := List.length_pos_iff.mpr (varint_ne_nil vec.body.length)
    rw [encode, List.length_append, List.length_singleton] at hlen
    have hbody : vec.items.flatMap item = [] := List.length_eq_zero_iff.mp (by rw [← body]; omega)
    rw [List.flatMap_eq_nil_iff] at hbody
    exact List.eq_nil_iff_forall_not_mem.mpr fun x hx => hitem x (hbody x hx)
  · intro h
    have hbody : vec.body = [] := by rw [body, h, List.flatMap_nil]
    rw [encode, hbody]
    decide

end Vec

/-! ## Structures -/

structure Extension where
  extensionType : UInt16
  extensionData : OpaqueV

def Extension.encode (extension : Extension) : Bytes :=
  uint16 extension.extensionType ++ extension.extensionData.encode

theorem Extension.encode_ne_nil (extension : Extension) : extension.encode ≠ [] := by
  simp [encode, uint16, beBytes]

/-- A basic credential or a chain of certificates. -/
inductive Credential where
  | basic (identity : OpaqueV)
  | x509 (certificates : Vec OpaqueV.encode)

def Credential.encode : Credential → Bytes
  | basic identity => uint16 1 ++ identity.encode
  | x509 certificates => uint16 2 ++ certificates.encode

structure Capabilities where
  versions : Vec uint16
  cipherSuites : Vec uint16
  extensions : Vec uint16
  proposals : Vec uint16
  credentials : Vec uint16

def Capabilities.encode (capabilities : Capabilities) : Bytes :=
  capabilities.versions.encode ++ capabilities.cipherSuites.encode ++
    capabilities.extensions.encode ++ capabilities.proposals.encode ++
    capabilities.credentials.encode

/-- `leaf_node_source` with the block it selects. -/
inductive LeafNodeSource where
  | keyPackage (notBefore notAfter : UInt64)
  | update
  | commit (parentHash : OpaqueV)

def LeafNodeSource.encode : LeafNodeSource → Bytes
  | keyPackage notBefore notAfter => beBytes 1 1 ++ (uint64 notBefore ++ uint64 notAfter)
  | update => beBytes 1 2
  | commit parentHash => beBytes 1 3 ++ parentHash.encode

structure LeafNode where
  encryptionKey : OpaqueV
  signatureKey : OpaqueV
  credential : Credential
  capabilities : Capabilities
  source : LeafNodeSource
  extensions : Vec Extension.encode
  signature : OpaqueV

def LeafNode.encode (leaf : LeafNode) : Bytes :=
  leaf.encryptionKey.encode ++ leaf.signatureKey.encode ++ leaf.credential.encode ++
    leaf.capabilities.encode ++ leaf.source.encode ++ leaf.extensions.encode ++
    leaf.signature.encode

/-- Version and cipher suite are both 1. -/
structure KeyPackage where
  initKey : OpaqueV
  leafNode : LeafNode
  extensions : Vec Extension.encode
  signature : OpaqueV

/-- KeyPackageTBS: everything before the signature. -/
def KeyPackage.tbs (keyPackage : KeyPackage) : Bytes :=
  uint16 1 ++ uint16 1 ++ keyPackage.initKey.encode ++ keyPackage.leafNode.encode ++
    keyPackage.extensions.encode

def KeyPackage.encode (keyPackage : KeyPackage) : Bytes :=
  keyPackage.tbs ++ keyPackage.signature.encode

/-- RefHashInput. -/
def refHashInput (label value : OpaqueV) : Bytes := label.encode ++ value.encode

end PureMls.Rfc
