import PureMls.Model.Crypto

/-! # Proposals and the body of a Commit -/

namespace PureMls.Proposals

namespace ProposalType

def ADD : ℕ := 0x0001

def UPDATE : ℕ := 0x0002

def REMOVE : ℕ := 0x0003

def PRE_SHARED_KEY : ℕ := 0x0004

end ProposalType

/-! ## One proposal -/

/-- `proposal_type`, which has to be the one that is expected. -/
def readType (proposalType : ℕ) (name : String) : Decoder Unit := do
  let found ← readU16
  Decoder.lift (Py.require (found = proposalType)
    (.valueError s!"Expected {name}, got {hexLiteral 4 found}"))

/-- A proposal that carries one structure in its encoded form. -/
def typedOpaque (proposalType : ℕ) (body : Bytes) : Py Bytes := do
  let type ← tlsU16 proposalType
  let opaqueBody ← tlsOpaque body
  pure (type ++ opaqueBody)

def readTypedOpaque (proposalType : ℕ) (name : String) : Decoder Bytes := do
  readType proposalType name
  readOpaque

structure AddProposal where
  keyPackageBytes : Bytes
  deriving DecidableEq

namespace AddProposal

def toBytes (proposal : AddProposal) : Py Bytes :=
  typedOpaque ProposalType.ADD proposal.keyPackageBytes

def fromBytes : Decoder AddProposal := do
  let kpBytes ← readTypedOpaque ProposalType.ADD "ADD"
  pure ⟨kpBytes⟩

end AddProposal

structure UpdateProposal where
  leafNodeBytes : Bytes
  deriving DecidableEq

namespace UpdateProposal

def toBytes (proposal : UpdateProposal) : Py Bytes :=
  typedOpaque ProposalType.UPDATE proposal.leafNodeBytes

def fromBytes : Decoder UpdateProposal := do
  let lnBytes ← readTypedOpaque ProposalType.UPDATE "UPDATE"
  pure ⟨lnBytes⟩

end UpdateProposal

structure RemoveProposal where
  removed : ℕ
  deriving DecidableEq

namespace RemoveProposal

def toBytes (proposal : RemoveProposal) : Py Bytes := do
  let type ← tlsU16 ProposalType.REMOVE
  let removed ← tlsU32 proposal.removed
  pure (type ++ removed)

def fromBytes : Decoder RemoveProposal := do
  readType ProposalType.REMOVE "REMOVE"
  let removed ← readU32
  pure ⟨removed⟩

end RemoveProposal

structure PSKProposal where
  pskId : Bytes
  pskNonce : Bytes
  deriving DecidableEq

namespace PSKProposal

def toBytes (proposal : PSKProposal) : Py Bytes := do
  let pskId ← tlsOpaque proposal.pskId
  let pskNonce ← tlsOpaque proposal.pskNonce
  typedOpaque ProposalType.PRE_SHARED_KEY (0x01 :: (pskId ++ pskNonce))

/-- The body of the proposal: the type byte is skipped, and so is what follows the nonce. -/
def readBody : Decoder PSKProposal := do
  let _pskType ← readU8
  let pskId ← readOpaque
  let pskNonce ← readOpaque
  pure ⟨pskId, pskNonce⟩

def fromBytes : Decoder PSKProposal := do
  let pskIdWire ← readTypedOpaque ProposalType.PRE_SHARED_KEY "PSK"
  Decoder.lift (readBody.run pskIdWire)

end PSKProposal

inductive Proposal where
  | add (proposal : AddProposal)
  | update (proposal : UpdateProposal)
  | remove (proposal : RemoveProposal)
  | psk (proposal : PSKProposal)
  deriving DecidableEq

def Proposal.toBytes : Proposal → Py Bytes
  | add proposal => proposal.toBytes
  | update proposal => proposal.toBytes
  | remove proposal => proposal.toBytes
  | psk proposal => proposal.toBytes

/-- `int.from_bytes(data[offset:offset + 2], "big")`, which a short buffer does not stop. -/
def peekType (data : Bytes) (offset : ℕ) : ℕ := beNat (slice data offset (offset + 2))

def proposalFromBytes : Decoder Proposal := fun data offset =>
  let proposalType := peekType data offset
  if proposalType = ProposalType.ADD then (Proposal.add <$> AddProposal.fromBytes) data offset
  else if proposalType = ProposalType.UPDATE then
    (Proposal.update <$> UpdateProposal.fromBytes) data offset
  else if proposalType = ProposalType.REMOVE then
    (Proposal.remove <$> RemoveProposal.fromBytes) data offset
  else if proposalType = ProposalType.PRE_SHARED_KEY then
    (Proposal.psk <$> PSKProposal.fromBytes) data offset
  else .error (.valueError s!"Unknown ProposalType: {hexLiteral 4 proposalType}")

def proposalRef (C : Crypto) (proposalBytes : Bytes) : Bytes := C.sha256 proposalBytes

/-! ## Commit -/

structure ProposalOrRef where
  value : Option Bytes
  reference : Option Bytes
  deriving DecidableEq

namespace ProposalOrRef

def toBytes (item : ProposalOrRef) : Py Bytes :=
  match item.value, item.reference with
  | some value, _ => do
    let value ← tlsOpaque value
    pure (0x01 :: value)
  | none, some reference => do
    let reference ← tlsOpaque reference
    pure (0x02 :: reference)
  | none, none => .error (.valueError "ProposalOrRef must have value or reference")

def fromBytes : Decoder ProposalOrRef := do
  let kind ← readU8
  if kind = 0x01 then do
    let value ← readOpaque
    pure ⟨some value, none⟩
  else if kind = 0x02 then do
    let reference ← readOpaque
    pure ⟨none, some reference⟩
  else Decoder.lift (.error (.valueError s!"Unknown ProposalOrRef kind: {hexLiteral 2 kind}"))

end ProposalOrRef

structure Commit where
  proposals : List ProposalOrRef
  updatePathBytes : Option Bytes
  deriving DecidableEq

namespace Commit

/-- The optional path, which any flag but zero announces. -/
def pathBytes : Option Bytes → Py Bytes
  | some path => do
    let path ← tlsOpaque path
    pure (0x01 :: path)
  | none => pure [0x00]

def toBytes (commit : Commit) : Py Bytes := do
  let propBytes ← joinBytes ProposalOrRef.toBytes commit.proposals
  let proposals ← tlsOpaque propBytes
  let path ← pathBytes commit.updatePathBytes
  pure (proposals ++ path)

def readPath : Decoder (Option Bytes) := do
  let hasPath ← readU8
  if hasPath ≠ 0 then do
    let path ← readOpaque
    pure (some path)
  else pure none

def fromBytes : Decoder Commit := do
  let propsData ← readOpaque
  let props ← Decoder.lift (ProposalOrRef.fromBytes.all propsData)
  let path ← readPath
  pure ⟨props, path⟩

end Commit

end PureMls.Proposals
