import PureMls.Model.Dialects

/-! # Extensions with fixed-width lengths, and fingerprints of dialects -/

namespace PureMls

/-! ## Fixed-width lengths -/

/-- Encode bytes with a uint16 length prefix. -/
def tlsOpaque16 (data : Bytes) : Py Bytes := do
  let size ← tlsU16 data.length
  pure (size ++ data)

/-- Encode bytes with a uint8 length prefix. -/
def tlsVec8 (data : Bytes) : Py Bytes := do
  Py.require (data.length ≤ 0xFF) (.valueError s!"vec8 overflow: {data.length} > 255")
  let size ← tlsU8 data.length
  pure (size ++ data)

def tlsExtension16 (extension : ℕ × Bytes) : Py Bytes := do
  let extType ← tlsU16 extension.1
  let data ← tlsOpaque16 extension.2
  pure (extType ++ data)

def tlsExtensions16 (extensions : List (ℕ × Bytes)) : Py Bytes := do
  let body ← joinBytes tlsExtension16 extensions
  let size ← tlsU16 body.length
  pure (size ++ body)

def readExtension16 : Decoder (ℕ × Bytes) := do
  let extType ← readU16
  let extData ← readOpaque16
  pure (extType, extData)

/-- `while i < len(data): ...`; every round moves by four bytes at least. -/
def parseExtensionsLoop (data : Bytes) : ℕ → ℕ → Py (List (ℕ × Bytes))
  | 0, i => if i < data.length then .error .hang else .ok []
  | fuel + 1, i =>
    if i < data.length then do
      Py.require (i + 4 ≤ data.length) (.valueError "extension header truncated")
      let etype := beNat (slice data i (i + 2))
      let elen := beNat (slice data (i + 2) (i + 4))
      Py.require (i + 4 + elen ≤ data.length)
        (.valueError s!"extension length {elen} exceeds buffer (offset {i + 4}, len {data.length})")
      let edata := slice data (i + 4) (i + 4 + elen)
      let exts ← parseExtensionsLoop data fuel (i + 4 + elen)
      pure ((etype, edata) :: exts)
    else .ok []

/-- `_parse_extensions_internal` -/
def parseExtensionsInternal (data : Bytes) : Py (List (ℕ × Bytes)) :=
  parseExtensionsLoop data data.length 0

def readExtensions16 : Decoder (List (ℕ × Bytes)) := do
  let data ← readVector16
  Decoder.lift (parseExtensionsInternal data)

def readExtensions32 : Decoder (List (ℕ × Bytes)) := do
  let data ← readVector32
  Decoder.lift (parseExtensionsInternal data)

/-! ## Dialects -/

namespace Strategy

def encodeExtensions : Strategy → List (ℕ × Bytes) → Py Bytes
  | standard => tlsExtensions
  | cisco => tlsExtensions16
  | mlspp => tlsExtensions

/-- The bytes that a message of the dialect is taken to start with. -/
def fingerprint : Strategy → Bytes
  | standard => [0x00, 0x01, 0x00, 0x03]
  | cisco => [0xCC, 0x01]
  | mlspp => [0xAA, 0x02]

def detect (strategy : Strategy) (data : Bytes) : Bool := strategy.fingerprint <+: data

end Strategy

/-- The first registered dialect that claims the message, the standard one if none does. -/
def detectDialect (data : Bytes) : Strategy :=
  (registry.find? fun strategy => strategy.detect data).getD .standard

/-! ## Extension objects -/

structure ExternalPSKExtension where
  pskId : Bytes
  pskNonce : Bytes
  deriving DecidableEq

namespace ExternalPSKExtension

def marshal (extension : ExternalPSKExtension) : Py Bytes := do
  let external ← tlsU8 1
  let pskId ← tlsOpaque extension.pskId
  let pskNonce ← tlsOpaque extension.pskNonce
  pure (external ++ pskId ++ pskNonce)

def unmarshalAt : Decoder ExternalPSKExtension := do
  let pskType ← readU8
  Decoder.lift (Py.require (pskType = 1) (.valueError s!"Unsupported PSK type: {pskType}"))
  let pskId ← readOpaque
  let pskNonce ← readOpaque
  pure ⟨pskId, pskNonce⟩

def unmarshal (data : Bytes) : Py ExternalPSKExtension := unmarshalAt.run data

end ExternalPSKExtension

end PureMls
