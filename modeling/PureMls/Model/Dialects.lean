import PureMls.Model.Messages

/-! # Wire dialects of a Welcome -/

namespace PureMls

/-! ## Strategies -/

/-- The registered serializer strategies. -/
inductive Strategy where
  | standard
  | cisco
  | mlspp
  deriving DecidableEq

namespace Strategy

def name : Strategy → String
  | standard => "standard"
  | cisco => "cisco"
  | mlspp => "mlspp"

def header : Strategy → Bytes
  | standard => []
  | cisco => [0xCC, 0x01]
  | mlspp => [0xAA, 0x02]

/-- The label in the HPKE info of a Welcome. -/
def welcomeLabel : Strategy → Bytes
  | standard => ascii "MLS 1.0 Welcome"
  | cisco => ascii "Cisco MLS Welcome"
  | mlspp => ascii "mlspp Welcome"

/-- The HPKE info under which `decrypt_group_secrets` opens the entries. -/
def welcomeInfo (strategy : Strategy) (encryptedGroupInfo : Bytes) : Py Bytes := do
  let label := strategy.welcomeLabel
  let labelSize ← tlsVarint label.length
  let egiSize ← tlsVarint encryptedGroupInfo.length
  pure (labelSize ++ label ++ egiSize ++ encryptedGroupInfo)

/-- The length in front of a vector. -/
def tlsLength : Strategy → ℕ → Py Bytes
  | standard => tlsVarint
  | cisco => tlsU16
  | mlspp => tlsU32

def readLength : Strategy → Decoder ℕ
  | standard => varintDecode
  | cisco => readU16
  | mlspp => readU32

def encodeVector (strategy : Strategy) (items : List Bytes) : Py Bytes := do
  let size ← strategy.tlsLength items.flatten.length
  pure (size ++ items.flatten)

/-- The items are not split: the list holds the one sub-buffer. -/
def decodeVector (strategy : Strategy) : Decoder (List Bytes) := do
  let length ← strategy.readLength
  let body ← readChecked length fun _ _ => "Vector length exceeds buffer size"
  pure [body]

/-- An extension with two 16-bit integers in front; its data is not checked against the buffer. -/
def readCiscoExtension : Decoder (ℕ × Bytes) := do
  let extType ← readU16
  let elen ← readU16
  let extData ← readSlice elen
  pure (extType, extData)

/-- The loop of the Cisco dialect runs in the whole buffer, up to the end of the vector. -/
def decodeExtensions : Strategy → Decoder (List (ℕ × Bytes))
  | standard => readExtensions
  | cisco => fun buf offset => do
    let (length, offset) ← readU16 buf offset
    readCiscoExtension.whileBelow (offset + length) length buf offset
  | mlspp => readExtensions

end Strategy

def registry : List Strategy := [.standard, .cisco, .mlspp]

def getDialect (name : String) : Py Strategy :=
  match registry.find? fun strategy => strategy.name = name with
  | some strategy => .ok strategy
  | none => .error .keyError

/-! ## Welcome -/

namespace EncryptedGroupSecrets

def toBytes (secrets : EncryptedGroupSecrets) : Py Bytes := do
  let newMember ← tlsOpaque secrets.newMember
  let kemOutput ← tlsOpaque secrets.kemOutput
  let ciphertext ← tlsOpaque secrets.ciphertext
  pure (newMember ++ kemOutput ++ ciphertext)

def fromBytes : Decoder EncryptedGroupSecrets := do
  let newMember ← readOpaque
  let kemOutput ← readOpaque
  let ciphertext ← readOpaque
  pure ⟨newMember, kemOutput, ciphertext⟩

end EncryptedGroupSecrets

/-- A Welcome with its `dialect` field. -/
structure DialectWelcome extends Welcome where
  dialect : Option String
  deriving DecidableEq

namespace DialectWelcome

/-- `self.dialect or "standard"` -/
def dialectName (welcome : DialectWelcome) : String :=
  if welcome.dialect.getD "" = "" then "standard" else welcome.dialect.getD ""

def toBytes (welcome : DialectWelcome) : Py Bytes := do
  let strategy ← getDialect welcome.dialectName
  let secretsBytes ← joinBytes EncryptedGroupSecrets.toBytes welcome.encryptedGroupSecrets
  let egsBytes ← strategy.encodeVector [secretsBytes]
  let egiBytes ← strategy.encodeVector [welcome.encryptedGroupInfo]
  let suite ← tlsU16 0x0001
  pure (strategy.header ++ suite ++ egsBytes ++ egiBytes)

/-- How many bytes are taken for a header: the dialect's own, or the version and wire format of an
MLSMessage. -/
def bodyOffset (strategy : Strategy) (data : Bytes) : ℕ :=
  if strategy.header ≠ [] ∧ strategy.header <+: data then strategy.header.length
  else if strategy.name = "standard" ∧ [0x00, 0x01, 0x00, 0x03] <+: data then 4
  else 0

/-- What follows the header. -/
def readBody (strategy : Strategy) : Decoder Welcome := do
  let cipherSuite ← readU16
  let egsVec ← strategy.decodeVector
  let encryptedGroupSecrets ← Decoder.lift (EncryptedGroupSecrets.fromBytes.all (egsVec.headD []))
  let egiVec ← strategy.decodeVector
  pure ⟨cipherSuite, encryptedGroupSecrets, egiVec.headD []⟩

def fromBytes (data : Bytes) (dialect : Option String) : Py DialectWelcome := do
  let dialectName := dialect.getD "standard"
  let strategy ← getDialect dialectName
  let (welcome, _) ← readBody strategy data (bodyOffset strategy data)
  pure ⟨welcome, some dialectName⟩

/-- `from_mlsmessage_bytes`: the first four bytes count as the header of an MLSMessage. -/
def fromMlsmessageBytes (data : Bytes) : Py DialectWelcome := fromBytes (data.drop 4) none

/-- The loop of `decrypt_group_secrets`: the plaintext of the first entry that opens. -/
def findOpened (C : Crypto) (initKey : KemKey) (info : Bytes) :
    List EncryptedGroupSecrets → Py (Option Bytes)
  | [] => pure none
  | egs :: rest =>
    match HPKE.openSealed C initKey egs.kemOutput egs.ciphertext [] 0 info with
    | .ok gsBytes => pure (some gsBytes)
    | .error .invalidTag => findOpened C initKey info rest
    | .error e => .error e

/-- Open the entries under the info of the dialect; no entry that opens gives `None`. -/
def decryptGroupSecrets (C : Crypto) (welcome : DialectWelcome) (initKey : KemKey) :
    Py (Option GroupSecrets) := do
  let strategy ← getDialect welcome.dialectName
  let info ← strategy.welcomeInfo welcome.encryptedGroupInfo
  let opened ← findOpened C initKey info welcome.encryptedGroupSecrets
  match opened with
  | some gsBytes => some <$> GroupSecrets.fromBytes gsBytes
  | none => pure none

end DialectWelcome

namespace MLSMessage

def wrapWelcome (welcome : DialectWelcome) : Py MLSMessage := do
  let body ← welcome.toBytes
  pure ⟨0x0003, body⟩

def unwrapWelcome (message : MLSMessage) : Py DialectWelcome := do
  Py.require (message.wireFormat = 0x0003)
    (.valueError s!"Expected MLS_WELCOME, got {hexLiteral 4 message.wireFormat}")
  DialectWelcome.fromBytes message.body none

end MLSMessage

end PureMls
