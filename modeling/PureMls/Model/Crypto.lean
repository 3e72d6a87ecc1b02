import PureMls.Model.Tls

/-! # Cryptographic primitives, keys, HKDF and HPKE

The primitives of `cryptography` and `hashlib` are the fields of `Crypto`. Everything
above them is the library's own: HKDF with labels, key objects and HPKE base mode. -/

namespace PureMls

/-- The primitives the library calls. Private keys stand for their raw bytes. -/
structure Crypto where
  /-- `hashlib.sha256(data).digest()` -/
  sha256 : Bytes → Bytes
  /-- `hmac.new(key, message, "sha256").digest()` -/
  hmacSha256 : Bytes → Bytes → Bytes
  /-- The raw public key of a raw Ed25519 private key. -/
  ed25519Public : Bytes → Bytes
  /-- `Ed25519PrivateKey.sign` -/
  ed25519Sign : Bytes → Bytes → Bytes
  /-- Whether `Ed25519PublicKey.verify(signature, message)` returns: key, signature, message. -/
  ed25519Verify : Bytes → Bytes → Bytes → Bool
  /-- The raw public key of a raw X25519 private key. -/
  x25519Public : Bytes → Bytes
  /-- `X25519PrivateKey.exchange`, with no value where it raises `ValueError`. -/
  x25519Exchange : Bytes → Bytes → Option Bytes
  /-- `AESGCM(key).encrypt(nonce, data, aad)` -/
  aesGcmEncrypt : Bytes → Bytes → Bytes → Bytes → Py Bytes
  /-- `AESGCM(key).decrypt(nonce, data, aad)` -/
  aesGcmDecrypt : Bytes → Bytes → Bytes → Bytes → Py Bytes

variable (C : Crypto)

/-! ## HKDF -/

/-- The VarInt encoder of `hkdf.py`. -/
def varintEncode (n : ℕ) : Py Bytes :=
  if n ≤ 63 then .ok [UInt8.ofNat n]
  else if n ≤ 16383 then toBytesBig 2 ((n ||| 0x4000) &&& 0xFFFF)
  else if n ≤ 2 ^ 30 - 1 then toBytesBig 4 ((n ||| 0x80000000) &&& 0xFFFFFFFF)
  else .error (.valueError s!"VarInt out of range: {n}")

/-- HKDF-Extract. -/
def hkdfExtract (salt ikm : Bytes) : Bytes := C.hmacSha256 salt ikm

/-- The blocks `T(i), T(i+1), ...` of HKDF-Expand, each chained to the one before. -/
def hkdfBlocks (prk info : Bytes) : ℕ → ℕ → Bytes → Bytes
  | 0, _, _ => []
  | n + 1, i, previous =>
    let block := C.hmacSha256 prk (previous ++ info ++ [UInt8.ofNat i])
    block ++ hkdfBlocks prk info n (i + 1) block

/-- HKDF-Expand over a 32-byte hash. -/
def hkdfExpand (prk info : Bytes) (length : ℕ) : Bytes :=
  (hkdfBlocks C prk info ((length + 31) / 32) 1 []).take length

/-- The HkdfLabel bytes of `ExpandWithLabel`. -/
def hkdfLabel (label : String) (context : Bytes) (length : ℕ) : Py Bytes := do
  let fullLabel := ascii "MLS 1.0 " ++ ascii label
  let size ← toBytesBig 2 length
  let labelSize ← varintEncode fullLabel.length
  let contextSize ← varintEncode context.length
  pure (size ++ labelSize ++ fullLabel ++ contextSize ++ context)

/-- ExpandWithLabel(secret, label, context, length). -/
def expandWithLabel (secret : Bytes) (label : String) (context : Bytes) (length : ℕ) :
    Py Bytes := do
  let info ← hkdfLabel label context length
  pure (hkdfExpand C secret info length)

/-- DeriveSecret(secret, label). -/
def deriveSecret (secret : Bytes) (label : String) : Py Bytes :=
  expandWithLabel C secret label [] 32

/-! ## Keys -/

/-- `Ed25519PublicKey.from_public_bytes`: the key object keeps the raw bytes. -/
def ed25519FromPublicBytes (key : Bytes) : Py Bytes := do
  Py.require (key.length = 32) (.valueError "An Ed25519 public key is 32 bytes long")
  pure key

/-- `Ed25519PublicKey.verify` -/
def ed25519Check (key signature message : Bytes) : Py Unit :=
  Py.require (C.ed25519Verify key signature message) .invalidSignature

/-- Ed25519 signature keypair. -/
structure SignatureKey where
  privateBytes : Bytes
  size : privateBytes.length = 32
  deriving DecidableEq

namespace SignatureKey

def publicBytes (key : SignatureKey) : Bytes := C.ed25519Public key.privateBytes

def sign (key : SignatureKey) (message : Bytes) : Bytes :=
  C.ed25519Sign key.privateBytes message

def fromPrivateBytes (data : Bytes) : Py SignatureKey :=
  let seed := if data.length = 64 then data.take 32 else data
  if h : seed.length = 32 then .ok ⟨seed, h⟩
  else .error (.valueError
    s!"Ed25519 private key must be 32 (or 64 expanded) bytes, got {seed.length}")

def verify (publicBytes signature message : Bytes) : Bool :=
  let check : Py Unit := do
    let key ← ed25519FromPublicBytes publicBytes
    ed25519Check C key signature message
  match check with
  | .ok _ => true
  | .error _ => false

end SignatureKey

/-- X25519 keypair. -/
structure KemKey where
  privateBytes : Bytes
  size : privateBytes.length = 32
  deriving DecidableEq

namespace KemKey

def publicBytes (key : KemKey) : Bytes := C.x25519Public key.privateBytes

def fromPrivateBytes (data : Bytes) : Py KemKey :=
  if h : data.length = 32 then .ok ⟨data, h⟩
  else .error (.valueError s!"X25519 private key must be 32 bytes, got {data.length}")

/-- DeriveKeyPair for DHKEM(X25519). -/
def fromSecret (secret : Bytes) : Py KemKey :=
  let labeledIkm := ascii "HPKE-v1" ++ (ascii "KEM" ++ [0x00, 0x20]) ++ ascii "dkp_prk" ++ secret
  let dkpPrk := hkdfExtract C [] labeledIkm
  let labeledInfo :=
    beBytes 2 32 ++ ascii "HPKE-v1" ++ (ascii "KEM" ++ [0x00, 0x20]) ++ ascii "sk"
  fromPrivateBytes (hkdfExpand C dkpPrk labeledInfo 32)

def dhExchange (key : KemKey) (peerPublicBytes : Bytes) : Py Bytes :=
  if peerPublicBytes.length = 32 then
    match C.x25519Exchange key.privateBytes peerPublicBytes with
    | some shared => .ok shared
    | none => .error (.valueError "Malformed KemKey public bytes")
  else .error (.valueError "Malformed KemKey public bytes")

end KemKey

/-! ## HPKE base mode -/

namespace HPKE

/-- `b"HPKE\x00\x20\x00\x01\x00\x01"` -/
def suiteId : Bytes := ascii "HPKE" ++ [0x00, 0x20, 0x00, 0x01, 0x00, 0x01]

/-- `b"KEM\x00\x20"` -/
def kemSuiteId : Bytes := ascii "KEM" ++ [0x00, 0x20]

def kemExtract (salt : Bytes) (label : String) (ikm : Bytes) : Bytes :=
  hkdfExtract C salt (ascii "HPKE-v1" ++ kemSuiteId ++ ascii label ++ ikm)

def kemExpand (prk : Bytes) (label : String) (info : Bytes) (length : ℕ) : Bytes :=
  hkdfExpand C prk (beBytes 2 length ++ ascii "HPKE-v1" ++ kemSuiteId ++ ascii label ++ info) length

def labeledExtract (salt : Bytes) (label : String) (ikm : Bytes) : Bytes :=
  hkdfExtract C salt (ascii "HPKE-v1" ++ suiteId ++ ascii label ++ ikm)

def labeledExpand (prk : Bytes) (label : String) (info : Bytes) (length : ℕ) : Bytes :=
  hkdfExpand C prk (beBytes 2 length ++ ascii "HPKE-v1" ++ suiteId ++ ascii label ++ info) length

/-- nonce = base_nonce XOR I2OSP(seq, 12). -/
def xorNonce (baseNonce : Bytes) (seq : ℕ) : Py Bytes := do
  let seqBytes ← toBytesBig 12 seq
  pure (List.zipWith (· ^^^ ·) baseNonce seqBytes)

/-- The AEAD key and nonce both sides derive from the DH value and the KEM context. -/
def contextKeys (dh kemContext : Bytes) (seq : ℕ) (info : Bytes) : Py (Bytes × Bytes) := do
  let prkKem := kemExtract C [] "eae_prk" dh
  let sharedSecret := kemExpand C prkKem "shared_secret" kemContext 32
  let pskIdHash := labeledExtract C [] "psk_id_hash" []
  let infoHash := labeledExtract C [] "info_hash" info
  let ksContext := [0x00] ++ pskIdHash ++ infoHash
  let prkKey := labeledExtract C sharedSecret "secret" []
  let key := labeledExpand C prkKey "key" ksContext 16
  let baseNonce := labeledExpand C prkKey "base_nonce" ksContext 12
  let nonce ← xorNonce baseNonce seq
  pure (key, nonce)

/-- Encapsulate to `receiverPub` with the given ephemeral key and encrypt. -/
def sealTo (ephemeral : KemKey) (receiverPub plaintext aad : Bytes) (seq : ℕ) (info : Bytes) :
    Py (Bytes × Bytes) := do
  let enc := ephemeral.publicBytes C
  let dh ← ephemeral.dhExchange C receiverPub
  let (key, nonce) ← contextKeys C dh (enc ++ receiverPub) seq info
  let ciphertext ← C.aesGcmEncrypt key nonce plaintext aad
  pure (enc, ciphertext)

/-- Decapsulate and decrypt. -/
def openSealed (receiverPriv : KemKey) (enc ciphertext aad : Bytes) (seq : ℕ) (info : Bytes) :
    Py Bytes := do
  let dh ← receiverPriv.dhExchange C enc
  let (key, nonce) ← contextKeys C dh (enc ++ receiverPriv.publicBytes C) seq info
  C.aesGcmDecrypt key nonce ciphertext aad

end HPKE

/-! ## Labels of the message layer -/

/-- HPKE info = HPKELabel{label, context}. -/
def makeHpkeInfo (label : String) (context : Bytes) : Py Bytes := do
  let fullLabel ← tlsOpaque (ascii "MLS 1.0 " ++ ascii label)
  let ctx ← tlsOpaque context
  pure (fullLabel ++ ctx)

def egsInfo (egi : Bytes) : Py Bytes := makeHpkeInfo "Welcome" egi

def upInfo (groupCtx : Bytes) : Py Bytes := makeHpkeInfo "UpdatePathNode" groupCtx

end PureMls
