import PureMls.Foundation.Dict
import PureMls.Model.RatchetTree

/-! # Secret tree

Per-leaf, per-generation message keys of one epoch. -/

namespace PureMls

/-- `"left"` and `"right"`. -/
inductive Direction where
  | left
  | right
  deriving DecidableEq

def Direction.encode : Direction → Bytes
  | left => ascii "left"
  | right => ascii "right"

/-- `"handshake"` and `"application"`. -/
inductive SecretType where
  | handshake
  | application
  deriving DecidableEq

def SecretType.label : SecretType → String
  | handshake => "handshake"
  | application => "application"

structure SecretTree where
  encryptionSecret : Bytes
  nLeaves : ℕ
  generations : Dict ℕ ℕ
  leafCache : Dict (ℕ × SecretType) (ℕ × Bytes)
  deriving DecidableEq

namespace SecretTree

/-- `SecretTree(encryption_secret, n_leaves)` -/
def new (encryptionSecret : Bytes) (nLeaves : ℕ) : SecretTree :=
  ⟨encryptionSecret, nLeaves, Dict.empty, Dict.empty⟩

/-! ## Tree mathematics -/

/-- `_level`: trailing 1-bits, not capped. -/
def level (index : ℕ) : ℕ :=
  if index &&& 0x01 = 0 then 0 else RatchetTree.levelLoop index (bitLength index) 0

def root (nLeaves : ℕ) : ℕ :=
  if nLeaves ≤ 1 then 0 else (1 <<< (bitLength (2 * nLeaves - 1) - 1)) - 1

def left (index : ℕ) : Py ℕ := do
  Py.require (level index ≠ 0) (.valueError "negative shift count")
  pure (index ^^^ (0x01 <<< (level index - 1)))

def parentStep (x : ℕ) : ℕ :=
  let k := level x
  let b := (x >>> (k + 1)) &&& 0x01
  x ^^^ ((0x01 <<< k) ||| (b <<< (k + 1)))

/-- `while p >= w: ...`. Once the level passes the bits of `p` the walk only grows. -/
def reparent (w : ℕ) : ℕ → ℕ → Py ℕ
  | 0, _ => .error .hang
  | fuel + 1, p => if p < w then .ok p else reparent w fuel (parentStep p)

def parent (index nLeaves : ℕ) : Py ℕ :=
  if nLeaves ≤ 1 then .ok 0
  else if index = root nLeaves then .ok index
  else reparent (2 * nLeaves - 1) (bitLength index + 3) (parentStep index)

/-- Directions from `curr` up to the root, for at most the remaining depth. -/
def getPathLoop (nLeaves : ℕ) : ℕ → ℕ → Py (List Direction)
  | 0, _ => pure []
  | depth + 1, curr =>
    if curr = root nLeaves then pure []
    else do
      let p ← parent curr nLeaves
      let leftChild ← left p
      let rest ← getPathLoop nLeaves depth p
      pure ((if curr = leftChild then .left else .right) :: rest)

/-- `_get_path` -/
def getPath (targetLeafIndex nLeaves : ℕ) : Py (List Direction) :=
  List.reverse <$> getPathLoop nLeaves 32 (targetLeafIndex * 2)

/-! ## Ratchets -/

variable (C : Crypto) (st : SecretTree)

def deriveLeafNodeSecret (leafIndex : ℕ) : Py Bytes := do
  let path ← getPath leafIndex st.nLeaves
  path.foldlM (fun secret direction => expandWithLabel C secret "tree" direction.encode 32)
    st.encryptionSecret

/-- `for g in range(start, start + rounds)` -/
def ratchetForward : ℕ → ℕ → Bytes → Py Bytes
  | 0, _, secret => pure secret
  | rounds + 1, g, secret => do
    let context ← structPack 4 g
    let next ← expandWithLabel C secret "secret" context 32
    ratchetForward rounds (g + 1) next

/-- Where the ratchet of a leaf stands: its cached tip, or the secret of generation 0. -/
def ratchetStart (leafIndex : ℕ) (secretType : SecretType) : Py (ℕ × Bytes) :=
  match st.leafCache.get? (leafIndex, secretType) with
  | some tip => pure tip
  | none => do
    let nodeSecret ← st.deriveLeafNodeSecret C leafIndex
    let secret ← expandWithLabel C nodeSecret secretType.label [] 32
    pure (0, secret)

/-- Ratchet forward to `generation` and keep it as the tip. -/
def advanceRatchet (leafIndex generation : ℕ) (secretType : SecretType) :
    Py (Bytes × SecretTree) := do
  let (currGen, currSecret) ← st.ratchetStart C leafIndex secretType
  let secret ← ratchetForward C (generation - currGen) currGen currSecret
  pure (secret, { st with
    leafCache := st.leafCache.set (leafIndex, secretType) (generation, secret) })

/-- `_get_ratchet_secret`, with the updated cache. -/
def getRatchetSecret (leafIndex generation : ℕ) (secretType : SecretType) :
    Py (Bytes × SecretTree) :=
  match st.leafCache.get? (leafIndex, secretType) with
  | some (tipGen, tipSecret) =>
    if tipGen = generation then pure (tipSecret, st)
    else if generation < tipGen then
      .error (.valueError s!"SecretTree forward-secrecy: gen {generation} < tip {tipGen}")
    else st.advanceRatchet C leafIndex generation secretType
  | none => st.advanceRatchet C leafIndex generation secretType

/-- Key and nonce of one generation from its ratchet secret. -/
def keyAndNonce (ratchetSecret : Bytes) (generation : ℕ) : Py (Bytes × Bytes) := do
  let context ← structPack 4 generation
  let key ← expandWithLabel C ratchetSecret "key" context 16
  let nonce ← expandWithLabel C ratchetSecret "nonce" context 12
  pure (key, nonce)

/-- `get_key_and_nonce_for_gen`: the tree it leaves behind, also when it raises. -/
def getKeyAndNonceForGen (leafIndex generation : ℕ) (secretType : SecretType) :
    SecretTree × Py (Bytes × Bytes) :=
  match st.getRatchetSecret C leafIndex generation secretType with
  | .error e => (st, .error e)
  | .ok (ratchetSecret, st') => (st', keyAndNonce C ratchetSecret generation)

/-- `get_key_and_nonce`: key, nonce and the generation they belong to. -/
def getKeyAndNonce (leafIndex : ℕ) (secretType : SecretType) :
    SecretTree × Py (Bytes × Bytes × ℕ) :=
  let gen := (st.generations.get? leafIndex).getD 0
  match st.getKeyAndNonceForGen C leafIndex gen secretType with
  | (st', .error e) => (st', .error e)
  | (st', .ok (key, nonce)) =>
    ({ st' with generations := st'.generations.set leafIndex (gen + 1) }, .ok (key, nonce, gen))

end SecretTree

/-- `derive_sender_data_key` -/
def deriveSenderDataKey (C : Crypto) (senderDataSecret sample : Bytes) : Py Bytes :=
  expandWithLabel C senderDataSecret "key" sample 16

/-- `derive_sender_data_nonce` -/
def deriveSenderDataNonce (C : Crypto) (senderDataSecret sample : Bytes) : Py Bytes :=
  expandWithLabel C senderDataSecret "nonce" sample 12

end PureMls
