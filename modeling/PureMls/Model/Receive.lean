import PureMls.Model.Group

/-! # Joining, receiving commits and application messages -/

namespace PureMls

namespace MLSGroup

variable (C : Crypto)

/-! ## join -/

/-- `except (InvalidTag, ValueError)` -/
def isTagOrValueError : Fault → Bool
  | .invalidTag => true
  | .valueError _ => true
  | _ => false

/-- The first EncryptedGroupSecrets that opens with the joiner's key. -/
def openGroupSecrets (kemKey : KemKey) (egi : Bytes) :
    List EncryptedGroupSecrets → Py Bytes
  | [] => .error (.valueError
      "No EncryptedGroupSecrets could be decrypted with the provided KEM key")
  | candidate :: rest =>
    let opened : Py Bytes := do
      let info ← egsInfo egi
      HPKE.openSealed C kemKey candidate.kemOutput candidate.ciphertext [] 0 info
    match opened with
    | .ok raw => .ok raw
    | .error e => if isTagOrValueError e then openGroupSecrets kemKey egi rest else .error e

/-- Match the PSK identifiers of the Welcome with the provided values. -/
def resolvePsks (psks : List PreSharedKeyID) (pskList : List (PreSharedKeyID × Bytes)) :
    Py (List (PreSharedKeyID × Bytes)) :=
  if psks = [] then pure []
  else do
    Py.require (pskList ≠ []) (.valueError "Welcome message requires PSKs, but none were provided")
    let pskMap := pskList.foldl (fun d entry => d.set entry.1.pskId entry.2)
      (Dict.empty : Dict Bytes Bytes)
    psks.mapM fun psk =>
      match pskMap.get? psk.pskId with
      | some value => pure (psk, value)
      | none => .error (.valueError
          s!"Required PSK {hexString psk.pskId} not found in provided psk_list")

/-- One attempt at the GroupInfo ciphertext. -/
def openGroupInfo (joinerSecret psk egi : Bytes) : Py Bytes := do
  let key ← KeySchedule.deriveWelcomeKey C joinerSecret psk
  let nonce ← KeySchedule.deriveWelcomeNonce C joinerSecret psk
  C.aesGcmDecrypt key nonce egi []

/-- Decrypt the GroupInfo with the resolved PSKs, then with the all-zero PSK secret. -/
def decryptGroupInfo (joinerSecret psk egi : Bytes) : Py Bytes :=
  match openGroupInfo C joinerSecret psk egi with
  | .ok raw => .ok raw
  | .error e =>
    if isTagOrValueError e then
      (openGroupInfo C joinerSecret zeros32 egi).rethrow fun e =>
        if isTagOrValueError e then .valueError
          "Failed to decrypt GroupInfo with the provided joiner_secret and PSKs"
        else e
    else .error e

/-- The first ratchet_tree extension in the remaining bytes. -/
def findTree (extensions : Bytes) : ℕ → ℕ → Py (Option RatchetTree)
  | 0, offset => if offset < extensions.length then .error .hang else .ok none
  | fuel + 1, offset =>
    if offset < extensions.length then do
      let (extension, offset) ← readExtension extensions offset
      if extension.1 = 0x0002 then some <$> RatchetTree.fromBytes extension.2
      else findTree extensions fuel offset
    else .ok none

/-- The tree the joiner adopts: the one provided, or the one in the GroupInfo. -/
def discoverTree (info : GroupInfo) (ratchetTree : Option RatchetTree) : Py RatchetTree := do
  let tree ← match ratchetTree with
    | some tree => pure (some tree)
    | none => findTree info.extensionsBytes info.extensionsBytes.length 0
  match tree with
  | some tree => pure tree
  | none => .error (.valueError
      "ratchet_tree extension absent from GroupInfo and no external tree provided")

/-- The leaf index that carries `sigPub`, the leftmost if there are several. -/
def findOwnLeaf (tree : RatchetTree) (sigPub : Bytes) : Option ℕ :=
  (· / 2) <$> (List.range tree.nodes.length).find? fun i =>
    i % 2 = 0 ∧ (tree.getLeaf i).map LeafNode.signatureKey = some sigPub

/-- Check the received tree and the signature of the GroupInfo. -/
def checkGroupInfo (info : GroupInfo) (tree : RatchetTree) : Py Unit := do
  let hash ← tree.treeHash C
  Py.require (hash = info.groupContext.treeHash) (.valueError
    "ratchet_tree does not match the signed tree_hash in GroupInfo (substituted tree)")
  match tree.getLeaf (2 * info.signer) with
  | none => .error (.valueError
      s!"GroupInfo.signer ({info.signer}) is not a leaf node (node_idx={2 * info.signer})")
  | some committer =>
    (info.verify C committer.signatureKey).rethrow fun e =>
      if e = .hang then e
      else .valueError s!"GroupInfo signature verification failed: {e.text}"

/-- `MLSGroup.join` on a parsed Welcome. -/
def join (welcome : Welcome) (sigKey : SignatureKey) (kemKey : KemKey)
    (pskList : List (PreSharedKeyID × Bytes)) (ratchetTree : Option RatchetTree) :
    Py MLSGroup := do
  let raw ← openGroupSecrets C kemKey welcome.encryptedGroupInfo welcome.encryptedGroupSecrets
  let gs ← GroupSecrets.fromBytes raw
  let resolved ← resolvePsks gs.psks pskList
  let psk ← pskSecret C resolved
  let infoBytes ← decryptGroupInfo C gs.joinerSecret psk welcome.encryptedGroupInfo
  let info ← GroupInfo.fromBytes infoBytes
  let tree ← discoverTree info ratchetTree
  checkGroupInfo C info tree
  match findOwnLeaf tree (sigKey.publicBytes C) with
  | none => .error (.valueError "My leaf not found in GroupInfo tree — mismatched identity key")
  | some myIndex => do
    let intermediate := hkdfExtract C gs.joinerSecret psk
    let ctxBytes ← info.groupContext.toBytes
    let epochSecret ← expandWithLabel C intermediate "epoch" ctxBytes 32
    let ks ← KeySchedule.fromEpochSecret C epochSecret gs.joinerSecret
    let cth := info.groupContext.confirmedTranscriptHash
    Py.require (C.hmacSha256 ks.confirmationKey cth = info.confirmationTag) (.valueError
      "GroupInfo confirmation_tag verification failed — forged Welcome or epoch mismatch (P1-N4)")
    pure (init ⟨info.groupContext.groupId, info.groupContext.epoch, tree, ks⟩ myIndex sigKey kemKey
      (computeInterimTranscriptHash C cth info.confirmationTag))

/-! ## process_update -/

/-- The checks on group, epoch and committer; the committer's leaf in the receiver's tree. -/
def checkUpdate (self : MLSGroup) (update : GroupUpdate) : Py LeafNode := do
  Py.require (update.groupId = self.state.groupId) (.valueError
    s!"GroupUpdate group_id mismatch: {reprBytes update.groupId} != {reprBytes self.state.groupId}")
  Py.require (update.epochId = self.state.epochId + 1) (.valueError "Out of order update")
  match self.state.tree.getLeaf (2 * update.committerIndex) with
  | some committer => pure committer
  | none => .error (.valueError "Invalid committer index")

/-- Every LeafNode of the received tree carries a valid signature. -/
def verifyLeaves (groupId : Bytes) (tree : RatchetTree) : Py Unit :=
  (List.range tree.numLeaves).forM fun li =>
    match tree.getLeaf (2 * li) with
    | some leaf => leaf.verifySignature C groupId li
    | none => pure ()

/-- `_derive_next_path_secret`, `n` times. -/
def advancePathSecret : ℕ → Bytes → Py Bytes
  | 0, secret => pure secret
  | n + 1, secret => do
    let next ← deriveNextPathSecret C secret
    advancePathSecret n next

/-- HPKE open with the UpdatePathNode info of `ctx`. -/
def openWithContext (ctx : GroupContext) (kemKey : KemKey) (enc ct : Bytes) : Py Bytes := do
  let ctxBytes ← ctx.toBytes
  let info ← upInfo ctxBytes
  HPKE.openSealed C kemKey enc ct [] 0 info

/-- The commit secret by way of the update path: the first copath node whose resolution
has the receiver and for which there is a ciphertext at its position. -/
def openFromPath (self : MLSGroup) (tree : RatchetTree) (ctx : GroupContext) (total : ℕ) :
    ℕ → List (Option ℕ × UpdatePathNode) → Py (Option Bytes)
  | _, [] => pure none
  | i, (cop, node) :: path => do
    let resolved ← tree.resolution cop
    let ct := (resolved.idxOf? (2 * self.myIndex)).bind (node.encryptedPathSecret[·]?)
    match ct with
    | some ct => do
      let pathSecret ← openWithContext C ctx self.myKemKey ct.kemOutput ct.ciphertext
      some <$> advancePathSecret C (total - i - 1) pathSecret
    | none => openFromPath self tree ctx total (i + 1) path

/-- The commit secret sealed directly to the receiver's leaf. -/
def openFallback (self : MLSGroup) (ctx : GroupContext) (secrets : Dict Bytes Bytes)
    (myKpRef : Bytes) : Py Bytes :=
  match secrets.get? myKpRef with
  | none => .error (.valueError "Not invited to this epoch (KeyPackageRef not found in commit)")
  | some encCt => openWithContext C ctx self.myKemKey (encCt.take 32) (encCt.drop 32)

/-- The commit secret, from the update path or else from the fallback. -/
def openCommitSecret (self : MLSGroup) (update : GroupUpdate) : Py Bytes := do
  let leaf ← match self.state.tree.getLeaf (2 * self.myIndex) with
    | some leaf => pure leaf
    | none => .error (.valueError "My leaf node not found in tree")
  let ctx ← makeGroupContext C self.state.groupId update.epochId update.tree
    self.interimTranscriptHash
  let myKpRef ← makeKpRef C leaf.keyPackage
  let fromPath ← match update.updatePath with
    | none => pure none
    | some path =>
      if path.nodes = [] then pure none
      else do
        let direct ← update.tree.directPath (2 * update.committerIndex)
        let cop ← update.tree.copath (2 * update.committerIndex)
        openFromPath C self update.tree ctx direct.length 0 (cop.zip path.nodes)
  match fromPath with
  | some commitSecret => pure commitSecret
  | none => openFallback C self ctx update.encryptedCommitSecrets myKpRef

/-- The exceptions of the signature check as `process_update` reports them. -/
def signatureFault : Fault → Fault
  | .invalidSignature => .valueError "Commit Forgery Detected: Invalid Signature in update"
  | .valueError message => .valueError s!"Malformed update signature: {message}"
  | .typeError message => .valueError s!"Malformed update signature: {message}"
  | e => e

/-- The framed content the receiver rebuilds. -/
def receivedContent (self : MLSGroup) (update : GroupUpdate) : Py FramedContent := do
  let body ← update.bodyBytes
  pure ⟨self.state.groupId, self.state.epochId, update.committerIndex, [], body⟩

/-- Verify the commit's signature; the bytes that were signed. -/
def checkSignature (self : MLSGroup) (update : GroupUpdate) (committer : LeafNode)
    (framed : FramedContent) : Py Bytes :=
  let check : Py Bytes := do
    let oldCtx ← makeGroupContext C self.state.groupId self.state.epochId self.state.tree
      self.interimTranscriptHash
    let key ← ed25519FromPublicBytes committer.signatureKey
    let tbs ← makeFramedContentTbs oldCtx framed
    ed25519Check C key update.signature tbs
    pure tbs
  check.rethrow signatureFault

def checkMembershipTag (self : MLSGroup) (update : GroupUpdate) (tbs : Bytes) : Py Unit :=
  match update.membershipTag with
  | none => .error (.valueError
      "RFC §6.2: membership_tag absent — refusing non-member commit")
  | some tag =>
    let expected := C.hmacSha256 self.state.keySchedule.membershipKey tbs
    Py.require (expected = tag) (.valueError
      s!"Membership tag mismatch: expected {hexString expected} != got {hexString tag}")

def checkConfirmationTag (update : GroupUpdate) (confTag : Bytes) : Py Unit :=
  match update.confirmationTag with
  | none => .error (.valueError
      "Confirmation tag absent — refusing to advance epoch (RFC §8.3 mandatory)")
  | some tag => Py.require (confTag = tag) (.valueError
      "Confirmation tag mismatch — epoch desynchronization or replay attack (P0-02)")

def processUpdateBody (self : MLSGroup) (update : GroupUpdate) : Py MLSGroup := do
  let committer ← self.checkUpdate update
  verifyLeaves C self.state.groupId update.tree
  let commitSecret ← openCommitSecret C self update
  let framed ← self.receivedContent update
  let framedBytes ← framed.toBytes
  let tbs ← checkSignature C self update committer framed
  checkMembershipTag C self update tbs
  let confirmedInput ← computeConfirmedTranscriptHashInput framedBytes update.signature
  let transcriptHash :=
    computeConfirmedTranscriptHash C self.interimTranscriptHash confirmedInput
  let newCtx ← makeGroupContext C self.state.groupId update.epochId update.tree transcriptHash
  let newCtxBytes ← newCtx.toBytes
  let confKey ← KeySchedule.deriveConfirmationKey C self.state.keySchedule.initSecret
    commitSecret newCtxBytes []
  let confTag := C.hmacSha256 confKey transcriptHash
  checkConfirmationTag update confTag
  let newInterim := computeInterimTranscriptHash C transcriptHash confTag
  let nextState ← self.state.advanceEpoch C commitSecret update.tree newCtxBytes []
  -- the new handle starts with nothing consumed
  pure (init nextState self.myIndex self.mySigKey self.myKemKey newInterim)

def processUpdate (self : MLSGroup) (update : GroupUpdate) : MLSGroup × Py MLSGroup :=
  match processUpdateBody C self update with
  | .error e => (self, .error e)
  | .ok next => (self.wipeSecretTree, .ok next)

/-! ## Application messages -/

/-- The per-epoch secret tree, created at its first use. -/
def getSecretTree (self : MLSGroup) : SecretTree :=
  self.secretTree.getD
    (SecretTree.new self.state.keySchedule.encryptionSecret
      ((self.state.tree.nodes.length + 1) / 2))

/-- Group and epoch as associated data. -/
def messageAd (self : MLSGroup) : Py Bytes := do
  let epoch ← toBytesBig 8 self.state.epochId
  pure (self.state.groupId ++ epoch)

/-- Key and nonce of the sender data for a content ciphertext. -/
def senderDataKeys (self : MLSGroup) (contentCt : Bytes) : Py (Bytes × Bytes) := do
  let sample := takePad 32 contentCt
  let key ← deriveSenderDataKey C self.state.keySchedule.senderDataSecret sample
  let nonce ← deriveSenderDataNonce C self.state.keySchedule.senderDataSecret sample
  pure (key, nonce)

/-- The wire bytes of a message once content key, nonce and generation are known. -/
def frameMessage (self : MLSGroup) (plaintext key nonce : Bytes) (gen : ℕ) : Py Bytes := do
  let ad ← self.messageAd
  let contentCt ← C.aesGcmEncrypt key nonce plaintext ad
  let (sdKey, sdNonce) ← senderDataKeys C self contentCt
  let sdPlaintext ← structPack 4 self.myIndex
  let sdCt ← C.aesGcmEncrypt sdKey sdNonce sdPlaintext ad
  let sdLen ← toBytesBig 2 sdCt.length
  let genBytes ← structPack 4 gen
  pure (sdLen ++ sdCt ++ genBytes ++ contentCt)

def encryptApplicationMessage (self : MLSGroup) (plaintext : Bytes) : MLSGroup × Py Bytes :=
  let (st, keys) := self.getSecretTree.getKeyAndNonce C self.myIndex .application
  let self := { self with secretTree := some st }
  match keys with
  | .error e => (self, .error e)
  | .ok (key, nonce, gen) => (self, frameMessage C self plaintext key nonce gen)

/-- What `decrypt_application_message` reads before it touches the secret tree: sender leaf,
generation, content ciphertext and associated data. -/
def openHeader (self : MLSGroup) (payload : Bytes) : Py (ℕ × ℕ × Bytes × Bytes) := do
  Py.require (2 ≤ payload.length) (.valueError "Application message payload too short")
  let ad ← self.messageAd
  let sdLen := beNat (slice payload 0 2)
  let sdCt := slice payload 2 (2 + sdLen)
  let genRaw := slice payload (2 + sdLen) (2 + sdLen + 4)
  Py.require (genRaw.length = 4) (.structError "unpack requires a buffer of 4 bytes")
  let contentCt := payload.drop (2 + sdLen + 4)
  let (sdKey, sdNonce) ← senderDataKeys C self contentCt
  let sdPlaintext ← (C.aesGcmDecrypt sdKey sdNonce sdCt ad).rethrow fun e =>
    if e = .invalidTag then .valueError "SenderData authentication failed" else e
  Py.require (sdPlaintext.length = 4)
    (.valueError "SenderData: expected a 4-byte leaf index")
  let senderLeaf := beNat sdPlaintext
  Py.require (senderLeaf < self.state.tree.numLeaves)
    (.valueError s!"SenderData: sender_leaf {senderLeaf} out of range")
  pure (senderLeaf, beNat genRaw, contentCt, ad)

/-- A ValueError of the secret tree as it is reported. -/
def secretTreeFault : Fault → Fault
  | .valueError message => .valueError s!"SecretTree: {message}"
  | e => e

/-- A failed content tag as it is reported. -/
def contentFault (e : Fault) : Fault :=
  if e = .invalidTag then
    .valueError "Application message decryption failed: authentication tag mismatch"
  else e

def decryptApplicationMessage (self : MLSGroup) (payload : Bytes) : MLSGroup × Py Bytes :=
  match openHeader C self payload with
  | .error e => (self, .error e)
  | .ok (senderLeaf, gen, contentCt, ad) =>
    let (st, keys) := self.getSecretTree.getKeyAndNonceForGen C senderLeaf gen .application
    -- the ratchet has moved before the content tag is checked
    let self := { self with secretTree := some st }
    match keys with
    | .error e => (self, .error (secretTreeFault e))
    | .ok (key, nonce) => (self, (C.aesGcmDecrypt key nonce contentCt ad).rethrow contentFault)

/-! ## Persistence -/

/-- Serialise the handle with its private keys. -/
def toBytes (self : MLSGroup) : Py Bytes := do
  let stateBytes ← self.state.toBytes
  let consumed ← joinBytes tlsOpaque (sortedBy (· ≤ ·) self.consumedKeyPackages)
  let index ← toBytesBig 4 self.myIndex
  let stateLen ← toBytesBig 4 stateBytes.length
  let interimLen ← toBytesBig 2 self.interimTranscriptHash.length
  let consumedBytes ← tlsOpaque32 consumed
  pure (index ++ self.mySigKey.privateBytes ++ self.myKemKey.privateBytes ++ stateLen ++
    stateBytes ++ interimLen ++ self.interimTranscriptHash ++ consumedBytes)

/-- The interim transcript hash, absent in the oldest dumps, and the offset after it. -/
def readInterim (data : Bytes) (offset : ℕ) : Bytes × ℕ :=
  if offset < data.length then
    let length := beNat (slice data offset (offset + 2))
    (slice data (offset + 2) (offset + 2 + length), offset + 2 + length)
  else ([], offset)

/-- The consumed key packages, absent in older dumps. -/
def readConsumed (data : Bytes) (offset : ℕ) : Py (List Bytes) :=
  if offset < data.length then do
    let (raw, _) ← readOpaque32 data offset
    let refs ← readOpaque.all raw
    pure (refs.foldl (fun s ref => s.insert ref) [])
  else pure []

def fromBytes (data : Bytes) : Py MLSGroup := do
  let index := beNat (slice data 0 4)
  let sigKey ← SignatureKey.fromPrivateBytes (slice data 4 36)
  let kemKey ← KemKey.fromPrivateBytes (slice data 36 68)
  let stateLen := beNat (slice data 68 72)
  let state ← EpochState.fromBytes (slice data 72 (72 + stateLen))
  let (interim, offset) := readInterim data (72 + stateLen)
  let consumed ← readConsumed data offset
  pure { init state index sigKey kemKey interim with consumedKeyPackages := consumed }

end MLSGroup

end PureMls
