import PureMls.Model.Messages
import PureMls.Model.SecretTree

/-! # Group handles and commits

A call on a handle may change it and then raise, so a call that mutates returns the
handle it leaves behind together with its outcome. Randomness is an argument. -/

namespace PureMls

structure MLSGroup where
  state : EpochState
  myIndex : ℕ
  mySigKey : SignatureKey
  myKemKey : KemKey
  interimTranscriptHash : Bytes
  secretTree : Option SecretTree
  consumedKeyPackages : List Bytes
  deriving DecidableEq

/-- What one commit draws at random. -/
structure CommitCoins where
  leafPathSecret : Bytes
  committerKem : KemKey
  committerInit : KemKey
  /-- The ephemeral key of the `j`-th seal at the `i`-th path node. -/
  pathEphemeral : ℕ → ℕ → KemKey
  /-- The ephemeral key of the fallback seal to the leaf at node index `i`. -/
  fallbackEphemeral : ℕ → KemKey
  welcomeEphemeral : KemKey

namespace MLSGroup

variable (C : Crypto)

/-- `MLSGroup(...)`: nothing consumed and no secret tree yet. -/
def init (state : EpochState) (myIndex : ℕ) (mySigKey : SignatureKey) (myKemKey : KemKey)
    (interim : Bytes) : MLSGroup :=
  ⟨state, myIndex, mySigKey, myKemKey, interim, none, []⟩

def wipeSecretTree (self : MLSGroup) : MLSGroup := { self with secretTree := none }

/-- The key package of a member's own new leaf. -/
def ownKeyPackage (sigKey : SignatureKey) (kem init : KemKey) : Py KeyPackage :=
  KeyPackage.create (kem.publicBytes C) (init.publicBytes C) (sigKey.publicBytes C)
    (sigKey.publicBytes C) (sigKey.sign C)

/-- `MLSGroup.create`; `initKey` is the fresh init key of the creator's key package. -/
def create (groupId : Bytes) (sigKey : SignatureKey) (kemKey initKey : KemKey) :
    Py MLSGroup := do
  let kp ← ownKeyPackage C sigKey kemKey initKey
  let tree ← (RatchetTree.new 1).setLeaf 0 kp.leafNode
  let ctx ← makeGroupContext C groupId 0 tree []
  let ctxBytes ← ctx.toBytes
  let state ← EpochState.genesis C groupId tree ctxBytes
  pure (init state 0 sigKey kemKey [])

/-! ## Building a commit -/

/-- The path secrets above a leaf, innermost first. -/
def pathSecrets : ℕ → Bytes → Py (List Bytes)
  | 0, _ => pure []
  | n + 1, secret => do
    let next ← deriveNextPathSecret C secret
    let rest ← pathSecrets n next
    pure (next :: rest)

/-- `KemKey.from_secret(_derive_path_node_key(ps)).public_bytes()` -/
def nodePublic (pathSecret : Bytes) : Py Bytes := do
  let nodeSecret ← derivePathNodeKey C pathSecret
  let kem ← KemKey.fromSecret C nodeSecret
  pure (kem.publicBytes C)

/-- Set the parents of the direct path from the root down; also the innermost parent hash. -/
def setPathParents (tree : RatchetTree) : List (ℕ × Option ℕ × Bytes) → Py (RatchetTree × Bytes)
  | [] => pure (tree, [])
  | (dp, cop, pub) :: inner => do
    let (tree, above) ← setPathParents tree inner
    let sibling ← tree.subtreeHash C cop
    let hash ← computeParentHash C pub above sibling
    let tree ← tree.setParent dp ⟨pub, hash, []⟩
    pure (tree, hash)

/-- HPKE seal with the UpdatePathNode info of `ctx`. -/
def sealWithContext (ctx : GroupContext) (ephemeral : KemKey) (recipient plaintext : Bytes) :
    Py (Bytes × Bytes) := do
  let ctxBytes ← ctx.toBytes
  let info ← upInfo ctxBytes
  HPKE.sealTo C ephemeral recipient plaintext [] 0 info

/-- Seal one path secret to a resolution; blank entries are skipped. -/
def sealResolution (tree : RatchetTree) (ctx : GroupContext) (ephemeral : ℕ → KemKey)
    (pathSecret : Bytes) : ℕ → List ℕ → Py (List HPKECiphertext)
  | _, [] => pure []
  | j, index :: resolved =>
    match tree.getNode index with
    | none => sealResolution tree ctx ephemeral pathSecret (j + 1) resolved
    | some node => do
      let (enc, ct) ← sealWithContext C ctx (ephemeral j) node.publicKey pathSecret
      let rest ← sealResolution tree ctx ephemeral pathSecret (j + 1) resolved
      pure (⟨enc, ct⟩ :: rest)

/-- The nodes of the UpdatePath from copath, path secrets and node keys. -/
def sealPath (tree : RatchetTree) (ctx : GroupContext) (ephemeral : ℕ → ℕ → KemKey) :
    ℕ → List (Option ℕ × Bytes × Bytes) → Py (List UpdatePathNode)
  | _, [] => pure []
  | i, (cop, pathSecret, pub) :: path => do
    let resolved ← tree.resolution cop
    let ctexts ← sealResolution C tree ctx (ephemeral i) pathSecret 0 resolved
    let rest ← sealPath tree ctx ephemeral (i + 1) path
    pure (⟨pub, ctexts⟩ :: rest)

/-- How a commit seals its secret directly to one leaf: the reference and the bytes. -/
def LeafSeal := GroupContext → KemKey → LeafNode → Bytes → Py (Bytes × Bytes)

/-- `remove_member` and `update_key` make the reference first. -/
def sealLeafRefFirst : LeafSeal := fun ctx ephemeral leaf commitSecret => do
  let kpRef ← makeKpRef C leaf.keyPackage
  let (enc, ct) ← sealWithContext C ctx ephemeral leaf.encryptionKey commitSecret
  pure (kpRef, enc ++ ct)

/-- `add_member` seals first. -/
def sealLeafSealFirst : LeafSeal := fun ctx ephemeral leaf commitSecret => do
  let (enc, ct) ← sealWithContext C ctx ephemeral leaf.encryptionKey commitSecret
  let kpRef ← makeKpRef C leaf.keyPackage
  pure (kpRef, enc ++ ct)

/-- `encrypted_commit_secrets`: the commit secret sealed to every other leaf among `indices`. -/
def sealFallback (sealLeaf : LeafSeal) (tree : RatchetTree) (ctx : GroupContext)
    (ephemeral : ℕ → KemKey) (commitSecret : Bytes) (ownNode : ℕ) (indices : List ℕ) :
    Py (Dict Bytes Bytes) :=
  indices.foldlM (fun secrets index =>
    match tree.getLeaf index with
    | some leaf =>
      if index = ownNode then pure secrets
      else do
        let (kpRef, encCt) ← sealLeaf ctx (ephemeral index) leaf commitSecret
        pure (secrets.set kpRef encCt)
    | none => pure secrets) Dict.empty

/-- What the three commit builders compute from the tree after their proposal. -/
structure Commit where
  update : GroupUpdate
  nextState : EpochState
  newInterim : Bytes
  transcriptHash : Bytes
  newTree : RatchetTree

/-- The path and its ciphertexts: final tree, update path, fallback secrets, commit secret. -/
def buildPath (self : MLSGroup) (coins : CommitCoins) (sealLeaf : LeafSeal)
    (indices : RatchetTree → List ℕ) (newTree : RatchetTree) :
    Py (RatchetTree × UpdatePath × Dict Bytes Bytes × Bytes) := do
  let myNodeIdx := 2 * self.myIndex
  let direct ← newTree.directPath myNodeIdx
  let cop ← newTree.copath myNodeIdx
  let secrets ← pathSecrets C direct.length coins.leafPathSecret
  let commitSecret := secrets.getLast?.getD coins.leafPathSecret
  let committerKp ← ownKeyPackage C self.mySigKey coins.committerKem coins.committerInit
  let newTree ← newTree.setLeaf myNodeIdx committerKp.leafNode
  let nodePubs ← secrets.mapM (nodePublic C)
  let (newTree, _) ← setPathParents C newTree (direct.zip (cop.zip nodePubs))
  let ctxPre ← makeGroupContext C self.state.groupId (self.state.epochId + 1) newTree
    self.interimTranscriptHash
  let pathNodes ← sealPath C newTree ctxPre coins.pathEphemeral 0
    (cop.zip (secrets.zip nodePubs))
  let fallback ← sealFallback sealLeaf newTree ctxPre coins.fallbackEphemeral commitSecret
    myNodeIdx (indices newTree)
  pure (newTree, ⟨committerKp, pathNodes⟩, fallback, commitSecret)

/-- Frame, sign and tag the commit, and advance the epoch. -/
def finishCommit (self : MLSGroup) (newTree : RatchetTree) (path : UpdatePath)
    (fallback : Dict Bytes Bytes) (commitSecret : Bytes) : Py Commit := do
  let newEpochId := self.state.epochId + 1
  let unsigned : GroupUpdate :=
    ⟨newEpochId, newTree, fallback, self.myIndex, [], self.state.groupId, some path,
      none, none, none, none, none, none, none, none⟩
  let body ← unsigned.bodyBytes
  let framed : FramedContent := ⟨self.state.groupId, self.state.epochId, self.myIndex, [], body⟩
  let framedBytes ← framed.toBytes
  let oldCtx ← makeGroupContext C self.state.groupId self.state.epochId self.state.tree
    self.interimTranscriptHash
  let tbs ← makeFramedContentTbs oldCtx framed
  let signature := self.mySigKey.sign C tbs
  let confirmedInput ← computeConfirmedTranscriptHashInput framedBytes signature
  let transcriptHash :=
    computeConfirmedTranscriptHash C self.interimTranscriptHash confirmedInput
  let newCtx ← makeGroupContext C self.state.groupId newEpochId newTree transcriptHash
  let newCtxBytes ← newCtx.toBytes
  let confKey ← KeySchedule.deriveConfirmationKey C self.state.keySchedule.initSecret
    commitSecret newCtxBytes []
  let confTag := C.hmacSha256 confKey transcriptHash
  let newInterim := computeInterimTranscriptHash C transcriptHash confTag
  let nextState ← self.state.advanceEpoch C commitSecret newTree newCtxBytes []
  let update : GroupUpdate := { unsigned with
    signature := signature
    groupCtx := some newCtx
    oldGroupCtx := some oldCtx
    confirmationKey := some nextState.keySchedule.confirmationKey
    epochAuthenticator := some nextState.keySchedule.epochAuthenticator
    membershipKey := some nextState.keySchedule.membershipKey
    transcriptHash := some transcriptHash
    confirmationTag := some confTag
    membershipTag := some (C.hmacSha256 self.state.keySchedule.membershipKey tbs) }
  pure ⟨update, nextState, newInterim, transcriptHash, newTree⟩

def buildCommit (self : MLSGroup) (coins : CommitCoins) (sealLeaf : LeafSeal)
    (indices : RatchetTree → List ℕ) (newTree : RatchetTree) : Py Commit := do
  let (newTree, path, fallback, commitSecret) ← buildPath C self coins sealLeaf indices newTree
  finishCommit C self newTree path fallback commitSecret

/-- The handle at the new epoch; the consumed set is copied. -/
def nextHandle (self : MLSGroup) (commit : Commit) (kem : KemKey) : MLSGroup :=
  { init commit.nextState self.myIndex self.mySigKey kem commit.newInterim with
    consumedKeyPackages := self.consumedKeyPackages }

/-! ## add_member -/

/-- The leaf count and the node index for a new member: leftmost blank leaf, or doubling. -/
def placement (tree : RatchetTree) : ℕ × ℕ :=
  match (List.range tree.numLeaves).find? fun li => (tree.getNode (2 * li)).isNone with
  | some blank => (tree.numLeaves, 2 * blank)
  | none => (tree.numLeaves * 2, 2 * tree.numLeaves)

/-- The tree with the joiner's leaf in place and its direct path blanked. -/
def placeLeaf (tree : RatchetTree) (leaf : LeafNode) : Py RatchetTree := do
  let (newNumLeaves, newLeafIdx) := placement tree
  let copied ← tree.copyNodes (RatchetTree.new newNumLeaves)
  let placed ← copied.setLeaf newLeafIdx leaf
  let ancestors ← placed.directPath newLeafIdx
  pure (ancestors.foldl RatchetTree.blankNode placed)

/-- GroupInfo, its encryption and the GroupSecrets for the joiner. -/
def buildWelcome (self : MLSGroup) (coins : CommitCoins) (keyPackage : KeyPackage)
    (commit : Commit) : Py Welcome := do
  let ks := commit.nextState.keySchedule
  let confTag := C.hmacSha256 ks.confirmationKey commit.transcriptHash
  let ctx ← makeGroupContext C self.state.groupId commit.nextState.epochId commit.newTree
    commit.transcriptHash
  let treeBytes ← commit.newTree.toBytes
  let info ← GroupInfo.buildAndSign C ctx confTag self.myIndex self.mySigKey
    [(0x0002, treeBytes)]
  let psk ← pskSecret C []
  let welcomeKey ← KeySchedule.deriveWelcomeKey C ks.joinerSecret psk
  let welcomeNonce ← KeySchedule.deriveWelcomeNonce C ks.joinerSecret psk
  let plaintext ← info.toBytes
  let egi ← C.aesGcmEncrypt welcomeKey welcomeNonce plaintext []
  let gsBytes ← GroupSecrets.toBytes ⟨ks.joinerSecret, none, []⟩
  let sealInfo ← egsInfo egi
  let (gsEnc, gsCt) ← HPKE.sealTo C coins.welcomeEphemeral keyPackage.initKeyPub gsBytes [] 0
    sealInfo
  let kpRef ← makeKpRef C keyPackage
  pure ⟨0x0001, [⟨kpRef, gsEnc, gsCt⟩], egi⟩

/-- Everything after the replay check of `add_member`. -/
def addMemberBody (self : MLSGroup) (coins : CommitCoins) (keyPackage : KeyPackage) :
    Py (MLSGroup × Welcome × GroupUpdate) := do
  let newTree ← placeLeaf self.state.tree keyPackage.leafNode
  keyPackage.verifySignature C
  let commit ← buildCommit C self coins (sealLeafSealFirst C)
    (fun tree => List.range tree.nodes.length) newTree
  let welcome ← buildWelcome C self coins keyPackage commit
  pure (self.nextHandle commit coins.committerKem, welcome, commit.update)

/-- Add a member; the key package counts as consumed from the replay check on. -/
def addMember (self : MLSGroup) (coins : CommitCoins) (keyPackage : KeyPackage) :
    MLSGroup × Py (MLSGroup × Welcome × GroupUpdate) :=
  match makeKpRef C keyPackage with
  | .error e => (self, .error e)
  | .ok kpRef =>
    if kpRef ∈ self.consumedKeyPackages then
      (self, .error (.valueError
        "KeyPackage Replay: This KeyPackage has already been used in this instance."))
    else
      let self := { self with
        consumedKeyPackages := self.consumedKeyPackages.insert kpRef }
      match addMemberBody C self coins keyPackage with
      | .error e => (self, .error e)
      | .ok result => (self.wipeSecretTree, .ok result)

/-! ## remove_member and update_key -/

/-- `range(0, len(new_tree.nodes), 2)` -/
def evenIndices (tree : RatchetTree) : List ℕ :=
  (List.range ((tree.nodes.length + 1) / 2)).map (2 * ·)

def removeMemberBody (self : MLSGroup) (coins : CommitCoins) (targetLeafIndex : ℤ) :
    Py (MLSGroup × GroupUpdate) := do
  Py.require (targetLeafIndex ≠ self.myIndex) (.valueError
    "Cannot remove yourself — use leave() or let another member remove you")
  Py.require (0 ≤ targetLeafIndex ∧ targetLeafIndex < self.state.tree.numLeaves) (.valueError
    s!"target_leaf_index {targetLeafIndex} out of range (num_leaves={self.state.tree.numLeaves})")
  let newTree ← self.state.tree.removeLeaf (2 * targetLeafIndex.toNat)
  let commit ← buildCommit C self coins (sealLeafRefFirst C) evenIndices newTree
  -- the new handle keeps the old KEM key although the committer's leaf was rotated
  pure (self.nextHandle commit self.myKemKey, commit.update)

def removeMember (self : MLSGroup) (coins : CommitCoins) (targetLeafIndex : ℤ) :
    MLSGroup × Py (MLSGroup × GroupUpdate) :=
  match removeMemberBody C self coins targetLeafIndex with
  | .error e => (self, .error e)
  | .ok result => (self.wipeSecretTree, .ok result)

def updateKeyBody (self : MLSGroup) (coins : CommitCoins) : Py (MLSGroup × GroupUpdate) := do
  let newTree ← self.state.tree.copyNodes (RatchetTree.new self.state.tree.numLeaves)
  let commit ← buildCommit C self coins (sealLeafRefFirst C) evenIndices newTree
  pure (self.nextHandle commit coins.committerKem, commit.update)

def updateKey (self : MLSGroup) (coins : CommitCoins) : MLSGroup × Py (MLSGroup × GroupUpdate) :=
  match updateKeyBody C self coins with
  | .error e => (self, .error e)
  | .ok result => (self.wipeSecretTree, .ok result)

end MLSGroup

end PureMls
