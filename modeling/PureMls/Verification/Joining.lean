import PureMls.Verification.Delivery
import PureMls.Verification.Derivation
import PureMls.Verification.MessageCodec

/-! # Joining by a Welcome -/

namespace PureMls

open RatchetTree

variable {C : Crypto}

/-! ## Key schedule -/

theorem KeySchedule.fromEpochSecret_eq_ok {epochSecret joinerSecret : Bytes} {ks : KeySchedule}
    (h : KeySchedule.fromEpochSecret C epochSecret joinerSecret = .ok ks) :
    ks.joinerSecret = joinerSecret ∧ ks.epochSecret = epochSecret ∧
      deriveSecret C epochSecret "confirm" = .ok ks.confirmationKey ∧
      deriveSecret C epochSecret "init" = .ok ks.initSecret := by
  simp only [fromEpochSecret, Py.bind_eq_ok, Py.pure_eq, Except.ok.injEq] at h
  obtain ⟨_, -, _, -, _, -, _, -, _, -, _, -, confirm, hconfirm, _, -, init, hinit, rfl⟩ := h
  exact ⟨rfl, rfl, hconfirm, hinit⟩

theorem EpochState.advanceEpoch_eq_ok {state next : EpochState} {commitSecret ctx : Bytes}
    {tree : RatchetTree} {pskList : List (PreSharedKeyID × Bytes)}
    (h : state.advanceEpoch C commitSecret tree ctx pskList = .ok next) :
    ∃ epochSecret joinerSecret ks, KeySchedule.deriveEpochSecret C state.keySchedule.initSecret
        commitSecret ctx pskList = .ok (epochSecret, joinerSecret) ∧
      KeySchedule.fromEpochSecret C epochSecret joinerSecret = .ok ks ∧
      next = ⟨state.groupId, state.epochId + 1, tree, ks⟩ := by
  simp only [advanceEpoch, KeySchedule.derive, Py.bind_eq_ok, Py.pure_eq, Except.ok.injEq] at h
  obtain ⟨ks, ⟨⟨epochSecret, joinerSecret⟩, hsecrets, hks⟩, rfl⟩ := h
  exact ⟨epochSecret, joinerSecret, ks, hsecrets, hks, rfl⟩

theorem KeySchedule.deriveEpochSecret_eq_ok
    {initSecret commitSecret ctx epochSecret joinerSecret : Bytes}
    {pskList : List (PreSharedKeyID × Bytes)}
    (h : KeySchedule.deriveEpochSecret C initSecret commitSecret ctx pskList =
      .ok (epochSecret, joinerSecret)) :
    ∃ psk, pskSecret C pskList = .ok psk ∧
      expandWithLabel C (hkdfExtract C initSecret commitSecret) "joiner" ctx 32 = .ok joinerSecret ∧
      expandWithLabel C (hkdfExtract C joinerSecret psk) "epoch" ctx 32 = .ok epochSecret := by
  simp only [deriveEpochSecret, Py.bind_eq_ok, Py.pure_eq, Except.ok.injEq, Prod.mk.injEq] at h
  obtain ⟨joiner, hjoiner, psk, hpsk, epoch, hepoch, rfl, rfl⟩ := h
  exact ⟨psk, hpsk, hjoiner, hepoch⟩

namespace Finished

variable {sender : MLSGroup} {commitSecret : Bytes} {unsigned : GroupUpdate}
  (f : Finished C sender commitSecret unsigned)

/-- The confirmation key of the builder is the one of the next key schedule. -/
theorem confKey_nextState : f.nextState.keySchedule.confirmationKey = f.confKey := by
  obtain ⟨epochSecret, joinerSecret, ks, hsecrets, hks, hnext⟩ :=
    EpochState.advanceEpoch_eq_ok f.nextState_eq
  have hconf := f.confKey_eq
  rw [KeySchedule.deriveConfirmationKey, hsecrets, Py.ok_bind] at hconf
  have hconfirm := (KeySchedule.fromEpochSecret_eq_ok hks).2.2.1
  rw [hnext]
  exact Except.ok.inj (hconfirm.symm.trans hconf)

theorem nextState_eq_mk : f.nextState =
    ⟨sender.state.groupId, sender.state.epochId + 1, unsigned.tree, f.nextState.keySchedule⟩ := by
  obtain ⟨_, _, _, -, -, hnext⟩ := EpochState.advanceEpoch_eq_ok f.nextState_eq
  rw [hnext]

end Finished

/-! ## Leaf signatures -/

/-- A key package leaf is not bound to a place. -/
theorem LeafNode.verifySignature_place {leaf : LeafNode}
    (h : leaf.leafNodeSource = leafNodeSourceKeyPackage) (groupId groupId' : Bytes) (l l' : ℕ) :
    leaf.verifySignature C groupId l = leaf.verifySignature C groupId' l' := by
  have hblock : ∀ groupId l, leaf.groupBlock groupId l = pure [] := by
    intro groupId l
    rw [groupBlock, h, if_neg (by decide)]
  simp only [verifySignature, tbsBytes, hblock]

namespace MLSGroup

/-- The leaf of a commit carries the committer's keys and verifies at any place of any group. -/
theorem ownKeyPackage_leaf (hC : C.Correct) {sigKey : SignatureKey} {kem initKey : KemKey}
    {kp : KeyPackage} (h : ownKeyPackage C sigKey kem initKey = .ok kp) :
    kp.leafNode.encryptionKey = kem.publicBytes C ∧
      kp.leafNode.signatureKey = sigKey.publicBytes C ∧
      ∀ groupId leafIndex, kp.leafNode.verifySignature C groupId leafIndex = .ok () := by
  simp only [ownKeyPackage, KeyPackage.create, LeafNode.create, LeafNode.sign, Py.bind_eq_ok,
    Py.pure_eq, Except.ok.injEq] at h
  obtain ⟨_, ⟨tbs, htbs, rfl⟩, _, -, rfl⟩ := h
  refine ⟨rfl, rfl, fun groupId leafIndex => ?_⟩
  have hkey : (sigKey.publicBytes C).length = 32 := hC.ed25519_size _ sigKey.size
  have hne : sigKey.sign C tbs ≠ [] := hC.sign_ne_nil _ _
  have hvalid : ed25519Check C (sigKey.publicBytes C) (sigKey.sign C tbs) tbs = .ok () :=
    Py.require_of _ (hC.sign_verify _ _)
  simp only [LeafNode.verifySignature, Py.require_of _ hne, ed25519FromPublicBytes,
    Py.require_of _ hkey, Py.ok_bind, Py.pure_eq]
  have htbs' : LeafNode.tbsBytes ⟨kem.publicBytes C, sigKey.publicBytes C,
      Credential.basic (sigKey.publicBytes C), Capabilities.default, leafNodeSourceKeyPackage, none,
      none, [], sigKey.sign C tbs⟩ groupId leafIndex = .ok tbs := htbs
  rw [htbs', Py.ok_bind, hvalid]

/-! ## The Welcome -/

/-- What `buildWelcome` went through. -/
theorem buildWelcome_eq_ok {sender : MLSGroup} {coins : CommitCoins} {kp : KeyPackage}
    {commit : Commit} {welcome : Welcome}
    (h : buildWelcome C sender coins kp commit = .ok welcome) :
    ∃ ctx treeBytes info psk key nonce plaintext egi gsBytes sealInfo enc ct ref,
      makeGroupContext C sender.state.groupId commit.nextState.epochId commit.newTree
        commit.transcriptHash = .ok ctx ∧
      commit.newTree.toBytes = .ok treeBytes ∧
      GroupInfo.buildAndSign C ctx
        (C.hmacSha256 commit.nextState.keySchedule.confirmationKey commit.transcriptHash)
        sender.myIndex sender.mySigKey [(0x0002, treeBytes)] = .ok info ∧
      pskSecret C [] = .ok psk ∧
      KeySchedule.deriveWelcomeKey C commit.nextState.keySchedule.joinerSecret psk = .ok key ∧
      KeySchedule.deriveWelcomeNonce C commit.nextState.keySchedule.joinerSecret psk = .ok nonce ∧
      info.toBytes = .ok plaintext ∧ C.aesGcmEncrypt key nonce plaintext [] = .ok egi ∧
      GroupSecrets.toBytes ⟨commit.nextState.keySchedule.joinerSecret, none, []⟩ = .ok gsBytes ∧
      egsInfo egi = .ok sealInfo ∧
      HPKE.sealTo C coins.welcomeEphemeral kp.initKeyPub gsBytes [] 0 sealInfo = .ok (enc, ct) ∧
      makeKpRef C kp = .ok ref ∧ welcome = ⟨0x0001, [⟨ref, enc, ct⟩], egi⟩ := by
  simp only [buildWelcome, Py.bind_eq_ok, Py.pure_eq, Except.ok.injEq] at h
  obtain ⟨ctx, hctx, treeBytes, htree, info, hinfo, psk, hpsk, key, hkey, nonce, hnonce, plaintext,
    hplain, egi, hegi, gsBytes, hgs, sealInfo, hseal, ⟨enc, ct⟩, hct, ref, href, rfl⟩ := h
  exact ⟨ctx, treeBytes, info, psk, key, nonce, plaintext, egi, gsBytes, sealInfo, enc, ct, ref,
    hctx, htree, hinfo, hpsk, hkey, hnonce, hplain, hegi, hgs, hseal, hct, href, rfl⟩

/-- The leaf that is found is the first one with the key. -/
theorem findOwnLeaf_eq_some {tree : RatchetTree} {sigPub : Bytes} {slot : ℕ} :
    findOwnLeaf tree sigPub = some slot ↔
      (∃ leaf, tree.getLeaf (2 * slot) = some leaf ∧ leaf.signatureKey = sigPub) ∧
      ∀ l < slot, ∀ leaf, tree.getLeaf (2 * l) = some leaf → leaf.signatureKey ≠ sigPub := by
  rw [findOwnLeaf]
  constructor
  · intro h
    obtain ⟨i, hi, rfl⟩ := Option.map_eq_some_iff.mp h
    obtain ⟨hfound, -, hfirst⟩ := List.find?_range_eq_some.mp hi
    rw [decide_eq_true_eq] at hfound
    obtain ⟨leaf, hleaf, hkey⟩ := Option.map_eq_some_iff.mp hfound.2
    have heven : 2 * (i / 2) = i := by omega
    rw [heven]
    refine ⟨⟨leaf, hleaf, hkey⟩, fun l hl leaf' hleaf' hkey' => ?_⟩
    have hnot := hfirst (2 * l) (by omega)
    rw [Bool.not_eq_true', decide_eq_false_iff_not] at hnot
    exact hnot ⟨by omega, by rw [hleaf', Option.map_some, hkey']⟩
  · rintro ⟨⟨leaf, hleaf, hkey⟩, hfirst⟩
    have hlt : 2 * slot < tree.nodes.length := getNode_lt (getLeaf_eq_some.mp hleaf)
    refine Option.map_eq_some_iff.mpr ⟨2 * slot, ?_, by omega⟩
    refine List.find?_range_eq_some.mpr
      ⟨by simp [hleaf, hkey], List.mem_range.mpr hlt, fun j hj => ?_⟩
    rw [Bool.not_eq_true', decide_eq_false_iff_not]
    rintro ⟨heven, hsig⟩
    obtain ⟨l, rfl⟩ : ∃ l, j = 2 * l := ⟨j / 2, by omega⟩
    obtain ⟨leaf', hleaf', hsig⟩ := Option.map_eq_some_iff.mp hsig
    exact hfirst l (by omega) leaf' hleaf' hsig

theorem findOwnLeaf_unique {tree : RatchetTree} {sigPub : Bytes} {slot : ℕ} {leaf : LeafNode}
    (hleaf : tree.getLeaf (2 * slot) = some leaf) (hkey : leaf.signatureKey = sigPub)
    (hunique : ∀ l leaf', tree.getLeaf (2 * l) = some leaf' → leaf'.signatureKey = sigPub →
      l = slot) :
    findOwnLeaf tree sigPub = some slot :=
  findOwnLeaf_eq_some.mpr ⟨⟨leaf, hleaf, hkey⟩, fun l hl leaf' hleaf' hkey' =>
    hl.ne (hunique l leaf' hleaf' hkey')⟩

/-- Some leaf carries the key, so one is found. -/
theorem findOwnLeaf_of_leaf {tree : RatchetTree} {sigPub : Bytes} {slot : ℕ} {leaf : LeafNode}
    (hleaf : tree.getLeaf (2 * slot) = some leaf) (hkey : leaf.signatureKey = sigPub) :
    ∃ found, findOwnLeaf tree sigPub = some found := by
  have hlt : 2 * slot < tree.nodes.length := getNode_lt (getLeaf_eq_some.mp hleaf)
  rw [findOwnLeaf]
  cases hfind : (List.range tree.nodes.length).find? fun i =>
      decide (i % 2 = 0 ∧ (tree.getLeaf i).map LeafNode.signatureKey = some sigPub) with
  | some i => exact ⟨i / 2, rfl⟩
  | none =>
      have hnot := List.find?_eq_none.mp hfind (2 * slot) (List.mem_range.mpr hlt)
      rw [decide_eq_true_eq] at hnot
      exact absurd ⟨by omega, by rw [hleaf, Option.map_some, hkey]⟩ hnot

theorem findOwnLeaf_canon (tree : RatchetTree) (sigPub : Bytes) :
    findOwnLeaf tree.canon sigPub = findOwnLeaf tree sigPub := by
  have hkey : ∀ i, (tree.canon.getLeaf i).map LeafNode.signatureKey =
      (tree.getLeaf i).map LeafNode.signatureKey := by
    intro i
    rw [getLeaf_canon, Option.map_map]
    rfl
  simp only [findOwnLeaf, length_canon, hkey]

theorem discoverTree_single {treeBytes : Bytes} {info : GroupInfo} {tree : RatchetTree}
    (hext : joinBytes tlsExtension [(0x0002, treeBytes)] = .ok info.extensionsBytes)
    (htree : RatchetTree.fromBytes treeBytes = .ok tree) : discoverTree info none = .ok tree := by
  simp only [joinBytes, List.mapM_cons, List.mapM_nil, Py.bind_eq_ok, Py.map_eq_ok, Py.pure_eq,
    Except.ok.injEq] at hext
  obtain ⟨_, ⟨ext, hext, _, rfl, rfl⟩, heq⟩ := hext
  rw [List.flatten_cons, List.flatten_nil, List.append_nil] at heq
  have hread := (readsAs_extension hext).at_start [] []
  simp only [List.nil_append, List.append_nil, List.length_nil, Nat.zero_add] at hread
  obtain ⟨n, hn⟩ : ∃ n, ext.length = n + 1 :=
    ⟨ext.length - 1, by have := List.length_pos_iff.mpr (tlsExtension_ne_nil hext); omega⟩
  rw [discoverTree, ← heq, hn]
  simp only [findTree, hn, Nat.zero_lt_succ, if_true, hread, Py.ok_bind, htree, Py.map_ok]
  rfl

theorem verify_buildAndSign (hC : C.Correct) {ctx : GroupContext} {tag : Bytes} {signer : ℕ}
    {sigKey : SignatureKey} {extensions : List (ℕ × Bytes)} {info : GroupInfo}
    (h : GroupInfo.buildAndSign C ctx tag signer sigKey extensions = .ok info) :
    info.groupContext = ctx ∧ info.confirmationTag = tag ∧ info.signer = signer ∧
      joinBytes tlsExtension extensions = .ok info.extensionsBytes ∧
      GroupInfo.verify C info (sigKey.publicBytes C) = .ok () := by
  simp only [GroupInfo.buildAndSign, Py.bind_eq_ok, Py.pure_eq, Except.ok.injEq] at h
  obtain ⟨ext, hext, payload, hpayload, rfl⟩ := h
  refine ⟨rfl, rfl, rfl, hext, ?_⟩
  have hpayload' : GroupInfo.signerContent ⟨ctx, ext, tag, signer, sigKey.sign C payload, []⟩ =
    .ok payload := hpayload
  have hkey : (sigKey.publicBytes C).length = 32 := hC.ed25519_size _ sigKey.size
  have hvalid : SignatureKey.verify C (sigKey.publicBytes C) (sigKey.sign C payload) payload =
    true := by
    have hcheck : ed25519Check C (sigKey.publicBytes C) (sigKey.sign C payload) payload = .ok () :=
      Py.require_of _ (hC.sign_verify _ _)
    simp only [SignatureKey.verify, ed25519FromPublicBytes, Py.require_of _ hkey, Py.ok_bind,
      Py.pure_eq, hcheck]
  rw [GroupInfo.verify, hpayload', Py.ok_bind]
  exact Py.require_of _ hvalid

variable {sender : MLSGroup} {coins : CommitCoins} {sealLeaf : LeafSeal}
  {indices : RatchetTree → List ℕ} {base : RatchetTree} {m : ℕ}

/-- A member that owns the init key of a Welcome joins in the committer's next state, at the first
leaf that carries its signature key. -/
theorem join_of_welcome (hC : C.Correct) (b : BuiltPath C sender coins sealLeaf indices base)
    (f : Finished C sender b.commitSecret b.unsigned) (hm : base.Sized m) (hm32 : m ≤ 32)
    {kp : KeyPackage} {welcome : Welcome}
    (hwelcome : buildWelcome C sender coins kp
      ⟨f.update, f.nextState, f.interim, f.transcriptHash, b.tree⟩ = .ok welcome)
    (sigKey : SignatureKey) {kemKey : KemKey} (hinit : kp.initKeyPub = kemKey.publicBytes C) :
    join C welcome sigKey kemKey [] none =
      match findOwnLeaf b.tree (sigKey.publicBytes C) with
      | none => .error (.valueError "My leaf not found in GroupInfo tree — mismatched identity key")
      | some slot =>
        .ok (init { f.nextState with tree := b.tree.canon } slot sigKey kemKey f.interim) := by
  obtain ⟨ctx, treeBytes, info, psk, key, nonce, plaintext, egi, gsBytes, sealInfo, enc, ct, ref,
    hctx, htree, hinfo, hpsk, hkey, hnonce, hplain, hegi, hgs, hseal, hct, -, rfl⟩ :=
      buildWelcome_eq_ok hwelcome
  rw [hinit] at hct
  have hmk := f.nextState_eq_mk
  have hnew : ctx = f.newCtx := by
    have hepoch : f.nextState.epochId = sender.state.epochId + 1 := by rw [hmk]
    have hnewCtx := f.newCtx_eq
    simp only [hepoch] at hctx
    exact Except.ok.inj (hctx.symm.trans hnewCtx)
  subst hnew
  obtain ⟨hinfoCtx, hinfoTag, hinfoSigner, hinfoExt, hinfoVerify⟩ := verify_buildAndSign hC hinfo
  have hopenSecrets : openGroupSecrets C kemKey egi [⟨ref, enc, ct⟩] = .ok gsBytes := by
    simp only [openGroupSecrets, hseal, Py.ok_bind, (HPKE.open_seal hC hct).1]
  have hgsRead : GroupSecrets.fromBytes gsBytes =
      .ok ⟨f.nextState.keySchedule.joinerSecret, none, []⟩ :=
    (GroupSecrets.readsAs_plain hgs).run_self
  have hdecrypt :
    decryptGroupInfo C f.nextState.keySchedule.joinerSecret psk egi = .ok plaintext := by
    have hopen : openGroupInfo C f.nextState.keySchedule.joinerSecret psk egi = .ok plaintext := by
      rw [openGroupInfo, hkey, Py.ok_bind, hnonce, Py.ok_bind]
      exact hC.decrypt_encrypt _ _ _ _ _ hegi
    rw [decryptGroupInfo, hopen]
  have hinfoRead : GroupInfo.fromBytes plaintext = .ok { info with rawData := plaintext } :=
    GroupInfo.fromBytes_toBytes hplain
  have hsized : b.tree.Sized m := b.sameSize.sized hm
  have hdiscover : discoverTree { info with rawData := plaintext } none = .ok b.tree.canon :=
    discoverTree_single hinfoExt (fromBytes_toBytes hsized.shape htree)
  have hcheck : checkGroupInfo C { info with rawData := plaintext } b.tree.canon = .ok () := by
    have hhash : b.tree.canon.treeHash C = .ok f.newCtx.treeHash := by
      have hnewCtx := f.newCtx_eq
      simp only [makeGroupContext, Py.bind_eq_ok, Py.pure_eq, Except.ok.injEq] at hnewCtx
      obtain ⟨hash, hhash, heq⟩ := hnewCtx
      rw [treeHash_canon, ← heq]
      exact hhash
    have hown : b.tree.canon.getLeaf (2 * sender.myIndex) = some b.keyPackage.leafNode.canon := by
      rw [getLeaf_canon, getLeaf_eq_some.mpr (b.getNode_tree hm hm32).1]
      rfl
    have hownKey : b.keyPackage.leafNode.canon.signatureKey = sender.mySigKey.publicBytes C :=
      (ownKeyPackage_leaf hC b.keyPackage_eq).2.1
    have hverify :
      GroupInfo.verify C { info with rawData := plaintext } (sender.mySigKey.publicBytes C) =
      .ok () := hinfoVerify
    rw [hinfoCtx, hinfoSigner] at hverify
    rw [checkGroupInfo, hhash, Py.ok_bind, hinfoCtx, Py.require_of _ rfl, Py.ok_bind, hinfoSigner,
      hown]
    simp only [hownKey, hverify]
    rfl
  obtain ⟨epochSecret, joinerSecret, ks, hsecrets, hks, hnext⟩ :=
    EpochState.advanceEpoch_eq_ok f.nextState_eq
  obtain ⟨psk', hpsk', -, hepoch⟩ := KeySchedule.deriveEpochSecret_eq_ok hsecrets
  obtain rfl : psk = psk' := Except.ok.inj (hpsk.symm.trans hpsk')
  have hksNext : f.nextState.keySchedule = ks := by rw [hnext]
  have hjoiner : joinerSecret = f.nextState.keySchedule.joinerSecret := by
    rw [hksNext, (KeySchedule.fromEpochSecret_eq_ok hks).1]
  rw [hjoiner] at hepoch hks
  have hinfoTh : info.groupContext.confirmedTranscriptHash = f.transcriptHash := by
    have hnewCtx := f.newCtx_eq
    simp only [makeGroupContext, Py.bind_eq_ok, Py.pure_eq, Except.ok.injEq] at hnewCtx
    obtain ⟨hash, -, heq⟩ := hnewCtx
    rw [hinfoCtx, ← heq]
    rfl
  have hinfoIds : info.groupContext.groupId = sender.state.groupId ∧
      info.groupContext.epoch = sender.state.epochId + 1 := by
    have hnewCtx := f.newCtx_eq
    simp only [makeGroupContext, Py.bind_eq_ok, Py.pure_eq, Except.ok.injEq] at hnewCtx
    obtain ⟨hash, -, heq⟩ := hnewCtx
    rw [hinfoCtx, ← heq]
    exact ⟨rfl, rfl⟩
  have hctxBytes : info.groupContext.toBytes = .ok f.newCtxBytes := by
    rw [hinfoCtx]
    exact f.newCtxBytes_eq
  have htag : C.hmacSha256 ks.confirmationKey f.transcriptHash = info.confirmationTag := by
    rw [hinfoTag, hksNext]
  have hinterim : computeInterimTranscriptHash C f.transcriptHash info.confirmationTag =
    f.interim := by
    rw [hinfoTag, f.confKey_nextState]
    rfl
  simp only [join, hopenSecrets, Py.ok_bind, hgsRead, resolvePsks, if_true, Py.pure_eq, hpsk,
    hdecrypt, hinfoRead, hdiscover, hcheck, findOwnLeaf_canon]
  cases findOwnLeaf b.tree (sigKey.publicBytes C) with
  | none => rfl
  | some slot =>
      simp only [hctxBytes, Py.ok_bind, hepoch, hks, hinfoTh, Py.require_of _ htag, hinterim,
        hinfoIds.1, hinfoIds.2]
      rw [hmk, hksNext]

end MLSGroup

/-! ## What a successful join went through -/

/-- What a joiner reads out of a Welcome. -/
structure Opening where
  secrets : GroupSecrets
  resolved : List (PreSharedKeyID × Bytes)
  psk : Bytes
  info : GroupInfo

/-- The first steps of `MLSGroup.join`, up to the parsed GroupInfo. -/
def openWelcome (C : Crypto) (welcome : Welcome) (kemKey : KemKey)
    (pskList : List (PreSharedKeyID × Bytes)) : Py Opening := do
  let raw ← MLSGroup.openGroupSecrets C kemKey welcome.encryptedGroupInfo
    welcome.encryptedGroupSecrets
  let gs ← GroupSecrets.fromBytes raw
  let resolved ← MLSGroup.resolvePsks gs.psks pskList
  let psk ← pskSecret C resolved
  let infoBytes ← MLSGroup.decryptGroupInfo C gs.joinerSecret psk welcome.encryptedGroupInfo
  let info ← GroupInfo.fromBytes infoBytes
  pure ⟨gs, resolved, psk, info⟩

/-- The checks of a successful join on what it has read, and the handle it builds. -/
theorem MLSGroup.join_eq_ok {welcome : Welcome} {sigKey : SignatureKey} {kemKey : KemKey}
    {pskList : List (PreSharedKeyID × Bytes)} {ratchetTree : Option RatchetTree} {joined : MLSGroup}
    (h : join C welcome sigKey kemKey pskList ratchetTree = .ok joined) :
    ∃ o tree index ctx epochSecret ks, openWelcome C welcome kemKey pskList = .ok o ∧
      discoverTree o.info ratchetTree = .ok tree ∧ checkGroupInfo C o.info tree = .ok () ∧
      findOwnLeaf tree (sigKey.publicBytes C) = some index ∧
      o.info.groupContext.toBytes = .ok ctx ∧
      expandWithLabel C (hkdfExtract C o.secrets.joinerSecret o.psk) "epoch" ctx 32 =
        .ok epochSecret ∧
      KeySchedule.fromEpochSecret C epochSecret o.secrets.joinerSecret = .ok ks ∧
      C.hmacSha256 ks.confirmationKey o.info.groupContext.confirmedTranscriptHash =
        o.info.confirmationTag ∧
      joined = init ⟨o.info.groupContext.groupId, o.info.groupContext.epoch, tree, ks⟩ index sigKey
        kemKey (computeInterimTranscriptHash C o.info.groupContext.confirmedTranscriptHash
          o.info.confirmationTag) := by
  simp only [join, Py.bind_eq_ok] at h
  obtain ⟨raw, hraw, gs, hgs, resolved, hresolved, psk, hpsk, infoBytes, hdecrypt, info, hinfo,
    tree, htree, _, hcheck, h⟩ := h
  have ho : openWelcome C welcome kemKey pskList = .ok ⟨gs, resolved, psk, info⟩ := by
    simp only [openWelcome, hraw, hgs, hresolved, hpsk, hdecrypt, hinfo, Py.ok_bind, Py.pure_eq]
  cases hown : findOwnLeaf tree (sigKey.publicBytes C) with
  | none => simp [hown] at h
  | some index =>
      simp only [hown, Py.bind_eq_ok, Py.require_eq_ok, Py.pure_eq, Except.ok.injEq] at h
      obtain ⟨ctx, hctx, epochSecret, hepoch, ks, hks, _, htag, rfl⟩ := h
      exact ⟨_, tree, index, ctx, epochSecret, ks, ho, htree, hcheck, hown, hctx, hepoch, hks, htag,
        rfl⟩

namespace Sample

/-- A Welcome to Bob's keys, signed by Bob's own leaf 0, with any joiner secret, tree and
pre-shared keys. -/
def welcomeWith (joinerSecret : Bytes) (tree : RatchetTree)
    (pskList : List (PreSharedKeyID × Bytes)) : Py Welcome := do
  let psk ← pskSecret crypto pskList
  let ctx ← makeGroupContext crypto (ascii "g") 1 tree zeros32
  let ctxBytes ← ctx.toBytes
  let epochSecret ← expandWithLabel crypto (hkdfExtract crypto joinerSecret psk) "epoch" ctxBytes 32
  let ks ← KeySchedule.fromEpochSecret crypto epochSecret joinerSecret
  let treeBytes ← tree.toBytes
  let info ← GroupInfo.buildAndSign crypto ctx (mac ks.confirmationKey zeros32) 0 (sig 20)
    [(0x0002, treeBytes)]
  let key ← KeySchedule.deriveWelcomeKey crypto joinerSecret psk
  let nonce ← KeySchedule.deriveWelcomeNonce crypto joinerSecret psk
  let plaintext ← info.toBytes
  let egi ← crypto.aesGcmEncrypt key nonce plaintext []
  let gsBytes ← GroupSecrets.toBytes ⟨joinerSecret, none, pskList.map Prod.fst⟩
  let sealInfo ← egsInfo egi
  let (enc, ct) ← HPKE.sealTo crypto (kem 3) ((kem 20).publicBytes crypto) gsBytes [] 0 sealInfo
  pure ⟨0x0001, [⟨[], enc, ct⟩], egi⟩

/-- Such a Welcome whose secrets are sealed to Carol too. -/
def sharedWelcome (joinerSecret : Bytes) (tree : RatchetTree) : Py Welcome := do
  let welcome ← welcomeWith joinerSecret tree []
  let secrets ← MLSGroup.openGroupSecrets crypto (kem 20) welcome.encryptedGroupInfo
    welcome.encryptedGroupSecrets
  let info ← egsInfo welcome.encryptedGroupInfo
  let (enc, ct) ← HPKE.sealTo crypto (kem 4) ((kem 21).publicBytes crypto) secrets [] 0 info
  pure { welcome with
    encryptedGroupSecrets := welcome.encryptedGroupSecrets ++ [⟨[], enc, ct⟩] }

/-- The same with the all-zero joiner secret. -/
def welcomeTo (tree : RatchetTree) (pskList : List (PreSharedKeyID × Bytes)) : Py Welcome :=
  welcomeWith zeros32 tree pskList

end Sample

end PureMls
