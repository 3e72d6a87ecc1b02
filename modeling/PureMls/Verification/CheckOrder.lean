import PureMls.Verification.Reached
import PureMls.Verification.Receiving
import PureMls.Verification.Encoders

/-! # The order of the checks on a commit

The receiver opens the ciphertext of a commit before it has verified the signature, so what it
answers to a commit that nobody signed can depend on its private key. -/

namespace PureMls

open RatchetTree Py.FailsWith

variable {C : Crypto}

/-! ## The ciphertext for the receiver -/

/-- A ciphertext for the receiver, and how many path secrets lie between its plaintext and the
commit secret. -/
structure Addressed where
  kemOutput : Bytes
  ciphertext : Bytes
  info : Bytes
  steps : ℕ

/-- `HPKE.open` with the receiver's private key. -/
def Addressed.openWith (C : Crypto) (sealedSecret : Addressed) (key : KemKey) : Py Bytes :=
  HPKE.openSealed C key sealedSecret.kemOutput sealedSecret.ciphertext [] 0 sealedSecret.info

namespace MLSGroup

/-- A ciphertext with the UpdatePathNode info of `ctx`. -/
def addressedWith (ctx : GroupContext) (enc ct : Bytes) (steps : ℕ) : Py Addressed := do
  let ctxBytes ← ctx.toBytes
  let info ← upInfo ctxBytes
  pure ⟨enc, ct, info, steps⟩

/-- The ciphertext on the update path for the member at `myIndex`. -/
def addressedOnPath (myIndex : ℕ) (tree : RatchetTree) (ctx : GroupContext) (total : ℕ) :
    ℕ → List (Option ℕ × UpdatePathNode) → Py (Option Addressed)
  | _, [] => pure none
  | i, (cop, node) :: path => do
    let resolved ← tree.resolution cop
    let ct := (resolved.idxOf? (2 * myIndex)).bind (node.encryptedPathSecret[·]?)
    match ct with
    | some ct => some <$> addressedWith ctx ct.kemOutput ct.ciphertext (total - i - 1)
    | none => addressedOnPath myIndex tree ctx total (i + 1) path

/-- The ciphertext that is sealed directly to the receiver's leaf. -/
def addressedFallback (ctx : GroupContext) (secrets : Dict Bytes Bytes) (myKpRef : Bytes) :
    Py Addressed :=
  match secrets.get? myKpRef with
  | none => .error (.valueError "Not invited to this epoch (KeyPackageRef not found in commit)")
  | some encCt => addressedWith ctx (encCt.take 32) (encCt.drop 32) 0

/-- The ciphertext that the receiver opens for the commit secret. -/
def addressed (C : Crypto) (self : MLSGroup) (update : GroupUpdate) : Py Addressed := do
  let leaf ← match self.state.tree.getLeaf (2 * self.myIndex) with
    | some leaf => pure leaf
    | none => .error (.valueError "My leaf node not found in tree")
  let ctx ← makeGroupContext C self.state.groupId update.epochId update.tree
    self.interimTranscriptHash
  let myKpRef ← makeKpRef C leaf.keyPackage
  let fromPath ← match update.updatePath with
    | none => pure none
    | some path =>
      if path.nodes = [] then pure none
      else do
        let direct ← update.tree.directPath (2 * update.committerIndex)
        let cop ← update.tree.copath (2 * update.committerIndex)
        addressedOnPath self.myIndex update.tree ctx direct.length 0 (cop.zip path.nodes)
  match fromPath with
  | some sealedSecret => pure sealedSecret
  | none => addressedFallback ctx update.encryptedCommitSecrets myKpRef

/-- What the receiver checks before it uses its private key, and the ciphertext it then opens. -/
def beforeOpening (C : Crypto) (self : MLSGroup) (update : GroupUpdate) :
    Py (LeafNode × Addressed) := do
  let committer ← self.checkUpdate update
  verifyLeaves C self.state.groupId update.tree
  let sealedSecret ← addressed C self update
  pure (committer, sealedSecret)

/-! ## Opening it -/

theorem advancePathSecret_ok (C : Crypto) (n : ℕ) (secret : Bytes) :
    ∃ last, advancePathSecret C n secret = .ok last := by
  induction n generalizing secret with
  | zero => exact ⟨secret, rfl⟩
  | succ n ih => exact ih _

/-- Open the ciphertext and go on to the commit secret. -/
def openAddressed (C : Crypto) (key : KemKey) (sealedSecret : Addressed) : Py Bytes := do
  let pathSecret ← sealedSecret.openWith C key
  advancePathSecret C sealedSecret.steps pathSecret

/-- Only opening can fail; the derivations after it do not. -/
theorem fault?_openAddressed (C : Crypto) (key : KemKey) (sealedSecret : Addressed) :
    (openAddressed C key sealedSecret).fault? = (sealedSecret.openWith C key).fault? := by
  rw [openAddressed]
  cases sealedSecret.openWith C key with
  | error e => rfl
  | ok pathSecret =>
      obtain ⟨last, hlast⟩ := advancePathSecret_ok C sealedSecret.steps pathSecret
      rw [Py.ok_bind, hlast]
      rfl

theorem openFromPath_eq (self : MLSGroup) (tree : RatchetTree) (ctx : GroupContext) (total i : ℕ)
    (path : List (Option ℕ × UpdatePathNode)) :
    openFromPath C self tree ctx total i path =
      addressedOnPath self.myIndex tree ctx total i path >>= fun found =>
        match found with
        | some sealedSecret => some <$> openAddressed C self.myKemKey sealedSecret
        | none => pure none := by
  induction path generalizing i with
  | nil => rfl
  | cons entry path ih =>
      obtain ⟨cop, node⟩ := entry
      simp only [openFromPath, addressedOnPath]
      cases hresolved : tree.resolution cop with
      | error e => rfl
      | ok resolved =>
          simp only [Py.ok_bind]
          cases hct : (resolved.idxOf? (2 * self.myIndex)).bind (node.encryptedPathSecret[·]?) with
          | none => exact ih (i + 1)
          | some ct =>
              simp only [openWithContext, addressedWith, map_eq_pure_bind, bind_assoc, pure_bind,
                openAddressed, Addressed.openWith]

theorem openFallback_eq (self : MLSGroup) (ctx : GroupContext) (secrets : Dict Bytes Bytes)
    (myKpRef : Bytes) : openFallback C self ctx secrets myKpRef =
      addressedFallback ctx secrets myKpRef >>= openAddressed C self.myKemKey := by
  simp only [openFallback, addressedFallback]
  cases secrets.get? myKpRef with
  | none => rfl
  | some encCt =>
      simp only [openWithContext, addressedWith, bind_assoc, pure_bind, openAddressed,
        Addressed.openWith, advancePathSecret, bind_pure]

/-- The commit secret is found, opened with the private key, and derived. -/
theorem openCommitSecret_eq (self : MLSGroup) (update : GroupUpdate) :
    openCommitSecret C self update = addressed C self update >>= openAddressed C self.myKemKey := by
  simp only [openCommitSecret, addressed]
  cases self.state.tree.getLeaf (2 * self.myIndex) with
  | none => rfl
  | some leaf =>
      simp only [pure_bind, bind_assoc]
      refine bind_congr fun ctx => bind_congr fun myKpRef => ?_
      cases update.updatePath with
      | none => exact openFallback_eq self ctx _ _
      | some path =>
          by_cases hnil : path.nodes = []
          · simp only [if_pos hnil]
            exact openFallback_eq self ctx _ _
          · simp only [if_neg hnil, bind_assoc, openFromPath_eq]
            refine bind_congr fun direct => bind_congr fun cop => bind_congr fun found => ?_
            cases found with
            | none => exact openFallback_eq self ctx _ _
            | some sealedSecret => simp only [map_eq_pure_bind, bind_assoc, pure_bind, bind_pure]

end MLSGroup

/-! ## Which exceptions come from where -/

/-- The exceptions of `HPKE.open`. -/
inductive OpenFault : Fault → Prop where
  | malformed : OpenFault (.valueError "Malformed KemKey public bytes")
  | tag : OpenFault .invalidTag

/-- With a 16-byte key and a 12-byte nonce AES-GCM decryption fails with `InvalidTag` only. -/
def Crypto.DecryptFailsWithTag (C : Crypto) : Prop :=
  ∀ key nonce ct ad, key.length = 16 → nonce.length = 12 →
    (C.aesGcmDecrypt key nonce ct ad).FailsWith (· = .invalidTag)

theorem HPKE.contextKeys_eq_ok (hC : C.Correct) (dh kemContext info : Bytes) :
    ∃ key nonce, HPKE.contextKeys C dh kemContext 0 info = .ok (key, nonce) ∧ key.length = 16 ∧
      nonce.length = 12 := by
  have hseq : toBytesBig 12 0 = .ok (beBytes 12 0) := toBytesBig_eq_ok.mpr ⟨by decide, rfl⟩
  simp only [contextKeys, xorNonce, hseq, Py.ok_bind, Py.pure_eq]
  refine ⟨_, _, rfl, length_hkdfExpand hC _ _ 16, ?_⟩
  simp only [labeledExpand, List.length_zipWith, length_hkdfExpand hC, length_beBytes, min_self]

theorem Addressed.openWith_failsWith (hC : C.Correct) (htag : C.DecryptFailsWithTag)
    (sealedSecret : Addressed) (key : KemKey) :
    (sealedSecret.openWith C key).FailsWith OpenFault := by
  refine bind ?_ fun dh => ?_
  · unfold KemKey.dhExchange
    split_ifs
    · cases C.x25519Exchange key.privateBytes sealedSecret.kemOutput with
      | none => exact error .malformed
      | some shared => exact ok shared
    · exact error .malformed
  · obtain ⟨aeadKey, nonce, hkeys, hkey, hnonce⟩ := HPKE.contextKeys_eq_ok hC dh
      (sealedSecret.kemOutput ++ key.publicBytes C) sealedSecret.info
    rw [hkeys, Py.ok_bind]
    refine (htag _ _ _ _ hkey hnonce).mono fun e he => ?_
    rw [he]
    exact .tag

/-- A text that starts otherwise is another text. -/
theorem append_ne_of_take {start rest text : String}
    (h : text.toList.take start.length ≠ start.toList) : start ++ rest ≠ text := by
  intro heq
  apply h
  rw [← heq, String.toList_append]
  exact List.take_left' rfl

theorem EncodeFault.not_openFault {e : Fault} (h : EncodeFault e) : ¬ OpenFault e := by
  intro hopen
  cases h with
  | struct => cases hopen
  | overflow => cases hopen
  | varint n =>
      generalize htext :
        (s!"VarInt out of range (max 2^30-1 per RFC 9420 §2.1.2): {n}") = text at hopen
      cases hopen
      refine append_ne_of_take ?_ htext
      decide

namespace MLSGroup

variable {self : MLSGroup} {update : GroupUpdate}

theorem signatureFault_not_openFault {e : Fault} (h : e ≠ .invalidTag) :
    ¬ OpenFault (signatureFault e) := by
  intro hopen
  generalize hfault : signatureFault e = fault at hopen
  cases hopen with
  | malformed =>
      cases e with
      | valueError message => exact append_ne_of_take (by decide) (Fault.valueError.inj hfault)
      | typeError message => exact append_ne_of_take (by decide) (Fault.valueError.inj hfault)
      | invalidSignature => exact absurd (Fault.valueError.inj hfault) (by decide)
      | _ => cases hfault
  | tag =>
      cases e with
      | invalidTag => exact h rfl
      | _ => cases hfault

/-- The checks between the opening and the membership tag: the signature, over what the receiver
rebuilds. -/
def authenticate (C : Crypto) (self : MLSGroup) (update : GroupUpdate) (committer : LeafNode) :
    Py (Bytes × Bytes) := do
  let framed ← self.receivedContent update
  let framedBytes ← framed.toBytes
  let tbs ← checkSignature C self update committer framed
  pure (framedBytes, tbs)

theorem authenticate_failsWith (committer : LeafNode) :
    (authenticate C self update committer).FailsWith (¬ OpenFault ·) := by
  have hencodes : ∀ {x : Py Bytes}, Encodes x → x.FailsWith (¬ OpenFault ·) :=
    fun hx => hx.mono fun e => EncodeFault.not_openFault
  refine ((hencodes update.encodes_bodyBytes).bind fun _ => ok _).bind fun framed =>
    (hencodes framed.encodes_toBytes).bind fun framedBytes => bind ?_ fun tbs => ok _
  refine rethrow ?_ fun e => signatureFault_not_openFault
  refine ((treeHash_failsWith _ C).bind fun _ => ok _).bind fun ctx => ?_
  refine ((require (by simp)).bind fun _ => ok _).bind fun key => ?_
  exact ((encodes_framedContentTbs ctx framed).mono fun e => EncodeFault.ne_invalidTag).bind
    fun tbs =>
    (require (by simp)).bind fun _ => ok _

/-! ## Commits that nobody signed -/

/-- The FramedContentTBS that the receiver recomputes. -/
def recomputedTbs (C : Crypto) (self : MLSGroup) (update : GroupUpdate) : Py Bytes := do
  let framed ← self.receivedContent update
  let ctx ← makeGroupContext C self.state.groupId self.state.epochId self.state.tree
    self.interimTranscriptHash
  makeFramedContentTbs ctx framed

/-- The signature of the commit verifies over it, under the committer's key in the receiver's
tree. -/
def Authentic (C : Crypto) (self : MLSGroup) (update : GroupUpdate) : Prop :=
  ∃ committer tbs, self.state.tree.getLeaf (2 * update.committerIndex) = some committer ∧
    recomputedTbs C self update = .ok tbs ∧ committer.signatureKey.length = 32 ∧
    C.ed25519Verify committer.signatureKey update.signature tbs = true

theorem authentic_of_authenticate {committer : LeafNode} {checked : Bytes × Bytes}
    (hcommitter : self.checkUpdate update = .ok committer)
    (h : authenticate C self update committer = .ok checked) : Authentic C self update := by
  simp only [authenticate, checkSignature, ed25519FromPublicBytes, ed25519Check, Py.bind_eq_ok,
    Py.rethrow_eq_ok, Py.require_eq_ok, Py.pure_eq, Except.ok.injEq] at h
  obtain ⟨framed, hframed, _, -, _, ⟨ctx, hctx, _, ⟨_, hlen, rfl⟩, tbs, htbs, _, hverify, rfl⟩,
    -⟩ := h
  simp only [checkUpdate, Py.bind_eq_ok] at hcommitter
  obtain ⟨_, -, _, -, hleaf⟩ := hcommitter
  refine ⟨committer, tbs, ?_, ?_, hlen, hverify⟩
  · cases hget : self.state.tree.getLeaf (2 * update.committerIndex) with
    | none =>
        rw [hget] at hleaf
        cases hleaf
    | some leaf =>
        rw [hget] at hleaf
        cases hleaf
        rfl
  · rw [recomputedTbs, hframed, Py.ok_bind, hctx, Py.ok_bind, htbs]

/-- The order of the steps: checks, opening, authentication, and whatever comes after. -/
theorem processUpdateBody_order (C : Crypto) (self : MLSGroup) (update : GroupUpdate) :
    ∃ rest : Bytes → Bytes → Bytes → Py MLSGroup, processUpdateBody C self update =
      beforeOpening C self update >>= fun found => openAddressed C self.myKemKey found.2 >>=
        fun commitSecret => authenticate C self update found.1 >>=
          fun checked => rest commitSecret checked.1 checked.2 := by
  refine ⟨?rest, ?order⟩
  case order =>
    simp only [processUpdateBody, beforeOpening, authenticate, openCommitSecret_eq, bind_assoc,
      pure_bind]
    rfl

/-- A commit that nobody signed is refused with what the opening raises, or else with what the
checks after it raise. -/
theorem processUpdateBody_of_not_authentic (hsig : ¬ Authentic C self update) {committer : LeafNode}
    {sealedSecret : Addressed}
    (hbefore : beforeOpening C self update = .ok (committer, sealedSecret)) :
    ∃ e, authenticate C self update committer = .error e ∧ processUpdateBody C self update =
      (openAddressed C self.myKemKey sealedSecret >>= fun _ => .error e) := by
  obtain ⟨rest, horder⟩ := processUpdateBody_order C self update
  have hcheck : self.checkUpdate update = .ok committer := by
    simp only [beforeOpening, Py.bind_eq_ok, Py.pure_eq, Except.ok.injEq, Prod.mk.injEq] at hbefore
    obtain ⟨_, hcheck, _, -, _, -, rfl, -⟩ := hbefore
    exact hcheck
  cases hauth : authenticate C self update committer with
  | ok checked => exact absurd (authentic_of_authenticate hcheck hauth) hsig
  | error e =>
      refine ⟨e, rfl, ?_⟩
      rw [horder, hbefore, Py.ok_bind, hauth]
      rfl

/-- An earlier check that fails is the outcome. -/
theorem processUpdateBody_of_before {e : Fault} (hbefore : beforeOpening C self update = .error e) :
    processUpdateBody C self update = .error e := by
  obtain ⟨rest, horder⟩ := processUpdateBody_order C self update
  rw [horder, hbefore, Py.error_bind]

/-- A receiver that accepts a commit has verified its signature. -/
theorem authentic_of_accepted {next : MLSGroup} (h : processUpdateBody C self update = .ok next) :
    Authentic C self update := by
  obtain ⟨rest, horder⟩ := processUpdateBody_order C self update
  rw [horder] at h
  simp only [Py.bind_eq_ok] at h
  obtain ⟨⟨committer, sealedSecret⟩, hbefore, _, -, checked, hauth, -⟩ := h
  have hcheck : self.checkUpdate update = .ok committer := by
    simp only [beforeOpening, Py.bind_eq_ok, Py.pure_eq, Except.ok.injEq, Prod.mk.injEq] at hbefore
    obtain ⟨_, hcheck, _, -, _, -, rfl, -⟩ := hbefore
    exact hcheck
  exact authentic_of_authenticate hcheck hauth

end MLSGroup

open MLSGroup in
/-- The outcome for a commit that nobody signed is the same under two private keys if and only if
an earlier check refuses it, or `HPKE.open` of the ciphertext for the receiver returns under both
keys or raises the same exception under both. -/
theorem unauthenticated_outcome_iff (hC : C.Correct) (htag : C.DecryptFailsWithTag)
    {self : MLSGroup} {update : GroupUpdate} (hsig : ¬ Authentic C self update) (other : KemKey) :
    (self.processUpdate C update).2 = (({ self with myKemKey := other }).processUpdate C update).2 ↔
      ∀ committer sealedSecret, beforeOpening C self update = .ok (committer, sealedSecret) →
        (sealedSecret.openWith C self.myKemKey).fault? =
          (sealedSecret.openWith C other).fault? := by
  rw [processUpdate_snd, processUpdate_snd]
  cases hbefore : beforeOpening C self update with
  | error e =>
      have hbefore' : beforeOpening C { self with myKemKey := other } update = .error e := hbefore
      rw [processUpdateBody_of_before hbefore, processUpdateBody_of_before hbefore']
      exact ⟨fun _ _ _ h => (nomatch h), fun _ => rfl⟩
  | ok found =>
      obtain ⟨committer, sealedSecret⟩ := found
      have hbefore' : beforeOpening C { self with myKemKey := other } update =
          .ok (committer, sealedSecret) := hbefore
      obtain ⟨e, hauth, hbody⟩ := processUpdateBody_of_not_authentic hsig hbefore
      have hsig' : ¬ Authentic C { self with myKemKey := other } update := hsig
      obtain ⟨e', hauth', hbody'⟩ := processUpdateBody_of_not_authentic hsig' hbefore'
      obtain rfl := Except.error.inj (hauth.symm.trans hauth')
      have hfault : ∀ key, openAddressed C key sealedSecret ≠ .error e := by
        intro key hopen
        have hopen' : sealedSecret.openWith C key = .error e := by
          rw [← Py.fault?_eq_some, ← fault?_openAddressed, hopen]
          rfl
        exact authenticate_failsWith committer e hauth
          (sealedSecret.openWith_failsWith hC htag key e hopen')
      rw [hbody, hbody', Py.bind_error_eq_iff (hfault _) (hfault _), fault?_openAddressed,
        fault?_openAddressed]
      constructor
      · intro h _ _ hfound
        cases hfound
        exact h
      · intro h
        exact h committer sealedSecret rfl

namespace Sample

theorem decryptFailsWithTag : crypto.DecryptFailsWithTag := by
  intro key nonce ct ad _ _
  simp only [crypto]
  split
  · exact ok _
  · exact error rfl

def leafAt (tree : RatchetTree) (i : ℕ) : Py LeafNode :=
  match tree.getLeaf i with
  | some leaf => pure leaf
  | none => .error .assertionError

theorem leafAt_eq_ok {tree : RatchetTree} {i : ℕ} {leaf : LeafNode} (h : leafAt tree i = .ok leaf) :
    tree.getLeaf i = some leaf := by
  rw [leafAt] at h
  split at h
  · cases h
    assumption
  · cases h

/-- A commit for Alice's own leaf in Alice's group, with 64 zero bytes for a signature. -/
def unsignedCommit : Py (MLSGroup × GroupUpdate) := do
  let alice ← MLSGroup.create crypto (ascii "g") (sig 1) (kem 1) (kem 2)
  let leaf ← leafAt alice.state.tree 0
  let ref ← makeKpRef crypto leaf.keyPackage
  let ctx ← makeGroupContext crypto (ascii "g") 1 alice.state.tree alice.interimTranscriptHash
  let (enc, ct) ← MLSGroup.sealWithContext crypto ctx (kem 7) ((kem 1).publicBytes crypto) zeros32
  let update : GroupUpdate := ⟨1, alice.state.tree, Dict.empty.set ref (enc ++ ct), 0,
    List.replicate 64 0, ascii "g", none, none, none, none, none, none, none, none, none⟩
  let tbs ← MLSGroup.recomputedTbs crypto alice update
  expect (crypto.ed25519Verify leaf.signatureKey update.signature tbs = false)
  expectFault (alice.processUpdate crypto update).2
    (.valueError "Commit Forgery Detected: Invalid Signature in update")
  expectFault ({ alice with myKemKey := kem 9 }.processUpdate crypto update).2 .invalidTag
  pure (alice, update)

theorem unsignedCommit_ok : ∃ r, unsignedCommit = .ok r := Py.ok_of_isOk (by decide +kernel)

theorem not_authentic {self : MLSGroup} {update : GroupUpdate} {leaf : LeafNode} {tbs : Bytes}
    (hindex : update.committerIndex = 0) (hleaf : self.state.tree.getLeaf 0 = some leaf)
    (htbs : MLSGroup.recomputedTbs crypto self update = .ok tbs)
    (hverify : crypto.ed25519Verify leaf.signatureKey update.signature tbs = false) :
    ¬ MLSGroup.Authentic crypto self update := by
  rintro ⟨leaf', tbs', hleaf', htbs', -, hverify'⟩
  rw [hindex, Nat.mul_zero, hleaf] at hleaf'
  cases hleaf'
  cases htbs.symm.trans htbs'
  exact Bool.false_ne_true (hverify.symm.trans hverify')

end Sample

open Sample in
/-- What Alice answers to the commit nobody signed, with her own key and with another. -/
theorem unauthenticated_alice : ∃ (alice : MLSGroup) (update : GroupUpdate),
    ¬ MLSGroup.Authentic crypto alice update ∧
    ((alice.processUpdate crypto update).2 =
        (({ alice with myKemKey := kem 9 }).processUpdate crypto update).2 ↔
      ∀ committer sealedSecret, MLSGroup.beforeOpening crypto alice update = .ok
        (committer, sealedSecret) → (sealedSecret.openWith crypto alice.myKemKey).fault? =
          (sealedSecret.openWith crypto (kem 9)).fault?) := by
  obtain ⟨_, hrun⟩ := unsignedCommit_ok
  simp only [unsignedCommit, expect, Py.bind_eq_ok, Py.require_eq_ok] at hrun
  obtain ⟨alice, -, leaf, hleaf, ref, -, ctx, -, ⟨enc, ct⟩, -, tbs, htbs, _, hverify, -⟩ := hrun
  have hsig := not_authentic rfl (leafAt_eq_ok hleaf) htbs hverify
  exact ⟨alice, _, hsig, unauthenticated_outcome_iff correct decryptFailsWithTag hsig (kem 9)⟩

open Sample in
/-- Alice answers `ValueError` with her own key and `InvalidTag` with another. -/
theorem unauthenticated_depends_on_key : ¬ ∀ self, Reached crypto self → ∀ (other : KemKey) update,
    ¬ MLSGroup.Authentic crypto self update → (self.processUpdate crypto update).2 =
      (({ self with myKemKey := other }).processUpdate crypto update).2 := by
  intro hall
  obtain ⟨_, hrun⟩ := unsignedCommit_ok
  simp only [unsignedCommit, expect, expectFault, Py.bind_eq_ok, Py.require_eq_ok] at hrun
  obtain ⟨alice, hcreate, leaf, hleaf, ref, -, ctx, -, ⟨enc, ct⟩, -, tbs, htbs, _, hverify, _,
    hforged, _, htag, -⟩ := hrun
  have hsame :=
    hall alice (.create hcreate) (kem 9) _ (not_authentic rfl (leafAt_eq_ok hleaf) htbs hverify)
  rw [← hsame, hforged] at htag
  cases htag

end PureMls
