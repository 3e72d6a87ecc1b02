import PureMls.Verification.Seals
import PureMls.Verification.SignedBytes
import PureMls.Verification.Transcripts
import PureMls.Verification.Transport

/-! # Acceptance and agreement

What a receiver accepts under a signature of the sender's puts both into one epoch: the signature
covers the interim transcript hash, and that names the epoch secret it was tagged with. -/

namespace PureMls

open RatchetTree MLSGroup

variable {C : Crypto}

/-! ## What the signature covers -/

namespace MLSGroup

variable {self other : MLSGroup} {update update' : GroupUpdate} {tbs : Bytes}

/-- Two members that compute one FramedContentTBS, each from its own state and its own copy of the
commit, are in one epoch with one transcript and read one commit. -/
theorem recomputedTbs_inj (h : recomputedTbs C self update = .ok tbs)
    (h' : recomputedTbs C other update' = .ok tbs) :
    self.state.groupId = other.state.groupId ∧ self.state.epochId = other.state.epochId ∧
    self.state.tree.treeHash C = other.state.tree.treeHash C ∧
    self.interimTranscriptHash = other.interimTranscriptHash ∧
    update.committerIndex = update'.committerIndex ∧
    ∃ body, update.bodyBytes = .ok body ∧ update'.bodyBytes = .ok body := by
  simp only [recomputedTbs, receivedContent, makeGroupContext, Py.bind_eq_ok, Py.pure_eq,
    Except.ok.injEq] at h h'
  obtain ⟨_, ⟨body, hbody, rfl⟩, _, ⟨hash, hhash, rfl⟩, htbs⟩ := h
  obtain ⟨_, ⟨body', hbody', rfl⟩, _, ⟨hash', hhash', rfl⟩, htbs'⟩ := h'
  obtain ⟨hctx, hframed⟩ := makeFramedContentTbs_inj htbs htbs'
  simp only [GroupContext.mk.injEq, FramedContent.mk.injEq] at hctx hframed
  obtain ⟨-, -, rfl, hinterim, -⟩ := hctx
  obtain ⟨hgroup, hepoch, hindex, -, rfl⟩ := hframed
  exact ⟨hgroup, hepoch, hhash.trans hhash'.symm, hinterim, hindex, body, hbody, hbody'⟩

end MLSGroup

/-- One body in two commits: they differ at most in what the frame adds. -/
theorem GroupUpdate.sameCommit_of_body {update other : GroupUpdate} (hwire : update.tree.OnWire)
    (hwire' : other.tree.OnWire) {body : Bytes} (hbody : update.bodyBytes = .ok body)
    (hbody' : other.bodyBytes = .ok body) (hgroup : update.groupId = other.groupId)
    (hsignature : update.signature = other.signature) :
    SameCommit { update with
      confirmationTag := other.confirmationTag
      membershipTag := other.membershipTag } other ∧
    update.tree.toBytes = other.tree.toBytes := by
  obtain ⟨treeBytes, htree, hreads⟩ := GroupUpdate.readsAs_body hbody
  obtain ⟨treeBytes', htree', hreads'⟩ := GroupUpdate.readsAs_body hbody'
  have hsame := hreads.unique_self hreads'
  simp only [Body.mk.injEq] at hsame
  obtain ⟨hepoch, rfl, hsecrets, hindex, hpath⟩ := hsame
  have hcanon : update.tree.canon = other.tree.canon :=
    Except.ok.inj ((hwire.fromBytes_toBytes htree).symm.trans (hwire'.fromBytes_toBytes htree'))
  have hnodes := congrArg (Option.map UpdatePath.nodes) hpath
  simp only [Option.map_map] at hnodes
  refine ⟨⟨hgroup, hepoch, hcanon, fun ref => ?_, hindex, hnodes, hbody.trans hbody'.symm,
    hsignature, rfl, rfl⟩, htree.trans htree'.symm⟩
  apply Option.ext
  intro encCt
  rw [← mem_sortedSecrets, ← mem_sortedSecrets, ← hsecrets]
  rfl

/-! ## Agreement -/

/-- Under the key that the receiver has for the committer, the signature of the commit verifies
over nothing but what the commit call signed. -/
def Built.Unforged {sender : MLSGroup} {coins : CommitCoins} {p : Proposal} {committed : Committed}
    (r : Built C sender coins p committed) (receiver : MLSGroup) (update : GroupUpdate) : Prop :=
  ∀ leaf tbs, receiver.state.tree.getLeaf (2 * update.committerIndex) = some leaf →
    MLSGroup.recomputedTbs C receiver update = .ok tbs →
    C.ed25519Verify leaf.signatureKey committed.update.signature tbs = true → tbs = r.finished.tbs

/-- The receiver is in the sender's epoch and has the sender's commit, but for the tags. -/
structure Built.Received {sender : MLSGroup} {coins : CommitCoins} {p : Proposal}
    {committed : Committed}
    (r : Built C sender coins p committed) (receiver : MLSGroup) (update : GroupUpdate) : Prop where
  groupId : receiver.state.groupId = sender.state.groupId
  epochId : receiver.state.epochId = sender.state.epochId
  treeHash : receiver.state.tree.treeHash C = sender.state.tree.treeHash C
  interim : receiver.interimTranscriptHash = sender.interimTranscriptHash
  committer : update.committerIndex = committed.update.committerIndex
  body : update.bodyBytes = committed.update.bodyBytes
  same : SameCommit { update with
    confirmationTag := committed.update.confirmationTag
    membershipTag := committed.update.membershipTag } committed.update
  treeBytes : update.tree.toBytes = committed.update.tree.toBytes

namespace Built

variable {sender receiver next : MLSGroup} {coins : CommitCoins} {p : Proposal}
  {committed : Committed}
  {update : GroupUpdate} (r : Built C sender coins p committed)

/-- The signature settles everything but the tags. -/
theorem received (hsender : sender.state.tree.OnWire) (hwire : update.tree.OnWire)
    (hsignature : update.signature = committed.update.signature)
    (haccepted : processUpdateBody C receiver update = .ok next)
    (hsigned : r.Unforged receiver update) : r.Received receiver update := by
  obtain ⟨leaf, tbs, hleaf, htbs, -, hverify⟩ := authentic_of_accepted haccepted
  rw [hsignature] at hverify
  obtain rfl := hsigned leaf tbs hleaf htbs hverify
  obtain ⟨hgroup, hepoch, htree, hinterim, hindex, body, hbody, hbody'⟩ :=
    recomputedTbs_inj htbs r.recomputedTbs
  obtain ⟨_, _, _, _, _, hupdateGroup, -⟩ := processUpdateBody_accepted haccepted
  have hgroups : update.groupId = committed.update.groupId := by
    rw [hupdateGroup, hgroup, r.update_eq]
    rfl
  obtain ⟨hsame, hbytes⟩ := GroupUpdate.sameCommit_of_body hwire
    (r.update_tree ▸ r.onWire hsender) hbody hbody' hgroups hsignature
  exact ⟨hgroup, hepoch, htree, hinterim, hindex, hbody.trans hbody'.symm, hsame, hbytes⟩

/-- The commit secret that the receiver gets comes from a seal of the commit. -/
theorem received_seal (hC : C.Correct) (hsender : sender.state.tree.OnWire)
    (h : r.Received receiver update) {found : Bytes}
    (hopen : openCommitSecret C receiver update = .ok found) :
    ∃ index node secret enc ct opened steps, r.path.Seals index secret enc ct ∧
      r.path.tree.getNode index = some node ∧
      openWithContext C r.path.ctx receiver.myKemKey enc ct = .ok opened ∧
      advancePathSecret C steps secret = .ok r.path.commitSecret ∧
      advancePathSecret C steps opened = .ok found := by
  obtain ⟨m, hm29, hsized⟩ := r.sized hsender
  have hcongr := openCommitSecret_congr (C := C) (.refl receiver) h.same
  rw [r.update_eq] at hcongr
  exact r.path.opened_seal hC r.finished p.sealsLeaf (r.path.sameSize.symm.sized hsized) (by omega)
    h.groupId h.interim (hcongr.symm.trans hopen)

end Built

/-- What is assumed of the primitives when a receiver is given a signature of the sender's: the
signature is not forged, HPKE opens what was sealed or nothing, and SHA-256 and HMAC do not collide
where the interim transcript hashes of the two were computed. -/
structure Unbroken (C : Crypto) (receiver sender : MLSGroup) (last last' : Option Bytes)
    (coins : CommitCoins) (p : Proposal) (committed : Committed) (update : GroupUpdate) : Prop where
  signed : ∀ r : Built C sender coins p committed, r.Unforged receiver update
  opens : ∀ r : Built C sender coins p committed, r.path.OpensAsSealed receiver.myKemKey
  hash : ∀ a ∈ receiver.interimInputs C last, ∀ b ∈ sender.interimInputs C last',
    C.sha256 a = C.sha256 b → a = b
  mac : C.HmacInjectiveOn (receiver.interimCalls last ++ sender.interimCalls last')

/-- One epoch before the commit, and one after it. -/
structure AgreeAround (C : Crypto) (receiver sender next next' : MLSGroup) : Prop where
  groupId : receiver.state.groupId = sender.state.groupId
  epochId : receiver.state.epochId = sender.state.epochId
  treeHash : receiver.state.tree.treeHash C = sender.state.tree.treeHash C
  interim : receiver.interimTranscriptHash = sender.interimTranscriptHash
  initSecret : receiver.state.keySchedule.initSecret = sender.state.keySchedule.initSecret
  nextGroupId : next.state.groupId = next'.state.groupId
  nextEpochId : next.state.epochId = next'.state.epochId
  nextTree : next.state.tree.toBytes = next'.state.tree.toBytes
  nextKeySchedule : next.state.keySchedule = next'.state.keySchedule
  nextInterim : next.interimTranscriptHash = next'.interimTranscriptHash

/-- A receiver that accepts a commit under a signature of the sender's was in the sender's epoch,
with its init secret and transcript, and follows it into the next, in all runs that reload only
whole key schedules. -/
theorem accepted_commit_agrees (hC : C.Correct) {receiver sender next : MLSGroup}
    {last last' : Option Bytes} (hreceiver : Traced C Transition.Lossless receiver last)
    (hsender : Traced C Transition.Lossless sender last') {coins : CommitCoins} {p : Proposal}
    {committed : Committed} (hcommit : p.commit C sender coins = .ok committed)
    {update : GroupUpdate} (hwire : update.tree.OnWire)
    (hsignature : update.signature = committed.update.signature)
    (haccepted : (receiver.processUpdate C update).2 = .ok next)
    (hunbroken : Unbroken C receiver sender last last' coins p committed update) :
    AgreeAround C receiver sender next committed.next := by
  obtain ⟨r⟩ := Proposal.commit_eq_ok hcommit
  rw [processUpdate_snd] at haccepted
  have hsenderWire : sender.state.tree.OnWire :=
    hsender.reached.onWire (fun _ h => h) (fun _ _ h => h)
  -- the signature covers the epoch and the commit
  have hreceived := r.received hsenderWire hwire hsignature haccepted (hunbroken.signed r)
  have hgroup := hreceived.groupId
  have hepoch := hreceived.epochId
  -- the transcript covers the secrets of the epoch
  have hinit :=
    (Rooted.of_traced hC hreceiver).initSecret_eq hC (Rooted.of_traced hC hsender) hgroup
    hreceived.treeHash hreceived.interim hunbroken.hash hunbroken.mac
  obtain ⟨commitSecret, transcript, ctx, ctxBytes, ks, -, hupdateEpoch, hopen, htranscript, hctx,
    hctxBytes, hks, rfl⟩ := processUpdateBody_accepted haccepted
  -- the commit secret is the one that was sealed
  have hsecret : commitSecret = r.path.commitSecret := by
    obtain ⟨index, _, secret, enc, ct, opened, steps, hseal, -, hopened, hlast, hfound⟩ :=
      r.received_seal hC hsenderWire hreceived hopen
    rw [hunbroken.opens r index secret enc ct opened hseal hopened] at hfound
    exact Except.ok.inj (hfound.symm.trans hlast)
  have hsameTranscript :
    receiver.nextTranscript C update = sender.nextTranscript C committed.update := by
    simp only [MLSGroup.nextTranscript, MLSGroup.receivedContent, hreceived.body, hgroup, hepoch,
      hreceived.committer, hreceived.interim, hsignature]
  rw [r.nextTranscript, htranscript, Except.ok.injEq] at hsameTranscript
  have hnewCtx : makeGroupContext C receiver.state.groupId update.epochId update.tree transcript =
      .ok r.finished.newCtx := by
    rw [hupdateEpoch, hgroup, hepoch, hsameTranscript, makeGroupContext_congr hreceived.same.tree,
      r.update_tree]
    exact r.finished.newCtx_eq
  obtain rfl := Except.ok.inj (hctx.symm.trans hnewCtx)
  obtain rfl := Except.ok.inj (hctxBytes.symm.trans r.finished.newCtxBytes_eq)
  have hnext :
    committed.next.state = ⟨sender.state.groupId, sender.state.epochId + 1, r.path.tree, ks⟩ := by
    have hadvance :
      sender.state.advanceEpoch C r.path.commitSecret r.path.tree r.finished.newCtxBytes [] =
        .ok r.finished.nextState := r.finished.nextState_eq
    rw [hinit, hsecret] at hks
    rw [EpochState.advanceEpoch, hks] at hadvance
    rw [r.next_state]
    exact (Except.ok.inj hadvance).symm
  have hkey : ks.confirmationKey = r.finished.confKey := by
    rw [← r.finished.confKey_nextState, ← r.next_state, hnext]
  refine ⟨hgroup, hepoch, hreceived.treeHash, hreceived.interim, hinit, ?_, ?_, ?_, ?_, ?_⟩
  · rw [hnext]
    exact hgroup
  · rw [hnext]
    exact congrArg (· + 1) hepoch
  · rw [r.next_tree, ← r.update_tree]
    exact hreceived.treeBytes
  · rw [hnext]
    rfl
  · rw [r.next_interim, Finished.interim, Finished.confTag, ← hkey, ← hsameTranscript]
    rfl

/-! ## A commit that two members follow, and one that takes them apart -/

namespace Sample

/-- Decryption gives back the plaintext under any key under which it succeeds. -/
theorem open_sealed {ctx : GroupContext} {ephemeral key : KemKey}
    {recipient secret enc ct opened : Bytes}
    (hseal : sealWithContext crypto ctx ephemeral recipient secret = .ok (enc, ct))
    (hopen : openWithContext crypto ctx key enc ct = .ok opened) : opened = secret := by
  simp only [sealWithContext, openWithContext, HPKE.sealTo, HPKE.openSealed, crypto, Py.bind_eq_ok,
    Py.pure_eq, Except.ok.injEq, Prod.mk.injEq] at hseal hopen
  obtain ⟨_, -, _, -, _, -, ⟨key', nonce'⟩, -, ct', rfl, -, rfl⟩ := hseal
  obtain ⟨_, -, _, -, _, -, ⟨key, nonce⟩, -, hopen⟩ := hopen
  have hlen : (tag key' nonce' secret []).length = 16 := by simp [tag, mac, length_hash]
  split_ifs at hopen
  obtain rfl := Except.ok.inj hopen
  simp [hlen]

theorem opensAsSealed {sender : MLSGroup} {coins : CommitCoins} {sealLeaf : LeafSeal}
    {indices : RatchetTree → List ℕ} {base : RatchetTree}
    (b : BuiltPath crypto sender coins sealLeaf indices base) (key : KemKey) :
    b.OpensAsSealed key := by
  intro index secret enc ct opened hseal hopen
  cases hseal with
  | path _ _ _ _ _ hseal => exact open_sealed hseal hopen
  | fallback _ _ hseal => exact open_sealed hseal hopen

/-- A signature over the TBS that the sender rebuilds too is not forged. -/
theorem unforged {receiver sender : MLSGroup} {coins : CommitCoins} {p : Proposal}
    {committed : Committed} {update : GroupUpdate} {tbs : Bytes}
    (hreceiver : recomputedTbs crypto receiver update = .ok tbs)
    (hsender : recomputedTbs crypto sender committed.update = .ok tbs)
    (r : Built crypto sender coins p committed) : r.Unforged receiver update := by
  intro leaf found _ hfound _
  rw [r.recomputedTbs] at hsender
  exact Except.ok.inj (hfound.symm.trans (hreceiver.trans hsender.symm))

/-- What is to be checked about the hashes of two members, and that they rebuild one TBS. -/
def expectUnbroken (receiver sender : MLSGroup) (transcript transcript' : Bytes)
    (committed : Committed) : Py Unit := do
  let tbs ← recomputedTbs crypto receiver committed.update
  let tbs' ← recomputedTbs crypto sender committed.update
  expect (tbs = tbs')
  expect (∀ a ∈ receiver.interimInputs crypto (some transcript),
    ∀ b ∈ sender.interimInputs crypto (some transcript'), crypto.sha256 a = crypto.sha256 b → a = b)
  expect (crypto.HmacInjectiveOn (receiver.interimCalls (some transcript) ++
    sender.interimCalls (some transcript')))

theorem unbroken {receiver sender : MLSGroup} {transcript transcript' : Bytes}
    {committed : Committed}
    {u : Unit} (h : expectUnbroken receiver sender transcript transcript' committed = .ok u)
    (coins : CommitCoins) (p : Proposal) (update : GroupUpdate)
    (hupdate : recomputedTbs crypto receiver update =
      recomputedTbs crypto receiver committed.update) :
    Unbroken crypto receiver sender (some transcript)
      (some transcript') coins p committed update := by
  simp only [expectUnbroken, expect, Py.bind_eq_ok, Py.require_eq_ok] at h
  obtain ⟨tbs, htbs, _, htbs', _, rfl, _, hhash, hmac⟩ := h
  exact ⟨unforged (hupdate.trans htbs) htbs', fun r => opensAsSealed r.path _, hhash, hmac⟩

/-- Alice adds Bob, Bob updates his key and Alice follows. -/
def followed : Py (MLSGroup × Committed × Bytes × MLSGroup × Opening × Committed × MLSGroup) := do
  let bobPackage ← keyPackage 20
  let alice ← MLSGroup.create crypto (ascii "g") (sig 1) (kem 1) (kem 2)
  let added ← (Proposal.addMember bobPackage).commit crypto alice (coins 40)
  let transcript ← alice.nextTranscript crypto added.update
  let welcome := added.welcome.getD ⟨0, [], []⟩
  let call : JoinCall := ⟨welcome, sig 20, kem 20, [], none⟩
  let bob ← call.run crypto
  let o ← openWelcome crypto welcome (kem 20) []
  let updated ← Proposal.updateKey.commit crypto bob (coins 60)
  let next ← (added.next.processUpdate crypto updated.update).2
  expectUnbroken added.next bob transcript o.info.groupContext.confirmedTranscriptHash updated
  pure (alice, added, transcript, bob, o, updated, next)

theorem followed_ok : ∃ r, followed = .ok r := Py.ok_of_isOk (by decide +kernel)

/-- A Welcome to Bob and Carol with a joiner secret of 33 bytes. -/
def shiftedWelcome (tree : RatchetTree) : Py Welcome := sharedWelcome (List.replicate 33 7) tree

/-- The commit with the tags that the receiver expects. -/
def retag (receiver : MLSGroup) (update : GroupUpdate) : Py GroupUpdate := do
  let tbs ← recomputedTbs crypto receiver update
  let transcript ← receiver.nextTranscript crypto update
  let commitSecret ← MLSGroup.openCommitSecret crypto receiver update
  let ctx ← makeGroupContext crypto receiver.state.groupId update.epochId update.tree transcript
  let ctxBytes ← ctx.toBytes
  let confKey ← KeySchedule.deriveConfirmationKey crypto receiver.state.keySchedule.initSecret
    commitSecret ctxBytes []
  pure { update with
    confirmationTag := some (mac confKey transcript)
    membershipTag := some (mac receiver.state.keySchedule.membershipKey tbs) }

/-- Bob and Carol join by one Welcome with a joiner secret of 33 bytes; Carol reloads her handle,
and gets Bob's key update with other tags. -/
def parted : Py (MLSGroup × MLSGroup × Opening × MLSGroup × Opening × Committed × GroupUpdate ×
    MLSGroup) := do
  let carolPackage ← keyPackage 21
  let alone ← MLSGroup.create crypto (ascii "g") (sig 20) (kem 20) (kem 2)
  let added ← (Proposal.addMember carolPackage).commit crypto alone (coins 40)
  let welcome ← shiftedWelcome added.next.state.tree
  let bobCall : JoinCall := ⟨welcome, sig 20, kem 20, [], none⟩
  let bob ← bobCall.run crypto
  let bobOpening ← openWelcome crypto welcome (kem 20) []
  let carolCall : JoinCall := ⟨welcome, sig 21, kem 21, [], none⟩
  let joined ← carolCall.run crypto
  let carolOpening ← openWelcome crypto welcome (kem 21) []
  let carol ← Transition.run crypto joined .reload
  let updated ← Proposal.updateKey.commit crypto bob (coins 60)
  let update ← retag carol updated.update
  let next ← (carol.processUpdate crypto update).2
  expectUnbroken carol bob carolOpening.info.groupContext.confirmedTranscriptHash
    bobOpening.info.groupContext.confirmedTranscriptHash updated
  expect (carol.state.keySchedule.initSecret ≠ bob.state.keySchedule.initSecret)
  pure (bob, joined, bobOpening, carol, carolOpening, updated, update, next)

theorem parted_ok : ∃ r, parted = .ok r := Py.ok_of_isOk (by decide +kernel)

end Sample

open Sample in
/-- Alice and Bob agree around Bob's key update. -/
theorem accepted_commit_agrees_alice : ∃ (alice next bob : MLSGroup) (updated : Committed),
    (alice.processUpdate crypto updated.update).2 = .ok next ∧
      AgreeAround crypto alice bob next updated.next := by
  obtain ⟨_, hrun⟩ := followed_ok
  simp only [followed, Py.bind_eq_ok] at hrun
  obtain ⟨kp, -, alice, hcreate, added, hadd, transcript, htranscript, bob, hjoin, o, hopening,
    updated, hupdate, next, hnext, _, hchecked, -⟩ := hrun
  have hcall : Transition.Lossless alice (Proposal.transition (coins 40) (.addMember kp)) :=
    ⟨trivial, fun h => by cases h⟩
  have hwelcome : JoinCall.FromWire ⟨added.welcome.getD ⟨0, [], []⟩, sig 20, kem 20, [], none⟩ := by
    intro tree htree
    cases htree
  have hbob : Traced crypto Transition.Lossless bob _ := .join hwelcome hjoin hopening
  have hwire : updated.update.tree.OnWire := by
    obtain ⟨r⟩ := Proposal.commit_eq_ok hupdate
    rw [r.update_tree]
    exact r.onWire (hbob.reached.onWire (fun _ h => h) (fun _ _ h => h))
  exact ⟨added.next, next, bob, updated, hnext, accepted_commit_agrees correct
    (.commit (.create hcreate) hcall hadd htranscript) hbob hupdate hwire rfl hnext
    (unbroken hchecked _ _ _ rfl)⟩

open Sample in
/-- After a reload that shifted her secrets Carol accepts a commit under Bob's signature although
their init secrets differ. -/
theorem reloaded_member_parted : ¬ ∀ (receiver sender next : MLSGroup) (last last' : Option Bytes)
    (coins : CommitCoins) (p : Proposal) (committed : Committed) (update : GroupUpdate),
    Traced crypto (fun _ transition => transition.FromWire) receiver last →
    Traced crypto (fun _ transition => transition.FromWire) sender last' →
    p.commit crypto sender coins = .ok committed → update.tree.OnWire →
    update.signature = committed.update.signature →
    (receiver.processUpdate crypto update).2 = .ok next →
    Unbroken crypto receiver sender last last' coins p committed update →
    AgreeAround crypto receiver sender next committed.next := by
  intro hall
  obtain ⟨_, hrun⟩ := parted_ok
  simp only [parted, retag, expect, Py.bind_eq_ok, Py.require_eq_ok, Py.pure_eq,
    Except.ok.injEq] at hrun
  obtain ⟨_, -, _, -, _, -, welcome, -, bob, hbob, bobOpening, hbobOpening, joined, hjoined,
    carolOpening, hcarolOpening, carol, hreload, updated, hupdate, update, ⟨_, -, _, -, _, -, _, -,
    _, -, _, -, hretag⟩, next, hnext, _, hchecked, _, hne, -⟩ := hrun
  have hfrom : ∀ key kem, JoinCall.FromWire ⟨welcome, key, kem, [], none⟩ := by
    intro key kem tree htree
    cases htree
  have hsender : Traced crypto (fun _ transition => transition.FromWire) bob _ :=
    .join (hfrom _ _) hbob hbobOpening
  have hreceiver : Traced crypto (fun _ transition => transition.FromWire) carol _ :=
    .reload (.join (hfrom _ _) hjoined hcarolOpening) trivial hreload
  have hwire : update.tree.OnWire := by
    obtain ⟨r⟩ := Proposal.commit_eq_ok hupdate
    rw [← hretag]
    change updated.update.tree.OnWire
    rw [r.update_tree]
    exact r.onWire (hsender.reachedBy.onWire (fun _ h => h) (fun _ _ h => h))
  have hsignature : update.signature = updated.update.signature := by rw [← hretag]
  have htbs : recomputedTbs crypto carol update = recomputedTbs crypto carol updated.update := by
    rw [← hretag]
    rfl
  have hagree :=
    hall carol bob next _ _ (coins 60) .updateKey updated update hreceiver hsender hupdate
    hwire hsignature hnext (unbroken hchecked _ _ _ htbs)
  exact hne hagree.initSecret

end PureMls
