import PureMls.Verification.Convergence
import PureMls.Verification.Seals

/-! # Commit races

Several members commit from one epoch and the commit of one of them is delivered. -/

namespace PureMls

open RatchetTree MLSGroup

variable {C : Crypto} {members : List MLSGroup}

/-- The handle follows the commit to the epoch state and the interim transcript hash its
committer has reached. -/
def Recovers (C : Crypto) (handle : MLSGroup) (won : Committed) : Prop :=
  ∃ next, (handle.processUpdate C won.update).2 = .ok next ∧ next.state = won.next.state ∧
    next.interimTranscriptHash = won.next.interimTranscriptHash

/-- A handle of another epoch than the commit was made in refuses it. -/
theorem processUpdate_other_epoch {handle : MLSGroup} {update : GroupUpdate}
    (h : update.epochId ≠ handle.state.epochId + 1) (next : MLSGroup) :
    (handle.processUpdate C update).2 ≠ .ok next := by
  intro hnext
  have hbody := processUpdate_eq_ok.mp hnext
  simp only [processUpdateBody, checkUpdate, Py.bind_eq_ok, Py.require_eq_ok] at hbody
  obtain ⟨_, ⟨_, -, _, hepoch, -⟩, -⟩ := hbody
  exact h hepoch

/-- What the picked commit needs to be followed: leaves that verify, a committer whose leaf carries
its signature key, and for whoever stays a ciphertext at its position that was sealed to it. -/
structure Followable (C : Crypto) (members : List MLSGroup) (winner : MLSGroup) (p : Proposal)
    (won : Committed) : Prop where
  leaves : p.LeavesVerify C winner
  signs : winner.SignsForLeaf C
  addressed : ∀ other ∈ members, other.myIndex ≠ winner.myIndex → p.Keeps other.myIndex →
    other.AddressedBy C won.update

/-- The primitives tell keys apart: HPKE opens nothing for the member but what was sealed to its
key, and the commit's signature verifies under no other key than the winner's. -/
structure TellsKeysApart (C : Crypto) (winner : MLSGroup) (coins : CommitCoins) (p : Proposal)
    (won : Committed) (other : MLSGroup) : Prop where
  opens : ∀ r : Built C winner coins p won, r.path.OpensForRecipient other.myKemKey
  signed : ∀ leaf tbs, other.state.tree.getLeaf (2 * winner.myIndex) = some leaf →
    C.ed25519Verify leaf.signatureKey won.update.signature tbs = true →
    leaf.signatureKey = winner.mySigKey.publicBytes C

namespace Built

variable {sender receiver : MLSGroup} {coins : CommitCoins} {p : Proposal} {committed : Committed}
  (r : Built C sender coins p committed)

include r in
theorem update_epochId : committed.update.epochId = sender.state.epochId + 1 := by
  rw [r.update_eq]
  rfl

include r in
theorem update_committerIndex : committed.update.committerIndex = sender.myIndex := by
  rw [r.update_eq]
  rfl

include r in
theorem recovers (hC : C.Correct) (h : sender.state.tree.OnWire) (hsigns : sender.SignsForLeaf C)
    (haddressed : receiver.AddressedBy C committed.update)
    (hrefs : RefsCollisionFree C committed.update.tree) (hagree : Agrees receiver sender)
    (hne : receiver.myIndex ≠ sender.myIndex) (hkeeps : p.Keeps receiver.myIndex)
    (hkey : receiver.HoldsKey C) (hverify : p.LeavesVerify C sender) :
    Recovers C receiver committed :=
  ⟨r.followed receiver,
    r.processUpdate_of_verifies hC h hsigns haddressed hrefs hagree hne hkeeps hkey
    hverify, r.next_state.symm, r.next_interim.symm⟩

/-- When a member gets something out of the commit, what it opened was sealed to its key. -/
theorem addressed_of_opened (hC : C.Correct) (h : sender.state.tree.OnWire)
    (hrefs : RefsCollisionFree C committed.update.tree) (hagree : Agrees receiver sender)
    (hne : receiver.myIndex ≠ sender.myIndex) (hkeeps : p.Keeps receiver.myIndex)
    (hkey : receiver.HoldsKey C) (hopens : r.path.OpensForRecipient receiver.myKemKey)
    {secret : Bytes} (hopen : openCommitSecret C receiver committed.update = .ok secret) :
    receiver.AddressedBy C committed.update := by
  intro cop index node hcop haddressee hnode
  obtain ⟨m, hm29, hm⟩ := r.base_sized h
  have hfollows := r.follows h hagree hne hkeeps hkey
  rw [r.copath_update h hcop, r.update_tree] at haddressee
  rw [r.update_tree] at hnode hrefs
  rw [r.update_eq, openCommitSecret_eq_select] at hopen
  rcases r.path.select_of_commit hC r.finished p.sealsLeaf hm (by omega) hrefs hfollows
    (r.mem_indices hfollows) with
    ⟨_, _, _, hnone, -⟩ |
    ⟨i, j, cop', resolved, index', node', secret, enc, ct, hsome, hat, hresolved, hj, hnode',
      hsecret, hseal, hselect⟩
  · rw [haddressee] at hnone
    cases hnone
  · obtain rfl := Option.some.inj (Except.ok.inj (haddressee.symm.trans hsome))
    obtain rfl := Option.some.inj (hnode.symm.trans hnode')
    rw [hselect, Py.ok_bind, openSelection] at hopen
    obtain ⟨opened, hopened, -⟩ := Py.bind_eq_ok.mp hopen
    exact hopens _ _ _ _ _ _ (.path hat hsecret hresolved hj hnode hseal) hnode hopened

include r in
/-- A member that accepts the commit has verified it under the committer's key. -/
theorem signsForLeaf_of_accepted (hagree : Agrees receiver sender)
    (hsigned : ∀ leaf tbs, receiver.state.tree.getLeaf (2 * sender.myIndex) = some leaf →
      C.ed25519Verify leaf.signatureKey committed.update.signature tbs = true →
      leaf.signatureKey = sender.mySigKey.publicBytes C) {next : MLSGroup}
    (hnext : (receiver.processUpdate C committed.update).2 = .ok next) : sender.SignsForLeaf C := by
  rw [processUpdate_snd] at hnext
  obtain ⟨leaf, tbs, hleaf, -, -, hverify⟩ := authentic_of_accepted hnext
  rw [r.update_committerIndex] at hleaf
  obtain ⟨leaf', hleaf', hcanon⟩ := hagree.symm.getLeaf hleaf
  have hsame : leaf'.canon.signatureKey = leaf.canon.signatureKey := by rw [hcanon]
  exact ⟨leaf', hleaf', hsame.trans (hsigned leaf tbs hleaf hverify)⟩

end Built

/-- Of several commits from one epoch one is delivered: whoever has lost recovers on the handle
its own commit left behind, as everybody else follows, and its own commit is refused from then
on, exactly when the picked commit can be followed. -/
theorem race_recovery_iff (hC : C.Correct) (hreached : ∀ a ∈ members, Reached C a)
    (hagrees : ∀ a ∈ members, ∀ b ∈ members, Agrees a b) (hkeys : ∀ a ∈ members, a.HoldsKey C)
    {winner loser : MLSGroup} (hwinner : winner ∈ members) (hloser : loser ∈ members)
    (hne : loser.myIndex ≠ winner.myIndex) {coins coins' : CommitCoins} {p q : Proposal}
    {won lost : Committed} (hwon : p.commit C winner coins = .ok won)
    (hlost : q.commit C loser coins' = .ok lost) (hkeeps : p.Keeps loser.myIndex)
    (hrefs : RefsCollisionFree C won.update.tree)
    (hapart : ∀ other ∈ members, other.myIndex ≠ winner.myIndex → p.Keeps other.myIndex →
      TellsKeysApart C winner coins p won other) :
    (Recovers C ((q.transition coins').left C loser) won ∧
      (∀ other ∈ members, other.myIndex ≠ winner.myIndex → p.Keeps other.myIndex →
        Recovers C other won) ∧
      ∀ handle : MLSGroup, handle.state.epochId = winner.state.epochId + 1 → ∀ next,
        (handle.processUpdate C lost.update).2 ≠ .ok next) ↔ Followable C members winner p won := by
  have hwire : winner.state.tree.OnWire :=
    (hreached winner hwinner).onWire (fun _ h => h) (fun _ _ h => h)
  obtain ⟨r⟩ := Proposal.commit_eq_ok hwon
  obtain ⟨r'⟩ := Proposal.commit_eq_ok hlost
  constructor
  · rintro ⟨-, hothers, -⟩
    obtain ⟨next, hnext, -⟩ := hothers loser hloser hne hkeeps
    have hagree := hagrees _ hloser _ hwinner
    refine ⟨r.verifies_of_processUpdate hC hwire hagree.groupId hnext,
      r.signsForLeaf_of_accepted hagree (hapart loser hloser hne hkeeps).signed hnext,
      fun other hother hne' hkeeps' => ?_⟩
    obtain ⟨next', hnext', -⟩ := hothers other hother hne' hkeeps'
    have hbody := processUpdate_eq_ok.mp hnext'
    simp only [processUpdateBody, Py.bind_eq_ok] at hbody
    obtain ⟨_, -, _, -, secret, hopen, -⟩ := hbody
    exact r.addressed_of_opened hC hwire hrefs (hagrees _ hother _ hwinner) hne' hkeeps'
      (hkeys other hother)
      ((hapart other hother hne' hkeeps').opens r) hopen
  · rintro ⟨hverify, hsigns, haddressed⟩
    refine ⟨?_, fun other hother hne' hkeeps' => ?_, fun handle hepoch next => ?_⟩
    · -- the losing commit has changed nothing of the handle but its caches
      have hcore : ((q.transition coins').left C loser).core = loser.core := core_left _
      have hagree := hagrees _ hloser _ hwinner
      have hindex : ((q.transition coins').left C loser).core.myIndex = loser.myIndex := by
        rw [hcore]; rfl
      have hkey : ((q.transition coins').left C loser).core.HoldsKey C := by
        rw [hcore]
        exact hkeys loser hloser
      have hagree' : Agrees ((q.transition coins').left C loser).core winner := by
        rw [hcore]
        exact ⟨hagree.groupId, hagree.epochId, hagree.tree, hagree.keySchedule, hagree.interim⟩
      have haddressed' : ((q.transition coins').left C loser).core.AddressedBy C won.update := by
        rw [hcore]
        exact haddressed loser hloser hne hkeeps
      refine r.recovers hC hwire hsigns haddressed' hrefs ?_ ?_ ?_ hkey hverify
      · exact ⟨hagree'.groupId, hagree'.epochId, hagree'.tree, hagree'.keySchedule, hagree'.interim⟩
      · exact fun heq => hne (hindex.symm.trans heq)
      · exact hindex.symm ▸ hkeeps
    · exact r.recovers hC hwire hsigns (haddressed other hother hne' hkeeps') hrefs
        (hagrees _ hother _ hwinner) hne' hkeeps' (hkeys other hother) hverify
    · apply processUpdate_other_epoch
      rw [r'.update_epochId, (hagrees _ hloser _ hwinner).epochId, hepoch]
      omega

/-! ## A race of two members -/

namespace Sample

/-- A key package whose leaf says that it comes from an update. -/
def updatePackage (b : UInt8) : Py KeyPackage := do
  let leaf ← LeafNode.sign ⟨(kem b).publicBytes crypto, (sig b).publicBytes crypto,
    Credential.basic (ascii "joiner"), Capabilities.default, leafNodeSourceUpdate, none, none, [],
    []⟩
    ((sig b).sign crypto) [] 0
  let tbs ← KeyPackage.tbsBytes ⟨leaf, (kem b).publicBytes crypto, []⟩
  pure ⟨leaf, (kem b).publicBytes crypto, (sig b).sign crypto tbs⟩

/-- Alice updates her key while Bob adds the owner of such a key package. -/
structure Race where
  alice : MLSGroup
  bob : MLSGroup
  keyPackage : KeyPackage
  fromAlice : Committed
  fromBob : Committed

def race : Py Race := do
  let bobPackage ← Sample.keyPackage 20
  let package ← updatePackage 30
  let alice0 ← MLSGroup.create crypto (ascii "g") (sig 1) (kem 1) (kem 2)
  let (alice, welcome, update) ← (alice0.addMember crypto (coins 40) bobPackage).2
  let bob ← MLSGroup.join crypto welcome (sig 20) (kem 20) [] none
  let fromAlice ← Proposal.commit crypto alice (coins 80) .updateKey
  let fromBob ← Proposal.commit crypto bob (coins 60) (.addMember package)
  expect ([alice, bob].map identity = [(0, sig 1, true), (1, sig 20, true)])
  expect ((refs update.tree).Nodup ∧ (refs fromAlice.update.tree).Nodup ∧
    (refs fromBob.update.tree).Nodup)
  expectFault (((Proposal.updateKey.transition (coins 80)).left crypto alice).processUpdate crypto
    fromBob.update).2 .invalidSignature
  expect ((bob.state.tree.getLeaf 0).map LeafNode.signatureKey = some ((sig 1).publicBytes crypto))
  expect (fromAlice.update.tree.numLeaves = 2 ∧ fromAlice.update.tree.nodes.length = 3 ∧
    fromAlice.update.tree.getLeaf 1 = none ∧ fromAlice.update.tree.resolution (some 2) = .ok [2] ∧
    (fromAlice.update.tree.getNode 2).map Node.publicKey = some (bob.myKemKey.publicBytes crypto))
  expect ((fromAlice.update.tree.getLeaf 2).isSome ∧ fromAlice.update.tree.copath 0 = .ok [some 2] ∧
    fromAlice.update.tree.addressee 2 [some 2] = .ok (some 2))
  pure ⟨alice, bob, package, fromAlice, fromBob⟩

theorem race_ok : ∃ r, race = .ok r := Py.ok_of_isOk (by decide +kernel)

/-- Both commits come from one epoch; the update follows the other way round but nobody can follow
the addition. -/
structure Rivals (alice bob : MLSGroup) (package : KeyPackage) (fromAlice fromBob : Committed) :
    Prop where
  reached : ∀ a ∈ [alice, bob], Reached crypto a
  agrees : ∀ a ∈ [alice, bob], ∀ b ∈ [alice, bob], Agrees a b
  keys : ∀ a ∈ [alice, bob], a.HoldsKey crypto
  aliceIndex : alice.myIndex = 0
  bobIndex : bob.myIndex = 1
  update : Proposal.commit crypto alice (coins 80) .updateKey = .ok fromAlice
  add : Proposal.commit crypto bob (coins 60) (.addMember package) = .ok fromBob
  updateRefs : RefsCollisionFree crypto fromAlice.update.tree
  addRefs : RefsCollisionFree crypto fromBob.update.tree
  tellsApart : TellsKeysApart crypto alice (coins 80) .updateKey fromAlice bob
  leaf : (fromAlice.update.tree.getLeaf (2 * bob.myIndex)).isSome
  addressed : bob.AddressedBy crypto fromAlice.update
  refused : ¬ Recovers crypto ((Proposal.updateKey.transition (coins 80)).left crypto alice) fromBob

theorem Rivals.index_ne {alice bob : MLSGroup} {package : KeyPackage}
    {fromAlice fromBob : Committed}
    (h : Rivals alice bob package fromAlice fromBob) : bob.myIndex ≠ alice.myIndex := by
  rw [h.bobIndex, h.aliceIndex]
  decide

theorem racing :
    ∃ alice bob package fromAlice fromBob, Rivals alice bob package fromAlice fromBob := by
  obtain ⟨r, hrun⟩ := race_ok
  simp only [race, expectFault, expect, Py.bind_eq_ok, Py.pure_eq, Except.ok.injEq,
    Py.require_eq_ok] at hrun
  obtain ⟨bobPackage, hbob, package, -, alice0, hcreate, ⟨alice, welcome, update⟩, hadd, bob, hjoin,
    fromAlice, hfromAlice, fromBob, hfromBob, _, hids, _, ⟨hrefs, hrefsAlice, hrefsBob⟩, _, hfault,
    _, hsigKey, _, ⟨hleaves, hlength, hparent, hresolution, hkemKey⟩, _, ⟨hleaf, hcopath, hfirst⟩,
    -⟩ := hrun
  simp only [List.map_cons, List.map_nil, List.cons.injEq, and_true] at hids
  obtain ⟨haliceIndex, haliceSig, haliceKey⟩ := identity_eq hids.1
  obtain ⟨hbobIndex, -, hbobKey⟩ := identity_eq hids.2
  have hgroup : Run crypto (Round.Among crypto) [alice, bob] := by
    refine .round ⟨alice0, coins 40, .addMember bobPackage, ⟨alice, update, some welcome⟩, [],
      some ⟨sig 20, kem 20⟩⟩ (.create hcreate) ⟨List.mem_singleton_self _, ?_,
        refsCollisionFree hrefs, ?_⟩
      ?_ ?_
    · intro receiver hmem
      cases hmem
    · rintro kp joiner ⟨⟩ ⟨⟩
      have henters : Invited crypto [] bobPackage ⟨sig 20, kem 20⟩ :=
        enters hbob fun a ha => absurd ha (List.not_mem_nil)
      exact henters.initKey.trans henters.kemKey
    · simp only [Proposal.commit, hadd, Py.ok_bind]
      rfl
    · simp only [Round.deliver, Round.enter, hjoin, Py.map_ok, List.mapM_nil, Py.pure_eq,
        Py.ok_bind]
      rfl
  have halice : Reached crypto alice := by
    have hnext : Transition.run crypto alice0 (.addMember (coins 40) bobPackage) = .ok alice := by
      simp only [Transition.run, hadd, Py.map_ok]
    exact .next (.create hcreate)
      (show (Transition.addMember (coins 40) bobPackage).FromWire from trivial)
      hnext
  have hbob : Reached crypto bob := reached_of_join hjoin
  have hapart : TellsKeysApart crypto alice (coins 80) .updateKey fromAlice bob := by
    refine ⟨fun built => ?_, fun leaf tbs hleaf _ => ?_⟩
    · have hsized : fromAlice.update.tree.Sized 1 := ⟨hleaves, hlength⟩
      rw [built.update_tree] at hsized hparent hresolution hkemKey
      exact built.path.opensForRecipient_pair (l := 1) (built.path.sameSize.symm.sized hsized)
        (by decide) (fun hown => Nat.one_ne_zero (hown.trans haliceIndex)) hparent hresolution
          hkemKey
    · rw [haliceIndex] at hleaf
      rw [hleaf, Option.map_some, Option.some.injEq] at hsigKey
      rw [hsigKey, haliceSig]
  have haddressed : bob.AddressedBy crypto fromAlice.update := by
    obtain ⟨built⟩ := Proposal.commit_eq_ok hfromAlice
    intro cop index node hcop haddressee hnode
    rw [built.update_committerIndex, haliceIndex] at hcop
    rw [hbobIndex] at haddressee
    obtain rfl := Except.ok.inj (hcopath.symm.trans hcop)
    obtain rfl := Option.some.inj (Except.ok.inj (hfirst.symm.trans haddressee))
    rwa [hnode, Option.map_some, Option.some.injEq] at hkemKey
  refine ⟨alice, bob, package, fromAlice, fromBob, ?_,
    (hgroup.shared correct fun _ _ h => h).agrees, ?_, haliceIndex, hbobIndex, hfromAlice, hfromBob,
    refsCollisionFree hrefsAlice, refsCollisionFree hrefsBob, hapart, hbobIndex ▸ hleaf, haddressed,
    ?_⟩
  · intro a ha
    rcases List.mem_pair.mp ha with rfl | rfl
    · exact halice
    · exact hbob
  · intro a ha
    rcases List.mem_pair.mp ha with rfl | rfl
    · exact haliceKey
    · exact hbobKey
  · rintro ⟨next, hnext, -⟩
    rw [Py.fault?_eq_some.mp hfault] at hnext
    cases hnext

end Sample

/-- Alice's update wins against Bob's addition. -/
theorem race_recovery_bob : ∃ (alice bob : MLSGroup) (fromAlice fromBob : Committed)
    (package : KeyPackage), bob.myIndex ≠ alice.myIndex ∧
    Proposal.commit Sample.crypto alice (Sample.coins 80) .updateKey = .ok fromAlice ∧
    ((Recovers Sample.crypto ((Proposal.transition (Sample.coins 60) (.addMember package)).left
        Sample.crypto bob) fromAlice ∧
      (∀ other ∈ [alice, bob], other.myIndex ≠ alice.myIndex →
        Proposal.updateKey.Keeps other.myIndex → Recovers Sample.crypto other fromAlice) ∧
      ∀ handle : MLSGroup, handle.state.epochId = alice.state.epochId + 1 → ∀ next,
        (handle.processUpdate Sample.crypto fromBob.update).2 ≠ .ok next) ↔
      Followable Sample.crypto [alice, bob] alice .updateKey fromAlice) := by
  obtain ⟨alice, bob, package, fromAlice, fromBob, h⟩ := Sample.racing
  refine ⟨alice, bob, fromAlice, fromBob, package, h.index_ne, h.update, ?_⟩
  refine race_recovery_iff Sample.correct h.reached h.agrees h.keys (by simp) (by simp) h.index_ne
    h.update h.add trivial h.updateRefs fun other hother hne _ => ?_
  rcases List.mem_pair.mp hother with rfl | rfl
  · exact absurd rfl hne
  · exact h.tellsApart

/-- Bob's addition wins, but Alice cannot go back to her handle and follow it. -/
theorem race_not_recovered : ∃ (alice bob : MLSGroup) (package : KeyPackage)
    (fromAlice fromBob : Committed), (∀ a ∈ [alice, bob], Reached Sample.crypto a) ∧
    (∀ a ∈ [alice, bob], ∀ b ∈ [alice, bob], Agrees a b) ∧
    (∀ a ∈ [alice, bob], a.HoldsKey Sample.crypto) ∧ alice.myIndex ≠ bob.myIndex ∧
    Proposal.commit Sample.crypto alice (Sample.coins 80) .updateKey = .ok fromAlice ∧
    Proposal.commit Sample.crypto bob (Sample.coins 60) (.addMember package) = .ok fromBob ∧
    RefsCollisionFree Sample.crypto fromBob.update.tree ∧
    ¬ Recovers Sample.crypto
      ((Proposal.updateKey.transition (Sample.coins 80)).left Sample.crypto alice)
      fromBob := by
  obtain ⟨alice, bob, package, fromAlice, fromBob, h⟩ := Sample.racing
  exact ⟨alice, bob, package, fromAlice, fromBob, h.reached, h.agrees, h.keys, h.index_ne.symm,
    h.update, h.add, h.addRefs, h.refused⟩

end PureMls
