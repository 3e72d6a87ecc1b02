import PureMls.Foundation.Machine
import PureMls.Verification.Asynchrony
import PureMls.Verification.CanonicalTrees
import PureMls.Verification.Transcripts
import PureMls.Verification.Transport

/-! # Restarts

A member that restarts from its dump, as often as it likes, cannot be told from one that never does:
its commits, its Welcomes, its exceptions and its dumps are the same byte for byte. -/

namespace PureMls

open RatchetTree MLSGroup SideBySide

variable {C : Crypto}

/-! ## Key packages with one canonical form -/

namespace KeyPackage

theorem verifySignature_canon (keyPackage : KeyPackage) :
    keyPackage.canon.verifySignature C = keyPackage.verifySignature C := by
  have htbs : keyPackage.canon.tbsBytes = keyPackage.tbsBytes := by
    unfold tbsBytes canon
    rw [LeafNode.toBytes_canon]
  rw [verifySignature, htbs, canon, LeafNode.verifySignature_canon]
  rfl

theorem makeKpRef_canon (keyPackage : KeyPackage) :
    makeKpRef C keyPackage.canon = makeKpRef C keyPackage := by
  rw [makeKpRef, kpRefInput, toBytes_canon]
  rfl

/-- What is the same for a package and its canonical form is the same for both packages. -/
theorem congr_canon {α : Type} {keyPackage keyPackage' : KeyPackage} {f : KeyPackage → α}
    (h : keyPackage.canon = keyPackage'.canon)
    (hf : ∀ keyPackage, f (canon keyPackage) = f keyPackage) : f keyPackage = f keyPackage' := by
  rw [← hf keyPackage, h, hf keyPackage']

end KeyPackage

/-! ## Commits of handles that are the same member -/

/-- The update with the canonical form of its tree. -/
def GroupUpdate.canonTree (update : GroupUpdate) : GroupUpdate :=
  { update with tree := update.tree.canon }

theorem GroupUpdate.bodyBytes_canonTree (update : GroupUpdate) :
    update.canonTree.bodyBytes = update.bodyBytes := by
  unfold bodyBytes
  rw [canonTree, RatchetTree.toBytes_canon]
  rfl

theorem GroupUpdate.bodyBytes_congr {update other : GroupUpdate}
    (h : update.canonTree = other.canonTree) : update.bodyBytes = other.bodyBytes := by
  rw [← bodyBytes_canonTree, h, bodyBytes_canonTree]

theorem MLSMessage.send_canonTree (update : GroupUpdate) :
    send C update.canonTree = send C update := by
  have hbytes : update.canonTree.toBytes = update.toBytes := by
    rw [GroupUpdate.toBytes, GroupUpdate.bodyBytes_canonTree]
    rfl
  have hwrap : wrapCommit C update.canonTree = wrapCommit C update := by
    unfold wrapCommit PublicMessage.fromGroupUpdate
    rw [hbytes]
    rfl
  rw [send, hwrap, send]

namespace MLSGroup

/-- What a commit computes, with the canonical form of its tree. -/
def Commit.canonTree (commit : Commit) : Commit :=
  { commit with
    update := commit.update.canonTree
    nextState := { commit.nextState with tree := commit.nextState.tree.canon }
    newTree := commit.newTree.canon }

variable {here there : MLSGroup} {tree t : RatchetTree} {commit commit' : Commit}

/-- The same path, sealed for the same leaves, in trees that are alike. -/
theorem buildPath_alike (h : SameMember here there) (htree : tree.Alike t) (coins : CommitCoins)
    {sealLeaf : LeafSeal} (hseals : SealsCanon sealLeaf) {indices : RatchetTree → List ℕ}
    (hindices : ∀ t, indices (RatchetTree.canon t) = indices t) :
    Related (fun a b => a.1.Alike b.1 ∧ a.2 = b.2) (buildPath C here coins sealLeaf indices tree)
      (buildPath C there coins sealLeaf indices t) := by
  unfold buildPath
  simp only [h.myIndex, h.mySigKey, h.agrees.groupId, h.agrees.epochId, h.agrees.interim,
    htree.directPath, htree.copath]
  refine .bind_same fun direct => .bind_same fun cop => .bind_same fun secrets =>
    .bind_same fun kp => ?_
  refine (htree.setLeaf _ rfl).bind fun tree1 t1 halike => ?_
  refine .bind_same fun pubs => ?_
  refine (setPathParents_alike halike _).bind fun a b hab => ?_
  obtain ⟨tree2, hash⟩ := a
  obtain ⟨t2, hash'⟩ := b
  obtain ⟨halike2, -⟩ := hab
  dsimp only
  rw [makeGroupContext_congr halike2]
  refine .bind_same fun ctx => ?_
  rw [halike2.congr (f := fun t => sealPath C t ctx _ _ _) fun t => sealPath_canon t _ _ _ _]
  refine .bind_same fun nodes => ?_
  rw [halike2.congr hindices]
  rw [halike2.congr (f := fun t => sealFallback sealLeaf t ctx _ _ _ (indices t2))
    fun t => sealFallback_canon hseals t _ _ _ _ _]
  exact .bind_same fun fallback => .ok ⟨halike2, rfl⟩

theorem finishCommit_alike (h : SameMember here there) (htree : tree.Alike t) (path : UpdatePath)
    (fallback : Dict Bytes Bytes) (commitSecret : Bytes) :
    Related (fun a b => Commit.canonTree a = Commit.canonTree b)
      (finishCommit C here tree path fallback commitSecret)
      (finishCommit C there t path fallback commitSecret) := by
  have hbody : ∀ epoch index signature group, GroupUpdate.bodyBytes
      ⟨epoch, tree, fallback, index, signature, group, some path, none, none, none, none, none,
        none, none, none⟩ =
      GroupUpdate.bodyBytes
      ⟨epoch, t, fallback, index, signature, group, some path, none, none, none, none, none, none,
        none, none⟩ := by
    intro epoch index signature group
    exact GroupUpdate.bodyBytes_congr (by simp only [GroupUpdate.canonTree, htree])
  have hold := h.agrees.makeGroupContext (C := C)
  rw [h.agrees.groupId, h.agrees.epochId, h.agrees.interim] at hold
  unfold finishCommit
  simp only [h.myIndex, h.mySigKey, h.agrees.groupId, h.agrees.epochId, h.agrees.interim,
    h.agrees.keySchedule, hbody, hold, makeGroupContext_congr htree, EpochState.advanceEpoch,
    Py.bind_assoc, Py.pure_eq, Py.ok_bind]
  refine .bind_same fun body => .bind_same fun framed => .bind_same fun oldCtx =>
    .bind_same fun tbs => ?_
  refine .bind_same fun input => .bind_same fun newCtx => .bind_same fun ctxBytes => ?_
  refine .bind_same fun confKey => .bind_same fun ks => .ok ?_
  simp only [Commit.canonTree, GroupUpdate.canonTree, htree]

theorem buildCommit_alike (h : SameMember here there) (htree : tree.Alike t) (coins : CommitCoins)
    {sealLeaf : LeafSeal} (hseals : SealsCanon sealLeaf) {indices : RatchetTree → List ℕ}
    (hindices : ∀ t, indices (RatchetTree.canon t) = indices t) :
    Related (fun a b => Commit.canonTree a = Commit.canonTree b)
      (buildCommit C here coins sealLeaf indices tree)
        (buildCommit C there coins sealLeaf indices t) := by
  refine (buildPath_alike h htree coins hseals hindices).bind fun a b hab => ?_
  obtain ⟨tree', path, fallback, commitSecret⟩ := a
  obtain ⟨t', _⟩ := b
  obtain ⟨halike, rfl⟩ := hab
  exact finishCommit_alike h halike path fallback commitSecret

theorem buildWelcome_alike (h : SameMember here there)
    (hcommit : Commit.canonTree commit = Commit.canonTree commit') (coins : CommitCoins)
    {keyPackage keyPackage' : KeyPackage} (hpackage : keyPackage.canon = keyPackage'.canon) :
    buildWelcome C here coins keyPackage commit =
      buildWelcome C there coins keyPackage' commit' := by
  have hinit : keyPackage.initKeyPub = keyPackage'.initKeyPub := congrArg (·.initKeyPub) hpackage
  have href := KeyPackage.congr_canon hpackage (KeyPackage.makeKpRef_canon (C := C))
  have hks : commit.nextState.keySchedule = commit'.nextState.keySchedule :=
    congrArg (·.nextState.keySchedule) hcommit
  have hepoch : commit.nextState.epochId = commit'.nextState.epochId :=
    congrArg (·.nextState.epochId) hcommit
  have htranscript : commit.transcriptHash = commit'.transcriptHash :=
    congrArg (·.transcriptHash) hcommit
  have htree : commit.newTree.Alike commit'.newTree := congrArg (·.newTree) hcommit
  have hbytes : commit.newTree.toBytes = commit'.newTree.toBytes := htree.congr toBytes_canon
  simp only [buildWelcome, hks, hepoch, htranscript, hbytes, makeGroupContext_congr htree,
    h.agrees.groupId, h.myIndex, h.mySigKey, hinit, href]

/-! ## Handles that are twins -/

/-- The same member with the same key packages consumed: only the order of the latter and the secret
tree may differ. -/
structure Twins (here there : MLSGroup) : Prop where
  member : SameMember here there
  consumed : here.consumedKeyPackages.Perm there.consumedKeyPackages

namespace Twins

theorem toBytes_eq (h : Twins here there) : here.toBytes = there.toBytes := by
  refine toBytes_perm ?_ h.member.myIndex h.member.mySigKey h.member.myKemKey
    h.member.agrees.interim h.consumed
  have htree := RatchetTree.Alike.congr h.member.agrees.tree toBytes_canon
  simp only [EpochState.toBytes, htree, h.member.agrees.groupId, h.member.agrees.epochId,
    h.member.agrees.keySchedule]

theorem nextHandle (h : Twins here there)
    (hcommit : Commit.canonTree commit = Commit.canonTree commit')
    (kem : KemKey) : Twins (here.nextHandle commit kem) (there.nextHandle commit' kem) := by
  have hgroup : commit.nextState.groupId = commit'.nextState.groupId :=
    congrArg (·.nextState.groupId) hcommit
  have hepoch : commit.nextState.epochId = commit'.nextState.epochId :=
    congrArg (·.nextState.epochId) hcommit
  have htree : commit.nextState.tree.Alike commit'.nextState.tree :=
    congrArg (·.nextState.tree) hcommit
  have hks : commit.nextState.keySchedule = commit'.nextState.keySchedule :=
    congrArg (·.nextState.keySchedule) hcommit
  have hinterim : commit.newInterim = commit'.newInterim := congrArg (·.newInterim) hcommit
  exact ⟨⟨⟨hgroup, hepoch, htree, hks, hinterim⟩, h.member.myIndex, h.member.mySigKey, rfl⟩,
    h.consumed⟩

/-- What only a cache of either handle is changed by. -/
theorem touched (h : Twins here there) {here' there' : MLSGroup} (hcore : here'.core = here.core)
    (hcore' : there'.core = there.core)
    (hconsumed : here'.consumedKeyPackages.Perm there'.consumedKeyPackages) :
    Twins here' there' := by
  refine ⟨?_, hconsumed⟩
  have hhere := sameMember_of_core hcore
  have hthere := sameMember_of_core hcore'
  exact ⟨hhere.agrees.trans (h.member.agrees.trans hthere.agrees.symm),
    hhere.myIndex.trans (h.member.myIndex.trans hthere.myIndex.symm),
    hhere.mySigKey.trans (h.member.mySigKey.trans hthere.mySigKey.symm),
    hhere.myKemKey.trans (h.member.myKemKey.trans hthere.myKemKey.symm)⟩

end Twins

/-- Commits of twins: twins again, one Welcome and one update. -/
structure Counterparts (made made' : Committed) : Prop where
  next : Twins made.next made'.next
  welcome : made.welcome = made'.welcome
  update : made.update.canonTree = made'.update.canonTree

theorem addMemberBody_alike (h : Twins here there) (coins : CommitCoins)
    {keyPackage keyPackage' : KeyPackage} (hpackage : keyPackage.canon = keyPackage'.canon) :
    Related (fun a b => Counterparts ⟨a.1, a.2.2, some a.2.1⟩ ⟨b.1, b.2.2, some b.2.1⟩)
      (addMemberBody C here coins keyPackage) (addMemberBody C there coins keyPackage') := by
  unfold addMemberBody
  refine (placeLeaf_alike h.member.agrees.tree (congrArg (·.leafNode) hpackage)).bind fun tree t
    htree => ?_
  rw [KeyPackage.congr_canon hpackage (KeyPackage.verifySignature_canon (C := C))]
  refine .bind_same fun _ => ?_
  refine (buildCommit_alike h.member htree coins sealsCanon_sealFirst fun t => by
    rw [length_canon]).bind
    fun commit commit' hcommit => ?_
  rw [buildWelcome_alike h.member hcommit coins hpackage]
  exact .bind_same fun welcome => .ok ⟨h.nextHandle hcommit _, rfl, congrArg (·.update) hcommit⟩

theorem evenIndices_canon (t : RatchetTree) : evenIndices t.canon = evenIndices t := by
  rw [evenIndices, evenIndices, length_canon]

theorem removeMemberBody_alike (h : Twins here there) (coins : CommitCoins) (target : ℤ) :
    Related (fun a b => Counterparts ⟨a.1, a.2, none⟩ ⟨b.1, b.2, none⟩)
      (removeMemberBody C here coins target)
      (removeMemberBody C there coins target) := by
  have htree : here.state.tree.Alike there.state.tree := h.member.agrees.tree
  unfold removeMemberBody
  rw [h.member.myIndex, h.member.myKemKey, htree.numLeaves]
  refine .bind_same fun _ => .bind_same fun _ => (htree.removeLeaf _).bind fun tree t halike => ?_
  refine (buildCommit_alike h.member halike coins sealsCanon_refFirst evenIndices_canon).bind
    fun commit commit' hcommit => ?_
  exact .ok ⟨h.nextHandle hcommit _, rfl, congrArg (·.update) hcommit⟩

theorem updateKeyBody_alike (h : Twins here there) (coins : CommitCoins) :
    Related (fun a b => Counterparts ⟨a.1, a.2, none⟩ ⟨b.1, b.2, none⟩) (updateKeyBody C here coins)
      (updateKeyBody C there coins) := by
  have htree : here.state.tree.Alike there.state.tree := h.member.agrees.tree
  unfold updateKeyBody
  rw [htree.numLeaves]
  refine (htree.copyNodes rfl).bind fun tree t halike => ?_
  refine (buildCommit_alike h.member halike coins sealsCanon_refFirst evenIndices_canon).bind
    fun commit commit' hcommit => ?_
  exact .ok ⟨h.nextHandle hcommit _, rfl, congrArg (·.update) hcommit⟩

end MLSGroup

/-! ## The calls on twins -/

namespace MLSGroup

variable {self here there : MLSGroup} {coins : CommitCoins}

theorem addMember_snd (keyPackage : KeyPackage) : (self.addMember C coins keyPackage).2 = (do
    let ref ← makeKpRef C keyPackage
    Py.require (ref ∉ self.consumedKeyPackages)
      (.valueError "KeyPackage Replay: This KeyPackage has already been used in this instance.")
    addMemberBody C { self with consumedKeyPackages := self.consumedKeyPackages.insert ref } coins
      keyPackage) := by
  unfold addMember
  cases makeKpRef C keyPackage with
  | error e => rfl
  | ok ref =>
      by_cases hmem : ref ∈ self.consumedKeyPackages
      · simp only [Py.ok_bind, Py.require, hmem, not_true, if_true, if_false, Py.error_bind]
      · simp only [Py.ok_bind, Py.require, hmem, not_false_iff, if_true, if_false]
        cases addMemberBody C _ coins keyPackage <;> rfl

theorem removeMember_snd (target : ℤ) :
    (self.removeMember C coins target).2 = removeMemberBody C self coins target := by
  unfold removeMember
  cases removeMemberBody C self coins target <;> rfl

theorem updateKey_snd : (self.updateKey C coins).2 = updateKeyBody C self coins := by
  unfold updateKey
  cases updateKeyBody C self coins <;> rfl

end MLSGroup

namespace MLSGroup

variable {self : MLSGroup}

theorem consumed_encrypt (plaintext : Bytes) :
    (self.encryptApplicationMessage C plaintext).1.consumedKeyPackages =
    self.consumedKeyPackages := by
  unfold encryptApplicationMessage
  rcases self.getSecretTree.getKeyAndNonce C self.myIndex .application with ⟨st, _ | ⟨_, _, _⟩⟩ <;>
    rfl

theorem consumed_decrypt (payload : Bytes) :
    (self.decryptApplicationMessage C payload).1.consumedKeyPackages =
    self.consumedKeyPackages := by
  unfold decryptApplicationMessage
  rcases openHeader C self payload with _ | ⟨leaf, gen, ct, ad⟩
  · rfl
  · simp only
    rcases self.getSecretTree.getKeyAndNonceForGen C leaf gen .application with ⟨st, _ | ⟨_, _⟩⟩ <;>
      rfl

end MLSGroup

namespace Proposal

variable {here there : MLSGroup}

/-- Adding a key package to twins, with the lifetimes written out or not. -/
theorem addMember_alike (h : Twins here there) (coins : CommitCoins)
    {keyPackage keyPackage' : KeyPackage} (hpackage : keyPackage.canon = keyPackage'.canon) :
    Related MLSGroup.Counterparts ((addMember keyPackage).commit C here coins)
      ((addMember keyPackage').commit C there coins) := by
  rw [commit, commit, addMember_snd, addMember_snd,
    KeyPackage.congr_canon hpackage (KeyPackage.makeKpRef_canon (C := C))]
  refine Related.bind (.bind_same fun ref => ?_) fun a b hab => .ok hab
  have hnew : ref ∉ here.consumedKeyPackages ↔ ref ∉ there.consumedKeyPackages :=
    h.consumed.mem_iff.not
  have hnoted : Twins { here with consumedKeyPackages := here.consumedKeyPackages.insert ref }
      { there with consumedKeyPackages := there.consumedKeyPackages.insert ref } :=
    h.touched rfl rfl (h.consumed.insert ref)
  simp only [hnew]
  exact .bind_same fun _ => addMemberBody_alike hnoted coins hpackage

/-- The commits of twins, on the same coins, look the same and end in twins. -/
theorem commit_alike (h : Twins here there) (coins : CommitCoins) (p : Proposal) :
    Related MLSGroup.Counterparts (p.commit C here coins) (p.commit C there coins) := by
  cases p with
  | addMember keyPackage => exact addMember_alike h coins rfl
  | removeMember target =>
      rw [commit, commit, removeMember_snd, removeMember_snd]
      exact (removeMemberBody_alike h coins target).bind fun a b hab => .ok hab
  | updateKey =>
      rw [commit, commit, updateKey_snd, updateKey_snd]
      exact (updateKeyBody_alike h coins).bind fun a b hab => .ok hab

/-- The key packages that count as consumed after the call, however it ends. -/
def consumes (C : Crypto) : Proposal → List Bytes → List Bytes
  | addMember keyPackage, refs =>
    match makeKpRef C keyPackage with
    | .error _ => refs
    | .ok ref => refs.insert ref
  | _, refs => refs

theorem left_consumed (self : MLSGroup) (coins : CommitCoins) (p : Proposal) :
    ((p.transition coins).left C self).consumedKeyPackages =
    p.consumes C self.consumedKeyPackages := by
  cases p with
  | addMember keyPackage =>
      simp only [transition, Transition.left, consumes]
      unfold MLSGroup.addMember
      cases makeKpRef C keyPackage with
      | error e => rfl
      | ok ref =>
          by_cases hmem : ref ∈ self.consumedKeyPackages
          · simp only [if_pos hmem, List.insert_of_mem hmem]
          · simp only [if_neg hmem]
            cases addMemberBody C _ coins keyPackage <;> rfl
  | removeMember target =>
      simp only [transition, Transition.left, consumes]
      unfold MLSGroup.removeMember
      cases removeMemberBody C self coins target <;> rfl
  | updateKey =>
      simp only [transition, Transition.left, consumes]
      unfold MLSGroup.updateKey
      cases updateKeyBody C self coins <;> rfl

/-- What a call leaves behind depends on what it consumes. -/
theorem left_twins (h : Twins here there) (coins : CommitCoins) {p p' : Proposal}
    (hsame : p.consumes C = p'.consumes C) :
    Twins ((p.transition coins).left C here) ((p'.transition coins).left C there) := by
  refine h.touched (core_left _) (core_left _) ?_
  rw [left_consumed, left_consumed, ← hsame]
  cases p with
  | addMember keyPackage =>
      simp only [consumes]
      cases makeKpRef C keyPackage with
      | error e => exact h.consumed
      | ok ref => exact h.consumed.insert ref
  | removeMember target => exact h.consumed
  | updateKey => exact h.consumed

end Proposal

/-! ## A member as a machine -/

/-- What a member's process is asked to do. After a commit it goes on with the new handle, or drops
it. -/
inductive MemberCall where
  | commit (proposal : Proposal) (coins : CommitCoins) (adopt : Bool)
  | processUpdate (update : GroupUpdate)
  | encrypt (plaintext : Bytes)
  | decrypt (payload : Bytes)
  | toBytes

/-- What is seen of a call from outside. Application messages are left out: they are numbered by the
secret tree, and that is not in a dump. -/
inductive Seen where
  | committed (welcome : Option Welcome) (frame : Py Bytes)
  | processed
  | dumped (data : Bytes)
  | raised (fault : Fault)
  | application

namespace MemberCall

def run (C : Crypto) (self : MLSGroup) : MemberCall → MLSGroup × Seen
  | commit proposal coins adopt =>
    let left := (proposal.transition coins).left C self
    match proposal.commit C self coins with
    | .ok made =>
        (if adopt then made.next else left, .committed made.welcome (MLSMessage.send C made.update))
    | .error e => (left, .raised e)
  | processUpdate update =>
    match self.processUpdate C update with
    | (_, .ok next) => (next, .processed)
    | (left, .error e) => (left, .raised e)
  | encrypt plaintext => ((self.encryptApplicationMessage C plaintext).1, .application)
  | decrypt payload => ((self.decryptApplicationMessage C payload).1, .application)
  | toBytes =>
    match self.toBytes with
    | .ok data => (self, .dumped data)
    | .error e => (self, .raised e)

/-- The tree of a commit that is processed came off the wire. -/
def FromWire : MemberCall → Prop
  | processUpdate update => update.tree.OnWire
  | _ => True

end MemberCall

/-- The handle after a restart; where no dump can be made the process just goes on. -/
def MLSGroup.restarted (self : MLSGroup) : MLSGroup :=
  match self.toBytes >>= MLSGroup.fromBytes with
  | .ok next => next
  | .error _ => self

/-- A member that restarts before some of its calls. -/
def restartingRun (C : Crypto) (self : MLSGroup) (call : Bool × MemberCall) : MLSGroup × Seen :=
  call.2.run C (if call.1 then self.restarted else self)

/-! ## What every call keeps -/

/-- A handle of some run whose joiner secret has the size that a dump gives it. -/
structure Dumpable (C : Crypto) (member : MLSGroup) : Prop where
  reached : Reached C member
  joiner : member.state.keySchedule.joinerSecret.length = 32

theorem KeySchedule.derive_joiner (hC : C.Correct) {initSecret commitSecret ctx : Bytes}
    {pskList : List (PreSharedKeyID × Bytes)} {ks : KeySchedule}
    (h : KeySchedule.derive C initSecret commitSecret ctx pskList = .ok ks) :
    ks.joinerSecret.length = 32 :=
  KeySchedule.derive_secrets hC h _ List.mem_cons_self

namespace Dumpable

variable {self next : MLSGroup}

theorem touched (h : Dumpable C self) (hreached : Reached C next) (hcore : next.core = self.core) :
    Dumpable C next := by
  have hstate : next.state = self.state := congrArg (·.state) hcore
  exact ⟨hreached, by rw [hstate]; exact h.joiner⟩

theorem commit (hC : C.Correct) (h : Dumpable C self) {p : Proposal} {coins : CommitCoins}
    {made : Committed} (hmade : p.commit C self coins = .ok made) : Dumpable C made.next := by
  have hwire : (p.transition coins).FromWire := by cases p <;> trivial
  refine ⟨.next h.reached hwire (Proposal.run_transition hmade), ?_⟩
  obtain ⟨r⟩ := Proposal.commit_eq_ok hmade
  obtain ⟨ks, hks, hnext⟩ := Py.bind_eq_ok.mp r.finished.nextState_eq
  rw [r.next_state, ← Except.ok.inj hnext]
  exact KeySchedule.derive_joiner hC hks

theorem processed (hC : C.Correct) (h : Dumpable C self) {update : GroupUpdate}
    (hwire : update.tree.OnWire) (hnext : (self.processUpdate C update).2 = .ok next) :
    Dumpable C next := by
  have hrun : Transition.run C self (.processUpdate update) = .ok next := hnext
  have hcall : (Transition.processUpdate update).FromWire := hwire
  refine ⟨.next h.reached hcall hrun, ?_⟩
  rw [processUpdate_snd] at hnext
  obtain ⟨_, _, _, _, ks, -, -, -, -, -, -, hks, rfl⟩ := processUpdateBody_accepted hnext
  exact KeySchedule.derive_joiner hC hks

/-- Whatever a member is asked to do, it stays able to restart. -/
theorem run (hC : C.Correct) (h : Dumpable C self) {call : MemberCall} (hwire : call.FromWire) :
    Dumpable C (call.run C self).1 := by
  cases call with
  | commit p coins adopt =>
      have hleft : Dumpable C ((p.transition coins).left C self) :=
        h.touched (.kept _ h.reached) (core_left _)
      simp only [MemberCall.run]
      cases hmade : p.commit C self coins with
      | error e => exact hleft
      | ok made =>
          cases adopt with
          | false => exact hleft
          | true => exact h.commit hC hmade
  | processUpdate update =>
      simp only [MemberCall.run]
      rcases hresult : self.processUpdate C update with ⟨left, _ | next⟩
      · have hkept : Dumpable C ((Transition.processUpdate update).left C self) :=
          h.touched (.kept _ h.reached) (core_left _)
        rwa [Transition.left, hresult] at hkept
      · exact h.processed hC hwire (congrArg Prod.snd hresult)
  | encrypt plaintext => exact h.touched (.encrypt plaintext h.reached) (core_encrypt plaintext)
  | decrypt payload => exact h.touched (.decrypt payload h.reached) (core_decrypt payload)
  | toBytes =>
      simp only [MemberCall.run]
      cases self.toBytes with
      | error e => exact h
      | ok data => exact h

/-- A restart gives a twin. -/
theorem restarted (hC : C.Correct) (h : Dumpable C self) :
    Dumpable C self.restarted ∧ Twins self.restarted self := by
  have hrefl : Dumpable C self ∧ Twins self self := ⟨h, .refl self, .refl _⟩
  have hsecrets := secrets_of_joiner (h.reached.wellSized hC) h.joiner
  have hwire : self.state.tree.OnWire := h.reached.onWire (fun _ hc => hc) fun _ _ hc => hc
  unfold MLSGroup.restarted
  cases hdump : self.toBytes with
  | error e => exact hrefl
  | ok data =>
      obtain ⟨next, hload, hmem, heq⟩ := fromBytes_toBytes hdump hwire hsecrets
      have hmember : SameMember next self := .of_loaded heq
      simp only [Py.ok_bind, hload]
      have hrun : Transition.run C self .reload = .ok next := Py.bind_eq_ok.mpr ⟨data, hdump, hload⟩
      have hcall : Transition.reload.FromWire := trivial
      refine ⟨⟨.next h.reached hcall hrun, ?_⟩, hmember, ?_⟩
      · rw [hmember.agrees.keySchedule]
        exact h.joiner
      · exact (List.perm_ext_iff_of_nodup (fromBytes_nodup hload) (h.reached.consumedRefs hC).1).mpr
          hmem

end Dumpable

/-- Commits that look the same are not told apart from outside, adopted or not. -/
theorem MemberCall.commit_twins {here there : MLSGroup} {p p' : Proposal} {coins : CommitCoins}
    (hleft : Twins ((p.transition coins).left C here) ((p'.transition coins).left C there))
    (hmade : Related Counterparts (p.commit C here coins) (p'.commit C there coins))
    (adopt : Bool) :
    ((commit p coins adopt).run C here).2 = ((commit p' coins adopt).run C there).2 ∧
      Twins ((commit p coins adopt).run C here).1 ((commit p' coins adopt).run C there).1 := by
  simp only [MemberCall.run]
  revert hmade
  generalize p.commit C here coins = x
  generalize p'.commit C there coins = y
  rintro (_ | ⟨hnext, hwelcome, hupdate⟩)
  · exact ⟨rfl, hleft⟩
  · rename_i made made'
    have hframe : MLSMessage.send C made.update = MLSMessage.send C made'.update := by
      rw [← MLSMessage.send_canonTree, hupdate, MLSMessage.send_canonTree]
    refine ⟨by simp only [hwelcome, hframe], ?_⟩
    cases adopt with
    | false => exact hleft
    | true => exact hnext

/-- A call on twins looks the same from outside and leaves twins. -/
theorem MLSGroup.Twins.run {here there : MLSGroup} (h : Twins here there) (call : MemberCall) :
    (call.run C here).2 = (call.run C there).2 ∧ Twins (call.run C here).1
    (call.run C there).1 := by
  cases call with
  | commit p coins adopt =>
      exact MemberCall.commit_twins (Proposal.left_twins h coins rfl) (p.commit_alike h coins) adopt
  | processUpdate update =>
      have hnext := Related.of_map_eq (processUpdateBody_congr (C := C) h.member (.refl update))
      simp only [MemberCall.run]
      unfold MLSGroup.processUpdate
      revert hnext
      generalize processUpdateBody C here update = x
      generalize processUpdateBody C there update = y
      rintro (_ | hcanon)
      · exact ⟨rfl, h⟩
      · exact ⟨rfl, .of_canonTree hcanon, .of_eq (congrArg (·.consumedKeyPackages) hcanon)⟩
  | encrypt plaintext =>
      refine ⟨rfl, h.touched (core_encrypt plaintext) (core_encrypt plaintext) ?_⟩
      rw [MemberCall.run, MemberCall.run, consumed_encrypt, consumed_encrypt]
      exact h.consumed
  | decrypt payload =>
      refine ⟨rfl, h.touched (core_decrypt payload) (core_decrypt payload) ?_⟩
      rw [MemberCall.run, MemberCall.run, consumed_decrypt, consumed_decrypt]
      exact h.consumed
  | toBytes =>
      simp only [MemberCall.run, h.toBytes_eq]
      cases there.toBytes with
      | error e => exact ⟨rfl, h⟩
      | ok data => exact ⟨rfl, h⟩

theorem MLSGroup.Twins.trans {here there third : MLSGroup} (h : Twins here there)
    (h' : Twins there third) : Twins here third :=
  ⟨⟨h.member.agrees.trans h'.member.agrees, h.member.myIndex.trans h'.member.myIndex,
    h.member.mySigKey.trans h'.member.mySigKey, h.member.myKemKey.trans h'.member.myKemKey⟩,
    h.consumed.trans h'.consumed⟩

/-- Wherever a member restarts from its dump in a run of calls - commits with any coins, adopted or
dropped, commits of others, application messages, dumps - its frames, Welcomes, dumps and exceptions
are those of a member that never restarts. -/
theorem restarts_invisible (hC : C.Correct) {self : MLSGroup} (hreached : Reached C self)
    (hjoiner : self.state.keySchedule.joinerSecret.length = 32) {calls : List (Bool × MemberCall)}
    (hwire : ∀ call ∈ calls, call.2.FromWire) :
    Machine.outputs (restartingRun C) self calls =
      Machine.outputs (MemberCall.run C) self (calls.map Prod.snd) := by
  have hself : Dumpable C self := ⟨hreached, hjoiner⟩
  refine Machine.outputs_eq_map (R := fun here there => Dumpable C here ∧ Twins here there) ?_
    ⟨hself, .refl self, .refl _⟩ hwire
  rintro here there ⟨restart, call⟩ hcall ⟨hdumpable, htwins⟩
  have hstart : Dumpable C (if restart then here.restarted else here) ∧
      Twins (if restart then here.restarted else here) there := by
    cases restart with
    | false => exact ⟨hdumpable, htwins⟩
    | true => exact ⟨(hdumpable.restarted hC).1, (hdumpable.restarted hC).2.trans htwins⟩
  obtain ⟨hseen, hnext⟩ := hstart.2.run (C := C) call
  exact ⟨hseen, hstart.1.run hC hcall, hnext⟩

open Sample in
/-- Alice restarts before and after she updates her key. -/
theorem restarts_invisible_alice : ∃ alice : MLSGroup,
    Machine.outputs (restartingRun crypto) alice
      [(true, .commit .updateKey (coins 60) true), (true, .toBytes)] =
    Machine.outputs (MemberCall.run crypto) alice
      [.commit .updateKey (coins 60) true, .toBytes] := by
  obtain ⟨_, hrun⟩ := dumps_ok
  simp only [dumps, expect, Py.bind_eq_ok, Py.require_eq_ok] at hrun
  obtain ⟨kp, -, alice0, hcreate, alice, hadd, _, ⟨-, hjoiner, -, -⟩, -⟩ := hrun
  have hcall : Transition.FromWire (.addMember (coins 40) kp) := trivial
  have hreached : Reached crypto alice := .next (.create hcreate) hcall hadd
  refine ⟨alice, restarts_invisible correct hreached hjoiner fun call hmem => ?_⟩
  simp only [List.mem_cons, List.not_mem_nil, or_false] at hmem
  rcases hmem with rfl | rfl <;> trivial

end PureMls
