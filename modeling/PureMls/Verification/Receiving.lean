import PureMls.Verification.Delivery

/-! # What process_update looks at

Two receivers that agree, and two updates that carry the same commit, give the same
outcome; trees only count as far as the wire can tell. -/

namespace PureMls

open RatchetTree

variable {C : Crypto}

/-! ## The tree walks only see the canonical tree -/

namespace RatchetTree

variable {tree t : RatchetTree}

theorem directPath_canon (i : ℕ) : tree.canon.directPath i = tree.directPath i := by
  have hloop : ∀ fuel x, tree.canon.directPathLoop fuel x = tree.directPathLoop fuel x := by
    intro fuel
    induction fuel with
    | zero => exact fun _ => rfl
    | succ fuel ih =>
        intro x
        have hparent : tree.canon.parent x = tree.parent x := rfl
        have hroot : tree.canon.root = tree.root := rfl
        simp only [directPathLoop, hparent, hroot, length_canon, ih]
  have hroot : tree.canon.root = tree.root := rfl
  simp only [directPath, hroot, length_canon, hloop]

theorem copath_canon (i : ℕ) : tree.canon.copath i = tree.copath i := by
  have hloop : ∀ dpath x, tree.canon.copathLoop x dpath = tree.copathLoop x dpath := by
    intro dpath
    induction dpath with
    | nil => exact fun _ => rfl
    | cons p dpath ih =>
        intro x
        have hsibling : tree.canon.sibling x = tree.sibling x := rfl
        simp only [copathLoop, hsibling, length_canon, ih]
  simp only [copath, directPath_canon, hloop]

theorem resolution_canon (index : Option ℕ) :
    tree.canon.resolution index = tree.resolution index := by
  have hloop : ∀ fuel i, tree.canon.resolutionLoop fuel i = tree.resolutionLoop fuel i := by
    intro fuel
    induction fuel with
    | zero => exact fun _ => rfl
    | succ fuel ih =>
        intro i
        have hget : tree.canon.nodes[i]? = (tree.nodes[i]?).map (Option.map Node.canon) := by
          simp only [canon, List.getElem?_map]
        rw [resolutionLoop, resolutionLoop, hget]
        rcases tree.nodes[i]? with _ | _ | leaf | parent
        · rfl
        · simp only [Option.map_some, Option.map_none, ih, Option.isSome_none]
        · rfl
        · rfl
  cases index with
  | none => rfl
  | some i => exact hloop 33 i

end RatchetTree

namespace MLSGroup

variable {tree t : RatchetTree}

theorem verifyLeaves_canon (groupId : Bytes) (tree : RatchetTree) :
    verifyLeaves C groupId tree.canon = verifyLeaves C groupId tree := by
  unfold verifyLeaves
  rw [canon_numLeaves]
  congr 1
  funext li
  rw [getLeaf_canon]
  cases tree.getLeaf (2 * li) with
  | none => rfl
  | some leaf => exact leaf.verifySignature_canon C groupId li

theorem openFromPath_canon (self : MLSGroup) (tree : RatchetTree) (ctx : GroupContext) (total i : ℕ)
    (path : List (Option ℕ × UpdatePathNode)) :
    openFromPath C self tree.canon ctx total i path =
      openFromPath C self tree ctx total i path := by
  induction path generalizing i with
  | nil => rfl
  | cons entry path ih =>
      obtain ⟨cop, node⟩ := entry
      simp only [openFromPath, resolution_canon, ih]

end MLSGroup

theorem makeGroupContext_congr {tree t : RatchetTree} (h : tree.canon = t.canon) (groupId : Bytes)
    (epochId : ℕ) (cth : Bytes) :
    makeGroupContext C groupId epochId tree cth = makeGroupContext C groupId epochId t cth := by
  rw [makeGroupContext, makeGroupContext, treeHash_congr h]

/-! ## Updates that carry the same commit -/

/-- Equal in everything that a receiver looks at. -/
structure SameCommit (here there : GroupUpdate) : Prop where
  groupId : here.groupId = there.groupId
  epochId : here.epochId = there.epochId
  tree : here.tree.canon = there.tree.canon
  secrets : ∀ ref, here.encryptedCommitSecrets.get? ref = there.encryptedCommitSecrets.get? ref
  committerIndex : here.committerIndex = there.committerIndex
  path : here.updatePath.map UpdatePath.nodes = there.updatePath.map UpdatePath.nodes
  body : here.bodyBytes = there.bodyBytes
  signature : here.signature = there.signature
  confirmationTag : here.confirmationTag = there.confirmationTag
  membershipTag : here.membershipTag = there.membershipTag

theorem SameCommit.refl (update : GroupUpdate) : SameCommit update update :=
  ⟨rfl, rfl, rfl, fun _ => rfl, rfl, rfl, rfl, rfl, rfl, rfl⟩

/-- The same member with the same keys, in the same state as far as the wire can tell. -/
structure SameMember (here there : MLSGroup) : Prop where
  agrees : Agrees here there
  myIndex : here.myIndex = there.myIndex
  mySigKey : here.mySigKey = there.mySigKey
  myKemKey : here.myKemKey = there.myKemKey

theorem SameMember.refl (self : MLSGroup) : SameMember self self := ⟨.refl self, rfl, rfl, rfl⟩

/-- Both calls raise the same exception, or both return handles with the same dump. -/
def SameOutcome (here there : Py MLSGroup) : Prop :=
  match here, there with
  | .ok next, .ok next' => next.toBytes = next'.toBytes
  | .error e, .error e' => e = e'
  | _, _ => False

/-- The handle with the canonical form of its tree. -/
def MLSGroup.canonTree (self : MLSGroup) : MLSGroup :=
  { self with state := { self.state with tree := self.state.tree.canon } }

theorem MLSGroup.toBytes_canonTree (self : MLSGroup) : self.canonTree.toBytes = self.toBytes := by
  have hstate : self.canonTree.state.toBytes = self.state.toBytes := by
    simp only [canonTree, EpochState.toBytes, RatchetTree.toBytes_canon]
  simp only [toBytes, hstate]
  rfl

theorem SameOutcome.of_canonTree {here there : Py MLSGroup}
    (h : MLSGroup.canonTree <$> here = MLSGroup.canonTree <$> there) : SameOutcome here there := by
  cases here with
  | error e =>
      cases there with
      | error e' =>
          cases h
          rfl
      | ok next' => cases h
  | ok next =>
      cases there with
      | error e' => cases h
      | ok next' =>
          have hnext : next.canonTree = next'.canonTree := Except.ok.inj h
          change next.toBytes = next'.toBytes
          rw [← next.toBytes_canonTree, hnext, next'.toBytes_canonTree]

/-! ## Equal outcomes -/

namespace MLSGroup

variable {self self' : MLSGroup} {update update' : GroupUpdate}

theorem openCommitSecret_congr (hself : SameMember self' self)
    (hupdate : SameCommit update' update) :
    openCommitSecret C self' update' = openCommitSecret C self update := by
  have hctx : makeGroupContext C self'.state.groupId update'.epochId update'.tree
      self'.interimTranscriptHash = makeGroupContext C self.state.groupId update.epochId update.tree
      self.interimTranscriptHash := by
    rw [hself.agrees.groupId, hupdate.epochId, hself.agrees.interim]
    exact makeGroupContext_congr hupdate.tree _ _ _
  have hdirect : update'.tree.directPath (2 * update'.committerIndex) =
      update.tree.directPath (2 * update.committerIndex) := by
    rw [← directPath_canon, hupdate.tree, directPath_canon, hupdate.committerIndex]
  have hcop : update'.tree.copath (2 * update'.committerIndex) =
      update.tree.copath (2 * update.committerIndex) := by
    rw [← copath_canon, hupdate.tree, copath_canon, hupdate.committerIndex]
  have hpath : ∀ ctx total i path, openFromPath C self' update'.tree ctx total i path =
      openFromPath C self update.tree ctx total i path := by
    intro ctx total i path
    rw [← openFromPath_canon, hupdate.tree, openFromPath_canon]
    induction path generalizing i with
    | nil => rfl
    | cons entry path ih => simp only [openFromPath, hself.myIndex, hself.myKemKey, ih]
  have hfallback : ∀ ctx ref, openFallback C self' ctx update'.encryptedCommitSecrets ref =
      openFallback C self ctx update.encryptedCommitSecrets ref := by
    intro ctx ref
    simp only [openFallback, hupdate.secrets ref, hself.myKemKey]
  have hleaf := congrArg (fun tree => tree.getLeaf (2 * self.myIndex)) hself.agrees.tree
  simp only [getLeaf_canon] at hleaf
  unfold openCommitSecret
  rw [hself.myIndex]
  cases hown : self.state.tree.getLeaf (2 * self.myIndex) with
  | none =>
      rw [hown, Option.map_none, Option.map_eq_none_iff] at hleaf
      rw [hleaf]
      rfl
  | some leaf =>
      rw [hown, Option.map_some] at hleaf
      obtain ⟨leaf', hown', hcanon⟩ := Option.map_eq_some_iff.mp hleaf
      have href : makeKpRef C leaf'.keyPackage = makeKpRef C leaf.keyPackage := by
        rw [← makeKpRef_canon, hcanon, makeKpRef_canon]
      simp only [hown', hctx, href, Py.pure_eq, Py.ok_bind, hfallback]
      have hnodes := hupdate.path
      cases hu : update.updatePath with
      | none =>
          rw [hu, Option.map_none, Option.map_eq_none_iff] at hnodes
          rw [hnodes]
      | some path =>
          rw [hu, Option.map_some] at hnodes
          obtain ⟨path', hu', hsame⟩ := Option.map_eq_some_iff.mp hnodes
          simp only [hu', hsame, hdirect, hcop, hpath]

/-- Receivers that agree have the same outcome on updates that carry the same commit. -/
theorem processUpdateBody_congr (hself : SameMember self' self)
    (hupdate : SameCommit update' update) : canonTree <$> processUpdateBody C self' update' =
      canonTree <$> processUpdateBody C self update := by
  have hleaves : verifyLeaves C self.state.groupId update'.tree =
      verifyLeaves C self.state.groupId update.tree := by
    rw [← verifyLeaves_canon, hupdate.tree, verifyLeaves_canon]
  have hframed : self'.receivedContent update' = self.receivedContent update := by
    simp only [receivedContent, hupdate.body, hself.agrees.groupId, hself.agrees.epochId,
      hupdate.committerIndex]
  have hsignature : ∀ leaf leaf' framed, leaf'.signatureKey = leaf.signatureKey →
      checkSignature C self' update' leaf' framed = checkSignature C self update leaf framed := by
    intro leaf leaf' framed hkey
    simp only [checkSignature, hself.agrees.makeGroupContext, hkey, hupdate.signature]
  have hmembership : ∀ tbs, checkMembershipTag C self' update' tbs =
      checkMembershipTag C self update tbs := by
    intro tbs
    simp only [checkMembershipTag, hupdate.membershipTag, hself.agrees.keySchedule]
  have hconfirmation : ∀ tag,
    checkConfirmationTag update' tag = checkConfirmationTag update tag := by
    intro tag
    simp only [checkConfirmationTag, hupdate.confirmationTag]
  have hctx : ∀ cth, makeGroupContext C self.state.groupId update.epochId update'.tree cth =
      makeGroupContext C self.state.groupId update.epochId update.tree cth :=
    makeGroupContext_congr hupdate.tree _ _
  have hleaf := congrArg (fun tree => tree.getLeaf (2 * update.committerIndex)) hself.agrees.tree
  simp only [getLeaf_canon] at hleaf
  unfold processUpdateBody checkUpdate
  simp only [hupdate.groupId, hupdate.epochId, hself.agrees.groupId, hself.agrees.epochId,
    hupdate.committerIndex]
  rcases Py.require (update.groupId = self.state.groupId) _ with e | _
  · rfl
  rcases Py.require (update.epochId = self.state.epochId + 1) _ with e | _
  · rfl
  cases hown : self.state.tree.getLeaf (2 * update.committerIndex) with
  | none =>
      rw [hown, Option.map_none, Option.map_eq_none_iff] at hleaf
      rw [hleaf]
      rfl
  | some leaf =>
      rw [hown, Option.map_some] at hleaf
      obtain ⟨leaf', hown', hcanon⟩ := Option.map_eq_some_iff.mp hleaf
      have hkey : leaf'.canon.signatureKey = leaf.canon.signatureKey := congrArg _ hcanon
      simp only [hown', Py.pure_eq, Py.ok_bind, openCommitSecret_congr hself hupdate, hleaves,
        hframed, hsignature leaf leaf' _ hkey, hmembership, hconfirmation, hctx,
        hself.agrees.interim, hupdate.signature, hself.agrees.keySchedule, hself.agrees.groupId,
        hself.agrees.epochId, hself.myIndex, hself.mySigKey, hself.myKemKey,
        EpochState.advanceEpoch, map_bind, Py.bind_assoc, Py.ok_bind, Py.map_ok, canonTree, init,
        hupdate.tree]

theorem processUpdate_snd : (self.processUpdate C update).2 = processUpdateBody C self update := by
  unfold processUpdate
  cases processUpdateBody C self update <;> rfl

theorem processUpdate_congr (hself : SameMember self' self) (hupdate : SameCommit update' update) :
    SameOutcome (self'.processUpdate C update').2 (self.processUpdate C update).2 := by
  rw [processUpdate_snd, processUpdate_snd]
  exact .of_canonTree (processUpdateBody_congr hself hupdate)

end MLSGroup

end PureMls
