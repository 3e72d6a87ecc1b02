import PureMls.Verification.Reached

/-! # Signatures of the leaves in adopted trees

Which ways of making a handle establish that every leaf of its tree carries a signature
for its place, and which only hand on what they are given. -/

namespace PureMls

open RatchetTree MLSGroup

variable {C : Crypto}

/-- Every leaf at an even index carries a valid signature for its group and place. -/
def LeavesAuthentic (C : Crypto) (groupId : Bytes) (tree : RatchetTree) : Prop :=
  ∀ l leaf, tree.getLeaf (2 * l) = some leaf → leaf.verifySignature C groupId l = .ok ()

/-- The tree the joiner is given, beside the Welcome or in it, has authentic leaves. -/
def JoinCall.Authentic (C : Crypto) (call : JoinCall) : Prop :=
  ∀ o tree, openWelcome C call.welcome call.kemKey call.pskList = .ok o →
    discoverTree o.info call.ratchetTree = .ok tree →
    LeavesAuthentic C o.info.groupContext.groupId tree

/-- A leaf that is added carries a signature for the slot it is given. -/
def Transition.Authentic (C : Crypto) (self : MLSGroup) : Transition → Prop
  | addMember _ keyPackage => keyPackage.leafNode.verifySignature C self.state.groupId
      ((placement self.state.tree).2 / 2) = .ok ()
  | _ => True

/-! ## The ways of making a handle -/

theorem LeavesAuthentic.canon {groupId : Bytes} {tree : RatchetTree}
    (h : LeavesAuthentic C groupId tree) : LeavesAuthentic C groupId tree.canon := by
  intro l leaf hleaf
  rw [getLeaf_canon] at hleaf
  obtain ⟨leaf', hleaf', rfl⟩ := Option.map_eq_some_iff.mp hleaf
  rw [LeafNode.verifySignature_canon]
  exact h l leaf' hleaf'

theorem create_authentic (hC : C.Correct) {groupId : Bytes} {sigKey : SignatureKey}
    {kemKey initKey : KemKey} {self : MLSGroup}
    (h : MLSGroup.create C groupId sigKey kemKey initKey = .ok self) :
    LeavesAuthentic C self.state.groupId self.state.tree := by
  obtain ⟨kp, tree, _, _, hkp, htree, -, rfl⟩ := create_eq_ok h
  intro l leaf hleaf
  change tree.getLeaf (2 * l) = some leaf at hleaf
  rw [getLeaf_eq_some, (setLeaf_node htree).2, getNode_new] at hleaf
  split_ifs at hleaf
  cases hleaf
  exact (ownKeyPackage_leaf hC hkp).2.2 _ _

theorem Built.next_authentic (hC : C.Correct) {sender : MLSGroup} {coins : CommitCoins}
    {p : Proposal} {committed : Committed} (r : Built C sender coins p committed)
    (hsender : LeavesAuthentic C sender.state.groupId sender.state.tree)
    (hadded : (Proposal.transition coins p).Authentic C sender) :
    LeavesAuthentic C committed.next.state.groupId committed.next.state.tree := by
  have hgroup : committed.next.state.groupId = sender.state.groupId := by
    rw [r.next_state, r.finished.nextState_eq_mk]
    rfl
  rw [hgroup, r.next_tree]
  intro l leaf hleaf
  rcases r.leaf_cases hleaf with ⟨-, rfl⟩ | hold | ⟨hslot, hnew⟩
  · exact (ownKeyPackage_leaf hC r.path.keyPackage_eq).2.2 _ _
  · exact hsender l leaf hold
  · cases p with
    | addMember kp =>
        rw [Proposal.slot, Option.some.injEq] at hslot
        rw [Proposal.leaf, Option.some.injEq] at hnew
        subst hslot hnew
        exact hadded
    | removeMember target => cases hnew
    | updateKey => cases hnew

theorem authentic_of_verified {groupId : Bytes} {tree : RatchetTree} (hwire : tree.OnWire)
    (h : verifyLeaves C groupId tree = .ok ()) : LeavesAuthentic C groupId tree := by
  intro l leaf hleaf
  have hlt := getNode_lt (getLeaf_eq_some.mp hleaf)
  have hle := hwire.length_le
  exact verifyLeaves_eq_ok.mp h l (by omega) leaf hleaf

/-- A commit is only processed when the leaves of its tree verify. -/
theorem processed_authentic {self next : MLSGroup} {update : GroupUpdate}
    (h : processUpdateBody C self update = .ok next) (hwire : update.tree.OnWire) :
    LeavesAuthentic C next.state.groupId next.state.tree := by
  obtain ⟨_, _, _, _, _, -, hverify, -, -, rfl⟩ := processUpdateBody_next h
  exact authentic_of_verified hwire hverify

/-- A joiner adopts the tree as it is given: nothing looks at the signatures of its leaves. -/
theorem join_authentic_iff {call : JoinCall} {self : MLSGroup}
    (h : call.run C = .ok self) :
    LeavesAuthentic C self.state.groupId self.state.tree ↔ call.Authentic C := by
  obtain ⟨o, tree, _, _, _, _, ho, htree, -, -, -, -, -, -, rfl⟩ := join_eq_ok h
  constructor
  · intro hleaves o' tree' ho' htree'
    obtain rfl := Except.ok.inj (ho.symm.trans ho')
    obtain rfl := Except.ok.inj (htree.symm.trans htree')
    exact hleaves
  · intro hcall
    exact hcall o tree ho htree

theorem reload_authentic {self next : MLSGroup} {data : Bytes} (hwire : self.state.tree.OnWire)
    (hself : LeavesAuthentic C self.state.groupId self.state.tree) (hdump : self.toBytes = .ok data)
    (hload : MLSGroup.fromBytes data = .ok next) :
    LeavesAuthentic C next.state.groupId next.state.tree := by
  obtain ⟨treeBytes, tree, ks, htree, hread, -, hstate⟩ := fromBytes_state hdump hload
  obtain rfl := Except.ok.inj ((hwire.fromBytes_toBytes htree).symm.trans hread)
  rw [hstate]
  exact hself.canon

/-! ## Runs -/

/-- In every run in which the trees handed to joiners have authentic leaves and every added leaf
verifies at its slot, every leaf of every handle's tree verifies at its place. -/
theorem adopted_leaves_authentic (hC : C.Correct) {self : MLSGroup}
    (h : ReachedBy C (fun call => call.FromWire ∧ call.Authentic C)
      (fun self transition => transition.FromWire ∧ transition.Authentic C self) self) :
    LeavesAuthentic C self.state.groupId self.state.tree := by
  refine h.invariant (P := fun self => LeavesAuthentic C self.state.groupId self.state.tree)
    ?_ ?_ ?_ ?_ ?_ ?_
  · intro a b hcore ha
    have hstate : a.state = b.state := congrArg (·.state) hcore
    rwa [← hstate]
  · intro groupId sigKey kemKey initKey self hcreate
    exact create_authentic hC hcreate
  · intro call self hcall hok
    exact (join_authentic_iff hok).mpr hcall.2
  · intro sender coins p committed _ hsender hcall hcommit
    obtain ⟨r⟩ := Proposal.commit_eq_ok hcommit
    exact r.next_authentic hC hsender hcall.2
  · intro self next update _ _ hcall hprocess
    exact processed_authentic hprocess hcall.1
  · intro self next data hreached hself hdump hload
    have hwire := hreached.onWire (fun _ hcall => hcall.1) (fun _ _ hcall => hcall.1)
    exact reload_authentic hwire hself hdump hload

namespace Sample

/-- Alice adds Bob, who joins and adds Carol; Alice follows, and Carol joins a tree with four leaf
slots. -/
structure Additions where
  alice : MLSGroup
  bob : MLSGroup
  carol : MLSGroup
  added : MLSGroup
  followed : MLSGroup

def additions : Py Additions := do
  let bobPackage ← keyPackage 20
  let carolPackage ← keyPackage 21
  let alice0 ← MLSGroup.create crypto (ascii "g") (sig 1) (kem 1) (kem 2)
  let (alice, bobWelcome, _) ← (alice0.addMember crypto (coins 40) bobPackage).2
  bobPackage.leafNode.verifySignature crypto alice0.state.groupId
    ((placement alice0.state.tree).2 / 2)
  let bob ← MLSGroup.join crypto bobWelcome (sig 20) (kem 20) [] none
  expect (bob.state.tree.numLeaves = 2 ∧ bob.state.tree.nodes.length = 3)
  verifyLeaves crypto bob.state.groupId bob.state.tree
  let (added, carolWelcome, update) ← (bob.addMember crypto (coins 60) carolPackage).2
  carolPackage.leafNode.verifySignature crypto bob.state.groupId ((placement bob.state.tree).2 / 2)
  expect (update.tree.numLeaves = 4 ∧ update.tree.nodes.length = 7)
  let followed ← (alice.processUpdate crypto update).2
  let carol ← MLSGroup.join crypto carolWelcome (sig 21) (kem 21) [] none
  expect (carol.state.tree.numLeaves = 4 ∧ carol.state.tree.nodes.length = 7)
  verifyLeaves crypto carol.state.groupId carol.state.tree
  pure ⟨alice, bob, carol, added, followed⟩

theorem additions_ok : ∃ r, additions = .ok r := Py.ok_of_isOk (by decide +kernel)

/-- A handle that Bob joins by a Welcome whose tree is his own with an empty signature in its only
leaf. -/
def forgedJoin : Py MLSGroup := do
  let bob ← MLSGroup.create crypto (ascii "g") (sig 20) (kem 20) (kem 2)
  let forged := { bob.state.tree with
    nodes := bob.state.tree.nodes.map (Option.map fun node => match node with
      | .leaf leaf => .leaf { leaf with signature := [] }
      | node => node) }
  let welcome ← welcomeTo forged []
  let call : JoinCall := ⟨welcome, sig 20, kem 20, [], none⟩
  let joined ← call.run crypto
  expect ((joined.state.tree.getLeaf 0).map (fun leaf =>
    (leaf.verifySignature crypto joined.state.groupId 0).fault?) =
      some (some (.valueError "LeafNode has no signature")))
  pure joined

theorem forgedJoin_ok : ∃ r, forgedJoin = .ok r := Py.ok_of_isOk (by decide +kernel)

end Sample

open Sample in
/-- In a run with an add, a join into a tree of four slots and a commit that is followed, every tree
has authentic leaves. -/
theorem adopted_leaves_authentic_additions :
    ∃ r, additions = .ok r ∧ LeavesAuthentic crypto r.added.state.groupId r.added.state.tree ∧
      LeavesAuthentic crypto r.followed.state.groupId r.followed.state.tree ∧
      LeavesAuthentic crypto r.carol.state.groupId r.carol.state.tree := by
  obtain ⟨r, hrun⟩ := additions_ok
  refine ⟨r, hrun, ?_⟩
  simp only [additions, expect, Py.bind_eq_ok, Py.require_eq_ok, Py.pure_eq,
    Except.ok.injEq] at hrun
  obtain ⟨bobPackage, -, carolPackage, -, alice0, hcreate, ⟨alice, bobWelcome, _⟩, hadd, _,
    hbobLeaf, bob, hbob, _, hbobSize, _, hbobTree, ⟨added, carolWelcome, update⟩, haddCarol, _,
    hcarolLeaf, _, hsize, followed, hfollow, carol, hcarol, _, hcarolSize, _, hcarolTree,
    rfl⟩ := hrun
  have hjoin : ∀ {call : JoinCall} {joined : MLSGroup} {m : ℕ}, call.run crypto = .ok joined →
      call.ratchetTree = none → joined.state.tree.Sized m → m ≤ 29 →
      verifyLeaves crypto joined.state.groupId joined.state.tree = .ok () →
      call.FromWire ∧ call.Authentic crypto := by
    intro call joined m hjoined hnone hsized hm hverify
    refine ⟨fun tree htree => ?_, (join_authentic_iff hjoined).mp
      (authentic_of_verified (hsized.onWire hm) hverify)⟩
    rw [hnone] at htree
    cases htree
  have hbobCall : JoinCall.run crypto ⟨bobWelcome, sig 20, kem 20, [], none⟩ = .ok bob := hbob
  have hcarolCall : JoinCall.run crypto ⟨carolWelcome, sig 21, kem 21, [], none⟩ = .ok carol :=
    hcarol
  have hfirst : Transition.run crypto alice0 (.addMember (coins 40) bobPackage) = .ok alice :=
    Py.map_eq_ok.mpr ⟨_, hadd, rfl⟩
  have hsecond : Transition.run crypto bob (.addMember (coins 60) carolPackage) = .ok added :=
    Py.map_eq_ok.mpr ⟨_, haddCarol, rfl⟩
  have hthird : Transition.run crypto alice (.processUpdate update) = .ok followed := hfollow
  have hwire : update.tree.OnWire := Sized.onWire (m := 2) hsize (by decide)
  have hjoined := hjoin hbobCall rfl (m := 1) hbobSize (by decide) hbobTree
  have hentered := hjoin hcarolCall rfl (m := 2) hcarolSize (by decide) hcarolTree
  refine ⟨adopted_leaves_authentic correct (.next (.join hjoined hbobCall) ?_ hsecond),
    adopted_leaves_authentic correct (.next (.next (.create hcreate) ?_ hfirst) ?_ hthird),
    adopted_leaves_authentic correct (.join hentered hcarolCall)⟩
  · exact ⟨trivial, hcarolLeaf⟩
  · exact ⟨trivial, hbobLeaf⟩
  · exact ⟨hwire, trivial⟩

open Sample in
/-- `join` adopts a tree with a leaf that nobody signed. -/
theorem joined_leaf_unsigned :
    ¬ ∀ self, Reached crypto self → LeavesAuthentic crypto self.state.groupId self.state.tree := by
  intro hall
  obtain ⟨r, h⟩ := forgedJoin_ok
  simp only [forgedJoin, expect, Py.bind_eq_ok, Py.require_eq_ok] at h
  obtain ⟨_, -, welcome, -, joined, hjoin, _, hfault, -⟩ := h
  have hreached : Reached crypto joined := .join (by intro tree htree; cases htree) hjoin
  obtain ⟨leaf, hleaf, hfault⟩ := Option.map_eq_some_iff.mp hfault
  have hverify := hall joined hreached 0 leaf hleaf
  rw [Py.fault?_eq_some.mp hfault] at hverify
  cases hverify

end PureMls
