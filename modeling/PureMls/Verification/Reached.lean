import PureMls.Verification.Rounds

/-! # Handles that a run reaches

Runs whose joins and calls meet a condition, and what holds of the trees in them when
every tree that is handed in came off the wire. -/

namespace PureMls

open RatchetTree MLSGroup

variable {C : Crypto}

/-! ## Runs -/

/-- The arguments of `MLSGroup.join`. -/
structure JoinCall where
  welcome : Welcome
  sigKey : SignatureKey
  kemKey : KemKey
  pskList : List (PreSharedKeyID × Bytes)
  ratchetTree : Option RatchetTree

def JoinCall.run (C : Crypto) (call : JoinCall) : Py MLSGroup :=
  MLSGroup.join C call.welcome call.sigKey call.kemKey call.pskList call.ratchetTree

/-- The handles of runs in which every join meets one condition and every later call another. -/
inductive ReachedBy (C : Crypto) (Joins : JoinCall → Prop) (Calls : MLSGroup → Transition → Prop) :
    MLSGroup → Prop where
  | create {groupId sigKey kemKey initKey self} :
      MLSGroup.create C groupId sigKey kemKey initKey = .ok self → ReachedBy C Joins Calls self
  | join {call self} : Joins call → JoinCall.run C call = .ok self → ReachedBy C Joins Calls self
  | next {self next transition} : ReachedBy C Joins Calls self → Calls self transition →
      Transition.run C self transition = .ok next → ReachedBy C Joins Calls next
  | kept {self} (transition) : ReachedBy C Joins Calls self →
      ReachedBy C Joins Calls (Transition.left C self transition)
  | encrypt {self} (plaintext) : ReachedBy C Joins Calls self →
      ReachedBy C Joins Calls (self.encryptApplicationMessage C plaintext).1
  | decrypt {self} (payload) : ReachedBy C Joins Calls self →
      ReachedBy C Joins Calls (self.decryptApplicationMessage C payload).1

/-- The tree that is handed to a join beside the Welcome came off the wire. -/
def JoinCall.FromWire (call : JoinCall) : Prop := ∀ tree ∈ call.ratchetTree, tree.OnWire

/-- The tree of a commit that is processed came off the wire. -/
def Transition.FromWire : Transition → Prop
  | processUpdate update => update.tree.OnWire
  | _ => True

/-- A handle that some run reaches, whatever messages it is given. -/
abbrev Reached (C : Crypto) : MLSGroup → Prop :=
  ReachedBy C JoinCall.FromWire fun _ transition => transition.FromWire

/-- A join with nothing but a Welcome. -/
theorem reached_of_join {C : Crypto} {welcome : Welcome} {sigKey : SignatureKey} {kemKey : KemKey}
    {joined : MLSGroup} (h : MLSGroup.join C welcome sigKey kemKey [] none = .ok joined) :
    Reached C joined := by
  have hwire : JoinCall.FromWire ⟨welcome, sigKey, kemKey, [], none⟩ :=
    fun tree htree => by cases htree
  exact .join hwire h

/-! ## Dumps of an epoch state -/

/-- Where the fields of an epoch state stand in its dump. -/
theorem EpochState.toBytes_eq_ok {state : EpochState} {data : Bytes}
    (h : state.toBytes = .ok data) :
    ∃ treeBytes, state.tree.toBytes = .ok treeBytes ∧ state.groupId.length < 256 ^ 2 ∧
      state.epochId < 256 ^ 8 ∧ treeBytes.length < 256 ^ 4 ∧
      data = beBytes 2 state.groupId.length ++ (state.groupId ++ (beBytes 8 state.epochId ++
        (beBytes 4 treeBytes.length ++ (treeBytes ++ state.keySchedule.toBytes)))) := by
  simp only [toBytes, Py.bind_eq_ok, Py.pure_eq, Except.ok.injEq, toBytesBig_eq_ok] at h
  obtain ⟨treeBytes, htree, _, ⟨hgid, rfl⟩, _, ⟨hepoch, rfl⟩, _, ⟨hlen, rfl⟩, rfl⟩ := h
  exact ⟨treeBytes, htree, hgid, hepoch, hlen, by simp only [List.append_assoc]⟩

/-- Loading a dumped state reads back everything but the key schedule, which is cut out of the
352 bytes after the tree. -/
theorem EpochState.fromBytes_toBytes {state : EpochState} {data treeBytes : Bytes}
    (h : state.toBytes = .ok data) (htree : state.tree.toBytes = .ok treeBytes) :
    EpochState.fromBytes data = (do
      let tree ← RatchetTree.fromBytes treeBytes
      let keySchedule ← KeySchedule.fromBytes (state.keySchedule.toBytes.take 352)
      pure ⟨state.groupId, state.epochId, tree, keySchedule⟩) := by
  obtain ⟨_, htree', hgid, hepoch, hlen, hdata⟩ := toBytes_eq_ok h
  obtain rfl := Except.ok.inj (htree.symm.trans htree')
  set gidLen := beBytes 2 state.groupId.length with hgidLen
  set epoch := beBytes 8 state.epochId with hepochBytes
  set treeLen := beBytes 4 treeBytes.length with htreeLen
  set gid := state.groupId
  have h0 : slice data 0 2 = gidLen := by
    rw [hdata]
    exact slice_append_left _ _ (by simp [hgidLen])
  have h1 : slice data 2 (2 + gid.length) = gid := by
    rw [hdata]
    exact slice_mid (by simp [hgidLen]) rfl
  have h2 : slice data (2 + gid.length) (2 + gid.length + 8) = epoch := by
    rw [hdata, ← List.append_assoc]
    exact slice_mid (by simp [hgidLen]) (by simp [hepochBytes])
  have h3 : slice data (2 + gid.length + 8) (2 + gid.length + 8 + 4) = treeLen := by
    rw [hdata, ← List.append_assoc, ← List.append_assoc]
    exact slice_mid (by simp [hgidLen, hepochBytes]; omega) (by simp [htreeLen])
  have h4 : slice data (2 + gid.length + 8 + 4) (2 + gid.length + 8 + 4 + treeBytes.length) =
      treeBytes := by
    rw [hdata, ← List.append_assoc, ← List.append_assoc, ← List.append_assoc]
    exact slice_mid (by simp [hgidLen, hepochBytes, htreeLen]; omega) rfl
  have h5 : slice data (2 + gid.length + 8 + 4 + treeBytes.length)
      (2 + gid.length + 8 + 4 + treeBytes.length + 352) = state.keySchedule.toBytes.take 352 := by
    have hpre : (gidLen ++ (gid ++ (epoch ++ (treeLen ++ treeBytes)))).length =
        2 + gid.length + 8 + 4 + treeBytes.length := by
      simp [hgidLen, hepochBytes, htreeLen]
      omega
    have hcat : data = gidLen ++ (gid ++ (epoch ++ (treeLen ++ treeBytes))) ++
        state.keySchedule.toBytes := by
      rw [hdata]
      simp only [List.append_assoc]
    rw [slice, ← hpre, hcat, List.drop_left, Nat.add_sub_cancel_left]
  simp only [fromBytes, h0, hgidLen, beNat_beBytes hgid, h1, h2, hepochBytes, beNat_beBytes hepoch,
    h3, htreeLen, beNat_beBytes hlen, h4, h5]

/-! ## Invariants of runs -/

/-- The three ways in which a call makes a new handle. -/
theorem Transition.run_cases {self next : MLSGroup} {transition : Transition}
    (h : Transition.run C self transition = .ok next) :
    (∃ coins p committed, transition = Proposal.transition coins p ∧
        p.commit C self coins = .ok committed ∧ committed.next = next) ∨
      (∃ update, transition = .processUpdate update ∧ processUpdateBody C self update = .ok next) ∨
      transition = .reload := by
  cases transition with
  | addMember coins kp =>
      obtain ⟨⟨_, welcome, update⟩, hadd, rfl⟩ := Py.map_eq_ok.mp h
      exact .inl ⟨coins, .addMember kp, ⟨_, update, some welcome⟩, rfl,
        by simp [Proposal.commit, hadd], rfl⟩
  | removeMember coins target =>
      obtain ⟨⟨_, update⟩, hremove, rfl⟩ := Py.map_eq_ok.mp h
      exact .inl ⟨coins, .removeMember target, ⟨_, update, none⟩, rfl,
        by simp [Proposal.commit, hremove], rfl⟩
  | updateKey coins =>
      obtain ⟨⟨_, update⟩, hupdate, rfl⟩ := Py.map_eq_ok.mp h
      exact .inl ⟨coins, .updateKey, ⟨_, update, none⟩, rfl,
        by simp [Proposal.commit, hupdate], rfl⟩
  | processUpdate update => exact .inr (.inl ⟨update, rfl, processUpdate_eq_ok.mp h⟩)
  | reload => exact .inr (.inr rfl)

/-- What every way of making a handle establishes, and what does not depend on the caches, holds
of every handle of a run. -/
theorem ReachedBy.invariant {Joins : JoinCall → Prop} {Calls : MLSGroup → Transition → Prop}
    {P : MLSGroup → Prop} (hcore : ∀ a b, a.core = b.core → P a → P b)
    (hcreate : ∀ groupId sigKey kemKey initKey self,
      MLSGroup.create C groupId sigKey kemKey initKey = .ok self → P self)
    (hjoin : ∀ call self, Joins call → JoinCall.run C call = .ok self → P self)
    (hcommit : ∀ sender coins p committed, ReachedBy C Joins Calls sender → P sender →
      Calls sender (Proposal.transition coins p) → p.commit C sender coins = .ok committed →
      P committed.next)
    (hprocess : ∀ self next update, ReachedBy C Joins Calls self → P self →
      Calls self (.processUpdate update) → processUpdateBody C self update = .ok next → P next)
    (hreload : ∀ self next data, ReachedBy C Joins Calls self → P self → self.toBytes = .ok data →
      MLSGroup.fromBytes data = .ok next → P next)
    {self : MLSGroup} (h : ReachedBy C Joins Calls self) : P self := by
  induction h with
  | create hok => exact hcreate _ _ _ _ _ hok
  | join hjoins hok => exact hjoin _ _ hjoins hok
  | next hself hcalls hok ih =>
      rcases Transition.run_cases hok with ⟨coins, p, committed, rfl, hc, rfl⟩ | ⟨update, rfl,
        hp⟩ | rfl
      · exact hcommit _ _ _ _ hself ih hcalls hc
      · exact hprocess _ _ _ hself ih hcalls hp
      · obtain ⟨data, hdump, hload⟩ := Py.bind_eq_ok.mp hok
        exact hreload _ _ _ hself ih hdump hload
  | kept transition _ ih => exact hcore _ _ (core_left transition).symm ih
  | encrypt plaintext _ ih => exact hcore _ _ (core_encrypt plaintext).symm ih
  | decrypt payload _ ih => exact hcore _ _ (core_decrypt payload).symm ih

/-- What a handle that processed a commit is. -/
theorem MLSGroup.processUpdateBody_next {self next : MLSGroup} {update : GroupUpdate}
    (h : processUpdateBody C self update = .ok next) :
    ∃ commitSecret ctx ks transcriptHash confTag,
      KeySchedule.derive C self.state.keySchedule.initSecret commitSecret ctx [] = .ok ks ∧
      verifyLeaves C self.state.groupId update.tree = .ok () ∧
      (∃ body, update.bodyBytes = .ok body) ∧
      update.epochId = self.state.epochId + 1 ∧
      next = init ⟨self.state.groupId, self.state.epochId + 1, update.tree, ks⟩ self.myIndex
        self.mySigKey self.myKemKey (computeInterimTranscriptHash C transcriptHash confTag) := by
  simp only [processUpdateBody, receivedContent, checkUpdate, EpochState.advanceEpoch,
    Py.bind_eq_ok, Py.require_eq_ok, Py.pure_eq, Except.ok.injEq] at h
  obtain ⟨_, ⟨_, -, _, hepoch, -⟩, _, hverify, commitSecret, -, _, ⟨body, hbody, -⟩, _, -, _, -, _,
    -, _, -, _, -, ctx, -, _, -, _, -, _, ⟨ks, hks, rfl⟩, rfl⟩ := h
  exact ⟨commitSecret, ctx, ks, _, _, hks, hverify, ⟨body, hbody⟩, hepoch, rfl⟩

theorem MLSGroup.create_eq_ok {groupId : Bytes} {sigKey : SignatureKey} {kemKey initKey : KemKey}
    {self : MLSGroup} (h : MLSGroup.create C groupId sigKey kemKey initKey = .ok self) :
    ∃ kp tree ctx ks, ownKeyPackage C sigKey kemKey initKey = .ok kp ∧
      (RatchetTree.new 1).setLeaf 0 kp.leafNode = .ok tree ∧
      KeySchedule.derive C zeros32 zeros32 ctx [] = .ok ks ∧
      self = init ⟨groupId, 0, tree, ks⟩ 0 sigKey kemKey [] := by
  simp only [MLSGroup.create, EpochState.genesis, Py.bind_eq_ok, Py.pure_eq, Except.ok.injEq] at h
  obtain ⟨kp, hkp, tree, htree, _, -, ctx, -, _, ⟨ks, hks, rfl⟩, rfl⟩ := h
  exact ⟨kp, tree, ctx, ks, hkp, htree, hks, rfl⟩

theorem MLSGroup.fromBytes_state {self next : MLSGroup} {data : Bytes}
    (hdump : self.toBytes = .ok data) (hload : MLSGroup.fromBytes data = .ok next) :
    ∃ treeBytes tree ks, self.state.tree.toBytes = .ok treeBytes ∧
      RatchetTree.fromBytes treeBytes = .ok tree ∧
      KeySchedule.fromBytes (self.state.keySchedule.toBytes.take 352) = .ok ks ∧
      next.state = ⟨self.state.groupId, self.state.epochId, tree, ks⟩ := by
  obtain ⟨stateBytes, state, hstate, hfrom, heq, -⟩ := reload_eq_ok hdump hload
  obtain ⟨treeBytes, htree, -⟩ := EpochState.toBytes_eq_ok hstate
  rw [EpochState.fromBytes_toBytes hstate htree] at hfrom
  simp only [Py.bind_eq_ok, Py.pure_eq, Except.ok.injEq] at hfrom
  obtain ⟨tree, hread, ks, hks, rfl⟩ := hfrom
  exact ⟨treeBytes, tree, ks, htree, hread, hks, by rw [heq]; rfl⟩

/-- The tree a joiner adopts came off the wire. -/
theorem MLSGroup.discoverTree_onWire {info : GroupInfo} {ratchetTree : Option RatchetTree}
    {tree : RatchetTree} (hgiven : ∀ tree ∈ ratchetTree, tree.OnWire)
    (h : discoverTree info ratchetTree = .ok tree) : tree.OnWire := by
  have hfind : ∀ fuel offset found, findTree info.extensionsBytes fuel offset = .ok (some found) →
      found.OnWire := by
    intro fuel
    induction fuel with
    | zero =>
        intro offset found h
        rw [findTree] at h
        split_ifs at h
        cases h
    | succ fuel ih =>
        intro offset found h
        rw [findTree] at h
        split_ifs at h
        · obtain ⟨⟨extension, next⟩, -, h⟩ := Py.bind_eq_ok.mp h
          simp only at h
          split_ifs at h
          · obtain ⟨_, hread, heq⟩ := Py.map_eq_ok.mp h
            cases heq
            exact fromBytes_onWire hread
          · exact ih _ _ h
        · cases h
  cases ratchetTree with
  | some given =>
      simp only [discoverTree, Py.pure_eq, Py.ok_bind, Except.ok.injEq] at h
      exact h ▸ hgiven _ rfl
  | none =>
      simp only [discoverTree, Py.bind_eq_ok] at h
      obtain ⟨found, hfound, h⟩ := h
      cases found with
      | none => cases h
      | some found =>
          cases h
          exact hfind _ _ _ hfound

/-- The trees of a run are trees off the wire or built from them. -/
theorem ReachedBy.onWire {Joins : JoinCall → Prop} {Calls : MLSGroup → Transition → Prop}
    (hjoins : ∀ call, Joins call → call.FromWire)
    (hcalls : ∀ self transition, Calls self transition → transition.FromWire) {self : MLSGroup}
    (h : ReachedBy C Joins Calls self) : self.state.tree.OnWire := by
  refine h.invariant (P := fun self => self.state.tree.OnWire) ?_ ?_ ?_ ?_ ?_ ?_
  · intro a b hcore ha
    have htree := congrArg (·.state.tree) hcore
    exact htree ▸ ha
  · intro _ _ _ _ self hcreate
    obtain ⟨kp, tree, _, _, -, htree, -, rfl⟩ := create_eq_ok hcreate
    exact ((setLeaf_node htree).1.sized (sized_new 0)).onWire (by decide)
  · intro call self hjoin hok
    obtain ⟨o, tree, _, _, _, _, -, hdiscover, -, -, -, -, -, -, rfl⟩ := join_eq_ok hok
    exact discoverTree_onWire (hjoins call hjoin) hdiscover
  · intro sender coins p committed _ hsender _ hcommit
    obtain ⟨r⟩ := Proposal.commit_eq_ok hcommit
    rw [r.next_tree]
    exact r.onWire hsender
  · intro self next update _ _ hcall hprocess
    obtain ⟨_, _, _, _, _, -, -, -, -, rfl⟩ := processUpdateBody_next hprocess
    exact hcalls self _ hcall
  · intro self next data _ _ hdump hload
    obtain ⟨_, tree, _, -, hread, -, hstate⟩ := fromBytes_state hdump hload
    rw [hstate]
    exact fromBytes_onWire hread

/-! ## Small groups -/

namespace Sample

/-- Alice creates a group and adds Bob. -/
def firstAdd : Py (MLSGroup × KeyPackage × Committed) := do
  let bobPackage ← keyPackage 20
  let alice ← MLSGroup.create crypto (ascii "g") (sig 1) (kem 1) (kem 2)
  let added ← (Proposal.addMember bobPackage).commit crypto alice (coins 40)
  pure (alice, bobPackage, added)

theorem firstAdd_ok : ∃ r, firstAdd = .ok r := Py.ok_of_isOk (by decide +kernel)

/-- Alice's handle after she has added Bob and Carol. -/
def trio : Py MLSGroup := do
  let bobPackage ← keyPackage 20
  let carolPackage ← keyPackage 21
  let alice ← MLSGroup.create crypto (ascii "g") (sig 1) (kem 1) (kem 2)
  let added ← Transition.run crypto alice (.addMember (coins 40) bobPackage)
  Transition.run crypto added (.addMember (coins 60) carolPackage)

theorem trio_reached {alice : MLSGroup} (h : trio = .ok alice) : Reached crypto alice := by
  simp only [trio, Py.bind_eq_ok] at h
  obtain ⟨bobPackage, -, carolPackage, -, alice0, hcreate, added, hadd, htrio⟩ := h
  have hbob : Transition.FromWire (.addMember (coins 40) bobPackage) := trivial
  have hcarol : Transition.FromWire (.addMember (coins 60) carolPackage) := trivial
  exact .next (.next (.create hcreate) hbob hadd) hcarol htrio

end Sample

end PureMls
