import PureMls.Model.Receive
import PureMls.Verification.RoundTrip

/-! # Handles and the calls that replace them

Inversion rules for the calls that return a new handle, and chains of handles of one
member. -/

namespace PureMls

namespace MLSGroup

variable {C : Crypto} {self next : MLSGroup} {coins : CommitCoins}

/-! ## What a successful call went through -/

theorem addMember_eq_ok {kp : KeyPackage} {welcome : Welcome} {update : GroupUpdate} :
    (addMember C self coins kp).2 = .ok (next, welcome, update) ↔
      ∃ ref, makeKpRef C kp = .ok ref ∧ ref ∉ self.consumedKeyPackages ∧
        addMemberBody C { self with consumedKeyPackages := self.consumedKeyPackages.insert ref }
          coins kp = .ok (next, welcome, update) := by
  unfold addMember
  cases hkp : makeKpRef C kp with
  | error e => simp
  | ok ref =>
      by_cases hmem : ref ∈ self.consumedKeyPackages
      · simp [hmem]
      · simp only [if_neg hmem]
        cases hbody : addMemberBody C
          { self with consumedKeyPackages := self.consumedKeyPackages.insert ref } coins kp with
        | error e =>
            refine ⟨fun h => by simp at h, ?_⟩
            rintro ⟨_, href, -, h⟩
            cases href
            simp [hbody] at h
        | ok result =>
            refine ⟨fun h => ⟨ref, rfl, hmem, hbody.trans h⟩, ?_⟩
            rintro ⟨_, href, -, h⟩
            cases href
            exact hbody.symm.trans h

theorem removeMember_eq_ok {target : ℤ} {update : GroupUpdate} :
    (removeMember C self coins target).2 = .ok (next, update) ↔
      removeMemberBody C self coins target = .ok (next, update) := by
  unfold removeMember
  cases removeMemberBody C self coins target <;> simp

theorem updateKey_eq_ok {update : GroupUpdate} :
    (updateKey C self coins).2 = .ok (next, update) ↔
      updateKeyBody C self coins = .ok (next, update) := by
  unfold updateKey
  cases updateKeyBody C self coins <;> simp

theorem processUpdate_eq_ok {update : GroupUpdate} :
    (processUpdate C self update).2 = .ok next ↔ processUpdateBody C self update = .ok next := by
  unfold processUpdate
  cases processUpdateBody C self update <;> simp

theorem addMemberBody_eq_ok {kp : KeyPackage} {welcome : Welcome} {update : GroupUpdate} :
    addMemberBody C self coins kp = .ok (next, welcome, update) ↔
      ∃ newTree commit, placeLeaf self.state.tree kp.leafNode = .ok newTree ∧
        kp.verifySignature C = .ok () ∧
        buildCommit C self coins (sealLeafSealFirst C)
          (fun tree => List.range tree.nodes.length) newTree = .ok commit ∧
        buildWelcome C self coins kp commit = .ok welcome ∧
        self.nextHandle commit coins.committerKem = next ∧ commit.update = update := by
  simp only [addMemberBody, Py.bind_eq_ok, Py.pure_eq, Except.ok.injEq, Prod.mk.injEq]
  constructor
  · rintro ⟨newTree, hplace, _, hverify, commit, hcommit, _, hwelcome, hnext, rfl, hupdate⟩
    exact ⟨newTree, commit, hplace, hverify, hcommit, hwelcome, hnext, hupdate⟩
  · rintro ⟨newTree, commit, hplace, hverify, hcommit, hwelcome, hnext, hupdate⟩
    exact ⟨newTree, hplace, (), hverify, commit, hcommit, welcome, hwelcome, hnext, rfl, hupdate⟩

theorem removeMemberBody_eq_ok {target : ℤ} {update : GroupUpdate} :
    removeMemberBody C self coins target = .ok (next, update) ↔
      ∃ newTree commit, target ≠ self.myIndex ∧
        (0 ≤ target ∧ target < self.state.tree.numLeaves) ∧
        self.state.tree.removeLeaf (2 * target.toNat) = .ok newTree ∧
        buildCommit C self coins (sealLeafRefFirst C) evenIndices newTree = .ok commit ∧
        self.nextHandle commit self.myKemKey = next ∧ commit.update = update := by
  simp only [removeMemberBody, Py.bind_eq_ok, Py.pure_eq, Except.ok.injEq, Prod.mk.injEq,
    Py.require_eq_ok]
  constructor
  · rintro ⟨_, hself, _, hrange, newTree, hremove, commit, hcommit, hnext, hupdate⟩
    exact ⟨newTree, commit, hself, hrange, hremove, hcommit, hnext, hupdate⟩
  · rintro ⟨newTree, commit, hself, hrange, hremove, hcommit, hnext, hupdate⟩
    exact ⟨(), hself, (), hrange, newTree, hremove, commit, hcommit, hnext, hupdate⟩

theorem updateKeyBody_eq_ok {update : GroupUpdate} :
    updateKeyBody C self coins = .ok (next, update) ↔
      ∃ newTree commit,
        self.state.tree.copyNodes (RatchetTree.new self.state.tree.numLeaves) = .ok newTree ∧
        buildCommit C self coins (sealLeafRefFirst C) evenIndices newTree = .ok commit ∧
        self.nextHandle commit coins.committerKem = next ∧ commit.update = update := by
  simp only [updateKeyBody, Py.bind_eq_ok, Py.pure_eq, Except.ok.injEq, Prod.mk.injEq]
  constructor
  · rintro ⟨newTree, hcopy, commit, hcommit, hnext, hupdate⟩
    exact ⟨newTree, commit, hcopy, hcommit, hnext, hupdate⟩
  · rintro ⟨newTree, commit, hcopy, hcommit, hnext, hupdate⟩
    exact ⟨newTree, hcopy, commit, hcommit, hnext, hupdate⟩

/-! ## Dumping and loading a handle -/

/-- The private keys in a dump are 32 bytes each, so loading cuts it where dumping joined it. -/
theorem toBytes_eq_ok {data : Bytes} (h : self.toBytes = .ok data) :
    ∃ stateBytes consumed consumedBytes,
      self.state.toBytes = .ok stateBytes ∧
      joinBytes tlsOpaque (sortedBy (· ≤ ·) self.consumedKeyPackages) = .ok consumed ∧
      tlsOpaque32 consumed = .ok consumedBytes ∧
      self.myIndex < 256 ^ 4 ∧ stateBytes.length < 256 ^ 4 ∧
      self.interimTranscriptHash.length < 256 ^ 2 ∧
      data = beBytes 4 self.myIndex ++ (self.mySigKey.privateBytes ++
        (self.myKemKey.privateBytes ++ (beBytes 4 stateBytes.length ++ (stateBytes ++
        (beBytes 2 self.interimTranscriptHash.length ++
        (self.interimTranscriptHash ++ consumedBytes)))))) := by
  simp only [toBytes, Py.bind_eq_ok, Py.pure_eq, Except.ok.injEq, toBytesBig_eq_ok] at h
  obtain ⟨stateBytes, hstate, consumed, hconsumed, _, ⟨hindex, rfl⟩, _, ⟨hlen, rfl⟩, _,
    ⟨hinterim, rfl⟩, consumedBytes, hbytes, rfl⟩ := h
  refine ⟨stateBytes, consumed, consumedBytes, hstate, hconsumed, hbytes, hindex, hlen,
    hinterim, ?_⟩
  simp only [List.append_assoc]

theorem sigKey_fromPrivateBytes (key : SignatureKey) :
    SignatureKey.fromPrivateBytes key.privateBytes = .ok key := by
  simp [SignatureKey.fromPrivateBytes, key.size]

theorem kemKey_fromPrivateBytes (key : KemKey) :
    KemKey.fromPrivateBytes key.privateBytes = .ok key := by
  simp [KemKey.fromPrivateBytes, key.size]

private theorem mem_foldl_insert {ref : Bytes} {refs start : List Bytes} :
    ref ∈ refs.foldl (fun s r => s.insert r) start ↔ ref ∈ refs ∨ ref ∈ start := by
  induction refs generalizing start with
  | nil => simp
  | cons r refs ih =>
      rw [List.foldl_cons, ih, List.mem_insert_iff, List.mem_cons]
      tauto

theorem readConsumed_at (pre : Bytes) {consumed consumedBytes : Bytes}
    {refs : List Bytes}
    (hconsumed : joinBytes tlsOpaque refs = .ok consumed)
    (hbytes : tlsOpaque32 consumed = .ok consumedBytes) :
    ∃ found, readConsumed (pre ++ consumedBytes) pre.length = .ok found ∧
      ∀ ref, ref ∈ found ↔ ref ∈ refs := by
  have hlt : pre.length < (pre ++ consumedBytes).length := by
    have hpos := List.length_pos_iff.mpr (tlsOpaque32_ne_nil hbytes)
    simpa using hpos
  have hread := (readsAs_opaqueU32 hbytes).at_start pre []
  have hall := all_joinBytes (g := id) (fun _ _ _ hx => readsAs_opaqueV hx)
    (fun _ _ _ hx => tlsOpaque_ne_nil hx) hconsumed
  rw [List.append_nil] at hread
  rw [List.map_id] at hall
  refine ⟨refs.foldl (fun s r => s.insert r) [], ?_, fun ref => ?_⟩
  · rw [readConsumed, if_pos hlt, hread]
    simp [hall]
  · rw [mem_foldl_insert]
    simp

/-- Loading a dump gives back the keys, the index, the transcript and the consumed set;
the secret tree is not in the dump. -/
theorem reload_eq_ok {data : Bytes} (hdump : self.toBytes = .ok data)
    (hload : fromBytes data = .ok next) :
    ∃ stateBytes state, self.state.toBytes = .ok stateBytes ∧
      EpochState.fromBytes stateBytes = .ok state ∧
      next = { init state self.myIndex self.mySigKey self.myKemKey self.interimTranscriptHash with
        consumedKeyPackages := next.consumedKeyPackages } ∧
      ∀ ref, ref ∈ next.consumedKeyPackages ↔ ref ∈ self.consumedKeyPackages := by
  obtain ⟨stateBytes, consumed, consumedBytes, hstate, hconsumed, hbytes, hindex, hlen, hinterim,
    hdata⟩ := toBytes_eq_ok hdump
  set index := beBytes 4 self.myIndex with hindexBytes
  set sig := self.mySigKey.privateBytes
  set kem := self.myKemKey.privateBytes
  set stateLen := beBytes 4 stateBytes.length with hstateLen
  set interim := self.interimTranscriptHash
  set interimLen := beBytes 2 interim.length with hinterimLen
  have hsigLen : sig.length = 32 := self.mySigKey.size
  have hkemLen : kem.length = 32 := self.myKemKey.size
  have h0 : slice data 0 4 = index := by
    rw [hdata]
    exact slice_append_left _ _ (by simp [hindexBytes])
  have h1 : slice data 4 36 = sig := by
    rw [hdata]
    exact slice_mid (by simp [hindexBytes]) (by omega)
  have h2 : slice data 36 68 = kem := by
    rw [hdata, ← List.append_assoc]
    exact slice_mid (by simp [hindexBytes, hsigLen]) (by omega)
  have h3 : slice data 68 72 = stateLen := by
    rw [hdata, ← List.append_assoc, ← List.append_assoc]
    exact slice_mid (by simp [hindexBytes, hsigLen, hkemLen]) (by simp [hstateLen])
  have h4 : slice data 72 (72 + stateBytes.length) = stateBytes := by
    rw [hdata, ← List.append_assoc, ← List.append_assoc, ← List.append_assoc]
    exact slice_mid (by simp [hindexBytes, hsigLen, hkemLen, hstateLen]) rfl
  have h5 : slice data (72 + stateBytes.length) (72 + stateBytes.length + 2) = interimLen := by
    rw [hdata, ← List.append_assoc, ← List.append_assoc, ← List.append_assoc, ← List.append_assoc]
    exact slice_mid (by simp [hindexBytes, hsigLen, hkemLen, hstateLen]; omega)
      (by simp [hinterimLen])
  have h6 : slice data (72 + stateBytes.length + 2)
      (72 + stateBytes.length + 2 + interim.length) = interim := by
    rw [hdata, ← List.append_assoc, ← List.append_assoc, ← List.append_assoc, ← List.append_assoc,
      ← List.append_assoc]
    exact slice_mid (by simp [hindexBytes, hsigLen, hkemLen, hstateLen, hinterimLen]; omega) rfl
  obtain ⟨found, hfound, hmem⟩ := readConsumed_at
    (index ++ sig ++ kem ++ stateLen ++ stateBytes ++ interimLen ++ interim) hconsumed hbytes
  have hpre : (index ++ sig ++ kem ++ stateLen ++ stateBytes ++ interimLen ++ interim).length =
      72 + stateBytes.length + 2 + interim.length := by
    simp [hindexBytes, hsigLen, hkemLen, hstateLen, hinterimLen]
    omega
  have hcat : index ++ sig ++ kem ++ stateLen ++ stateBytes ++ interimLen ++ interim ++
      consumedBytes = data := by
    rw [hdata]
    simp only [List.append_assoc]
  rw [hpre, hcat] at hfound
  have hlt : 72 + stateBytes.length < data.length := by
    rw [← hcat, List.length_append, hpre]
    omega
  simp only [fromBytes, h0, h1, h2, h3, Py.bind_eq_ok, Py.pure_eq, Except.ok.injEq] at hload
  obtain ⟨sigKey, hsig, kemKey, hkem, state, hstate', cons, hcons, rfl⟩ := hload
  rw [sigKey_fromPrivateBytes, Except.ok.injEq] at hsig
  rw [kemKey_fromPrivateBytes, Except.ok.injEq] at hkem
  rw [hstateLen, beNat_beBytes hlen, h4] at hstate'
  have hinterim' : readInterim data (72 + stateBytes.length) =
      (interim, 72 + stateBytes.length + 2 + interim.length) := by
    rw [readInterim, if_pos hlt]
    simp only [h5, hinterimLen, beNat_beBytes hinterim, h6]
  rw [hstateLen, beNat_beBytes hlen, hinterim', hfound, Except.ok.injEq] at hcons
  subst hsig hkem hcons
  refine ⟨stateBytes, state, hstate, hstate', ?_, fun ref => ?_⟩
  · simp only [hstateLen, beNat_beBytes hlen, hinterim', hindexBytes, beNat_beBytes hindex]
  · exact (hmem ref).trans (mem_sortedBy _)

end MLSGroup

/-! ## Transitions and reachable handles -/

/-- A call that replaces a member's handle by a new one. -/
inductive Transition where
  | addMember (coins : CommitCoins) (keyPackage : KeyPackage)
  | removeMember (coins : CommitCoins) (target : ℤ)
  | updateKey (coins : CommitCoins)
  | processUpdate (update : GroupUpdate)
  | reload

namespace Transition

/-- The new handle; `reload` is `from_bytes` of `to_bytes`. -/
def run (C : Crypto) (self : MLSGroup) : Transition → Py MLSGroup
  | addMember coins keyPackage => Prod.fst <$> (self.addMember C coins keyPackage).2
  | removeMember coins target => Prod.fst <$> (self.removeMember C coins target).2
  | updateKey coins => Prod.fst <$> (self.updateKey C coins).2
  | processUpdate update => (self.processUpdate C update).2
  | reload => do
    let data ← self.toBytes
    MLSGroup.fromBytes data

/-- The old handle as the call leaves it. -/
def left (C : Crypto) (self : MLSGroup) : Transition → MLSGroup
  | addMember coins keyPackage => (self.addMember C coins keyPackage).1
  | removeMember coins target => (self.removeMember C coins target).1
  | updateKey coins => (self.updateKey C coins).1
  | processUpdate update => (self.processUpdate C update).1
  | reload => self

/-- At most the caches of the old handle change: a key package is noted, the secret tree wiped. -/
theorem left_cases (C : Crypto) (self : MLSGroup) (t : Transition) :
    ∃ consumed, (t.left C self = { self with consumedKeyPackages := consumed } ∨
        t.left C self = { self with secretTree := none, consumedKeyPackages := consumed }) ∧
      (consumed = self.consumedKeyPackages ∨ ∃ keyPackage ref, makeKpRef C keyPackage = .ok ref ∧
        consumed = self.consumedKeyPackages.insert ref) := by
  cases t with
  | addMember coins keyPackage =>
      simp only [left, MLSGroup.addMember]
      cases href : makeKpRef C keyPackage with
      | error e => exact ⟨_, .inl rfl, .inl rfl⟩
      | ok ref =>
          by_cases hmem : ref ∈ self.consumedKeyPackages
          · simp only [if_pos hmem]
            exact ⟨_, .inl rfl, .inl rfl⟩
          · simp only [if_neg hmem]
            cases MLSGroup.addMemberBody C
              { self with consumedKeyPackages := self.consumedKeyPackages.insert ref } coins
                keyPackage with
            | error e => exact ⟨_, .inl rfl, .inr ⟨keyPackage, ref, href, rfl⟩⟩
            | ok result => exact ⟨_, .inr rfl, .inr ⟨keyPackage, ref, href, rfl⟩⟩
  | removeMember coins target =>
      simp only [left, MLSGroup.removeMember]
      cases MLSGroup.removeMemberBody C self coins target with
      | error e => exact ⟨_, .inl rfl, .inl rfl⟩
      | ok result => exact ⟨_, .inr rfl, .inl rfl⟩
  | updateKey coins =>
      simp only [left, MLSGroup.updateKey]
      cases MLSGroup.updateKeyBody C self coins with
      | error e => exact ⟨_, .inl rfl, .inl rfl⟩
      | ok result => exact ⟨_, .inr rfl, .inl rfl⟩
  | processUpdate update =>
      simp only [left, MLSGroup.processUpdate]
      cases MLSGroup.processUpdateBody C self update with
      | error e => exact ⟨_, .inl rfl, .inl rfl⟩
      | ok next => exact ⟨_, .inr rfl, .inl rfl⟩
  | reload => exact ⟨_, .inl rfl, .inl rfl⟩

end Transition

/-- A handle some sequence of calls produces, whatever welcomes and commits it is given. -/
inductive Reachable (C : Crypto) : MLSGroup → Prop where
  | create {groupId sigKey kemKey initKey self} :
      MLSGroup.create C groupId sigKey kemKey initKey = .ok self → Reachable C self
  | join {welcome sigKey kemKey pskList ratchetTree self} :
      MLSGroup.join C welcome sigKey kemKey pskList ratchetTree = .ok self → Reachable C self
  | next {self next transition} : Reachable C self →
      Transition.run C self transition = .ok next → Reachable C next
  | kept {self} (transition) : Reachable C self → Reachable C (Transition.left C self transition)
  | encrypt {self} (plaintext) : Reachable C self →
      Reachable C (self.encryptApplicationMessage C plaintext).1
  | decrypt {self} (payload) : Reachable C self →
      Reachable C (self.decryptApplicationMessage C payload).1

end PureMls
