import PureMls.Verification.Dumps
import PureMls.Verification.Replay

/-! # Persisted handles

A dump that is loaded again is the same member in the same state, as far as the sizes that the
layout takes for granted are the real ones. -/

namespace PureMls

open RatchetTree MLSGroup

variable {C : Crypto}

/-! ## Sizes in the handles of a run -/

/-- The sizes that the layout of a dump takes for granted; the joiner secret is not among them,
for `join` takes it from the Welcome as it is. -/
structure WellSized (member : MLSGroup) : Prop where
  index : member.myIndex < 256 ^ 4
  epoch : member.state.epochId < 256 ^ 8
  secrets : ∀ s ∈ member.state.keySchedule.secrets.tail, s.length = 32
  interim : member.interimTranscriptHash.length ≤ 32

theorem KeySchedule.fromEpochSecret_sizes (hC : C.Correct) {epochSecret joinerSecret : Bytes}
    {ks : KeySchedule} (h : KeySchedule.fromEpochSecret C epochSecret joinerSecret = .ok ks)
    (hsize : epochSecret.length = 32) : ∀ s ∈ ks.secrets.tail, s.length = 32 := by
  simp only [fromEpochSecret, deriveSecret, Py.bind_eq_ok, Py.pure_eq, Except.ok.injEq] at h
  obtain ⟨_, h1, _, h2, _, h3, _, h4, _, h5, _, h6, _, h7, _, h8, _, h9, rfl⟩ := h
  simp [secrets, hsize, length_expandWithLabel hC h1, length_expandWithLabel hC h2,
    length_expandWithLabel hC h3, length_expandWithLabel hC h4, length_expandWithLabel hC h5,
    length_expandWithLabel hC h6, length_expandWithLabel hC h7, length_expandWithLabel hC h8,
    length_expandWithLabel hC h9]

theorem KeySchedule.derive_sizes (hC : C.Correct) {initSecret commitSecret ctx : Bytes}
    {pskList : List (PreSharedKeyID × Bytes)} {ks : KeySchedule}
    (h : KeySchedule.derive C initSecret commitSecret ctx pskList = .ok ks) :
    ∀ s ∈ ks.secrets.tail, s.length = 32 := by
  obtain ⟨⟨epochSecret, joinerSecret⟩, hsecrets, hks⟩ := Py.bind_eq_ok.mp h
  obtain ⟨_, -, -, hepoch⟩ := deriveEpochSecret_eq_ok hsecrets
  exact fromEpochSecret_sizes hC hks (length_expandWithLabel hC hepoch)

theorem findOwnLeaf_lt {tree : RatchetTree} {sigPub : Bytes} {index : ℕ}
    (h : findOwnLeaf tree sigPub = some index) : 2 * index < tree.nodes.length := by
  obtain ⟨i, hi, rfl⟩ := Option.map_eq_some_iff.mp h
  have hmem := List.mem_range.mp (List.mem_of_find?_eq_some hi)
  omega

theorem RatchetTree.OnWire.length_le_two_pow {tree : RatchetTree} (h : tree.OnWire) :
    tree.nodes.length ≤ 2 ^ 30 := by
  rcases h with ⟨-, hnil⟩ | ⟨m, hm, -, hle⟩
  · simp [hnil]
  · exact hle.trans (Nat.pow_le_pow_right (by decide) (by omega))

theorem GroupUpdate.epoch_lt {update : GroupUpdate} {body : Bytes}
    (h : update.bodyBytes = .ok body) : update.epochId < 256 ^ 8 := by
  simp only [bodyBytes, Py.bind_eq_ok] at h
  obtain ⟨_, -, _, -, _, hepoch, -⟩ := h
  exact (structPack_eq_ok.mp hepoch).1

theorem Reached.wellSized (hC : C.Correct) {self : MLSGroup} (h : Reached C self) :
    WellSized self := by
  refine ReachedBy.invariant (P := WellSized) ?_ ?_ ?_ ?_ ?_ ?_ h
  · intro a b hcore ha
    have hstate : a.state = b.state := congrArg (·.state) hcore
    have hindex : a.myIndex = b.myIndex := congrArg (·.myIndex) hcore
    have hinterim : a.interimTranscriptHash = b.interimTranscriptHash :=
      congrArg (·.interimTranscriptHash) hcore
    exact ⟨hindex ▸ ha.index, hstate ▸ ha.epoch, hstate ▸ ha.secrets, hinterim ▸ ha.interim⟩
  · intro _ _ _ _ self hcreate
    obtain ⟨_, _, _, ks, -, -, hks, rfl⟩ := create_eq_ok hcreate
    exact ⟨Nat.two_pow_pos 32, Nat.two_pow_pos 64, KeySchedule.derive_sizes hC hks, Nat.zero_le _⟩
  · intro call self hwire hok
    obtain ⟨o, tree, index, ctx, _, ks, -, htree, -, hindex, hctx, hepoch, hks, -, rfl⟩ :=
      join_eq_ok hok
    have hlt := findOwnLeaf_lt hindex
    have hle := (discoverTree_onWire hwire htree).length_le_two_pow
    simp only [GroupContext.toBytes, Py.bind_eq_ok] at hctx
    obtain ⟨_, -, _, -, _, -, _, hctxEpoch, -⟩ := hctx
    refine ⟨?_, (toBytesBig_eq_ok.mp hctxEpoch).1,
      KeySchedule.fromEpochSecret_sizes hC hks (length_expandWithLabel hC hepoch), ?_⟩
    · change index < 256 ^ 4
      omega
    · exact (hC.sha256_size _).le
  · intro sender coins p committed _ hsender _ hcommit
    obtain ⟨r⟩ := Proposal.commit_eq_ok hcommit
    obtain ⟨_, _, ks, hsecrets, hks, hnext⟩ := EpochState.advanceEpoch_eq_ok r.finished.nextState_eq
    obtain ⟨_, -, -, hepoch⟩ := KeySchedule.deriveEpochSecret_eq_ok hsecrets
    refine ⟨?_, ?_, ?_, ?_⟩
    · rw [r.next_myIndex]
      exact hsender.index
    · rw [r.next_state, hnext]
      exact GroupUpdate.epoch_lt r.finished.body_eq
    · rw [r.next_state, hnext]
      exact KeySchedule.fromEpochSecret_sizes hC hks (length_expandWithLabel hC hepoch)
    · rw [r.next_interim]
      exact (hC.sha256_size _).le
  · intro self next update _ hself _ hprocess
    obtain ⟨_, _, ks, _, _, hks, -, ⟨_, hbody⟩, hepoch, rfl⟩ := processUpdateBody_next hprocess
    refine ⟨hself.index, ?_, KeySchedule.derive_sizes hC hks, (hC.sha256_size _).le⟩
    change self.state.epochId + 1 < 256 ^ 8
    rw [← hepoch]
    exact GroupUpdate.epoch_lt hbody
  · intro self next data _ hself hdump hload
    obtain ⟨_, _, ks, -, -, hks, hstate⟩ := fromBytes_state hdump hload
    obtain ⟨_, _, -, -, hnext, -⟩ := reload_eq_ok hdump hload
    refine ⟨?_, ?_, ?_, ?_⟩
    · rw [hnext]
      exact hself.index
    · rw [hstate]
      exact hself.epoch
    · rw [hstate]
      exact fun s hs => KeySchedule.fromBytes_sizes hks s (List.mem_of_mem_tail hs)
    · rw [hnext]
      exact hself.interim

/-! ## The consumed key packages -/

/-- Different references of 32 bytes each. -/
def ConsumedRefs (refs : List Bytes) : Prop := refs.Nodup ∧ ∀ ref ∈ refs, ref.length = 32

theorem ConsumedRefs.nil : ConsumedRefs [] := ⟨.nil, by simp⟩

theorem ConsumedRefs.insert (hC : C.Correct) {refs : List Bytes} (h : ConsumedRefs refs)
    {kp : KeyPackage} {ref : Bytes} (href : makeKpRef C kp = .ok ref) :
    ConsumedRefs (refs.insert ref) := by
  obtain ⟨input, -, rfl⟩ := Py.map_eq_ok.mp href
  refine ⟨h.1.insert, fun ref hmem => ?_⟩
  rcases List.mem_insert_iff.mp hmem with rfl | hmem
  · exact hC.sha256_size _
  · exact h.2 ref hmem

private theorem nodup_foldl_insert {refs start : List Bytes} (h : start.Nodup) :
    (refs.foldl (fun s ref => s.insert ref) start).Nodup := by
  induction refs generalizing start with
  | nil => exact h
  | cons ref refs ih => exact ih h.insert

theorem MLSGroup.fromBytes_nodup {data : Bytes} {next : MLSGroup}
    (h : MLSGroup.fromBytes data = .ok next) : next.consumedKeyPackages.Nodup := by
  simp only [MLSGroup.fromBytes, readConsumed, Py.bind_eq_ok, Py.pure_eq, Except.ok.injEq] at h
  obtain ⟨_, -, _, -, _, -, consumed, hconsumed, rfl⟩ := h
  split_ifs at hconsumed
  · simp only [Py.bind_eq_ok, Except.ok.injEq] at hconsumed
    obtain ⟨_, -, refs, -, rfl⟩ := hconsumed
    exact nodup_foldl_insert .nil
  · cases hconsumed
    exact .nil

theorem Transition.left_consumedRefs (hC : C.Correct) {self : MLSGroup}
    (h : ConsumedRefs self.consumedKeyPackages) (transition : Transition) :
    ConsumedRefs (transition.left C self).consumedKeyPackages := by
  obtain ⟨consumed, hleft, hconsumed⟩ := transition.left_cases C self
  have hrefs : (transition.left C self).consumedKeyPackages = consumed := by
    rcases hleft with hleft | hleft
    · rw [hleft]
    · rw [hleft]
  rw [hrefs]
  rcases hconsumed with rfl | ⟨keyPackage, ref, href, rfl⟩
  · exact h
  · exact h.insert hC href

theorem Reached.consumedRefs (hC : C.Correct) {self : MLSGroup} (h : Reached C self) :
    ConsumedRefs self.consumedKeyPackages := by
  induction h with
  | create hok =>
      obtain ⟨_, _, _, _, -, -, -, rfl⟩ := create_eq_ok hok
      exact .nil
  | join _ hok =>
      obtain ⟨_, _, _, _, _, _, -, -, -, -, -, -, -, -, rfl⟩ := join_eq_ok hok
      exact .nil
  | @next self next transition _ _ hok ih =>
      cases transition with
      | addMember coins kp =>
          obtain ⟨ref, href, -, hnext⟩ := Transition.addMember_consumed hok
          rw [hnext]
          exact ih.insert hC href
      | removeMember coins target => rwa [Transition.removeMember_consumed hok]
      | updateKey coins => rwa [Transition.updateKey_consumed hok]
      | processUpdate update =>
          rw [Transition.processUpdate_consumed hok]
          exact .nil
      | reload =>
          obtain ⟨data, -, hload⟩ := Py.bind_eq_ok.mp hok
          exact ⟨fromBytes_nodup hload,
            fun ref hmem => ih.2 ref ((Transition.reload_consumed hok ref).mp hmem)⟩
  | kept transition _ ih => exact Transition.left_consumedRefs hC ih transition
  | encrypt plaintext _ ih =>
      unfold encryptApplicationMessage
      split
      split <;> exact ih
  | decrypt payload _ ih =>
      unfold decryptApplicationMessage
      split
      · exact ih
      · split
        split <;> exact ih

/-! ## Dumping -/

theorem RatchetTree.length_toBytes_lt {tree : RatchetTree} {e : Bytes} (h : tree.toBytes = .ok e) :
    e.length < 2 ^ 31 := by
  simp only [toBytes, Py.bind_eq_ok, Py.pure_eq, Except.ok.injEq] at h
  obtain ⟨parts, -, size, hsize, rfl⟩ := h
  have hlt := lt_of_tlsVarint hsize
  have hle := length_tlsVarint hsize
  rw [List.length_append]
  omega

/-- References of 32 bytes take 33 bytes each. -/
theorem joinBytes_refs {refs : List Bytes} (h : ∀ ref ∈ refs, ref.length = 32) :
    ∃ joined, joinBytes tlsOpaque refs = .ok joined ∧ joined.length = 33 * refs.length := by
  induction refs with
  | nil => exact ⟨[], rfl, rfl⟩
  | cons ref refs ih =>
      obtain ⟨joined, hjoined, hlen⟩ := ih fun r hr => h r (List.mem_cons_of_mem _ hr)
      obtain ⟨encs, hencs, rfl⟩ := Py.map_eq_ok.mp hjoined
      have href : ref.length = 32 := h ref List.mem_cons_self
      have henc : tlsOpaque ref = .ok (0x20 :: ref) := by
        rw [tlsOpaque, href]
        rfl
      refine ⟨(0x20 :: ref) ++ encs.flatten, ?_, ?_⟩
      · simp only [joinBytes, List.mapM_cons, henc, hencs, Py.ok_bind, Py.pure_eq, Py.map_ok,
          List.flatten_cons]
      · rw [List.length_append, hlen, List.length_cons, href, List.length_cons]
        omega

namespace MLSGroup

variable {self : MLSGroup}

theorem sortedRefs (h : ConsumedRefs self.consumedKeyPackages) : ∃ consumed,
    joinBytes tlsOpaque (sortedBy (· ≤ ·) self.consumedKeyPackages) = .ok consumed ∧
      consumed.length = 33 * self.consumedKeyPackages.length := by
  have hsizes : ∀ ref ∈ sortedBy (· ≤ ·) self.consumedKeyPackages, ref.length = 32 :=
    fun ref href => h.2 ref ((mem_sortedBy _).mp href)
  obtain ⟨consumed, hconsumed, hlen⟩ := joinBytes_refs hsizes
  refine ⟨consumed, hconsumed, ?_⟩
  rw [hlen, sortedBy, List.length_insertionSort]

theorem secrets_of_joiner (h : WellSized self)
    (hjoiner : self.state.keySchedule.joinerSecret.length = 32) :
    ∀ s ∈ self.state.keySchedule.secrets, s.length = 32 := by
  intro s hs
  rcases List.mem_cons.mp hs with rfl | hs
  · exact hjoiner
  · exact h.secrets s hs

theorem toBytes_ok (h : WellSized self) (hrefs : ConsumedRefs self.consumedKeyPackages)
    (hgroup : self.state.groupId.length < 65536)
    (hjoiner : self.state.keySchedule.joinerSecret.length = 32)
    (htree : ∃ e, self.state.tree.toBytes = .ok e)
    (hsmall : 33 * self.consumedKeyPackages.length < 2 ^ 32) : ∃ data, self.toBytes = .ok data := by
  obtain ⟨treeBytes, htree⟩ := htree
  obtain ⟨consumed, hconsumed, hconsumedLen⟩ := sortedRefs hrefs
  have htreeLen := RatchetTree.length_toBytes_lt htree
  have hks := KeySchedule.length_toBytes (secrets_of_joiner h hjoiner)
  have hbig : ∀ n v, v < 256 ^ n → toBytesBig n v = .ok (beBytes n v) :=
    fun n v hv => toBytesBig_eq_ok.mpr ⟨hv, rfl⟩
  have hstate : ∃ stateBytes, self.state.toBytes = .ok stateBytes ∧
    stateBytes.length < 256 ^ 4 := by
    simp only [EpochState.toBytes, htree, hbig 2 _ hgroup, hbig 8 _ h.epoch,
      hbig 4 _ (show treeBytes.length < 256 ^ 4 by omega), Py.ok_bind, Py.pure_eq, Except.ok.injEq,
      exists_eq_left']
    simp only [List.length_append, length_beBytes, hks]
    omega
  obtain ⟨stateBytes, hstate, hstateLen⟩ := hstate
  have hinterim : self.interimTranscriptHash.length < 256 ^ 2 :=
    Nat.lt_of_le_of_lt h.interim (by decide)
  have hopaque := tlsOpaque32_ok (hconsumedLen ▸ hsmall)
  simp only [toBytes, hstate, hconsumed, hbig 4 _ h.index, hbig 4 _ hstateLen, hbig 2 _ hinterim,
    hopaque, Py.ok_bind, Py.pure_eq, Except.ok.injEq, exists_eq']

/-! ## Loading -/

end MLSGroup

/-- An epoch state with secrets of 32 bytes is read back with the canonical form of its tree. -/
theorem EpochState.readsBack {state : EpochState} (htree : state.tree.OnWire)
    (hsecrets : ∀ s ∈ state.keySchedule.secrets, s.length = 32) {stateBytes : Bytes}
    (h : state.toBytes = .ok stateBytes) : EpochState.fromBytes stateBytes =
      .ok ⟨state.groupId, state.epochId, state.tree.canon, state.keySchedule⟩ := by
  obtain ⟨treeBytes, htreeBytes, -⟩ := EpochState.toBytes_eq_ok h
  have htake : state.keySchedule.toBytes.take 352 = state.keySchedule.toBytes :=
    List.take_of_length_le (KeySchedule.length_toBytes hsecrets).le
  rw [EpochState.fromBytes_toBytes h htreeBytes, htree.fromBytes_toBytes htreeBytes, Py.ok_bind,
    htake, KeySchedule.fromBytes_toBytes hsecrets]
  rfl

namespace MLSGroup

variable {self : MLSGroup}

/-- Loading a dump gives back the handle with the canonical form of its tree, and the consumed key
packages in some order. -/
theorem fromBytes_toBytes {data : Bytes} (h : self.toBytes = .ok data)
    (htree : self.state.tree.OnWire)
    (hsecrets : ∀ s ∈ self.state.keySchedule.secrets, s.length = 32) :
    ∃ next, fromBytes data = .ok next ∧ (∀ ref, ref ∈ next.consumedKeyPackages ↔
      ref ∈ self.consumedKeyPackages) ∧
      next = { init ⟨self.state.groupId, self.state.epochId, self.state.tree.canon,
        self.state.keySchedule⟩ self.myIndex self.mySigKey self.myKemKey self.interimTranscriptHash
          with
        consumedKeyPackages := next.consumedKeyPackages } := by
  obtain ⟨stateBytes, consumed, consumedBytes, hstate, hconsumed, hbytes, hindex, hlen, hinterim,
    hdata⟩ := toBytes_sections h
  have hread := EpochState.readsBack htree hsecrets hstate
  obtain ⟨found, hfound, hmem⟩ := readConsumed_at
    (self.dumpHead stateBytes.length ++ stateBytes ++ self.dumpInterim) hconsumed hbytes
  have hsplit : data = self.dumpHead stateBytes.length ++ stateBytes ++ self.dumpInterim ++
      consumedBytes := by
    rw [hdata]
    simp only [List.append_assoc]
  have hload := fromBytes_interim hindex hlen hinterim hsplit
  rw [hread, Py.ok_bind, hsplit, hfound, Py.ok_bind, ← hsplit] at hload
  exact ⟨_, hload, fun ref => (hmem ref).trans (mem_sortedBy _), rfl⟩

end MLSGroup

/-! ## The same member again -/

/-- Process one commit after the other. -/
def MLSGroup.follow (C : Crypto) (self : MLSGroup) (updates : List GroupUpdate) : Py MLSGroup :=
  updates.foldlM (fun self update => (self.processUpdate C update).2) self

theorem SameMember.of_canonTree {here there : MLSGroup} (h : here.canonTree = there.canonTree) :
    SameMember here there :=
  ⟨⟨congrArg (·.state.groupId) h, congrArg (·.state.epochId) h, congrArg (·.state.tree) h,
    congrArg (·.state.keySchedule) h, congrArg (·.interimTranscriptHash) h⟩,
    congrArg (·.myIndex) h, congrArg (·.mySigKey) h, congrArg (·.myKemKey) h⟩

/-- Two handles of the same member follow any commits to the same end. -/
theorem MLSGroup.follow_congr {here there : MLSGroup} (h : SameMember here there)
    (hbytes : here.toBytes = there.toBytes) (updates : List GroupUpdate) :
    SameOutcome (here.follow C updates) (there.follow C updates) := by
  induction updates generalizing here there with
  | nil => exact hbytes
  | cons update updates ih =>
      have hstep := processUpdateBody_congr (C := C) h (.refl update)
      change SameOutcome ((here.processUpdate C update).2 >>= fun next => next.follow C updates)
        ((there.processUpdate C update).2 >>= fun next => next.follow C updates)
      rw [processUpdate_snd, processUpdate_snd]
      cases hhere : processUpdateBody C here update with
      | error e =>
          cases hthere : processUpdateBody C there update with
          | error e' =>
              rw [hhere, hthere] at hstep
              cases hstep
              rfl
          | ok next' =>
              rw [hhere, hthere] at hstep
              cases hstep
      | ok next =>
          cases hthere : processUpdateBody C there update with
          | error e' =>
              rw [hhere, hthere] at hstep
              cases hstep
          | ok next' =>
              rw [hhere, hthere] at hstep
              have hcanon : next.canonTree = next'.canonTree := Except.ok.inj hstep
              refine ih (.of_canonTree hcanon) ?_
              rw [← next.toBytes_canonTree, hcanon, next'.toBytes_canonTree]

/-- What has to survive a dump and a load. -/
structure Restores (C : Crypto) (restored original : MLSGroup) : Prop where
  myIndex : restored.myIndex = original.myIndex
  mySigKey : restored.mySigKey = original.mySigKey
  myKemKey : restored.myKemKey = original.myKemKey
  groupId : restored.state.groupId = original.state.groupId
  epochId : restored.state.epochId = original.state.epochId
  treeBytes : restored.state.tree.toBytes = original.state.tree.toBytes
  treeHash : restored.state.tree.treeHash C = original.state.tree.treeHash C
  keySchedule : restored.state.keySchedule = original.state.keySchedule
  interim : restored.interimTranscriptHash = original.interimTranscriptHash
  consumed : ∀ ref, ref ∈ restored.consumedKeyPackages ↔ ref ∈ original.consumedKeyPackages
  again : restored.toBytes = original.toBytes
  follows : ∀ updates, SameOutcome (restored.follow C updates) (original.follow C updates)

theorem MLSGroup.toBytes_perm {here there : MLSGroup}
    (hstate : here.state.toBytes = there.state.toBytes) (hindex : here.myIndex = there.myIndex)
    (hsig : here.mySigKey = there.mySigKey) (hkem : here.myKemKey = there.myKemKey)
    (hinterim : here.interimTranscriptHash = there.interimTranscriptHash)
    (hconsumed : here.consumedKeyPackages.Perm there.consumedKeyPackages) :
    here.toBytes = there.toBytes := by
  have htotal : Std.Total (fun a b : Bytes => a ≤ b) := ⟨List.le_total⟩
  have htrans : IsTrans Bytes (fun a b => a ≤ b) := ⟨fun _ _ _ => List.le_trans⟩
  have hanti : Std.Antisymm (fun a b : Bytes => a ≤ b) := ⟨fun _ _ => List.le_antisymm⟩
  have hsorted := sortedBy_perm (fun a b : Bytes => a ≤ b) hconsumed
  simp only [toBytes, hstate, hindex, hsig, hkem, hinterim, hsorted]

/-- A handle of a run can be dumped and loaded again without loss if and only if its joiner secret
has the 32 bytes that the layout gives it, its tree can be encoded, and the consumed key packages
fit the 32-bit length before them. -/
theorem persisted_state_complete_iff (hC : C.Correct) {self : MLSGroup} (h : Reached C self)
    (hgroup : self.state.groupId.length < 65536) :
    (∃ data restored, self.toBytes = .ok data ∧ MLSGroup.fromBytes data = .ok restored ∧
      Restores C restored self) ↔
    self.state.keySchedule.joinerSecret.length = 32 ∧ (∃ e, self.state.tree.toBytes = .ok e) ∧
      33 * self.consumedKeyPackages.length < 2 ^ 32 := by
  have hsized := h.wellSized hC
  have hrefs := h.consumedRefs hC
  constructor
  · rintro ⟨data, restored, hdump, hload, hrestores⟩
    obtain ⟨stateBytes, consumed, consumedBytes, hstate, hconsumed, hbytes, -⟩ :=
      toBytes_sections hdump
    obtain ⟨treeBytes, _, ks, htree, -, hks, hloaded⟩ := fromBytes_state hdump hload
    refine ⟨?_, ⟨treeBytes, htree⟩, ?_⟩
    · rw [← hrestores.keySchedule, hloaded]
      exact KeySchedule.fromBytes_sizes hks _ List.mem_cons_self
    · obtain ⟨consumed', hconsumed', hlen⟩ := sortedRefs hrefs
      obtain rfl := Except.ok.inj (hconsumed.symm.trans hconsumed')
      obtain ⟨_, hsize, -⟩ := Py.bind_eq_ok.mp hbytes
      rw [← hlen]
      exact (structPack_eq_ok.mp hsize).1
  · rintro ⟨hjoiner, htree, hsmall⟩
    obtain ⟨data, hdump⟩ := toBytes_ok hsized hrefs hgroup hjoiner htree hsmall
    have honwire : self.state.tree.OnWire := h.onWire (fun _ hc => hc) (fun _ _ hc => hc)
    obtain ⟨restored, hload, hmem, heq⟩ := fromBytes_toBytes hdump honwire
      (secrets_of_joiner hsized hjoiner)
    have hperm : restored.consumedKeyPackages.Perm self.consumedKeyPackages :=
      (List.perm_ext_iff_of_nodup (fromBytes_nodup hload) hrefs.1).mpr hmem
    have hstate : restored.state = ⟨self.state.groupId, self.state.epochId, self.state.tree.canon,
        self.state.keySchedule⟩ := by
      rw [heq]
      rfl
    have hbytes : restored.toBytes = self.toBytes := by
      refine toBytes_perm ?_ (by rw [heq]; rfl) (by rw [heq]; rfl) (by rw [heq]; rfl)
        (by rw [heq]; rfl)
        hperm
      simp only [hstate, EpochState.toBytes, RatchetTree.toBytes_canon]
    have hsame : SameMember restored self := by
      refine ⟨⟨?_, ?_, ?_, ?_, ?_⟩, ?_, ?_, ?_⟩
      · rw [hstate]
      · rw [hstate]
      · rw [hstate, canon_canon]
      · rw [hstate]
      · rw [heq]
        rfl
      · rw [heq]
        rfl
      · rw [heq]
        rfl
      · rw [heq]
        rfl
    refine ⟨data, restored, hdump, hload, ?_⟩
    exact ⟨hsame.myIndex, hsame.mySigKey, hsame.myKemKey, hsame.agrees.groupId,
      hsame.agrees.epochId,
      by rw [hstate, toBytes_canon], treeHash_congr hsame.agrees.tree, hsame.agrees.keySchedule,
      hsame.agrees.interim, hmem, hbytes, follow_congr hsame hbytes⟩

namespace Sample

/-- Alice after she added Bob, and Bob after a join with a joiner secret of 33 bytes. -/
def dumps : Py (MLSGroup × MLSGroup) := do
  let bobPackage ← keyPackage 20
  let alice0 ← MLSGroup.create crypto (ascii "g") (sig 1) (kem 1) (kem 2)
  let alice ← Transition.run crypto alice0 (.addMember (coins 40) bobPackage)
  expect (alice.state.groupId = ascii "g" ∧ alice.state.keySchedule.joinerSecret.length = 32 ∧
    alice.state.tree.toBytes.isOk = true ∧ alice.consumedKeyPackages.length = 1)
  let bob ← MLSGroup.create crypto (ascii "g") (sig 20) (kem 20) (kem 2)
  let welcome ← welcomeWith (List.replicate 33 7) bob.state.tree []
  let call : JoinCall := ⟨welcome, sig 20, kem 20, [], none⟩
  let joined ← call.run crypto
  expect (joined.state.groupId = ascii "g" ∧ joined.state.keySchedule.joinerSecret.length = 33)
  pure (alice, joined)

theorem dumps_ok : ∃ r, dumps = .ok r := Py.ok_of_isOk (by decide +kernel)

end Sample

open Sample in
/-- Alice's handle survives a dump and a load. -/
theorem persisted_alice : ∃ alice, Reached crypto alice ∧ ∃ data restored,
    alice.toBytes = .ok data ∧ MLSGroup.fromBytes data = .ok restored ∧
    Restores crypto restored alice := by
  obtain ⟨_, hrun⟩ := dumps_ok
  simp only [dumps, expect, Py.bind_eq_ok, Py.require_eq_ok] at hrun
  obtain ⟨kp, -, alice0, hcreate, alice, hadd, _, ⟨hgroup, hjoiner, htree, hconsumed⟩, -⟩ := hrun
  have hcall : Transition.FromWire (.addMember (coins 40) kp) := trivial
  have hreached : Reached crypto alice := .next (.create hcreate) hcall hadd
  have hlen : alice.state.groupId.length < 65536 := by
    rw [hgroup]
    decide
  refine ⟨alice, hreached, (persisted_state_complete_iff correct hreached hlen).mpr
    ⟨hjoiner, Py.ok_of_isOk htree, ?_⟩⟩
  rw [hconsumed]
  decide

open Sample in
/-- A joiner secret of 33 bytes shifts every secret after it. -/
theorem persisted_secrets_shifted :
    ¬ ∀ self, Reached crypto self → self.state.groupId.length < 65536 → ∃ data restored,
      self.toBytes = .ok data ∧ MLSGroup.fromBytes data = .ok restored ∧
      Restores crypto restored self := by
  intro hall
  obtain ⟨_, hrun⟩ := dumps_ok
  simp only [dumps, expect, Py.bind_eq_ok, Py.require_eq_ok] at hrun
  obtain ⟨_, -, _, -, _, -, _, -, _, -, welcome, -, joined, hjoin, _, ⟨hgroup, hjoiner⟩, -⟩ := hrun
  have hreached : Reached crypto joined := .join (by intro tree htree; cases htree) hjoin
  obtain ⟨data, restored, hdump, hload, hrestores⟩ := hall joined hreached (by rw [hgroup]; decide)
  obtain ⟨_, _, ks, -, -, hks, hstate⟩ := fromBytes_state hdump hload
  have hloaded : restored.state.keySchedule.joinerSecret.length = 32 := by
    rw [hstate]
    exact KeySchedule.fromBytes_sizes hks _ List.mem_cons_self
  rw [hrestores.keySchedule, hjoiner] at hloaded
  exact absurd hloaded (by decide)

end PureMls
