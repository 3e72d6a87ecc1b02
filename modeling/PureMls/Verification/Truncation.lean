import PureMls.Verification.Persistence

/-! # Dumps without their end

Which beginnings of a dump are refused, and which are loaded as dumps of an older version. -/

namespace PureMls

open RatchetTree MLSGroup

variable {C : Crypto} {self : MLSGroup} {data stateBytes treeBytes : Bytes}

theorem KeySchedule.fromBytes_ends (data : Bytes) : KeySchedule.fromBytes data ≠ .error .hang := by
  intro hhang
  rw [fromBytes, Py.require] at hhang
  by_cases hlen : data.length = 352
  · rw [if_pos hlen] at hhang
    cases hhang
  · rw [if_neg hlen] at hhang
    cases hhang

/-- Reading the epoch state of a handle ends, whatever the size of its joiner secret. -/
theorem EpochState.fromBytes_ends {state : EpochState} (htree : state.tree.OnWire)
    (h : state.toBytes = .ok stateBytes) : EpochState.fromBytes stateBytes ≠ .error .hang := by
  obtain ⟨treeBytes, htreeBytes, -⟩ := EpochState.toBytes_eq_ok h
  rw [EpochState.fromBytes_toBytes h htreeBytes, htree.fromBytes_toBytes htreeBytes, Py.ok_bind]
  intro hhang
  cases hks : KeySchedule.fromBytes (state.keySchedule.toBytes.take 352) with
  | error e =>
      rw [hks] at hhang
      cases hhang
      exact KeySchedule.fromBytes_ends _ hks
  | ok ks =>
      rw [hks] at hhang
      cases hhang

theorem EpochState.length_toBytes {state : EpochState} (h : state.toBytes = .ok stateBytes)
    (htree : state.tree.toBytes = .ok treeBytes)
    (hsecrets : ∀ s ∈ state.keySchedule.secrets, s.length = 32) :
    stateBytes.length = 14 + state.groupId.length + treeBytes.length + 352 := by
  obtain ⟨_, htree', -, -, -, hdata⟩ := EpochState.toBytes_eq_ok h
  obtain rfl := Except.ok.inj (htree.symm.trans htree')
  rw [hdata]
  simp only [List.length_append, length_beBytes, KeySchedule.length_toBytes hsecrets]
  omega

namespace MLSGroup

/-- The handle that a dump without consumed key packages stands for. -/
def withoutConsumed (self : MLSGroup) (interim : Bytes) : MLSGroup :=
  init ⟨self.state.groupId, self.state.epochId, self.state.tree.canon, self.state.keySchedule⟩
    self.myIndex self.mySigKey self.myKemKey interim

/-- A cut at the end of the epoch state leaves a dump without the two trailing sections. -/
theorem fromBytes_take_state (hdump : self.toBytes = .ok data)
    (hstate : self.state.toBytes = .ok stateBytes)
    (htree : self.state.tree.OnWire)
    (hsecrets : ∀ s ∈ self.state.keySchedule.secrets, s.length = 32) :
    fromBytes (data.take (72 + stateBytes.length)) = .ok (self.withoutConsumed []) := by
  obtain ⟨_, _, consumedBytes, hstate', -, -, hindex, hlen, -, hdata⟩ := toBytes_sections hdump
  obtain rfl := Except.ok.inj (hstate.symm.trans hstate')
  have hcut : data.take (72 + stateBytes.length) = self.dumpHead stateBytes.length ++
    stateBytes := by
    rw [hdata, ← List.append_assoc]
    exact List.take_left' (by rw [List.length_append, length_dumpHead])
  rw [hcut, fromBytes_state_end hindex hlen, EpochState.readsBack htree hsecrets hstate]
  rfl

/-- A cut at the end of the transcript hash leaves a dump without consumed key packages. -/
theorem fromBytes_take_interim (hdump : self.toBytes = .ok data)
    (hstate : self.state.toBytes = .ok stateBytes) (htree : self.state.tree.OnWire)
    (hsecrets : ∀ s ∈ self.state.keySchedule.secrets, s.length = 32) :
    fromBytes (data.take (72 + stateBytes.length + 2 + self.interimTranscriptHash.length)) =
      .ok (self.withoutConsumed self.interimTranscriptHash) := by
  obtain ⟨_, _, consumedBytes, hstate', -, -, hindex, hlen, hinterim, hdata⟩ :=
    toBytes_sections hdump
  obtain rfl := Except.ok.inj (hstate.symm.trans hstate')
  have hcut : data.take (72 + stateBytes.length + 2 + self.interimTranscriptHash.length) =
      self.dumpHead stateBytes.length ++ stateBytes ++ self.dumpInterim ++ [] := by
    rw [hdata, ← List.append_assoc, ← List.append_assoc, List.append_nil]
    refine List.take_left' ?_
    rw [List.length_append, List.length_append, length_dumpHead, length_dumpInterim]
    omega
  have hend : ¬ (self.dumpHead stateBytes.length ++ stateBytes ++ self.dumpInterim).length <
      (self.dumpHead stateBytes.length ++ stateBytes ++ self.dumpInterim ++ []).length := by
    rw [List.append_nil]
    exact lt_irrefl _
  rw [hcut, fromBytes_interim hindex hlen hinterim rfl, EpochState.readsBack htree hsecrets hstate,
    readConsumed, if_neg hend]
  rfl

/-- A cut after the end of the transcript hash is inside the consumed key packages. -/
theorem raises_take_after_interim (hdump : self.toBytes = .ok data)
    (hstate : self.state.toBytes = .ok stateBytes) (htree : self.state.tree.OnWire) {n : ℕ}
    (hn : 72 + stateBytes.length + 2 + self.interimTranscriptHash.length < n)
    (hlt : n < data.length) : (fromBytes (data.take n)).Raises := by
  obtain ⟨_, _, consumedBytes, hstate', -, hbytes, hindex, hlen, hinterim, hdata⟩ :=
    toBytes_sections hdump
  obtain rfl := Except.ok.inj (hstate.symm.trans hstate')
  have hfront : (self.dumpHead stateBytes.length ++ stateBytes ++ self.dumpInterim).length =
      72 + stateBytes.length + 2 + self.interimTranscriptHash.length := by
    rw [List.length_append, List.length_append, length_dumpHead, length_dumpInterim]
    omega
  have hsplit : data = self.dumpHead stateBytes.length ++ stateBytes ++ self.dumpInterim ++
      consumedBytes := by
    rw [hdata]
    simp only [List.append_assoc]
  obtain ⟨k, rfl⟩ := Nat.exists_eq_add_of_lt hn
  have hcut : data.take (72 + stateBytes.length + 2 + self.interimTranscriptHash.length + k + 1) =
      self.dumpHead stateBytes.length ++ stateBytes ++ self.dumpInterim ++
        consumedBytes.take (k + 1) := by
    rw [hsplit, ← hfront, Nat.add_assoc _ k 1, List.take_length_add_append]
  have hshort : k + 1 < consumedBytes.length := by
    rw [hsplit, List.length_append, hfront] at hlt
    omega
  rw [hcut]
  exact raises_take_consumed hindex hlen hinterim (EpochState.fromBytes_ends htree hstate) hbytes
    (Nat.succ_pos k) hshort

end MLSGroup

/-- A dump of a handle of a run that lost its end: it is refused when the cut is before the end of
the key schedule or inside the consumed key packages; a cut at the end of the epoch state or of the
transcript hash leaves an older dump, which is loaded without the sections it does not have. -/
theorem truncated_dump (hC : C.Correct) (h : Reached C self) (hdump : self.toBytes = .ok data) :
    ∃ treeBytes stateBytes, self.state.tree.toBytes = .ok treeBytes ∧
      self.state.toBytes = .ok stateBytes ∧
      (∀ n < 72 + (14 + self.state.groupId.length + treeBytes.length + 352),
        (MLSGroup.fromBytes (data.take n)).Raises) ∧
      (∀ n < data.length, 72 + stateBytes.length + 2 + self.interimTranscriptHash.length < n →
        (MLSGroup.fromBytes (data.take n)).Raises) ∧
      (self.state.keySchedule.joinerSecret.length = 32 →
        stateBytes.length = 14 + self.state.groupId.length + treeBytes.length + 352 ∧
        MLSGroup.fromBytes (data.take (72 + stateBytes.length)) = .ok (self.withoutConsumed []) ∧
        MLSGroup.fromBytes
          (data.take (72 + stateBytes.length + 2 + self.interimTranscriptHash.length)) =
          .ok (self.withoutConsumed self.interimTranscriptHash)) := by
  have honwire : self.state.tree.OnWire := h.onWire (fun _ hc => hc) (fun _ _ hc => hc)
  obtain ⟨stateBytes, -, -, hstate, -⟩ := toBytes_sections hdump
  obtain ⟨treeBytes, htree, -⟩ := EpochState.toBytes_eq_ok hstate
  refine ⟨treeBytes, stateBytes, htree, hstate, fun n hn => ?_, fun n hlt hn => ?_,
    fun hjoiner => ?_⟩
  · exact raises_take_state hdump htree ⟨_, honwire.fromBytes_toBytes htree⟩ hn
  · exact raises_take_after_interim hdump hstate honwire hn hlt
  · have hsecrets := secrets_of_joiner (h.wellSized hC) hjoiner
    exact ⟨EpochState.length_toBytes hstate htree hsecrets,
      fromBytes_take_state hdump hstate honwire hsecrets,
      fromBytes_take_interim hdump hstate honwire hsecrets⟩

namespace Sample

/-- Bob after a join, his dump, and the handle loaded from what stands before the transcript
hash. -/
def cutDump : Py (MLSGroup × Bytes × MLSGroup) := do
  let bob ← MLSGroup.create crypto (ascii "g") (sig 20) (kem 20) (kem 2)
  let welcome ← welcomeTo bob.state.tree []
  let call : JoinCall := ⟨welcome, sig 20, kem 20, [], none⟩
  let joined ← call.run crypto
  let data ← joined.toBytes
  let stateBytes ← joined.state.toBytes
  let restored ← MLSGroup.fromBytes (data.take (72 + stateBytes.length))
  expect (joined.interimTranscriptHash ≠ [] ∧ 72 + stateBytes.length < data.length ∧
    restored.interimTranscriptHash = [])
  pure (joined, data, restored)

theorem cutDump_ok : ∃ r, cutDump = .ok r := Py.ok_of_isOk (by decide +kernel)

end Sample

open Sample in
/-- Bob's dump without its end. -/
theorem truncated_dump_bob : ∃ (bob : MLSGroup) (data : Bytes), bob.toBytes = .ok data ∧
    ∃ treeBytes stateBytes, bob.state.tree.toBytes = .ok treeBytes ∧
      bob.state.toBytes = .ok stateBytes ∧
      (∀ n < 72 + (14 + bob.state.groupId.length + treeBytes.length + 352),
        (MLSGroup.fromBytes (data.take n)).Raises) ∧
      (∀ n < data.length, 72 + stateBytes.length + 2 + bob.interimTranscriptHash.length < n →
        (MLSGroup.fromBytes (data.take n)).Raises) ∧
      (bob.state.keySchedule.joinerSecret.length = 32 →
        stateBytes.length = 14 + bob.state.groupId.length + treeBytes.length + 352 ∧
        MLSGroup.fromBytes (data.take (72 + stateBytes.length)) = .ok (bob.withoutConsumed []) ∧
        MLSGroup.fromBytes
          (data.take (72 + stateBytes.length + 2 + bob.interimTranscriptHash.length)) =
          .ok (bob.withoutConsumed bob.interimTranscriptHash)) := by
  obtain ⟨_, hrun⟩ := cutDump_ok
  simp only [cutDump, expect, Py.bind_eq_ok, Py.require_eq_ok] at hrun
  obtain ⟨_, -, _, -, joined, hjoin, data, hdump, -⟩ := hrun
  have hreached : Reached crypto joined := .join (by intro tree htree; cases htree) hjoin
  exact ⟨joined, data, hdump, truncated_dump correct hreached hdump⟩

open Sample in
/-- What stands before the transcript hash of a dump is loaded as a handle without one. -/
theorem dump_without_interim_loads : ¬ ∀ self, Reached crypto self →
    (self.interimTranscriptHash ≠ [] ∨ self.consumedKeyPackages ≠ []) →
    ∀ data, self.toBytes = .ok data →
    ∀ n < data.length, (MLSGroup.fromBytes (data.take n)).Raises := by
  intro hall
  obtain ⟨_, hrun⟩ := cutDump_ok
  simp only [cutDump, expect, Py.bind_eq_ok, Py.require_eq_ok] at hrun
  obtain ⟨_, -, _, -, joined, hjoin, data, hdump, stateBytes, -, restored, hload, _,
    ⟨hinterim, hshort, -⟩, -⟩ := hrun
  have hreached : Reached crypto joined := .join (by intro tree htree; cases htree) hjoin
  have hraises := hall joined hreached (.inl hinterim) data hdump _ hshort
  exact (Py.raises_iff.mp hraises).1 restored hload

end PureMls
