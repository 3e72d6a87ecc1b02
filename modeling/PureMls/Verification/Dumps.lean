import PureMls.Verification.Reached
import PureMls.Verification.Receiving

/-! # Dumps of handles

Where the sections of a dump stand, and what loading makes of a dump and of what is left of it
when its end is missing. -/

namespace PureMls

open RatchetTree MLSGroup

variable {C : Crypto}

/-! ## Key schedules -/

namespace KeySchedule

variable {ks : KeySchedule}

theorem length_toBytes (h : ∀ s ∈ ks.secrets, s.length = 32) : ks.toBytes.length = 352 := by
  simp only [secrets, List.forall_mem_cons, List.not_mem_nil, false_implies, implies_true,
    and_true] at h
  simp only [toBytes, secrets, List.flatten_cons, List.flatten_nil, List.length_append,
    List.length_nil, h]

private theorem slice_flatten {n i : ℕ} {encs : List Bytes} {e : Bytes} (hn : 0 < n)
    (h : ∀ e ∈ encs, e.length = n) (hi : encs[i]? = some e) :
    slice encs.flatten (n * i) (n * i + n) = e := by
  have hget : (chunks n encs.flatten)[i]? = some e := by rw [chunks_flatten hn h, hi]
  rw [chunks, List.getElem?_map, Option.map_eq_some_iff] at hget
  obtain ⟨j, hj, hslice⟩ := hget
  obtain ⟨_, rfl⟩ := List.getElem?_eq_some_iff.mp hj
  rwa [List.getElem_range] at hslice

/-- Secrets of 32 bytes each are cut where they were joined. -/
theorem fromBytes_toBytes (h : ∀ s ∈ ks.secrets, s.length = 32) :
    fromBytes ks.toBytes = .ok ks := by
  have hfield : ∀ i s, ks.secrets[i]? = some s → slice ks.toBytes (32 * i) (32 * i + 32) = s :=
    fun i s hi => slice_flatten (by decide) h hi
  rw [fromBytes, Py.require_of _ (length_toBytes h), Py.ok_bind, Py.pure_eq, Except.ok.injEq]
  simp only [hfield 0 _ rfl, hfield 1 _ rfl, hfield 2 _ rfl, hfield 3 _ rfl, hfield 4 _ rfl,
    hfield 5 _ rfl, hfield 6 _ rfl, hfield 7 _ rfl, hfield 8 _ rfl, hfield 9 _ rfl, hfield 10 _ rfl]

/-- Whatever is loaded has secrets of 32 bytes each. -/
theorem fromBytes_sizes {data : Bytes} (h : fromBytes data = .ok ks) :
    ∀ s ∈ ks.secrets, s.length = 32 := by
  simp only [fromBytes, Py.bind_eq_ok, Py.require_eq_ok, Py.pure_eq, Except.ok.injEq] at h
  obtain ⟨_, hlen, rfl⟩ := h
  simp [secrets, slice, hlen]

end KeySchedule

/-! ## Epoch states that are cut short -/

theorem RatchetTree.raises_take {tree : RatchetTree} {e : Bytes} (h : tree.toBytes = .ok e) {k : ℕ}
    (hk : k < e.length) : (RatchetTree.fromBytes (e.take k)).Raises := by
  simp only [toBytes, Py.bind_eq_ok, Py.pure_eq, Except.ok.injEq] at h
  obtain ⟨parts, -, size, hsize, rfl⟩ := h
  have hopaque : tlsOpaque parts = .ok (size ++ parts) := by simp [tlsOpaque, hsize]
  have hraises :=
    (readsAs_opaqueV hopaque).raises_take ignoresRest_opaque.keepsInside endsInside_opaque
    ends_opaque [] hk
  exact (hraises.map Prod.fst).bind _

/-- An epoch state whose key schedule does not have its 352 bytes is refused. -/
theorem EpochState.raises_take {state : EpochState} {data treeBytes : Bytes}
    (h : state.toBytes = .ok data) (htree : state.tree.toBytes = .ok treeBytes)
    (hread : ∃ tree, RatchetTree.fromBytes treeBytes = .ok tree) {k : ℕ}
    (hk : k < 14 + state.groupId.length + treeBytes.length + 352) :
    (EpochState.fromBytes (data.take k)).Raises := by
  obtain ⟨_, htree', hgid, -, hlen, hdata⟩ := toBytes_eq_ok h
  obtain rfl := Except.ok.inj (htree.symm.trans htree')
  set gid := state.groupId
  have h0 : slice data 0 2 = beBytes 2 gid.length := by
    rw [hdata]
    exact slice_append_left _ _ (length_beBytes _ _)
  have h3 :
    slice data (2 + gid.length + 8) (2 + gid.length + 8 + 4) = beBytes 4 treeBytes.length := by
    rw [hdata, ← List.append_assoc, ← List.append_assoc]
    exact slice_mid (by simp; omega) (by simp)
  have h4 : slice data (2 + gid.length + 8 + 4) (2 + gid.length + 8 + 4 + treeBytes.length) =
      treeBytes := by
    rw [hdata, ← List.append_assoc, ← List.append_assoc, ← List.append_assoc]
    exact slice_mid (by simp; omega) rfl
  have hgidTake : 2 ≤ k → beNat (slice (data.take k) 0 2) = gid.length := by
    intro hk2
    rw [slice_take, h0, List.take_of_length_le (by rw [length_beBytes]; omega), beNat_beBytes hgid]
  simp only [fromBytes]
  by_cases hstart : k ≤ 2 + gid.length + 8 + 4
  · -- the tree would start where the buffer has ended
    have hge : k ≤ 2 + beNat (slice (data.take k) 0 2) + 8 + 4 := by
      by_cases hk2 : 2 ≤ k
      · rw [hgidTake hk2]
        exact hstart
      · omega
    have hnil : ∀ j, slice (data.take k) (2 + beNat (slice (data.take k) 0 2) + 8 + 4) j = [] := by
      intro j
      rw [slice_take, Nat.sub_eq_zero_of_le hge, List.take_zero]
    have hempty : RatchetTree.fromBytes [] = .error .indexError := rfl
    rw [hnil, hempty]
    exact ⟨.indexError, rfl, by decide⟩
  · have htreeLen : beNat (slice (data.take k) (2 + gid.length + 8) (2 + gid.length + 8 + 4)) =
        treeBytes.length := by
      rw [slice_take, h3, List.take_of_length_le (by rw [length_beBytes]; omega),
        beNat_beBytes hlen]
    rw [hgidTake (by omega), htreeLen, slice_take, h4]
    by_cases hcut : k - (2 + gid.length + 8 + 4) < treeBytes.length
    · exact (RatchetTree.raises_take htree hcut).bind _
    · obtain ⟨tree, hread⟩ := hread
      rw [List.take_of_length_le (Nat.not_lt.mp hcut), hread, Py.ok_bind]
      apply Py.Raises.bind
      have hshort : (slice (data.take k) (2 + gid.length + 8 + 4 + treeBytes.length)
          (2 + gid.length + 8 + 4 + treeBytes.length + 352)).length ≠ 352 := by
        rw [slice_take, List.length_take]
        omega
      rw [KeySchedule.fromBytes, Py.require, if_neg hshort]
      exact ⟨_, rfl, by simp⟩

/-! ## The sections of a dump -/

namespace MLSGroup

variable {self : MLSGroup} {stateBytes : Bytes}

/-- What stands before the epoch state: index, private keys and the length of the state. -/
def dumpHead (self : MLSGroup) (stateLen : ℕ) : Bytes :=
  beBytes 4 self.myIndex ++ (self.mySigKey.privateBytes ++ (self.myKemKey.privateBytes ++
    beBytes 4 stateLen))

/-- What stands after it: the interim transcript hash with its length. -/
def dumpInterim (self : MLSGroup) : Bytes :=
  beBytes 2 self.interimTranscriptHash.length ++ self.interimTranscriptHash

theorem length_dumpHead (self : MLSGroup) (stateLen : ℕ) :
    (self.dumpHead stateLen).length = 72 := by
  simp [dumpHead, self.mySigKey.size, self.myKemKey.size]

theorem length_dumpInterim (self : MLSGroup) :
    self.dumpInterim.length = 2 + self.interimTranscriptHash.length := by
  simp [dumpInterim]

theorem toBytes_sections {data : Bytes} (h : self.toBytes = .ok data) :
    ∃ stateBytes consumed consumedBytes, self.state.toBytes = .ok stateBytes ∧
      joinBytes tlsOpaque (sortedBy (· ≤ ·) self.consumedKeyPackages) = .ok consumed ∧
      tlsOpaque32 consumed = .ok consumedBytes ∧
      self.myIndex < 256 ^ 4 ∧ stateBytes.length < 256 ^ 4 ∧
      self.interimTranscriptHash.length < 256 ^ 2 ∧
      data = self.dumpHead stateBytes.length ++
        (stateBytes ++ (self.dumpInterim ++ consumedBytes)) := by
  obtain ⟨stateBytes, consumed, consumedBytes, hstate, hconsumed, hbytes, hindex, hlen, hinterim,
    hdata⟩ := toBytes_eq_ok h
  refine ⟨stateBytes, consumed, consumedBytes, hstate, hconsumed, hbytes, hindex, hlen, hinterim,
    ?_⟩
  rw [hdata]
  simp only [dumpHead, dumpInterim, List.append_assoc]

/-- The fields of the head, whatever follows. -/
theorem slice_dumpHead (self : MLSGroup) (stateLen : ℕ) (rest : Bytes) :
    slice (self.dumpHead stateLen ++ rest) 0 4 = beBytes 4 self.myIndex ∧
      slice (self.dumpHead stateLen ++ rest) 4 36 = self.mySigKey.privateBytes ∧
      slice (self.dumpHead stateLen ++ rest) 36 68 = self.myKemKey.privateBytes ∧
      slice (self.dumpHead stateLen ++ rest) 68 72 = beBytes 4 stateLen := by
  have hsig := self.mySigKey.size
  have hkem := self.myKemKey.size
  simp only [dumpHead, List.append_assoc]
  refine ⟨slice_append_left _ _ (length_beBytes _ _), slice_mid (by simp) (by omega), ?_, ?_⟩
  · rw [← List.append_assoc]
    exact slice_mid (by simp [hsig]) (by omega)
  · rw [← List.append_assoc, ← List.append_assoc]
    exact slice_mid (by simp [hsig, hkem]) (by simp)

theorem slice_state (self : MLSGroup) (stateBytes rest : Bytes) :
    slice (self.dumpHead stateBytes.length ++ (stateBytes ++ rest)) 72 (72 + stateBytes.length) =
      stateBytes :=
  slice_mid (self.length_dumpHead _) rfl

/-- Loading what starts with the head and the state of a handle. -/
theorem fromBytes_sections (hindex : self.myIndex < 256 ^ 4) (hlen : stateBytes.length < 256 ^ 4)
    {rest data : Bytes} (hdata : data = self.dumpHead stateBytes.length ++ (stateBytes ++ rest)) :
    fromBytes data = (do
      let state ← EpochState.fromBytes stateBytes
      let consumed ← readConsumed data (readInterim data (72 + stateBytes.length)).2
      pure { init state self.myIndex self.mySigKey self.myKemKey
        (readInterim data (72 + stateBytes.length)).1 with consumedKeyPackages := consumed }) := by
  obtain ⟨h0, h1, h2, h3⟩ := self.slice_dumpHead stateBytes.length (stateBytes ++ rest)
  have h4 := self.slice_state stateBytes rest
  rw [← hdata] at h0 h1 h2 h3 h4
  simp only [fromBytes, h0, h1, h2, h3, beNat_beBytes hindex, beNat_beBytes hlen, h4,
    sigKey_fromPrivateBytes, kemKey_fromPrivateBytes, Py.ok_bind]

/-- Nothing after the state: an older dump, without transcript hash and consumed key packages. -/
theorem fromBytes_state_end (hindex : self.myIndex < 256 ^ 4) (hlen : stateBytes.length < 256 ^ 4) :
    fromBytes (self.dumpHead stateBytes.length ++ stateBytes) = (do
      let state ← EpochState.fromBytes stateBytes
      pure (init state self.myIndex self.mySigKey self.myKemKey [])) := by
  have hend :
    ¬ 72 + stateBytes.length < (self.dumpHead stateBytes.length ++ stateBytes).length := by
    rw [List.length_append, length_dumpHead]
    omega
  have hsplit : self.dumpHead stateBytes.length ++ stateBytes =
      self.dumpHead stateBytes.length ++ (stateBytes ++ []) := by rw [List.append_nil]
  rw [fromBytes_sections hindex hlen hsplit]
  simp only [readInterim, if_neg hend, readConsumed, Py.pure_eq, Py.ok_bind]
  rfl

/-- The transcript hash is read back, whatever follows it. -/
theorem fromBytes_interim (hindex : self.myIndex < 256 ^ 4) (hlen : stateBytes.length < 256 ^ 4)
    (hinterim : self.interimTranscriptHash.length < 256 ^ 2) {rest data : Bytes}
    (hdata : data = self.dumpHead stateBytes.length ++ stateBytes ++ self.dumpInterim ++ rest) :
    fromBytes data = (do
      let state ← EpochState.fromBytes stateBytes
      let consumed ← readConsumed data
        (self.dumpHead stateBytes.length ++ stateBytes ++ self.dumpInterim).length
      pure { init state self.myIndex self.mySigKey self.myKemKey self.interimTranscriptHash with
        consumedKeyPackages := consumed }) := by
  have hpre : (self.dumpHead stateBytes.length ++ stateBytes).length = 72 + stateBytes.length := by
    rw [List.length_append, length_dumpHead]
  have hall : (self.dumpHead stateBytes.length ++ stateBytes ++ self.dumpInterim).length =
      72 + stateBytes.length + 2 + self.interimTranscriptHash.length := by
    rw [List.length_append, hpre, length_dumpInterim]
    omega
  have hlt : 72 + stateBytes.length < data.length := by
    rw [hdata, List.length_append, hall]
    omega
  have hfields : data = self.dumpHead stateBytes.length ++ stateBytes ++
      (beBytes 2 self.interimTranscriptHash.length ++ (self.interimTranscriptHash ++ rest)) := by
    rw [hdata, dumpInterim]
    simp only [List.append_assoc]
  have h0 : slice data (72 + stateBytes.length) (72 + stateBytes.length + 2) =
      beBytes 2 self.interimTranscriptHash.length := by
    rw [hfields]
    exact slice_mid hpre (by rw [length_beBytes])
  have h1 : slice data (72 + stateBytes.length + 2)
      (72 + stateBytes.length + 2 + self.interimTranscriptHash.length) =
        self.interimTranscriptHash := by
    rw [hfields, ← List.append_assoc]
    exact slice_mid (by rw [List.length_append, hpre, length_beBytes]) rfl
  have hread : readInterim data (72 + stateBytes.length) =
      (self.interimTranscriptHash,
        72 + stateBytes.length + 2 + self.interimTranscriptHash.length) := by
    simp only [readInterim, if_pos hlt, h0, beNat_beBytes hinterim, h1]
  have hsplit :
    data = self.dumpHead stateBytes.length ++ (stateBytes ++ (self.dumpInterim ++ rest)) := by
    rw [hdata]
    simp only [List.append_assoc]
  rw [fromBytes_sections hindex hlen hsplit, hread, hall]

/-! ## Dumps that are cut short -/

private theorem sigKey_raises {data : Bytes} (h : data.length < 32) :
    (SignatureKey.fromPrivateBytes data).Raises := by
  have h64 : data.length ≠ 64 := by omega
  have h32 : data.length ≠ 32 := by omega
  simp only [SignatureKey.fromPrivateBytes, if_neg h64, dif_neg h32]
  exact ⟨_, rfl, by simp⟩

private theorem kemKey_raises {data : Bytes} (h : data.length < 32) :
    (KemKey.fromPrivateBytes data).Raises := by
  have h32 : data.length ≠ 32 := by omega
  rw [KemKey.fromPrivateBytes, dif_neg h32]
  exact ⟨_, rfl, by simp⟩

/-- A dump that is cut before the 352 bytes of the key schedule are complete is refused. -/
theorem raises_take_state {data treeBytes : Bytes} (h : self.toBytes = .ok data)
    (htree : self.state.tree.toBytes = .ok treeBytes)
    (hread : ∃ tree, RatchetTree.fromBytes treeBytes = .ok tree) {n : ℕ}
    (hn : n < 72 + (14 + self.state.groupId.length + treeBytes.length + 352)) :
    (fromBytes (data.take n)).Raises := by
  obtain ⟨stateBytes, _, consumedBytes, hstate, -, -, -, hlen, -, hdata⟩ := toBytes_sections h
  obtain ⟨-, h1, h2, h3⟩ := self.slice_dumpHead stateBytes.length
    (stateBytes ++ (self.dumpInterim ++ consumedBytes))
  have h4 := self.slice_state stateBytes (self.dumpInterim ++ consumedBytes)
  rw [← hdata] at h1 h2 h3 h4
  have hsig := self.mySigKey.size
  have hkem := self.myKemKey.size
  simp only [fromBytes, slice_take _ 4 36, slice_take _ 36 68, h1, h2]
  by_cases h36 : n < 36
  · apply Py.Raises.bind
    apply sigKey_raises
    rw [List.length_take]
    omega
  · rw [List.take_of_length_le (by omega), sigKey_fromPrivateBytes, Py.ok_bind]
    by_cases h68 : n < 68
    · apply Py.Raises.bind
      apply kemKey_raises
      rw [List.length_take]
      omega
    · rw [List.take_of_length_le (by omega), kemKey_fromPrivateBytes, Py.ok_bind]
      apply Py.Raises.bind
      by_cases h72 : n < 72
      · rw [slice_take, Nat.sub_eq_zero_of_le h72.le, List.take_zero]
        exact ⟨.indexError, rfl, by decide⟩
      · have hstateLen : beNat (slice (data.take n) 68 72) = stateBytes.length := by
          rw [slice_take, h3, List.take_of_length_le (by rw [length_beBytes]; omega),
            beNat_beBytes hlen]
        rw [hstateLen, slice_take, h4]
        exact EpochState.raises_take hstate htree hread (by omega)

/-- A dump that is cut inside the consumed key packages is refused. -/
theorem raises_take_consumed {consumed consumedBytes : Bytes} (hindex : self.myIndex < 256 ^ 4)
    (hlen : stateBytes.length < 256 ^ 4) (hinterim : self.interimTranscriptHash.length < 256 ^ 2)
    (hstate : EpochState.fromBytes stateBytes ≠ .error .hang)
    (hbytes : tlsOpaque32 consumed = .ok consumedBytes) {k : ℕ} (hpos : 0 < k)
    (hk : k < consumedBytes.length) :
    (fromBytes (self.dumpHead stateBytes.length ++ stateBytes ++ self.dumpInterim ++
      consumedBytes.take k)).Raises := by
  rw [fromBytes_interim hindex hlen hinterim rfl]
  refine Py.raises_bind hstate fun state => Py.Raises.bind ?_ _
  have hlt : (self.dumpHead stateBytes.length ++ stateBytes ++ self.dumpInterim).length <
      (self.dumpHead stateBytes.length ++ stateBytes ++ self.dumpInterim ++
        consumedBytes.take k).length := by
    have hcut : (consumedBytes.take k).length = k := List.length_take_of_le hk.le
    simp only [List.length_append, hcut]
    omega
  rw [readConsumed, if_pos hlt]
  apply Py.Raises.bind
  exact (readsAs_opaqueU32 hbytes).raises_take ignoresRest_opaque32.keepsInside endsInside_opaque32
    ends_opaque32 _ hk

end MLSGroup

end PureMls
