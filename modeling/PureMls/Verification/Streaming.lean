import PureMls.Model.Dialects
import PureMls.Verification.ParsedTrees

/-! # The decoders as streams

Every decoder goes forward, depends on nothing behind what it reads, and fails with one of three
exceptions. -/

namespace PureMls

/-- The exceptions of malformed bytes. -/
def DecodeFault : Fault → Prop
  | .valueError _ => True
  | .indexError => True
  | .structError _ => True
  | _ => False

theorem DecodeFault.not_hang : ¬ DecodeFault .hang := fun h => h

abbrev Reads {α : Type} (d : Decoder α) : Prop := Streams DecodeFault d

open Py.FailsWith

/-! ## Primitives -/

theorem byteAt_failsWith (buf : Bytes) (i : ℕ) : (byteAt buf i).FailsWith DecodeFault := by
  unfold byteAt
  split
  · exact ok _
  · exact error trivial

theorem require_reads {condition : Prop} [Decidable condition] (message : String) :
    Reads (Decoder.lift (Py.require condition (.valueError message))) :=
  .lift (.require trivial)

theorem reads_u8 : Reads readU8 where
  advances := advances_u8
  keeps := by
    intro buf rest offset v next h hle
    obtain ⟨v, hv, hnext⟩ := Py.bind_eq_ok.mp h
    cases hnext
    obtain ⟨b, hb, rfl⟩ := byteAt_eq_ok.mp hv
    have hlong : (buf ++ rest)[offset]? = some b := by
      rw [List.getElem?_append_left (by omega), hb]
    rw [readU8, byteAt_eq_ok.mpr ⟨b, hlong, rfl⟩]
    rfl
  fails := fun buf offset => (byteAt_failsWith buf offset).bind fun _ => ok _

theorem reads_unpackFrom (n : ℕ) : Reads (unpackFrom n) where
  advances := advances_unpackFrom n
  keeps := (ignoresRest_unpackFrom n).keepsInside
  fails := by
    intro buf offset
    rw [unpackFrom]
    split_ifs
    · exact ok _
    · exact error trivial

theorem reads_varint : Reads varintDecode where
  advances := advances_varint
  keeps := ignoresRest_varint.keepsInside
  fails := by
    intro buf offset
    refine (byteAt_failsWith buf offset).bind fun first => ?_
    dsimp only
    split_ifs
    · exact ok _
    · exact (byteAt_failsWith _ _).bind fun _ => ok _
    · exact (Py.FailsWith.require trivial).bind fun _ => (byteAt_failsWith _ _).bind fun _ =>
        (byteAt_failsWith _ _).bind fun _ => (byteAt_failsWith _ _).bind fun _ => ok _
    · exact error trivial

theorem reads_checked (length : ℕ) (message : ℕ → ℕ → String) :
    Reads (readChecked length message) where
  advances := advances_checked length message
  keeps := (ignoresRest_checked length message).keepsInside
  fails := fun _ _ => (Py.FailsWith.require trivial).bind fun _ => ok _

theorem reads_opaque : Reads readOpaque := .bind reads_varint fun _ => reads_checked _ _

theorem reads_opaque32 : Reads readOpaque32 := .bind (reads_unpackFrom 4) fun _ => reads_checked _ _

/-- A slice that is not checked is right as long as it ends inside the buffer. -/
theorem reads_slice (length : ℕ) : Reads (readSlice length) where
  advances := advances_slice length
  keeps := by
    intro buf rest offset data next h hle
    cases h
    rw [readSlice, slice_append hle]
  fails := fun _ _ => ok _

/-! ## Lists of items -/

theorem run_failsWith {α : Type} {d : Decoder α} (h : Reads d) (data : Bytes) :
    (d.run data).FailsWith DecodeFault :=
  h.fails.run data

theorem all_failsWith {α : Type} {d : Decoder α} (h : Reads d) (raw : Bytes)
    (hnext : ∀ offset item next, d raw offset = .ok (item, next) → offset < next) :
    (d.all raw).FailsWith DecodeFault :=
  h.fails.all raw hnext

theorem readOpaque_advances {buf data : Bytes} {offset next : ℕ}
    (h : readOpaque buf offset = .ok (data, next)) : offset < next := by
  obtain ⟨⟨n, mid⟩, hlength, hbody⟩ := Py.bind_eq_ok.mp h
  have hmid : mid ≤ next := advances_checked _ _ _ _ _ _ hbody
  exact Nat.lt_of_lt_of_le (varintDecode_advances hlength) hmid

theorem reads_extension : Reads readExtension :=
  .bind (reads_unpackFrom 2) fun _ => .bind reads_opaque fun _ => .pure _

theorem readExtension_advances {buf : Bytes} {offset next : ℕ} {extension : ℕ × Bytes}
    (h : readExtension buf offset = .ok (extension, next)) : offset < next := by
  obtain ⟨⟨type, mid⟩, htype, h⟩ := Py.bind_eq_ok.mp h
  obtain ⟨⟨data, stop⟩, hdata, h⟩ := Py.bind_eq_ok.mp h
  obtain ⟨-, rfl⟩ := Prod.mk.inj (Except.ok.inj h)
  have hmid : mid = offset + 2 := unpackFrom_next htype
  have hstop : mid < stop := readOpaque_advances hdata
  change offset < stop
  omega

theorem reads_extensions : Reads readExtensions :=
  .bind reads_opaque fun raw =>
    .lift (all_failsWith reads_extension raw fun _ _ _ => readExtension_advances)

/-! ## Leaves, key packages and trees -/

theorem Credential.reads : Reads Credential.fromBytesAt :=
  .bind (reads_unpackFrom 2) fun _ => .bind reads_opaque fun _ => .pure _

theorem Capabilities.reads : Reads Capabilities.fromBytesAt := by
  have hvec : Reads readVarintVec :=
    .bind reads_varint fun _ => .bind (reads_slice _) fun _ => .pure _
  exact .bind hvec fun _ => .bind hvec fun _ => .bind hvec fun _ => .bind hvec fun _ =>
    .bind hvec fun _ => .pure _

theorem LeafNode.reads : Reads LeafNode.fromBytesAt := by
  have hblock : ∀ source, Reads (readSourceBlock source) := by
    intro source
    unfold readSourceBlock
    split_ifs
    · exact .bind (reads_unpackFrom 8) fun _ => .bind (reads_unpackFrom 8) fun _ => .pure _
    · exact .bind reads_opaque fun _ => .pure _
    · exact .pure _
  exact .bind reads_opaque fun _ => .bind reads_opaque fun _ => .bind Credential.reads fun _ =>
    .bind Capabilities.reads fun _ => .bind reads_u8 fun _ => .bind (hblock _) fun _ =>
    .bind reads_extensions fun _ => .bind reads_opaque fun _ => .pure _

theorem KeyPackage.reads : Reads KeyPackage.fromBytesAt :=
  .bind (reads_unpackFrom 2) fun _ => .bind (require_reads _) fun _ =>
    .bind (reads_unpackFrom 2) fun _ =>
    .bind (require_reads _) fun _ => .bind reads_opaque fun _ => .bind LeafNode.reads fun _ =>
    .bind reads_extensions fun _ => .bind reads_opaque fun _ => .pure _

theorem ParentNode.reads : Reads ParentNode.fromBytesAt :=
  .bind reads_opaque fun _ => .bind reads_opaque fun _ => .bind reads_opaque fun _ => .pure _

namespace RatchetTree

theorem reads_node : Reads readNode :=
  .bind reads_u8 fun _ => .ite (.bind LeafNode.reads fun _ => .pure _) <|
    .ite (.bind ParentNode.reads fun _ => .pure _) (.lift (error trivial))

/-- An entry is read otherwise when the byte after it is missing, but it is read. -/
theorem readEntry_failsIn : FailsIn DecodeFault readEntry := by
  intro raw i
  refine (reads_u8.fails raw i).bind fun read => ?_
  dsimp only
  split_ifs
  · exact ok _
  · exact ok _
  · exact (reads_node.fails raw _).bind fun _ => ok _
  · exact error trivial

theorem parse_failsWith (raw : Bytes) : (parse raw).FailsWith DecodeFault :=
  (readEntry_failsIn.all raw fun _ _ _ h => (readEntry_spec h).1).bind fun _ => ok _

theorem fromBytes_failsWith (data : Bytes) : (fromBytes data).FailsWith DecodeFault :=
  (run_failsWith reads_opaque data).bind fun raw => parse_failsWith raw

end RatchetTree

/-! ## Messages -/

theorem GroupContext.reads : Reads GroupContext.fromBytesAt :=
  .bind (reads_unpackFrom 2) fun _ => .bind (require_reads _) fun _ =>
    .bind (reads_unpackFrom 2) fun _ =>
    .bind (require_reads _) fun _ => .bind reads_opaque fun _ => .bind (reads_unpackFrom 8) fun _ =>
    .bind reads_opaque fun _ => .bind reads_opaque fun _ => .bind reads_varint fun _ =>
    .bind (reads_slice _) fun _ => .pure _

theorem GroupInfo.reads : Reads GroupInfo.fromBytesAt :=
  .bind GroupContext.reads fun _ => .bind reads_varint fun _ => .bind (reads_slice _) fun _ =>
    .bind reads_opaque fun _ => .bind (.bind (reads_slice 4) fun _ => .pure _) fun _ =>
    .bind reads_opaque fun _ => .pure _

theorem HPKECiphertext.reads : Reads HPKECiphertext.fromBytesAt :=
  .bind reads_opaque fun _ => .bind reads_opaque fun _ => .pure _

theorem UpdatePathNode.reads : Reads UpdatePathNode.fromBytesAt :=
  .bind reads_opaque fun _ => .bind (reads_unpackFrom 4) fun n =>
    .bind (.times HPKECiphertext.reads n) fun _ => .pure _

theorem UpdatePath.reads : Reads UpdatePath.fromBytesAt :=
  .bind reads_opaque fun kpBytes => .bind (.lift (run_failsWith KeyPackage.reads kpBytes)) fun _ =>
    .bind (reads_unpackFrom 4) fun n => .bind (.times UpdatePathNode.reads n) fun _ => .pure _

theorem GroupUpdate.reads : Reads GroupUpdate.fromBytesAt := by
  have hsecret : Reads readSecret := .bind reads_opaque fun _ => .bind reads_opaque fun _ => .pure _
  have hpath : Reads readPath :=
    .bind reads_u8 fun _ => .ite (.bind reads_opaque32 fun upBytes =>
      .bind (.lift (run_failsWith UpdatePath.reads upBytes)) fun _ => .pure _) (.pure _)
  exact .bind (reads_unpackFrom 8) fun _ => .bind reads_opaque32 fun treeRaw =>
    .bind (.lift (RatchetTree.fromBytes_failsWith treeRaw)) fun _ =>
    .bind (reads_unpackFrom 4) fun n => .bind (.times hsecret n) fun _ =>
    .bind (reads_unpackFrom 4) fun _ => .bind hpath fun _ => .bind reads_opaque fun _ => .pure _

theorem FramedContent.reads : Reads FramedContent.fromBytesAt :=
  .bind reads_opaque fun _ => .bind (reads_unpackFrom 8) fun _ => .bind reads_u8 fun _ =>
    .bind (require_reads _) fun _ => .bind (reads_unpackFrom 4) fun _ => .bind reads_opaque fun _ =>
    .bind reads_u8 fun _ => .bind (require_reads _) fun _ => .bind reads_opaque32 fun _ => .pure _

theorem FramedContentAuthData.reads : Reads FramedContentAuthData.fromBytesAt :=
  .bind reads_opaque fun _ => .bind reads_opaque fun _ => .pure _

theorem PublicMessage.reads : Reads PublicMessage.fromBytesAt :=
  .bind reads_opaque32 fun contentBytes => .bind reads_opaque32 fun authBytes =>
    .bind reads_opaque fun _ =>
    .bind (.lift (run_failsWith FramedContent.reads contentBytes)) fun _ =>
    .bind (.lift (run_failsWith FramedContentAuthData.reads authBytes)) fun _ => .pure _

theorem MLSMessage.reads : Reads MLSMessage.fromBytesAt :=
  .bind (reads_unpackFrom 2) fun _ => .bind (require_reads _) fun _ =>
    .bind (reads_unpackFrom 2) fun _ =>
    .bind reads_opaque32 fun _ => .pure _

/-! ## Welcome -/

theorem Strategy.reads_vector (strategy : Strategy) : Reads strategy.decodeVector := by
  have hlength : Reads strategy.readLength := by
    cases strategy with
    | standard => exact reads_varint
    | cisco => exact reads_unpackFrom 2
    | mlspp => exact reads_unpackFrom 4
  exact .bind hlength fun _ => .bind (reads_checked _ _) fun _ => .pure _

namespace EncryptedGroupSecrets

theorem reads : Reads fromBytes :=
  .bind reads_opaque fun _ => .bind reads_opaque fun _ => .bind reads_opaque fun _ => .pure _

theorem fromBytes_advances {buf : Bytes} {offset next : ℕ} {secrets : EncryptedGroupSecrets}
    (h : fromBytes buf offset = .ok (secrets, next)) : offset < next := by
  obtain ⟨⟨newMember, mid⟩, hmember, h⟩ := Py.bind_eq_ok.mp h
  have hrest : Reads (do
      let kemOutput ← readOpaque
      let ciphertext ← readOpaque
      pure (⟨newMember, kemOutput, ciphertext⟩ : EncryptedGroupSecrets)) :=
    .bind reads_opaque fun _ => .bind reads_opaque fun _ => .pure _
  exact Nat.lt_of_lt_of_le (readOpaque_advances hmember) (hrest.advances _ _ _ _ h)

end EncryptedGroupSecrets

theorem DialectWelcome.reads_body (strategy : Strategy) : Reads (readBody strategy) :=
  .bind (reads_unpackFrom 2) fun _ => .bind strategy.reads_vector fun _ =>
    .bind (.lift (all_failsWith EncryptedGroupSecrets.reads _ fun _ _ _ =>
      EncryptedGroupSecrets.fromBytes_advances)) fun _ =>
    .bind strategy.reads_vector fun _ => .pure _

end PureMls
