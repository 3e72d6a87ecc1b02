import PureMls.Foundation.Fields
import PureMls.Verification.Streaming

/-! # Where the fields of a message are cut off

The decoders refuse a buffer that is too short with `IndexError` where they index it, with
`struct.error` where they unpack it, and with `ValueError` where they check a length. -/

namespace PureMls

/-! ## Primitives -/

namespace FitsAt

/-- The first byte of a VarInt and, in the two-byte form, the second. The four-byte form is
checked. -/
def varint : FitsAt := fun buf offset =>
  ∃ first, buf[offset]? = some first ∧ (first.toNat / 64 = 1 → offset + 1 < buf.length)

/-- The type of an extension and the length of its data. -/
def extension : FitsAt := (bytes 2).andThen readU16 fun _ => varint

def extensions : FitsAt := varint.andThen readOpaque fun raw _ _ => extension.each readExtension raw

end FitsAt

theorem byteAt_graceful_iff {buf : Bytes} {i : ℕ} : (byteAt buf i).Graceful ↔ i < buf.length := by
  unfold byteAt
  by_cases hi : i < buf.length
  · rw [List.getElem?_eq_getElem hi]
    exact iff_of_true (.ok _) hi
  · rw [List.getElem?_eq_none (by omega)]
    exact iff_of_false (Py.not_graceful_error (by rintro ⟨⟩)) hi

theorem gracefulIff_u8 : GracefulIff readU8 (.bytes 1) := fun _ _ =>
  (Py.graceful_bind_iff.trans (and_iff_left fun _ _ => .ok _)).trans byteAt_graceful_iff

theorem gracefulIff_unpackFrom (n : ℕ) : GracefulIff (unpackFrom n) (.bytes n) := by
  intro buf offset
  unfold unpackFrom
  split_ifs with h
  · exact iff_of_true (.ok _) h
  · exact iff_of_false (Py.not_graceful_error (by rintro ⟨⟩)) h

theorem gracefulIff_varint : GracefulIff varintDecode .varint := by
  intro buf offset
  unfold varintDecode
  rw [Py.graceful_bind_iff, byteAt_graceful_iff]
  by_cases hlt : offset < buf.length
  swap
  · refine iff_of_false (fun h => hlt h.1) ?_
    rintro ⟨first, hfirst, -⟩
    exact hlt (List.getElem?_eq_some_iff.mp hfirst).1
  have hget : buf[offset]? = some buf[offset] := List.getElem?_eq_getElem hlt
  have hbyte : byteAt buf offset = .ok buf[offset].toNat := by rw [byteAt, hget]
  have htag : (buf[offset].toNat >>> 6) &&& 0x3 = buf[offset].toNat / 64 := by
    have hb := buf[offset].toNat_lt
    rw [and_3, Nat.shiftRight_eq_div_pow, Nat.mod_eq_of_lt (by omega)]
  have hform : FitsAt.varint buf offset ↔
    (buf[offset].toNat / 64 = 1 → offset + 1 < buf.length) := by
    simp only [FitsAt.varint, hget, Option.some.injEq, exists_eq_left']
  rw [hform]
  refine (and_iff_right hlt).trans ?_
  simp only [hbyte, Except.ok.injEq, forall_eq', htag]
  split_ifs with h0 h1 h2
  · exact iff_of_true (.ok _) fun h => by omega
  · rw [Py.graceful_bind_iff, byteAt_graceful_iff]
    exact (and_iff_left fun _ _ => .ok _).trans ⟨fun h _ => h, fun h => h h1⟩
  · refine iff_of_true ?_ fun h => absurd h h1
    rw [Py.graceful_bind_iff]
    refine ⟨.require _, fun _ hlong => ?_⟩
    have hlen := Py.require_eq_ok.mp hlong
    refine Py.graceful_bind_iff.mpr ⟨byteAt_graceful_iff.mpr (by omega), fun _ _ => ?_⟩
    refine Py.graceful_bind_iff.mpr ⟨byteAt_graceful_iff.mpr (by omega), fun _ _ => ?_⟩
    exact Py.graceful_bind_iff.mpr ⟨byteAt_graceful_iff.mpr (by omega), fun _ _ => .ok _⟩
  · exact iff_of_true (.error (.valueError _)) fun h => absurd h h1

theorem gracefulIff_checked (length : ℕ) (message : ℕ → ℕ → String) :
    GracefulIff (readChecked length message) .always :=
  .of_graceful fun _ _ => Py.graceful_bind_iff.mpr ⟨.require _, fun _ _ => .ok _⟩

theorem gracefulIff_slice (length : ℕ) : GracefulIff (readSlice length) .always :=
  .of_graceful fun _ _ => .ok _

theorem gracefulIff_opaque : GracefulIff readOpaque .varint :=
  .bind_last gracefulIff_varint fun _ => gracefulIff_checked _ _

theorem gracefulIff_opaque32 : GracefulIff readOpaque32 (.bytes 4) :=
  .bind_last (gracefulIff_unpackFrom 4) fun _ => gracefulIff_checked _ _

theorem gracefulIff_extension : GracefulIff readExtension .extension :=
  .bind (gracefulIff_unpackFrom 2) fun _ => .bind_last gracefulIff_opaque fun _ => .pure _

theorem gracefulIff_extensions : GracefulIff readExtensions .extensions :=
  .bind gracefulIff_opaque fun raw =>
    .lift (GracefulIff.all gracefulIff_extension raw fun _ _ _ => readExtension_advances)

/-! ## Leaves, key packages and trees -/

open FitsAt

def Credential.fits : FitsAt := (bytes 2).andThen readU16 fun _ => varint

theorem Credential.gracefulIff : GracefulIff fromBytesAt fits :=
  .bind (gracefulIff_unpackFrom 2) fun _ => .bind_last gracefulIff_opaque fun _ => .pure _

/-- Five lengths of vectors, whose data is taken as it is. -/
def Capabilities.fits : FitsAt :=
  varint.andThen readVarintVec fun _ => varint.andThen readVarintVec fun _ =>
    varint.andThen readVarintVec fun _ => varint.andThen readVarintVec fun _ => varint

theorem Capabilities.gracefulIff : GracefulIff fromBytesAt fits := by
  have hvec : GracefulIff readVarintVec varint :=
    .bind_last gracefulIff_varint fun _ => .bind_last (gracefulIff_slice _) fun _ => .pure _
  exact .bind hvec fun _ => .bind hvec fun _ => .bind hvec fun _ => .bind hvec fun _ =>
    .bind_last hvec fun _ => .pure _

namespace LeafNode

def sourceFits (source : ℕ) : FitsAt :=
  if source = leafNodeSourceKeyPackage then (bytes 8).andThen readU64 fun _ => bytes 8
  else if source = leafNodeSourceCommit then varint
  else always

def fits : FitsAt :=
  varint.andThen readOpaque fun _ => varint.andThen readOpaque fun _ =>
    Credential.fits.andThen Credential.fromBytesAt fun _ =>
      Capabilities.fits.andThen Capabilities.fromBytesAt fun _ =>
        (bytes 1).andThen readU8 fun source =>
          (sourceFits source).andThen (readSourceBlock source) fun _ =>
          FitsAt.extensions.andThen readExtensions fun _ => varint

theorem gracefulIff : GracefulIff fromBytesAt fits := by
  have hblock : ∀ source, GracefulIff (readSourceBlock source) (sourceFits source) := fun _ =>
    .ite (.bind (gracefulIff_unpackFrom 8) fun _ => .bind_last (gracefulIff_unpackFrom 8) fun _ =>
      .pure _)
      (.ite (.bind_last gracefulIff_opaque fun _ => .pure _) (.pure _))
  exact .bind gracefulIff_opaque fun _ => .bind gracefulIff_opaque fun _ =>
    .bind Credential.gracefulIff fun _ => .bind Capabilities.gracefulIff fun _ =>
      .bind gracefulIff_u8 fun source => .bind (hblock source) fun _ =>
        .bind gracefulIff_extensions fun _ => .bind_last gracefulIff_opaque fun _ => .pure _

end LeafNode

def KeyPackage.fits : FitsAt :=
  (bytes 2).andThen readU16 fun version => given (version = 0x0001) <|
    (bytes 2).andThen readU16 fun suite => given (suite = 0x0001) <|
      varint.andThen readOpaque fun _ => LeafNode.fits.andThen LeafNode.fromBytesAt fun _ =>
        extensions.andThen readExtensions fun _ => varint

theorem KeyPackage.gracefulIff : GracefulIff fromBytesAt fits :=
  .bind (gracefulIff_unpackFrom 2) fun _ => .bind_check <| .bind (gracefulIff_unpackFrom 2) fun _ =>
    .bind_check <| .bind gracefulIff_opaque fun _ => .bind LeafNode.gracefulIff fun _ =>
      .bind gracefulIff_extensions fun _ => .bind_last gracefulIff_opaque fun _ => .pure _

def ParentNode.fits : FitsAt :=
  varint.andThen readOpaque fun _ => varint.andThen readOpaque fun _ => varint

theorem ParentNode.gracefulIff : GracefulIff fromBytesAt fits :=
  .bind gracefulIff_opaque fun _ => .bind gracefulIff_opaque fun _ =>
    .bind_last gracefulIff_opaque fun _ => .pure _

namespace RatchetTree

def nodeFits : FitsAt :=
  (bytes 1).andThen readU8 fun nodeType =>
    if nodeType = 0x01 then LeafNode.fits else if nodeType = 0x02 then ParentNode.fits else always

theorem gracefulIff_node : GracefulIff readNode nodeFits :=
  .bind gracefulIff_u8 fun _ => .ite (.bind_last LeafNode.gracefulIff fun _ => .pure _) <|
    .ite (.bind_last ParentNode.gracefulIff fun _ => .pure _) <|
      .of_graceful fun _ _ => Py.graceful_bind_iff.mpr ⟨.error (.valueError _), fun _ _ => .ok _⟩

/-- A presence byte, and a node after a presence byte 1 unless the buffer ends there. -/
def entryFits : FitsAt := fun raw i =>
  i < raw.length ∧ (raw[i]? = some 0x01 → i + 1 < raw.length → nodeFits raw (i + 1))

theorem gracefulIff_entry : GracefulIff readEntry entryFits := by
  intro raw i
  by_cases hlt : i < raw.length
  swap
  · refine iff_of_false (fun h => hlt ?_) fun h => hlt h.1
    exact (gracefulIff_u8 raw i).mp (Py.graceful_bind_iff.mp h).1
  have hget : raw[i]? = some raw[i] := List.getElem?_eq_getElem hlt
  have hread : readU8 raw i = .ok (raw[i].toNat, i + 1) := by
    rw [readU8, byteAt, hget]
    rfl
  refine Iff.trans ?_ (and_iff_right hlt).symm
  rw [readEntry, hread, Py.ok_bind, hget, Option.some.injEq]
  dsimp only
  split_ifs with hblank hone hend
  · exact iff_of_true (.ok _) fun h => absurd (congrArg UInt8.toNat h) (by rw [hblank]; decide)
  · exact iff_of_true (.ok _) fun _ => by omega
  · have hpresent : raw[i] = 0x01 := UInt8.toNat_inj.mp hone
    refine (Py.graceful_bind_iff.trans (and_iff_left fun _ _ => .ok _)).trans ?_
    exact (gracefulIff_node raw (i + 1)).trans ⟨fun h _ _ => h, fun h => h hpresent (by omega)⟩
  · exact iff_of_true (.error (.valueError _)) fun h => absurd (congrArg UInt8.toNat h) hone

def fits : FitsAt := varint.andThen readOpaque fun raw _ _ => entryFits.each readEntry raw

theorem parse_graceful_iff (raw : Bytes) : (parse raw).Graceful ↔ entryFits.each readEntry raw :=
  (Py.graceful_bind_iff.trans (and_iff_left fun _ _ => .ok _)).trans
    (GracefulIff.all gracefulIff_entry raw fun _ _ _ h => (readEntry_spec h).1)

theorem fromBytes_graceful_iff (data : Bytes) : (fromBytes data).Graceful ↔ fits data 0 := by
  refine Py.graceful_bind_iff.trans (and_congr (GracefulIff.run gracefulIff_opaque data) ?_)
  constructor
  · intro h raw next hread
    exact (parse_graceful_iff raw).mp (h raw (by rw [Decoder.run, hread]; rfl))
  · intro h raw hread
    obtain ⟨read, hfirst, rfl⟩ := Py.map_eq_ok.mp hread
    exact (parse_graceful_iff _).mpr (h read.1 read.2 hfirst)

end RatchetTree

/-! ## Commits -/

def HPKECiphertext.fits : FitsAt := varint.andThen readOpaque fun _ => varint

theorem HPKECiphertext.gracefulIff : GracefulIff fromBytesAt fits :=
  .bind gracefulIff_opaque fun _ => .bind_last gracefulIff_opaque fun _ => .pure _

def UpdatePathNode.fits : FitsAt :=
  varint.andThen readOpaque fun _ => (bytes 4).andThen readU32 fun n =>
    HPKECiphertext.fits.times HPKECiphertext.fromBytesAt n

theorem UpdatePathNode.gracefulIff : GracefulIff fromBytesAt fits :=
  .bind gracefulIff_opaque fun _ => .bind (gracefulIff_unpackFrom 4) fun n =>
    .bind_last (.times HPKECiphertext.gracefulIff n) fun _ => .pure _

def UpdatePath.fits : FitsAt :=
  varint.andThen readOpaque fun kpBytes =>
    (KeyPackage.fits.within kpBytes).andThen (Decoder.lift (KeyPackage.fromBytes kpBytes)) fun _ =>
      (bytes 4).andThen readU32 fun n => UpdatePathNode.fits.times UpdatePathNode.fromBytesAt n

theorem UpdatePath.gracefulIff : GracefulIff fromBytesAt fits :=
  .bind gracefulIff_opaque fun kpBytes => .bind (.within KeyPackage.gracefulIff kpBytes) fun _ =>
    .bind (gracefulIff_unpackFrom 4) fun n =>
      .bind_last (.times UpdatePathNode.gracefulIff n) fun _ => .pure _

namespace GroupUpdate

def secretFits : FitsAt := varint.andThen readOpaque fun _ => varint

def pathFits : FitsAt :=
  (bytes 1).andThen readU8 fun hasPath => given (hasPath ≠ 0) <|
    (bytes 4).andThen readOpaque32 fun upBytes => UpdatePath.fits.within upBytes

def fits : FitsAt :=
  (bytes 8).andThen readU64 fun _ => (bytes 4).andThen readOpaque32 fun treeRaw =>
    (RatchetTree.fits.within treeRaw).andThen (Decoder.lift (RatchetTree.fromBytes treeRaw))
      fun _ =>
      (bytes 4).andThen readU32 fun count =>
        (secretFits.times readSecret count).andThen (readSecret.times count)
        fun _ => (bytes 4).andThen readU32 fun _ => pathFits.andThen readPath fun _ => varint

theorem gracefulIff_secret : GracefulIff readSecret secretFits :=
  .bind gracefulIff_opaque fun _ => .bind_last gracefulIff_opaque fun _ => .pure _

theorem gracefulIff_path : GracefulIff readPath pathFits :=
  .bind gracefulIff_u8 fun hasPath => by
    by_cases h : hasPath ≠ 0
    · simp only [if_pos h]
      have hpath : GracefulIff _
          ((bytes 4).andThen readOpaque32 fun upBytes => UpdatePath.fits.within upBytes) :=
        .bind gracefulIff_opaque32 fun upBytes =>
          .bind_last (.within UpdatePath.gracefulIff upBytes) fun path => .pure (some path)
      exact fun buf offset => (hpath buf offset).trans ⟨fun hfits _ => hfits, fun hfits => hfits h⟩
    · simp only [if_neg h]
      exact fun buf offset => iff_of_true (.ok _) fun hpath => absurd hpath h

theorem gracefulIff : GracefulIff fromBytesAt fits :=
  .bind (gracefulIff_unpackFrom 8) fun _ => .bind gracefulIff_opaque32 fun treeRaw =>
    .bind (.lift (RatchetTree.fromBytes_graceful_iff treeRaw)) fun _ =>
      .bind (gracefulIff_unpackFrom 4) fun count => .bind (.times gracefulIff_secret count) fun _ =>
        .bind (gracefulIff_unpackFrom 4) fun _ => .bind gracefulIff_path fun _ =>
          .bind_last gracefulIff_opaque fun _ => .pure _

end GroupUpdate

/-! ## Envelopes -/

def FramedContent.fits : FitsAt :=
  varint.andThen readOpaque fun _ => (bytes 8).andThen readU64 fun _ =>
    (bytes 1).andThen readU8 fun senderType => given (senderType = 0x01) <|
      (bytes 4).andThen readU32 fun _ => varint.andThen readOpaque fun _ =>
        (bytes 1).andThen readU8 fun contentType => given (contentType = 0x03) (bytes 4)

theorem FramedContent.gracefulIff : GracefulIff fromBytesAt fits :=
  .bind gracefulIff_opaque fun _ => .bind (gracefulIff_unpackFrom 8) fun _ =>
    .bind gracefulIff_u8 fun _ =>
    .bind_check <| .bind (gracefulIff_unpackFrom 4) fun _ => .bind gracefulIff_opaque fun _ =>
      .bind gracefulIff_u8 fun _ => .bind_check <| .bind_last gracefulIff_opaque32 fun _ => .pure _

def FramedContentAuthData.fits : FitsAt := varint.andThen readOpaque fun _ => varint

theorem FramedContentAuthData.gracefulIff : GracefulIff fromBytesAt fits :=
  .bind gracefulIff_opaque fun _ => .bind_last gracefulIff_opaque fun _ => .pure _

def PublicMessage.fits : FitsAt :=
  (bytes 4).andThen readOpaque32 fun contentBytes => (bytes 4).andThen readOpaque32 fun authBytes =>
    varint.andThen readOpaque fun _ =>
      (FramedContent.fits.within contentBytes).andThen
        (Decoder.lift (FramedContent.fromBytes contentBytes))
        fun _ => FramedContentAuthData.fits.within authBytes

theorem PublicMessage.gracefulIff : GracefulIff fromBytesAt fits :=
  .bind gracefulIff_opaque32 fun contentBytes => .bind gracefulIff_opaque32 fun authBytes =>
    .bind gracefulIff_opaque fun _ =>
      .bind (.within FramedContent.gracefulIff contentBytes) fun _ =>
      .bind_last (.within FramedContentAuthData.gracefulIff authBytes) fun _ => .pure _

def MLSMessage.fits : FitsAt :=
  (bytes 2).andThen readU16 fun version => given (version = 0x0001) <|
    (bytes 2).andThen readU16 fun _ => bytes 4

theorem MLSMessage.gracefulIff : GracefulIff fromBytesAt fits :=
  .bind (gracefulIff_unpackFrom 2) fun _ => .bind_check <| .bind (gracefulIff_unpackFrom 2) fun _ =>
    .bind_last gracefulIff_opaque32 fun _ => .pure _

/-! ## Welcome -/

namespace Strategy

def lengthFits : Strategy → FitsAt
  | standard => varint
  | cisco => bytes 2
  | mlspp => bytes 4

theorem gracefulIff_vector (strategy : Strategy) :
    GracefulIff strategy.decodeVector strategy.lengthFits := by
  have hlength : GracefulIff strategy.readLength strategy.lengthFits := by
    cases strategy with
    | standard => exact gracefulIff_varint
    | cisco => exact gracefulIff_unpackFrom 2
    | mlspp => exact gracefulIff_unpackFrom 4
  exact .bind_last hlength fun _ => .bind_last (gracefulIff_checked _ _) fun _ => .pure _

end Strategy

def EncryptedGroupSecrets.fits : FitsAt :=
  varint.andThen readOpaque fun _ => varint.andThen readOpaque fun _ => varint

theorem EncryptedGroupSecrets.gracefulIff : GracefulIff fromBytes fits :=
  .bind gracefulIff_opaque fun _ => .bind gracefulIff_opaque fun _ =>
    .bind_last gracefulIff_opaque fun _ => .pure _

namespace DialectWelcome

/-- What follows the header. -/
def bodyFits (strategy : Strategy) : FitsAt :=
  (bytes 2).andThen readU16 fun _ => strategy.lengthFits.andThen strategy.decodeVector fun egsVec =>
    FitsAt.andThen
      (fun _ _ => EncryptedGroupSecrets.fits.each EncryptedGroupSecrets.fromBytes (egsVec.headD []))
      (Decoder.lift (EncryptedGroupSecrets.fromBytes.all (egsVec.headD []))) fun _ =>
        strategy.lengthFits

theorem gracefulIff_body (strategy : Strategy) :
    GracefulIff (readBody strategy) (bodyFits strategy) :=
  .bind (gracefulIff_unpackFrom 2) fun _ => .bind strategy.gracefulIff_vector fun _ =>
    .bind (.lift (GracefulIff.all EncryptedGroupSecrets.gracefulIff _ fun _ _ _ =>
      EncryptedGroupSecrets.fromBytes_advances)) fun _ =>
        .bind_last strategy.gracefulIff_vector fun _ => .pure _

end DialectWelcome

end PureMls
