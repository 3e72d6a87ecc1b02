import PureMls.Verification.Bounds

/-! # Which structures lie inside the buffer

Leaves, key packages and contexts, read from a buffer that is long enough for some of their
lengths only. -/

namespace PureMls

/-! ## Version and cipher suite -/

/-- The two integers in front of a structure. -/
def headedForm {α : Type} (G : Form α) : Form α :=
  (uintForm 2).seq fun version => (checkForm (version = 0x0001)).seq fun _ =>
    (uintForm 2).seq fun suite => (checkForm (suite = 0x0001)).seq fun _ => G

theorem lift_next {α : Type} {x : Py α} {buf : Bytes} {offset next : ℕ} {a : α}
    (h : Decoder.lift x buf offset = .ok (a, next)) : next = offset := by
  obtain ⟨a, -, hnext⟩ := Py.bind_eq_ok.mp h
  cases hnext
  rfl

/-- After the header the structure starts four bytes further. -/
theorem spelledIff_headed {α : Type} {versionMessage suiteMessage : ℕ → String} {d : Decoder α}
    {G : Form α} {C : Bytes → ℕ → Prop} (h : SpelledIff d G C) : SpelledIff (do
      let version ← readU16
      Decoder.lift (Py.require (version = 0x0001) (.valueError (versionMessage version)))
      let suite ← readU16
      Decoder.lift (Py.require (suite = 0x0001) (.valueError (suiteMessage suite)))
      d) (headedForm G) fun buf offset => C buf (offset + 4) := by
  have hraw := SpelledIff.bind_after (spelledIff_uint 2) fun version =>
    .bind_after (spelledIff_check (version = 0x0001) (versionMessage version)) fun _ =>
    .bind_after (spelledIff_uint 2) fun suite =>
    .bind_after (spelledIff_check (suite = 0x0001) (suiteMessage suite)) fun _ => h
  refine hraw.congr (fun _ _ => Iff.rfl) fun buf offset x next hle hread => ?_
  constructor
  · intro hcond
    obtain ⟨⟨version, a⟩, hversion, hread⟩ := Py.bind_eq_ok.mp hread
    obtain ⟨⟨u, b⟩, hcheck, hread⟩ := Py.bind_eq_ok.mp hread
    obtain ⟨⟨suite, c⟩, hsuite, hread⟩ := Py.bind_eq_ok.mp hread
    obtain ⟨⟨u', e⟩, hcheck', -⟩ := Py.bind_eq_ok.mp hread
    have hend := hcond version a hversion u b hcheck suite c hsuite u' e hcheck'
    obtain rfl : a = offset + 2 := unpackFrom_next hversion
    obtain rfl : b = offset + 2 := lift_next hcheck
    obtain rfl : c = offset + 2 + 2 := unpackFrom_next hsuite
    obtain rfl : e = offset + 2 + 2 := lift_next hcheck'
    exact hend
  · intro hcond version a hversion u b hcheck suite c hsuite u' e hcheck'
    obtain rfl := unpackFrom_next hversion
    obtain rfl := lift_next hcheck
    obtain rfl := unpackFrom_next hsuite
    obtain rfl := lift_next hcheck'
    exact hcond

/-! ## LeafNode and KeyPackage -/

namespace LeafNode

def sourceForm (source : ℕ) : Form (Option (ℕ × ℕ) × Option Bytes) :=
  if source = leafNodeSourceKeyPackage then
    (uintForm 8).seq fun nb => (uintForm 8).map fun na => (some (nb, na), none)
  else if source = leafNodeSourceCommit then opaqueForm.map fun parentHash =>
    (none, some parentHash)
  else .nothing (none, none)

theorem spelledIff_source (source : ℕ) :
    SpelledIff (readSourceBlock source) (sourceForm source) Always := by
  unfold readSourceBlock sourceForm
  split_ifs
  · exact .bind_before (spelledIff_uint 8) fun _ => .bind_pure (spelledIff_uint 8) _
  · exact .bind_pure spelledIff_opaqueV _
  · exact spelledIff_pure _

def form : Form LeafNode :=
  opaqueForm.seq fun encryptionKey => opaqueForm.seq fun signatureKey =>
    Credential.form.seq fun credential =>
    Capabilities.form.seq fun capabilities => (uintForm 1).seq fun source =>
    (sourceForm source).seq fun block => extensionsForm.seq fun extensions =>
      opaqueForm.map fun signature =>
    ⟨encryptionKey, signatureKey, credential, capabilities, source, block.1, block.2, extensions,
      signature⟩

/-- The vectors of the capabilities, after both keys and the credential, end inside the buffer. -/
def CapabilitiesInside (buf : Bytes) (offset : ℕ) : Prop :=
  ∀ encryptionKey a, readOpaque buf offset = .ok (encryptionKey, a) →
    ∀ signatureKey b, readOpaque buf a = .ok (signatureKey, b) →
      ∀ credential c, Credential.fromBytesAt buf b = .ok (credential, c) →
        Capabilities.VectorsInside buf 5 c

theorem spelledIff : SpelledIff fromBytesAt form CapabilitiesInside :=
  .bind_after spelledIff_opaqueV fun _ => .bind_after spelledIff_opaqueV fun _ =>
    .bind_after Credential.spelledIff fun _ => .bind_before Capabilities.spelledIff fun _ =>
    .bind_before spelledIff_u8 fun _ => .bind_before (spelledIff_source _) fun _ =>
    .bind_before spelledIff_extensions fun _ => .bind_pure spelledIff_opaqueV _

end LeafNode

namespace KeyPackage

def form : Form KeyPackage :=
  headedForm <| opaqueForm.seq fun initKeyPub => LeafNode.form.seq fun leafNode =>
    extensionsForm.seq fun _ =>
    opaqueForm.map fun signature => ⟨leafNode, initKeyPub, signature⟩

/-- The same of the leaf, after the header and the init key. -/
def CapabilitiesInside (buf : Bytes) (offset : ℕ) : Prop :=
  ∀ initKeyPub a, readOpaque buf (offset + 4) = .ok (initKeyPub, a) →
    LeafNode.CapabilitiesInside buf a

theorem spelledIff : SpelledIff fromBytesAt form CapabilitiesInside :=
  spelledIff_headed <| .bind_after spelledIff_opaqueV fun _ =>
    .bind_before LeafNode.spelledIff fun _ =>
    .bind_before spelledIff_extensions fun _ => .bind_pure spelledIff_opaqueV _

end KeyPackage

/-! ## ParentNode -/

namespace ParentNode

def form : Form ParentNode :=
  opaqueForm.seq fun publicKey => opaqueForm.seq fun parentHash =>
    (vectorForm Rfc.VarintForm (uintForm 4)).map
    fun unmergedLeaves => ⟨publicKey, parentHash, unmergedLeaves⟩

/-- The unmerged leaves, after key and hash, are whole integers. -/
def UnmergedWhole (buf : Bytes) (offset : ℕ) : Prop :=
  ∀ publicKey a, readOpaque buf offset = .ok (publicKey, a) →
    ∀ parentHash b, readOpaque buf a = .ok (parentHash, b) →
      ∀ unmerged c, readOpaque buf b = .ok (unmerged, c) → unmerged.length % 4 = 0

/-- An unmerged list is read to its last full integer. -/
theorem spelledIff_unmerged : SpelledIff (do
      let unmergedRaw ← readOpaque
      pure ((chunks 4 unmergedRaw).map beNat)) (vectorForm Rfc.VarintForm
        (uintForm 4)) fun buf offset =>
    ∀ unmerged c, readOpaque buf offset = .ok (unmerged, c) → unmerged.length % 4 = 0 := by
  refine .nested (x := fun raw => .ok ((chunks 4 raw).map beNat)) spelledIff_opaqueV ?_ ?_
  · intro raw xs hitems
    exact congrArg Except.ok (chunks_of_items (by decide) hitems).1
  · intro raw xs hread
    cases hread
    constructor
    · exact fun hitems => (chunks_of_items (by decide) hitems).2
    · exact fun hlen => items_chunks (by decide) hlen

theorem spelledIff : SpelledIff fromBytesAt form UnmergedWhole :=
  .bind_after spelledIff_opaqueV fun _ => .bind_after spelledIff_opaqueV fun _ =>
    (SpelledIff.bind_pure spelledIff_unmerged _).reassoc

end ParentNode

/-! ## GroupContext -/

namespace GroupContext

def form : Form GroupContext :=
  headedForm <| opaqueForm.seq fun groupId => (uintForm 8).seq fun epoch =>
    opaqueForm.seq fun treeHash =>
    opaqueForm.seq fun cth => opaqueForm.map fun extensionsBytes =>
      ⟨groupId, epoch, treeHash, cth, extensionsBytes⟩

/-- The extensions, the last field, end inside the buffer. -/
def ExtensionsInside (buf : Bytes) (offset : ℕ) : Prop :=
  ∀ groupId a, readOpaque buf (offset + 4) = .ok (groupId, a) →
    ∀ epoch b, readU64 buf a = .ok (epoch, b) → ∀ treeHash c, readOpaque buf b = .ok (treeHash, c) →
      ∀ cth e, readOpaque buf c = .ok (cth, e) → ∀ extLen f, varintDecode buf e = .ok (extLen, f) →
        f + extLen ≤ buf.length

theorem spelledIff : SpelledIff fromBytesAt form ExtensionsInside :=
  spelledIff_headed <| .bind_after spelledIff_opaqueV fun _ =>
    .bind_after (spelledIff_uint 8) fun _ =>
    .bind_after spelledIff_opaqueV fun _ => .bind_after spelledIff_opaqueV fun _ =>
    (SpelledIff.bind_pure (spelledIff_sizedSlice spelledIff_varint) _).reassoc

end GroupContext

/-! ## PreSharedKeyID -/

namespace PreSharedKeyID

def form : Form PreSharedKeyID :=
  (uintForm 1).seq fun type =>
    if type = 1 then
      opaqueForm.seq fun pskId => opaqueForm.map fun nonce => ⟨type, pskId, nonce, 0, [], 0⟩
    else
      (uintForm 1).seq fun usage => opaqueForm.seq fun groupId => (uintForm 8).seq fun epoch =>
        opaqueForm.map fun nonce => ⟨type, [], nonce, usage, groupId, epoch⟩

theorem spelledIff : SpelledIff fromBytesAt form Always := by
  refine .bind_before spelledIff_u8 fun type => ?_
  split_ifs
  · exact .bind_before spelledIff_opaqueV fun _ => .bind_pure spelledIff_opaqueV _
  · exact .bind_before spelledIff_u8 fun _ => .bind_before spelledIff_opaqueV fun _ =>
      .bind_before (spelledIff_uint 8) fun _ => .bind_pure spelledIff_opaqueV _

end PreSharedKeyID

end PureMls
