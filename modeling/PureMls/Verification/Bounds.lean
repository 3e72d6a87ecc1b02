import PureMls.Model.Dialects
import PureMls.Verification.Spellings

/-! # What the streaming decoders read lies inside the buffer

The forms of every structure, as the lengths that are declared in it demand, and where the
decoders that do not check all of them read past the end. -/

namespace PureMls

/-! ## Primitives -/

/-- `opaque value<V>` -/
abbrev opaqueForm : Form Bytes := sizedForm Rfc.VarintForm

/-- A condition on what was read before. -/
def checkForm (condition : Prop) : Form Unit := fun enc _ => enc = [] ∧ condition

/-- A vector that is filled by its elements. -/
def vectorForm {α : Type} (size : Form ℕ) (G : Form α) : Form (List α) := fun enc xs =>
  ∃ raw, sizedForm size enc raw ∧ G.items raw xs

theorem spelledIff_uint (n : ℕ) : SpelledIff (unpackFrom n) (uintForm n) Always := by
  refine .of_spelled (spelled_unpackFrom n) ?_
  rintro enc v ⟨hlt, rfl⟩
  exact readsAs_unpackFrom (structPack_eq_ok.mpr ⟨hlt, rfl⟩)

theorem spelledIff_u8 : SpelledIff readU8 (uintForm 1) Always := by
  refine .of_spelled spelled_u8 ?_
  rintro enc v ⟨hlt, rfl⟩
  exact readsAs_u8 (structPack_eq_ok.mpr ⟨hlt, rfl⟩)

theorem spelledIff_varint : SpelledIff varintDecode Rfc.VarintForm Always :=
  .of_spelled spelled_varint fun _ _ => readsAs_varintForm

theorem spelledIff_sized {readLength : Decoder ℕ} {size : Form ℕ}
    (h : SpelledIff readLength size Always) (message : ℕ → ℕ → ℕ → String) :
    SpelledIff (readLength >>= fun length => readChecked length (message length))
      (sizedForm size) Always := by
  refine .of_spelled (spelled_sized h.spelled message) ?_
  rintro enc data ⟨head, hhead, rfl⟩
  exact (h.reads head data.length hhead).bind readsAs_checked

theorem spelledIff_opaqueV : SpelledIff readOpaque opaqueForm Always :=
  spelledIff_sized spelledIff_varint _

theorem spelledIff_check (condition : Prop) [Decidable condition] (message : String) :
    SpelledIff (Decoder.lift (Py.require condition (.valueError message)))
      (checkForm condition) Always := by
  refine .of_spelled (.lift fun _ h => ⟨rfl, Py.require_eq_ok.mp h⟩) ?_
  rintro enc u ⟨rfl, hcondition⟩
  exact .lift (Py.require_of _ hcondition)

theorem spelledIff_pure {α : Type} (x : α) :
    SpelledIff (pure x : Decoder α) (.nothing x) Always := by
  refine .of_spelled (.pure x) ?_
  rintro enc y ⟨rfl, rfl⟩
  exact .pure _

/-- A slice that is not checked is as long as it should be where it ends inside the buffer. -/
theorem spelledIff_slice (length : ℕ) : SpelledIff (readSlice length)
    (fun enc data => enc = data ∧ data.length = length) fun buf offset =>
    offset + length ≤ buf.length where
  reads := by
    rintro enc data ⟨rfl, rfl⟩
    exact readsAs_slice
  inside := by
    intro buf offset data next hle hread
    cases hread
    constructor
    · exact fun h => h.bounded
    · intro hend
      refine ⟨Nat.le_add_right _ _, hend, rfl, ?_⟩
      rw [slice, List.length_take, List.length_drop]
      omega

/-- The same of a slice whose length stands before it. -/
theorem spelledIff_sizedSlice {readLength : Decoder ℕ} {size : Form ℕ}
    (h : SpelledIff readLength size Always) :
    SpelledIff (readLength >>= readSlice) (sizedForm size) fun buf offset =>
      ∀ length mid, readLength buf offset = .ok (length, mid) → mid + length ≤ buf.length := by
  refine (SpelledIff.bind_after h spelledIff_slice).congr (fun enc data => ?_) fun _ _ _ _ _ _ =>
    Iff.rfl
  constructor
  · rintro ⟨head, tail, length, rfl, hhead, rfl, rfl⟩
    exact ⟨head, hhead, rfl⟩
  · rintro ⟨head, hhead, rfl⟩
    exact ⟨head, data, data.length, rfl, hhead, rfl, rfl⟩

/-! ## Vectors of integers -/

theorem exists_chunks {n : ℕ} {raw : Bytes} (h : raw.length % n = 0) :
    ∃ encs : List Bytes, raw = encs.flatten ∧ ∀ enc ∈ encs, enc.length = n := by
  obtain ⟨k, hk⟩ := Nat.dvd_of_mod_eq_zero h
  induction k generalizing raw with
  | zero => exact ⟨[], List.length_eq_zero_iff.mp hk, by simp⟩
  | succ k ih =>
      have hlen : (raw.drop n).length = n * k := by
        rw [List.length_drop, hk, Nat.mul_succ, Nat.add_sub_cancel]
      obtain ⟨encs, hrest, hall⟩ := ih (by rw [hlen, Nat.mul_mod_right]) hlen
      refine ⟨raw.take n :: encs, ?_, ?_⟩
      · rw [List.flatten_cons, ← hrest, List.take_append_drop]
      · have hfirst : (raw.take n).length = n := by
          rw [List.length_take, hk, Nat.mul_succ]
          omega
        exact List.forall_mem_cons.mpr ⟨hfirst, hall⟩

/-- The integers of a buffer that they fill. -/
theorem items_chunks {n : ℕ} (hn : 0 < n) {raw : Bytes} (h : raw.length % n = 0) :
    (uintForm n).items raw ((chunks n raw).map beNat) := by
  obtain ⟨encs, rfl, hall⟩ := exists_chunks h
  rw [chunks_flatten hn hall]
  refine ⟨encs, rfl, ?_⟩
  clear h
  induction encs with
  | nil => exact .nil
  | cons enc encs ih =>
      obtain ⟨hlen, hrest⟩ := List.forall_mem_cons.mp hall
      have hlt := beNat_lt enc
      have hbytes := beBytes_beNat enc
      rw [hlen] at hlt hbytes
      exact .cons ⟨hlt, hbytes.symm⟩ (ih hrest)

theorem chunks_of_items {n : ℕ} (hn : 0 < n) {raw : Bytes} {xs : List ℕ}
    (h : (uintForm n).items raw xs) : (chunks n raw).map beNat = xs ∧ raw.length % n = 0 := by
  obtain ⟨encs, rfl, hall⟩ := h
  have hlen : ∀ enc ∈ encs, enc.length = n := by
    clear hn
    induction hall with
    | nil => simp
    | cons hx _ ih =>
        obtain ⟨-, rfl⟩ := hx
        exact List.forall_mem_cons.mpr ⟨length_beBytes _ _, ih⟩
  rw [chunks_flatten hn hlen]
  clear hlen
  induction hall with
  | nil => simp
  | cons hx _ ih =>
      obtain ⟨hlt, rfl⟩ := hx
      rw [List.map_cons, beNat_beBytes hlt, ih.1, List.flatten_cons, List.length_append,
        length_beBytes, Nat.add_mod_left]
      exact ⟨rfl, ih.2⟩

/-! ## Extensions, credentials and capabilities -/

def extensionForm : Form (ℕ × Bytes) :=
  (uintForm 2).seq fun type => opaqueForm.map fun data => (type, data)

theorem spelledIff_extension : SpelledIff readExtension extensionForm Always :=
  .bind_before (spelledIff_uint 2) fun _ => .bind_pure spelledIff_opaqueV _

theorem extensionForm_ne_nil {enc : Bytes} {extension : ℕ × Bytes}
    (h : extensionForm enc extension) : enc ≠ [] := by
  obtain ⟨head, tail, type, rfl, ⟨-, rfl⟩, -⟩ := h
  simp [beBytes]

abbrev extensionsForm : Form (List (ℕ × Bytes)) := vectorForm Rfc.VarintForm extensionForm

theorem spelledIff_extensions : SpelledIff readExtensions extensionsForm Always :=
  (SpelledIff.nested spelledIff_opaqueV (x := fun raw => readExtension.all raw)
    (fun _ _ h => spelledIff_extension.all_reads (fun _ _ => extensionForm_ne_nil) h)
    (fun _ _ h => spelledIff_extension.all_inside h)).congr (fun _ _ => Iff.rfl)
    fun _ _ _ _ _ _ => iff_true_intro fun _ _ _ _ _ _ => trivial

namespace Credential

def form : Form Credential :=
  (uintForm 2).seq fun type => opaqueForm.map fun identity => ⟨identity, type⟩

theorem spelledIff : SpelledIff fromBytesAt form Always :=
  .bind_before (spelledIff_uint 2) fun _ => .bind_pure spelledIff_opaqueV _

end Credential

namespace Capabilities

abbrev vecForm : Form (List ℕ) := vectorForm Rfc.VarintForm (uintForm 2)

def form : Form Capabilities :=
  vecForm.seq fun versions => vecForm.seq fun ciphersuites => vecForm.seq fun extensions =>
    vecForm.seq fun proposals => vecForm.seq fun credentials =>
    .nothing ⟨versions, ciphersuites, extensions, proposals, credentials⟩

/-- `n` vectors one after the other, each of an even length that ends inside the buffer. -/
def VectorsInside (buf : Bytes) : ℕ → ℕ → Prop
  | 0, _ => True
  | n + 1, offset => ∀ length mid, varintDecode buf offset = .ok (length, mid) →
      length % 2 = 0 ∧ mid + length ≤ buf.length ∧ VectorsInside buf n (mid + length)

theorem readVarintVec_eq_ok {buf : Bytes} {offset next : ℕ} {vals : List ℕ} :
    readVarintVec buf offset = .ok (vals, next) ↔ ∃ length mid,
      varintDecode buf offset = .ok (length, mid) ∧ next = mid + length ∧
        vals = (chunks 2 (slice buf mid (mid + length))).map beNat := by
  constructor
  · intro h
    obtain ⟨⟨length, mid⟩, hlength, h⟩ := Py.bind_eq_ok.mp h
    obtain ⟨⟨raw, stop⟩, hraw, h⟩ := Py.bind_eq_ok.mp h
    cases hraw
    cases h
    exact ⟨length, mid, hlength, rfl, rfl⟩
  · rintro ⟨length, mid, hlength, rfl, rfl⟩
    exact Py.bind_eq_ok.mpr ⟨_, hlength, rfl⟩

/-- The length of a vector is even and ends inside the buffer. -/
theorem spelledIff_vec : SpelledIff readVarintVec vecForm fun buf offset => ∀ length mid,
    varintDecode buf offset = .ok (length, mid) → length % 2 = 0 ∧ mid + length ≤ buf.length where
  reads := by
    rintro enc vals ⟨raw, ⟨head, hhead, rfl⟩, hitems⟩
    obtain ⟨hvals, -⟩ := chunks_of_items (by decide) hitems
    refine (readsAs_varintForm hhead).bind (readsAs_slice.bind_last ?_)
    rw [hvals]
    exact .pure _
  inside := by
    intro buf offset vals next hle hread
    obtain ⟨length, mid, hlength, rfl, rfl⟩ := readVarintVec_eq_ok.mp hread
    constructor
    · intro hinside length' mid' hlength'
      obtain ⟨rfl, rfl⟩ := Prod.mk.inj (Except.ok.inj (hlength.symm.trans hlength'))
      obtain ⟨enc, rest, hdrop, -, raw, ⟨head, hhead, rfl⟩, hitems⟩ := hinside.split
      rw [List.append_assoc] at hdrop
      have hsize := readsAs_varintForm hhead buf _ offset hle hdrop
      obtain ⟨rfl, -⟩ := Prod.mk.inj (Except.ok.inj (hsize.symm.trans hlength))
      exact ⟨(chunks_of_items (by decide) hitems).2, hinside.bounded⟩
    · intro hcond
      obtain ⟨heven, hend⟩ := hcond length mid hlength
      obtain ⟨head, after, hdrop, rfl, hhead⟩ := spelled_varint buf offset length mid hle hlength
      have hsize : (slice buf (offset + head.length) (offset + head.length + length)).length =
        length := by
        rw [slice, List.length_take, List.length_drop]
        omega
      have hbody : buf.drop (offset + head.length) =
          slice buf (offset + head.length) (offset + head.length + length) ++
            buf.drop (offset + head.length + length) := by
        have hsplit := List.take_append_drop length (buf.drop (offset + head.length))
        rw [List.drop_drop] at hsplit
        rw [slice, Nat.add_sub_cancel_left]
        exact hsplit.symm
      have hform :
        vecForm (head ++ slice buf (offset + head.length) (offset + head.length + length))
          ((chunks 2 (slice buf (offset + head.length) (offset + head.length + length))).map
            beNat) :=
        ⟨_, ⟨head, by rwa [hsize], rfl⟩, items_chunks (by decide) (by rwa [hsize])⟩
      have hinside := Inside.of_split hle (drop_append_drop hdrop hbody) hform
      rwa [List.length_append, hsize, ← Nat.add_assoc] at hinside

/-- One more vector in front. -/
theorem spelledIff_vectors {β : Type} {n : ℕ} {f : List ℕ → Decoder β} {H : List ℕ → Form β}
    (hf : ∀ vals, SpelledIff (f vals) (H vals) fun buf offset => VectorsInside buf n offset) :
    SpelledIff (readVarintVec >>= f) (vecForm.seq H) fun buf offset => VectorsInside buf
      (n + 1) offset := by
  refine (spelledIff_vec.bind hf).congr (fun _ _ => Iff.rfl) fun buf offset x next hle hread => ?_
  constructor
  · rintro ⟨hfits, hrest⟩ length mid hlength
    obtain ⟨heven, hend⟩ := hfits length mid hlength
    exact ⟨heven, hend, hrest _ _ (readVarintVec_eq_ok.mpr ⟨length, mid, hlength, rfl, rfl⟩)⟩
  · intro hcond
    refine ⟨fun length mid hlength => ?_, fun vals next hvals => ?_⟩
    · obtain ⟨heven, hend, -⟩ := hcond length mid hlength
      exact ⟨heven, hend⟩
    · obtain ⟨length, mid, hlength, rfl, -⟩ := readVarintVec_eq_ok.mp hvals
      exact (hcond length mid hlength).2.2

theorem spelledIff : SpelledIff fromBytesAt form fun buf offset => VectorsInside buf 5 offset :=
  spelledIff_vectors fun _ => spelledIff_vectors fun _ => spelledIff_vectors fun _ =>
    spelledIff_vectors fun _ => spelledIff_vectors fun _ => spelledIff_pure _

end Capabilities

end PureMls
