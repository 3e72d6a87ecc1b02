import PureMls.Model.Extensions
import PureMls.Verification.Dialects
import PureMls.Verification.Overreads

/-! # Codecs that are exact

With lengths of a fixed width a decoder accepts what its encoder writes and nothing else, and so
the reader of 16-bit extensions agrees with the loop of the Cisco dialect wherever that loop
stays inside its vector. -/

namespace PureMls

/-! ## Encoders and forms -/

/-- The encoder writes the forms of `G`, and refuses what has none. -/
def Writes {α : Type} (f : α → Py Bytes) (G : Form α) : Prop := ∀ x enc, f x = .ok enc ↔ G enc x

/-- The decoder reads what the encoder writes, and accepts nothing else. -/
def ReadsExactly {α : Type} (d : Decoder α) (f : α → Py Bytes) : Prop :=
  ∀ buf offset x next, offset ≤ buf.length → (d buf offset = .ok (x, next) ↔
    ∃ enc rest, f x = .ok enc ∧ buf.drop offset = enc ++ rest ∧ next = offset + enc.length)

/-- A decoder that stays inside reads at a place what stands there in its form. -/
theorem SpelledIff.eq_ok_iff {α : Type} {d : Decoder α} {G : Form α} (h : SpelledIff d G Always)
    {buf : Bytes} {offset next : ℕ} {x : α} (hle : offset ≤ buf.length) :
    d buf offset = .ok (x, next) ↔ Inside G buf offset x next := by
  constructor
  · exact fun hread => (h.inside buf offset x next hle hread).mpr trivial
  · intro hinside
    obtain ⟨enc, rest, hdrop, rfl, hform⟩ := hinside.split
    exact h.reads enc x hform buf rest offset hle hdrop

/-- A decoder and an encoder of the same forms are inverse to each other. -/
theorem SpelledIff.readsExactly {α : Type} {d : Decoder α} {f : α → Py Bytes} {G : Form α}
    (hd : SpelledIff d G Always) (hf : Writes f G) : ReadsExactly d f := by
  intro buf offset x next hle
  rw [hd.eq_ok_iff hle]
  constructor
  · intro hinside
    obtain ⟨enc, rest, hdrop, hnext, hform⟩ := hinside.split
    exact ⟨enc, rest, (hf x enc).mpr hform, hdrop, hnext⟩
  · rintro ⟨enc, rest, henc, hdrop, rfl⟩
    exact .of_split hle hdrop ((hf x enc).mp henc)

namespace Writes

variable {α β : Type}

theorem uint (n : ℕ) : Writes (structPack n) (uintForm n) := by
  intro v enc
  rw [structPack_eq_ok, uintForm, eq_comm (a := enc)]

/-- Data with its length in front. -/
theorem sized {f : ℕ → Py Bytes} {size : Form ℕ} (h : Writes f size) :
    Writes (fun data : Bytes => f data.length >>= fun head => pure (head ++ data))
      (sizedForm size) := by
  intro data enc
  simp only [Py.bind_eq_ok, Py.pure_eq, Except.ok.injEq]
  constructor
  · rintro ⟨head, hhead, rfl⟩
    exact ⟨head, (h data.length head).mp hhead, rfl⟩
  · rintro ⟨head, hhead, rfl⟩
    exact ⟨head, (h data.length head).mpr hhead, rfl⟩

theorem joinBytes {f : α → Py Bytes} {G : Form α} (h : Writes f G) :
    Writes (joinBytes f) G.items := by
  intro xs enc
  have hflip : ∀ encs, xs.mapM f = .ok encs ↔ List.Forall₂ G encs xs := by
    intro encs
    rw [mapM_eq_ok_iff]
    constructor
    · exact fun hall => (hall.imp fun x enc => (h x enc).mp).flip
    · exact fun hall => (hall.imp fun enc x => (h x enc).mpr).flip
  rw [PureMls.joinBytes, Py.map_eq_ok]
  constructor
  · rintro ⟨encs, hencs, rfl⟩
    exact ⟨encs, rfl, (hflip encs).mp hencs⟩
  · rintro ⟨encs, rfl, hall⟩
    exact ⟨encs, (hflip encs).mpr hall, rfl⟩

end Writes

/-! ## Fixed-width lengths -/

theorem writes_opaque16 : Writes tlsOpaque16 (sizedForm (uintForm 2)) := .sized (.uint 2)

theorem writes_opaque32 : Writes tlsOpaque32 (sizedForm (uintForm 4)) := .sized (.uint 4)

/-- The check of the length refuses what a byte cannot hold anyway. -/
theorem writes_vec8 : Writes tlsVec8 (sizedForm (uintForm 1)) := by
  intro data enc
  rw [← Writes.sized (.uint 1) data enc, tlsVec8]
  constructor
  · intro h
    obtain ⟨_, -, h⟩ := Py.bind_eq_ok.mp h
    exact h
  · intro h
    obtain ⟨size, hsize, -⟩ := Py.bind_eq_ok.mp h
    have hlt := (structPack_eq_ok.mp hsize).1
    rw [Py.require_of _ (by omega), Py.ok_bind]
    exact h

theorem writes_extension16 : Writes tlsExtension16 Strategy.ciscoExtensionForm := by
  rintro ⟨type, data⟩ enc
  simp only [tlsExtension16, Py.bind_eq_ok, Py.pure_eq, Except.ok.injEq, tlsU16,
    Writes.uint _ type _, writes_opaque16 data _]
  constructor
  · rintro ⟨head, htype, tail, hdata, rfl⟩
    exact ⟨head, tail, type, rfl, htype, data, hdata, rfl⟩
  · rintro ⟨head, tail, type', rfl, htype, data', hdata, heq⟩
    obtain ⟨rfl, rfl⟩ := Prod.mk.inj heq
    exact ⟨head, htype, tail, hdata, rfl⟩

/-- The extensions in front of which `f` puts their length. -/
theorem writes_extensions {f : Bytes → Py Bytes} {size : Form ℕ} (h : Writes f (sizedForm size)) :
    Writes (fun extensions => joinBytes tlsExtension16 extensions >>= f)
      (vectorForm size Strategy.ciscoExtensionForm) := by
  intro extensions enc
  have hbody := writes_extension16.joinBytes extensions
  simp only [Py.bind_eq_ok, hbody, h _ _]
  constructor
  · rintro ⟨raw, hraw, hsized⟩
    exact ⟨raw, hsized, hraw⟩
  · rintro ⟨raw, hsized, hraw⟩
    exact ⟨raw, hraw, hsized⟩

/-! ## The loop -/

theorem spelledIff_extension16 : SpelledIff readExtension16 Strategy.ciscoExtensionForm Always :=
  .bind_before (spelledIff_uint 2) fun _ => .bind_pure (spelledIff_sized (spelledIff_uint 2) _) _

theorem ciscoExtensionForm_ne_nil {enc : Bytes} {extension : ℕ × Bytes}
    (h : Strategy.ciscoExtensionForm enc extension) : enc ≠ [] := by
  obtain ⟨head, tail, type, rfl, ⟨-, rfl⟩, -⟩ := h
  simp [beBytes]

theorem Decoder.bind_eq_ok {α β : Type} {d : Decoder α} {f : α → Decoder β} {buf : Bytes}
    {offset next : ℕ} {y : β} :
    (d >>= f) buf offset = .ok (y, next) ↔ ∃ x mid, d buf offset = .ok (x, mid) ∧ f x buf mid = .ok
    (y, next) := by
  change (d buf offset >>= fun read => f read.1 buf read.2) = .ok (y, next) ↔ _
  rw [Py.bind_eq_ok, Prod.exists]

theorem unpackFrom_eq_ok {n v offset next : ℕ} {buf : Bytes} :
    unpackFrom n buf offset = .ok (v, next) ↔
      offset + n ≤ buf.length ∧ beNat (slice buf offset (offset + n)) = v ∧ offset + n = next := by
  rw [unpackFrom]
  split_ifs with hend
  · simp [hend]
  · simp [hend]

theorem readChecked_eq_ok {length offset next : ℕ} {message : ℕ → ℕ → String} {buf data : Bytes} :
    readChecked length message buf offset = .ok (data, next) ↔
      offset + length ≤ buf.length ∧ slice buf offset (offset + length) = data ∧
        offset + length = next := by
  simp only [readChecked, Py.bind_eq_ok, Py.require_eq_ok, Except.ok.injEq, Prod.mk.injEq,
    exists_const]

/-- One extension, as a round of the loop takes it. -/
theorem readExtension16_eq_ok {data : Bytes} {i next : ℕ} {extension : ℕ × Bytes} :
    readExtension16 data i = .ok (extension, next) ↔
      i + 4 ≤ data.length ∧ i + 4 + beNat (slice data (i + 2) (i + 4)) ≤ data.length ∧
      i + 4 + beNat (slice data (i + 2) (i + 4)) = next ∧
      (beNat (slice data i (i + 2)), slice data (i + 4) next) = extension := by
  rw [readExtension16, Decoder.bind_eq_ok]
  constructor
  · rintro ⟨type, a, htype, hrest⟩
    obtain ⟨edata, b, hdata, hrest⟩ := Decoder.bind_eq_ok.mp hrest
    obtain ⟨elen, c, helen, hdata⟩ := Decoder.bind_eq_ok.mp hdata
    obtain ⟨hend, rfl, rfl⟩ := unpackFrom_eq_ok.mp htype
    obtain ⟨hend, rfl, rfl⟩ := unpackFrom_eq_ok.mp helen
    obtain ⟨hbound, rfl, rfl⟩ := readChecked_eq_ok.mp hdata
    cases hrest
    exact ⟨hend, hbound, rfl, rfl⟩
  · rintro ⟨hend, hbound, rfl, rfl⟩
    refine ⟨_, i + 2, unpackFrom_eq_ok.mpr ⟨by omega, rfl, rfl⟩, Decoder.bind_eq_ok.mpr ?_⟩
    refine ⟨_, _, Decoder.bind_eq_ok.mpr ⟨_, i + 4, unpackFrom_eq_ok.mpr ⟨hend, rfl, rfl⟩, ?_⟩, rfl⟩
    exact readChecked_eq_ok.mpr ⟨hbound, rfl, rfl⟩

/-- The rounds of the loop are reads of one extension, but for the texts of its errors. -/
theorem parseExtensionsLoop_eq_ok {data : Bytes} {fuel i : ℕ} {extensions : List (ℕ × Bytes)} :
    parseExtensionsLoop data fuel i = .ok extensions ↔
    readExtension16.untilEnd data fuel i = .ok extensions := by
  induction fuel generalizing i extensions with
  | zero => rfl
  | succ fuel ih =>
      rw [parseExtensionsLoop, Decoder.untilEnd]
      split_ifs with hlt
      · constructor
        · intro h
          obtain ⟨_, hheader, h⟩ := Py.bind_eq_ok.mp h
          obtain ⟨_, hbound, h⟩ := Py.bind_eq_ok.mp h
          obtain ⟨rest, hrest, hcons⟩ := Py.bind_eq_ok.mp h
          have hread := readExtension16_eq_ok.mpr
            ⟨Py.require_eq_ok.mp hheader, Py.require_eq_ok.mp hbound, rfl, rfl⟩
          exact Py.bind_eq_ok.mpr ⟨_, hread, Py.bind_eq_ok.mpr ⟨rest, ih.mp hrest, hcons⟩⟩
        · intro h
          obtain ⟨⟨extension, next⟩, hread, h⟩ := Py.bind_eq_ok.mp h
          obtain ⟨rest, hrest, hcons⟩ := Py.bind_eq_ok.mp h
          obtain ⟨hheader, hbound, rfl, rfl⟩ := readExtension16_eq_ok.mp hread
          refine Py.bind_eq_ok.mpr ⟨(), Py.require_of _ hheader, ?_⟩
          refine Py.bind_eq_ok.mpr ⟨(), Py.require_of _ hbound, ?_⟩
          exact Py.bind_eq_ok.mpr ⟨rest, ih.mpr hrest, hcons⟩
      · rfl

/-- The loop gives the extensions that fill the buffer. -/
theorem parseExtensionsInternal_eq_ok {data : Bytes} {extensions : List (ℕ × Bytes)} :
    parseExtensionsInternal data = .ok extensions ↔
    Strategy.ciscoExtensionForm.items data extensions := by
  rw [parseExtensionsInternal, parseExtensionsLoop_eq_ok]
  constructor
  · exact fun h => (spelledIff_extension16.all_inside h).mpr fun _ _ _ => trivial
  · exact spelledIff_extension16.all_reads fun _ _ => ciscoExtensionForm_ne_nil

/-- The extensions behind a length, with nothing left over. -/
theorem spelledIff_sizedExtensions {readLength : Decoder ℕ} {size : Form ℕ}
    (h : SpelledIff readLength size Always) (name : String) :
    SpelledIff
      (readSized readLength name >>= fun data => Decoder.lift (parseExtensionsInternal data))
      (vectorForm size Strategy.ciscoExtensionForm) Always :=
  (SpelledIff.nested (spelledIff_sized h _) (x := parseExtensionsInternal)
    (fun _ _ => parseExtensionsInternal_eq_ok.mpr)
    fun _ _ hparse => iff_true_intro (parseExtensionsInternal_eq_ok.mp hparse)).congr (fun _ _ =>
      Iff.rfl)
    fun _ _ _ _ _ _ => iff_true_intro fun _ _ _ => trivial

theorem spelledIff_extensions16 :
    SpelledIff readExtensions16 (Strategy.extensionsForm .cisco) Always :=
  spelledIff_sizedExtensions (spelledIff_uint 2) _

/-! ## Exact codecs -/

/-- Every decoder with lengths of a fixed width accepts exactly what its encoder writes; the
extensions behind 32 bits have no encoder of their own. -/
theorem fixed_width_codecs_exact :
    ReadsExactly readU8 tlsU8 ∧ ReadsExactly readU16 tlsU16 ∧ ReadsExactly readU32 tlsU32 ∧
    ReadsExactly readU64 tlsU64 ∧ ReadsExactly readOpaque16 tlsOpaque16 ∧
    ReadsExactly readOpaque32 tlsOpaque32 ∧
    ReadsExactly readVec8 tlsVec8 ∧ ReadsExactly readExtension16 tlsExtension16 ∧
    ReadsExactly readExtensions16 tlsExtensions16 ∧
    ReadsExactly readExtensions32 fun extensions => joinBytes tlsExtension16 extensions >>=
      tlsOpaque32 :=
  ⟨spelledIff_u8.readsExactly (.uint 1), (spelledIff_uint 2).readsExactly (.uint 2),
    (spelledIff_uint 4).readsExactly (.uint 4), (spelledIff_uint 8).readsExactly (.uint 8),
    (spelledIff_sized (spelledIff_uint 2) _).readsExactly writes_opaque16,
    (spelledIff_sized (spelledIff_uint 4) _).readsExactly writes_opaque32,
    (spelledIff_sized spelledIff_u8 _).readsExactly writes_vec8,
    spelledIff_extension16.readsExactly writes_extension16,
    (spelledIff_sizedExtensions (spelledIff_uint 2) _).readsExactly
      (writes_extensions writes_opaque16),
    (spelledIff_sizedExtensions (spelledIff_uint 4) _).readsExactly
      (writes_extensions writes_opaque32)⟩

/-! ## The dialects -/

namespace Strategy

theorem readsAs_ciscoExtensions {enc : Bytes} {extensions : List (ℕ × Bytes)}
    (h : extensionsForm .cisco enc extensions) :
    ReadsAs (decodeExtensions .cisco) enc extensions := by
  obtain ⟨raw, ⟨head, hhead, rfl⟩, encs, rfl, hall⟩ := h
  have hitems : List.Forall₂ (ReadsAs readCiscoExtension) encs extensions ∧
    ∀ enc ∈ encs, enc ≠ [] := by
    clear hhead
    induction hall with
    | nil => exact ⟨.nil, by simp⟩
    | cons hx _ ih =>
        exact ⟨.cons (readsAs_ciscoExtension hx) ih.1,
          List.forall_mem_cons.mpr ⟨ciscoExtensionForm_ne_nil hx, ih.2⟩⟩
  have hloop : ReadsAs (fun buf offset =>
      readCiscoExtension.whileBelow (offset + encs.flatten.length) encs.flatten.length buf offset)
      encs.flatten extensions := by
    intro buf rest offset hle hdrop
    exact ReadsAs.whileBelow hitems.1 hitems.2 le_rfl hle hdrop
  exact ReadsAs.bind
    (f := fun length buf offset =>
      readCiscoExtension.whileBelow (offset + length) length buf offset)
    ((spelledIff_uint 2).reads head _ hhead) hloop

/-- The reader of 16-bit extensions accepts what the loop of the Cisco dialect reads without leaving
its vector or the buffer, and reads the same. -/
theorem cisco_extensions_agree {buf : Bytes} {offset next : ℕ} {extensions : List (ℕ × Bytes)} :
    readExtensions16 buf offset = .ok (extensions, next) ↔
      cisco.decodeExtensions buf offset = .ok (extensions, next) ∧
        cisco.ExtensionsInside buf offset := by
  by_cases hle : offset ≤ buf.length
  · rw [spelledIff_extensions16.eq_ok_iff hle]
    constructor
    · intro hinside
      obtain ⟨enc, rest, hdrop, rfl, hform⟩ := hinside.split
      have hread := readsAs_ciscoExtensions hform buf rest offset hle hdrop
      exact ⟨hread, (inside_ciscoExtensions hle hread).mp hinside⟩
    · rintro ⟨hread, hcond⟩
      exact (inside_ciscoExtensions hle hread).mpr hcond
  · -- past the end there is no length to read
    have hnone : ∀ length mid, readU16 buf offset ≠ .ok (length, mid) := by
      intro length mid h
      have hend := (unpackFrom_eq_ok.mp h).1
      omega
    constructor
    · intro hread
      obtain ⟨data, mid, hdata, -⟩ := Decoder.bind_eq_ok.mp hread
      obtain ⟨length, start, hlength, -⟩ := Decoder.bind_eq_ok.mp hdata
      exact absurd hlength (hnone _ _)
    · rintro ⟨hread, -⟩
      obtain ⟨⟨length, start⟩, hlength, -⟩ := Py.bind_eq_ok.mp hread
      exact absurd hlength (hnone _ _)

/-- In every dialect the extensions are read back wherever they stand. -/
theorem readsAs_encodeExtensions {strategy : Strategy} {enc : Bytes} {extensions : List (ℕ × Bytes)}
    (h : strategy.encodeExtensions extensions = .ok enc) :
    ReadsAs strategy.decodeExtensions enc extensions := by
  cases strategy with
  | standard => exact readsAs_extensions h
  | cisco => exact readsAs_ciscoExtensions ((writes_extensions writes_opaque16 _ _).mp h)
  | mlspp => exact readsAs_extensions h

end Strategy

/-- Only the fingerprints of the other dialects decide against the standard one. -/
theorem detectDialect_version (data : Bytes) : detectDialect (0x00 :: data) = .standard := by
  have hcisco : Strategy.cisco.detect (0x00 :: data) = false := by
    simp [Strategy.detect, Strategy.fingerprint]
  have hmlspp : Strategy.mlspp.detect (0x00 :: data) = false := by
    simp [Strategy.detect, Strategy.fingerprint]
  rw [detectDialect, registry, List.find?_cons]
  cases Strategy.standard.detect (0x00 :: data) with
  | true => rfl
  | false => simp [hcisco, hmlspp]

namespace DialectWelcome

/-- A Welcome is detected in the dialect that it is written in. -/
theorem detectDialect_toBytes {strategy : Strategy} {welcome : DialectWelcome} {data : Bytes}
    (hname : welcome.dialectName = strategy.name) (hdata : welcome.toBytes = .ok data) :
    detectDialect data = strategy := by
  obtain ⟨entries, egs, egi, -, rfl⟩ := toBytes_encoded hname hdata
  cases strategy with
  | standard => exact detectDialect_version _
  | cisco => rfl
  | mlspp => rfl

/-- Behind the header of an MLSMessage every Welcome is taken for a standard one. -/
theorem detectDialect_wrapped {welcome : DialectWelcome} {framed : Bytes} {message : MLSMessage}
    (hwrap : MLSMessage.wrapWelcome welcome = .ok message)
    (hframed : message.toBytes = .ok framed) : detectDialect framed = .standard := by
  obtain ⟨body, -, hmessage⟩ := Py.bind_eq_ok.mp hwrap
  cases hmessage
  obtain ⟨version, hversion, hframed⟩ := Py.bind_eq_ok.mp hframed
  obtain ⟨format, -, hframed⟩ := Py.bind_eq_ok.mp hframed
  obtain ⟨sized, -, hframed⟩ := Py.bind_eq_ok.mp hframed
  cases hversion
  cases hframed
  exact detectDialect_version _

end DialectWelcome

namespace ExternalPSKExtension

variable {extension : ExternalPSKExtension} {enc : Bytes}

theorem readsAs (h : extension.marshal = .ok enc) : ReadsAs unmarshalAt enc extension := by
  simp only [marshal, Py.bind_eq_ok, Py.pure_eq, Except.ok.injEq] at h
  obtain ⟨external, hexternal, pskId, hpskId, pskNonce, hpskNonce, rfl⟩ := h
  rw [List.append_assoc]
  exact (readsAs_u8 hexternal).bind <| .bind_first (.lift rfl) <| (readsAs_opaqueV hpskId).bind <|
    (readsAs_opaqueV hpskNonce).bind_last (.pure _)

/-- The extension is read back, whatever follows it. -/
theorem unmarshal_marshal (h : extension.marshal = .ok enc) (rest : Bytes) :
    unmarshal (enc ++ rest) = .ok extension := (readsAs h).run rest

end ExternalPSKExtension

/-- What the dialects and the external PSK extension write, they read, and the dialect of a Welcome
is seen from its bytes, unless the header of an MLSMessage stands before them. -/
theorem dialects_read_back (strategy : Strategy) :
    (∀ (welcome : DialectWelcome) data, welcome.dialectName = strategy.name →
      welcome.toBytes = .ok data → detectDialect data = strategy) ∧
    (∀ (welcome : DialectWelcome) message framed, MLSMessage.wrapWelcome welcome = .ok message →
      message.toBytes = .ok framed → detectDialect framed = .standard) ∧
    (∀ extensions enc, strategy.encodeExtensions extensions = .ok enc →
      ReadsAs strategy.decodeExtensions enc extensions) ∧
    ∀ (extension : ExternalPSKExtension) enc rest, extension.marshal = .ok enc →
      ExternalPSKExtension.unmarshal (enc ++ rest) = .ok extension :=
  ⟨fun _ _ hname hdata => DialectWelcome.detectDialect_toBytes hname hdata,
    fun _ _ _ hwrap hframed => DialectWelcome.detectDialect_wrapped hwrap hframed,
    fun _ _ h => strategy.readsAs_encodeExtensions h,
    fun _ _ rest h => ExternalPSKExtension.unmarshal_marshal h rest⟩

namespace Sample

/-- A Welcome in the dialect of Cisco, bare and wrapped, two extensions and the name of a PSK. -/
def ciscoBytes : Py (Bytes × Bytes × Bytes × Bytes) := do
  let welcome : DialectWelcome := ⟨⟨0x0001, [⟨[1], [2], [3]⟩], [4]⟩, some "cisco"⟩
  let data ← welcome.toBytes
  let message ← MLSMessage.wrapWelcome welcome
  let framed ← message.toBytes
  let enc ← Strategy.cisco.encodeExtensions [(1, [2]), (3, [])]
  let psk ← ExternalPSKExtension.marshal ⟨[5], [6]⟩
  pure (data, framed, enc, psk)

theorem ciscoBytes_ok : ∃ r, ciscoBytes = .ok r := Py.ok_of_isOk (by decide +kernel)

end Sample

theorem dialects_read_back_cisco :
    ∃ data framed enc psk, Sample.ciscoBytes = .ok (data, framed, enc, psk) ∧
    detectDialect data = .cisco ∧ detectDialect framed = .standard ∧
    Strategy.cisco.decodeExtensions enc 0 = .ok ([(1, [2]), (3, [])], enc.length) ∧
    ExternalPSKExtension.unmarshal (psk ++ [7]) = .ok ⟨[5], [6]⟩ := by
  obtain ⟨⟨data, framed, enc, psk⟩, hrun⟩ := Sample.ciscoBytes_ok
  refine ⟨data, framed, enc, psk, hrun, ?_⟩
  simp only [Sample.ciscoBytes, Py.bind_eq_ok, Py.pure_eq, Except.ok.injEq, Prod.mk.injEq] at hrun
  obtain ⟨_, hdata, message, hwrap, _, hframed, raw, henc, _, hpsk, rfl, rfl, rfl, rfl⟩ := hrun
  obtain ⟨hdetect, hwrapped, hread, hunmarshal⟩ := dialects_read_back .cisco
  have hextensions := hread _ _ henc raw [] 0 (Nat.zero_le _) (List.append_nil raw).symm
  rw [Nat.zero_add] at hextensions
  exact ⟨hdetect _ _ rfl hdata, hwrapped _ _ _ hwrap hframed, hextensions, hunmarshal _ _ [7] hpsk⟩

end PureMls
