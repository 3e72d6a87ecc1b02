import PureMls.Verification.StructureBounds

/-! # Where the decoders read past the buffer

The tree and the vectors of the dialects, and for every decoder the buffers that it reads within
their bounds. -/

namespace PureMls

/-! ## RatchetTree -/

namespace RatchetTree

def nodeForm : Form Node :=
  (uintForm 1).seq fun type =>
    if type = 0x01 then LeafNode.form.map .leaf
    else if type = 0x02 then ParentNode.form.map .parent
    else fun _ _ => False

/-- The condition of the leaf or parent that the type byte at `offset` announces. -/
def NodeInside (buf : Bytes) (offset : ℕ) : Prop :=
  ∀ type mid, readU8 buf offset = .ok (type, mid) →
    (type = 0x01 → LeafNode.CapabilitiesInside buf mid) ∧
      (type = 0x02 → ParentNode.UnmergedWhole buf mid)

theorem spelledIff_node : SpelledIff readNode nodeForm NodeInside := by
  refine .bind_after spelledIff_u8
    (D := fun type buf mid => (type = 0x01 → LeafNode.CapabilitiesInside buf mid) ∧
    (type = 0x02 → ParentNode.UnmergedWhole buf mid)) fun type => ?_
  by_cases hleaf : type = 0x01
  · subst hleaf
    refine (SpelledIff.bind_pure LeafNode.spelledIff Node.leaf).congr
      (fun _ _ => Iff.rfl) fun _ _ _ _ _ _ => ?_
    simp
  · by_cases hparent : type = 0x02
    · subst hparent
      refine (SpelledIff.bind_pure ParentNode.spelledIff Node.parent).congr (fun _ _ => Iff.rfl)
        fun _ _ _ _ _ _ => ?_
      simp
    · rw [if_neg hleaf, if_neg hparent, if_neg hleaf, if_neg hparent]
      constructor
      · exact fun _ _ h => h.elim
      · intro buf offset x next hle hread
        cases hread

def entryForm : Form (Option Node) := fun enc entry =>
  (enc = [0x00] ∧ entry = none) ∨ ∃ body node, enc = 0x01 :: body ∧ nodeForm body node ∧
    entry = some node

/-- A presence byte 1 is followed by a node, and its condition holds. -/
def EntryInside (raw : Bytes) (offset : ℕ) : Prop :=
  raw[offset]? = some 0x01 → offset + 1 < raw.length ∧ NodeInside raw (offset + 1)

theorem nodeForm_ne_nil {enc : Bytes} {node : Node} (h : nodeForm enc node) : enc ≠ [] := by
  obtain ⟨head, tail, type, rfl, ⟨-, rfl⟩, -⟩ := h
  simp [beBytes]

theorem readEntry_blank {raw : Bytes} {i : ℕ} (h : raw[i]? = some 0x00) :
    readEntry raw i = .ok (some none, i + 1) := by
  rw [readEntry, readU8, byteAt_eq_ok.mpr ⟨0x00, h, rfl⟩]
  rfl

theorem readEntry_present {raw : Bytes} {i : ℕ} (h : raw[i]? = some 0x01) :
    readEntry raw i =
      if raw.length ≤ i + 1 then .ok (none, i + 1)
      else readNode raw (i + 1) >>= fun read => .ok (some (some read.1), read.2) := by
  rw [readEntry, readU8, byteAt_eq_ok.mpr ⟨0x01, h, rfl⟩]
  rfl

/-- Any other presence byte is refused. -/
theorem readEntry_presence {raw : Bytes} {i next : ℕ} {read : Option (Option Node)}
    (h : readEntry raw i = .ok (read, next)) : raw[i]? = some 0x00 ∨ raw[i]? = some 0x01 := by
  obtain ⟨⟨present, mid⟩, hpresent, h⟩ := Py.bind_eq_ok.mp h
  obtain ⟨_, hbyte, hmid⟩ := Py.bind_eq_ok.mp hpresent
  cases hmid
  obtain ⟨b, hb, rfl⟩ := byteAt_eq_ok.mp hbyte
  dsimp only at h
  split_ifs at h with hblank hone
  · obtain rfl : b = 0x00 := UInt8.toNat_inj.mp hblank
    exact .inl hb
  · obtain rfl : b = 0x01 := UInt8.toNat_inj.mp hone
    exact .inr hb
  · obtain rfl : b = 0x01 := UInt8.toNat_inj.mp hone
    exact .inr hb

/-- The forms of what `readEntry` returns. -/
abbrev readForm : Form (Option (Option Node)) :=
  fun enc read => ∃ entry, entryForm enc entry ∧ read = some entry

theorem drop_of_getElem? {buf : Bytes} {offset : ℕ} {b : UInt8} (h : buf[offset]? = some b) :
    buf.drop offset = b :: buf.drop (offset + 1) := by
  obtain ⟨hlt, rfl⟩ := List.getElem?_eq_some_iff.mp h
  exact List.drop_eq_getElem_cons hlt

/-- A present entry lies inside the buffer where its node does. -/
theorem inside_present {buf : Bytes} {offset next : ℕ} {node : Node}
    (hb : buf[offset]? = some 0x01) :
    Inside readForm buf offset (some (some node)) next ↔ Inside nodeForm buf
      (offset + 1) node next := by
  have hlt := (List.getElem?_eq_some_iff.mp hb).1
  have hdrop := drop_of_getElem? hb
  constructor
  · intro hinside
    obtain ⟨enc, rest, hsplit, rfl, entry, ⟨rfl, rfl⟩ | ⟨body, node', rfl, hbody, rfl⟩, hentry⟩ :=
      hinside.split
    · cases hentry
    · cases hentry
      have hrest : buf.drop (offset + 1) = body ++ rest := by
        rw [← List.drop_drop, hsplit]
        rfl
      have hwhole := Inside.of_split (by omega) hrest hbody
      rwa [List.length_cons, Nat.add_comm body.length, ← Nat.add_assoc]
  · intro hinside
    obtain ⟨body, rest, hsplit, rfl, hbody⟩ := hinside.split
    rw [hsplit] at hdrop
    have hform : readForm (0x01 :: body) (some (some node)) :=
      ⟨some node, .inr ⟨body, node, rfl, hbody, rfl⟩, rfl⟩
    have hwhole := Inside.of_split hlt.le hdrop hform
    rwa [List.length_cons, Nat.add_comm body.length, ← Nat.add_assoc] at hwhole

theorem spelledIff_entry : SpelledIff readEntry readForm EntryInside where
  reads := by
    rintro enc read ⟨entry, ⟨rfl, rfl⟩ | ⟨body, node, rfl, hbody, rfl⟩,
      rfl⟩ buf rest offset hle hdrop
    · exact readEntry_blank (by rw [← List.head?_drop, hdrop]; rfl)
    · have hpresent : buf[offset]? = some 0x01 := by
        rw [← List.head?_drop, hdrop]
        rfl
      have hrest : buf.drop (offset + 1) = body ++ rest := by
        rw [← List.drop_drop, hdrop]
        rfl
      have hbound : offset + 1 < buf.length := by
        by_contra hend
        rw [List.drop_of_length_le (Nat.not_lt.mp hend)] at hrest
        exact nodeForm_ne_nil hbody (List.append_eq_nil_iff.mp hrest.symm).1
      rw [readEntry_present hpresent, if_neg (by omega),
        spelledIff_node.reads body node hbody buf rest (offset + 1) hbound.le hrest,
          List.length_cons,
        Nat.add_comm body.length, ← Nat.add_assoc]
      rfl
  inside := by
    intro buf offset read next hle hread
    rcases readEntry_presence hread with hb | hb
    · rw [readEntry_blank hb] at hread
      cases hread
      have hform : readForm [0x00] (some none) := ⟨none, .inl ⟨rfl, rfl⟩, rfl⟩
      have hinside := Inside.of_split hle (drop_of_getElem? hb) hform
      exact iff_of_true hinside fun hone => by simp [hb] at hone
    · rw [readEntry_present hb] at hread
      split_ifs at hread with hend
      · cases hread
        refine iff_of_false (fun hinside => ?_) fun hcond => ?_
        · obtain ⟨entry, hentry, hnone⟩ := hinside.form
          cases hnone
        · have hnext := (hcond hb).1
          omega
      · obtain ⟨⟨node, next⟩, hnode, hread⟩ := Py.bind_eq_ok.mp hread
        cases hread
        rw [inside_present hb, spelledIff_node.inside buf (offset + 1) node next (by omega) hnode]
        exact ⟨fun h _ => ⟨by omega, h⟩, fun h => (h hb).2⟩

/-- The entries that fill a vector. -/
def form : Form RatchetTree := fun enc tree =>
  ∃ raw, opaqueForm enc raw ∧ ∃ nodes, entryForm.items raw nodes ∧ tree = ofEntries nodes

theorem readForm_items {raw : Bytes} {entries : List (Option (Option Node))}
    (h : readForm.items raw entries) :
    ∃ nodes, entries = nodes.map some ∧ entryForm.items raw nodes := by
  obtain ⟨encs, rfl, hall⟩ := h
  suffices hnodes : ∃ nodes, entries = nodes.map some ∧ List.Forall₂ entryForm encs nodes by
    obtain ⟨nodes, rfl, hforms⟩ := hnodes
    exact ⟨nodes, rfl, encs, rfl, hforms⟩
  induction hall with
  | nil => exact ⟨[], rfl, .nil⟩
  | cons hentry _ ih =>
      obtain ⟨entry, hform, rfl⟩ := hentry
      obtain ⟨nodes, rfl, hforms⟩ := ih
      exact ⟨entry :: nodes, rfl, .cons hform hforms⟩

theorem items_readForm {raw : Bytes} {nodes : List (Option Node)} (h : entryForm.items raw nodes) :
    readForm.items raw (nodes.map some) := by
  obtain ⟨encs, rfl, hall⟩ := h
  refine ⟨encs, rfl, ?_⟩
  induction hall with
  | nil => exact .nil
  | cons hform _ ih => exact .cons ⟨_, hform, rfl⟩ ih

theorem all_of_items {raw : Bytes} {nodes : List (Option Node)} (h : entryForm.items raw nodes) :
    readEntry.all raw = .ok (nodes.map some) := by
  refine spelledIff_entry.all_reads ?_ (items_readForm h)
  rintro enc read ⟨entry, ⟨rfl, rfl⟩ | ⟨body, node, rfl, hbody, rfl⟩, rfl⟩
  · exact List.cons_ne_nil _ _
  · exact List.cons_ne_nil _ _

/-- Every entry that is read from the vector is whole. -/
def EntriesInside (buf : Bytes) (offset : ℕ) : Prop :=
  ∀ raw mid, readOpaque buf offset = .ok (raw, mid) → ∀ i p, StartsAt readEntry raw i p →
    EntryInside raw p

theorem spelledIff : SpelledIff fromBytesAt form EntriesInside := by
  refine .nested spelledIff_opaqueV ?_ ?_
  · rintro raw tree ⟨nodes, hitems, rfl⟩
    rw [parse, all_of_items hitems, Py.ok_bind, reduceOption_map_some]
    rfl
  · intro raw tree hparse
    obtain ⟨entries, hentries, htree⟩ := Py.bind_eq_ok.mp hparse
    cases htree
    rw [← spelledIff_entry.all_inside hentries]
    constructor
    · rintro ⟨nodes, hitems, -⟩
      rw [all_of_items hitems] at hentries
      cases hentries
      exact items_readForm hitems
    · intro hitems
      obtain ⟨nodes, rfl, hforms⟩ := readForm_items hitems
      exact ⟨nodes, hforms, by rw [reduceOption_map_some]⟩

end RatchetTree

/-! ## Dialects -/

namespace Strategy

def lengthForm : Strategy → Form ℕ
  | standard => Rfc.VarintForm
  | cisco => uintForm 2
  | mlspp => uintForm 4

theorem spelledIff_length (strategy : Strategy) :
    SpelledIff strategy.readLength strategy.lengthForm Always := by
  cases strategy with
  | standard => exact spelledIff_varint
  | cisco => exact spelledIff_uint 2
  | mlspp => exact spelledIff_uint 4

/-- The one sub-buffer of a vector. -/
abbrev bodyForm (strategy : Strategy) : Form (List Bytes) :=
  (sizedForm strategy.lengthForm).map fun body => [body]

theorem spelledIff_vector (strategy : Strategy) :
    SpelledIff strategy.decodeVector strategy.bodyForm Always :=
  (SpelledIff.bind_pure
    (spelledIff_sized strategy.spelledIff_length fun _ _ _ => "Vector length exceeds buffer size")
    _).reassoc

def ciscoExtensionForm : Form (ℕ × Bytes) :=
  (uintForm 2).seq fun type => (sizedForm (uintForm 2)).map fun data => (type, data)

/-- An extension of the Cisco dialect lies inside the buffer where it ends there. -/
theorem inside_ciscoExtension {buf : Bytes} {offset next : ℕ} {extension : ℕ × Bytes}
    (hle : offset ≤ buf.length)
    (hread : readCiscoExtension buf offset = .ok (extension, next)) (hnext : next ≤ buf.length) :
    Inside ciscoExtensionForm buf offset extension next := by
  have hspelled : SpelledIff readCiscoExtension ciscoExtensionForm _ :=
    .bind_after (spelledIff_uint 2) fun type =>
      (SpelledIff.bind_pure (spelledIff_sizedSlice (spelledIff_uint 2)) fun data =>
        (type, data)).reassoc
  refine (hspelled.inside buf offset extension next hle hread).mpr ?_
  obtain ⟨⟨type, a⟩, htype, hread⟩ := Py.bind_eq_ok.mp hread
  obtain ⟨⟨elen, b⟩, helen, hread⟩ := Py.bind_eq_ok.mp hread
  obtain ⟨⟨data, c⟩, hdata, hread⟩ := Py.bind_eq_ok.mp hread
  cases hdata
  cases hread
  intro type' a' htype' elen' b' helen'
  obtain ⟨-, rfl⟩ := Prod.mk.inj (Except.ok.inj (htype.symm.trans htype'))
  obtain ⟨rfl, rfl⟩ := Prod.mk.inj (Except.ok.inj (helen.symm.trans helen'))
  exact hnext

theorem readsAs_ciscoExtension {enc : Bytes} {extension : ℕ × Bytes}
    (h : ciscoExtensionForm enc extension) : ReadsAs readCiscoExtension enc extension := by
  obtain ⟨head, tail, type, rfl, ⟨hlt, rfl⟩, data, ⟨size, ⟨hsize, rfl⟩, rfl⟩, rfl⟩ := h
  exact (readsAs_unpackFrom (structPack_eq_ok.mpr ⟨hlt, rfl⟩)).bind
    ((readsAs_unpackFrom (structPack_eq_ok.mpr ⟨hsize, rfl⟩)).bind
      (readsAs_slice.bind_last (.pure _)))

/-- The extensions of a dialect, filling the vector that they stand in. -/
def extensionsForm : Strategy → Form (List (ℕ × Bytes))
  | cisco => vectorForm (uintForm 2) ciscoExtensionForm
  | _ => PureMls.extensionsForm

/-- In the Cisco dialect the vector ends inside the buffer, and no extension ends after the
vector. -/
def ExtensionsInside (strategy : Strategy) (buf : Bytes) (offset : ℕ) : Prop :=
  strategy = cisco → ∀ length mid, readU16 buf offset = .ok (length, mid) →
    mid + length ≤ buf.length ∧
      ∀ p, Passes readCiscoExtension buf (mid + length) mid p → p ≤ mid + length

theorem inside_ciscoExtensions {buf : Bytes} {offset next : ℕ} {extensions : List (ℕ × Bytes)}
    (hle : offset ≤ buf.length)
    (hread : decodeExtensions .cisco buf offset = .ok (extensions, next)) :
    Inside (extensionsForm .cisco) buf offset extensions next ↔
    ExtensionsInside .cisco buf offset := by
  obtain ⟨⟨length, mid⟩, hlength, hloop⟩ := Py.bind_eq_ok.mp hread
  dsimp only at hloop
  constructor
  · intro hinside _ length' mid' hlength'
    obtain ⟨rfl, rfl⟩ := Prod.mk.inj (Except.ok.inj (hlength.symm.trans hlength'))
    have hbounded := hinside.bounded
    obtain ⟨enc, rest, hdrop, rfl, raw, ⟨head, hhead, rfl⟩, hitems⟩ := hinside.split
    rw [List.append_assoc] at hdrop
    have hsize := (spelledIff_uint 2).reads head _ hhead buf _ offset hle hdrop
    obtain ⟨rfl, rfl⟩ := Prod.mk.inj (Except.ok.inj (hsize.symm.trans hlength))
    have hbody : buf.drop (offset + head.length) = raw ++ rest := by
      rw [← List.drop_drop, hdrop, List.drop_left]
    rw [List.length_append] at hbounded
    refine ⟨by omega, fun p hp => ?_⟩
    exact hp.le_of_items (fun _ _ => readsAs_ciscoExtension) hitems (by omega) hbody
  · intro hcond
    obtain ⟨hlimit, hpasses⟩ := hcond rfl length mid hlength
    obtain ⟨hstop, hitems⟩ :=
      Passes.items (fun _ _ _ => inside_ciscoExtension) hloop (Nat.le_add_right _ _)
      hlimit hpasses
    obtain ⟨head, after, hdrop, rfl, hhead⟩ :=
      (spelledIff_uint 2).spelled buf offset length mid hle hlength
    have hsize : (slice buf (offset + head.length) next).length = length := by
      rw [slice, List.length_take, List.length_drop]
      omega
    have hbody : buf.drop (offset + head.length) = slice buf (offset + head.length) next ++
      buf.drop next := by
      have hsplit :=
        List.take_append_drop (next - (offset + head.length)) (buf.drop (offset + head.length))
      rw [List.drop_drop, Nat.add_sub_cancel' (by omega)] at hsplit
      exact hsplit.symm
    have hinside := Inside.of_split (G := extensionsForm .cisco) hle (drop_append_drop hdrop hbody)
      (x := extensions) ⟨_, ⟨head, by rwa [hsize], rfl⟩, by rwa [hstop]⟩
    rwa [List.length_append, hsize, ← Nat.add_assoc, ← hstop] at hinside

end Strategy

/-! ## Every decoder -/

/-- What the decoder returns lies inside the buffer, in the form `G`, exactly where `C` holds. -/
def StaysInside {α : Type} (d : Decoder α) (G : Form α) (C : Bytes → ℕ → Prop) : Prop :=
  ∀ buf offset x next, offset ≤ buf.length → d buf offset = .ok (x, next) →
    (Inside G buf offset x next ↔ C buf offset)

theorem Strategy.extensions_staysInside (strategy : Strategy) :
    StaysInside strategy.decodeExtensions strategy.extensionsForm strategy.ExtensionsInside := by
  intro buf offset extensions next hle hread
  cases strategy with
  | standard =>
      exact iff_of_true
        ((spelledIff_extensions.inside buf offset extensions next hle hread).mpr trivial)
        fun h => by cases h
  | cisco => exact inside_ciscoExtensions hle hread
  | mlspp =>
      exact iff_of_true
        ((spelledIff_extensions.inside buf offset extensions next hle hread).mpr trivial)
        fun h => by cases h

/-- The exact bounds of the streaming decoders, and of those of a dialect. -/
theorem decoders_stayInside (strategy : Strategy) :
    StaysInside readU8 (uintForm 1) Always ∧ StaysInside readU16 (uintForm 2) Always ∧
    StaysInside readU32 (uintForm 4) Always ∧ StaysInside readU64 (uintForm 8) Always ∧
    StaysInside readOpaque opaqueForm Always ∧
    StaysInside readOpaque16 (sizedForm (uintForm 2)) Always ∧
    StaysInside readOpaque32 (sizedForm (uintForm 4)) Always ∧
    StaysInside readVector16 (sizedForm (uintForm 2)) Always ∧
    StaysInside readVector32 (sizedForm (uintForm 4)) Always ∧
    StaysInside readVec8 (sizedForm (uintForm 1)) Always ∧
    StaysInside readExtensions extensionsForm Always ∧
    StaysInside Capabilities.fromBytesAt Capabilities.form
      (fun buf offset => Capabilities.VectorsInside buf 5 offset) ∧
    StaysInside LeafNode.fromBytesAt LeafNode.form LeafNode.CapabilitiesInside ∧
    StaysInside KeyPackage.fromBytesAt KeyPackage.form KeyPackage.CapabilitiesInside ∧
    StaysInside ParentNode.fromBytesAt ParentNode.form ParentNode.UnmergedWhole ∧
    StaysInside RatchetTree.fromBytesAt RatchetTree.form RatchetTree.EntriesInside ∧
    StaysInside GroupContext.fromBytesAt GroupContext.form GroupContext.ExtensionsInside ∧
    StaysInside PreSharedKeyID.fromBytesAt PreSharedKeyID.form Always ∧
    StaysInside strategy.decodeVector strategy.bodyForm Always ∧
    StaysInside strategy.decodeExtensions strategy.extensionsForm strategy.ExtensionsInside :=
  ⟨spelledIff_u8.inside, (spelledIff_uint 2).inside, (spelledIff_uint 4).inside,
    (spelledIff_uint 8).inside, spelledIff_opaqueV.inside,
    (spelledIff_sized (spelledIff_uint 2) _).inside,
    (spelledIff_sized (spelledIff_uint 4) _).inside,
    (spelledIff_sized (spelledIff_uint 2) _).inside,
    (spelledIff_sized (spelledIff_uint 4) _).inside, (spelledIff_sized spelledIff_u8 _).inside,
    spelledIff_extensions.inside, Capabilities.spelledIff.inside, LeafNode.spelledIff.inside,
    KeyPackage.spelledIff.inside, ParentNode.spelledIff.inside, RatchetTree.spelledIff.inside,
    GroupContext.spelledIff.inside, PreSharedKeyID.spelledIff.inside,
    strategy.spelledIff_vector.inside, strategy.extensions_staysInside⟩

/-- A capabilities block of five bytes is read to its tenth byte, a context and a Cisco vector past
their ends. -/
theorem reads_past_the_end :
    Capabilities.fromBytesAt [0, 0, 0, 0, 5] 0 = .ok (⟨[], [], [], [], []⟩, 10) ∧
    GroupContext.fromBytesAt [0, 1, 0, 1, 0, 0, 0, 0, 0, 0, 0, 0, 0, 0, 0, 9] 0 =
      .ok (⟨[], 0, [], [], []⟩, 25) ∧
    Strategy.cisco.decodeExtensions [0, 4, 0, 1, 0, 9] 0 = .ok ([(1, [])], 15) ∧
    ¬ (∀ buf offset capabilities next, offset ≤ buf.length →
      Capabilities.fromBytesAt buf offset = .ok (capabilities, next) → next ≤ buf.length) := by
  refine ⟨by decide, by decide, by decide, fun h => ?_⟩
  exact absurd (h [0, 0, 0, 0, 5] 0 ⟨[], [], [], [], []⟩ 10 (by decide) (by decide)) (by decide)

end PureMls
