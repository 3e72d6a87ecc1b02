import PureMls.Foundation.Shifts
import PureMls.Verification.Dialects
import PureMls.Verification.MessageCodec
import PureMls.Verification.Overreads
import PureMls.Verification.VarInts

/-! # A Welcome in the envelope of an MLSMessage

`MLSMessage` puts the length of the body between the header and the body. Two of the decoders of a
Welcome step over the header only, and take the length for a part of the Welcome. -/

namespace PureMls

/-! ## Byte strings behind some bytes too many -/

/-- A byte string behind its length in the shortest form. -/
def canonical (data : Bytes) : Bytes := Rfc.varint data.length ++ data

/-- The byte strings are read, in some form, where they stand in their shortest form behind
`front`. -/
def Shifted (front : Bytes) (items : List Bytes) : Prop :=
  ∃ enc rest, opaqueForm.items enc items ∧ enc ++ rest = front ++ (items.map canonical).flatten

namespace Shifted

variable {front : Bytes} {d item : Bytes} {items : List Bytes} {a b : UInt8}

/-- A long byte string is never reached over bytes that are no leads of longer forms. -/
theorem not_long (hfront : front ≠ []) (hleads : ∀ a ∈ front, a ≠ 0x40 ∧ a ≠ 0x80)
    (hitem : item ∈ items) (hlong : 2 ^ 14 ≤ item.length)
    (hlt : item.length < 2 ^ 24) : ¬ Shifted front items := by
  rintro ⟨enc, rest, ⟨spellings, rfl, hall⟩, heq⟩
  refine Shifts.not_read (G := opaqueForm) hfront (fun a tail x hform ha => ?_)
    (fun x hform => ?_) hall hitem
    (fun a tail hcanon ha => ?_) heq
  · obtain ⟨head, hhead, hspelling⟩ := hform
    cases head with
    | nil => exact absurd rfl hhead.ne_nil
    | cons a' head =>
        obtain ⟨rfl, rfl⟩ := List.cons.inj hspelling
        rw [canonical, ← hhead.shortest (hleads a ha).1 (hleads a ha).2]
        rfl
  · obtain ⟨head, hhead, hspelling⟩ := hform
    exact hhead.ne_nil (List.append_eq_nil_iff.mp hspelling.symm).1
  · have hlead : canonical item = UInt8.ofNat ((2 ^ 31 + item.length) / 256 ^ 3) ::
        (beBytes 3 (2 ^ 31 + item.length) ++ item) := by
      rw [canonical, Rfc.varint, if_neg (by omega), if_neg (by omega)]
      rfl
    have h80 : (2 ^ 31 + item.length) / 256 ^ 3 = 0x80 := by omega
    rw [hlead, h80] at hcanon
    exact (hleads a ha).2 (List.cons.inj hcanon).1.symm

/-- The first byte string, whose length stands at the front. -/
theorem read {head : Bytes} {n : ℕ} (hhead : Rfc.VarintForm head n)
    (h : Shifted (head ++ front) (d :: items)) :
    d.length = n ∧ ∃ tail, d ++ tail = front ++ (canonical d ++ (items.map canonical).flatten) ∧
      ∀ front', tail = front' ++ (items.map canonical).flatten → Shifted front' items := by
  obtain ⟨enc, rest, ⟨spellings, rfl, hall⟩, heq⟩ := h
  cases hall with
  | @cons spelling _ spellings _ hspelling hall =>
      obtain ⟨head', hhead', rfl⟩ := hspelling
      rw [List.flatten_cons, List.map_cons, List.flatten_cons] at heq
      simp only [List.append_assoc] at heq
      obtain ⟨hlen, -, hrest⟩ := (readsAs_varintForm hhead').unique (readsAs_varintForm hhead) heq
      exact ⟨hlen, _, hrest, fun front' htail => ⟨_, rest, ⟨spellings, rfl, hall⟩, htail⟩⟩

/-- A byte string that lies in front comes out behind, in its shortest form. -/
theorem turn {head : Bytes} (data : Bytes) (hhead : Rfc.VarintForm head data.length)
    (h : Shifted (head ++ (data ++ front)) (d :: items)) :
    d = data ∧ Shifted (front ++ canonical data) items := by
  obtain ⟨hlen, tail, htail, hnext⟩ := h.read hhead
  rw [List.append_assoc] at htail
  obtain ⟨rfl, hrest⟩ := List.append_inj htail hlen
  refine ⟨rfl, hnext _ ?_⟩
  rw [List.append_assoc]
  exact hrest

theorem zero (h : Shifted (0 :: front) (d :: items)) : d = [] ∧ Shifted (front ++ [0]) items := by
  have hzero : Rfc.VarintForm [0] 0 := .of_one (by decide)
  exact turn [] hzero h

theorem one (h : Shifted (1 :: b :: front) (d :: items)) :
    d = [b] ∧ Shifted (front ++ [1, b]) items := by
  have hone : Rfc.VarintForm [1] 1 := .of_one (by decide)
  have hcanon : canonical [b] = [1, b] := by simp [canonical, Rfc.varint, beBytes]
  exact hcanon ▸ turn [b] hone h

/-- Two bytes may say that a byte string is empty. -/
theorem forty (h : Shifted (0x40 :: 0 :: front) (d :: items)) :
    d = [] ∧ Shifted (front ++ [0]) items := by
  have hzero : Rfc.VarintForm [0x40, 0] 0 := .of_two 0 (by decide) (by decide)
  exact turn [] hzero h

/-- A lead above that of the longest byte strings of one byte: the first byte string is long. -/
theorem large (ha : 64 < a.toNat) (ha' : a ≠ 0x80) (h : Shifted (a :: front) (d :: items)) :
    256 ≤ d.length := by
  have h80 : a.toNat ≠ 0x80 := fun heq => ha' (UInt8.toNat_inj.mp heq)
  obtain ⟨enc, rest, ⟨spellings, rfl, hall⟩, heq⟩ := h
  cases hall with
  | @cons spelling _ spellings _ hspelling hall =>
      obtain ⟨head, hhead, rfl⟩ := hspelling
      rcases hhead.bytes with ⟨a', rfl, hlt, hlen⟩ | ⟨a', b, rfl, hge, hlt, hlen⟩ |
          ⟨a', b, c, e, rfl, hge, hlt, hlen⟩
      all_goals
        have hlead : a' = a := (List.cons.inj heq).1
        subst hlead
        omega

/-- Three bytes that turn round until the long byte string is reached. -/
theorem not_turning (hitem : item ∈ items) (hlong : 2 ^ 14 ≤ item.length) :
    ¬ Shifted [1, 0x40, 0] items ∧ ¬ Shifted [0, 1, 0x40] items := by
  induction items with
  | nil => cases hitem
  | cons d items ih =>
      constructor
      · intro h
        obtain ⟨rfl, hnext⟩ := h.one
        rcases List.mem_cons.mp hitem with rfl | hitem
        · simp at hlong
        · exact (ih hitem).2 hnext
      · intro h
        obtain ⟨rfl, hnext⟩ := h.zero
        rcases List.mem_cons.mp hitem with rfl | hitem
        · simp at hlong
        · exact (ih hitem).1 hnext

/-! ### A length that is read inside the one of the envelope -/

theorem not_after_one {n : ℕ} (hn : n < 2 ^ 6) (hd : d.length ≤ n) (hitem : item ∈ items)
    (hlong : 2 ^ 14 ≤ item.length) (hlt : item.length < 2 ^ 24) :
    ¬ Shifted (b :: 0 :: 1 :: Rfc.varint n) (d :: items) := by
  obtain ⟨c, hc, rfl⟩ := Rfc.varint_one hn
  have hc40 : c ≠ 0x40 := by rintro rfl; exact absurd hn (by decide)
  have hc80 : c ≠ 0x80 := by rintro rfl; exact absurd hn (by decide)
  rw [hc]
  intro h
  by_cases hb40 : b = 0x40
  · subst hb40
    refine not_long (by simp) ?_ hitem hlong hlt h.forty.2
    simp [hc40, hc80]
  by_cases hb80 : b = 0x80
  · subst hb80
    have hfour : Rfc.VarintForm [0x80, 0, 1, c] (256 + c.toNat) := by
      simpa using Rfc.VarintForm.of_four (a := 0x80) 0 1 c (by decide) (by decide)
    have hread : Shifted ([0x80, 0, 1, c] ++ []) (d :: items) := h
    obtain ⟨hlen, -⟩ := read hfour hread
    omega
  refine not_long (by simp) ?_ (List.mem_cons_of_mem d hitem) hlong hlt h
  simp [hb40, hb80, hc40, hc80]

theorem not_after_two {nm ko ct : Bytes} {n : ℕ} (hn : n < 2 ^ 14) (hct : ct.length ≤ n)
    (hitem : item ∈ items) (hlong : 2 ^ 14 ≤ item.length) (hlt : item.length < 2 ^ 24) :
    ¬ Shifted (0 :: 1 :: Rfc.varint n) (nm :: ko :: ct :: items) := by
  have hmem : item ∈ nm :: ko :: ct :: items := by simp [hitem]
  intro h
  by_cases hn6 : n < 2 ^ 6
  · obtain ⟨c, hc, rfl⟩ := Rfc.varint_one hn6
    have hc40 : c ≠ 0x40 := by rintro rfl; exact absurd hn6 (by decide)
    have hc80 : c ≠ 0x80 := by rintro rfl; exact absurd hn6 (by decide)
    rw [hc] at h
    refine not_long (by simp) ?_ hmem hlong hlt h
    simp [hc40, hc80]
  obtain ⟨v, w, hvarint, hv, hv', rfl⟩ := Rfc.varint_two (by omega) hn
  have hv80 : v ≠ 0x80 := by rintro rfl; exact absurd hv' (by decide)
  rw [hvarint] at h
  -- three byte strings are read of the four bytes, up to the length of the fourth
  have hthird : Shifted [w, 0, 1, v] (ct :: items) := h.zero.2.one.2
  by_cases hw40 : w = 0x40
  · subst hw40
    have hnext : Shifted [1, v, 0] items := hthird.forty.2
    by_cases hv40 : v = 0x40
    · subst hv40
      exact (not_turning hitem hlong).1 hnext
    · refine not_long (by simp) ?_ hitem hlong hlt hnext
      simp [hv40, hv80]
  by_cases hw80 : w = 0x80
  · subst hw80
    have hfour : Rfc.VarintForm [0x80, 0, 1, v] (256 + v.toNat) := by
      simpa using Rfc.VarintForm.of_four (a := 0x80) 0 1 v (by decide) (by decide)
    have hread : Shifted ([0x80, 0, 1, v] ++ []) (ct :: items) := hthird
    obtain ⟨hlen, tail, htail, hnext⟩ := read hfour hread
    have hv64 : v.toNat ≠ 64 := by
      intro h64
      rw [h64] at hct hlen
      simp at hct
      omega
    have hv40 : v ≠ 0x40 := by rintro rfl; exact hv64 rfl
    -- the shortest form of its length takes two bytes, and they come out behind it
    have hcanon : canonical ct = [0x41, v] ++ ct := by
      have hlength := Rfc.VarintForm.of_two (a := 0x41) v (by decide) (by decide)
      have hshort := hlength.shortest (by decide) (by decide)
      rw [canonical, hlen, hshort]
      rfl
    rw [hcanon, List.nil_append, List.append_assoc] at htail
    obtain ⟨front', hfront', hmem', htail'⟩ := Shifts.shift (by simp) htail
    refine not_long hfront' (fun a ha => ?_) hitem hlong hlt (hnext front' htail')
    have ha' := hmem' a ha
    simp at ha'
    rcases ha' with rfl | rfl
    · decide
    · exact ⟨hv40, hv80⟩
  by_cases hv40 : v = 0x40
  · subst hv40
    have h40 : (0x40 : UInt8).toNat = 64 := rfl
    have hw64 : w.toNat ≠ 64 := fun heq => hw40 (UInt8.toNat_inj.mp heq)
    have hw := w.toNat_lt
    rw [h40] at hn6 hct
    have hlarge := hthird.large (by omega) hw80
    omega
  refine not_long (by simp) ?_ hmem hlong hlt h
  simp [hv40, hv80, hw40, hw80]

theorem not_after_four {n : ℕ} (hn : n < 2 ^ 30) (hd : d.length < n) :
    ¬ Shifted (Rfc.varint n) (d :: items) := by
  intro h
  rw [← List.append_nil (Rfc.varint n)] at h
  obtain ⟨hlen, -⟩ := h.read (Rfc.varintForm_varint hn)
  omega

/-- No form of the byte strings is shorter than the shortest forms. -/
theorem length_le {enc : Bytes} (h : opaqueForm.items enc items) :
    (items.map canonical).flatten.length ≤ enc.length := by
  obtain ⟨spellings, rfl, hall⟩ := h
  induction hall with
  | nil => exact Nat.le_refl _
  | @cons spelling item spellings items hspelling hall ih =>
      obtain ⟨head, hhead, rfl⟩ := hspelling
      have hle := hhead.length_le
      simp only [List.map_cons, List.flatten_cons, List.length_append, canonical] at ih ⊢
      omega

theorem length_lt (hitem : item ∈ items) : item.length < (items.map canonical).flatten.length := by
  have hsub : (canonical item).Sublist (items.map canonical).flatten :=
    List.sublist_flatten_of_mem (List.mem_map_of_mem hitem)
  have hpos := List.length_pos_iff.mpr (Rfc.varint_ne_nil item.length)
  have hle := hsub.length_le
  rw [canonical, List.length_append] at hle
  omega

theorem of_info {enc encInfo rest info : Bytes} (henc : opaqueForm.items enc items)
    (hinfo : opaqueForm encInfo info)
    (heq : enc ++ (encInfo ++ rest) = front ++ ((items.map canonical).flatten ++ canonical info)) :
    Shifted front (items ++ [info]) := by
  obtain ⟨spellings, rfl, hall⟩ := henc
  refine ⟨_, rest, ⟨spellings ++ [encInfo], rfl, List.rel_append hall (.cons hinfo .nil)⟩, ?_⟩
  simpa using heq

/-- Between a length of the envelope and the rest of the Welcome its entries are not read. -/
theorem not_reparsed {nm ko ct info v enc encInfo rest : Bytes} {n : ℕ}
    (hv : Rfc.VarintForm v enc.length) (henc : opaqueForm.items enc (nm :: ko :: ct :: items))
    (hinfo : opaqueForm encInfo info)
    (hn : n = ((nm :: ko :: ct :: items).map canonical).flatten.length) (hn30 : n < 2 ^ 30)
    (hsize : 2 ^ 16 ≤ 2 + (Rfc.varint n).length + n + (canonical info).length)
    (hlt : 2 + (Rfc.varint n).length + n + (canonical info).length < 2 ^ 17) :
    v ++ (enc ++ (encInfo ++ rest)) ≠ a :: b :: 0 :: 1 ::
      (Rfc.varint n ++ (((nm :: ko :: ct :: items).map canonical).flatten ++ canonical info)) := by
  intro heq
  have hle : n ≤ enc.length := hn ▸ length_le henc
  have hnm : nm.length < n := hn ▸ length_lt (by simp)
  have hct : ct.length < n := hn ▸ length_lt (by simp)
  have hvarint := Rfc.length_varint n
  have hvarint' := Rfc.length_varint info.length
  have hcanon : (canonical info).length = (Rfc.varint info.length).length + info.length :=
    List.length_append
  rcases hv.bytes with ⟨v0, rfl, hv0, hlen⟩ | ⟨v0, v1, rfl, hv0, hv0', hlen⟩ |
    ⟨v0, v1, v2, v3, rfl, hv0, hv0', hlen⟩
  · have hshift : Shifted (b :: 0 :: 1 :: Rfc.varint n) (nm :: ko :: ct :: (items ++ [info])) :=
      of_info henc hinfo (List.cons.inj heq).2
    have hmem : info ∈ ko :: ct :: (items ++ [info]) := by simp
    exact not_after_one (by omega) hnm.le hmem (by omega) (by omega) hshift
  · have hshift : Shifted (0 :: 1 :: Rfc.varint n) (nm :: ko :: ct :: (items ++ [info])) :=
      of_info henc hinfo (List.cons.inj (List.cons.inj heq).2).2
    have hv1 := v1.toNat_lt
    have hmem : info ∈ items ++ [info] := by simp
    exact not_after_two (by omega) hct.le hmem (by omega) (by omega) hshift
  · have hshift : Shifted (Rfc.varint n) (nm :: ko :: ct :: (items ++ [info])) :=
      of_info henc hinfo (List.cons.inj (List.cons.inj (List.cons.inj (List.cons.inj heq).2).2).2).2
    exact not_after_four hn30 hnm hshift

end Shifted

/-! ## The entries of a Welcome -/

theorem tlsOpaque_canonical {data e : Bytes} (h : tlsOpaque data = .ok e) : e = canonical data := by
  simp only [tlsOpaque, Py.bind_eq_ok, Py.pure_eq, Except.ok.injEq] at h
  obtain ⟨size, hsize, rfl⟩ := h
  obtain ⟨-, rfl⟩ := tlsVarint_eq_ok.mp hsize
  rfl

namespace EncryptedGroupSecrets

/-- The byte strings of an entry, in the order of the encoding. -/
def fields (entry : EncryptedGroupSecrets) : List Bytes :=
  [entry.newMember, entry.kemOutput, entry.ciphertext]

theorem toBytes_canonical {entry : EncryptedGroupSecrets} {e : Bytes} (h : entry.toBytes = .ok e) :
    e = (entry.fields.map canonical).flatten := by
  simp only [toBytes, Py.bind_eq_ok, Py.pure_eq, Except.ok.injEq] at h
  obtain ⟨nm, hnm, ko, hko, ct, hct, rfl⟩ := h
  rw [tlsOpaque_canonical hnm, tlsOpaque_canonical hko, tlsOpaque_canonical hct]
  simp [fields]

theorem joinBytes_canonical {entries : List EncryptedGroupSecrets} {e : Bytes}
    (h : joinBytes toBytes entries = .ok e) :
    e = ((entries.flatMap fields).map canonical).flatten := by
  obtain ⟨encs, hencs, rfl⟩ := Py.map_eq_ok.mp h
  have hall := forall₂_of_mapM hencs
  clear h hencs
  induction hall with
  | nil => rfl
  | cons hentry hentries ih =>
      rw [List.flatMap_cons, List.map_append, List.flatten_append, List.flatten_cons, ← ih,
        toBytes_canonical hentry]

theorem spelled_fromBytes :
    Spelled fromBytes fun enc entry => opaqueForm.items enc entry.fields := by
  refine (spelled_opaqueV.bind fun nm => spelled_opaqueV.bind fun ko =>
    spelled_opaqueV.bind_pure fun ct =>
    EncryptedGroupSecrets.mk nm ko ct).mono ?_
  rintro enc entry ⟨head, tail, nm, rfl, hnm, head', tail', ko, rfl, hko, ct, hct, rfl⟩
  refine ⟨[head, head', tail'], by simp, .cons hnm (.cons hko (.cons hct .nil))⟩

theorem spelled_all {raw : Bytes} {entries : List EncryptedGroupSecrets}
    (h : fromBytes.all raw = .ok entries) : opaqueForm.items raw (entries.flatMap fields) := by
  obtain ⟨encs, rfl, hall⟩ := spelled_fromBytes.all h
  clear h
  induction hall with
  | nil => exact ⟨[], rfl, .nil⟩
  | cons hentry _ ih =>
      obtain ⟨spellings, rfl, hfields⟩ := hentry
      obtain ⟨spellings', hrest, hfields'⟩ := ih
      refine ⟨spellings ++ spellings', ?_, List.rel_append hfields hfields'⟩
      rw [List.flatten_append, ← hrest]
      rfl

end EncryptedGroupSecrets

/-! ## The Welcome in its envelope -/

namespace DialectWelcome

theorem spelled_readBody : Spelled (readBody .standard) fun enc welcome => ∃ v raw info,
    enc = beBytes 2 welcome.cipherSuite ++ (v ++ (raw ++ info)) ∧ Rfc.VarintForm v raw.length ∧
    opaqueForm.items raw (welcome.encryptedGroupSecrets.flatMap EncryptedGroupSecrets.fields) ∧
    opaqueForm info welcome.encryptedGroupInfo := by
  have hlift : ∀ vec : List Bytes, Spelled
      (Decoder.lift (EncryptedGroupSecrets.fromBytes.all (vec.headD []))) fun enc entries =>
        enc = [] ∧ opaqueForm.items (vec.headD []) (entries.flatMap EncryptedGroupSecrets.fields) :=
    fun vec => .lift fun entries h => ⟨rfl, EncryptedGroupSecrets.spelled_all h⟩
  have hvector := Strategy.standard.spelledIff_vector.spelled
  refine ((spelled_unpackFrom 2).bind fun suite => hvector.bind fun vec =>
    (hlift vec).bind fun entries =>
    hvector.bind_pure fun vec' => Welcome.mk suite entries (vec'.headD [])).mono ?_
  rintro enc welcome ⟨_, _, suite, rfl, ⟨-, rfl⟩, _, _, vec, rfl, ⟨raw, ⟨v, hv, rfl⟩, rfl⟩, _, info,
    entries, rfl, ⟨rfl, hentries⟩, vec', ⟨body, hbody, rfl⟩, rfl⟩
  exact ⟨v, raw, info, by simp, hv, hentries, hbody⟩

variable {welcome : DialectWelcome} {entries egs egi : Bytes}

theorem Encoded.canonical_vectors (h : Encoded .standard welcome entries egs egi) :
    entries.length < 2 ^ 30 ∧ entries =
      ((welcome.encryptedGroupSecrets.flatMap EncryptedGroupSecrets.fields).map canonical).flatten ∧
    egs = canonical entries ∧ egi = canonical welcome.encryptedGroupInfo := by
  obtain ⟨hjoined, hegs, hegi⟩ := h
  simp only [Strategy.encodeVector, Strategy.tlsLength, Py.bind_eq_ok, Py.pure_eq, Except.ok.injEq,
    List.flatten_singleton, tlsVarint_eq_ok] at hegs hegi
  obtain ⟨_, ⟨hlt, rfl⟩, rfl⟩ := hegs
  obtain ⟨_, ⟨-, rfl⟩, rfl⟩ := hegi
  exact ⟨hlt, EncryptedGroupSecrets.joinBytes_canonical hjoined, rfl, rfl⟩

/-- With the length of the envelope in front it is not read as the same Welcome. -/
theorem Encoded.not_reread (h : Encoded .standard welcome entries egs egi)
    (hne : welcome.encryptedGroupSecrets ≠ []) {buf body : Bytes} {offset next : ℕ}
    (hle : offset ≤ buf.length) (hbody : body = [0x00, 0x01] ++ egs ++ egi)
    (hdrop : buf.drop offset = beBytes 4 body.length ++ body)
    (h32 : body.length < 2 ^ 32) : readBody .standard buf offset ≠
      .ok (⟨0x0001, welcome.encryptedGroupSecrets, welcome.encryptedGroupInfo⟩, next) := by
  intro hread
  obtain ⟨enc, rest, hdrop', -, v, raw, info, rfl, hv, hraw, hinfo⟩ :=
    spelled_readBody _ _ _ _ hle hread
  obtain ⟨hlt, hentries, rfl, rfl⟩ := h.canonical_vectors
  obtain ⟨entry, more, hsecrets⟩ := List.exists_cons_of_ne_nil hne
  have hfields : welcome.encryptedGroupSecrets.flatMap EncryptedGroupSecrets.fields =
      entry.newMember :: entry.kemOutput :: entry.ciphertext :: more.flatMap
        EncryptedGroupSecrets.fields := by
    rw [hsecrets]
    rfl
  change opaqueForm info welcome.encryptedGroupInfo at hinfo
  rw [hfields] at hraw hentries
  -- the cipher suite is the upper half of the length
  have heq : [0x00, 0x01] ++ (v ++ (raw ++ (info ++ rest))) = beBytes 4 body.length ++ body := by
    rw [← hdrop, hdrop']
    simp [beBytes]
  obtain ⟨hhigh, heq⟩ := List.cons.inj heq
  obtain ⟨hlow, heq⟩ := List.cons.inj heq
  have hhigh' : 0 = body.length / 256 ^ 3 % 2 ^ 8 := congrArg UInt8.toNat hhigh
  have hlow' : 1 = body.length / 256 ^ 2 % 2 ^ 8 := congrArg UInt8.toNat hlow
  have hlen := congrArg List.length hbody
  simp only [canonical, List.length_append, List.length_cons, List.length_nil] at hlen
  have hrest : v ++ (raw ++ (info ++ rest)) =
      UInt8.ofNat (body.length / 256 ^ 1) :: UInt8.ofNat (body.length / 256 ^ 0) :: 0 :: 1 ::
        (Rfc.varint entries.length ++ (entries ++ canonical welcome.encryptedGroupInfo)) := by
    refine heq.trans ?_
    rw [beBytes, beBytes, beBytes, hbody, canonical]
    simp
  rw [hentries] at hrest
  refine Shifted.not_reparsed hv hraw hinfo rfl (hentries ▸ hlt) ?_ ?_ hrest
  all_goals
    rw [← hentries, canonical, List.length_append]
    omega

/-! ## The envelope -/

/-- `MLSMessage.wrap_welcome(welcome).to_bytes()` -/
def envelope (welcome : DialectWelcome) : Py Bytes :=
  MLSMessage.wrapWelcome welcome >>= MLSMessage.toBytes

/-- The Welcome that a decoder of the standard dialect has read. -/
def standardRead (welcome : DialectWelcome) : DialectWelcome :=
  { welcome with dialect := some "standard" }

/-- The Welcome comes back on every path. -/
structure ComesBack (welcome : DialectWelcome) (data : Bytes) : Prop where
  stripped : fromMlsmessageBytes data = .ok welcome
  direct : fromBytes data none = .ok welcome
  unwrapped : (MLSMessage.fromBytes data >>= MLSMessage.unwrapWelcome) = .ok welcome

def EnvelopesAgree (welcome : DialectWelcome) : Prop :=
  ∃ data, welcome.envelope = .ok data ∧ welcome.ComesBack data

theorem envelope_eq_ok {data : Bytes} (h : welcome.envelope = .ok data) : ∃ body,
    welcome.toBytes = .ok body ∧ MLSMessage.toBytes ⟨0x0003, body⟩ = .ok data ∧
    body.length < 2 ^ 32 ∧ data = [0x00, 0x01, 0x00, 0x03] ++ (beBytes 4 body.length ++ body) := by
  obtain ⟨message, hwrap, hdata⟩ := Py.bind_eq_ok.mp h
  obtain ⟨body, hbody, hmessage⟩ := Py.bind_eq_ok.mp hwrap
  obtain rfl : (⟨0x0003, body⟩ : MLSMessage) = message := Except.ok.inj hmessage
  refine ⟨body, hbody, hdata, ?_⟩
  simp only [MLSMessage.toBytes, tlsU16, tlsOpaque32, tlsU32, Py.bind_eq_ok, Py.pure_eq,
    Except.ok.injEq, structPack_eq_ok] at hdata
  obtain ⟨_, ⟨-, rfl⟩, _, ⟨-, rfl⟩, _, ⟨_, ⟨hlt, rfl⟩, rfl⟩, rfl⟩ := hdata
  exact ⟨hlt, rfl⟩

theorem fromBytes_standard {data : Bytes} : fromBytes data none =
    readBody .standard data (bodyOffset .standard data) >>= fun read =>
      .ok ⟨read.1, some "standard"⟩ := rfl

theorem fromBytes_of_read {data : Bytes} {read : Welcome} {next : ℕ}
    (h : readBody .standard data (bodyOffset .standard data) = .ok (read, next)) :
    fromBytes data none = .ok ⟨read, some "standard"⟩ := by
  rw [fromBytes_standard, h, Py.ok_bind]

/-- A Welcome that is read in the standard dialect, behind the header if there is one. -/
theorem fromBytes_eq_standardRead (hsuite : welcome.cipherSuite = 0x0001) {data : Bytes}
    (h : fromBytes data none = .ok welcome.standardRead) : ∃ next,
    readBody .standard data (bodyOffset .standard data) =
      .ok (⟨0x0001, welcome.encryptedGroupSecrets, welcome.encryptedGroupInfo⟩, next) := by
  rw [fromBytes_standard] at h
  obtain ⟨⟨read, next⟩, hread, hwelcome⟩ := Py.bind_eq_ok.mp h
  refine ⟨next, hread.trans ?_⟩
  have hinj := congrArg toWelcome (Except.ok.inj hwelcome)
  change read = ⟨welcome.cipherSuite, _, _⟩ at hinj
  rw [hinj, hsuite]

variable {body data : Bytes}

/-- The header is stepped over, and the length of the envelope is read as part of the Welcome. -/
theorem Encoded.direct_ne (h : Encoded .standard welcome entries egs egi)
    (hne : welcome.encryptedGroupSecrets ≠ []) (hsuite : welcome.cipherSuite = 0x0001)
    (hbody : body = [0x00, 0x01] ++ egs ++ egi) (h32 : body.length < 2 ^ 32)
    (hdata : data = [0x00, 0x01, 0x00, 0x03] ++ (beBytes 4 body.length ++ body)) :
    fromBytes data none ≠ .ok welcome.standardRead := by
  intro hread
  obtain ⟨next, hread⟩ := fromBytes_eq_standardRead hsuite hread
  rw [bodyOffset_standard, if_pos (hdata ▸ List.prefix_append _ _)] at hread
  refine h.not_reread hne ?_ hbody ?_ h32 hread
  · rw [hdata]
    simp
  · rw [hdata]
    rfl

/-- Without the header the length counts as a header when it says 65539, else as part of the
Welcome. -/
theorem Encoded.stripped_iff (h : Encoded .standard welcome entries egs egi)
    (hne : welcome.encryptedGroupSecrets ≠ []) (hsuite : welcome.cipherSuite = 0x0001)
    (hbody : body = [0x00, 0x01] ++ egs ++ egi) (h32 : body.length < 2 ^ 32)
    (hdata : data = [0x00, 0x01, 0x00, 0x03] ++ (beBytes 4 body.length ++ body)) :
    fromMlsmessageBytes data = .ok welcome.standardRead ↔ body.length = 65539 := by
  have hdrop : data.drop 4 = beBytes 4 body.length ++ body := by
    rw [hdata]
    rfl
  rw [fromMlsmessageBytes, hdrop]
  constructor
  · intro hread
    obtain ⟨next, hread⟩ := fromBytes_eq_standardRead hsuite hread
    by_contra hlen
    have hheader : ¬ [0x00, 0x01, 0x00, 0x03] <+: beBytes 4 body.length ++ body := by
      rintro ⟨tail, htail⟩
      have hsame := (List.append_inj htail rfl).1
      rw [← beNat_beBytes (n := 4) h32, ← hsame] at hlen
      exact hlen rfl
    rw [bodyOffset_standard, if_neg hheader] at hread
    exact h.not_reread hne (Nat.zero_le _) hbody rfl h32 hread
  · intro hlen
    have hheader : beBytes 4 body.length = [0x00, 0x01, 0x00, 0x03] := by
      rw [hlen]
      rfl
    have hread := h.readsAs.at_start [0x00, 0x01, 0x00, 0x03] []
    rw [List.append_nil, ← hbody, ← hheader, ← hsuite] at hread
    have hoffset :
      bodyOffset .standard (beBytes 4 body.length ++ body) = (beBytes 4 body.length).length := by
      rw [bodyOffset_standard, if_pos (hheader ▸ List.prefix_append _ _), length_beBytes]
    exact fromBytes_of_read ((congrArg (readBody .standard _) hoffset).trans hread)

end DialectWelcome

/-- The envelope paths agree on no standard Welcome: `from_bytes` never returns it,
`from_mlsmessage_bytes` for a body of 65539 bytes only. -/
theorem envelopes_disagree {welcome : DialectWelcome} (hname : welcome.dialectName = "standard")
    (hsuite : welcome.cipherSuite = 0x0001) (hentries : welcome.encryptedGroupSecrets ≠ []) :
    ¬ welcome.EnvelopesAgree ∧
    ∀ body data, welcome.toBytes = .ok body → welcome.envelope = .ok data →
      (MLSMessage.fromBytes data >>= MLSMessage.unwrapWelcome) = .ok welcome.standardRead ∧
      DialectWelcome.fromBytes data none ≠ .ok welcome.standardRead ∧
      (DialectWelcome.fromMlsmessageBytes data = .ok welcome.standardRead ↔
        body.length = 65539) := by
  have hstandard : welcome.dialectName = Strategy.standard.name := hname
  have hdirect : ∀ data, welcome.envelope = .ok data →
      DialectWelcome.fromBytes data none ≠ .ok welcome.standardRead := by
    intro data hdata
    obtain ⟨body, hbody, -, h32, hshape⟩ := DialectWelcome.envelope_eq_ok hdata
    obtain ⟨entries, egs, egi, hencoded, hbytes⟩ := DialectWelcome.toBytes_encoded hstandard hbody
    exact hencoded.direct_ne hentries hsuite hbytes h32 hshape
  refine ⟨?_, fun body data hbody hdata => ?_⟩
  · rintro ⟨data, hdata, hcomes⟩
    have hdialect : welcome.standardRead = welcome := by
      obtain ⟨⟨read, next⟩, -, hwelcome⟩ := Py.bind_eq_ok.mp
        (DialectWelcome.fromBytes_standard.symm.trans hcomes.direct)
      rw [← Except.ok.inj hwelcome]
      rfl
    exact hdirect data hdata (hdialect.symm ▸ hcomes.direct)
  · obtain ⟨body', hbody', hmessage, h32, hshape⟩ := DialectWelcome.envelope_eq_ok hdata
    obtain rfl : body' = body := Except.ok.inj (hbody'.symm.trans hbody)
    obtain ⟨entries, egs, egi, hencoded, hbytes⟩ := DialectWelcome.toBytes_encoded hstandard hbody
    refine ⟨?_, hdirect data hdata, hencoded.stripped_iff hentries hsuite hbytes h32 hshape⟩
    have hplain : ¬ DialectWelcome.LooksWrapped .standard welcome :=
      fun hlooks => hentries hlooks.2.1
    have hread : MLSMessage.fromBytes data = .ok ⟨0x0003, body'⟩ :=
      (MLSMessage.readsAs hmessage).run_self
    have hround := hencoded.round_trip hplain
    rw [← hbytes, ← hsuite] at hround
    rw [hread, Py.ok_bind, MLSMessage.unwrapWelcome, Py.require_of _ rfl]
    exact hround

/-- One entry in the standard dialect. -/
def Sample.standardWelcome : DialectWelcome :=
  ⟨⟨0x0001, [Sample.groupSecrets], ascii "info"⟩, some "standard"⟩

theorem envelopes_disagree_standard : ¬ Sample.standardWelcome.EnvelopesAgree :=
  (envelopes_disagree rfl rfl (List.cons_ne_nil _ _)).1

/-- Two decoders read the length as a cipher suite and no entries, and all of the body as the group
info. -/
theorem wrapped_welcome_misread : ∃ body data, Sample.standardWelcome.toBytes = .ok body ∧
    Sample.standardWelcome.envelope = .ok data ∧
    DialectWelcome.fromMlsmessageBytes data = .ok ⟨⟨0x0000, [], body⟩, some "standard"⟩ ∧
    DialectWelcome.fromBytes data none = .ok ⟨⟨0x0000, [], body⟩, some "standard"⟩ ∧
    ¬ Sample.standardWelcome.EnvelopesAgree := by
  let body :=
    [0x00, 0x01, 25, 9] ++ ascii "reference" ++ [6] ++ ascii "output" ++ [7] ++ ascii "secrets" ++
    [4] ++ ascii "info"
  let data := [0x00, 0x01, 0x00, 0x03, 0, 0, 0, 33] ++ body
  have hdata : Sample.standardWelcome.envelope = .ok data := by decide
  have hdirect :
    DialectWelcome.fromBytes data none = .ok ⟨⟨0x0000, [], body⟩, some "standard"⟩ := by decide
  refine ⟨body, data, by decide, hdata, by decide, hdirect, ?_⟩
  rintro ⟨data', hdata', hcomes⟩
  obtain rfl : data = data' := Except.ok.inj (hdata.symm.trans hdata')
  have hsame := congrArg DialectWelcome.toWelcome (Except.ok.inj (hdirect.symm.trans hcomes.direct))
  exact absurd (congrArg Welcome.cipherSuite hsame) (by decide)

end PureMls
