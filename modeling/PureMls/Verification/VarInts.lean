import PureMls.Verification.Spellings

/-! # Variable-size integers with two encodings

`tls_varint` writes the shortest form of a length and `_varint_decode` reads it back, at any place
of any buffer. It also reads the longer forms, whose first bytes give them away. -/

namespace PureMls

/-! ## Forms and their bytes -/

/-- The bytes of a variable-size integer: the first two bits tell how many there are. -/
theorem Rfc.VarintForm.bytes {enc : Bytes} {n : ℕ} (h : Rfc.VarintForm enc n) :
    (∃ a, enc = [a] ∧ a.toNat < 64 ∧ n = a.toNat) ∨
    (∃ a b, enc = [a, b] ∧ 64 ≤ a.toNat ∧ a.toNat < 128 ∧ n = (a.toNat - 64) * 256 + b.toNat) ∨
    ∃ a b c d, enc = [a, b, c, d] ∧ 128 ≤ a.toNat ∧ a.toNat < 192 ∧
      n = (a.toNat - 128) * 2 ^ 24 + b.toNat * 2 ^ 16 + c.toNat * 2 ^ 8 + d.toNat := by
  cases h with
  | one hn =>
      refine .inl ⟨_, rfl, ?_, ?_⟩
      all_goals simp only [UInt8.toNat_ofNat', pow_zero, Nat.div_one]; omega
  | two hn =>
      refine .inr (.inl ⟨_, _, rfl, ?_, ?_, ?_⟩)
      all_goals simp only [UInt8.toNat_ofNat', pow_zero, pow_one, Nat.div_one]; omega
  | four hn =>
      refine .inr (.inr ⟨_, _, _, _, rfl, ?_, ?_, ?_⟩)
      all_goals simp only [UInt8.toNat_ofNat', pow_zero, pow_one, Nat.div_one]; omega

theorem Rfc.VarintForm.of_one {a : UInt8} (ha : a.toNat < 64) : Rfc.VarintForm [a] a.toNat := by
  have hform := beBytes_beNat [a]
  have hnat : beNat [a] = a.toNat := by simp [beNat]
  rw [hnat] at hform
  exact hform ▸ .one ha

theorem Rfc.VarintForm.of_two {a : UInt8} (b : UInt8) (ha : 64 ≤ a.toNat) (ha' : a.toNat < 128) :
    Rfc.VarintForm [a, b] ((a.toNat - 64) * 256 + b.toNat) := by
  have hb := b.toNat_lt
  have hform := beBytes_beNat [a, b]
  have hnat : beNat [a, b] = 2 ^ 14 + ((a.toNat - 64) * 256 + b.toNat) := by
    simp [beNat]
    omega
  rw [hnat] at hform
  exact hform ▸ .two (by omega)

theorem Rfc.VarintForm.of_four {a : UInt8} (b c d : UInt8) (ha : 128 ≤ a.toNat)
    (ha' : a.toNat < 192) : Rfc.VarintForm [a, b, c, d]
      ((a.toNat - 128) * 2 ^ 24 + b.toNat * 2 ^ 16 + c.toNat * 2 ^ 8 + d.toNat) := by
  have hb := b.toNat_lt
  have hc := c.toNat_lt
  have hd := d.toNat_lt
  have hform := beBytes_beNat [a, b, c, d]
  have hnat : beNat [a, b, c, d] =
      2 ^ 31 + ((a.toNat - 128) * 2 ^ 24 + b.toNat * 2 ^ 16 + c.toNat * 2 ^ 8 + d.toNat) := by
    simp [beNat]
    omega
  rw [hnat] at hform
  exact hform ▸ .four (by omega)

theorem Rfc.VarintForm.ne_nil {enc : Bytes} {n : ℕ} (h : Rfc.VarintForm enc n) : enc ≠ [] := by
  cases h with
  | one hn => exact List.cons_ne_nil _ _
  | two hn => exact List.cons_ne_nil _ _
  | four hn => exact List.cons_ne_nil _ _

theorem Rfc.varint_one {n : ℕ} (h : n < 2 ^ 6) : ∃ a, Rfc.varint n = [a] ∧ a.toNat = n := by
  refine ⟨UInt8.ofNat n, ?_, ?_⟩
  · rw [Rfc.varint, if_pos h]
    simp [beBytes]
  · rw [UInt8.toNat_ofNat']
    omega

theorem Rfc.varint_two {n : ℕ} (h : 2 ^ 6 ≤ n) (hlt : n < 2 ^ 14) :
    ∃ a b, Rfc.varint n = [a, b] ∧ 64 ≤ a.toNat ∧ a.toNat < 128 ∧
    n = (a.toNat - 64) * 256 + b.toNat := by
  have hvarint : Rfc.varint n = beBytes 2 (2 ^ 14 + n) := by
    rw [Rfc.varint, if_neg (by omega), if_pos hlt]
  refine ⟨_, _, hvarint, ?_⟩
  simp only [UInt8.toNat_ofNat', pow_zero, pow_one, Nat.div_one]
  omega

/-! ## Forms and their lengths -/

theorem Rfc.length_varint_eq (n : ℕ) :
    (Rfc.varint n).length = if n < 2 ^ 6 then 1 else if n < 2 ^ 14 then 2 else 4 := by
  unfold Rfc.varint
  split_ifs
  · exact length_beBytes 1 n
  · exact length_beBytes 2 _
  · exact length_beBytes 4 _

theorem Rfc.VarintForm.length_le {enc : Bytes} {n : ℕ} (h : Rfc.VarintForm enc n) :
    (Rfc.varint n).length ≤ enc.length := by
  unfold Rfc.varint
  cases h with
  | one hn => rw [if_pos hn]
  | two hn => split_ifs <;> simp
  | four hn => split_ifs <;> simp

/-- A number has at most one form of each length. -/
theorem Rfc.VarintForm.eq_of_length {enc enc' : Bytes} {n : ℕ} (h : Rfc.VarintForm enc n)
    (h' : Rfc.VarintForm enc' n) (hlen : enc.length = enc'.length) : enc = enc' := by
  cases h with
  | one hn =>
      cases h' with
      | one hn' => rfl
      | two hn' => simp at hlen
      | four hn' => simp at hlen
  | two hn =>
      cases h' with
      | one hn' => simp at hlen
      | two hn' => rfl
      | four hn' => simp at hlen
  | four hn =>
      cases h' with
      | one hn' => simp at hlen
      | two hn' => simp at hlen
      | four hn' => rfl

/-- Every form but the shortest is longer. -/
theorem Rfc.VarintForm.eq_varint_iff {enc : Bytes} {n : ℕ} (h : Rfc.VarintForm enc n) :
    enc = Rfc.varint n ↔ ¬ (Rfc.varint n).length < enc.length := by
  constructor
  · rintro rfl
    exact lt_irrefl _
  · intro hle
    exact h.eq_of_length (Rfc.varintForm_varint h.lt) (le_antisymm (Nat.not_lt.mp hle) h.length_le)

/-! ## Padding -/

/-- What begins with `40` and a byte below `40`, or with `80 00` and a byte below `40`, is a length
below 64 in two bytes, or one below 2^14 in four. -/
def Padded (bytes : Bytes) : Prop :=
  (∃ b rest, bytes = 0x40 :: b :: rest ∧ b < 0x40) ∨
    ∃ b rest, bytes = 0x80 :: 0x00 :: b :: rest ∧ b < 0x40

theorem not_padded_cons {a : UInt8} {rest : Bytes} (h40 : a ≠ 0x40) (h80 : a ≠ 0x80) :
    ¬ Padded (a :: rest) := by
  rintro (⟨_, _, heq, -⟩ | ⟨_, _, heq, -⟩)
  · exact h40 (List.cons.inj heq).1
  · exact h80 (List.cons.inj heq).1

theorem padded_two {b : UInt8} {rest : Bytes} : Padded (0x40 :: b :: rest) ↔ b.toNat < 64 := by
  constructor
  · rintro (⟨_, _, heq, hlt⟩ | ⟨_, _, heq, -⟩)
    · obtain rfl := (List.cons.inj (List.cons.inj heq).2).1
      exact UInt8.lt_iff_toNat_lt.mp hlt
    · exact absurd (List.cons.inj heq).1 (by decide)
  · intro hlt
    exact .inl ⟨b, rest, rfl, UInt8.lt_iff_toNat_lt.mpr hlt⟩

theorem padded_four {b c : UInt8} {rest : Bytes} :
    Padded (0x80 :: b :: c :: rest) ↔ b.toNat = 0 ∧ c.toNat < 64 := by
  constructor
  · rintro (⟨_, _, heq, -⟩ | ⟨_, _, heq, hlt⟩)
    · exact absurd (List.cons.inj heq).1 (by decide)
    · obtain ⟨hb, heq⟩ := List.cons.inj (List.cons.inj heq).2
      obtain rfl := (List.cons.inj heq).1
      exact ⟨congrArg UInt8.toNat hb, UInt8.lt_iff_toNat_lt.mp hlt⟩
  · rintro ⟨hb, hc⟩
    obtain rfl : b = 0 := UInt8.toNat_inj.mp hb
    exact .inr ⟨c, rest, rfl, UInt8.lt_iff_toNat_lt.mpr hc⟩

/-- The first bytes of a form show whether there is a shorter one. -/
theorem Rfc.VarintForm.padded_iff {enc : Bytes} {n : ℕ} (h : Rfc.VarintForm enc n) (rest : Bytes) :
    Padded (enc ++ rest) ↔ (Rfc.varint n).length < enc.length := by
  have hne : ∀ {a v : UInt8}, a.toNat ≠ v.toNat → a ≠ v :=
    fun hval heq => hval (congrArg UInt8.toNat heq)
  rcases h.bytes with ⟨a, rfl, ha, hn⟩ | ⟨a, b, rfl, ha, ha', hn⟩ | ⟨a, b, c, d, rfl, ha, ha', hn⟩
  · rw [Rfc.length_varint_eq, if_pos (by omega)]
    exact iff_of_false (not_padded_cons (hne (by simp; omega)) (hne (by simp; omega))) (by simp)
  · have hb := b.toNat_lt
    by_cases h40 : a = 0x40
    · subst h40
      have hval : n = b.toNat := by simpa using hn
      rw [Rfc.length_varint_eq, hval]
      refine padded_two.trans ?_
      split_ifs <;> simp <;> omega
    · have hlead : a.toNat ≠ 64 := fun heq => h40 (UInt8.toNat_inj.mp heq)
      rw [Rfc.length_varint_eq, if_neg (by omega), if_pos (by omega)]
      exact iff_of_false (not_padded_cons h40 (hne (by simp; omega))) (by simp)
  · have hb := b.toNat_lt
    have hc := c.toNat_lt
    have hd := d.toNat_lt
    by_cases h80 : a = 0x80
    · subst h80
      have hval : n = b.toNat * 2 ^ 16 + c.toNat * 2 ^ 8 + d.toNat := by simpa using hn
      rw [Rfc.length_varint_eq]
      refine padded_four.trans ?_
      split_ifs <;> simp <;> omega
    · have hlead : a.toNat ≠ 128 := fun heq => h80 (UInt8.toNat_inj.mp heq)
      rw [Rfc.length_varint_eq, if_neg (by omega), if_neg (by omega)]
      exact iff_of_false (not_padded_cons (hne (by simp; omega)) h80) (by simp)

theorem Rfc.VarintForm.shortest_iff {enc : Bytes} {n : ℕ} (h : Rfc.VarintForm enc n)
    (rest : Bytes) : enc = Rfc.varint n ↔ ¬ Padded (enc ++ rest) := by
  rw [h.eq_varint_iff, h.padded_iff]

/-- But for the leads `0x40` and `0x80` it is in its shortest form. -/
theorem Rfc.VarintForm.shortest {a : UInt8} {tail : Bytes} {n : ℕ}
    (h : Rfc.VarintForm (a :: tail) n) (h40 : a ≠ 0x40)
    (h80 : a ≠ 0x80) : a :: tail = Rfc.varint n :=
  (h.shortest_iff []).mpr (not_padded_cons h40 h80)

/-! ## What is read and written -/

theorem offset_le_of_varintDecode {buf : Bytes} {offset v next : ℕ}
    (h : varintDecode buf offset = .ok (v, next)) : offset ≤ buf.length := by
  obtain ⟨first, hfirst, -⟩ := Py.bind_eq_ok.mp h
  obtain ⟨b, hb, -⟩ := byteAt_eq_ok.mp hfirst
  exact (List.getElem?_eq_some_iff.mp hb).1.le

/-- What was read comes back if and only if it was not padded. -/
theorem tlsVarint_varintDecode_iff {buf : Bytes} {offset v next : ℕ}
    (h : varintDecode buf offset = .ok (v, next)) :
    tlsVarint v = .ok (slice buf offset next) ↔ ¬ Padded (buf.drop offset) := by
  obtain ⟨enc, rest, hdrop, rfl, hform⟩ :=
    spelled_varint buf offset v next (offset_le_of_varintDecode h) h
  rw [tlsVarint_eq_ok, slice_of_drop_eq hdrop, hdrop, ← hform.shortest_iff rest,
    and_iff_right hform.lt]
  exact eq_comm

/-- Every length is read back from where it was written. A length that is read was written so if and
only if it does not begin with a padded lead, and but for these it has a single encoding. -/
theorem varint_canonical_iff (n : ℕ) (buf : Bytes) (offset : ℕ) :
    (n < 2 ^ 30 → ∃ enc, tlsVarint n = .ok enc ∧ ∀ front back : Bytes,
      varintDecode (front ++ (enc ++ back)) front.length = .ok (n, front.length + enc.length)) ∧
    (∀ v next, varintDecode buf offset = .ok (v, next) →
      (tlsVarint v = .ok (slice buf offset next) ↔ ¬ Padded (buf.drop offset))) ∧
    ∀ buf' offset' v next next', varintDecode buf offset = .ok (v, next) →
      varintDecode buf' offset' = .ok (v, next') → ¬ Padded (buf.drop offset) →
      ¬ Padded (buf'.drop offset') → slice buf offset next = slice buf' offset' next' := by
  refine ⟨fun hn => ?_, fun v next h => tlsVarint_varintDecode_iff h, ?_⟩
  · obtain ⟨enc, henc⟩ := returns_varint hn
    exact ⟨enc, henc, (readsAs_varint henc).at_start⟩
  · intro buf' offset' v next next' h h' hpad hpad'
    have henc := (tlsVarint_varintDecode_iff h).mpr hpad
    have henc' := (tlsVarint_varintDecode_iff h').mpr hpad'
    exact Except.ok.inj (henc.symm.trans henc')

/-- The length 300, written as `41 2c`. -/
theorem varint_canonical_300 :
    (∃ enc, tlsVarint 300 = .ok enc ∧ ∀ front back : Bytes,
      varintDecode (front ++ (enc ++ back)) front.length = .ok (300, front.length + enc.length)) ∧
    tlsVarint 300 = .ok [0x41, 0x2c] ∧
    slice [0x41, 0x2c] 0 2 = slice [0x07, 0x41, 0x2c] 1 3 := by
  have hunpadded : ¬ Padded [0x41, 0x2c] := not_padded_cons (by decide) (by decide)
  obtain ⟨hwritten, hread, hunique⟩ := varint_canonical_iff 300 [0x41, 0x2c] 0
  exact ⟨hwritten (by decide), (hread 300 2 rfl).mpr hunpadded,
    hunique [0x07, 0x41, 0x2c] 1 300 2 3 rfl rfl hunpadded hunpadded⟩

/-- The length 5 is also read from `40 05` and from `80 00 00 05`. -/
theorem padded_length_accepted :
    varintDecode [0x40, 0x05] 0 = .ok (5, 2) ∧ varintDecode [0x80, 0x00, 0x00, 0x05] 0 = .ok
      (5, 4) ∧
    ¬ ∀ buf offset v next, varintDecode buf offset = .ok (v, next) →
      tlsVarint v = .ok (slice buf offset next) := by
  refine ⟨rfl, rfl, fun hall => ?_⟩
  have hback := hall [0x40, 0x05] 0 5 2 rfl
  exact absurd hback (by decide)

end PureMls
