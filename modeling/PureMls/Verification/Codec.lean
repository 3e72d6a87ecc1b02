import PureMls.Foundation.Cuts
import PureMls.Foundation.Grammar
import PureMls.Model.Messages

/-! # Reading back what the TLS primitives write -/

namespace PureMls

/-! ## Fixed-size integers -/

theorem byteAt_of_drop {buf enc rest : Bytes} {offset i : ℕ} {b : UInt8}
    (h : buf.drop offset = enc ++ rest) (hb : enc[i]? = some b) :
    byteAt buf (offset + i) = .ok b.toNat := by
  have hi : i < enc.length := (List.getElem?_eq_some_iff.mp hb).1
  have hget : buf[offset + i]? = some b := by
    rw [← List.getElem?_drop, h, List.getElem?_append_left hi, hb]
  simp [byteAt, hget]

theorem length_of_drop {buf enc rest : Bytes} {offset : ℕ} (hle : offset ≤ buf.length)
    (h : buf.drop offset = enc ++ rest) : offset + enc.length ≤ buf.length := by
  have hlen := congrArg List.length h
  simp only [List.length_drop, List.length_append] at hlen
  omega

theorem readsAs_u8 {v : ℕ} {e : Bytes} (h : tlsU8 v = .ok e) : ReadsAs readU8 e v := by
  intro buf rest offset hle hdrop
  obtain ⟨hv, rfl⟩ := structPack_eq_ok.mp h
  have hbyte : (beBytes 1 v)[0]? = some (UInt8.ofNat v) := by simp [beBytes]
  have hval : (UInt8.ofNat v).toNat = v := by
    rw [UInt8.toNat_ofNat', Nat.mod_eq_of_lt (by simpa using hv)]
  have hread := byteAt_of_drop hdrop hbyte
  rw [Nat.add_zero, hval] at hread
  simp [readU8, hread]

theorem readsAs_unpackFrom {n v : ℕ} {e : Bytes} (h : structPack n v = .ok e) :
    ReadsAs (unpackFrom n) e v := by
  intro buf rest offset hle hdrop
  obtain ⟨hv, rfl⟩ := structPack_eq_ok.mp h
  have hend := length_of_drop hle hdrop
  have hslice := slice_of_drop_eq hdrop
  rw [length_beBytes] at hend hslice
  simp [unpackFrom, hend, hslice, beNat_beBytes hv]

theorem readsAs_u16 {v : ℕ} {e : Bytes} (h : tlsU16 v = .ok e) : ReadsAs readU16 e v :=
  readsAs_unpackFrom h

theorem readsAs_u32 {v : ℕ} {e : Bytes} (h : tlsU32 v = .ok e) : ReadsAs readU32 e v :=
  readsAs_unpackFrom h

theorem readsAs_u64 {v : ℕ} {e : Bytes} (h : tlsU64 v = .ok e) : ReadsAs readU64 e v :=
  readsAs_unpackFrom h

/-! ## Variable-size integers -/

theorem and_3 (a : ℕ) : a &&& 0x3 = a % 4 := Nat.and_two_pow_sub_one_eq_mod a 2

theorem and_3F (a : ℕ) : a &&& 0x3F = a % 64 := Nat.and_two_pow_sub_one_eq_mod a 6

private theorem and_FFFF (a : ℕ) : a &&& 0xFFFF = a % 65536 :=
  Nat.and_two_pow_sub_one_eq_mod a 16

private theorem and_FFFFFFFF (a : ℕ) : a &&& 0xFFFFFFFF = a % 4294967296 :=
  Nat.and_two_pow_sub_one_eq_mod a 32

private theorem or_tag {n : ℕ} (i : ℕ) (hn : n < 2 ^ i) : n ||| 2 ^ i = 2 ^ i + n := by
  have h := Nat.shiftLeft_add_eq_or_of_lt hn 1
  rw [Nat.one_shiftLeft] at h
  rw [Nat.or_comm, ← h]

theorem shift_or {a b : ℕ} (i : ℕ) (hb : b < 2 ^ i) : (a <<< i) ||| b = a * 2 ^ i + b := by
  rw [← Nat.shiftLeft_add_eq_or_of_lt hb, Nat.shiftLeft_eq]

/-- `tls_varint` writes the shortest form, and fails from 2^30 on. -/
theorem tlsVarint_eq_ok {n : ℕ} {e : Bytes} :
    tlsVarint n = .ok e ↔ n < 2 ^ 30 ∧ Rfc.varint n = e := by
  unfold tlsVarint Rfc.varint
  by_cases h1 : n ≤ 0x3F
  · have hone : beBytes 1 n = [UInt8.ofNat n] := by simp [beBytes]
    have hlt : n < 2 ^ 30 := by omega
    rw [if_pos h1, if_pos (by omega : n < 2 ^ 6), hone, Except.ok.injEq, and_iff_right hlt]
  rw [if_neg h1, if_neg (by omega : ¬ n < 2 ^ 6)]
  by_cases h2 : n ≤ 0x3FFF
  · have hor : n ||| 0x4000 = 2 ^ 14 + n := or_tag 14 (by omega)
    rw [if_pos h2, if_pos (by omega : n < 2 ^ 14), toBytesBig_eq_ok, and_FFFF, hor,
      Nat.mod_eq_of_lt (by omega)]
    exact and_congr_left' (by omega)
  rw [if_neg h2, if_neg (by omega : ¬ n < 2 ^ 14)]
  by_cases h3 : n ≤ 0x3FFFFFFF
  · have hor : n ||| 0x80000000 = 2 ^ 31 + n := or_tag 31 (by omega)
    rw [if_pos h3, toBytesBig_eq_ok, and_FFFFFFFF, hor, Nat.mod_eq_of_lt (by omega)]
    exact and_congr_left' (by omega)
  · rw [if_neg h3]
    exact iff_of_false (by simp) (by omega)

/-- The two VarInt encoders agree wherever they succeed. -/
theorem varintEncode_eq_ok {n : ℕ} {e : Bytes} : varintEncode n = .ok e ↔ tlsVarint n = .ok e := by
  unfold varintEncode tlsVarint
  by_cases h3 : n ≤ 0x3FFFFFFF
  · rw [if_pos h3, if_pos (by omega : n ≤ 2 ^ 30 - 1)]
  · rw [if_neg h3, if_neg (by omega : ¬ n ≤ 2 ^ 30 - 1), if_neg (by omega : ¬ n ≤ 0x3FFF),
      if_neg (by omega : ¬ n ≤ 63), if_neg (by omega : ¬ n ≤ 16383), if_neg (by omega : ¬ n ≤ 0x3F)]
    simp

private theorem varint1 {n : ℕ} (h : n ≤ 0x3F) : ReadsAs varintDecode [UInt8.ofNat n] n := by
  intro buf rest offset hle hdrop
  have hval : (UInt8.ofNat n).toNat = n := by
    rw [UInt8.toNat_ofNat', Nat.mod_eq_of_lt (by omega)]
  have hread : byteAt buf offset = .ok n := by
    have hb := byteAt_of_drop hdrop (i := 0) rfl
    rwa [hval] at hb
  have htag : (n >>> 6) &&& 0x3 = 0 := by
    rw [and_3, Nat.shiftRight_eq_div_pow]
    omega
  have hlow : n &&& 0x3F = n := by
    rw [and_3F, Nat.mod_eq_of_lt (by omega)]
  simp [varintDecode, hread, htag, hlow]

/-- The bytes of a big-endian integer, as they are read one by one. -/
private theorem byteAt_beBytes {buf rest : Bytes} {offset n v i : ℕ} (hi : i < n)
    (hdrop : buf.drop offset = beBytes n v ++ rest) :
    byteAt buf (offset + i) = .ok (v / 256 ^ (n - 1 - i) % 256) := by
  have hget : ∀ (n i : ℕ), i < n →
      (beBytes n v)[i]? = some (UInt8.ofNat (v / 256 ^ (n - 1 - i))) := by
    intro n
    induction n with
    | zero => simp
    | succ n ih =>
        intro i hi
        cases i with
        | zero => simp [beBytes]
        | succ i =>
            have hsub : n + 1 - 1 - (i + 1) = n - 1 - i := by omega
            rw [beBytes, List.getElem?_cons_succ, ih i (by omega), hsub]
  rw [byteAt_of_drop hdrop (hget n i hi), UInt8.toNat_ofNat']

private theorem varint2 {n : ℕ} (h : n ≤ 0x3FFF) :
    ReadsAs varintDecode (beBytes 2 (0x4000 + n)) n := by
  intro buf rest offset hle hdrop
  have h0 := byteAt_beBytes (i := 0) (by omega) hdrop
  have h1 := byteAt_beBytes (i := 1) (by omega) hdrop
  have hfirst : (0x4000 + n) / 256 ^ (2 - 1 - 0) % 256 = 64 + n / 256 := by norm_num; omega
  have hsecond : (0x4000 + n) / 256 ^ (2 - 1 - 1) % 256 = n % 256 := by norm_num; omega
  rw [hfirst, Nat.add_zero] at h0
  rw [hsecond] at h1
  have htag : ((64 + n / 256) >>> 6) &&& 0x3 = 1 := by
    rw [and_3, Nat.shiftRight_eq_div_pow]
    omega
  have hmask : (64 + n / 256) &&& 0x3F = n / 256 := by
    rw [and_3F]
    omega
  have hvalue : ((n / 256) <<< 8) ||| (n % 256) = n := by
    have hb : n % 256 < 2 ^ 8 := Nat.mod_lt _ (by norm_num)
    rw [shift_or 8 hb]
    omega
  simp [varintDecode, h0, h1, htag, hmask, hvalue]

private theorem varint4 {n : ℕ} (h : n ≤ 0x3FFFFFFF) :
    ReadsAs varintDecode (beBytes 4 (0x80000000 + n)) n := by
  intro buf rest offset hle hdrop
  have hend := length_of_drop hle hdrop
  rw [length_beBytes] at hend
  have h0 := byteAt_beBytes (i := 0) (by omega) hdrop
  have h1 := byteAt_beBytes (i := 1) (by omega) hdrop
  have h2 := byteAt_beBytes (i := 2) (by omega) hdrop
  have h3 := byteAt_beBytes (i := 3) (by omega) hdrop
  have hfirst : (0x80000000 + n) / 256 ^ (4 - 1 - 0) % 256 = 128 + n / 16777216 := by
    norm_num; omega
  have hsecond : (0x80000000 + n) / 256 ^ (4 - 1 - 1) % 256 = n / 65536 % 256 := by
    norm_num; omega
  have hthird : (0x80000000 + n) / 256 ^ (4 - 1 - 2) % 256 = n / 256 % 256 := by
    norm_num; omega
  have hfourth : (0x80000000 + n) / 256 ^ (4 - 1 - 3) % 256 = n % 256 := by norm_num; omega
  rw [hfirst, Nat.add_zero] at h0
  rw [hsecond] at h1
  rw [hthird] at h2
  rw [hfourth] at h3
  have htag : ((128 + n / 16777216) >>> 6) &&& 0x3 = 2 := by
    rw [and_3, Nat.shiftRight_eq_div_pow]
    omega
  have hmask : (128 + n / 16777216) &&& 0x3F = n / 16777216 := by
    rw [and_3F]
    omega
  have hvalue : ((n / 16777216) <<< 24) ||| ((n / 65536 % 256) <<< 16) |||
      ((n / 256 % 256) <<< 8) ||| (n % 256) = n := by
    have hb : (n / 65536 % 256) <<< 16 < 2 ^ 24 := by rw [Nat.shiftLeft_eq]; omega
    have hc : (n / 256 % 256) <<< 8 < 2 ^ 16 := by rw [Nat.shiftLeft_eq]; omega
    have hab : (n / 16777216) <<< 24 ||| (n / 65536 % 256) <<< 16 = (n / 65536) <<< 16 := by
      rw [shift_or 24 hb, Nat.shiftLeft_eq, Nat.shiftLeft_eq]
      omega
    have habc : (n / 65536) <<< 16 ||| (n / 256 % 256) <<< 8 = (n / 256) <<< 8 := by
      rw [shift_or 16 hc, Nat.shiftLeft_eq, Nat.shiftLeft_eq]
      omega
    have hd : n % 256 < 2 ^ 8 := Nat.mod_lt _ (by norm_num)
    rw [hab, habc, shift_or 8 hd]
    omega
  simp [varintDecode, hend, h0, h1, h2, h3, htag, hmask, hvalue]

/-- Every form of a VarInt is read, not only the shortest. -/
theorem readsAs_varintForm {n : ℕ} {e : Bytes} (h : Rfc.VarintForm e n) :
    ReadsAs varintDecode e n := by
  cases h with
  | one hn =>
      have hone : beBytes 1 n = [UInt8.ofNat n] := by simp [beBytes]
      exact hone ▸ varint1 (by omega)
  | two hn => exact varint2 (by omega)
  | four hn => exact varint4 (by omega)

theorem readsAs_varint {n : ℕ} {e : Bytes} (h : tlsVarint n = .ok e) :
    ReadsAs varintDecode e n := by
  obtain ⟨hlt, rfl⟩ := tlsVarint_eq_ok.mp h
  exact readsAs_varintForm (Rfc.varintForm_varint hlt)

/-! ## Opaque vectors -/

theorem readsAs_checked {data : Bytes} {message : ℕ → ℕ → String} :
    ReadsAs (readChecked data.length message) data data := by
  intro buf rest offset hle hdrop
  have hend := length_of_drop hle hdrop
  rw [readChecked, Py.require_of _ hend, slice_of_drop_eq hdrop]
  rfl

theorem readsAs_slice {data : Bytes} : ReadsAs (readSlice data.length) data data := by
  intro buf rest offset hle hdrop
  rw [readSlice, slice_of_drop_eq hdrop]

theorem readsAs_opaqueV {data e : Bytes} (h : tlsOpaque data = .ok e) :
    ReadsAs readOpaque e data := by
  simp only [tlsOpaque, Py.bind_eq_ok, Py.pure_eq, Except.ok.injEq] at h
  obtain ⟨size, hsize, rfl⟩ := h
  exact (readsAs_varint hsize).bind readsAs_checked

theorem readsAs_opaqueU32 {data e : Bytes} (h : tlsOpaque32 data = .ok e) :
    ReadsAs readOpaque32 e data := by
  simp only [tlsOpaque32, Py.bind_eq_ok, Py.pure_eq, Except.ok.injEq] at h
  obtain ⟨size, hsize, rfl⟩ := h
  exact (readsAs_u32 hsize).bind readsAs_checked

theorem tlsVarint_ne_nil {n : ℕ} {e : Bytes} (h : tlsVarint n = .ok e) : e ≠ [] := by
  obtain ⟨-, rfl⟩ := tlsVarint_eq_ok.mp h
  exact Rfc.varint_ne_nil n

theorem tlsOpaque_ne_nil {data e : Bytes} (h : tlsOpaque data = .ok e) : e ≠ [] := by
  simp only [tlsOpaque, Py.bind_eq_ok, Py.pure_eq, Except.ok.injEq] at h
  obtain ⟨size, hsize, rfl⟩ := h
  simp [tlsVarint_ne_nil hsize]

theorem tlsOpaque32_ne_nil {data e : Bytes} (h : tlsOpaque32 data = .ok e) : e ≠ [] := by
  simp only [tlsOpaque32, tlsU32, Py.bind_eq_ok, Py.pure_eq, Except.ok.injEq] at h
  obtain ⟨size, hsize, rfl⟩ := h
  obtain ⟨-, rfl⟩ := structPack_eq_ok.mp hsize
  simp [beBytes]

/-! ## Sizes of encodings -/

theorem length_tlsVarint {n : ℕ} {e : Bytes} (h : tlsVarint n = .ok e) : e.length ≤ 4 := by
  obtain ⟨-, rfl⟩ := tlsVarint_eq_ok.mp h
  exact Rfc.length_varint n

theorem lt_of_tlsVarint {n : ℕ} {e : Bytes} (h : tlsVarint n = .ok e) : n < 2 ^ 30 :=
  (tlsVarint_eq_ok.mp h).1

theorem length_tlsOpaque {data e : Bytes} (h : tlsOpaque data = .ok e) :
    e.length ≤ data.length + 4 := by
  simp only [tlsOpaque, Py.bind_eq_ok, Py.pure_eq, Except.ok.injEq] at h
  obtain ⟨size, hsize, rfl⟩ := h
  have hle := length_tlsVarint hsize
  rw [List.length_append]
  omega

theorem returns_varint {n : ℕ} (h : n < 2 ^ 30) : (tlsVarint n).Returns :=
  ⟨_, tlsVarint_eq_ok.mpr ⟨h, rfl⟩⟩

theorem tlsOpaque_ok {data : Bytes} (h : data.length < 2 ^ 30) : ∃ e, tlsOpaque data = .ok e :=
  (returns_varint h).bind fun _ _ => .pure _

theorem tlsOpaque32_ok {data : Bytes} (h : data.length < 2 ^ 32) :
    tlsOpaque32 data = .ok (beBytes 4 data.length ++ data) := by
  have hsize : tlsU32 data.length = .ok (beBytes 4 data.length) :=
    structPack_eq_ok.mpr ⟨by omega, rfl⟩
  rw [tlsOpaque32, hsize]
  rfl

/-! ## Buffers that are longer or shorter -/

theorem ignoresRest_unpackFrom (n : ℕ) : IgnoresRest (unpackFrom n) := by
  intro buf rest offset read h
  unfold unpackFrom at h ⊢
  split_ifs at h with hle
  rw [if_pos (by rw [List.length_append]; omega), slice_append hle]
  exact h

theorem ignoresRest_checked (length : ℕ) (message : ℕ → ℕ → String) :
    IgnoresRest (readChecked length message) := by
  intro buf rest offset read h
  simp only [readChecked, Py.bind_eq_ok, Py.require_eq_ok] at h ⊢
  obtain ⟨_, hle, hread⟩ := h
  refine ⟨(), by rw [List.length_append]; omega, ?_⟩
  rwa [slice_append hle]

private theorem byteAt_append {buf : Bytes} {i v : ℕ} (h : byteAt buf i = .ok v) (rest : Bytes) :
    byteAt (buf ++ rest) i = .ok v := by
  unfold byteAt at h ⊢
  cases hget : buf[i]? with
  | none => simp [hget] at h
  | some b =>
      rw [List.getElem?_append_left (List.getElem?_eq_some_iff.mp hget).1, hget]
      simpa [hget] using h

theorem ignoresRest_varint : IgnoresRest varintDecode := by
  intro buf rest offset read h
  obtain ⟨first, hfirst, h⟩ := Py.bind_eq_ok.mp h
  rw [varintDecode, byteAt_append hfirst, Py.ok_bind]
  simp only at h ⊢
  split_ifs at h ⊢
  · exact h
  · obtain ⟨second, hsecond, h⟩ := Py.bind_eq_ok.mp h
    rw [byteAt_append hsecond, Py.ok_bind, h]
  · simp only [Py.bind_eq_ok, Py.require_eq_ok] at h
    obtain ⟨_, hle, b1, h1, b2, h2, b3, h3, h⟩ := h
    have hle' : offset + 4 ≤ (buf ++ rest).length := by
      rw [List.length_append]
      omega
    rw [Py.require_of _ hle', Py.ok_bind, byteAt_append h1, Py.ok_bind, byteAt_append h2,
      Py.ok_bind, byteAt_append h3, Py.ok_bind, h]

theorem ignoresRest_opaque : IgnoresRest readOpaque :=
  ignoresRest_varint.bind fun _ => ignoresRest_checked _ _

theorem ignoresRest_opaque32 : IgnoresRest readOpaque32 :=
  (ignoresRest_unpackFrom 4).bind fun _ => ignoresRest_checked _ _

private theorem byteAt_ends (buf : Bytes) (i : ℕ) : byteAt buf i ≠ .error .hang := by
  unfold byteAt
  cases buf[i]? with
  | none => simp
  | some b => simp

theorem ends_unpackFrom (n : ℕ) : Ends (unpackFrom n) := by
  intro buf offset
  unfold unpackFrom
  split <;> simp

theorem ends_checked (length : ℕ) (message : ℕ → ℕ → String) :
    Ends (readChecked length message) := by
  intro buf offset
  unfold readChecked Py.require
  split <;> simp

theorem ends_varint : Ends varintDecode := by
  intro buf offset h
  have hbyte : ∀ {α : Type} {i : ℕ} {f : ℕ → Py α}, (byteAt buf i >>= f) = .error .hang →
      ∃ v, f v = .error .hang := by
    intro α i f hf
    cases hread : byteAt buf i with
    | error e =>
        rw [hread] at hf
        cases hf
        exact absurd hread (byteAt_ends buf i)
    | ok v => exact ⟨v, by rwa [hread] at hf⟩
  obtain ⟨first, h⟩ := hbyte h
  simp only at h
  split_ifs at h
  · obtain ⟨second, h⟩ := hbyte h
    cases h
  · unfold Py.require at h
    split_ifs at h
    · obtain ⟨_, h⟩ := hbyte h
      obtain ⟨_, h⟩ := hbyte h
      obtain ⟨_, h⟩ := hbyte h
      cases h
    · cases h
  · cases h

theorem ends_opaque : Ends readOpaque := ends_varint.bind fun _ => ends_checked _ _

theorem ends_opaque32 : Ends readOpaque32 := (ends_unpackFrom 4).bind fun _ => ends_checked _ _

/-! ## Bounds of what is read -/

theorem byteAt_lt {buf : Bytes} {i v : ℕ} (h : byteAt buf i = .ok v) : v < 2 ^ 8 := by
  unfold byteAt at h
  cases hb : buf[i]? with
  | none => simp [hb] at h
  | some b =>
      simp only [hb, Except.ok.injEq] at h
      rw [← h]
      exact b.toNat_lt

theorem yields_u8 : Yields readU8 (· < 256 ^ 1) := by
  intro buf offset v next h
  obtain ⟨_, hbyte, heq⟩ := Py.bind_eq_ok.mp h
  cases heq
  exact byteAt_lt hbyte

theorem beNat_lt_of_le {buf : Bytes} {n : ℕ} (h : buf.length ≤ n) : beNat buf < 256 ^ n :=
  (beNat_lt buf).trans_le (Nat.pow_le_pow_right (by decide) h)

theorem length_slice_le (buf : Bytes) (i n : ℕ) : (slice buf i (i + n)).length ≤ n := by
  simp [slice]

theorem yields_unpackFrom (n : ℕ) : Yields (unpackFrom n) (· < 256 ^ n) := by
  intro buf offset v next h
  unfold unpackFrom at h
  split_ifs at h
  cases h
  exact beNat_lt_of_le (length_slice_le buf offset n)

theorem yields_varint : Yields varintDecode (· < 2 ^ 30) := by
  intro buf offset n next h
  have hmask : ∀ v : ℕ, v &&& 0x3F < 2 ^ 6 := fun v =>
    Nat.lt_of_le_of_lt Nat.and_le_right (by decide)
  have hshift : ∀ {v i j : ℕ}, v < 2 ^ i → v <<< j < 2 ^ (i + j) := by
    intro v i j hv
    rw [Nat.shiftLeft_eq, pow_add]
    exact Nat.mul_lt_mul_of_pos_right hv (Nat.two_pow_pos j)
  have hwiden : ∀ {v i : ℕ}, v < 2 ^ i → i ≤ 30 → v < 2 ^ 30 := fun hv hi =>
    Nat.lt_of_lt_of_le hv (Nat.pow_le_pow_right (by decide) hi)
  simp only [varintDecode, Py.bind_eq_ok] at h
  obtain ⟨first, hfirst, h⟩ := h
  split_ifs at h with h0 h1 h2
  · simp only [Except.ok.injEq, Prod.mk.injEq] at h
    exact h.1 ▸ hwiden (hmask first) (by decide)
  · simp only [Py.bind_eq_ok, Except.ok.injEq, Prod.mk.injEq] at h
    obtain ⟨second, hsecond, rfl, -⟩ := h
    exact Nat.or_lt_two_pow (hwiden (hshift (hmask first)) (by decide))
      (hwiden (byteAt_lt hsecond) (by decide))
  · simp only [Py.bind_eq_ok, Except.ok.injEq, Prod.mk.injEq] at h
    obtain ⟨_, -, b1, hb1, b2, hb2, b3, hb3, rfl, -⟩ := h
    exact Nat.or_lt_two_pow (Nat.or_lt_two_pow (Nat.or_lt_two_pow
      (hwiden (hshift (hmask first)) (by decide)) (hwiden (hshift (byteAt_lt hb1)) (by decide)))
      (hwiden (hshift (byteAt_lt hb2)) (by decide))) (hwiden (byteAt_lt hb3) (by decide))

theorem yields_opaque : Yields readOpaque (·.length < 2 ^ 30) := by
  intro buf offset data next h
  obtain ⟨⟨n, start⟩, hn, hchecked⟩ := Py.bind_eq_ok.mp h
  obtain ⟨_, -, heq⟩ := Py.bind_eq_ok.mp hchecked
  cases heq
  exact (length_slice_le buf start n).trans_lt (yields_varint buf offset n start hn)

end PureMls
