import PureMls.Foundation.Spelling
import PureMls.Verification.ParsedTrees

/-! # The forms of the TLS primitives -/

namespace PureMls

/-! ## Integers -/

/-- The big-endian bytes of an integer. -/
def uintForm (n : ℕ) : Form ℕ := fun enc v => v < 256 ^ n ∧ enc = beBytes n v

theorem spelled_unpackFrom (n : ℕ) : Spelled (unpackFrom n) (uintForm n) := by
  refine .of_bounds fun buf offset v next hle hread => ?_
  rw [unpackFrom] at hread
  split at hread
  · rename_i hend
    cases hread
    have hlen : (slice buf offset (offset + n)).length = n := by
      rw [slice, List.length_take, List.length_drop]
      omega
    have hlt := beNat_lt (slice buf offset (offset + n))
    have hbytes := beBytes_beNat (slice buf offset (offset + n))
    rw [hlen] at hlt hbytes
    exact ⟨Nat.le_add_right _ _, hend, hlt, hbytes.symm⟩
  · cases hread

/-- A byte that is read, and what follows it. -/
theorem drop_of_byteAt {buf : Bytes} {i v : ℕ} (h : byteAt buf i = .ok v) :
    ∃ b, b.toNat = v ∧ buf.drop i = b :: buf.drop (i + 1) := by
  obtain ⟨b, hb, hv⟩ := byteAt_eq_ok.mp h
  obtain ⟨hlt, rfl⟩ := List.getElem?_eq_some_iff.mp hb
  exact ⟨_, hv, List.drop_eq_getElem_cons hlt⟩

theorem spelled_u8 : Spelled readU8 (uintForm 1) := by
  intro buf offset v next hle hread
  obtain ⟨_, hbyte, hnext⟩ := Py.bind_eq_ok.mp hread
  cases hnext
  obtain ⟨b, rfl, hdrop⟩ := drop_of_byteAt hbyte
  refine ⟨[b], buf.drop (offset + 1), hdrop, rfl, b.toNat_lt, ?_⟩
  simp [beBytes]

/-- One more byte below those that are already there. -/
private theorem shift_or_shift {a b : ℕ} (i : ℕ) (hb : b < 2 ^ 8) :
    a <<< (i + 8) ||| b <<< i = (a * 2 ^ 8 + b) <<< i := by
  have hlow : b <<< i < 2 ^ (i + 8) := by
    rw [Nat.shiftLeft_eq, Nat.add_comm, pow_add]
    exact Nat.mul_lt_mul_of_pos_right hb (Nat.two_pow_pos i)
  rw [shift_or (i + 8) hlow, Nat.shiftLeft_eq, Nat.shiftLeft_eq, pow_add]
  ring

theorem spelled_varint : Spelled varintDecode Rfc.VarintForm := by
  intro buf offset n next hle hread
  obtain ⟨first, hfirst, hread⟩ := Py.bind_eq_ok.mp hread
  obtain ⟨b, rfl, hdrop⟩ := drop_of_byteAt hfirst
  have hb := b.toNat_lt
  simp only [and_3, and_3F, Nat.shiftRight_eq_div_pow] at hread
  split_ifs at hread with h0 h1 h2
  · cases hread
    have hval : b.toNat % 64 = b.toNat := Nat.mod_eq_of_lt (by omega)
    refine ⟨[b], _, hdrop, rfl, ?_⟩
    rw [hval]
    have hform : beBytes 1 b.toNat = [b] := by simp [beBytes]
    exact hform ▸ .one (by omega)
  · obtain ⟨second, hsecond, hread⟩ := Py.bind_eq_ok.mp hread
    cases hread
    obtain ⟨c, rfl, hdrop'⟩ := drop_of_byteAt hsecond
    have hc := c.toNat_lt
    have hval : ((b.toNat % 64) <<< 8) ||| c.toNat = b.toNat % 64 * 2 ^ 8 + c.toNat := shift_or 8 hc
    have hform := beBytes_beNat [b, c]
    have hnat : beNat [b, c] = 2 ^ 14 + (b.toNat % 64 * 2 ^ 8 + c.toNat) := by
      simp [beNat]
      omega
    refine ⟨[b, c], _, by rw [hdrop, hdrop']; rfl, rfl, ?_⟩
    rw [hval, ← hform, hnat]
    exact .two (by omega)
  · simp only [Py.bind_eq_ok] at hread
    obtain ⟨_, -, v1, hv1, v2, hv2, v3, hv3, hread⟩ := hread
    cases hread
    obtain ⟨c, rfl, hdrop1⟩ := drop_of_byteAt hv1
    obtain ⟨d, rfl, hdrop2⟩ := drop_of_byteAt hv2
    obtain ⟨e, rfl, hdrop3⟩ := drop_of_byteAt hv3
    have hc := c.toNat_lt
    have hd := d.toNat_lt
    have he := e.toNat_lt
    have hval : ((b.toNat % 64) <<< 24) ||| (c.toNat <<< 16) ||| (d.toNat <<< 8) ||| e.toNat =
        b.toNat % 64 * 2 ^ 24 + c.toNat * 2 ^ 16 + d.toNat * 2 ^ 8 + e.toNat := by
      have h24 :
        (b.toNat % 64) <<< 24 ||| c.toNat <<< 16 = (b.toNat % 64 * 2 ^ 8 + c.toNat) <<< 16 :=
        shift_or_shift 16 hc
      have h16 : (b.toNat % 64 * 2 ^ 8 + c.toNat) <<< 16 ||| d.toNat <<< 8 =
          ((b.toNat % 64 * 2 ^ 8 + c.toNat) * 2 ^ 8 + d.toNat) <<< 8 := shift_or_shift 8 hd
      rw [h24, h16, shift_or 8 he]
      ring
    have hform := beBytes_beNat [b, c, d, e]
    have hnat : beNat [b, c, d, e] =
        2 ^ 31 + (b.toNat % 64 * 2 ^ 24 + c.toNat * 2 ^ 16 + d.toNat * 2 ^ 8 + e.toNat) := by
      simp [beNat]
      omega
    refine ⟨[b, c, d, e], _, by rw [hdrop, hdrop1, hdrop2, hdrop3]; rfl, rfl, ?_⟩
    rw [hval, ← hform, hnat]
    exact .four (by omega)

/-! ## Byte strings -/

theorem spelled_checked (length : ℕ) (message : ℕ → ℕ → String) :
    Spelled (readChecked length message) fun enc data => enc = data ∧ data.length = length := by
  refine .of_bounds fun buf offset data next hle hread => ?_
  obtain ⟨_, hbound, hnext⟩ := Py.bind_eq_ok.mp hread
  cases hnext
  have hend := Py.require_eq_ok.mp hbound
  refine ⟨Nat.le_add_right _ _, hend, rfl, ?_⟩
  rw [slice, List.length_take, List.length_drop]
  omega

/-- The data after its length. -/
def sizedForm (size : Form ℕ) : Form Bytes := fun enc data =>
  ∃ head, size head data.length ∧ enc = head ++ data

/-- Bytes with the length in front of them, as long as it says. -/
theorem spelled_sized {readLength : Decoder ℕ} {size : Form ℕ} (h : Spelled readLength size)
    (message : ℕ → ℕ → ℕ → String) :
    Spelled (readLength >>= fun length => readChecked length (message length))
      (sizedForm size) := by
  refine (h.bind fun length => spelled_checked length (message length)).mono ?_
  rintro enc data ⟨head, tail, length, rfl, hhead, rfl, rfl⟩
  exact ⟨head, hhead, rfl⟩

theorem spelled_opaqueV : Spelled readOpaque (sizedForm Rfc.VarintForm) :=
  spelled_sized spelled_varint _

end PureMls
