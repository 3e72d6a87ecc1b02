import Mathlib.Data.List.Basic
import Mathlib.Data.Nat.Basic
import Mathlib.Tactic.Ring

/-! # Python calls, byte strings and big-endian integers

A call either returns a value, raises an exception, or never ends. Byte strings are
lists of bytes, and slices clamp to the buffer as Python's do. -/

namespace PureMls

/-- Why a call does not return a value: it raised an exception, or it never ends. -/
inductive Fault where
  | valueError (message : String)
  | indexError
  | structError (message : String)
  | overflowError
  | typeError (message : String)
  | keyError
  | runtimeError (message : String)
  | assertionError
  | invalidTag
  | invalidSignature
  | hang
  deriving DecidableEq, Repr

/-- `str(exc)` of the exceptions that carry a message, and of an index beyond the end of a byte
string. -/
def Fault.text : Fault → String
  | valueError message => message
  | typeError message => message
  | runtimeError message => message
  | structError message => message
  | indexError => "index out of range"
  | _ => ""

/-- The outcome of a Python call. -/
abbrev Py (α : Type) := Except Fault α

namespace Py

variable {α β γ : Type}

@[simp] theorem pure_eq (a : α) : (pure a : Py α) = .ok a := rfl

@[simp] theorem ok_bind (a : α) (f : α → Py β) : (Except.ok a >>= f : Py β) = f a := rfl

@[simp] theorem error_bind (e : Fault) (f : α → Py β) :
    (Except.error e >>= f : Py β) = .error e := rfl

@[simp] theorem bind_eq_ok {x : Py α} {f : α → Py β} {b : β} :
    x >>= f = .ok b ↔ ∃ a, x = .ok a ∧ f a = .ok b := by
  cases x with
  | error e => simp
  | ok a => simp

@[simp] theorem map_eq_ok {x : Py α} {f : α → β} {b : β} :
    f <$> x = .ok b ↔ ∃ a, x = .ok a ∧ f a = b := by
  cases x with
  | error e => simp [Functor.map, Except.map]
  | ok a => simp [Functor.map, Except.map]

@[simp] theorem map_ok (f : α → β) (a : α) : f <$> (Except.ok a : Py α) = .ok (f a) := rfl

theorem bind_assoc (x : Py α) (f : α → Py β) (g : β → Py γ) :
    x >>= f >>= g = x >>= fun a => f a >>= g := by
  cases x <;> rfl

/-- `if not condition: raise error`. -/
def require (condition : Prop) [Decidable condition] (error : Fault) : Py Unit :=
  if condition then .ok () else .error error

@[simp] theorem require_eq_ok {condition : Prop} [Decidable condition] {error : Fault}
    {u : Unit} : require condition error = .ok u ↔ condition := by
  unfold require
  split <;> simp_all

theorem require_of {condition : Prop} [Decidable condition] (error : Fault)
    (h : condition) : require condition error = .ok () := by
  simp [require, h]

/-- `try: x except ...: raise f(exc)`. -/
def rethrow (x : Py α) (f : Fault → Fault) : Py α :=
  match x with
  | .ok a => .ok a
  | .error e => .error (f e)

@[simp] theorem rethrow_eq_ok {x : Py α} {f : Fault → Fault} {a : α} :
    x.rethrow f = .ok a ↔ x = .ok a := by
  cases x <;> simp [rethrow]

/-- The fault of a call that does not return. -/
def fault? : Py α → Option Fault
  | .ok _ => none
  | .error e => some e

theorem fault?_eq_none {x : Py α} : x.fault? = none ↔ ∃ a, x = .ok a := by
  cases x <;> simp [fault?]

/-- Two calls that are followed by the same exception end alike if they fail alike. -/
theorem bind_error_eq_iff {x y : Py α} {e : Fault} (hx : x ≠ .error e) (hy : y ≠ .error e) :
    (x >>= fun _ => (.error e : Py β)) = (y >>= fun _ => .error e) ↔ x.fault? = y.fault? := by
  cases x with
  | error e₁ =>
      cases y with
      | error e₂ => simp [fault?]
      | ok b =>
          have hne : e₁ ≠ e := fun he => hx (congrArg Except.error he)
          simp [fault?, hne]
  | ok a =>
      cases y with
      | error e₂ =>
          have hne : e ≠ e₂ := fun he => hy (congrArg Except.error he.symm)
          simp [fault?, hne]
      | ok b => simp [fault?]

theorem ok_of_isOk {x : Py α} (h : x.isOk = true) : ∃ a, x = .ok a := by
  cases x with
  | error e => simp [Except.isOk, Except.toBool] at h
  | ok a => exact ⟨a, rfl⟩

theorem fault?_eq_some {x : Py α} {e : Fault} : x.fault? = some e ↔ x = .error e := by
  cases x <;> simp [fault?]

/-- The call returns. -/
def Returns (x : Py α) : Prop := ∃ a, x = .ok a

theorem Returns.pure (a : α) : Returns (pure a) := ⟨a, rfl⟩

theorem Returns.bind {x : Py α} {f : α → Py β} (hx : x.Returns)
    (hf : ∀ a, x = .ok a → (f a).Returns) : (x >>= f).Returns := by
  obtain ⟨a, ha⟩ := hx
  rw [ha]
  exact hf a ha

/-- The call raises an exception. -/
def Raises (x : Py α) : Prop := ∃ e, x = .error e ∧ e ≠ .hang

theorem raises_iff {x : Py α} : x.Raises ↔ (∀ a, x ≠ .ok a) ∧ x ≠ .error .hang := by
  cases x with
  | error e => simp [Raises]
  | ok a => simp [Raises]

theorem Raises.bind {x : Py α} (h : x.Raises) (f : α → Py β) : (x >>= f).Raises := by
  obtain ⟨e, rfl, he⟩ := h
  exact ⟨e, rfl, he⟩

theorem raises_bind {x : Py α} {f : α → Py β} (hx : x ≠ .error .hang) (hf : ∀ a, (f a).Raises) :
    (x >>= f).Raises := by
  cases x with
  | error e => exact ⟨e, rfl, fun he => hx (congrArg Except.error he)⟩
  | ok a => exact hf a

theorem Raises.map {x : Py α} (h : x.Raises) (f : α → β) : (f <$> x).Raises := by
  obtain ⟨e, rfl, he⟩ := h
  exact ⟨e, rfl, he⟩

/-- The call fails in no other way than with a fault of `P`. -/
def FailsWith (P : Fault → Prop) (x : Py α) : Prop := ∀ e, x = .error e → P e

namespace FailsWith

variable {P Q : Fault → Prop}

theorem ok (a : α) : FailsWith P (.ok a) := by
  intro e h
  cases h

theorem error {e : Fault} (h : P e) : FailsWith P (.error e : Py α) := by
  intro e' he
  rwa [← Except.error.inj he]

theorem mono {x : Py α} (h : FailsWith P x) (hPQ : ∀ e, P e → Q e) : FailsWith Q x :=
  fun e he => hPQ e (h e he)

theorem bind {x : Py α} {f : α → Py β} (hx : FailsWith P x) (hf : ∀ a, FailsWith P (f a)) :
    FailsWith P (x >>= f) := by
  cases x with
  | error e => exact error (hx e rfl)
  | ok a => exact hf a

theorem bind_iff {x : Py α} {f : α → Py β} :
    FailsWith P (x >>= f) ↔ FailsWith P x ∧ ∀ a, x = .ok a → FailsWith P (f a) := by
  cases x with
  | error e => exact ⟨fun h => ⟨fun e' he => h e' (by cases he; rfl), fun a ha => by cases ha⟩,
      fun h e' he => h.1 e' (by cases he; rfl)⟩
  | ok a =>
      constructor
      · refine fun h => ⟨ok a, fun b hb => ?_⟩
        cases hb
        exact h
      · exact fun h => h.2 a rfl

theorem map {x : Py α} (h : FailsWith P x) (f : α → β) : FailsWith P (f <$> x) := by
  cases x with
  | error e => exact error (h e rfl)
  | ok a => exact ok _

theorem require {condition : Prop} [Decidable condition] {e : Fault} (h : P e) :
    FailsWith P (Py.require condition e) := by
  unfold Py.require
  split
  · exact ok ()
  · exact error h

theorem rethrow {x : Py α} {f : Fault → Fault} (h : FailsWith P x) (hf : ∀ e, P e → Q (f e)) :
    FailsWith Q (x.rethrow f) := by
  cases x with
  | error e => exact error (hf e (h e rfl))
  | ok a => exact ok a

end FailsWith

/-- The call returns or raises an exception. -/
abbrev Ends (x : Py α) : Prop := x.FailsWith (· ≠ .hang)

theorem ends_iff {x : Py α} : x.Ends ↔ x ≠ .error .hang := by
  constructor
  · intro h heq
    exact h .hang heq rfl
  · rintro h _ he rfl
    exact h he

theorem ends_bind_iff {x : Py α} {f : α → Py β} :
    (x >>= f).Ends ↔ x.Ends ∧ ∀ a, x = .ok a → (f a).Ends := FailsWith.bind_iff

end Py

/-! ## Byte strings -/

abbrev Bytes := List UInt8

/-- The bytes of a literal, `b"..."` or `"...".encode()`. -/
def ascii (text : String) : Bytes := text.toByteArray.data.toList

/-- `buf[i:j]`. -/
def slice (buf : Bytes) (i j : ℕ) : Bytes := (buf.drop i).take (j - i)

/-- `buf[i]`. -/
def byteAt (buf : Bytes) (i : ℕ) : Py ℕ :=
  match buf[i]? with
  | some b => .ok b.toNat
  | none => .error .indexError

/-- `buf[:n].ljust(n, b"\x00")`. -/
def takePad (n : ℕ) (buf : Bytes) : Bytes :=
  buf.take n ++ List.replicate (n - buf.length) 0

/-- `[buf[i:i + n] for i in range(0, len(buf), n)]`. -/
def chunks (n : ℕ) (buf : Bytes) : List Bytes :=
  (List.range ((buf.length + n - 1) / n)).map fun i => slice buf (n * i) (n * i + n)

theorem slice_of_drop_eq {buf body rest : Bytes} {i : ℕ} (h : buf.drop i = body ++ rest) :
    slice buf i (i + body.length) = body := by
  simp [slice, h]

theorem slice_append_left (body rest : Bytes) {n : ℕ} (h : body.length = n) :
    slice (body ++ rest) 0 n = body := by
  simp [slice, ← h]

theorem slice_mid {pre body rest : Bytes} {i j : ℕ} (hi : pre.length = i)
    (hj : i + body.length = j) : slice (pre ++ (body ++ rest)) i j = body := by
  subst hi hj
  have hdrop : (pre ++ (body ++ rest)).drop pre.length = body ++ rest := List.drop_left
  exact slice_of_drop_eq hdrop

theorem slice_append {buf rest : Bytes} {i j : ℕ} (hj : j ≤ buf.length) :
    slice (buf ++ rest) i j = slice buf i j := by
  unfold slice
  by_cases hi : i ≤ buf.length
  · rw [List.drop_append_of_le_length hi,
      List.take_append_of_le_length (by rw [List.length_drop]; omega)]
  · have hempty : j - i = 0 := by omega
    rw [hempty, List.take_zero, List.take_zero]

/-- A slice of a buffer that is cut at `k`. -/
theorem slice_take (buf : Bytes) (i j k : ℕ) :
    slice (buf.take k) i j = (slice buf i j).take (k - i) := by
  rw [slice, slice, List.drop_take, List.take_take, List.take_take, Nat.min_comm]

/-! ## Big-endian integers -/

/-- The `n` big-endian bytes of `v`, dropping what does not fit. -/
def beBytes : ℕ → ℕ → Bytes
  | 0, _ => []
  | n + 1, v => UInt8.ofNat (v / 256 ^ n) :: beBytes n v

/-- `int.from_bytes(buf, "big")`. -/
def beNat (buf : Bytes) : ℕ := buf.foldl (fun acc b => acc * 256 + b.toNat) 0

@[simp] theorem length_beBytes (n v : ℕ) : (beBytes n v).length = n := by
  induction n with
  | zero => rfl
  | succ n ih => simp [beBytes, ih]

private theorem foldl_be (buf : Bytes) (acc : ℕ) :
    buf.foldl (fun acc b => acc * 256 + b.toNat) acc =
      acc * 256 ^ buf.length + beNat buf := by
  induction buf generalizing acc with
  | nil => simp [beNat]
  | cons b buf ih =>
      rw [beNat, List.foldl_cons, List.foldl_cons, ih, ih (0 * 256 + b.toNat), List.length_cons]
      ring

theorem beNat_cons (b : UInt8) (buf : Bytes) :
    beNat (b :: buf) = b.toNat * 256 ^ buf.length + beNat buf := by
  rw [beNat, List.foldl_cons, foldl_be]
  simp

theorem beNat_lt (buf : Bytes) : beNat buf < 256 ^ buf.length := by
  induction buf with
  | nil => simp [beNat]
  | cons b buf ih =>
      have hb : b.toNat + 1 ≤ 256 := b.toNat_lt
      calc beNat (b :: buf) = b.toNat * 256 ^ buf.length + beNat buf := beNat_cons b buf
        _ < (b.toNat + 1) * 256 ^ buf.length := by rw [Nat.succ_mul]; omega
        _ ≤ 256 * 256 ^ buf.length := Nat.mul_le_mul_right _ hb
        _ = 256 ^ (b :: buf).length := by rw [List.length_cons, pow_succ, Nat.mul_comm]

private theorem beNat_beBytes_mod (n v : ℕ) : beNat (beBytes n v) = v % 256 ^ n := by
  induction n with
  | zero => simp [beBytes, beNat, Nat.mod_one]
  | succ n ih =>
      have hb : (UInt8.ofNat (v / 256 ^ n)).toNat = v / 256 ^ n % 256 := by
        rw [UInt8.toNat_ofNat']
      rw [beBytes, beNat_cons, ih, length_beBytes, hb, pow_succ, Nat.mod_mul]
      ring

theorem beNat_beBytes {n v : ℕ} (h : v < 256 ^ n) : beNat (beBytes n v) = v := by
  rw [beNat_beBytes_mod, Nat.mod_eq_of_lt h]

/-- Bytes are those of their value. -/
theorem beBytes_beNat (buf : Bytes) : beBytes buf.length (beNat buf) = buf := by
  have hadd : ∀ n k v, beBytes n (k * 256 ^ n + v) = beBytes n v := by
    intro n
    induction n with
    | zero => exact fun _ _ => rfl
    | succ n ih =>
        intro k v
        have hpow : k * 256 ^ (n + 1) + v = k * 256 * 256 ^ n + v := by ring
        have hbyte : UInt8.ofNat (k * 256 + v / 256 ^ n) = UInt8.ofNat (v / 256 ^ n) := by
          rw [← UInt8.toNat_inj, UInt8.toNat_ofNat', UInt8.toNat_ofNat', Nat.mul_add_mod_self_right]
        rw [hpow, beBytes, ih, Nat.add_comm, Nat.add_mul_div_right _ _ (Nat.pow_pos (by decide)),
          Nat.add_comm, hbyte, beBytes]
  induction buf with
  | nil => rfl
  | cons b buf ih =>
      have hdiv : (b.toNat * 256 ^ buf.length + beNat buf) / 256 ^ buf.length = b.toNat := by
        rw [Nat.add_comm, Nat.add_mul_div_right _ _ (Nat.pow_pos (by decide)),
          Nat.div_eq_of_lt (beNat_lt buf), Nat.zero_add]
      rw [beNat_cons, List.length_cons, beBytes, hdiv, hadd, ih, UInt8.ofNat_toNat]

/-- What `struct.pack` says of an integer that does not fit `n` bytes. -/
def packText : ℕ → String
  | 1 => "ubyte format requires 0 <= number <= 255"
  | 2 => "'H' format requires 0 <= number <= 65535"
  | 4 => "'I' format requires 0 <= number <= 4294967295"
  | _ => "int too large to convert"

/-- `struct.pack` of one unsigned big-endian integer of `n` bytes. -/
def structPack (n v : ℕ) : Py Bytes :=
  if v < 256 ^ n then .ok (beBytes n v) else .error (.structError (packText n))

/-- `v.to_bytes(n, "big")`. -/
def toBytesBig (n v : ℕ) : Py Bytes :=
  if v < 256 ^ n then .ok (beBytes n v) else .error .overflowError

@[simp] theorem structPack_eq_ok {n v : ℕ} {e : Bytes} :
    structPack n v = .ok e ↔ v < 256 ^ n ∧ beBytes n v = e := by
  unfold structPack
  split <;> simp_all

@[simp] theorem toBytesBig_eq_ok {n v : ℕ} {e : Bytes} :
    toBytesBig n v = .ok e ↔ v < 256 ^ n ∧ beBytes n v = e := by
  unfold toBytesBig
  split <;> simp_all

/-- `n.bit_length()`. -/
def bitLength (n : ℕ) : ℕ := if n = 0 then 0 else n.log2 + 1

/-! ## Text of error messages -/

/-- Hexadecimal digits of `n`, padded with zeros to `width`. -/
def hexDigits (width n : ℕ) : String :=
  let digits := Nat.toDigits 16 n
  String.ofList (List.replicate (width - digits.length) '0' ++ digits)

/-- `f"{n:#0Wx}"` with `width` digits after the `0x`. -/
def hexLiteral (width n : ℕ) : String := "0x" ++ hexDigits width n

/-- `buf.hex()`. -/
def hexString (buf : Bytes) : String := String.join (buf.map fun b => hexDigits 2 b.toNat)

private def reprByte (quote : ℕ) (b : UInt8) : String :=
  let backslash := String.singleton (Char.ofNat 92)
  let n := b.toNat
  if n = 9 then backslash ++ "t"
  else if n = 10 then backslash ++ "n"
  else if n = 13 then backslash ++ "r"
  else if n = 92 ∨ n = quote then backslash ++ String.singleton (Char.ofNat n)
  else if 32 ≤ n ∧ n < 127 then String.singleton (Char.ofNat n)
  else backslash ++ "x" ++ hexDigits 2 n

/-- `repr(buf)`. -/
def reprBytes (buf : Bytes) : String :=
  let quote := if buf.contains 39 && !buf.contains 34 then 34 else 39
  "b" ++ String.singleton (Char.ofNat quote) ++ String.join (buf.map (reprByte quote)) ++
    String.singleton (Char.ofNat quote)

end PureMls
