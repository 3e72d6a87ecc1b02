import PureMls.Model.KeySchedule
import PureMls.Verification.Assumptions
import PureMls.Verification.Codec

/-! # Derived secrets

When the labelled derivations succeed, and how long their results are. -/

namespace PureMls

variable {C : Crypto}

theorem length_hkdfBlocks (hC : C.Correct) (prk info : Bytes) (n i : ℕ) (previous : Bytes) :
    (hkdfBlocks C prk info n i previous).length = 32 * n := by
  induction n generalizing i previous with
  | zero => rfl
  | succ n ih =>
      rw [hkdfBlocks, List.length_append, hC.hmac_size, ih]
      omega

theorem length_hkdfExpand (hC : C.Correct) (prk info : Bytes) (length : ℕ) :
    (hkdfExpand C prk info length).length = length := by
  rw [hkdfExpand, List.length_take, length_hkdfBlocks hC]
  omega

theorem varintEncode_ok {n : ℕ} (h : n < 2 ^ 30) : ∃ e, varintEncode n = .ok e :=
  ⟨_, varintEncode_eq_ok.mpr (tlsVarint_eq_ok.mpr ⟨h, rfl⟩)⟩

theorem hkdfLabel_ok {label : String} {context : Bytes} {length : ℕ}
    (hlabel : (ascii "MLS 1.0 " ++ ascii label).length < 2 ^ 30)
    (hcontext : context.length < 2 ^ 30)
    (hlength : length < 2 ^ 16) : ∃ info, hkdfLabel label context length = .ok info := by
  obtain ⟨labelSize, hl⟩ := varintEncode_ok hlabel
  obtain ⟨contextSize, hc⟩ := varintEncode_ok hcontext
  have hsize : toBytesBig 2 length = .ok (beBytes 2 length) := toBytesBig_eq_ok.mpr ⟨hlength, rfl⟩
  simp only [hkdfLabel, hsize, hl, hc, Py.ok_bind, Py.pure_eq, Except.ok.injEq, exists_eq']

theorem expandWithLabel_ok {secret : Bytes} {label : String} {context : Bytes} {length : ℕ}
    (hlabel : (ascii "MLS 1.0 " ++ ascii label).length < 2 ^ 30)
    (hcontext : context.length < 2 ^ 30) (hlength : length < 2 ^ 16) :
    ∃ out, expandWithLabel C secret label context length = .ok out := by
  obtain ⟨info, hinfo⟩ := hkdfLabel_ok hlabel hcontext hlength
  exact ⟨_, by rw [expandWithLabel, hinfo, Py.ok_bind]; rfl⟩

theorem length_expandWithLabel (hC : C.Correct) {secret : Bytes} {label : String}
    {context out : Bytes} {length : ℕ}
    (h : expandWithLabel C secret label context length = .ok out) : out.length = length := by
  simp only [expandWithLabel, Py.bind_eq_ok, Py.pure_eq, Except.ok.injEq] at h
  obtain ⟨info, -, rfl⟩ := h
  exact length_hkdfExpand hC secret info length

/-! ## HMAC calls -/

/-- Two of these calls of HMAC (key and message) give the same tag only if they are the same. -/
def Crypto.HmacInjectiveOn (C : Crypto) (calls : List (Bytes × Bytes)) : Prop :=
  ∀ a ∈ calls, ∀ b ∈ calls, C.hmacSha256 a.1 a.2 = C.hmacSha256 b.1 b.2 → a = b

instance (calls : List (Bytes × Bytes)) : Decidable (C.HmacInjectiveOn calls) :=
  inferInstanceAs (Decidable (∀ a ∈ calls, ∀ b ∈ calls,
    C.hmacSha256 a.1 a.2 = C.hmacSha256 b.1 b.2 → a = b))

/-- The one HMAC call of ExpandWithLabel to 32 bytes. -/
def expandCall (secret : Bytes) (label : String) (context : Bytes) : Bytes × Bytes :=
  (secret, (hkdfLabel label context 32).toOption.getD [] ++ [0x01])

theorem expandWithLabel_eq_hmac (hC : C.Correct) {secret : Bytes} {label : String}
    {context out : Bytes} (h : expandWithLabel C secret label context 32 = .ok out) :
    out = C.hmacSha256 (expandCall secret label context).1 (expandCall secret label context).2 := by
  simp only [expandWithLabel, Py.bind_eq_ok, Py.pure_eq, Except.ok.injEq] at h
  obtain ⟨info, hinfo, rfl⟩ := h
  have hblock : (C.hmacSha256 secret ([] ++ info ++ [UInt8.ofNat 1]) ++ []).length = 32 := by
    rw [List.append_nil, hC.hmac_size]
  have hone : hkdfBlocks C secret info ((32 + 31) / 32) 1 [] =
      C.hmacSha256 secret ([] ++ info ++ [UInt8.ofNat 1]) ++ [] := rfl
  rw [hkdfExpand, hone, List.take_of_length_le hblock.le, expandCall, hinfo, List.append_nil]
  rfl

/-- Equal results of ExpandWithLabel come from equal secrets. -/
theorem expandWithLabel_inj (hC : C.Correct) {calls : List (Bytes × Bytes)}
    (hinj : C.HmacInjectiveOn calls) {secret secret' : Bytes} {label label' : String}
    {context context' out : Bytes} (hmem : expandCall secret label context ∈ calls)
    (hmem' : expandCall secret' label' context' ∈ calls)
    (h : expandWithLabel C secret label context 32 = .ok out)
    (h' : expandWithLabel C secret' label' context' 32 = .ok out) : secret = secret' := by
  have hcalls := hinj _ hmem _ hmem'
    ((expandWithLabel_eq_hmac hC h).symm.trans (expandWithLabel_eq_hmac hC h'))
  exact congrArg Prod.fst hcalls

end PureMls
