import PureMls.Verification.Replay

/-! # Calls of `add_member` that raise

The reference of a key package is recorded before anything about the package is checked, and it
stays recorded when the call fails. Nothing else of the handle changes before the call succeeds. -/

namespace PureMls

namespace MLSGroup

variable {C : Crypto} {self : MLSGroup} {coins : CommitCoins} {kp : KeyPackage}

/-- The package has a reference, and this member has not recorded it. -/
def HasFreshRef (C : Crypto) (self : MLSGroup) (kp : KeyPackage) : Prop :=
  ∃ ref, makeKpRef C kp = .ok ref ∧ ref ∉ self.consumedKeyPackages

/-- A call that finds no fresh reference raises before it does anything. -/
theorem addMember_stale (h : ¬ HasFreshRef C self kp) : (addMember C self coins kp).1 = self := by
  unfold addMember
  cases href : makeKpRef C kp with
  | error e => rfl
  | ok ref =>
      have hmem : ref ∈ self.consumedKeyPackages := by
        by_contra hnew
        exact h ⟨ref, href, hnew⟩
      simp only [if_pos hmem]

/-- A call that finds a fresh reference and raises leaves it recorded. -/
theorem addMember_recorded {ref : Bytes} (href : makeKpRef C kp = .ok ref)
    (hnew : ref ∉ self.consumedKeyPackages) (hraise : (addMember C self coins kp).2.Raises) :
    (addMember C self coins kp).1 =
      { self with consumedKeyPackages := self.consumedKeyPackages.insert ref } := by
  unfold addMember at hraise ⊢
  simp only [href, if_neg hnew] at hraise ⊢
  cases hbody : addMemberBody C
    { self with consumedKeyPackages := self.consumedKeyPackages.insert ref } coins kp with
  | error e => rfl
  | ok result =>
      rw [hbody] at hraise
      exact absurd rfl ((Py.raises_iff.mp hraise).1 result)

/-- Whatever makes it fail, a call that raises changes the recorded references at most. -/
theorem addMember_frame (hraise : (addMember C self coins kp).2.Raises) :
    (addMember C self coins kp).1 = { self with
      consumedKeyPackages := (addMember C self coins kp).1.consumedKeyPackages } := by
  by_cases hfresh : HasFreshRef C self kp
  · obtain ⟨ref, href, hnew⟩ := hfresh
    rw [addMember_recorded href hnew hraise]
  · rw [addMember_stale hfresh]

/-- What a failed call for `kp` is to leave of a handle: all its fields, the outcome of a later call
for the same package, and the dump. -/
structure LeavesNoTrace (C : Crypto) (kp : KeyPackage) (before left : MLSGroup) : Prop where
  state : left.state = before.state
  myKemKey : left.myKemKey = before.myKemKey
  interimTranscriptHash : left.interimTranscriptHash = before.interimTranscriptHash
  consumedKeyPackages : ∀ ref, ref ∈ left.consumedKeyPackages ↔ ref ∈ before.consumedKeyPackages
  secretTree : left.secretTree = before.secretTree
  retry : ∀ coins, (left.addMember C coins kp).2 = (before.addMember C coins kp).2
  toBytes : left.toBytes = before.toBytes

theorem LeavesNoTrace.refl (C : Crypto) (kp : KeyPackage) (self : MLSGroup) :
    LeavesNoTrace C kp self self :=
  ⟨rfl, rfl, rfl, fun _ => Iff.rfl, rfl, fun _ => rfl, rfl⟩

end MLSGroup

open MLSGroup

/-- A call of `add_member` that raises leaves no trace if and only if it finds no fresh reference.
Otherwise the reference stays recorded, and every later call for the package is refused as a
replay. In both cases the rest of the handle is as before. -/
theorem failed_add_harmless_iff {C : Crypto} {self : MLSGroup} {coins : CommitCoins}
    {kp : KeyPackage} (hraise : (self.addMember C coins kp).2.Raises) :
    (LeavesNoTrace C kp self (self.addMember C coins kp).1 ↔ ¬ HasFreshRef C self kp) ∧
    (HasFreshRef C self kp → ∀ coins', ((self.addMember C coins kp).1.addMember C coins' kp).2 =
      .error (.valueError
        "KeyPackage Replay: This KeyPackage has already been used in this instance.")) ∧
    (self.addMember C coins kp).1 = { self with
      consumedKeyPackages := (self.addMember C coins kp).1.consumedKeyPackages } := by
  refine ⟨⟨?_, fun hstale => ?_⟩, ?_, addMember_frame hraise⟩
  · rintro htrace ⟨ref, href, hnew⟩
    have hmem : ref ∈ (self.addMember C coins kp).1.consumedKeyPackages := by
      rw [addMember_recorded href hnew hraise, List.mem_insert_iff]
      exact .inl rfl
    exact hnew ((htrace.consumedKeyPackages ref).mp hmem)
  · rw [addMember_stale hstale]
    exact .refl C kp self
  · rintro ⟨ref, href, hnew⟩ coins'
    rw [addMember_recorded href hnew hraise, Chain.addMember_replayed href (by simp) coins']

namespace Sample

/-- Alice, and a key package whose signature is missing. -/
def unsignedAdd : Py (MLSGroup × KeyPackage) := do
  let bobPackage ← keyPackage 20
  let alice ← MLSGroup.create crypto (ascii "g") (sig 1) (kem 1) (kem 2)
  let unsigned := { bobPackage with leafNodeSignature := [] }
  let _ ← makeKpRef crypto unsigned
  expectFault (alice.addMember crypto (coins 40) unsigned).2
    (.valueError "KeyPackage has no signature")
  expect (alice.consumedKeyPackages = [])
  pure (alice, unsigned)

theorem unsignedAdd_ok : ∃ r, unsignedAdd = .ok r := Py.ok_of_isOk (by decide +kernel)

end Sample

open Sample in
/-- A key package that Alice has tried before: the second call is harmless. -/
theorem failed_add_harmless_again : ∃ (alice : MLSGroup) (unsigned : KeyPackage),
    (alice.addMember crypto (coins 60) unsigned).2.Raises ∧
    LeavesNoTrace crypto unsigned alice (alice.addMember crypto (coins 60) unsigned).1 := by
  obtain ⟨_, hrun⟩ := unsignedAdd_ok
  simp only [unsignedAdd, expectFault, expect, Py.bind_eq_ok, Py.require_eq_ok,
    Py.fault?_eq_some] at hrun
  obtain ⟨_, -, alice, -, ref, href, _, hfault, _, hnone, -⟩ := hrun
  have hnew : ref ∉ alice.consumedKeyPackages := by simp [hnone]
  have hraise := (⟨_, hfault, by simp⟩ : Py.Raises _)
  have hreplay := (failed_add_harmless_iff hraise).2.1 ⟨ref, href, hnew⟩ (coins 60)
  refine ⟨_, _, ⟨_, hreplay, by simp⟩, (failed_add_harmless_iff ⟨_, hreplay, by simp⟩).1.mpr ?_⟩
  rintro ⟨ref', href', hnew'⟩
  rw [addMember_recorded href hnew hraise] at hnew'
  obtain rfl := Except.ok.inj (href.symm.trans href')
  exact hnew' (by simp)

open Sample in
/-- A key package without signature is refused, and from then on it is a replay. -/
theorem failed_add_recorded : ¬ ∀ (self : MLSGroup) (coins : CommitCoins) (kp : KeyPackage),
    Reachable crypto self → (self.addMember crypto coins kp).2.Raises →
    LeavesNoTrace crypto kp self (self.addMember crypto coins kp).1 := by
  intro hall
  obtain ⟨_, hrun⟩ := unsignedAdd_ok
  simp only [unsignedAdd, expectFault, expect, Py.bind_eq_ok, Py.require_eq_ok,
    Py.fault?_eq_some] at hrun
  obtain ⟨_, -, alice, hcreate, ref, href, _, hfault, _, hnone, -⟩ := hrun
  have hraise := (⟨_, hfault, by simp⟩ : Py.Raises _)
  have htrace := hall _ _ _ (.create hcreate) hraise
  have hmem := htrace.consumedKeyPackages ref
  rw [addMember_recorded href (by simp [hnone]) hraise, hnone] at hmem
  simp at hmem

end PureMls
