import PureMls.Model.SecretTree

/-! # The ratchets of the secret tree -/

namespace PureMls

namespace SecretTree

variable {C : Crypto} {st st' : SecretTree} {leaf gen tip : ℕ} {type : SecretType} {secret : Bytes}

/-- Trees that hand out the same keys: the tip of every ratchet is the same, whether it is
cached or still to be derived. -/
structure Alike (C : Crypto) (st st' : SecretTree) : Prop where
  encryptionSecret : st.encryptionSecret = st'.encryptionSecret
  nLeaves : st.nLeaves = st'.nLeaves
  generations : st.generations = st'.generations
  start : ∀ leaf type, st.ratchetStart C leaf type = st'.ratchetStart C leaf type

theorem Alike.refl (st : SecretTree) : Alike C st st := ⟨rfl, rfl, rfl, fun _ _ => rfl⟩

theorem Alike.symm (h : Alike C st st') : Alike C st' st :=
  ⟨h.1.symm, h.2.symm, h.3.symm, fun leaf type => (h.4 leaf type).symm⟩

theorem Alike.trans {st'' : SecretTree} (h : Alike C st st') (h' : Alike C st' st'') :
    Alike C st st'' :=
  ⟨h.1.trans h'.1, h.2.trans h'.2, h.3.trans h'.3,
    fun leaf type => (h.4 leaf type).trans (h'.4 leaf type)⟩

/-- The tree with the tip of one ratchet at `gen`. -/
def withTip (st : SecretTree) (leaf gen : ℕ) (type : SecretType) (secret : Bytes) : SecretTree :=
  { st with leafCache := st.leafCache.set (leaf, type) (gen, secret) }

theorem ratchetStart_congr (h : st.encryptionSecret = st'.encryptionSecret)
    (h' : st.nLeaves = st'.nLeaves)
    (hcache : st.leafCache.get? (leaf, type) = st'.leafCache.get? (leaf, type)) :
    st.ratchetStart C leaf type = st'.ratchetStart C leaf type := by
  unfold ratchetStart deriveLeafNodeSecret
  rw [h, h', hcache]

theorem ratchetStart_withTip (leaf' : ℕ) (type' : SecretType) :
    (st.withTip leaf gen type secret).ratchetStart C leaf' type' =
      if (leaf', type') = (leaf, type) then .ok (gen, secret)
      else st.ratchetStart C leaf' type' := by
  by_cases h : (leaf', type') = (leaf, type)
  · rw [if_pos h, ratchetStart, withTip, Dict.get?_set, if_pos h]
    rfl
  · have hcache : (st.withTip leaf gen type secret).leafCache.get? (leaf', type') =
        st.leafCache.get? (leaf', type') := Dict.get?_set_ne _ _ h
    rw [if_neg h]
    exact ratchetStart_congr rfl rfl hcache

theorem Alike.withTip (h : Alike C st st') :
    Alike C (st.withTip leaf gen type secret) (st'.withTip leaf gen type secret) := by
  refine ⟨h.1, h.2, h.3, fun leaf' type' => ?_⟩
  rw [ratchetStart_withTip, ratchetStart_withTip, h.4]

/-- Writing down the tip a ratchet has anyway changes nothing. -/
theorem alike_withTip (h : st.ratchetStart C leaf type = .ok (gen, secret)) :
    Alike C (st.withTip leaf gen type secret) st := by
  refine ⟨rfl, rfl, rfl, fun leaf' type' => ?_⟩
  rw [ratchetStart_withTip]
  by_cases heq : (leaf', type') = (leaf, type)
  · obtain ⟨rfl, rfl⟩ := Prod.mk.injEq .. ▸ heq
    rw [if_pos rfl, h]
  · rw [if_neg heq]

/-! ## One ratchet -/

theorem ratchetStart_of_cached (h : st.leafCache.get? (leaf, type) = some (tip, secret)) :
    st.ratchetStart C leaf type = .ok (tip, secret) := by
  rw [ratchetStart, h]
  rfl

theorem tip_of_fresh (h : st.leafCache.get? (leaf, type) = none)
    (hstart : st.ratchetStart C leaf type = .ok (tip, secret)) : tip = 0 := by
  simp only [ratchetStart, h, Py.bind_eq_ok, Py.pure_eq, Except.ok.injEq, Prod.mk.injEq] at hstart
  obtain ⟨_, -, _, -, rfl, -⟩ := hstart
  rfl

theorem getRatchetSecret_error {e : Fault} (h : st.ratchetStart C leaf type = .error e) :
    st.getRatchetSecret C leaf gen type = .error e := by
  unfold getRatchetSecret
  cases hcache : st.leafCache.get? (leaf, type) with
  | none =>
      simp only [advanceRatchet, h]
      rfl
  | some cached => simp [ratchetStart_of_cached hcache] at h

theorem getRatchetSecret_behind (h : st.ratchetStart C leaf type = .ok (tip, secret))
    (hlt : gen < tip) : st.getRatchetSecret C leaf gen type =
      .error (.valueError s!"SecretTree forward-secrecy: gen {gen} < tip {tip}") := by
  unfold getRatchetSecret
  cases hcache : st.leafCache.get? (leaf, type) with
  | none =>
      have hzero := tip_of_fresh hcache h
      omega
  | some cached =>
      have hcached : st.ratchetStart C leaf type = .ok (cached.1, cached.2) :=
        ratchetStart_of_cached hcache
      rw [h, Except.ok.injEq, Prod.mk.injEq] at hcached
      have hne : ¬ tip = gen := by omega
      simp only [← hcached.1, if_neg hne, if_pos hlt]

/-- At or beyond the tip the secret is the one the ratchet reaches, and the tip moves there. -/
theorem getRatchetSecret_ahead (h : st.ratchetStart C leaf type = .ok (tip, secret))
    (hle : tip ≤ gen) :
    (Prod.fst <$> st.getRatchetSecret C leaf gen type =
      ratchetForward C (gen - tip) tip secret) ∧
    ∀ next moved, st.getRatchetSecret C leaf gen type = .ok (next, moved) →
      Alike C moved (st.withTip leaf gen type next) := by
  have hadvance : (Prod.fst <$> st.advanceRatchet C leaf gen type =
        ratchetForward C (gen - tip) tip secret) ∧
      ∀ next moved, st.advanceRatchet C leaf gen type = .ok (next, moved) →
        Alike C moved (st.withTip leaf gen type next) := by
    simp only [advanceRatchet, h, Py.ok_bind]
    cases hforward : ratchetForward C (gen - tip) tip secret with
    | error e => exact ⟨rfl, fun next moved hmoved => by simp at hmoved⟩
    | ok reached =>
        refine ⟨rfl, fun next moved hmoved => ?_⟩
        simp only [Py.ok_bind, Py.pure_eq, Except.ok.injEq, Prod.mk.injEq] at hmoved
        obtain ⟨rfl, rfl⟩ := hmoved
        exact .refl _
  unfold getRatchetSecret
  cases hcache : st.leafCache.get? (leaf, type) with
  | none => exact hadvance
  | some cached =>
      have hcached : st.ratchetStart C leaf type = .ok (cached.1, cached.2) :=
        ratchetStart_of_cached hcache
      rw [h, Except.ok.injEq, Prod.mk.injEq] at hcached
      obtain ⟨htip, hsecret⟩ := hcached
      by_cases heq : tip = gen
      · subst heq
        simp only [← htip, if_true, Nat.sub_self, ratchetForward, ← hsecret]
        refine ⟨rfl, fun next moved hmoved => ?_⟩
        simp only [Py.pure_eq, Except.ok.injEq, Prod.mk.injEq] at hmoved
        obtain ⟨rfl, rfl⟩ := hmoved
        exact (alike_withTip h).symm
      · simp only [← htip, if_neg heq, if_neg (Nat.not_lt.mpr hle)]
        exact hadvance

theorem getRatchetSecret_alike (h : Alike C st st') (leaf gen : ℕ) (type : SecretType) :
    Prod.fst <$> st.getRatchetSecret C leaf gen type =
        Prod.fst <$> st'.getRatchetSecret C leaf gen type ∧
      ∀ next next' moved moved', st.getRatchetSecret C leaf gen type = .ok (next, moved) →
        st'.getRatchetSecret C leaf gen type = .ok (next', moved') → Alike C moved moved' := by
  have hstart := h.4 leaf type
  cases hs : st.ratchetStart C leaf type with
  | error e =>
      rw [getRatchetSecret_error hs, getRatchetSecret_error (hstart.symm.trans hs)]
      exact ⟨rfl, fun _ _ _ _ hmoved => by simp at hmoved⟩
  | ok start =>
      obtain ⟨tip, secret⟩ := start
      have hs' := hstart.symm.trans hs
      by_cases hlt : gen < tip
      · rw [getRatchetSecret_behind hs hlt, getRatchetSecret_behind hs' hlt]
        exact ⟨rfl, fun _ _ _ _ hmoved => by simp at hmoved⟩
      · obtain ⟨hfst, hnext⟩ := getRatchetSecret_ahead hs (Nat.not_lt.mp hlt)
        obtain ⟨hfst', hnext'⟩ := getRatchetSecret_ahead hs' (Nat.not_lt.mp hlt)
        refine ⟨hfst.trans hfst'.symm, fun next next' moved moved' hmoved hmoved' => ?_⟩
        have heq : next = next' := by
          rw [hmoved, Py.map_ok] at hfst
          rw [hmoved', Py.map_ok, ← hfst, Except.ok.injEq] at hfst'
          exact hfst'.symm
        subst heq
        exact (hnext next moved hmoved).trans (h.withTip.trans (hnext' next moved' hmoved').symm)

/-! ## Keys -/

theorem getKeyAndNonceForGen_alike (h : Alike C st st') (leaf gen : ℕ) (type : SecretType) :
    (st.getKeyAndNonceForGen C leaf gen type).2 = (st'.getKeyAndNonceForGen C leaf gen type).2 ∧
      Alike C (st.getKeyAndNonceForGen C leaf gen type).1
        (st'.getKeyAndNonceForGen C leaf gen type).1 := by
  obtain ⟨hfst, hnext⟩ := getRatchetSecret_alike h leaf gen type
  unfold getKeyAndNonceForGen
  cases hr : st.getRatchetSecret C leaf gen type with
  | error e =>
      cases hr' : st'.getRatchetSecret C leaf gen type with
      | error e' =>
          rw [hr, hr'] at hfst
          cases hfst
          exact ⟨rfl, h⟩
      | ok moved' =>
          rw [hr, hr'] at hfst
          cases hfst
  | ok moved =>
      cases hr' : st'.getRatchetSecret C leaf gen type with
      | error e' =>
          rw [hr, hr'] at hfst
          cases hfst
      | ok moved' =>
          have halike := hnext moved.1 moved'.1 moved.2 moved'.2 hr hr'
          rw [hr, hr', Py.map_ok, Py.map_ok, Except.ok.injEq] at hfst
          exact ⟨by simp only [hfst], halike⟩

theorem getKeyAndNonce_alike (h : Alike C st st') (leaf : ℕ) (type : SecretType) :
    (st.getKeyAndNonce C leaf type).2 = (st'.getKeyAndNonce C leaf type).2 ∧
      Alike C (st.getKeyAndNonce C leaf type).1 (st'.getKeyAndNonce C leaf type).1 := by
  obtain ⟨hkeys, halike⟩ := getKeyAndNonceForGen_alike h leaf
    ((st.generations.get? leaf).getD 0) type
  have hgen : (st'.generations.get? leaf).getD 0 = (st.generations.get? leaf).getD 0 := by
    rw [h.3]
  rcases hdrawn : st.getKeyAndNonceForGen C leaf ((st.generations.get? leaf).getD 0) type
    with ⟨moved, keys⟩
  rcases hdrawn' : st'.getKeyAndNonceForGen C leaf ((st.generations.get? leaf).getD 0) type
    with ⟨moved', keys'⟩
  simp only [hdrawn, hdrawn'] at hkeys halike
  subst hkeys
  simp only [getKeyAndNonce, hgen, hdrawn, hdrawn']
  rcases keys with e | ⟨key, nonce⟩
  · exact ⟨rfl, halike⟩
  · refine ⟨rfl, halike.1, halike.2, by simp only [halike.3], fun leaf' type' => ?_⟩
    refine (ratchetStart_congr ?_ ?_ ?_).trans
      ((halike.4 leaf' type').trans (ratchetStart_congr ?_ ?_ ?_))
    all_goals rfl

end SecretTree

end PureMls
