import PureMls.Verification.Channels

/-! # Messages presented again -/

namespace PureMls

/-! ## Tips only move forward -/

namespace SecretTree

variable {C : Crypto} {st st' : SecretTree} {leaf gen tip : ℕ} {type : SecretType} {secret : Bytes}

/-- Every cached tip of `st` is still there in `st'`, or a later one has taken its place. -/
def Grows (st st' : SecretTree) : Prop :=
  ∀ key, st'.leafCache.get? key = st.leafCache.get? key ∨
    ∃ tip', st'.leafCache.get? key = some tip' ∧
      ∀ tip, st.leafCache.get? key = some tip → tip.1 < tip'.1

theorem Grows.refl (st : SecretTree) : Grows st st := fun _ => .inl rfl

theorem Grows.trans {st'' : SecretTree} (h : Grows st st') (h' : Grows st' st'') :
    Grows st st'' := by
  intro key
  rcases h' key with hsame' | ⟨tip'', htip'', hlater'⟩
  · rw [hsame']
    exact h key
  · refine .inr ⟨tip'', htip'', fun tip htip => ?_⟩
    rcases h key with hsame | ⟨tip', htip', hlater⟩
    · exact hlater' tip (hsame.trans htip)
    · exact (hlater tip htip).trans (hlater' tip' htip')

theorem advanceRatchet_grows {moved : SecretTree}
    (hlt : ∀ tip, st.leafCache.get? (leaf, type) = some tip → tip.1 < gen)
    (h : st.advanceRatchet C leaf gen type = .ok (secret, moved)) :
    Grows st moved ∧ moved.leafCache.get? (leaf, type) = some (gen, secret) := by
  simp only [advanceRatchet, Py.bind_eq_ok, Py.pure_eq, Except.ok.injEq, Prod.mk.injEq] at h
  obtain ⟨_, -, _, -, rfl, rfl⟩ := h
  refine ⟨fun key => ?_, Dict.get?_set_self _ _ _⟩
  by_cases hkey : key = (leaf, type)
  · subst hkey
    exact .inr ⟨_, Dict.get?_set_self _ _ _, hlt⟩
  · exact .inl (Dict.get?_set_ne _ _ hkey)

/-- The tip ends at the generation asked for, with the secret that was handed out. -/
theorem getRatchetSecret_grows {moved : SecretTree}
    (h : st.getRatchetSecret C leaf gen type = .ok (secret, moved)) :
    Grows st moved ∧ moved.leafCache.get? (leaf, type) = some (gen, secret) := by
  unfold getRatchetSecret at h
  cases hcache : st.leafCache.get? (leaf, type) with
  | none =>
      rw [hcache] at h
      exact advanceRatchet_grows (by simp [hcache]) h
  | some cached =>
      obtain ⟨tip, tipSecret⟩ := cached
      simp only [hcache] at h
      by_cases heq : tip = gen
      · rw [if_pos heq, Py.pure_eq, Except.ok.injEq, Prod.mk.injEq] at h
        obtain ⟨rfl, rfl⟩ := h
        subst heq
        exact ⟨.refl _, hcache⟩
      · by_cases hlt : gen < tip
        · simp [heq, hlt] at h
        · rw [if_neg heq, if_neg hlt] at h
          refine advanceRatchet_grows (fun cached hcached => ?_) h
          rw [hcache, Option.some.injEq] at hcached
          subst hcached
          omega

theorem getKeyAndNonceForGen_grows (st : SecretTree) (leaf gen : ℕ) (type : SecretType) :
    Grows st (st.getKeyAndNonceForGen C leaf gen type).1 := by
  unfold getKeyAndNonceForGen
  cases h : st.getRatchetSecret C leaf gen type with
  | error e => exact .refl _
  | ok moved => exact (getRatchetSecret_grows h).1

theorem getKeyAndNonce_grows (st : SecretTree) (leaf : ℕ) (type : SecretType) :
    Grows st (st.getKeyAndNonce C leaf type).1 := by
  have hgrows :=
    getKeyAndNonceForGen_grows (C := C) st leaf ((st.generations.get? leaf).getD 0) type
  simp only [getKeyAndNonce]
  rcases hdrawn : st.getKeyAndNonceForGen C leaf ((st.generations.get? leaf).getD 0) type with
    ⟨moved, e | ⟨key, nonce⟩⟩
  all_goals
    rw [hdrawn] at hgrows
    exact hgrows

end SecretTree

namespace MLSGroup

variable {C : Crypto} {self : MLSGroup} {payload plaintext contentCt ad : Bytes} {leaf gen : ℕ}

/-- The generation at which the ratchet of a leaf is cached. -/
def tip (self : MLSGroup) (leaf : ℕ) : Option ℕ :=
  (self.getSecretTree.leafCache.get? (leaf, .application)).map Prod.fst

/-- The handle refuses every message of this leaf and generation. -/
def Refuses (C : Crypto) (self : MLSGroup) (leaf gen : ℕ) : Prop :=
  ∀ payload contentCt ad, openHeader C self payload = .ok (leaf, gen, contentCt, ad) →
    ∃ e, (self.decryptApplicationMessage C payload).2 = .error e

/-- A later handle of the same member in the same epoch. -/
structure Later (a b : MLSGroup) : Prop where
  rest : b = { a with secretTree := b.secretTree }
  grows : a.getSecretTree.Grows b.getSecretTree

theorem Later.refl (self : MLSGroup) : Later self self := ⟨rfl, .refl _⟩

theorem Later.trans {a b c : MLSGroup} (h : Later a b) (h' : Later b c) : Later a c :=
  ⟨by rw [h'.rest, h.rest], h.grows.trans h'.grows⟩

theorem Later.openHeader {a b : MLSGroup} (h : Later a b) (payload : Bytes) :
    MLSGroup.openHeader C b payload = MLSGroup.openHeader C a payload := by
  rw [h.rest]
  rfl

/-- One call: nothing but the secret tree moves, and its tips only forward. -/
theorem later_run (C : Crypto) (self : MLSGroup) (call : MessageCall) :
    Later self (call.run C self).1 := by
  cases call with
  | encrypt plaintext =>
      rw [MessageCall.run, encrypt_left]
      exact ⟨rfl, SecretTree.getKeyAndNonce_grows _ _ _⟩
  | decrypt payload =>
      refine ⟨decrypt_left payload, ?_⟩
      rw [MessageCall.run]
      cases hheader : MLSGroup.openHeader C self payload with
      | error e =>
          rw [decrypt_of_header_error hheader]
          exact .refl _
      | ok header =>
          obtain ⟨leaf, gen, contentCt, ad⟩ := header
          have hgrows := SecretTree.getKeyAndNonceForGen_grows (C := C) self.getSecretTree leaf gen
            .application
          rw [decrypt_of_header hheader]
          rcases hdrawn : self.getSecretTree.getKeyAndNonceForGen C leaf gen .application with
            ⟨moved, e | ⟨key, nonce⟩⟩
          all_goals
            rw [hdrawn] at hgrows
            exact hgrows

theorem later_final (C : Crypto) (self : MLSGroup) (calls : List MessageCall) :
    Later self (Machine.final (MessageCall.run C) self calls) :=
  Machine.final_invariant (fun handle call h => h.trans (later_run C handle call))
    (.refl self) calls

/-! ## One message -/

/-- What a returned message leaves behind: the tip at its generation with the secret that opened
it. -/
theorem tip_of_accepted (hheader : openHeader C self payload = .ok (leaf, gen, contentCt, ad))
    (h : (self.decryptApplicationMessage C payload).2 = .ok plaintext) :
    ∃ secret key nonce, (self.decryptApplicationMessage C payload).1.getSecretTree.leafCache.get?
        (leaf, .application) = some (gen, secret) ∧
      SecretTree.keyAndNonce C secret gen = .ok (key, nonce) ∧
      C.aesGcmDecrypt key nonce contentCt ad = .ok plaintext := by
  rw [decrypt_of_header hheader] at h ⊢
  cases hr : self.getSecretTree.getRatchetSecret C leaf gen .application with
  | error e => simp [SecretTree.getKeyAndNonceForGen, hr] at h
  | ok moved =>
      obtain ⟨secret, moved⟩ := moved
      have hcached := (SecretTree.getRatchetSecret_grows hr).2
      simp only [SecretTree.getKeyAndNonceForGen, hr] at h ⊢
      cases hk : SecretTree.keyAndNonce C secret gen with
      | error e => simp [hk] at h
      | ok keys =>
          obtain ⟨key, nonce⟩ := keys
          simp only [hk] at h ⊢
          refine ⟨secret, key, nonce, hcached, hk, ?_⟩
          cases hopen : C.aesGcmDecrypt key nonce contentCt ad with
          | error e => simp [hopen, Py.rethrow] at h
          | ok opened =>
              rw [hopen] at h
              exact h

/-- While the tip stays at its generation, a message is returned again. -/
theorem accepted_at_tip {secret key nonce : Bytes}
    (hheader : openHeader C self payload = .ok (leaf, gen, contentCt, ad))
    (hcached : self.getSecretTree.leafCache.get? (leaf, .application) = some (gen, secret))
    (hkeys : SecretTree.keyAndNonce C secret gen = .ok (key, nonce))
    (hopen : C.aesGcmDecrypt key nonce contentCt ad = .ok plaintext) :
    (self.decryptApplicationMessage C payload).2 = .ok plaintext := by
  have hdrawn : self.getSecretTree.getRatchetSecret C leaf gen .application =
      .ok (secret, self.getSecretTree) := by
    simp only [SecretTree.getRatchetSecret, hcached, if_true]
    rfl
  rw [decrypt_of_header hheader]
  simp only [SecretTree.getKeyAndNonceForGen, hdrawn, hkeys, hopen]
  rfl

theorem refuses_behind {tip : ℕ} {secret : Bytes}
    (hcached : self.getSecretTree.leafCache.get? (leaf, .application) = some (tip, secret))
    (hlt : gen < tip) : Refuses C self leaf gen := by
  intro payload contentCt ad hheader
  have hbehind := SecretTree.getRatchetSecret_behind (C := C)
    (SecretTree.ratchetStart_of_cached hcached) hlt
  rw [decrypt_of_header hheader, SecretTree.getKeyAndNonceForGen, hbehind]
  exact ⟨_, rfl⟩

end MLSGroup

/-! ## Runs -/

/-- In a run of calls on the handle, a message of this leaf and generation has been returned. -/
def Accepted (C : Crypto) (self : MLSGroup) (calls : List MessageCall) (leaf gen : ℕ) : Prop :=
  ∃ earlier payload later contentCt ad plaintext, calls = earlier ++ .decrypt payload :: later ∧
    MLSGroup.openHeader C self payload = .ok (leaf, gen, contentCt, ad) ∧
    ((Machine.final (MessageCall.run C) self earlier).decryptApplicationMessage C payload).2 =
      .ok plaintext

/-- No message is returned by the run once one of its leaf and generation has been. -/
def AcceptsOnce (C : Crypto) (self : MLSGroup) (calls : List MessageCall) : Prop :=
  ∀ earlier payload later leaf gen contentCt ad, calls = earlier ++ .decrypt payload :: later →
    Accepted C self earlier leaf gen →
    MLSGroup.openHeader C self payload = .ok (leaf, gen, contentCt, ad) →
    ∃ e, ((Machine.final (MessageCall.run C) self earlier).decryptApplicationMessage C payload).2 =
      .error e

/-- A message of a leaf and generation that was returned before is only presented when the tip
of the leaf's ratchet no longer stands at this generation. -/
def RepeatsBehindTip (C : Crypto) (self : MLSGroup) (calls : List MessageCall) : Prop :=
  ∀ earlier payload later leaf gen contentCt ad, calls = earlier ++ .decrypt payload :: later →
    Accepted C self earlier leaf gen →
    MLSGroup.openHeader C self payload = .ok (leaf, gen, contentCt, ad) →
    (Machine.final (MessageCall.run C) self earlier).tip leaf ≠ some gen

/-- After a message was returned, its leaf and generation are refused exactly when the tip has
moved on. -/
theorem Accepted.refuses_iff {C : Crypto} {self : MLSGroup} {calls : List MessageCall}
    {leaf gen : ℕ} (h : Accepted C self calls leaf gen) :
    (Machine.final (MessageCall.run C) self calls).Refuses C leaf gen ↔
      (Machine.final (MessageCall.run C) self calls).tip leaf ≠ some gen := by
  obtain ⟨earlier, payload, later, contentCt, ad, plaintext, rfl, hheader, hplain⟩ := h
  have hbefore := MLSGroup.later_final C self earlier
  have hheader' := (hbefore.openHeader (C := C) payload).trans hheader
  obtain ⟨secret, key, nonce, hcached, hkeys, hopen⟩ := MLSGroup.tip_of_accepted hheader' hplain
  rw [Machine.final_append]
  have hfinal : Machine.final (MessageCall.run C) (Machine.final (MessageCall.run C) self earlier)
      (.decrypt payload :: later) = Machine.final (MessageCall.run C)
        ((Machine.final (MessageCall.run C) self earlier).decryptApplicationMessage C payload).1
          later :=
    rfl
  have hafter := MLSGroup.later_final C
    ((Machine.final (MessageCall.run C) self earlier).decryptApplicationMessage C payload).1 later
  rw [hfinal]
  generalize Machine.final (MessageCall.run C)
    ((Machine.final (MessageCall.run C) self earlier).decryptApplicationMessage C payload).1 later =
    last at hafter
  have hheader'' : MLSGroup.openHeader C last payload = .ok (leaf, gen, contentCt, ad) := by
    have hstep :=
      MLSGroup.later_run C (Machine.final (MessageCall.run C) self earlier) (.decrypt payload)
    rw [(hbefore.trans (hstep.trans hafter)).openHeader, hheader]
  rcases hafter.grows (leaf, .application) with hsame | ⟨tip, htip, hlater⟩
  · have hstill := hsame.trans hcached
    refine iff_of_false (fun hrefuses => ?_) (not_not.mpr (by rw [MLSGroup.tip, hstill]; rfl))
    obtain ⟨e, he⟩ := hrefuses payload contentCt ad hheader''
    rw [MLSGroup.accepted_at_tip hheader'' hstill hkeys hopen] at he
    cases he
  · have hlt := hlater _ hcached
    refine iff_of_true (MLSGroup.refuses_behind htip hlt) ?_
    rw [MLSGroup.tip, htip]
    exact fun heq => hlt.ne' (Option.some.inj heq)

/-- In every run in which repeated messages are presented behind their tip, no message is returned
twice; and at every point of any run, what was returned is refused exactly while its sender's tip
does not stand at its generation. -/
theorem accepts_once_iff {C : Crypto} {self : MLSGroup} (calls : List MessageCall) :
    (RepeatsBehindTip C self calls → AcceptsOnce C self calls) ∧
    ∀ leaf gen, Accepted C self calls leaf gen →
      ((Machine.final (MessageCall.run C) self calls).Refuses C leaf gen ↔
        (Machine.final (MessageCall.run C) self calls).tip leaf ≠ some gen) := by
  refine ⟨fun hbehind => ?_, fun leaf gen h => h.refuses_iff⟩
  intro earlier payload later leaf gen contentCt ad hcalls haccepted hheader
  have htip := hbehind earlier payload later leaf gen contentCt ad hcalls haccepted hheader
  have hlater := MLSGroup.later_final C self earlier
  exact haccepted.refuses_iff.mpr htip payload contentCt ad
    ((hlater.openHeader payload).trans hheader)

namespace Sample

/-- Alice is given Bob's first message twice, and then his second one. -/
def repeated : Py (MLSGroup × Bytes × Bytes) := do
  let bobPackage ← keyPackage 20
  let founder ← MLSGroup.create crypto (ascii "g") (sig 1) (kem 1) (kem 2)
  let (alice, welcome, _) ← (founder.addMember crypto (coins 40) bobPackage).2
  let bob ← MLSGroup.join crypto welcome (sig 20) (kem 20) [] none
  let message ← (bob.encryptApplicationMessage crypto (ascii "hi")).2
  let next ← ((bob.encryptApplicationMessage crypto (ascii "hi")).1.encryptApplicationMessage crypto
    (ascii "ho")).2
  let header ← MLSGroup.openHeader crypto alice message
  let first := alice.decryptApplicationMessage crypto message
  expect (header.1 = 1 ∧ header.2.1 = 0)
  expect (first.2 = .ok (ascii "hi"))
  expect ((first.1.decryptApplicationMessage crypto message).2 = .ok (ascii "hi"))
  expect ((first.1.decryptApplicationMessage crypto next).1.tip 1 = some 1)
  pure (alice, message, next)

theorem repeated_ok : ∃ r, repeated = .ok r := Py.ok_of_isOk (by decide +kernel)

end Sample

/-- Once Alice has read Bob's second message, she refuses whatever is presented as his first. -/
theorem accepts_once_alice : ∃ (alice : MLSGroup) (message next : Bytes),
    Accepted Sample.crypto alice [.decrypt message, .decrypt next] 1 0 ∧
    (Machine.final (MessageCall.run Sample.crypto) alice
      [.decrypt message, .decrypt next]).Refuses Sample.crypto 1 0 := by
  obtain ⟨_, hrun⟩ := Sample.repeated_ok
  simp only [Sample.repeated, Sample.expect, Py.bind_eq_ok, Py.require_eq_ok] at hrun
  obtain ⟨_, -, _, -, ⟨alice, _, _⟩, -, _, -, message, -, next, -, ⟨leaf, gen, contentCt, ad⟩,
    hheader, _, ⟨rfl, rfl⟩, _, hfirst, _, -, _, htip, -⟩ := hrun
  have haccepted : Accepted Sample.crypto alice [.decrypt message, .decrypt next] 1 0 :=
    ⟨[], message, [.decrypt next], contentCt, ad, ascii "hi", rfl, hheader, hfirst⟩
  refine ⟨alice, message, next, haccepted, ?_⟩
  refine ((accepts_once_iff [.decrypt message, .decrypt next]).2 1 0 haccepted).mpr fun heq => ?_
  have hsome : some 1 = some 0 := htip.symm.trans heq
  cases hsome

/-- Alice is given Bob's message a second time and returns it again. -/
theorem latest_message_repeated : ∃ alice message, Reachable Sample.crypto alice ∧
    ¬ AcceptsOnce Sample.crypto alice [.decrypt message, .decrypt message] := by
  obtain ⟨_, hrun⟩ := Sample.repeated_ok
  simp only [Sample.repeated, Sample.expect, Py.bind_eq_ok, Py.require_eq_ok] at hrun
  obtain ⟨bobPackage, -, founder, hcreate, ⟨alice, _, _⟩, hadd, bob, -, message, -, _, -,
    ⟨leaf, gen, contentCt, ad⟩, hheader, _, -, _, hfirst, _, hsecond, -⟩ := hrun
  have hadded : Transition.run Sample.crypto founder (.addMember (Sample.coins 40) bobPackage) =
      .ok alice := Py.map_eq_ok.mpr ⟨_, hadd, rfl⟩
  refine ⟨alice, message, .next (.create hcreate) hadded, fun honce => ?_⟩
  have haccepted : Accepted Sample.crypto alice [.decrypt message] leaf gen :=
    ⟨[], message, [], contentCt, ad, ascii "hi", rfl, hheader, hfirst⟩
  obtain ⟨e, he⟩ := honce [.decrypt message] message [] leaf gen contentCt ad rfl haccepted hheader
  have hagain : ((Machine.final (MessageCall.run Sample.crypto) alice
    [.decrypt message]).decryptApplicationMessage Sample.crypto message).2 = .ok (ascii "hi") :=
      hsecond
  rw [hagain] at he
  cases he

end PureMls
