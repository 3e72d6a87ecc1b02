import Mathlib.Data.List.Induction
import PureMls.Verification.AppMessages

/-! # Generations drawn in one epoch

The handles one member has in an epoch, the calls on them, and the generations of its leaf
that its encryptions use. -/

namespace PureMls

namespace MLSGroup

/-- The generation the next encryption of this handle asks for. -/
def counter (self : MLSGroup) : ℕ := (self.getSecretTree.generations.get? self.myIndex).getD 0

variable {C : Crypto} {self next : MLSGroup}

theorem counter_of_fresh (h : self.secretTree = none) : self.counter = 0 := by
  rw [counter, getSecretTree, h]
  rfl

end MLSGroup

/-- A generation of the own leaf together with its ratchet secret. -/
structure Drawn where
  generation : ℕ
  ratchetSecret : Bytes

/-- The content key and nonce that belong to a generation. -/
def Drawn.keys (C : Crypto) (drawn : Drawn) : Py (Bytes × Bytes) :=
  SecretTree.keyAndNonce C drawn.ratchetSecret drawn.generation

/-- What a call draws from the secret tree in order to encrypt; nothing if it gets no key. -/
def MessageCall.draws (C : Crypto) (self : MLSGroup) : MessageCall → List Drawn
  | encrypt _ =>
    match self.getSecretTree.getRatchetSecret C self.myIndex self.counter .application with
    | .ok (secret, _) =>
      if (SecretTree.keyAndNonce C secret self.counter).isOk then [⟨self.counter, secret⟩] else []
    | .error _ => []
  | decrypt _ => []

/-- A call on a handle of the epoch. -/
inductive EpochCall where
  | message (call : MessageCall)
  | transition (transition : Transition)

/-- One member in one epoch: its handles of that epoch and what they have drawn. -/
structure Sender where
  handles : List MLSGroup
  drawn : List Drawn

namespace Sender

/-- Loading a dump gives a second handle of the same epoch; the handles other transitions
return belong to the next epoch. -/
def copies (C : Crypto) (self : MLSGroup) : Transition → List MLSGroup
  | .reload => (Transition.run C self .reload).toOption.toList
  | _ => []

/-- One call on the handle at position `call.1`. -/
def step (C : Crypto) (s : Sender) (call : ℕ × EpochCall) : Sender :=
  match s.handles[call.1]? with
  | none => s
  | some self =>
    match call.2 with
    | .message m => ⟨s.handles.set call.1 (m.run C self).1, s.drawn ++ m.draws C self⟩
    | .transition t => ⟨s.handles.set call.1 (t.left C self) ++ copies C self t, s.drawn⟩

/-- Any calls on the handles that descend from `self` in its epoch, in any order. -/
def run (C : Crypto) (self : MLSGroup) (calls : List (ℕ × EpochCall)) : Sender :=
  calls.foldl (step C) ⟨[self], []⟩

/-- A call that draws a key does so from a secret tree that has drawn before, or else it is the
first of the epoch to draw one. -/
def Continues (C : Crypto) (s : Sender) (call : ℕ × EpochCall) : Prop :=
  ∀ self m, s.handles[call.1]? = some self → call.2 = .message m → m.draws C self ≠ [] →
    self.counter = 0 → s.drawn = []

end Sender

/-! ## What a call does to the counter -/

namespace MLSGroup

variable {C : Crypto} {self next : MLSGroup}

/-- Asking for a ratchet secret moves the cached tips and nothing else. -/
theorem getRatchetSecret_left {st moved : SecretTree} {leaf gen : ℕ} {type : SecretType}
    {secret : Bytes} (h : st.getRatchetSecret C leaf gen type = .ok (secret, moved)) :
    moved = { st with leafCache := moved.leafCache } := by
  have hadvance : st.advanceRatchet C leaf gen type = .ok (secret, moved) →
      moved = { st with leafCache := moved.leafCache } := by
    intro hadv
    simp only [SecretTree.advanceRatchet, Py.bind_eq_ok, Py.pure_eq, Except.ok.injEq,
      Prod.mk.injEq] at hadv
    obtain ⟨_, -, _, -, -, rfl⟩ := hadv
    rfl
  unfold SecretTree.getRatchetSecret at h
  cases hcache : st.leafCache.get? (leaf, type) with
  | none =>
      rw [hcache] at h
      exact hadvance h
  | some cached =>
      rw [hcache] at h
      by_cases heq : cached.1 = gen
      · simp only [heq, if_true, Py.pure_eq, Except.ok.injEq, Prod.mk.injEq] at h
        rw [← h.2]
      · by_cases hlt : gen < cached.1
        · simp [heq, hlt] at h
        · simp only [if_neg heq, if_neg hlt] at h
          exact hadvance h

theorem getKeyAndNonceForGen_left (st : SecretTree) (leaf gen : ℕ) (type : SecretType) :
    (st.getKeyAndNonceForGen C leaf gen type).1 =
      { st with leafCache := (st.getKeyAndNonceForGen C leaf gen type).1.leafCache } := by
  unfold SecretTree.getKeyAndNonceForGen
  cases h : st.getRatchetSecret C leaf gen type with
  | error e => rfl
  | ok moved => exact getRatchetSecret_left h

theorem getKeyAndNonceForGen_generations (st : SecretTree) (leaf gen : ℕ)
    (type : SecretType) :
    (st.getKeyAndNonceForGen C leaf gen type).1.generations = st.generations := by
  rw [getKeyAndNonceForGen_left]

theorem counter_withTree (st : SecretTree) :
    ({ self with secretTree := some st } : MLSGroup).counter =
      (st.generations.get? self.myIndex).getD 0 := rfl

/-- The handle after an encryption: the secret tree has moved, nothing else. -/
theorem encrypt_left (plaintext : Bytes) :
    (self.encryptApplicationMessage C plaintext).1 = { self with
      secretTree := some (self.getSecretTree.getKeyAndNonce C self.myIndex .application).1 } := by
  rcases hdrawn : self.getSecretTree.getKeyAndNonce C self.myIndex .application with
    ⟨st, e | ⟨key, nonce, gen⟩⟩
  all_goals simp only [encryptApplicationMessage, hdrawn]

/-- The handle after a decryption: at most the secret tree has moved. -/
theorem decrypt_left (payload : Bytes) :
    (self.decryptApplicationMessage C payload).1 = { self with
      secretTree := (self.decryptApplicationMessage C payload).1.secretTree } := by
  cases hheader : openHeader C self payload with
  | error e => rw [decrypt_of_header_error hheader]
  | ok header =>
      obtain ⟨senderLeaf, gen, contentCt, ad⟩ := header
      rw [decrypt_of_header hheader]
      rcases self.getSecretTree.getKeyAndNonceForGen C senderLeaf gen .application with
        ⟨st, e | ⟨key, nonce⟩⟩ <;> rfl

theorem decrypt_counter (payload : Bytes) :
    (self.decryptApplicationMessage C payload).1.counter = self.counter := by
  cases hheader : openHeader C self payload with
  | error e => rw [decrypt_of_header_error hheader]
  | ok header =>
      obtain ⟨senderLeaf, gen, contentCt, ad⟩ := header
      have hgen := getKeyAndNonceForGen_generations (C := C) self.getSecretTree senderLeaf gen
        .application
      rw [decrypt_of_header hheader]
      rcases hdrawn : self.getSecretTree.getKeyAndNonceForGen C senderLeaf gen .application with
        ⟨st, e | ⟨key, nonce⟩⟩
      all_goals
        rw [hdrawn] at hgen
        simp only at hgen
        rw [counter_withTree, hgen]
        rfl

/-- An encryption draws the generation of the counter and moves the counter on, or neither. -/
theorem encrypt_counter (C : Crypto) (self : MLSGroup) (plaintext : Bytes) :
    ((MessageCall.encrypt plaintext).draws C self = [] ∧
      (self.encryptApplicationMessage C plaintext).1.counter = self.counter) ∨
    (∃ secret, (MessageCall.encrypt plaintext).draws C self = [⟨self.counter, secret⟩] ∧
      (self.encryptApplicationMessage C plaintext).1.counter = self.counter + 1) := by
  have hgen := getKeyAndNonceForGen_generations (C := C) self.getSecretTree self.myIndex
    self.counter .application
  cases hr : self.getSecretTree.getRatchetSecret C self.myIndex self.counter .application with
  | error e =>
      left
      have hkeys : self.getSecretTree.getKeyAndNonce C self.myIndex .application =
          (self.getSecretTree, .error e) := by
        change SecretTree.getRatchetSecret C self.getSecretTree self.myIndex
          ((self.getSecretTree.generations.get? self.myIndex).getD 0) .application = _ at hr
        simp only [SecretTree.getKeyAndNonce, SecretTree.getKeyAndNonceForGen, hr]
      refine ⟨by simp only [MessageCall.draws, hr], ?_⟩
      rw [encrypt_left, hkeys]
      rfl
  | ok moved =>
      obtain ⟨secret, moved⟩ := moved
      have hmoved : moved.generations = self.getSecretTree.generations := by
        rw [getRatchetSecret_left hr]
      change SecretTree.getRatchetSecret C self.getSecretTree self.myIndex
        ((self.getSecretTree.generations.get? self.myIndex).getD 0) .application = _ at hr
      cases hk : SecretTree.keyAndNonce C secret self.counter with
      | error e =>
          left
          have hk' : SecretTree.keyAndNonce C secret
            ((self.getSecretTree.generations.get? self.myIndex).getD 0) = .error e := hk
          have hkeys : self.getSecretTree.getKeyAndNonce C self.myIndex .application =
              (moved, .error e) := by
            simp only [SecretTree.getKeyAndNonce, SecretTree.getKeyAndNonceForGen, hr, hk']
          constructor
          · change SecretTree.getRatchetSecret C self.getSecretTree self.myIndex self.counter
              .application = _ at hr
            simp only [MessageCall.draws, hr, hk]
            rfl
          · rw [encrypt_left, hkeys, counter_withTree, hmoved]
            rfl
      | ok keys =>
          right
          have hk' : SecretTree.keyAndNonce C secret
            ((self.getSecretTree.generations.get? self.myIndex).getD 0) = .ok keys := hk
          have hkeys : self.getSecretTree.getKeyAndNonce C self.myIndex .application =
              ({ moved with generations := moved.generations.set self.myIndex (self.counter + 1) },
                .ok (keys.1, keys.2, self.counter)) := by
            simp only [SecretTree.getKeyAndNonce, SecretTree.getKeyAndNonceForGen, hr, hk']
            rfl
          refine ⟨secret, ?_, ?_⟩
          · change SecretTree.getRatchetSecret C self.getSecretTree self.myIndex self.counter
              .application = _ at hr
            simp only [MessageCall.draws, hr, hk]
            rfl
          · rw [encrypt_left, hkeys, counter_withTree, Dict.get?_set_self]
            rfl

/-- A transition leaves the old handle with its secret tree or with none. -/
theorem left_counter (t : Transition) :
    (t.left C self).counter = self.counter ∨ (t.left C self).counter = 0 := by
  obtain ⟨consumed, hleft | hleft, -⟩ := t.left_cases C self
  · rw [hleft]
    exact .inl rfl
  · rw [hleft]
    exact .inr rfl

theorem reload_fresh (h : Transition.run C self .reload = .ok next) : next.secretTree = none := by
  simp only [Transition.run, Py.bind_eq_ok] at h
  obtain ⟨data, hdump, hload⟩ := h
  obtain ⟨_, _, -, -, hnext, -⟩ := reload_eq_ok hdump hload
  rw [hnext]
  rfl

end MLSGroup

/-! ## Runs -/

namespace Sender

variable {C : Crypto} {self : MLSGroup} {s : Sender} {call : ℕ × EpochCall}

/-- The drawn generations are `0, 1, 2, ...`, and at most one handle has drawn any: its counter
is the number of them. -/
structure OneDrawer (s : Sender) : Prop where
  generations : s.drawn.map Drawn.generation = List.range s.drawn.length
  counters : ∀ self ∈ s.handles, self.counter = 0 ∨ self.counter = s.drawn.length
  single : s.handles.Pairwise fun a b => a.counter = 0 ∨ b.counter = 0

private theorem pairwise_set {handles : List MLSGroup} {i : ℕ} {self next : MLSGroup}
    (h : handles.Pairwise fun a b => a.counter = 0 ∨ b.counter = 0)
    (hi : handles[i]? = some self) (hzero : self.counter = 0 → next.counter = 0) :
    (handles.set i next).Pairwise fun a b => a.counter = 0 ∨ b.counter = 0 := by
  induction handles generalizing i with
  | nil => simp
  | cons a handles ih =>
      rw [List.pairwise_cons] at h
      cases i with
      | zero =>
          simp only [List.getElem?_cons_zero, Option.some.injEq] at hi
          subst hi
          rw [List.set_cons_zero, List.pairwise_cons]
          exact ⟨fun b hb => (h.1 b hb).imp_left hzero, h.2⟩
      | succ i =>
          rw [List.getElem?_cons_succ] at hi
          rw [List.set_cons_succ, List.pairwise_cons]
          refine ⟨fun b hb => ?_, ih h.2 hi⟩
          rcases List.mem_or_eq_of_mem_set hb with hb | rfl
          · exact h.1 b hb
          · exact (h.1 self (List.mem_of_getElem? hi)).imp_right hzero

/-- The other handles have drawn nothing once one has. -/
private theorem others_zero {handles : List MLSGroup} {i : ℕ} {self : MLSGroup}
    (h : handles.Pairwise fun a b => a.counter = 0 ∨ b.counter = 0)
    (hi : handles[i]? = some self) (hpos : self.counter ≠ 0) (next : MLSGroup) :
    (∀ other ∈ handles.set i next, other = next ∨ other.counter = 0) ∧
      (handles.set i next).Pairwise fun a b => a.counter = 0 ∨ b.counter = 0 := by
  induction handles generalizing i with
  | nil => simp at hi
  | cons a handles ih =>
      rw [List.pairwise_cons] at h
      cases i with
      | zero =>
          simp only [List.getElem?_cons_zero, Option.some.injEq] at hi
          subst hi
          have hrest : ∀ b ∈ handles, b.counter = 0 := fun b hb => (h.1 b hb).resolve_left hpos
          rw [List.set_cons_zero, List.pairwise_cons]
          refine ⟨fun other hother => ?_, fun b hb => .inr (hrest b hb), h.2⟩
          rcases List.mem_cons.mp hother with rfl | hother
          · exact .inl rfl
          · exact .inr (hrest other hother)
      | succ i =>
          rw [List.getElem?_cons_succ] at hi
          have ha : a.counter = 0 := (h.1 self (List.mem_of_getElem? hi)).resolve_right hpos
          obtain ⟨hall, hpair⟩ := ih h.2 hi
          rw [List.set_cons_succ, List.pairwise_cons]
          refine ⟨fun other hother => ?_, fun b hb => .inl ha, hpair⟩
          rcases List.mem_cons.mp hother with rfl | hother
          · exact .inr ha
          · exact hall other hother

private theorem append_range {drawn : List Drawn} {d : Drawn}
    (h : drawn.map Drawn.generation = List.range drawn.length)
    (hd : d.generation = drawn.length) :
    (drawn ++ [d]).map Drawn.generation = List.range (drawn ++ [d]).length := by
  rw [List.map_append, h, List.map_singleton, hd, List.length_append, List.length_singleton,
    List.range_succ]

/-- A call that neither draws nor raises a counter keeps the invariant. -/
private theorem OneDrawer.set {i : ℕ} {next : MLSGroup} (h : s.OneDrawer)
    (hi : s.handles[i]? = some self) (hcounter : next.counter = self.counter ∨ next.counter = 0) :
    OneDrawer ⟨s.handles.set i next, s.drawn⟩ := by
  refine ⟨h.generations, fun other hother => ?_, pairwise_set h.single hi fun hzero => ?_⟩
  · rcases List.mem_or_eq_of_mem_set hother with hmem | rfl
    · exact h.counters other hmem
    · rcases hcounter with heq | hzero
      · rw [heq]
        exact h.counters self (List.mem_of_getElem? hi)
      · exact .inl hzero
  · rcases hcounter with heq | heq
    · rw [heq, hzero]
    · exact heq

theorem OneDrawer.step (h : s.OneDrawer) (hcall : s.Continues C call) :
    (s.step C call).OneDrawer := by
  obtain ⟨i, call⟩ := call
  cases hi : s.handles[i]? with
  | none => simpa only [Sender.step, hi] using h
  | some self =>
      cases call with
      | transition t =>
          have hset := h.set hi (MLSGroup.left_counter t (C := C))
          have hcopies : ∀ copy ∈ copies C self t, copy.counter = 0 := by
            intro copy hcopy
            cases t with
            | reload =>
                simp only [copies, Option.mem_toList] at hcopy
                have hload : Transition.run C self .reload = .ok copy := by
                  cases hrun : Transition.run C self .reload with
                  | error e => simp [hrun, Except.toOption] at hcopy
                  | ok loaded => simpa [hrun, Except.toOption] using hcopy
                exact MLSGroup.counter_of_fresh (MLSGroup.reload_fresh hload)
            | _ => simp [copies] at hcopy
          simp only [Sender.step, hi]
          refine ⟨hset.generations, fun other hother => ?_, ?_⟩
          · rcases List.mem_append.mp hother with hother | hother
            · exact hset.counters other hother
            · exact .inl (hcopies other hother)
          · refine List.pairwise_append.mpr ⟨hset.single, ?_, fun a _ b hb => .inr (hcopies b hb)⟩
            exact List.pairwise_of_forall_mem_list fun a ha b _ => .inl (hcopies a ha)
      | message m =>
          simp only [Sender.step, hi]
          cases m with
          | decrypt payload =>
              simp only [MessageCall.run, MessageCall.draws, List.append_nil]
              exact h.set hi (.inl (MLSGroup.decrypt_counter payload))
          | encrypt plaintext =>
              rcases MLSGroup.encrypt_counter C self plaintext with
                ⟨hdraws, hcounter⟩ | ⟨secret, hdraws, hcounter⟩
              · rw [hdraws, List.append_nil]
                exact h.set hi (.inl hcounter)
              · rw [hdraws]
                by_cases hzero : self.counter = 0
                · have hnil : s.drawn = [] := hcall self _ hi rfl (by simp [hdraws]) hzero
                  have hall : ∀ other ∈ s.handles, other.counter = 0 := fun other hother =>
                    (h.counters other hother).elim id fun heq => by rw [heq, hnil]; rfl
                  refine ⟨append_range h.generations (by simp [hnil, hzero]),
                    fun other hother => ?_, ?_⟩
                  · rcases List.mem_or_eq_of_mem_set hother with hmem | rfl
                    · exact .inl (hall other hmem)
                    · right
                      simp only [MessageCall.run, hcounter, hzero, hnil, List.nil_append,
                        List.length_singleton]
                  · refine List.pairwise_iff_getElem.mpr fun j k hj hk hjk => ?_
                    rw [List.getElem_set, List.getElem_set]
                    by_cases hij : i = j
                    · right
                      rw [if_neg (by omega)]
                      exact hall _ (List.getElem_mem _)
                    · left
                      rw [if_neg hij]
                      exact hall _ (List.getElem_mem _)
                · have hcount : self.counter = s.drawn.length :=
                    (h.counters self (List.mem_of_getElem? hi)).resolve_left hzero
                  obtain ⟨hall, hpair⟩ := others_zero h.single hi hzero
                    ((MessageCall.encrypt plaintext).run C self).1
                  refine ⟨append_range h.generations hcount, fun other hother => ?_, hpair⟩
                  rcases hall other hother with rfl | hother
                  · right
                    simp only [MessageCall.run, hcounter, hcount, List.length_append,
                      List.length_singleton]
                  · exact .inl hother

end Sender

/-! ## Content keys -/

namespace Drawn

variable {C : Crypto} {d d' : Drawn}

end Drawn

namespace Sender

variable {C : Crypto} {self : MLSGroup}

end Sender

/-- The handle with which a member enters an epoch. -/
inductive Enters (C : Crypto) : MLSGroup → Prop where
  | create {groupId sigKey kemKey initKey self} :
      MLSGroup.create C groupId sigKey kemKey initKey = .ok self → Enters C self
  | join {welcome sigKey kemKey pskList ratchetTree self} :
      MLSGroup.join C welcome sigKey kemKey pskList ratchetTree = .ok self → Enters C self
  | next {self next transition} : Reachable C self → transition ≠ .reload →
      Transition.run C self transition = .ok next → Enters C next

theorem MLSGroup.create_fresh {C : Crypto} {groupId : Bytes} {sigKey : SignatureKey}
    {kemKey initKey : KemKey} {self : MLSGroup}
    (h : MLSGroup.create C groupId sigKey kemKey initKey = .ok self) : self.secretTree = none := by
  simp only [MLSGroup.create, Py.bind_eq_ok, Py.pure_eq, Except.ok.injEq] at h
  obtain ⟨_, -, _, -, _, -, _, -, _, -, rfl⟩ := h
  rfl

theorem MLSGroup.join_fresh {C : Crypto} {welcome : Welcome} {sigKey : SignatureKey}
    {kemKey : KemKey} {pskList : List (PreSharedKeyID × Bytes)} {ratchetTree : Option RatchetTree}
    {self : MLSGroup} (h : MLSGroup.join C welcome sigKey kemKey pskList ratchetTree = .ok self) :
    self.secretTree = none := by
  simp only [MLSGroup.join, Py.bind_eq_ok] at h
  obtain ⟨_, -, _, -, _, -, _, -, _, -, _, -, _, -, _, -, h⟩ := h
  split at h
  · cases h
  · simp only [Py.bind_eq_ok, Py.pure_eq, Except.ok.injEq] at h
    obtain ⟨_, -, _, -, _, -, _, -, rfl⟩ := h
    rfl

/-- Every transition that makes a handle makes one without a secret tree. -/
theorem Transition.run_fresh {C : Crypto} {self next : MLSGroup} {transition : Transition}
    (h : transition.run C self = .ok next) : next.secretTree = none := by
  cases transition with
  | addMember coins kp =>
      obtain ⟨⟨next, _, _⟩, hadd, rfl⟩ := Py.map_eq_ok.mp h
      obtain ⟨_, -, -, hbody⟩ := MLSGroup.addMember_eq_ok.mp hadd
      obtain ⟨_, _, -, -, -, -, rfl, -⟩ := MLSGroup.addMemberBody_eq_ok.mp hbody
      rfl
  | removeMember coins target =>
      obtain ⟨⟨next, _⟩, hremove, rfl⟩ := Py.map_eq_ok.mp h
      obtain ⟨_, _, -, -, -, -, rfl, -⟩ :=
        MLSGroup.removeMemberBody_eq_ok.mp (MLSGroup.removeMember_eq_ok.mp hremove)
      rfl
  | updateKey coins =>
      obtain ⟨⟨next, _⟩, hupdate, rfl⟩ := Py.map_eq_ok.mp h
      obtain ⟨_, _, -, -, rfl, -⟩ :=
        MLSGroup.updateKeyBody_eq_ok.mp (MLSGroup.updateKey_eq_ok.mp hupdate)
      rfl
  | processUpdate update =>
      have hbody := MLSGroup.processUpdate_eq_ok.mp h
      simp only [MLSGroup.processUpdateBody, Py.bind_eq_ok, Py.pure_eq, Except.ok.injEq] at hbody
      obtain ⟨_, -, _, -, _, -, _, -, _, -, _, -, _, -, _, -, _, -, _, -, _, -, _, -, _, -,
        rfl⟩ := hbody
      rfl
  | reload => exact MLSGroup.reload_fresh h

theorem Enters.fresh {C : Crypto} {self : MLSGroup} (h : Enters C self) :
    self.secretTree = none := by
  cases h with
  | create h => exact MLSGroup.create_fresh h
  | join h => exact MLSGroup.join_fresh h
  | next _ _ h => exact Transition.run_fresh h

namespace Sample

/-- Send, commit, and send again on the old handle. -/
def sendCommitSend : List (ℕ × EpochCall) :=
  [(0, .message (.encrypt (ascii "hi"))), (0, .transition (.updateKey (coins 120))),
    (0, .message (.encrypt (ascii "ho")))]

def reuse : Py MLSGroup := do
  let alice ← MLSGroup.create crypto (ascii "g") (sig 1) (kem 1) (kem 2)
  Py.require ((Sender.run crypto alice sendCommitSend).drawn.map Drawn.generation = [0, 0])
    .assertionError
  pure alice

theorem reuse_ok : ∃ alice, reuse = .ok alice := Py.ok_of_isOk (by decide +kernel)

end Sample

end PureMls
