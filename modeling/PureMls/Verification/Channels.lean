import Mathlib.Logic.Function.Basic
import PureMls.Verification.Generations

/-! # Messages delivered in order

Members that share an epoch, the messages they have sent and how far each of them has read
what the others sent. -/

namespace PureMls

/-! ## A ratchet seen from its first generation -/

namespace SecretTree

variable {C : Crypto} {base st : SecretTree} {leaf gen tip : ℕ}

theorem ratchetForward_add (C : Crypto) (a b g : ℕ) (secret : Bytes) :
    ratchetForward C (a + b) g secret =
      ratchetForward C a g secret >>= ratchetForward C b (g + a) := by
  induction a generalizing g secret with
  | zero => rw [Nat.zero_add, ratchetForward, Nat.add_zero]; rfl
  | succ a ih =>
      have hgen : g + (a + 1) = g + 1 + a := by omega
      rw [Nat.succ_add, ratchetForward, ratchetForward, hgen]
      cases structPack 4 g with
      | error e => rfl
      | ok context =>
          rw [Py.ok_bind, Py.ok_bind]
          cases expandWithLabel C secret "secret" context 32 with
          | error e => rfl
          | ok next => exact ih (g + 1) next

/-- The ratchet of a leaf in a tree that has drawn nothing, moved to `gen`. -/
def ratchetAt (C : Crypto) (base : SecretTree) (leaf gen : ℕ) : Py (ℕ × Bytes) := do
  let start ← base.ratchetStart C leaf .application
  let secret ← ratchetForward C gen 0 start.2
  pure (gen, secret)

/-- The content key and nonce that every member of the epoch derives for a generation. -/
def keysAt (C : Crypto) (base : SecretTree) (leaf gen : ℕ) : Py (Bytes × Bytes) := do
  let reached ← base.ratchetAt C leaf gen
  keyAndNonce C reached.2 gen

/-- The tip of a leaf's ratchet stands where `tip` steps from generation 0 lead. -/
def AtTip (C : Crypto) (base st : SecretTree) (leaf tip : ℕ) : Prop :=
  st.ratchetStart C leaf .application = base.ratchetAt C leaf tip

theorem ratchetAt_ahead (C : Crypto) (base : SecretTree) (leaf : ℕ) (hle : tip ≤ gen) :
    base.ratchetAt C leaf gen = base.ratchetAt C leaf tip >>= fun reached =>
      Prod.mk gen <$> ratchetForward C (gen - tip) tip reached.2 := by
  have hsplit : gen = tip + (gen - tip) := by omega
  unfold ratchetAt
  cases base.ratchetStart C leaf .application with
  | error e => rfl
  | ok start =>
      have hforward := ratchetForward_add C tip (gen - tip) 0 start.2
      rw [← hsplit, Nat.zero_add] at hforward
      rw [Py.ok_bind, Py.ok_bind, hforward]
      cases ratchetForward C tip 0 start.2 with
      | error e => rfl
      | ok reached => rfl

/-- What asking for a generation at or beyond the tip gives, and what it does to the tips. -/
theorem AtTip.getRatchetSecret (h : AtTip C base st leaf tip) (hle : tip ≤ gen) :
    (∃ e, base.ratchetAt C leaf gen = .error e ∧
      st.getRatchetSecret C leaf gen .application = .error e) ∨
    ∃ next moved, base.ratchetAt C leaf gen = .ok (gen, next) ∧
      st.getRatchetSecret C leaf gen .application = .ok (next, moved) ∧
      AtTip C base moved leaf gen ∧
      ∀ other ≠ leaf, moved.ratchetStart C other .application =
        st.ratchetStart C other .application := by
  have hahead := ratchetAt_ahead C base leaf hle
  unfold AtTip at h
  rw [← h] at hahead
  cases hstart : st.ratchetStart C leaf .application with
  | error e =>
      rw [hstart, Py.error_bind] at hahead
      exact .inl ⟨e, hahead, getRatchetSecret_error hstart⟩
  | ok start =>
      have htip : start.1 = tip := by
        rw [hstart, eq_comm] at h
        simp only [ratchetAt, Py.bind_eq_ok, Py.pure_eq, Except.ok.injEq] at h
        obtain ⟨_, -, _, -, rfl⟩ := h
        rfl
      have hstart' : st.ratchetStart C leaf .application = .ok (tip, start.2) := by
        rw [hstart, ← htip]
      obtain ⟨hfst, hmoved⟩ := getRatchetSecret_ahead hstart' hle
      rw [hstart, Py.ok_bind] at hahead
      cases hforward : ratchetForward C (gen - tip) tip start.2 with
      | error e =>
          rw [hforward] at hfst hahead
          cases hr : st.getRatchetSecret C leaf gen .application with
          | ok moved => simp [hr] at hfst
          | error e' =>
              rw [hr] at hfst
              cases hfst
              exact .inl ⟨e, hahead, rfl⟩
      | ok next =>
          rw [hforward] at hfst hahead
          rw [Py.map_ok] at hahead
          obtain ⟨⟨next', moved⟩, hr, rfl⟩ := Py.map_eq_ok.mp hfst
          have halike := hmoved next' moved hr
          refine .inr ⟨next', moved, hahead, hr, ?_, fun other hother => ?_⟩
          · rw [AtTip, halike.start, ratchetStart_withTip, if_pos rfl, hahead]
          · have hne : (other, SecretType.application) ≠ (leaf, .application) := by simp [hother]
            rw [halike.start, ratchetStart_withTip, if_neg hne]

theorem atTip_new (C : Crypto) (encryptionSecret : Bytes) (nLeaves leaf : ℕ) :
    AtTip C (new encryptionSecret nLeaves) (new encryptionSecret nLeaves) leaf 0 := by
  rw [AtTip, ratchetAt]
  cases hstart : (new encryptionSecret nLeaves).ratchetStart C leaf .application with
  | error e => rfl
  | ok start =>
      have hzero : start.1 = 0 := tip_of_fresh rfl hstart
      rw [Py.ok_bind, ratchetForward, ← hzero]
      rfl

/-- The keys drawn are those every member derives; the tip does not pass the generation. -/
theorem AtTip.getKeyAndNonceForGen (h : AtTip C base st leaf tip) (hle : tip ≤ gen) :
    (st.getKeyAndNonceForGen C leaf gen .application).2 = base.keysAt C leaf gen ∧
    (∃ tip' ≤ gen, AtTip C base (st.getKeyAndNonceForGen C leaf gen .application).1 leaf tip') ∧
    ∀ other ≠ leaf,
      (st.getKeyAndNonceForGen C leaf gen .application).1.ratchetStart C other .application =
        st.ratchetStart C other .application := by
  unfold SecretTree.getKeyAndNonceForGen keysAt
  rcases h.getRatchetSecret hle with ⟨e, hreached, hr⟩ | ⟨next, moved, hreached, hr, htip, hother⟩
  · rw [hr, hreached]
    exact ⟨rfl, ⟨tip, hle, h⟩, fun _ _ => rfl⟩
  · rw [hr, hreached]
    exact ⟨rfl, ⟨gen, le_rfl, htip⟩, hother⟩

end SecretTree

/-! ## Frames -/

namespace MLSGroup

variable {C : Crypto} {self other : MLSGroup}

/-- The handles agree on everything of the epoch that a message depends on. -/
structure SameEpoch (a b : MLSGroup) : Prop where
  groupId : a.state.groupId = b.state.groupId
  epochId : a.state.epochId = b.state.epochId
  senderDataSecret : a.state.keySchedule.senderDataSecret = b.state.keySchedule.senderDataSecret
  encryptionSecret : a.state.keySchedule.encryptionSecret = b.state.keySchedule.encryptionSecret
  numLeaves : a.state.tree.numLeaves = b.state.tree.numLeaves
  size : a.state.tree.nodes.length = b.state.tree.nodes.length

/-- The frame of a message opens, at every member of the epoch, to the leaf and generation it
was sealed for. -/
theorem openHeader_frame (hinv : ∀ key nonce data ad ct,
      C.aesGcmEncrypt key nonce data ad = .ok ct → C.aesGcmDecrypt key nonce ct ad = .ok data)
    (hsame : SameEpoch self other) (hindex : self.myIndex < self.state.tree.numLeaves)
    {plaintext key nonce payload : Bytes} {gen : ℕ}
    (h : frameMessage C self plaintext key nonce gen = .ok payload) :
    ∃ contentCt ad, C.aesGcmEncrypt key nonce plaintext ad = .ok contentCt ∧
      openHeader C other payload = .ok (self.myIndex, gen, contentCt, ad) := by
  simp only [frameMessage, Py.bind_eq_ok, Py.pure_eq, Except.ok.injEq, structPack_eq_ok,
    toBytesBig_eq_ok] at h
  obtain ⟨ad, had, contentCt, hcontent, ⟨sdKey, sdNonce⟩, hkeys, _, ⟨hsender, rfl⟩, sdCt, hsd, _,
    ⟨hlen, rfl⟩, _, ⟨hgen, rfl⟩, rfl⟩ := h
  have had' : other.messageAd = .ok ad := by
    rw [← had, messageAd, messageAd, hsame.groupId, hsame.epochId]
  have hkeys' : senderDataKeys C other contentCt = .ok (sdKey, sdNonce) := by
    rw [← hkeys, senderDataKeys, senderDataKeys, hsame.senderDataSecret]
  simp only [List.append_assoc]
  generalize hp : beBytes 2 sdCt.length ++ (sdCt ++ (beBytes 4 gen ++ contentCt)) = payload
  have hsize : 2 ≤ payload.length := by
    rw [← hp, List.length_append, length_beBytes]
    omega
  have h0 : beNat (slice payload 0 2) = sdCt.length := by
    rw [← hp, slice_append_left _ _ (length_beBytes _ _), beNat_beBytes hlen]
  have h1 : slice payload 2 (2 + sdCt.length) = sdCt := by
    rw [← hp, slice_mid (length_beBytes _ _) rfl]
  have hfront : (beBytes 2 sdCt.length ++ sdCt).length = 2 + sdCt.length := by
    rw [List.length_append, length_beBytes]
  have h2 : slice payload (2 + sdCt.length) (2 + sdCt.length + 4) = beBytes 4 gen := by
    rw [← hp, ← List.append_assoc]
    exact slice_mid hfront (by rw [length_beBytes])
  have h3 : payload.drop (2 + sdCt.length + 4) = contentCt := by
    rw [← hp, ← List.append_assoc, ← List.append_assoc]
    exact List.drop_left' (by rw [List.length_append, hfront, length_beBytes])
  refine ⟨contentCt, ad, hcontent, ?_⟩
  simp only [openHeader, Py.bind_eq_ok, Py.pure_eq, Py.require_eq_ok, Except.ok.injEq,
    Prod.mk.injEq, h0, h1, h2, h3, length_beBytes, beNat_beBytes hgen]
  refine ⟨(), hsize, ad, had', (), trivial, (sdKey, sdNonce), hkeys', beBytes 4 self.myIndex, ?_,
    (), length_beBytes _ _, (), ?_, beNat_beBytes hsender, trivial, trivial, rfl⟩
  · rw [hinv _ _ _ _ _ hsd]
    rfl
  · rw [beNat_beBytes hsender, ← hsame.numLeaves]
    exact hindex

/-- The secret tree of the epoch before anything is drawn from it. -/
def epochTree (self : MLSGroup) : SecretTree :=
  SecretTree.new self.state.keySchedule.encryptionSecret ((self.state.tree.nodes.length + 1) / 2)

theorem SameEpoch.epochTree (h : SameEpoch self other) : self.epochTree = other.epochTree := by
  rw [MLSGroup.epochTree, MLSGroup.epochTree, h.encryptionSecret, h.size]

/-- An encryption moves only the tip of the own leaf, and not past the counter it leaves. -/
theorem encrypt_tips {base : SecretTree} {tip : ℕ}
    (h : SecretTree.AtTip C base self.getSecretTree self.myIndex tip) (hle : tip ≤ self.counter)
    (plaintext : Bytes) :
    let call := self.encryptApplicationMessage C plaintext
    (∃ tip' ≤ call.1.counter, SecretTree.AtTip C base call.1.getSecretTree self.myIndex tip') ∧
    (∀ leaf ≠ self.myIndex, call.1.getSecretTree.ratchetStart C leaf .application =
      self.getSecretTree.ratchetStart C leaf .application) ∧
    self.counter ≤ call.1.counter ∧
    ∀ payload, call.2 = .ok payload → self.counter < call.1.counter ∧ ∃ key nonce,
      base.keysAt C self.myIndex self.counter = .ok (key, nonce) ∧
      frameMessage C self plaintext key nonce self.counter = .ok payload := by
  obtain ⟨hkeys, ⟨tip', htip', hat⟩, hother⟩ := h.getKeyAndNonceForGen hle
  have hgen := getKeyAndNonceForGen_generations (C := C) self.getSecretTree self.myIndex
    self.counter .application
  rcases hdrawn : self.getSecretTree.getKeyAndNonceForGen C self.myIndex self.counter .application
    with ⟨st, e | ⟨key, nonce⟩⟩
  · rw [hdrawn] at hkeys hat hother hgen
    have hcall : self.encryptApplicationMessage C plaintext =
        ({ self with secretTree := some st }, .error e) := by
      simp only [encryptApplicationMessage, SecretTree.getKeyAndNonce]
      rw [counter] at hdrawn
      rw [hdrawn]
    have hcounter : ({ self with secretTree := some st } : MLSGroup).counter = self.counter := by
      rw [counter_withTree, hgen, counter]
    rw [hcall]
    refine ⟨⟨tip', ?_, hat⟩, hother, ?_, fun payload hpayload => ?_⟩
    · rw [hcounter]
      exact htip'
    · exact hcounter.ge
    · cases hpayload
  · rw [hdrawn] at hkeys hat hother hgen
    have hcall : self.encryptApplicationMessage C plaintext =
        ({ self with secretTree := some { st with
          generations := st.generations.set self.myIndex (self.counter + 1) } },
          frameMessage C self plaintext key nonce self.counter) := by
      simp only [encryptApplicationMessage, SecretTree.getKeyAndNonce]
      rw [counter] at hdrawn
      rw [hdrawn]
      rfl
    have hcounter : ({ self with secretTree := some { st with
        generations := st.generations.set self.myIndex (self.counter + 1) } } : MLSGroup).counter =
        self.counter + 1 := by
      rw [counter_withTree, Dict.get?_set_self]
      rfl
    rw [hcall]
    refine ⟨⟨tip', ?_, hat⟩, hother, ?_,
      fun payload hpayload => ⟨?_, key, nonce, hkeys.symm, hpayload⟩⟩
    · rw [hcounter]
      omega
    · rw [hcounter]
      omega
    · rw [hcounter]
      omega

/-- A message sealed under the keys of its generation is decrypted wherever the sender's ratchet
has not passed that generation. -/
theorem decrypt_sealed (hinv : ∀ key nonce data ad ct,
      C.aesGcmEncrypt key nonce data ad = .ok ct → C.aesGcmDecrypt key nonce ct ad = .ok data)
    (hsame : SameEpoch self other) (hindex : self.myIndex < self.state.tree.numLeaves)
    {plaintext key nonce payload : Bytes} {gen tip : ℕ}
    (hkeys : self.epochTree.keysAt C self.myIndex gen = .ok (key, nonce))
    (hframe : frameMessage C self plaintext key nonce gen = .ok payload)
    (htip : SecretTree.AtTip C self.epochTree other.getSecretTree self.myIndex tip)
    (hle : tip ≤ gen) :
    let call := other.decryptApplicationMessage C payload
    call.2 = .ok plaintext ∧
    (∃ tip' ≤ gen, SecretTree.AtTip C self.epochTree call.1.getSecretTree self.myIndex tip') ∧
    ∀ leaf ≠ self.myIndex, call.1.getSecretTree.ratchetStart C leaf .application =
      other.getSecretTree.ratchetStart C leaf .application := by
  obtain ⟨contentCt, ad, hcontent, hheader⟩ := openHeader_frame hinv hsame hindex hframe
  obtain ⟨hdrawn, hmoved, hother⟩ := htip.getKeyAndNonceForGen hle
  rw [hkeys] at hdrawn
  rw [decrypt_of_header hheader]
  rcases hcall : other.getSecretTree.getKeyAndNonceForGen C self.myIndex gen .application with
    ⟨st, keys⟩
  rw [hcall] at hdrawn hmoved hother
  simp only at hdrawn
  subst hdrawn
  refine ⟨?_, hmoved, hother⟩
  change (C.aesGcmDecrypt key nonce contentCt ad).rethrow contentFault = .ok plaintext
  rw [hinv _ _ _ _ _ hcontent]
  rfl

end MLSGroup

/-! ## The members of an epoch -/

/-- A message, with what its sender's counter showed when it was encrypted. -/
structure Sent where
  generation : ℕ
  plaintext : Bytes
  payload : Bytes

/-- The handles of an epoch's members, what each of them has sent, and how many of a sender's
messages a receiver has read or lost. -/
structure Network (ι : Type) where
  handles : ι → MLSGroup
  sent : ι → List Sent
  read : ι → ι → ℕ

namespace Network

variable {ι : Type} [DecidableEq ι]

/-- Nothing has been sent yet. -/
def start (members : ι → MLSGroup) : Network ι := ⟨members, fun _ => [], fun _ _ => 0⟩

/-- Member `i` encrypts; what the call returns is sent. -/
def encrypt (C : Crypto) (n : Network ι) (i : ι) (plaintext : Bytes) : Network ι :=
  let call := (n.handles i).encryptApplicationMessage C plaintext
  { n with
    handles := Function.update n.handles i call.1
    sent := Function.update n.sent i (n.sent i ++
      call.2.toOption.toList.map (⟨(n.handles i).counter, plaintext, ·⟩)) }

/-- The receiver decrypts the sender's message at position `k`; those before it are read or lost. -/
def deliver (C : Crypto) (n : Network ι) (receiver sender : ι) (k : ℕ) (message : Sent) :
    Network ι :=
  { n with
    handles := Function.update n.handles receiver
      ((n.handles receiver).decryptApplicationMessage C message.payload).1
    read := Function.update n.read receiver (Function.update (n.read receiver) sender (k + 1)) }

/-- The receiver may be given this message next: it has read none that the sender sent later. -/
structure Deliverable (n : Network ι) (receiver sender : ι) (k : ℕ) (message : Sent) : Prop where
  other : receiver ≠ sender
  inOrder : n.read receiver sender ≤ k
  sent : (n.sent sender)[k]? = some message

inductive Step (C : Crypto) (n : Network ι) : Network ι → Prop where
  | encrypt (i : ι) (plaintext : Bytes) : Step C n (n.encrypt C i plaintext)
  | deliver {receiver sender k message} : n.Deliverable receiver sender k message →
      Step C n (n.deliver C receiver sender k message)

/-- Members of one epoch at its beginning, each at a leaf of its own. -/
structure Epoch (members : ι → MLSGroup) : Prop where
  same : ∀ i j, MLSGroup.SameEpoch (members i) (members j)
  fresh : ∀ i, (members i).secretTree = none
  distinct : Function.Injective fun i => (members i).myIndex
  inTree : ∀ i, (members i).myIndex < (members i).state.tree.numLeaves

/-- No ratchet has passed a message that may still be delivered: a sender's own tip stays at its
counter or before, and a receiver's tip for the sender before the next of its messages. -/
structure InOrder (C : Crypto) (members : ι → MLSGroup) (n : Network ι) : Prop where
  handle : ∀ i, n.handles i = { members i with secretTree := (n.handles i).secretTree }
  own : ∀ i, ∃ tip ≤ (n.handles i).counter, SecretTree.AtTip C (members i).epochTree
    (n.handles i).getSecretTree (members i).myIndex tip
  keyed : ∀ i, ∀ m ∈ n.sent i, m.generation < (n.handles i).counter ∧ ∃ key nonce,
    (members i).epochTree.keysAt C (members i).myIndex m.generation = .ok (key, nonce) ∧
    MLSGroup.frameMessage C (members i) m.plaintext key nonce m.generation = .ok m.payload
  increasing : ∀ i, (n.sent i).Pairwise fun a b => a.generation < b.generation
  behind : ∀ receiver sender, receiver ≠ sender → ∃ tip ≤ (n.handles sender).counter,
    SecretTree.AtTip C (members sender).epochTree (n.handles receiver).getSecretTree
      (members sender).myIndex tip ∧
    ∀ k m, n.read receiver sender ≤ k → (n.sent sender)[k]? = some m → tip ≤ m.generation

variable {C : Crypto} {members : ι → MLSGroup} {n : Network ι}

omit [DecidableEq ι] in
theorem InOrder.myIndex (h : InOrder C members n) (i : ι) :
    (n.handles i).myIndex = (members i).myIndex := by
  rw [h.handle i]

omit [DecidableEq ι] in
theorem InOrder.frameMessage (h : InOrder C members n) (i : ι) (plaintext key nonce : Bytes)
    (gen : ℕ) : MLSGroup.frameMessage C (n.handles i) plaintext key nonce gen =
      MLSGroup.frameMessage C (members i) plaintext key nonce gen := by
  rw [h.handle i]
  rfl

omit [DecidableEq ι] in
theorem InOrder.start (hmembers : Epoch members) : InOrder C members (start members) where
  handle _ := rfl
  own i := by
    refine ⟨0, Nat.zero_le _, ?_⟩
    simp only [Network.start, MLSGroup.getSecretTree, hmembers.fresh i]
    exact SecretTree.atTip_new C _ _ _
  keyed i m hm := by cases hm
  increasing i := List.Pairwise.nil
  behind receiver sender _ := by
    refine ⟨0, Nat.zero_le _, ?_, fun _ _ _ hm => by cases hm⟩
    simp only [Network.start, MLSGroup.getSecretTree, hmembers.fresh receiver]
    rw [(hmembers.same sender receiver).epochTree]
    exact SecretTree.atTip_new C _ _ _

/-! ### Encryption -/

/-- What an encryption by `i` adds to the messages that `j` has sent. -/
theorem sent_encrypt (C : Crypto) (n : Network ι) (i j : ι) (plaintext : Bytes) :
    (n.encrypt C i plaintext).sent j = n.sent j ∨
    j = i ∧ ∃ payload, ((n.handles i).encryptApplicationMessage C plaintext).2 = .ok payload ∧
      (n.encrypt C i plaintext).sent j = n.sent j ++
        [⟨(n.handles i).counter, plaintext, payload⟩] := by
  by_cases hj : j = i
  · subst hj
    simp only [encrypt, Function.update_self]
    cases ((n.handles j).encryptApplicationMessage C plaintext).2 with
    | error e => exact .inl (List.append_nil _)
    | ok payload => exact .inr ⟨trivial, payload, rfl, rfl⟩
  · exact .inl (Function.update_of_ne hj _ _)

theorem handles_encrypt (C : Crypto) (n : Network ι) (i j : ι) (plaintext : Bytes) :
    (n.encrypt C i plaintext).handles j =
      if j = i then ((n.handles i).encryptApplicationMessage C plaintext).1 else n.handles j :=
  Function.update_apply _ _ _ _

/-- An encryption keeps the order: the new message has the counter's generation, which no other
member's tip has passed. -/
theorem InOrder.encrypt (hmembers : Epoch members) (h : InOrder C members n) (i : ι)
    (plaintext : Bytes) : InOrder C members (n.encrypt C i plaintext) := by
  obtain ⟨tip, htip, hat⟩ := h.own i
  rw [← h.myIndex i] at hat
  obtain ⟨hown, hothers, hgrows, hsent⟩ := MLSGroup.encrypt_tips hat htip plaintext
  rw [h.myIndex i] at hown hothers hsent
  have hcounter : ∀ j, (n.handles j).counter ≤ ((n.encrypt C i plaintext).handles j).counter := by
    intro j
    rw [handles_encrypt]
    split_ifs with hj
    · rw [hj]
      exact hgrows
    · exact le_rfl
  have hstart : ∀ j leaf, j ≠ i ∨ leaf ≠ (members i).myIndex →
      ((n.encrypt C i plaintext).handles j).getSecretTree.ratchetStart C leaf .application =
        (n.handles j).getSecretTree.ratchetStart C leaf .application := by
    intro j leaf hleaf
    rw [handles_encrypt]
    split_ifs with hj
    · rw [hj, hothers leaf (hleaf.resolve_left (not_not.mpr hj))]
    · rfl
  refine ⟨fun j => ?_, fun j => ?_, fun j m hm => ?_, fun j => ?_, fun receiver sender hne => ?_⟩
  · rw [handles_encrypt]
    split_ifs with hj
    · rw [hj, MLSGroup.encrypt_left, h.handle i]
    · exact h.handle j
  · by_cases hj : j = i
    · subst hj
      rw [handles_encrypt, if_pos rfl]
      exact hown
    · obtain ⟨tip', htip', hat'⟩ := h.own j
      exact ⟨tip', htip'.trans (hcounter j), (hstart j _ (.inl hj)).trans hat'⟩
  · have hkept : ∀ m ∈ n.sent j, m.generation < ((n.encrypt C i plaintext).handles j).counter ∧ _ :=
      fun m hm => ⟨(h.keyed j m hm).1.trans_le (hcounter j), (h.keyed j m hm).2⟩
    rcases sent_encrypt C n i j plaintext with hsame | ⟨rfl, payload, hpayload, hnew⟩
    · rw [hsame] at hm
      exact hkept m hm
    · rw [hnew] at hm
      rcases List.mem_append.mp hm with hm | hm
      · exact hkept m hm
      · obtain ⟨hlt, key, nonce, hkeys, hframe⟩ := hsent payload hpayload
        obtain rfl := List.mem_singleton.mp hm
        rw [handles_encrypt, if_pos rfl]
        rw [h.frameMessage j] at hframe
        exact ⟨hlt, key, nonce, hkeys, hframe⟩
  · rcases sent_encrypt C n i j plaintext with hsame | ⟨rfl, payload, -, hnew⟩
    · rw [hsame]
      exact h.increasing j
    · rw [hnew, List.pairwise_append]
      refine ⟨h.increasing j, List.pairwise_singleton _ _, fun a ha b hb => ?_⟩
      obtain rfl := List.mem_singleton.mp hb
      exact (h.keyed j a ha).1
  · obtain ⟨tip', htip', hat', hnext⟩ := h.behind receiver sender hne
    have hmoved : receiver ≠ i ∨ (members sender).myIndex ≠ (members i).myIndex := by
      by_cases hi : receiver = i
      · exact .inr fun heq => hne (hi.trans (hmembers.distinct heq).symm)
      · exact .inl hi
    refine ⟨tip', htip'.trans (hcounter sender), (hstart receiver _ hmoved).trans hat',
      fun k m hk hm => ?_⟩
    rcases sent_encrypt C n i sender plaintext with hsame | ⟨rfl, payload, -, hnew⟩
    · rw [hsame] at hm
      exact hnext k m hk hm
    · rw [hnew, List.getElem?_append] at hm
      split_ifs at hm with hlt
      · exact hnext k m hk hm
      · obtain rfl := List.mem_singleton.mp (List.mem_of_getElem? hm)
        exact htip'

/-! ### Delivery -/

theorem handles_deliver (C : Crypto) (n : Network ι) (receiver sender j : ι) (k : ℕ)
    (message : Sent) : (n.deliver C receiver sender k message).handles j = if j = receiver then
      ((n.handles receiver).decryptApplicationMessage C message.payload).1 else n.handles j :=
  Function.update_apply _ _ _ _

theorem read_deliver (C : Crypto) (n : Network ι) (receiver sender j j' : ι) (k : ℕ)
    (message : Sent) : (n.deliver C receiver sender k message).read j j' =
      if j = receiver ∧ j' = sender then k + 1 else n.read j j' := by
  simp only [deliver, Function.update_apply]
  by_cases hj : j = receiver
  · subst hj
    by_cases hj' : j' = sender <;> simp [hj']
  · simp [hj]

/-- A message that may be delivered decrypts to its plaintext, and its delivery keeps the order. -/
theorem InOrder.deliver (hinv : ∀ key nonce data ad ct,
      C.aesGcmEncrypt key nonce data ad = .ok ct → C.aesGcmDecrypt key nonce ct ad = .ok data)
    (hmembers : Epoch members) (h : InOrder C members n) {receiver sender : ι} {k : ℕ}
    {message : Sent}
    (hd : n.Deliverable receiver sender k message) :
    ((n.handles receiver).decryptApplicationMessage C message.payload).2 = .ok message.plaintext ∧
      InOrder C members (n.deliver C receiver sender k message) := by
  obtain ⟨tip, -, hat, hnext⟩ := h.behind receiver sender hd.other
  obtain ⟨-, key, nonce, hkeys, hframe⟩ := h.keyed sender message (List.mem_of_getElem? hd.sent)
  have hsame : MLSGroup.SameEpoch (members sender) (n.handles receiver) := by
    rw [h.handle receiver]
    have hshared := hmembers.same sender receiver
    exact ⟨hshared.1, hshared.2, hshared.3, hshared.4, hshared.5, hshared.6⟩
  obtain ⟨hplain, ⟨tip', htip', hat'⟩, hothers⟩ := MLSGroup.decrypt_sealed hinv hsame
    (hmembers.inTree sender) hkeys hframe hat (hnext k message hd.inOrder hd.sent)
  have hcounter : ∀ j, ((n.deliver C receiver sender k message).handles j).counter =
      (n.handles j).counter := by
    intro j
    rw [handles_deliver]
    split_ifs with hj
    · rw [hj, MLSGroup.decrypt_counter]
    · rfl
  have hstart : ∀ j leaf, j ≠ receiver ∨ leaf ≠ (members sender).myIndex →
      ((n.deliver C receiver sender k message).handles j).getSecretTree.ratchetStart C
        leaf .application = (n.handles j).getSecretTree.ratchetStart C leaf .application := by
    intro j leaf hleaf
    rw [handles_deliver]
    split_ifs with hj
    · rw [hj, hothers leaf (hleaf.resolve_left (not_not.mpr hj))]
    · rfl
  refine ⟨hplain, fun j => ?_, fun j => ?_, fun j m hm => ?_, h.increasing, fun r s hne => ?_⟩
  · rw [handles_deliver]
    split_ifs with hj
    · rw [hj, MLSGroup.decrypt_left, h.handle receiver]
    · exact h.handle j
  · obtain ⟨tip'', htip'', hat''⟩ := h.own j
    refine ⟨tip'', (hcounter j).symm ▸ htip'', (hstart j _ ?_).trans hat''⟩
    by_cases hj : j = receiver
    · exact .inr fun heq => hd.other (hj.symm.trans (hmembers.distinct heq))
    · exact .inl hj
  · obtain ⟨hlt, hsealed⟩ := h.keyed j m hm
    exact ⟨(hcounter j).symm ▸ hlt, hsealed⟩
  · by_cases heq : r = receiver ∧ s = sender
    · obtain ⟨rfl, rfl⟩ := heq
      have hlt := (h.keyed s message (List.mem_of_getElem? hd.sent)).1
      refine ⟨tip', (hcounter s).symm ▸ htip'.trans hlt.le, ?_, fun k' m hk' hm => ?_⟩
      · rw [handles_deliver, if_pos rfl]
        exact hat'
      · rw [read_deliver, if_pos ⟨rfl, rfl⟩] at hk'
        have hpair := List.pairwise_iff_getElem.mp (h.increasing s)
        obtain ⟨hk, hget⟩ := List.getElem?_eq_some_iff.mp hd.sent
        obtain ⟨hkm, hgetm⟩ : ∃ hkm : k' < (n.sent s).length, (n.sent s)[k'] = m :=
          List.getElem?_eq_some_iff.mp hm
        have hlater := hpair k k' hk hkm (by omega)
        rw [hget, hgetm] at hlater
        omega
    · obtain ⟨tip'', htip'', hat'', hnext''⟩ := h.behind r s hne
      refine ⟨tip'', (hcounter s).symm ▸ htip'', (hstart r _ ?_).trans hat'', fun k' m hk' hm => ?_⟩
      · by_cases hr : r = receiver
        · exact .inr fun hs => heq ⟨hr, hmembers.distinct hs⟩
        · exact .inl hr
      · rw [read_deliver, if_neg heq] at hk'
        exact hnext'' k' m hk' hm

theorem InOrder.reached (hinv : ∀ key nonce data ad ct,
      C.aesGcmEncrypt key nonce data ad = .ok ct → C.aesGcmDecrypt key nonce ct ad = .ok data)
    (hmembers : Epoch members) (hrun : Relation.ReflTransGen (Step C) (Network.start members) n) :
    InOrder C members n := by
  induction hrun with
  | refl => exact .start hmembers
  | tail _ hstep ih =>
      cases hstep with
      | encrypt i plaintext => exact ih.encrypt hmembers i plaintext
      | deliver hd => exact (ih.deliver hinv hmembers hd).2

end Network

/-- However the members of an epoch interleave their encryptions with the deliveries, a message
delivered to another member in its sender's order decrypts to its plaintext, whatever was lost. -/
theorem in_order_delivery {C : Crypto}
    (hinv : ∀ key nonce data ad ct, C.aesGcmEncrypt key nonce data ad = .ok ct →
      C.aesGcmDecrypt key nonce ct ad = .ok data)
    {ι : Type} [DecidableEq ι] {members : ι → MLSGroup} (hmembers : Network.Epoch members)
    {n : Network ι} (hrun : Relation.ReflTransGen (Network.Step C) (Network.start members) n)
    {receiver sender : ι} {k : ℕ} {message : Sent}
    (hd : n.Deliverable receiver sender k message) :
    ((n.handles receiver).decryptApplicationMessage C message.payload).2 =
      .ok message.plaintext :=
  ((Network.InOrder.reached hinv hmembers hrun).deliver hinv hmembers hd).1

namespace Sample

/-- Alice and Bob at the beginning of the epoch in which Bob has joined. -/
def pair (alice bob : MLSGroup) : Bool → MLSGroup
  | false => alice
  | true => bob

/-- Bob sends twice and Alice once; nothing is delivered yet. -/
def exchange (alice bob : MLSGroup) : Network Bool :=
  (((Network.start (pair alice bob)).encrypt crypto true (ascii "hi")).encrypt crypto false
    (ascii "hm")).encrypt crypto true (ascii "ho")

def exchanged : Py (MLSGroup × MLSGroup) := do
  let bobPackage ← keyPackage 20
  let founder ← MLSGroup.create crypto (ascii "g") (sig 1) (kem 1) (kem 2)
  let (alice, welcome, _) ← (founder.addMember crypto (coins 40) bobPackage).2
  let bob ← MLSGroup.join crypto welcome (sig 20) (kem 20) [] none
  expect (alice.state.groupId = bob.state.groupId ∧ alice.state.epochId = bob.state.epochId ∧
    alice.state.keySchedule = bob.state.keySchedule ∧
    alice.state.tree.numLeaves = bob.state.tree.numLeaves ∧
    alice.state.tree.nodes.length = bob.state.tree.nodes.length)
  expect (alice.secretTree = none ∧ bob.secretTree = none)
  expect (alice.myIndex = 0 ∧ bob.myIndex = 1 ∧ alice.state.tree.numLeaves = 2)
  expect (((exchange alice bob).sent true).map Sent.plaintext = [ascii "hi", ascii "ho"])
  pure (alice, bob)

theorem exchanged_ok : ∃ r, exchanged = .ok r := Py.ok_of_isOk (by decide +kernel)

theorem exchanged_epoch {alice bob : MLSGroup} (h : exchanged = .ok (alice, bob)) :
    Network.Epoch (pair alice bob) ∧
      ((exchange alice bob).sent true).map Sent.plaintext = [ascii "hi", ascii "ho"] := by
  simp only [exchanged, expect, Py.bind_eq_ok, Py.require_eq_ok, Py.pure_eq, Except.ok.injEq,
    Prod.mk.injEq] at h
  obtain ⟨_, -, _, -, ⟨alice', _, _⟩, -, bob', -, _, ⟨hgid, hepoch, hks, hleaves, hsize⟩, _,
    ⟨hfresh, hfresh'⟩, _, ⟨hzero, hone, htwo⟩, _, hsent, rfl, rfl⟩ := h
  change alice'.myIndex = 0 at hzero
  change alice'.state.tree.numLeaves = 2 at htwo
  change alice'.state.tree.numLeaves = bob'.state.tree.numLeaves at hleaves
  refine ⟨⟨?_, ?_, ?_, ?_⟩, hsent⟩
  · have hab : MLSGroup.SameEpoch alice' bob' :=
      ⟨hgid, hepoch, congrArg _ hks, congrArg _ hks, hleaves, hsize⟩
    have hba : MLSGroup.SameEpoch bob' alice' :=
      ⟨hgid.symm, hepoch.symm, congrArg _ hks.symm, congrArg _ hks.symm, hleaves.symm, hsize.symm⟩
    rintro (_ | _) (_ | _)
    · exact ⟨rfl, rfl, rfl, rfl, rfl, rfl⟩
    · exact hab
    · exact hba
    · exact ⟨rfl, rfl, rfl, rfl, rfl, rfl⟩
  · rintro (_ | _)
    · exact hfresh
    · exact hfresh'
  · rintro (_ | _) (_ | _) heq
    · rfl
    · simp [pair, hzero, hone] at heq
    · simp [pair, hzero, hone] at heq
    · rfl
  · rintro (_ | _)
    · simp [pair, hzero, htwo]
    · simp [pair, hone, ← hleaves, htwo]

end Sample

/-- Bob's first message is lost; his second one is decrypted by Alice, who has sent one herself. -/
theorem in_order_delivery_alice : ∃ (alice bob : MLSGroup) (message : Sent),
    ((Sample.exchange alice bob).sent true)[1]? = some message ∧
    (((Sample.exchange alice bob).handles false).decryptApplicationMessage Sample.crypto
      message.payload).2 = .ok (ascii "ho") := by
  obtain ⟨⟨alice, bob⟩, hrun⟩ := Sample.exchanged_ok
  obtain ⟨hepoch, hsent⟩ := Sample.exchanged_epoch hrun
  have hsecond := congrArg (·[1]?) hsent
  rw [List.getElem?_map] at hsecond
  obtain ⟨message, hmessage, hplain⟩ := Option.map_eq_some_iff.mp hsecond
  refine ⟨alice, bob, message, hmessage, ?_⟩
  rw [← hplain]
  have hnext : (Sample.exchange alice bob).Deliverable false true 1 message :=
    ⟨by decide, Nat.zero_le 1, hmessage⟩
  refine in_order_delivery Sample.correct.decrypt_encrypt hepoch ?_ hnext
  exact ((Relation.ReflTransGen.refl.tail (.encrypt _ _)).tail (.encrypt _ _)).tail (.encrypt _ _)

end PureMls
