import PureMls.Verification.Channels
import PureMls.Verification.SecretPaths

/-! # The cached ratchets

Whatever is asked of a secret tree, it answers as a tree that has derived nothing, except for
what lies behind the tips of its ratchets. -/

namespace PureMls

namespace SecretTree

variable {C : Crypto} {st : SecretTree} {rootSecret secret : Bytes} {n leaf gen tip : ℕ}
  {type : SecretType}

/-! ## The plain ratchet -/

/-- The ratchet secret of a generation, from generation 0 on. -/
def ratchetTo (C : Crypto) (rootSecret : Bytes) (n leaf : ℕ) (type : SecretType) (gen : ℕ) :
    Py Bytes := do
  let start ← (new rootSecret n).ratchetStart C leaf type
  ratchetForward C gen 0 start.2

/-- Key and nonce of a generation in a tree that has derived nothing. -/
def plainKeys (C : Crypto) (rootSecret : Bytes) (n leaf : ℕ) (type : SecretType) (gen : ℕ) :
    Py (Bytes × Bytes) :=
  ((new rootSecret n).getKeyAndNonceForGen C leaf gen type).2

theorem ratchetStart_new (C : Crypto) (rootSecret : Bytes) (type : SecretType) (hleaf : leaf < n) :
    ∃ start, (new rootSecret n).ratchetStart C leaf type = .ok (0, start) := by
  have hfold : ∀ (path : List Direction) (secret : Bytes), ∃ last,
    path.foldlM (fun secret direction =>
      expandWithLabel C secret "tree" (Direction.encode direction) 32) secret = .ok last := by
    intro path
    induction path with
    | nil => exact fun secret => ⟨secret, rfl⟩
    | cons direction path ih =>
        intro secret
        obtain ⟨next, hnext⟩ : ∃ next,
          expandWithLabel C secret "tree" direction.encode 32 = .ok next :=
          expandWithLabel_ok (by decide) (by cases direction <;> decide) (by decide)
        obtain ⟨last, hlast⟩ := ih next
        exact ⟨last, by rw [List.foldlM_cons, hnext, Py.ok_bind, hlast]⟩
  obtain ⟨path, hpath⟩ := getPath_ok hleaf
  obtain ⟨node, hnode⟩ := hfold path rootSecret
  obtain ⟨start, hstart⟩ : ∃ start, expandWithLabel C node type.label [] 32 = .ok start :=
    expandWithLabel_ok (by cases type <;> decide) (by decide) (by decide)
  refine ⟨start, ?_⟩
  have hderive : (new rootSecret n).deriveLeafNodeSecret C leaf = .ok node := by
    rw [deriveLeafNodeSecret]
    exact (congrArg (· >>= _) hpath).trans hnode
  rw [ratchetStart]
  simp only [new, Dict.get?_empty]
  exact (congrArg (· >>= _) hderive).trans (by rw [Py.ok_bind, hstart]; rfl)

/-- Beyond a generation the ratchet goes on from the secret of that generation. -/
theorem ratchetTo_ahead (h : ratchetTo C rootSecret n leaf type tip = .ok secret)
    (hle : tip ≤ gen) :
    ratchetTo C rootSecret n leaf type gen = ratchetForward C (gen - tip) tip secret := by
  obtain ⟨start, hstart, hforward⟩ := Py.bind_eq_ok.mp h
  have hsplit := ratchetForward_add C tip (gen - tip) 0 start.2
  rw [Nat.add_sub_cancel' hle, hforward, Py.ok_bind, Nat.zero_add] at hsplit
  rw [ratchetTo, hstart, Py.ok_bind, hsplit]

theorem keyAndNonce_returns (C : Crypto) (secret : Bytes) (hgen : gen < 256 ^ 4) :
    ∃ keys, keyAndNonce C secret gen = .ok keys := by
  have hcontext : structPack 4 gen = .ok (beBytes 4 gen) := structPack_eq_ok.mpr ⟨hgen, rfl⟩
  obtain ⟨key, hkey⟩ : ∃ key, expandWithLabel C secret "key" (beBytes 4 gen) 16 = .ok key :=
    expandWithLabel_ok (by decide) (by simp) (by decide)
  obtain ⟨nonce, hnonce⟩ : ∃ nonce,
    expandWithLabel C secret "nonce" (beBytes 4 gen) 12 = .ok nonce :=
    expandWithLabel_ok (by decide) (by simp) (by decide)
  refine ⟨(key, nonce), ?_⟩
  rw [keyAndNonce, hcontext, Py.ok_bind, hkey, Py.ok_bind, hnonce]
  rfl

theorem snd_getKeyAndNonceForGen (C : Crypto) (st : SecretTree) (leaf gen : ℕ) (type : SecretType) :
    (st.getKeyAndNonceForGen C leaf gen type).2 =
      Prod.fst <$> st.getRatchetSecret C leaf gen type >>= fun secret =>
        keyAndNonce C secret gen := by
  rw [getKeyAndNonceForGen]
  cases st.getRatchetSecret C leaf gen type with
  | error e => rfl
  | ok reached => rfl

theorem plainKeys_eq (hleaf : leaf < n) (C : Crypto) (rootSecret : Bytes) (type : SecretType)
    (gen : ℕ) : plainKeys C rootSecret n leaf type gen =
      ratchetTo C rootSecret n leaf type gen >>= fun secret => keyAndNonce C secret gen := by
  obtain ⟨start, hstart⟩ := ratchetStart_new C rootSecret type hleaf
  rw [plainKeys, snd_getKeyAndNonceForGen, (getRatchetSecret_ahead hstart (Nat.zero_le gen)).1,
    ratchetTo, hstart, Py.ok_bind, Nat.sub_zero]

/-! ## One call -/

/-- A call on a secret tree: the next key of a sender, or the key of a generation. -/
inductive KeyCall where
  | next (leaf : ℕ) (type : SecretType)
  | forGen (leaf generation : ℕ) (type : SecretType)

namespace KeyCall

def leafIndex : KeyCall → ℕ
  | next leafIndex _ => leafIndex
  | forGen leafIndex _ _ => leafIndex

def secretType : KeyCall → SecretType
  | next _ secretType => secretType
  | forGen _ _ secretType => secretType

/-- The generation that is asked for. -/
def generation (st : SecretTree) : KeyCall → ℕ
  | next leafIndex _ => (st.generations.get? leafIndex).getD 0
  | forGen _ generation _ => generation

/-- The tree that is left, and key, nonce and generation. -/
def run (C : Crypto) (st : SecretTree) : KeyCall → SecretTree × Py (Bytes × Bytes × ℕ)
  | next leafIndex secretType => st.getKeyAndNonce C leafIndex secretType
  | forGen leafIndex generation secretType =>
    let (st', keys) := st.getKeyAndNonceForGen C leafIndex generation secretType
    (st', (fun keys => (keys.1, keys.2, generation)) <$> keys)

/-- The counters after the call has returned. -/
def counters (st : SecretTree) : KeyCall → Dict ℕ ℕ
  | next leafIndex _ => st.generations.set leafIndex ((st.generations.get? leafIndex).getD 0 + 1)
  | forGen _ _ _ => st.generations

variable {call : KeyCall}

/-- Behind the tip the call raises and changes nothing. -/
theorem run_behind (h : st.ratchetStart C call.leafIndex call.secretType = .ok (tip, secret))
    (hlt : call.generation st < tip) : ∃ e, call.run C st = (st, .error e) := by
  obtain ⟨e, hdrawn⟩ : ∃ e,
    st.getKeyAndNonceForGen C call.leafIndex (call.generation st) call.secretType =
      (st, .error e) := ⟨_, by rw [getKeyAndNonceForGen, getRatchetSecret_behind h hlt]⟩
  refine ⟨e, ?_⟩
  cases call with
  | next leafIndex secretType =>
      change st.getKeyAndNonceForGen C leafIndex ((st.generations.get? leafIndex).getD 0)
        secretType = _
        at hdrawn
      simp only [run, getKeyAndNonce, hdrawn]
  | forGen leafIndex generation secretType =>
      change st.getKeyAndNonceForGen C leafIndex generation secretType = _ at hdrawn
      simp only [run, hdrawn]
      rfl

/-- What a call at or beyond the tip leaves and returns. -/
structure Advances (C : Crypto) (st : SecretTree) (call : KeyCall) (secret key nonce : Bytes)
    (moved : SecretTree) : Prop where
  run_eq : call.run C st = (moved, .ok (key, nonce, call.generation st))
  keys : keyAndNonce C secret (call.generation st) = .ok (key, nonce)
  start : ∀ leaf type, moved.ratchetStart C leaf type =
    if (leaf, type) = (call.leafIndex, call.secretType) then .ok (call.generation st, secret)
    else st.ratchetStart C leaf type
  generations : moved.generations = call.counters st

theorem run_ahead {reached : Bytes}
    (h : st.ratchetStart C call.leafIndex call.secretType = .ok (tip, secret))
    (hle : tip ≤ call.generation st) (hgen : call.generation st < 256 ^ 4)
    (hreached : ratchetForward C (call.generation st - tip) tip secret = .ok reached) :
    ∃ key nonce moved, call.Advances C st reached key nonce moved := by
  obtain ⟨hfst, hmoved⟩ := getRatchetSecret_ahead h hle
  rw [hreached] at hfst
  obtain ⟨⟨value, moved⟩, hr, hvalue⟩ := Py.map_eq_ok.mp hfst
  obtain rfl : value = reached := hvalue
  obtain ⟨⟨key, nonce⟩, hkeys⟩ := keyAndNonce_returns C value hgen
  have halike := hmoved value moved hr
  have hstart : ∀ leaf type, moved.ratchetStart C leaf type =
      if (leaf, type) = (call.leafIndex, call.secretType) then .ok (call.generation st, value)
      else st.ratchetStart C leaf type := by
    intro leaf type
    rw [halike.start, ratchetStart_withTip]
  have hdrawn : st.getKeyAndNonceForGen C call.leafIndex (call.generation st) call.secretType =
      (moved, .ok (key, nonce)) := by
    rw [getKeyAndNonceForGen, hr]
    exact congrArg (Prod.mk moved) hkeys
  cases call with
  | next leafIndex secretType =>
      change st.getKeyAndNonceForGen C leafIndex ((st.generations.get? leafIndex).getD 0)
        secretType = _
        at hdrawn
      refine ⟨key, nonce, ⟨moved.encryptionSecret, moved.nLeaves, moved.generations.set leafIndex
        ((st.generations.get? leafIndex).getD 0 + 1), moved.leafCache⟩, ?_, hkeys,
          fun leaf type => ?_, ?_⟩
      · simp only [run, getKeyAndNonce, hdrawn]
        rfl
      · rw [← hstart]
        exact ratchetStart_congr rfl rfl rfl
      · rw [halike.generations]
        rfl
  | forGen leafIndex generation secretType =>
      change st.getKeyAndNonceForGen C leafIndex generation secretType = _ at hdrawn
      refine ⟨key, nonce, moved, ⟨?_, hkeys, hstart, halike.generations⟩⟩
      simp only [run, hdrawn, Py.map_ok]
      rfl

end KeyCall

/-! ## Sequences of calls -/

/-- A call that has returned, and the generation it derived. -/
structure Derived where
  call : KeyCall
  generation : ℕ

/-- A secret tree and what it has derived. -/
structure Session where
  tree : SecretTree
  derived : List Derived

namespace Session

/-- `call` on the tree; what raises derives nothing. -/
def step (C : Crypto) (s : Session) (call : KeyCall) : Session :=
  match call.run C s.tree with
  | (tree, .ok (_, _, generation)) => ⟨tree, s.derived ++ [⟨call, generation⟩]⟩
  | (tree, .error _) => ⟨tree, s.derived⟩

/-- Calls for leaves of the tree and generations of 32 bits, in any order. -/
inductive Reached (C : Crypto) (rootSecret : Bytes) (n : ℕ) : Session → Prop where
  | new : Reached C rootSecret n ⟨SecretTree.new rootSecret n, []⟩
  | step {s : Session} (call : KeyCall) : Reached C rootSecret n s → call.leafIndex < n →
      call.generation s.tree < 2 ^ 32 → Reached C rootSecret n (s.step C call)

/-- The generations that `get_key_and_nonce` has handed out for a leaf, in order. -/
def handedOut (s : Session) (leafIndex : ℕ) : List ℕ :=
  s.derived.filterMap fun d => match d.call with
    | .next leaf _ => if leaf = leafIndex then some d.generation else none
    | .forGen _ _ _ => none

/-- `tip` is the largest generation derived for a leaf and type, or nothing is and it is 0. -/
structure Tip (s : Session) (leaf : ℕ) (type : SecretType) (tip : ℕ) : Prop where
  le : ∀ d ∈ s.derived, d.call.leafIndex = leaf → d.call.secretType = type → d.generation ≤ tip
  derived : tip = 0 ∨ ∃ d ∈ s.derived, d.call.leafIndex = leaf ∧ d.call.secretType = type ∧
    d.generation = tip

/-- Every ratchet stands at its tip with the plain secret, and every counter is beyond what was
handed out. -/
structure Cached (C : Crypto) (rootSecret : Bytes) (n : ℕ) (s : Session) : Prop where
  ratchet : ∀ leaf < n, ∀ type, ∃ tip secret, s.tree.ratchetStart C leaf type = .ok (tip, secret) ∧
    ratchetTo C rootSecret n leaf type tip = .ok secret ∧ s.Tip leaf type tip
  counter : ∀ leaf, ∀ g ∈ s.handedOut leaf, g < (s.tree.generations.get? leaf).getD 0
  increasing : ∀ leaf, (s.handedOut leaf).Pairwise (· < ·)

variable {s : Session} {call : KeyCall}

theorem Tip.lt_iff (h : s.Tip leaf type tip) :
    gen < tip ↔ ∃ d ∈ s.derived, d.call.leafIndex = leaf ∧
    d.call.secretType = type ∧ gen < d.generation := by
  constructor
  · intro hlt
    rcases h.derived with hzero | ⟨d, hd, hleaf, htype, hgen⟩
    · omega
    · exact ⟨d, hd, hleaf, htype, hgen.symm ▸ hlt⟩
  · rintro ⟨d, hd, hleaf, htype, hlt⟩
    exact hlt.trans_le (h.le d hd hleaf htype)

theorem cached_new (C : Crypto) (rootSecret : Bytes) (n : ℕ) :
    Cached C rootSecret n ⟨SecretTree.new rootSecret n, []⟩ where
  ratchet leaf hleaf type := by
    obtain ⟨start, hstart⟩ := ratchetStart_new C rootSecret type hleaf
    have hzero : ratchetTo C rootSecret n leaf type 0 = .ok start := by
      rw [ratchetTo, hstart]
      rfl
    exact ⟨0, start, hstart, hzero, fun d hd => absurd hd List.not_mem_nil, .inl rfl⟩
  counter leaf g hg := absurd hg List.not_mem_nil
  increasing leaf := .nil

/-- A call behind the tip raises, any other one returns the plain key and nonce. -/
theorem Cached.run (h : Cached C rootSecret n s) (hleaf : call.leafIndex < n)
    (hgen : call.generation s.tree < 256 ^ 4) :
    (∃ tip e, s.Tip call.leafIndex call.secretType tip ∧ call.generation s.tree < tip ∧
      call.run C s.tree = (s.tree, .error e)) ∨
    ∃ tip secret key nonce moved, s.Tip call.leafIndex call.secretType tip ∧
      tip ≤ call.generation s.tree ∧
      ratchetTo C rootSecret n call.leafIndex call.secretType
        (call.generation s.tree) = .ok secret ∧
      call.Advances C s.tree secret key nonce moved := by
  obtain ⟨tip, secret, hstart, hplain, htip⟩ := h.ratchet _ hleaf call.secretType
  by_cases hlt : call.generation s.tree < tip
  · obtain ⟨e, hrun⟩ := KeyCall.run_behind hstart hlt
    exact .inl ⟨tip, e, htip, hlt, hrun⟩
  · have hle := Nat.not_lt.mp hlt
    obtain ⟨reached, hreached⟩ : ∃ reached,
        ratchetForward C (call.generation s.tree - tip) tip secret = .ok reached :=
      ratchetForward_ok (by omega)
    obtain ⟨key, nonce, moved, hadvances⟩ := KeyCall.run_ahead hstart hle hgen hreached
    exact .inr ⟨tip, reached, key, nonce, moved, htip, hle,
      (ratchetTo_ahead hplain hle).trans hreached, hadvances⟩

theorem mem_concat {s : Session} {d d' : Derived} {tree : SecretTree} :
    d ∈ (⟨tree, s.derived ++ [d']⟩ : Session).derived ↔ d ∈ s.derived ∨ d = d' := by
  simp

theorem handedOut_concat (s : Session) (tree : SecretTree) (call : KeyCall) (gen leaf : ℕ) :
    handedOut ⟨tree, s.derived ++ [⟨call, gen⟩]⟩ leaf =
      s.handedOut leaf ++ handedOut ⟨tree, [⟨call, gen⟩]⟩ leaf := by
  rw [handedOut, List.filterMap_append]
  rfl

/-- A call leaves a sender's counter alone, or hands it out and counts it up. -/
theorem handedOut_single (st tree : SecretTree) (call : KeyCall) (leaf : ℕ) :
    (handedOut ⟨tree, [⟨call, call.generation st⟩]⟩ leaf = [] ∧
      (call.counters st).get? leaf = st.generations.get? leaf) ∨
    (handedOut ⟨tree, [⟨call, call.generation st⟩]⟩ leaf = [(st.generations.get? leaf).getD 0] ∧
      (call.counters st).get? leaf = some ((st.generations.get? leaf).getD 0 + 1)) := by
  cases call with
  | next leafIndex secretType =>
      simp only [handedOut, KeyCall.generation, KeyCall.counters, Dict.get?_set]
      by_cases hleaf : leafIndex = leaf
      · subst hleaf
        exact .inr ⟨by simp, by simp⟩
      · exact .inl ⟨by simp [hleaf], by simp [Ne.symm hleaf]⟩
  | forGen leafIndex generation secretType => exact .inl ⟨rfl, rfl⟩

theorem Cached.step (h : Cached C rootSecret n s) (hleaf : call.leafIndex < n)
    (hgen : call.generation s.tree < 256 ^ 4) : Cached C rootSecret n (s.step C call) := by
  rcases h.run hleaf hgen with ⟨_, e, -, -, hrun⟩ |
    ⟨tip, secret, key, nonce, moved, htip, hle, hplain, hadvances⟩
  · have hsame : s.step C call = s := by rw [Session.step, hrun]
    rwa [hsame]
  have hstep : s.step C call = ⟨moved, s.derived ++ [⟨call, call.generation s.tree⟩]⟩ := by
    rw [Session.step, hadvances.run_eq]
  rw [hstep]
  refine ⟨fun leaf hleaf' type => ?_, fun leaf g hg => ?_, fun leaf => ?_⟩
  · rw [hadvances.start]
    by_cases hsame : (leaf, type) = (call.leafIndex, call.secretType)
    · rw [if_pos hsame]
      obtain ⟨rfl, rfl⟩ := Prod.mk.inj hsame
      refine ⟨_, secret, rfl, hplain, fun d hd hdleaf hdtype => ?_, .inr ⟨_,
        mem_concat.mpr (.inr rfl), rfl, rfl, rfl⟩⟩
      rcases mem_concat.mp hd with hold | rfl
      · exact (htip.le d hold hdleaf hdtype).trans hle
      · exact le_rfl
    · rw [if_neg hsame]
      obtain ⟨tip', secret', hstart', hplain', htip'⟩ := h.ratchet leaf hleaf' type
      refine ⟨tip', secret', hstart', hplain', fun d hd hdleaf hdtype => ?_, ?_⟩
      · rcases mem_concat.mp hd with hold | rfl
        · exact htip'.le d hold hdleaf hdtype
        · exact absurd (by rw [← hdleaf, ← hdtype]) hsame
      · rcases htip'.derived with hzero | ⟨d, hd, hrest⟩
        · exact .inl hzero
        · exact .inr ⟨d, mem_concat.mpr (.inl hd), hrest⟩
  · have hcounter := h.counter leaf
    rw [hadvances.generations]
    rw [handedOut_concat, List.mem_append] at hg
    rcases handedOut_single s.tree moved call leaf with ⟨hnone, hkept⟩ | ⟨hone, hcounted⟩
    · rw [hnone] at hg
      rw [hkept]
      exact hcounter g (hg.resolve_right List.not_mem_nil)
    · rw [hone, List.mem_singleton] at hg
      rw [hcounted, Option.getD_some]
      rcases hg with hold | rfl
      · exact (hcounter g hold).trans (Nat.lt_succ_self _)
      · exact Nat.lt_succ_self _
  · rw [handedOut_concat]
    rcases handedOut_single s.tree moved call leaf with ⟨hnone, -⟩ | ⟨hone, -⟩
    · rw [hnone, List.append_nil]
      exact h.increasing leaf
    · rw [hone, List.pairwise_append]
      refine ⟨h.increasing leaf, List.pairwise_singleton _ _, fun g hg g' hg' => ?_⟩
      rw [List.mem_singleton.mp hg']
      exact h.counter leaf g hg

theorem Reached.cached (h : Reached C rootSecret n s) : Cached C rootSecret n s := by
  induction h with
  | new => exact cached_new C rootSecret n
  | step call _ hleaf hgen ih => exact ih.step hleaf hgen

end Session

/-- Whatever has been asked before, a call returns what a tree that has derived nothing gives for
its generation; it raises exactly when a larger generation has been derived for the leaf and type;
and the generations handed out for one leaf increase. -/
theorem cached_ratchet_eq_plain {s : Session} (h : Session.Reached C rootSecret n s) :
    (∀ call : KeyCall, call.leafIndex < n → call.generation s.tree < 2 ^ 32 →
      (∀ key nonce gen, (call.run C s.tree).2 = .ok (key, nonce, gen) →
        gen = call.generation s.tree ∧
        plainKeys C rootSecret n call.leafIndex call.secretType gen = .ok (key, nonce)) ∧
      ((∃ e, (call.run C s.tree).2 = .error e) ↔
        ∃ d ∈ s.derived, d.call.leafIndex = call.leafIndex ∧
        d.call.secretType = call.secretType ∧ call.generation s.tree < d.generation)) ∧
    ∀ leaf, (s.handedOut leaf).Pairwise (· < ·) := by
  have hcached := h.cached
  refine ⟨fun call hleaf hgen => ?_, hcached.increasing⟩
  rcases hcached.run hleaf hgen with ⟨tip, e, htip, hlt, hrun⟩ |
    ⟨tip, secret, key, nonce, moved, htip, hle, hplain, hadvances⟩
  · rw [hrun]
    exact ⟨fun key nonce gen hkeys => (by cases hkeys), fun _ => htip.lt_iff.mp hlt,
      fun _ => ⟨e, rfl⟩⟩
  · rw [hadvances.run_eq]
    refine ⟨fun key nonce gen hkeys => ?_, fun herror => ?_, fun hlarger => ?_⟩
    · cases hkeys
      refine ⟨rfl, ?_⟩
      rw [plainKeys_eq hleaf, hplain]
      exact hadvances.keys
    · obtain ⟨e, he⟩ := herror
      cases he
    · exact absurd (htip.lt_iff.mpr hlarger) (Nat.not_lt.mpr hle)

/-- A key is handed out for leaf 1 of three, then generation 4 is derived. -/
theorem cached_ratchet_eq_plain_three : ∃ s : Session, s =
      (Session.step Sample.crypto ⟨new (ascii "root") 3, []⟩ (.next 1 .handshake)).step
        Sample.crypto
        (.forGen 1 4 .application) ∧
    (∀ call : KeyCall, call.leafIndex < 3 → call.generation s.tree < 2 ^ 32 →
      (∀ key nonce gen, (call.run Sample.crypto s.tree).2 = .ok (key, nonce, gen) →
        gen = call.generation s.tree ∧ plainKeys Sample.crypto (ascii "root") 3 call.leafIndex
          call.secretType gen = .ok (key, nonce)) ∧
      ((∃ e, (call.run Sample.crypto s.tree).2 = .error e) ↔ ∃ d ∈ s.derived,
        d.call.leafIndex = call.leafIndex ∧ d.call.secretType = call.secretType ∧
        call.generation s.tree < d.generation)) ∧
    ∀ leaf, (s.handedOut leaf).Pairwise (· < ·) :=
  ⟨_, rfl, cached_ratchet_eq_plain
      (.step _ (.step _ .new (by decide) (by decide)) (by decide) (by decide))⟩

end SecretTree

end PureMls
