import PureMls.Verification.Agreement
import PureMls.Verification.Asynchrony

/-! # Histories

The interim transcript hash of an epoch is made of that of the epoch before and of the commit
between them. Two runs of a group that part at a commit do not meet again: whoever has one
transcript has one history, and whoever accepts a commit has the history of its sender. -/

namespace PureMls

open MLSGroup

variable {C : Crypto}

/-! ## What the transcript covers -/

/-- The transcript hash covers the framed content and its signature. -/
theorem computeConfirmedTranscriptHashInput_inj {framed framed' : FramedContent}
    {framedBytes framedBytes' signature signature' input : Bytes}
    (hbytes : framed.toBytes = .ok framedBytes) (hbytes' : framed'.toBytes = .ok framedBytes')
    (h : computeConfirmedTranscriptHashInput framedBytes signature = .ok input)
    (h' : computeConfirmedTranscriptHashInput framedBytes' signature' = .ok input) :
    framed = framed' ∧ signature = signature' := by
  simp only [computeConfirmedTranscriptHashInput, Py.bind_eq_ok, Py.pure_eq,
    Except.ok.injEq] at h h'
  obtain ⟨wire, hwire, signatureBytes, hsignature, rfl⟩ := h
  obtain ⟨wire', hwire', signatureBytes', hsignature', heq⟩ := h'
  obtain rfl := Except.ok.inj (hwire.symm.trans hwire')
  simp only [List.append_assoc, List.append_cancel_left_eq] at heq
  obtain ⟨hframed, -, hrest⟩ :=
    (FramedContent.readsAs hbytes).unique (FramedContent.readsAs hbytes') heq.symm
  subst hrest
  exact ⟨hframed, (readsAs_opaqueV hsignature).unique_self (readsAs_opaqueV hsignature')⟩

/-- One commit, but for the tag that only the members of the epoch can check. -/
def OneCommit (update other : GroupUpdate) : Prop :=
  SameCommit { update with membershipTag := other.membershipTag } other

namespace Taken

variable {entry entry' : Taken}

/-- What the confirmed transcript hash covers beside the transcript before it. -/
def confirmedInput (entry : Taken) : Py Bytes := do
  let framed ← entry.sender.receivedContent entry.committed.update
  let framedBytes ← framed.toBytes
  computeConfirmedTranscriptHashInput framedBytes entry.committed.update.signature

/-- What SHA-256 makes the two transcript hashes of. -/
def hashed (C : Crypto) (entry : Taken) : List Bytes :=
  match entry.confirmedInput with
  | .error _ => []
  | .ok input =>
    let confirmed := entry.sender.interimTranscriptHash ++ input
    [confirmed, C.sha256 confirmed ++ entry.committed.update.confirmationTag.getD []]

section Built

variable (r : Built C entry.sender entry.coins entry.proposal entry.committed)

theorem confirmedInput_eq : entry.confirmedInput = .ok r.finished.confirmedInput := by
  have hframed : FramedContent.toBytes ⟨entry.sender.state.groupId, entry.sender.state.epochId,
      entry.sender.myIndex, [], r.finished.body⟩ = .ok r.finished.framedBytes :=
        r.finished.framed_eq
  have hsignature : entry.committed.update.signature = r.finished.signature := by
    rw [r.update_eq]; rfl
  rw [confirmedInput, r.receivedContent, Py.ok_bind, hframed, Py.ok_bind, hsignature]
  exact r.finished.confirmedInput_eq

theorem confirmationTag_eq : entry.committed.update.confirmationTag = some r.finished.confTag := by
  rw [r.update_eq]
  rfl

theorem transcriptHash_eq : r.finished.transcriptHash =
    C.sha256 (entry.sender.interimTranscriptHash ++ r.finished.confirmedInput) := rfl

theorem hashed_eq : entry.hashed C =
    [entry.sender.interimTranscriptHash ++ r.finished.confirmedInput,
      r.finished.transcriptHash ++ r.finished.confTag] := by
  rw [hashed, confirmedInput_eq r, confirmationTag_eq r]
  rfl

end Built

/-- No transcript hash of one commit collides with one of another. -/
def Apart (C : Crypto) (entry entry' : Taken) : Prop :=
  ∀ x ∈ entry.hashed C, ∀ y ∈ entry'.hashed C, C.sha256 x = C.sha256 y → x = y

/-- Two commits that lead from transcripts of one length into one transcript are one, and so are the
transcripts before them. -/
theorem one_of_interim (hC : C.Correct)
    (r : Built C entry.sender entry.coins entry.proposal entry.committed)
    (r' : Built C entry'.sender entry'.coins entry'.proposal entry'.committed)
    (hwire : entry.sender.state.tree.OnWire) (hwire' : entry'.sender.state.tree.OnWire)
    (hlen : entry.sender.interimTranscriptHash.length = entry'.sender.interimTranscriptHash.length)
    (hapart : Apart C entry entry')
    (h : entry.committed.next.interimTranscriptHash = entry'.committed.next.interimTranscriptHash) :
    entry.sender.interimTranscriptHash = entry'.sender.interimTranscriptHash ∧
      OneCommit entry.committed.update entry'.committed.update := by
  rw [Apart, hashed_eq r, hashed_eq r'] at hapart
  rw [r.next_interim, r'.next_interim] at h
  have hlast := hapart _ (List.mem_cons_of_mem _ List.mem_cons_self) _
    (List.mem_cons_of_mem _ List.mem_cons_self) h
  obtain ⟨htranscript, htag⟩ := List.append_inj' hlast
    (by rw [r.finished.length_confTag hC, r'.finished.length_confTag hC])
  have hfirst := hapart _ List.mem_cons_self _ List.mem_cons_self htranscript
  obtain ⟨hinterim, hinput⟩ := List.append_inj hfirst hlen
  -- the input of the hash names what is framed and its signature
  have hcovered := r'.finished.confirmedInput_eq
  rw [← hinput] at hcovered
  obtain ⟨hframed, hsignature⟩ := computeConfirmedTranscriptHashInput_inj r.finished.framed_eq
    r'.finished.framed_eq r.finished.confirmedInput_eq hcovered
  simp only [FramedContent.mk.injEq] at hframed
  obtain ⟨hgroup, -, -, -, hbody⟩ := hframed
  have hgroups : entry.committed.update.groupId = entry'.committed.update.groupId := by
    rw [r.update_eq, r'.update_eq]
    exact hgroup
  have hsignatures : entry.committed.update.signature = entry'.committed.update.signature := by
    rw [r.update_eq, r'.update_eq]
    exact hsignature
  have hbodies : entry.committed.update.bodyBytes = .ok r'.finished.body := by
    rw [r.update_eq, ← hbody]
    exact r.finished.body_eq
  have hbodies' : entry'.committed.update.bodyBytes = .ok r'.finished.body := by
    rw [r'.update_eq]
    exact r'.finished.body_eq
  have hsame := (GroupUpdate.sameCommit_of_body (r.update_tree ▸ r.onWire hwire)
    (r'.update_tree ▸ r'.onWire hwire') hbodies hbodies' hgroups hsignatures).1
  have htags :
    entry.committed.update.confirmationTag = entry'.committed.update.confirmationTag := by
    rw [confirmationTag_eq r, confirmationTag_eq r', htag]
  rw [← htags] at hsame
  exact ⟨hinterim, hsame⟩

/-- One commit on one transcript leads into one transcript. -/
theorem interim_of_one (r : Built C entry.sender entry.coins entry.proposal entry.committed)
    (r' : Built C entry'.sender entry'.coins entry'.proposal entry'.committed)
    (hepoch : entry.sender.state.epochId = entry'.sender.state.epochId)
    (hinterim : entry.sender.interimTranscriptHash = entry'.sender.interimTranscriptHash)
    (h : OneCommit entry.committed.update entry'.committed.update) :
    entry.committed.next.interimTranscriptHash = entry'.committed.next.interimTranscriptHash := by
  have hgroup : entry.sender.state.groupId = entry'.sender.state.groupId := by
    have hgroups : entry.committed.update.groupId = entry'.committed.update.groupId := h.groupId
    rw [r.update_eq, r'.update_eq] at hgroups
    exact hgroups
  have hbody : entry.committed.update.bodyBytes = entry'.committed.update.bodyBytes := h.body
  have hindex : entry.committed.update.committerIndex = entry'.committed.update.committerIndex :=
    h.committerIndex
  have hsignature : entry.committed.update.signature = entry'.committed.update.signature :=
    h.signature
  have htag : entry.committed.update.confirmationTag = entry'.committed.update.confirmationTag :=
    h.confirmationTag
  have hinput : entry.confirmedInput = entry'.confirmedInput := by
    simp only [confirmedInput, MLSGroup.receivedContent, hgroup, hepoch, hbody, hindex, hsignature]
  rw [confirmedInput_eq r, confirmedInput_eq r', Except.ok.injEq] at hinput
  rw [confirmationTag_eq r, confirmationTag_eq r', Option.some.injEq] at htag
  have htranscript : r.finished.transcriptHash = r'.finished.transcriptHash := by
    rw [transcriptHash_eq, transcriptHash_eq, hinterim, hinput]
  rw [r.next_interim, r'.next_interim, Finished.interim, Finished.interim, htranscript, htag]

end Taken

/-! ## One transcript, one history -/

namespace Net

variable {net net' : Net} {a b : MLSGroup}

/-- The commits before an epoch are the same in both runs. -/
def SameHistory (net net' : Net) (n : ℕ) : Prop :=
  ∀ k (entry entry' : Taken), k < n → net.log[k]? = some entry → net'.log[k]? = some entry' →
    OneCommit entry.committed.update entry'.committed.update

/-- No transcript hash before an epoch of one run collides with one of the other. -/
def Apart (C : Crypto) (net net' : Net) (n : ℕ) : Prop :=
  ∀ entry ∈ net.log.take n, ∀ entry' ∈ net'.log.take n, Taken.Apart C entry entry'

theorem Apart.mono {m n : ℕ} (h : Apart C net net' n) (hmn : m ≤ n) : Apart C net net' m := by
  intro entry hentry entry' hentry'
  exact h entry ((List.take_sublist_take_left hmn).subset hentry) entry'
    ((List.take_sublist_take_left hmn).subset hentry')

theorem sameHistory_succ {n : ℕ} {entry entry' : Taken} (hlog : net.log[n]? = some entry)
    (hlog' : net'.log[n]? = some entry') : SameHistory net net' (n + 1) ↔
      SameHistory net net' n ∧ OneCommit entry.committed.update entry'.committed.update := by
  constructor
  · intro h
    exact ⟨fun k x x' hk => h k x x' (by omega), h n entry entry' (by omega) hlog hlog'⟩
  · rintro ⟨h, hone⟩ k x x' hk hx hx'
    rcases Nat.lt_succ_iff_lt_or_eq.mp hk with hk | rfl
    · exact h k x x' hk hx hx'
    · rw [hlog, Option.some.injEq] at hx
      rw [hlog', Option.some.injEq] at hx'
      subst hx
      subst hx'
      exact hone

theorem opener_succ_eq {n : ℕ} {opener : MLSGroup} (h : net.opener (n + 1) = some opener) :
    ∃ entry, net.log[n]? = some entry ∧ entry.committed.next = opener := by
  rw [Net.opener, List.getElem?_cons_succ, List.getElem?_map] at h
  exact Option.map_eq_some_iff.mp h

theorem Reachable.founder_interim (h : Reachable C net) :
    net.founder.interimTranscriptHash = [] := by
  induction h with
  | create hcreate =>
      obtain ⟨_, _, _, _, -, -, -, hfounder⟩ := create_eq_ok hcreate
      rw [hfounder]
      rfl
  | step _ hstep ih => cases hstep <;> exact ih

/-- The founder begins with an empty transcript, everybody else with a hash. -/
theorem Reachable.length_interim (hC : C.Correct) (h : Reachable C net) {k : ℕ} {opener : MLSGroup}
    (hopener : net.opener k = some opener) :
    opener.interimTranscriptHash.length = if k = 0 then 0 else 32 := by
  cases k with
  | zero =>
      obtain rfl : net.founder = opener := Option.some.inj hopener
      rw [h.founder_interim]
      rfl
  | succ k =>
      obtain ⟨entry, hlog, rfl⟩ := opener_succ_eq hopener
      obtain ⟨r⟩ := Proposal.commit_eq_ok ((h.consistent hC).built k entry hlog).1.commit
      rw [r.next_interim, Finished.interim, computeInterimTranscriptHash, hC.sha256_size,
        if_neg k.succ_ne_zero]

/-- Back from the epoch: the last hash settles the last commit and the hash before it. -/
theorem Reachable.interim_eq_iff (hC : C.Correct) (h : Reachable C net) (h' : Reachable C net')
    {n : ℕ} {opener opener' : MLSGroup} (hopener : net.opener n = some opener)
    (hopener' : net'.opener n = some opener') (hapart : Apart C net net' n) :
    opener.interimTranscriptHash = opener'.interimTranscriptHash ↔ SameHistory net net' n := by
  induction n generalizing opener opener' with
  | zero =>
      obtain rfl : net.founder = opener := Option.some.inj hopener
      obtain rfl : net'.founder = opener' := Option.some.inj hopener'
      rw [h.founder_interim, h'.founder_interim]
      exact iff_of_true rfl fun k _ _ hk => absurd hk k.not_lt_zero
  | succ n ih =>
      obtain ⟨entry, hlog, rfl⟩ := opener_succ_eq hopener
      obtain ⟨entry', hlog', rfl⟩ := opener_succ_eq hopener'
      obtain ⟨hproper, hepoch, hplace, before, hbefore, hagree⟩ :=
        (h.consistent hC).built n entry hlog
      obtain ⟨hproper', hepoch', hplace', before', hbefore', hagree'⟩ :=
        (h'.consistent hC).built n entry' hlog'
      obtain ⟨r⟩ := Proposal.commit_eq_ok hproper.commit
      obtain ⟨r'⟩ := Proposal.commit_eq_ok hproper'.commit
      rw [hepoch] at hbefore
      rw [hepoch'] at hbefore'
      have hsenders : entry.sender.interimTranscriptHash = entry'.sender.interimTranscriptHash ↔
          SameHistory net net' n := by
        rw [hagree.interim, hagree'.interim]
        exact ih hbefore hbefore' (hapart.mono n.le_succ)
      have hlen : entry.sender.interimTranscriptHash.length =
          entry'.sender.interimTranscriptHash.length := by
        rw [hagree.interim, hagree'.interim, h.length_interim hC hbefore,
          h'.length_interim hC hbefore']
      have hlast : ∀ {net : Net} {entry : Taken}, net.log[n]? = some entry →
          entry ∈ net.log.take (n + 1) := by
        intro net entry hlog
        exact List.mem_of_getElem? (by rw [List.getElem?_take_of_lt n.lt_succ_self, hlog])
      rw [sameHistory_succ hlog hlog', ← hsenders]
      constructor
      · exact Taken.one_of_interim hC r r' hplace.onWire hplace'.onWire hlen
          (hapart entry (hlast hlog) entry' (hlast hlog'))
      · rintro ⟨hinterim, hone⟩
        exact Taken.interim_of_one r r' (hepoch.trans hepoch'.symm) hinterim hone

/-- Members that are in one epoch of two runs have one interim transcript hash if and only if all
commits before that epoch are the same in both runs. -/
theorem same_transcript_iff_same_history (hC : C.Correct) (h : Reachable C net)
    (h' : Reachable C net') (ha : a ∈ net.handles) (hb : b ∈ net'.handles)
    (hepoch : a.state.epochId = b.state.epochId) (hapart : Apart C net net' a.state.epochId) :
    a.interimTranscriptHash = b.interimTranscriptHash ↔ SameHistory net net' a.state.epochId := by
  obtain ⟨-, opener, hopener, hagree⟩ := (h.consistent hC).handles a ha
  obtain ⟨-, opener', hopener', hagree'⟩ := (h'.consistent hC).handles b hb
  rw [← hepoch] at hopener'
  rw [hagree.interim, hagree'.interim]
  exact h.interim_eq_iff hC h' hopener hopener' hapart

/-- A commit is accepted by nobody but those who have the history of its sender: whoever accepts one
of another run, under a signature that is not forged, has processed the same commits. -/
theorem accepted_commit_same_history (hC : C.Correct) (h : Reachable C net) (h' : Reachable C net')
    (ha : a ∈ net.handles) (hb : b ∈ net'.handles) {coins : CommitCoins} {p : Proposal}
    {committed : Committed} (hcommit : p.commit C b coins = .ok committed) {update : GroupUpdate}
    {next : MLSGroup} (hwire : update.tree.OnWire)
    (hsignature : update.signature = committed.update.signature)
    (haccepted : (a.processUpdate C update).2 = .ok next)
    (hsigned : ∀ r : Built C b coins p committed, r.Unforged a update)
    (hapart : Apart C net net' a.state.epochId) :
    a.state.epochId = b.state.epochId ∧ SameHistory net net' a.state.epochId ∧
      OneCommit
        { update with confirmationTag := committed.update.confirmationTag } committed.update := by
  obtain ⟨r⟩ := Proposal.commit_eq_ok hcommit
  rw [processUpdate_snd] at haccepted
  have hplace := ((h'.consistent hC).handles b hb).inPlace
  have hreceived := r.received hplace.onWire hwire hsignature haccepted (hsigned r)
  exact ⟨hreceived.epochId,
    (same_transcript_iff_same_history hC h h' ha hb hreceived.epochId hapart).mp
    hreceived.interim, hreceived.same⟩

end Net

/-! ## A fork of two members -/

namespace Sample

/-- Alice adds Bob, and might have done so with other coins; Bob updates his key and she follows. -/
structure Fork where
  bobPackage : KeyPackage
  alice : MLSGroup
  added : Committed
  welcome : Welcome
  other : Committed
  bob : MLSGroup
  updated : Committed
  next : MLSGroup

def Fork.first (fork : Fork) : Taken :=
  ⟨fork.alice, coins 40, .addMember fork.bobPackage, fork.added⟩

def Fork.second (fork : Fork) : Taken :=
  ⟨fork.alice, coins 41, .addMember fork.bobPackage, fork.other⟩

def expectApart (entry entry' : Taken) : Py Unit :=
  expect (∀ x ∈ entry.hashed crypto, ∀ y ∈ entry'.hashed crypto, crypto.sha256 x = crypto.sha256 y →
    x = y)

def fork : Py Fork := do
  let bobPackage ← keyPackage 20
  let alice ← MLSGroup.create crypto (ascii "g") (sig 1) (kem 1) (kem 2)
  let (alice1, welcome, update) ← (alice.addMember crypto (coins 40) bobPackage).2
  let (alice1', welcome', update') ← (alice.addMember crypto (coins 41) bobPackage).2
  let bob ← MLSGroup.join crypto welcome (sig 20) (kem 20) [] none
  let updated ← Proposal.updateKey.commit crypto bob (coins 60)
  let next ← (alice1.processUpdate crypto updated.update).2
  let tbs ← recomputedTbs crypto alice1 updated.update
  let tbs' ← recomputedTbs crypto bob updated.update
  let forked : Fork := ⟨bobPackage, alice, ⟨alice1, update, some welcome⟩, welcome,
    ⟨alice1', update', some welcome'⟩, bob, updated, next⟩
  expect (tbs = tbs')
  expect ((refs update.tree).Nodup ∧ (refs update'.tree).Nodup)
  expect (update.signature ≠ update'.signature)
  expectApart forked.first forked.second
  expectApart forked.first forked.first
  pure forked

theorem fork_ok : ∃ r, fork = .ok r := Py.ok_of_isOk (by decide +kernel)

/-- What is known of the fork: both commits may be taken, and Alice follows Bob. -/
structure Forked (fork : Fork) : Prop where
  left : Net.Reachable crypto ⟨fork.alice, [fork.first], [fork.added.next, fork.bob]⟩
  right : Net.Reachable crypto ⟨fork.alice, [fork.second], [fork.other.next]⟩
  epoch : fork.added.next.state.epochId = 1
  epoch' : fork.other.next.state.epochId = 1
  signature : fork.added.update.signature ≠ fork.other.update.signature
  apart : Taken.Apart crypto fork.first fork.second
  apart_self : Taken.Apart crypto fork.first fork.first
  commit : Proposal.updateKey.commit crypto fork.bob (coins 60) = .ok fork.updated
  accepted : (fork.added.next.processUpdate crypto fork.updated.update).2 = .ok fork.next
  unforged : ∀ r : Built crypto fork.bob (coins 60) .updateKey fork.updated,
    r.Unforged fork.added.next fork.updated.update

theorem forked : ∃ fork, Forked fork := by
  obtain ⟨r, hrun⟩ := fork_ok
  simp only [fork, expectApart, expect, Py.bind_eq_ok, Py.pure_eq, Except.ok.injEq,
    Py.require_eq_ok] at hrun
  obtain ⟨bobPackage, hbob, alice, hcreate, ⟨alice1, welcome, update⟩, hadd, ⟨alice1', welcome',
    update'⟩, hadd', bob, hjoin, updated, hupdated, next, hnext, tbs, htbs, _, htbs', _, rfl, _,
      ⟨hrefs, hrefs'⟩, _,
    hsignature, _, hapart, _, hself, -⟩ := hrun
  have hinvited : Invited crypto [] bobPackage ⟨sig 20, kem 20⟩ := enters hbob (by simp)
  let fork : Fork := ⟨bobPackage, alice, ⟨alice1, update, some welcome⟩, welcome,
    ⟨alice1', update', some welcome'⟩, bob, updated, next⟩
  have hstart : Net.Reachable crypto ⟨alice, [], [alice]⟩ := .create hcreate
  have hzero := ((hstart.consistent correct).opens 0 alice rfl).epochId
  have hfirst : fork.first.Proper crypto := by
    refine ⟨?_, refsCollisionFree hrefs, ?_⟩
    · simp only [Fork.first, fork, Proposal.commit, hadd, Py.ok_bind]
      rfl
    · rintro kp ⟨⟩
      exact hinvited.source
  have hsecond : fork.second.Proper crypto := by
    refine ⟨?_, refsCollisionFree hrefs', ?_⟩
    · simp only [Fork.second, fork, Proposal.commit, hadd', Py.ok_bind]
      rfl
    · rintro kp ⟨⟩
      exact hinvited.source
  have hleft : Net.Reachable crypto ⟨alice, [fork.first], [alice1]⟩ :=
    .step hstart (.take (i := 0) fork.first rfl hzero hfirst)
  have hright : Net.Reachable crypto ⟨alice, [fork.second], [alice1']⟩ :=
    .step hstart (.take (i := 0) fork.second rfl hzero hsecond)
  have hlog : [fork.first][0]? = some fork.first := rfl
  have hentered : Net.Reachable crypto ⟨alice, [fork.first], [alice1, bob]⟩ :=
    .step hleft
      (.enter ⟨sig 20, kem 20⟩ hlog rfl rfl (hinvited.initKey.trans hinvited.kemKey) hjoin)
  exact ⟨fork, hentered, hright, ((hleft.consistent correct).opens 1 alice1 rfl).epochId,
    ((hright.consistent correct).opens 1 alice1' rfl).epochId, hsignature, hapart, hself, hupdated,
    hnext, unforged htbs htbs'⟩

end Sample

open Sample in
/-- Alice's handle after the one commit and the one after the other have parted for good. -/
theorem same_transcript_iff_same_history_fork : ∃ (net net' : Net) (a b : MLSGroup),
    a.state.epochId = 1 ∧ b.state.epochId = 1 ∧ ¬ net.SameHistory net' 1 ∧
    (a.interimTranscriptHash = b.interimTranscriptHash ↔ net.SameHistory net' a.state.epochId) := by
  obtain ⟨fork, h⟩ := forked
  refine ⟨_, _, fork.added.next, fork.other.next, h.epoch, h.epoch', ?_,
    Net.same_transcript_iff_same_history correct h.left h.right (by simp) (by simp)
      (h.epoch.trans h.epoch'.symm) ?_⟩
  · intro hsame
    exact h.signature (hsame 0 fork.first fork.second (by decide) rfl rfl).signature
  · rw [h.epoch]
    intro entry hentry entry' hentry'
    rw [List.mem_singleton.mp hentry, List.mem_singleton.mp hentry']
    exact h.apart

open Sample in
/-- Alice and Bob have one history when she accepts his key update. -/
theorem accepted_commit_same_history_alice : ∃ (net : Net) (alice bob : MLSGroup),
    alice.state.epochId = 1 ∧ alice.state.epochId = bob.state.epochId ∧
    net.SameHistory net alice.state.epochId := by
  obtain ⟨fork, h⟩ := forked
  have hbob : (Net.Consistent crypto ⟨fork.alice, [fork.first], [fork.added.next, fork.bob]⟩) :=
    h.left.consistent correct
  have hwire : fork.updated.update.tree.OnWire := by
    obtain ⟨r⟩ := Proposal.commit_eq_ok h.commit
    rw [r.update_tree]
    exact r.onWire (hbob.handles fork.bob (by simp)).inPlace.onWire
  obtain ⟨hepoch, hsame, -⟩ := Net.accepted_commit_same_history correct h.left h.left
    (a := fork.added.next) (b := fork.bob) (by simp) (by simp) h.commit hwire rfl h.accepted
    h.unforged (by
      rw [h.epoch]
      intro entry hentry entry' hentry'
      rw [List.mem_singleton.mp hentry, List.mem_singleton.mp hentry']
      exact h.apart_self)
  exact ⟨_, _, _, h.epoch, hepoch, hsame⟩

end PureMls
