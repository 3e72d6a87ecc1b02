import PureMls.Verification.CheckOrder
import PureMls.Verification.Persistence

/-! # Transcripts

Runs whose handles carry the confirmed transcript hash with them, and what the interim transcript
hash of a handle goes back to: the epoch secret whose confirmation key tagged it. -/

namespace PureMls

open RatchetTree MLSGroup

variable {C : Crypto} {Calls : MLSGroup → Transition → Prop}

/-! ## Runs with their transcript -/

/-- The confirmed transcript hash after a commit, as its receivers compute it. -/
def MLSGroup.nextTranscript (C : Crypto) (self : MLSGroup) (update : GroupUpdate) : Py Bytes := do
  let framed ← self.receivedContent update
  let framedBytes ← framed.toBytes
  let confirmedInput ← computeConfirmedTranscriptHashInput framedBytes update.signature
  pure (computeConfirmedTranscriptHash C self.interimTranscriptHash confirmedInput)

/-- A handle that a run reaches, and the confirmed transcript hash that its interim one was
computed from; there is none before the first commit. -/
inductive Traced (C : Crypto) (Calls : MLSGroup → Transition → Prop) :
    MLSGroup → Option Bytes → Prop where
  | create {groupId sigKey kemKey initKey self} :
      MLSGroup.create C groupId sigKey kemKey initKey = .ok self → Traced C Calls self none
  | join {call self o} : JoinCall.FromWire call → JoinCall.run C call = .ok self →
      openWelcome C call.welcome call.kemKey call.pskList = .ok o →
      Traced C Calls self (some o.info.groupContext.confirmedTranscriptHash)
  | commit {self last coins p committed transcript} : Traced C Calls self last →
      Calls self (Proposal.transition coins p) → p.commit C self coins = .ok committed →
      self.nextTranscript C committed.update = .ok transcript →
      Traced C Calls committed.next (some transcript)
  | process {self last next update transcript} : Traced C Calls self last →
      Calls self (.processUpdate update) → processUpdateBody C self update = .ok next →
      self.nextTranscript C update = .ok transcript → Traced C Calls next (some transcript)
  | reload {self last next} : Traced C Calls self last → Calls self .reload →
      Transition.run C self .reload = .ok next → Traced C Calls next last
  | touched {self last next} : Traced C Calls self last → Touched C self next →
      Traced C Calls next last

/-- A reload only where the joiner secret has the size that the dump gives it. -/
def Transition.Lossless (self : MLSGroup) (transition : Transition) : Prop :=
  transition.FromWire ∧ (transition = .reload → self.state.keySchedule.joinerSecret.length = 32)

theorem Proposal.run_transition {self : MLSGroup} {coins : CommitCoins} {p : Proposal}
    {committed : Committed} (h : p.commit C self coins = .ok committed) :
    (p.transition coins).run C self = .ok committed.next := by
  cases p with
  | addMember kp =>
      simp only [commit, Py.bind_eq_ok, Py.pure_eq, Except.ok.injEq] at h
      obtain ⟨result, hadd, rfl⟩ := h
      simp only [transition, Transition.run, hadd, Py.map_ok]
  | removeMember target =>
      simp only [commit, Py.bind_eq_ok, Py.pure_eq, Except.ok.injEq] at h
      obtain ⟨result, hremove, rfl⟩ := h
      simp only [transition, Transition.run, hremove, Py.map_ok]
  | updateKey =>
      simp only [commit, Py.bind_eq_ok, Py.pure_eq, Except.ok.injEq] at h
      obtain ⟨result, hupdate, rfl⟩ := h
      simp only [transition, Transition.run, hupdate, Py.map_ok]

theorem Traced.reachedBy {self : MLSGroup} {last : Option Bytes} (h : Traced C Calls self last) :
    ReachedBy C JoinCall.FromWire Calls self := by
  induction h with
  | create hok => exact .create hok
  | join hcall hok _ => exact .join hcall hok
  | commit _ hcalls hcommit _ ih => exact .next ih hcalls (Proposal.run_transition hcommit)
  | process _ hcalls hprocess _ ih => exact .next ih hcalls (processUpdate_eq_ok.mpr hprocess)
  | reload _ hcalls hok ih => exact .next ih hcalls hok
  | touched _ htouched ih =>
      cases htouched with
      | left transition => exact .kept transition ih
      | encrypt plaintext => exact .encrypt plaintext ih
      | decrypt payload => exact .decrypt payload ih

namespace Built

variable {sender : MLSGroup} {coins : CommitCoins} {p : Proposal} {committed : Committed}
  (r : Built C sender coins p committed)

theorem receivedContent : sender.receivedContent committed.update =
    .ok ⟨sender.state.groupId, sender.state.epochId, sender.myIndex, [], r.finished.body⟩ := by
  have hbody : committed.update.bodyBytes = .ok r.finished.body := by
    rw [r.update_eq]
    exact r.finished.body_eq
  have hindex : committed.update.committerIndex = sender.myIndex := by
    rw [r.update_eq]
    rfl
  rw [MLSGroup.receivedContent, hbody, hindex]
  rfl

theorem nextTranscript :
    sender.nextTranscript C committed.update = .ok r.finished.transcriptHash := by
  have hsignature : committed.update.signature = r.finished.signature := by rw [r.update_eq]; rfl
  have hframed :
    FramedContent.toBytes ⟨sender.state.groupId, sender.state.epochId, sender.myIndex, [],
      r.finished.body⟩ = .ok r.finished.framedBytes := r.finished.framed_eq
  have hinput : computeConfirmedTranscriptHashInput r.finished.framedBytes r.finished.signature =
      .ok r.finished.confirmedInput := r.finished.confirmedInput_eq
  rw [MLSGroup.nextTranscript, r.receivedContent, Py.ok_bind, hframed, Py.ok_bind, hsignature,
    hinput]
  rfl

/-- What the committer signs is what it would recompute itself. -/
theorem recomputedTbs : recomputedTbs C sender committed.update = .ok r.finished.tbs := by
  have hctx : makeGroupContext C sender.state.groupId sender.state.epochId sender.state.tree
      sender.interimTranscriptHash = .ok r.finished.oldCtx := r.finished.oldCtx_eq
  rw [MLSGroup.recomputedTbs, r.receivedContent, Py.ok_bind, hctx, Py.ok_bind]
  exact r.finished.tbs_eq

end Built

/-- What a handle that processed a commit is, with the values that were checked on the way. -/
theorem MLSGroup.processUpdateBody_accepted {self next : MLSGroup} {update : GroupUpdate}
    (h : processUpdateBody C self update = .ok next) :
    ∃ commitSecret transcript ctx ctxBytes ks,
      update.groupId = self.state.groupId ∧ update.epochId = self.state.epochId + 1 ∧
      openCommitSecret C self update = .ok commitSecret ∧
      self.nextTranscript C update = .ok transcript ∧
      makeGroupContext C self.state.groupId update.epochId update.tree transcript = .ok ctx ∧
      ctx.toBytes = .ok ctxBytes ∧
      KeySchedule.derive C self.state.keySchedule.initSecret commitSecret ctxBytes [] = .ok ks ∧
      next = init ⟨self.state.groupId, self.state.epochId + 1, update.tree, ks⟩ self.myIndex
        self.mySigKey self.myKemKey
        (computeInterimTranscriptHash C transcript
          (C.hmacSha256 ks.confirmationKey transcript)) := by
  simp only [processUpdateBody, checkUpdate, EpochState.advanceEpoch, Py.bind_eq_ok,
    Py.require_eq_ok, Py.pure_eq, Except.ok.injEq] at h
  obtain ⟨_, ⟨_, hgroup, _, hepoch, -⟩, _, -, commitSecret, hopen, framed, hframed, framedBytes,
    hbytes, _, -, _, -, confirmedInput, hinput, ctx, hctx, ctxBytes, hctxBytes, confKey, hconf, _,
    -, _, ⟨ks, hks, rfl⟩, rfl⟩ := h
  have htranscript : self.nextTranscript C update = .ok (computeConfirmedTranscriptHash C
      self.interimTranscriptHash confirmedInput) := by
    rw [MLSGroup.nextTranscript, hframed, Py.ok_bind, hbytes, Py.ok_bind, hinput]
    rfl
  have hkey : ks.confirmationKey = confKey := by
    obtain ⟨⟨epochSecret, joinerSecret⟩, hsecrets, hschedule⟩ := Py.bind_eq_ok.mp hks
    rw [KeySchedule.deriveConfirmationKey, hsecrets, Py.ok_bind] at hconf
    exact Except.ok.inj ((KeySchedule.fromEpochSecret_eq_ok hschedule).2.2.1.symm.trans hconf)
  subst hkey
  exact ⟨commitSecret, _, ctx, ctxBytes, ks, hgroup, hepoch, hopen, htranscript, hctx, hctxBytes,
    hks, rfl⟩

/-! ## Calls that stay in the epoch -/

theorem agrees_of_core {self next : MLSGroup} (h : next.core = self.core) : Agrees next self := by
  have hstate : next.state = self.state := congrArg (·.state) h
  have hinterim : next.interimTranscriptHash = self.interimTranscriptHash :=
    congrArg (·.interimTranscriptHash) h
  exact ⟨by rw [hstate], by rw [hstate], by rw [hstate], by rw [hstate], hinterim⟩

theorem ReachedBy.mono {Joins Joins' : JoinCall → Prop}
    {Calls Calls' : MLSGroup → Transition → Prop} (hjoins : ∀ call, Joins call → Joins' call)
    (hcalls : ∀ self transition, Calls self transition → Calls' self transition) {self : MLSGroup}
    (h : ReachedBy C Joins Calls self) : ReachedBy C Joins' Calls' self := by
  induction h with
  | create hok => exact .create hok
  | join hcall hok => exact .join (hjoins _ hcall) hok
  | next _ hcall hok ih => exact .next ih (hcalls _ _ hcall) hok
  | kept transition _ ih => exact .kept transition ih
  | encrypt plaintext _ ih => exact .encrypt plaintext ih
  | decrypt payload _ ih => exact .decrypt payload ih

theorem Traced.reached {self : MLSGroup} {last : Option Bytes}
    (h : Traced C Transition.Lossless self last) : Reached C self :=
  h.reachedBy.mono (fun _ hcall => hcall) fun _ _ hcall => hcall.1

/-- A reload of a whole key schedule gives the member back in the same state. -/
theorem reload_agrees (hC : C.Correct) {self next : MLSGroup} {last : Option Bytes}
    (hself : Traced C Transition.Lossless self last) (hcall : Transition.reload.Lossless self)
    (h : Transition.run C self .reload = .ok next) : Agrees next self := by
  obtain ⟨data, hdump, hload⟩ := Py.bind_eq_ok.mp h
  have honwire : self.state.tree.OnWire := hself.reached.onWire (fun _ hc => hc) (fun _ _ hc => hc)
  obtain ⟨restored, hload', -, heq⟩ := fromBytes_toBytes hdump honwire
    (secrets_of_joiner (hself.reached.wellSized hC) (hcall.2 rfl))
  obtain rfl := Except.ok.inj (hload.symm.trans hload')
  rw [heq]
  exact ⟨rfl, rfl, canon_canon _, rfl, rfl⟩

/-- Every handle of a run has a transcript. -/
theorem ReachedBy.traced {self : MLSGroup} (h : ReachedBy C JoinCall.FromWire Calls self) :
    ∃ last, Traced C Calls self last := by
  induction h with
  | create hok => exact ⟨none, .create hok⟩
  | join hcall hok =>
      obtain ⟨o, _, _, _, _, _, ho, -⟩ := join_eq_ok hok
      exact ⟨_, .join hcall hok ho⟩
  | next _ hcalls hok ih =>
      obtain ⟨last, htraced⟩ := ih
      rcases Transition.run_cases hok with ⟨coins, p, committed, rfl, hcommit, rfl⟩ | ⟨update, rfl,
        hprocess⟩ | rfl
      · obtain ⟨r⟩ := Proposal.commit_eq_ok hcommit
        exact ⟨_, .commit htraced hcalls hcommit r.nextTranscript⟩
      · obtain ⟨_, transcript, _, _, _, -, -, -, htranscript, -⟩ :=
          processUpdateBody_accepted hprocess
        exact ⟨_, .process htraced hcalls hprocess htranscript⟩
      · exact ⟨last, .reload htraced hcalls hok⟩
  | kept transition _ ih =>
      obtain ⟨last, htraced⟩ := ih
      exact ⟨last, .touched htraced (.left transition)⟩
  | encrypt plaintext _ ih =>
      obtain ⟨last, htraced⟩ := ih
      exact ⟨last, .touched htraced (.encrypt plaintext)⟩
  | decrypt payload _ ih =>
      obtain ⟨last, htraced⟩ := ih
      exact ⟨last, .touched htraced (.decrypt payload)⟩

/-! ## What the interim transcript hash goes back to -/

/-- At the start the group context determines the key schedule; afterwards the tag in the interim
transcript hash is made with a key of the epoch. -/
def Rooted (C : Crypto) (self : MLSGroup) : Option Bytes → Prop
  | none => self.interimTranscriptHash = [] ∧ self.state.epochId = 0 ∧ ∃ ctx ctxBytes,
      makeGroupContext C self.state.groupId 0 self.state.tree [] = .ok ctx ∧
      ctx.toBytes = .ok ctxBytes ∧
      KeySchedule.derive C zeros32 zeros32 ctxBytes [] = .ok self.state.keySchedule
  | some transcript =>
      KeySchedule.fromEpochSecret C self.state.keySchedule.epochSecret
        self.state.keySchedule.joinerSecret = .ok self.state.keySchedule ∧
      self.interimTranscriptHash = computeInterimTranscriptHash C transcript
        (C.hmacSha256 self.state.keySchedule.confirmationKey transcript)

theorem KeySchedule.fromEpochSecret_self {epochSecret joinerSecret : Bytes} {ks : KeySchedule}
    (h : KeySchedule.fromEpochSecret C epochSecret joinerSecret = .ok ks) :
    KeySchedule.fromEpochSecret C ks.epochSecret ks.joinerSecret = .ok ks := by
  obtain ⟨hjoiner, hepoch, -⟩ := fromEpochSecret_eq_ok h
  rwa [hjoiner, hepoch]

theorem KeySchedule.derive_self {initSecret commitSecret ctx : Bytes}
    {pskList : List (PreSharedKeyID × Bytes)} {ks : KeySchedule}
    (h : KeySchedule.derive C initSecret commitSecret ctx pskList = .ok ks) :
    KeySchedule.fromEpochSecret C ks.epochSecret ks.joinerSecret = .ok ks := by
  obtain ⟨_, -, hks⟩ := Py.bind_eq_ok.mp h
  exact fromEpochSecret_self hks

namespace Rooted

variable {self next : MLSGroup} {last : Option Bytes}

theorem congr (h : Rooted C self last) (hsame : Agrees next self) : Rooted C next last := by
  cases last with
  | none =>
      obtain ⟨hinterim, hepoch, ctx, ctxBytes, hctx, hctxBytes, hks⟩ := h
      refine ⟨hsame.interim.trans hinterim, hsame.epochId.trans hepoch, ctx, ctxBytes, ?_,
        hctxBytes, ?_⟩
      · rw [hsame.groupId, makeGroupContext_congr hsame.tree]
        exact hctx
      · rw [hsame.keySchedule]
        exact hks
  | some transcript =>
      obtain ⟨hks, hinterim⟩ := h
      rw [Rooted, hsame.keySchedule, hsame.interim]
      exact ⟨hks, hinterim⟩

theorem create {groupId : Bytes} {sigKey : SignatureKey} {kemKey initKey : KemKey}
    (h : MLSGroup.create C groupId sigKey kemKey initKey = .ok self) : Rooted C self none := by
  simp only [MLSGroup.create, EpochState.genesis, Py.bind_eq_ok, Py.pure_eq, Except.ok.injEq] at h
  obtain ⟨_, -, tree, -, ctx, hctx, ctxBytes, hctxBytes, _, ⟨ks, hks, rfl⟩, rfl⟩ := h
  exact ⟨rfl, rfl, ctx, ctxBytes, hctx, hctxBytes, hks⟩

theorem join {call : JoinCall} {o : Opening} (h : call.run C = .ok self)
    (ho : openWelcome C call.welcome call.kemKey call.pskList = .ok o) :
    Rooted C self (some o.info.groupContext.confirmedTranscriptHash) := by
  obtain ⟨o', _, _, _, _, ks, ho', -, -, -, -, -, hks, htag, rfl⟩ := join_eq_ok h
  obtain rfl := Except.ok.inj (ho.symm.trans ho')
  refine ⟨KeySchedule.fromEpochSecret_self hks, ?_⟩
  change computeInterimTranscriptHash C _ o.info.confirmationTag = _
  rw [← htag]
  rfl

theorem commit {sender : MLSGroup} {coins : CommitCoins} {p : Proposal} {committed : Committed}
    (r : Built C sender coins p committed) :
    Rooted C committed.next (some r.finished.transcriptHash) := by
  obtain ⟨_, _, ks, -, hks, hnext⟩ := EpochState.advanceEpoch_eq_ok r.finished.nextState_eq
  refine ⟨?_, ?_⟩
  · rw [r.next_state, hnext]
    exact KeySchedule.fromEpochSecret_self hks
  · rw [r.next_interim, r.next_state, r.finished.confKey_nextState]
    rfl

/-- Handles of runs that reload only whole key schedules are rooted in their transcript. -/
theorem of_traced (hC : C.Correct) (h : Traced C Transition.Lossless self last) :
    Rooted C self last := by
  induction h with
  | create hok => exact create hok
  | join _ hok ho => exact join hok ho
  | commit _ _ hcommit htranscript _ =>
      obtain ⟨r⟩ := Proposal.commit_eq_ok hcommit
      obtain rfl := Except.ok.inj (r.nextTranscript.symm.trans htranscript)
      exact commit r
  | process _ _ hprocess htranscript _ =>
      obtain ⟨_, _, _, _, ks, -, -, -, htranscript', -, -, hks, rfl⟩ :=
        processUpdateBody_accepted hprocess
      obtain rfl := Except.ok.inj (htranscript.symm.trans htranscript')
      exact ⟨KeySchedule.derive_self hks, rfl⟩
  | reload hself hcalls hok ih => exact ih.congr (reload_agrees hC hself hcalls hok)
  | touched _ htouched ih => exact ih.congr (agrees_of_core htouched.core_eq)

end Rooted

/-- What SHA-256 makes the interim transcript hash of. -/
def MLSGroup.interimInputs (C : Crypto) (self : MLSGroup) : Option Bytes → List Bytes
  | none => []
  | some transcript =>
      [transcript ++ C.hmacSha256 self.state.keySchedule.confirmationKey transcript]

/-- The HMAC calls between the epoch secret and the interim transcript hash. -/
def MLSGroup.interimCalls (self : MLSGroup) : Option Bytes → List (Bytes × Bytes)
  | none => []
  | some transcript => [expandCall self.state.keySchedule.epochSecret "confirm" [],
      (self.state.keySchedule.confirmationKey, transcript)]

/-- Members of one epoch of one group whose interim transcript hashes agree have one init secret. -/
theorem Rooted.initSecret_eq (hC : C.Correct) {self other : MLSGroup} {last last' : Option Bytes}
    (h : Rooted C self last) (h' : Rooted C other last')
    (hgroup : self.state.groupId = other.state.groupId)
    (htree : self.state.tree.treeHash C = other.state.tree.treeHash C)
    (hinterim : self.interimTranscriptHash = other.interimTranscriptHash)
    (hhash : ∀ a ∈ self.interimInputs C last, ∀ b ∈ other.interimInputs C last',
      C.sha256 a = C.sha256 b → a = b)
    (hmac : C.HmacInjectiveOn (self.interimCalls last ++ other.interimCalls last')) :
    self.state.keySchedule.initSecret = other.state.keySchedule.initSecret := by
  have hsize : ∀ confirmed tag, computeInterimTranscriptHash C confirmed tag ≠ [] := by
    intro confirmed tag hnil
    have hlen := hC.sha256_size (confirmed ++ tag)
    rw [show C.sha256 (confirmed ++ tag) = [] from hnil] at hlen
    cases hlen
  cases last with
  | none =>
      obtain ⟨hempty, -, ctx, ctxBytes, hctx, hctxBytes, hks⟩ := h
      cases last' with
      | none =>
          -- both are in the first epoch: the context determines everything
          obtain ⟨-, -, ctx', ctxBytes', hctx', hctxBytes', hks'⟩ := h'
          rw [makeGroupContext, hgroup, htree] at hctx
          obtain rfl := Except.ok.inj (hctx.symm.trans hctx')
          obtain rfl := Except.ok.inj (hctxBytes.symm.trans hctxBytes')
          rw [Except.ok.inj (hks.symm.trans hks')]
      | some transcript' => exact absurd (h'.2.symm.trans (hinterim.symm.trans hempty)) (hsize _ _)
  | some transcript =>
      obtain ⟨hks, hroot⟩ := h
      cases last' with
      | none => exact absurd (hroot.symm.trans (hinterim.trans h'.1)) (hsize _ _)
      | some transcript' =>
          obtain ⟨hks', hroot'⟩ := h'
          obtain ⟨-, -, hconf, hinit⟩ := KeySchedule.fromEpochSecret_eq_ok hks
          obtain ⟨-, -, hconf', hinit'⟩ := KeySchedule.fromEpochSecret_eq_ok hks'
          have hinput := hhash _ List.mem_cons_self _ List.mem_cons_self
            (hroot.symm.trans (hinterim.trans hroot'))
          have htag := (List.append_inj' hinput (by rw [hC.hmac_size, hC.hmac_size])).2
          have hcall :=
            hmac (self.state.keySchedule.confirmationKey, transcript) (by simp [interimCalls])
            (other.state.keySchedule.confirmationKey, transcript') (by simp [interimCalls]) htag
          have hkey := congrArg Prod.fst hcall
          simp only at hkey
          rw [← hkey] at hconf'
          have hepoch :=
            expandWithLabel_inj hC hmac (by simp [interimCalls]) (by simp [interimCalls])
            hconf hconf'
          rw [← hepoch] at hinit'
          exact Except.ok.inj (hinit.symm.trans hinit')

end PureMls
