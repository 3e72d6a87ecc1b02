import PureMls.Verification.Assumptions
import PureMls.Verification.Handles

/-! # Consumed key packages along a chain of handles -/

namespace PureMls

namespace Transition

/-- A transition that keeps what was consumed: any but `process_update`, and that one from a
handle that has consumed nothing. -/
def KeepsConsumed (self : MLSGroup) : Transition → Prop
  | processUpdate _ => self.consumedKeyPackages = []
  | _ => True

end Transition

/-- Handles of one member, each obtained from the one before. -/
inductive Chain (C : Crypto) : MLSGroup → List (MLSGroup × Transition) → MLSGroup → Prop where
  | nil (self) : Chain C self [] self
  | cons {self next last transition rest} : transition.run C self = .ok next →
      Chain C next rest last → Chain C self ((self, transition) :: rest) last

/-- The handles of a chain in order. -/
def handles (trace : List (MLSGroup × Transition)) (last : MLSGroup) : List MLSGroup :=
  trace.map Prod.fst ++ [last]

namespace Transition

variable {C : Crypto} {self next : MLSGroup}

theorem addMember_consumed {coins : CommitCoins} {kp : KeyPackage}
    (h : (addMember coins kp).run C self = .ok next) :
    ∃ ref, makeKpRef C kp = .ok ref ∧ ref ∉ self.consumedKeyPackages ∧
      next.consumedKeyPackages = self.consumedKeyPackages.insert ref := by
  obtain ⟨⟨_, welcome, update⟩, hadd, rfl⟩ := Py.map_eq_ok.mp h
  obtain ⟨ref, href, hnew, hbody⟩ := MLSGroup.addMember_eq_ok.mp hadd
  obtain ⟨newTree, commit, -, -, -, -, rfl, -⟩ := MLSGroup.addMemberBody_eq_ok.mp hbody
  exact ⟨ref, href, hnew, rfl⟩

theorem removeMember_consumed {coins : CommitCoins} {target : ℤ}
    (h : (removeMember coins target).run C self = .ok next) :
    next.consumedKeyPackages = self.consumedKeyPackages := by
  obtain ⟨⟨_, update⟩, hremove, rfl⟩ := Py.map_eq_ok.mp h
  obtain ⟨newTree, commit, -, -, -, -, rfl, -⟩ :=
    MLSGroup.removeMemberBody_eq_ok.mp (MLSGroup.removeMember_eq_ok.mp hremove)
  rfl

theorem updateKey_consumed {coins : CommitCoins} (h : (updateKey coins).run C self = .ok next) :
    next.consumedKeyPackages = self.consumedKeyPackages := by
  obtain ⟨⟨_, update⟩, hupdate, rfl⟩ := Py.map_eq_ok.mp h
  obtain ⟨newTree, commit, -, -, rfl, -⟩ :=
    MLSGroup.updateKeyBody_eq_ok.mp (MLSGroup.updateKey_eq_ok.mp hupdate)
  rfl

theorem processUpdate_consumed {update : GroupUpdate}
    (h : (processUpdate update).run C self = .ok next) : next.consumedKeyPackages = [] := by
  have hbody := MLSGroup.processUpdate_eq_ok.mp h
  simp only [MLSGroup.processUpdateBody, Py.bind_eq_ok, Py.pure_eq, Except.ok.injEq] at hbody
  obtain ⟨_, -, _, -, _, -, _, -, _, -, _, -, _, -, _, -, _, -, _, -, _, -, _, -, _, -, rfl⟩ :=
    hbody
  rfl

theorem reload_consumed (h : reload.run C self = .ok next) (ref : Bytes) :
    ref ∈ next.consumedKeyPackages ↔ ref ∈ self.consumedKeyPackages := by
  simp only [run, Py.bind_eq_ok] at h
  obtain ⟨data, hdump, hload⟩ := h
  obtain ⟨_, _, -, -, -, hmem⟩ := MLSGroup.reload_eq_ok hdump hload
  exact hmem ref

/-- One transition loses nothing exactly when it is of the keeping kind. -/
theorem consumed_subset_iff {transition : Transition} (h : transition.run C self = .ok next) :
    self.consumedKeyPackages ⊆ next.consumedKeyPackages ↔ transition.KeepsConsumed self := by
  cases transition with
  | addMember coins kp =>
      obtain ⟨ref, -, -, hnext⟩ := addMember_consumed h
      refine iff_of_true (fun r hr => ?_) trivial
      rw [hnext, List.mem_insert_iff]
      exact .inr hr
  | removeMember coins target =>
      exact iff_of_true (by rw [removeMember_consumed h]; exact fun _ hr => hr) trivial
  | updateKey coins =>
      exact iff_of_true (by rw [updateKey_consumed h]; exact fun _ hr => hr) trivial
  | processUpdate update =>
      rw [processUpdate_consumed h]
      exact List.subset_nil
  | reload => exact iff_of_true (fun r hr => (reload_consumed h r).mpr hr) trivial

end Transition

namespace Chain

variable {C : Crypto} {self last : MLSGroup} {trace : List (MLSGroup × Transition)}

/-- A chain is a chain up to any of its transitions and one from there on. -/
theorem split {earlier later : List (MLSGroup × Transition)} {handle : MLSGroup}
    {transition : Transition} (h : Chain C self (earlier ++ (handle, transition) :: later) last) :
    ∃ next, transition.run C handle = .ok next ∧ Chain C next later last := by
  induction earlier generalizing self with
  | nil =>
      cases h with
      | cons hrun hrest => exact ⟨_, hrun, hrest⟩
  | cons step earlier ih =>
      cases h with
      | cons hrun hrest => exact ih hrest

/-- Along a chain of keeping transitions everything consumed at the start stays consumed. -/
theorem consumed_subset (h : Chain C self trace last)
    (hkeep : ∀ step ∈ trace, step.2.KeepsConsumed step.1) :
    ∀ later ∈ handles trace last, self.consumedKeyPackages ⊆ later.consumedKeyPackages := by
  induction h with
  | nil self =>
      intro later hlater
      rw [List.mem_singleton.mp hlater]
      exact fun _ hr => hr
  | @cons self next last transition rest hrun hrest ih =>
      intro later hlater
      rcases List.mem_cons.mp hlater with rfl | hlater
      · exact fun _ hr => hr
      · have hstep := (Transition.consumed_subset_iff hrun).mpr
          (hkeep (self, transition) List.mem_cons_self)
        have htail := ih (fun step hs => hkeep step (List.mem_cons_of_mem _ hs)) later hlater
        exact fun r hr => htail (hstep hr)

/-- A later `add_member` of a key package whose reference is consumed is refused. -/
theorem addMember_replayed {later : MLSGroup} {kp : KeyPackage} {ref : Bytes}
    (href : makeKpRef C kp = .ok ref) (hmem : ref ∈ later.consumedKeyPackages)
    (coins : CommitCoins) :
    later.addMember C coins kp = (later, .error (.valueError
      "KeyPackage Replay: This KeyPackage has already been used in this instance.")) := by
  simp [MLSGroup.addMember, href, hmem]

end Chain

/-- The consumed set never loses an element along the chain. -/
def NeverLosesConsumed (trace : List (MLSGroup × Transition)) (last : MLSGroup) : Prop :=
  (handles trace last).Pairwise fun a b => a.consumedKeyPackages ⊆ b.consumedKeyPackages

/-- A key package accepted by an `add_member` of the chain is refused by every later one. -/
def RefusesReplays (C : Crypto) (trace : List (MLSGroup × Transition)) (last : MLSGroup) : Prop :=
  ∀ earlier later coins kp self, trace = earlier ++ (self, .addMember coins kp) :: later →
    ∀ handle ∈ handles later last, ∀ coins', handle.addMember C coins' kp =
      (handle, .error (.valueError
        "KeyPackage Replay: This KeyPackage has already been used in this instance."))

namespace Chain

variable {C : Crypto} {self last : MLSGroup} {trace : List (MLSGroup × Transition)}

theorem neverLoses_of_keeps (h : Chain C self trace last)
    (hkeep : ∀ step ∈ trace, step.2.KeepsConsumed step.1) : NeverLosesConsumed trace last := by
  induction h with
  | nil self => exact List.pairwise_singleton _ _
  | @cons self next last transition rest hrun hrest ih =>
      have hall := (Chain.cons hrun hrest).consumed_subset hkeep
      refine List.pairwise_cons.mpr ⟨fun later hlater => hall later (List.mem_cons_of_mem _ hlater),
        ih fun step hs => hkeep step (List.mem_cons_of_mem _ hs)⟩

theorem keeps_of_neverLoses (h : Chain C self trace last)
    (hnever : NeverLosesConsumed trace last) : ∀ step ∈ trace, step.2.KeepsConsumed step.1 := by
  intro step hstep
  obtain ⟨handle, transition⟩ := step
  obtain ⟨earlier, later, rfl⟩ := List.append_of_mem hstep
  obtain ⟨next, hrun, hrest⟩ := h.split
  have hnext : next ∈ handles later last := by
    cases hrest with
    | nil => exact List.mem_singleton_self _
    | cons => exact List.mem_cons_self
  have hpair : handle.consumedKeyPackages ⊆ next.consumedKeyPackages := by
    have hsplit : handles (earlier ++ (handle, transition) :: later) last =
        earlier.map Prod.fst ++ handle :: handles later last := by
      simp [handles]
    rw [NeverLosesConsumed, hsplit, List.pairwise_append] at hnever
    exact (List.pairwise_cons.mp hnever.2.1).1 next hnext
  exact (Transition.consumed_subset_iff hrun).mp hpair

theorem refuses_of_keeps (h : Chain C self trace last)
    (hkeep : ∀ step ∈ trace, step.2.KeepsConsumed step.1) : RefusesReplays C trace last := by
  intro earlier later coins kp handle htrace final hfinal coins'
  subst htrace
  obtain ⟨next, hrun, hrest⟩ := h.split
  obtain ⟨ref, href, -, hconsumed⟩ := Transition.addMember_consumed hrun
  have hsubset := hrest.consumed_subset (fun step hs => hkeep step (by simp [hs])) final hfinal
  refine addMember_replayed href (hsubset ?_) coins'
  rw [hconsumed, List.mem_insert_iff]
  exact .inl rfl

end Chain

/-- The consumed key packages survive a chain, and replays along it are refused, exactly when
every `process_update` of the chain is called on a handle that has consumed none. -/
theorem replay_protection_iff {C : Crypto} {self last : MLSGroup}
    {trace : List (MLSGroup × Transition)} (h : Chain C self trace last) :
    NeverLosesConsumed trace last ∧ RefusesReplays C trace last ↔
      ∀ handle update, (handle, Transition.processUpdate update) ∈ trace →
        handle.consumedKeyPackages = [] := by
  constructor
  · intro hboth handle update hmem
    exact h.keeps_of_neverLoses hboth.1 _ hmem
  · intro hcond
    have hkeep : ∀ step ∈ trace, step.2.KeepsConsumed step.1 := by
      rintro ⟨handle, transition⟩ hmem
      cases transition with
      | processUpdate update => exact hcond handle update hmem
      | _ => trivial
    exact ⟨h.neverLoses_of_keeps hkeep, h.refuses_of_keeps hkeep⟩

namespace Sample

/-- Bob joins, follows Alice's update, adds Carol, restarts from a dump and updates his key. -/
structure Endurance where
  carolPackage : KeyPackage
  update : GroupUpdate
  joined : MLSGroup
  followed : MLSGroup
  added : MLSGroup
  reloaded : MLSGroup
  last : MLSGroup

def Endurance.trace (r : Endurance) : List (MLSGroup × Transition) :=
  [(r.joined, .processUpdate r.update), (r.followed, .addMember (coins 60) r.carolPackage),
    (r.added, .reload), (r.reloaded, .updateKey (coins 120))]

def endurance : Py Endurance := do
  let bobPackage ← keyPackage 20
  let carolPackage ← keyPackage 21
  let alice ← MLSGroup.create crypto (ascii "g") (sig 1) (kem 1) (kem 2)
  let (added, welcome, _) ← (alice.addMember crypto (coins 40) bobPackage).2
  let joined ← MLSGroup.join crypto welcome (sig 20) (kem 20) [] none
  let (_, update) ← (added.updateKey crypto (coins 80)).2
  let followed ← Transition.run crypto joined (.processUpdate update)
  let addedCarol ← Transition.run crypto followed (.addMember (coins 60) carolPackage)
  let reloaded ← Transition.run crypto addedCarol .reload
  let last ← Transition.run crypto reloaded (.updateKey (coins 120))
  expect (joined.consumedKeyPackages = [] ∧ last.consumedKeyPackages ≠ [])
  pure ⟨carolPackage, update, joined, followed, addedCarol, reloaded, last⟩

theorem endurance_ok : ∃ r, endurance = .ok r := Py.ok_of_isOk (by decide +kernel)

end Sample

open Sample in
/-- Bob's chain of a followed commit, an add, a restart and an update keeps Carol's key package
consumed. -/
theorem replay_protection_bob :
    ∃ r : Endurance, Chain crypto r.joined r.trace r.last ∧ r.last.consumedKeyPackages ≠ [] ∧
      NeverLosesConsumed r.trace r.last ∧ RefusesReplays crypto r.trace r.last := by
  obtain ⟨_, hrun⟩ := endurance_ok
  simp only [endurance, expect, Py.bind_eq_ok, Py.require_eq_ok] at hrun
  obtain ⟨_, -, kp, -, _, -, ⟨_, _, _⟩, -, joined, -, ⟨_, update⟩, -, followed, hfollow, added,
    hadd, reloaded, hreload, last, hupdate, _, ⟨hempty, hconsumed⟩, -⟩ := hrun
  have hchain : Chain crypto joined _ last :=
    .cons hfollow (.cons hadd (.cons hreload (.cons hupdate (.nil last))))
  refine ⟨⟨kp, update, joined, followed, added, reloaded, last⟩, hchain, hconsumed,
    (replay_protection_iff hchain).mpr ?_⟩
  intro handle update' hmem
  simp only [List.mem_cons, Prod.mk.injEq, reduceCtorEq, and_false, List.not_mem_nil,
    or_false] at hmem
  rw [hmem.1, hempty]

/-- Alice adds Bob and then processes Bob's commit: Bob's key package is no longer consumed. -/
theorem replay_protection_lost :
    ∃ self last trace, Chain Sample.crypto self trace last ∧
      ¬ NeverLosesConsumed trace last := by
  obtain ⟨r, hrun⟩ := Sample.run_ok
  simp only [Sample.run, Py.bind_eq_ok] at hrun
  obtain ⟨kp, -, _, -, alice, -, ⟨added, welcome, _⟩, hadd, bob, -, ⟨_, _, update⟩, -, processed,
    hprocess, -⟩ := hrun
  have hfirst : Transition.run Sample.crypto alice (.addMember (Sample.coins 40) kp) = .ok added :=
    Py.map_eq_ok.mpr ⟨_, hadd, rfl⟩
  have hsecond : Transition.run Sample.crypto added (.processUpdate update) = .ok processed :=
    hprocess
  obtain ⟨ref, -, -, hadded⟩ := Transition.addMember_consumed hfirst
  have hlost := Transition.processUpdate_consumed hsecond
  refine ⟨alice, processed, _, .cons hfirst (.cons hsecond (.nil _)), fun hnever => ?_⟩
  have hsubset := (List.pairwise_cons.mp (List.pairwise_cons.mp hnever).2).1 processed (by simp)
  have hmem : ref ∈ added.consumedKeyPackages := by simp [hadded]
  have hgone := hsubset hmem
  rw [hlost] at hgone
  exact List.not_mem_nil hgone

end PureMls
