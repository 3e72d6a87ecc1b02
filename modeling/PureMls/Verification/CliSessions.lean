import PureMls.Verification.Asynchrony
import PureMls.Verification.CliFiles
import PureMls.Verification.Dialects
import PureMls.Verification.Transport

/-! # Sessions on the command line

Between two commands a member is nothing but its state file. Commands on state files are steps of
the handles that these files hold. -/

namespace PureMls

open RatchetTree MLSGroup Effectful Command

variable {C : Crypto}

/-! ## What the commands that return have done -/

namespace Command

section Reading

variable {α β : Type} {path : String} {disk : Disk} {ops : List FileOp} {b : β}

theorem call_bind_eq_ok {x : Py α} {f : α → Command β} :
    (call x >>= f) disk = (.ok b, ops) ↔ ∃ a, x = .ok a ∧ f a disk = (.ok b, ops) := by
  rw [call, look_bind_eq_ok]
  cases x <;> simp [Except.mapError]

theorem readFile_bind_eq_ok {f : Bytes → Command β} :
    (readFile path >>= f) disk = (.ok b, ops) ↔
      ∃ file, disk.files path = some file ∧ f file.contents disk = (.ok b, ops) := by
  rw [readFile, look_bind_eq_ok]
  cases disk.files path <;> simp

theorem readGroup_bind_eq_ok {f : MLSGroup → Command β} :
    (Cli.readGroup path >>= f) disk = (.ok b, ops) ↔ ∃ file group, disk.files path = some file ∧
      MLSGroup.fromBytes file.contents = .ok group ∧ f group disk = (.ok b, ops) := by
  rw [Cli.readGroup, Effectful.bind_assoc, readFile_bind_eq_ok]
  simp only [call_bind_eq_ok, exists_and_left]

/-- The two keys in the file. -/
theorem readKeys_bind_eq_ok {f : SignatureKey × KemKey → Command β} :
    (Cli.readKeys path >>= f) disk = (.ok b, ops) ↔
    ∃ file sigKey kemKey, disk.files path = some file ∧
      SignatureKey.fromPrivateBytes (slice file.contents 0 32) = .ok sigKey ∧
      KemKey.fromPrivateBytes (slice file.contents 32 64) = .ok kemKey ∧
      f (sigKey, kemKey) disk = (.ok b, ops) := by
  have hpure : ∀ keys : SignatureKey × KemKey, (pure keys : Command _) >>= f = f keys :=
    fun _ => rfl
  simp only [Cli.readKeys, Effectful.bind_assoc, readFile_bind_eq_ok, call_bind_eq_ok, hpure,
    exists_and_left]

end Reading

/-- What `writeGroup` leaves, whatever public files come after it. -/
theorem writeGroup_eq_ok {path : String} {group : MLSGroup} {disk : Disk} {u : Unit}
    {ops : List FileOp} : Cli.writeGroup path group disk = (.ok u, ops) ↔
      ∃ data, group.toBytes = .ok data ∧ ops = secretOps path data := by
  have hsecret : ∀ data, writeSecret path data disk = (.ok u, ops) ↔ ops = secretOps path data := by
    intro data
    change ((.ok u, secretOps path data) : Except Exit Unit × List FileOp) = (.ok u, ops) ↔ _
    simp [eq_comm]
  simp only [Cli.writeGroup, call_bind_eq_ok, hsecret]

end Command

namespace CommandLine

/-- The command reads the handle at a path and commits a proposal. -/
inductive Commits (disk : Disk) : CommandLine → String → Proposal → CommitCoins → Prop where
  | addMember {groupState inviteePub outWelcome outCommit outState coins pub kp next} :
      disk.files inviteePub = some pub → KeyPackage.fromBytesAt pub.contents 0 = .ok (kp, next) →
      Commits disk (.addMember groupState inviteePub outWelcome outCommit outState coins) groupState
        (.addMember kp) coins
  | removeMember {groupState leafIndex outCommit outState coins} :
      Commits disk (.removeMember groupState leafIndex outCommit outState coins) groupState
        (.removeMember leafIndex) coins
  | updateKey {groupState outCommit outState coins} :
      Commits disk (.updateKey groupState outCommit outState coins) groupState .updateKey coins

variable {line : CommandLine} {groupState : String} {p : Proposal} {coins : CommitCoins}
  {disk : Disk} {ops : List FileOp} {u : Unit}

/-- The operations of a command that leaves a handle in its secret file. -/
def Leaves (line : CommandLine) (ops : List FileOp) (next : MLSGroup) : Prop :=
  ∃ data rest, next.toBytes = .ok data ∧ ops = secretOps line.secretOutput data ++ rest ∧
    ∀ op ∈ rest, op.path ∈ line.publicOutputs

theorem leaves_of_writeGroup {rest : Command Unit} {next : MLSGroup}
    (hrest : rest.Emits fun op => op.path ∈ line.publicOutputs)
    (h : (do Cli.writeGroup line.secretOutput next; rest : Command Unit) disk = (.ok u, ops)) :
    line.Leaves ops next := by
  obtain ⟨_, ops₁, ops₂, hwrite, hops₂, rfl⟩ := Effectful.bind_eq_ok.mp h
  obtain ⟨data, hdata, rfl⟩ := writeGroup_eq_ok.mp hwrite
  have hpublic := hrest (after disk (secretOps line.secretOutput data))
  rw [hops₂] at hpublic
  exact ⟨data, ops₂, hdata, rfl, hpublic⟩

theorem leaves_of_writeGroup_last {next : MLSGroup}
    (h : Cli.writeGroup line.secretOutput next disk = (.ok u, ops)) : line.Leaves ops next := by
  obtain ⟨data, hdata, rfl⟩ := writeGroup_eq_ok.mp h
  exact ⟨data, [], hdata, (List.append_nil _).symm, nofun⟩

theorem Commits.run_eq_ok (h : Commits disk line groupState p coins)
    (hrun : line.run C disk = (.ok u, ops)) : ∃ file group committed,
      disk.files groupState = some file ∧ MLSGroup.fromBytes file.contents = .ok group ∧
      p.commit C group coins = .ok committed ∧ line.Leaves ops committed.next := by
  cases h with
  | addMember hpub hkp =>
      obtain ⟨file, group, hfile, hgroup, hrun⟩ := readGroup_bind_eq_ok.mp hrun
      obtain ⟨pub, hpub', hrun⟩ := readFile_bind_eq_ok.mp hrun
      obtain ⟨⟨kp, _⟩, hkp', hrun⟩ := call_bind_eq_ok.mp hrun
      obtain ⟨⟨next, welcome, commit⟩, hadd, hwrites⟩ := call_bind_eq_ok.mp hrun
      obtain rfl := Option.some.inj (hpub.symm.trans hpub')
      obtain ⟨rfl, -⟩ := Prod.mk.inj (Except.ok.inj (hkp.symm.trans hkp'))
      refine ⟨file, group, ⟨next, commit, some welcome⟩, hfile, hgroup, ?_,
        leaves_of_writeGroup ?_ hwrites⟩
      · simp only [Proposal.commit, hadd, Py.ok_bind, Py.pure_eq]
      · exact Emits.bind (public_emits _ (by simp [publicOutputs])) fun _ =>
          public_emits _ (by simp [publicOutputs])
  | removeMember =>
      obtain ⟨file, group, hfile, hgroup, hrun⟩ := readGroup_bind_eq_ok.mp hrun
      obtain ⟨⟨next, commit⟩, hremove, hrun⟩ := call_bind_eq_ok.mp hrun
      refine ⟨file, group, ⟨next, commit, none⟩, hfile, hgroup, ?_, leaves_of_writeGroup ?_ hrun⟩
      · simp only [Proposal.commit, hremove, Py.ok_bind, Py.pure_eq]
      · exact public_emits _ (by simp [publicOutputs])
  | updateKey =>
      obtain ⟨file, group, hfile, hgroup, hrun⟩ := readGroup_bind_eq_ok.mp hrun
      obtain ⟨⟨next, commit⟩, hupdate, hrun⟩ := call_bind_eq_ok.mp hrun
      refine ⟨file, group, ⟨next, commit, none⟩, hfile, hgroup, ?_, leaves_of_writeGroup ?_ hrun⟩
      · simp only [Proposal.commit, hupdate, Py.ok_bind, Py.pure_eq]
      · exact public_emits _ (by simp [publicOutputs])

theorem createGroup_eq_ok {groupId founderPriv out : String} {initKey : KemKey}
    (hrun : (createGroup groupId founderPriv out initKey).run C disk = (.ok u, ops)) :
    ∃ sigKey kemKey group, MLSGroup.create C (ascii groupId) sigKey kemKey initKey = .ok group ∧
      (createGroup groupId founderPriv out initKey).Leaves ops group := by
  obtain ⟨_, sigKey, kemKey, -, -, -, hrun⟩ := readKeys_bind_eq_ok.mp hrun
  obtain ⟨group, hcreate, hrun⟩ := call_bind_eq_ok.mp hrun
  exact ⟨sigKey, kemKey, group, hcreate, leaves_of_writeGroup_last hrun⟩

theorem joinGroup_eq_ok {welcome myPriv outState : String}
    (hrun : (joinGroup welcome myPriv outState).run C disk = (.ok u, ops)) :
    ∃ keys sigKey kemKey file group, disk.files myPriv = some keys ∧
      KemKey.fromPrivateBytes (slice keys.contents 32 64) = .ok kemKey ∧
      disk.files welcome = some file ∧ joinRaw C file.contents sigKey kemKey = .ok group ∧
      (joinGroup welcome myPriv outState).Leaves ops group := by
  obtain ⟨keys, sigKey, kemKey, hkeys, -, hkem, hrun⟩ := readKeys_bind_eq_ok.mp hrun
  obtain ⟨file, hfile, hrun⟩ := readFile_bind_eq_ok.mp hrun
  obtain ⟨group, hjoin, hrun⟩ := call_bind_eq_ok.mp hrun
  exact ⟨keys, sigKey, kemKey, file, group, hkeys, hkem, hfile, hjoin,
    leaves_of_writeGroup_last hrun⟩

theorem applyCommit_eq_ok {commit : String} {outState : Option String} :
    (applyCommit groupState commit outState).run C disk = (.ok u, ops) ↔
    ∃ file group commitFile update next data, disk.files groupState = some file ∧
      MLSGroup.fromBytes file.contents = .ok group ∧ disk.files commit = some commitFile ∧
      MLSMessage.receive commitFile.contents = .ok update ∧
      (group.processUpdate C update).2 = .ok next ∧ next.toBytes = .ok data ∧
      ops = secretOps (Cli.outPath groupState outState) data := by
  change Cli.applyCommit C groupState commit outState disk = _ ↔ _
  simp only [Cli.applyCommit, readGroup_bind_eq_ok, readFile_bind_eq_ok, call_bind_eq_ok,
    writeGroup_eq_ok, MLSMessage.receive, Py.bind_eq_ok, MLSGroup.applyCommit]
  constructor
  · rintro ⟨file, group, hfile, hgroup, commitFile, hcommit, message, hmessage, update, hupdate,
      next, hnext, data, hdata, hops⟩
    exact ⟨file, group, commitFile, update, next, data, hfile, hgroup, hcommit,
      ⟨message, hmessage, hupdate⟩, hnext, hdata, hops⟩
  · rintro ⟨file, group, commitFile, update, next, data, hfile, hgroup, hcommit,
      ⟨message, hmessage, hupdate⟩, hnext, hdata, hops⟩
    exact ⟨file, group, hfile, hgroup, commitFile, hcommit, message, hmessage, update, hupdate,
      next, hnext, data, hdata, hops⟩

theorem Leaves.files_self {next : MLSGroup} (h : line.Leaves ops next)
    (hpublic : line.secretOutput ∉ line.publicOutputs) : ∃ file,
      (after disk ops).files line.secretOutput = some file ∧ next.toBytes = .ok file.contents := by
  obtain ⟨data, rest, hdata, rfl, hrest⟩ := h
  have hother : ∀ op ∈ rest, line.secretOutput ≠ op.path :=
    fun op hop heq => hpublic (heq ▸ hrest op hop)
  exact ⟨_, files_secretOps disk hother, hdata⟩

theorem Leaves.files_other {next : MLSGroup} (h : line.Leaves ops next) {path : String}
    (hne : path ≠ line.secretOutput) (hpublic : path ∉ line.publicOutputs) :
    (after disk ops).files path = disk.files path := by
  obtain ⟨data, rest, -, rfl, hrest⟩ := h
  apply after_other
  intro op hop
  rcases List.mem_append.mp hop with hop | hop
  · simp only [secretOps, List.mem_cons, List.not_mem_nil, or_false] at hop
    rcases hop with rfl | rfl | rfl <;> exact hne
  · rintro rfl
    exact hpublic (hrest op hop)

end CommandLine

/-! ## What goes from member to member -/

namespace Taken

variable {entry : Taken}

/-- The commit file of an entry is read as the same commit. -/
theorem receive_commitFile (hC : C.Correct) (hproper : entry.Proper C)
    (hplace : InPlace C entry.sender) {data : Bytes}
    (hdata : MLSMessage.send C entry.committed.update = .ok data) :
    ∃ update, MLSMessage.receive data = .ok update ∧ SameCommit update entry.committed.update := by
  obtain ⟨r⟩ := Proposal.commit_eq_ok hproper.commit
  have htree : r.path.tree.OnWire := by
    rw [← r.next_tree]
    exact (r.next_inPlace hC hplace).onWire
  rw [r.update_eq] at hdata ⊢
  exact ⟨_, r.finished.receive_send rfl htree hdata, r.finished.update.received_sameCommit⟩

/-- The Welcome file of an entry is read as the Welcome. -/
theorem join_welcomeFile (hproper : entry.Proper C) {kp : KeyPackage}
    (hp : entry.proposal = .addMember kp) {welcome : Welcome}
    (hwelcome : entry.committed.welcome = some welcome) {data : Bytes}
    (hdata : DialectWelcome.toBytes ⟨welcome, none⟩ = .ok data) (sigKey : SignatureKey)
    (kemKey : KemKey) : joinRaw C data sigKey kemKey = join C welcome sigKey kemKey [] none := by
  obtain ⟨r⟩ := Proposal.commit_eq_ok hproper.commit
  obtain ⟨-, welcome', hwelcome', hbuild⟩ := r.welcome_eq kp hp
  rw [hwelcome, Option.some.injEq] at hwelcome'
  subst hwelcome'
  simp only [buildWelcome, Py.bind_eq_ok, Py.pure_eq, Except.ok.injEq] at hbuild
  obtain ⟨_, -, _, -, _, -, _, -, _, -, _, -, _, -, egi, -, _, -, _, -, _, -, _, -, rfl⟩ := hbuild
  have hplain (secrets : EncryptedGroupSecrets) :
      ¬ DialectWelcome.LooksWrapped .standard ⟨⟨0x0001, [secrets], egi⟩, none⟩ := fun h => by
    cases h.2.1
  have hstandard (w : Welcome) : DialectWelcome.dialectName ⟨w, none⟩ = Strategy.standard.name :=
    rfl
  obtain ⟨entries, egs, egiVec, hencoded, rfl⟩ := DialectWelcome.toBytes_encoded (hstandard _) hdata
  have hread := hencoded.round_trip (hplain _)
  change DialectWelcome.fromBytes _ none = _ at hread
  rw [joinRaw, hread]
  rfl

end Taken

/-! ## Sessions -/

/-- The handle that is loaded from a file. -/
def Disk.Holds (disk : Disk) (path : String) (group : MLSGroup) : Prop :=
  ∃ file, disk.files path = some file ∧ MLSGroup.fromBytes file.contents = .ok group

/-- The commits that count, the state file of every member, and all files. -/
structure Desk where
  log : List Taken
  states : List String
  disk : Disk

/-- The state file `i` may be replaced by what the command writes: no member has two files, and no
public file goes over a state file. -/
structure Desk.Free (desk : Desk) (i : ℕ) (line : CommandLine) : Prop where
  nodup : (desk.states.set i line.secretOutput).Nodup
  apart : ∀ path ∈ line.publicOutputs, path ∉ desk.states.set i line.secretOutput

/-- Commands of the members, one after the other, and what else happens to files that are no state
files: key packages are made, and what is public is passed on. -/
inductive Session (C : Crypto) : Desk → Prop where
  | create {groupId founderPriv out : String} {initKey : KemKey} {disk : Disk} {ops : List FileOp} :
      (CommandLine.createGroup groupId founderPriv out initKey).run C disk = (.ok (), ops) →
      Session C ⟨[], [out], after disk ops⟩
  | commit {desk : Desk} {i : ℕ} {groupState : String} {line : CommandLine} {ops : List FileOp}
      (entry : Taken) : Session C desk → desk.states[i]? = some groupState →
      desk.disk.Holds groupState entry.sender → entry.sender.state.epochId = desk.log.length →
      entry.Proper C → line.Commits desk.disk groupState entry.proposal entry.coins →
      desk.Free i line → line.run C desk.disk = (.ok (), ops) →
      Session C ⟨desk.log ++ [entry], desk.states.set i line.secretOutput, after desk.disk ops⟩
  | join {desk : Desk} {k : ℕ} {entry : Taken} {kp : KeyPackage} {welcome : Welcome}
      {kemKey : KemKey}
      {file keys : File} {path myPriv outState : String} {ops : List FileOp} : Session C desk →
      desk.log[k]? = some entry → entry.proposal = .addMember kp →
      entry.committed.welcome = some welcome → desk.disk.files path = some file →
      DialectWelcome.toBytes ⟨welcome, none⟩ = .ok file.contents →
        desk.disk.files myPriv = some keys →
      KemKey.fromPrivateBytes (slice keys.contents 32 64) = .ok kemKey →
      kp.initKeyPub = kemKey.publicBytes C → outState ∉ desk.states →
      (CommandLine.joinGroup path myPriv outState).run C desk.disk = (.ok (), ops) →
      Session C ⟨desk.log, desk.states ++ [outState], after desk.disk ops⟩
  | apply {desk : Desk} {i k : ℕ} {entry : Taken} {group : MLSGroup} {file : File}
      {groupState commit : String} {outState : Option String} {ops : List FileOp} : Session C desk →
      desk.states[i]? = some groupState → desk.disk.Holds groupState group →
      desk.log[k]? = some entry → desk.disk.files commit = some file →
      MLSMessage.send C entry.committed.update = .ok file.contents →
      entry.For group.myIndex → group.HoldsKey C →
      desk.Free i (.applyCommit groupState commit outState) →
      (CommandLine.applyCommit groupState commit outState).run C desk.disk = (.ok (), ops) →
      Session C ⟨desk.log, desk.states.set i (Cli.outPath groupState outState), after desk.disk ops⟩
  | elsewhere {desk : Desk} {disk' : Disk} : Session C desk →
      (∀ path ∈ desk.states, disk'.files path = desk.disk.files path) →
      Session C ⟨desk.log, desk.states, disk'⟩

/-! ## State files hold the handles of a net -/

/-- Every state file is the dump of the handle of its member. -/
structure Stored (handles : List MLSGroup) (states : List String) (disk : Disk) : Prop where
  nodup : states.Nodup
  length : states.length = handles.length
  holds : ∀ (i : ℕ) (path : String), states[i]? = some path → ∃ (handle : MLSGroup) (file : File),
    handles[i]? = some handle ∧ disk.files path = some file ∧ handle.toBytes = .ok file.contents

namespace Stored

variable {handles : List MLSGroup} {states : List String} {disk : Disk} {line : CommandLine}
  {ops : List FileOp} {next : MLSGroup}

/-- A command replaces a state file. -/
theorem write (h : Stored handles states disk) {i : ℕ} (hi : i < states.length)
    (hleaves : line.Leaves ops next) (hnodup : (states.set i line.secretOutput).Nodup)
    (hapart : ∀ path ∈ line.publicOutputs, path ∉ states.set i line.secretOutput) :
    Stored (handles.set i next) (states.set i line.secretOutput) (after disk ops) := by
  have hself : line.secretOutput ∉ line.publicOutputs := fun hmem =>
    hapart _ hmem (List.mem_set hi _)
  refine ⟨hnodup, by rw [List.length_set, List.length_set, h.length], fun j path hj => ?_⟩
  by_cases hij : i = j
  · subst hij
    rw [List.getElem?_set_self hi, Option.some.injEq] at hj
    subst hj
    obtain ⟨file, hfile, hdump⟩ := hleaves.files_self hself
    exact ⟨next, file, List.getElem?_set_self (h.length ▸ hi), hfile, hdump⟩
  · have hmem := List.mem_of_getElem? hj
    have hne : path ≠ line.secretOutput := by
      rintro rfl
      obtain ⟨hj', hget⟩ := List.getElem?_eq_some_iff.mp hj
      have hi' : i < (states.set i line.secretOutput).length := by rwa [List.length_set]
      exact hij (hnodup.getElem_inj_iff.mp ((List.getElem_set_self hi').trans hget.symm))
    rw [List.getElem?_set_ne hij] at hj
    obtain ⟨handle, file, hhandle, hfile, hdump⟩ := h.holds j path hj
    refine ⟨handle, file, by rwa [List.getElem?_set_ne hij], ?_, hdump⟩
    rw [hleaves.files_other hne fun hpublic => hapart path hpublic hmem]
    exact hfile

/-- A command makes a new state file. -/
theorem append (h : Stored handles states disk) (hleaves : line.Leaves ops next)
    (hnew : line.secretOutput ∉ states) (hpublic : line.publicOutputs = []) :
    Stored (handles ++ [next]) (states ++ [line.secretOutput]) (after disk ops) := by
  have hself : line.secretOutput ∉ line.publicOutputs := by rw [hpublic]; exact List.not_mem_nil
  refine ⟨List.nodup_append.mpr ⟨h.nodup, List.nodup_singleton _, ?_⟩, ?_, fun j path hj => ?_⟩
  · rintro path hpath _ hlast rfl
    exact hnew (List.mem_singleton.mp hlast ▸ hpath)
  · rw [List.length_append, List.length_append, h.length, List.length_singleton,
      List.length_singleton]
  · rw [List.getElem?_append] at hj
    split at hj
    next hlt =>
      obtain ⟨handle, file, hhandle, hfile, hdump⟩ := h.holds j path hj
      refine ⟨handle, file, ?_, ?_, hdump⟩
      · rwa [List.getElem?_append_left (h.length ▸ hlt)]
      · rw [hleaves.files_other (fun heq => hnew (heq ▸ List.mem_of_getElem? hj))
          (by rw [hpublic]; exact List.not_mem_nil)]
        exact hfile
    next hge =>
      obtain ⟨hzero, hpath⟩ : j - states.length = 0 ∧ line.secretOutput = path := by
        simpa [List.getElem?_cons, Option.ite_none_right_eq_some] using hj
      obtain ⟨file, hfile, hdump⟩ := hleaves.files_self hself
      subst hpath
      refine ⟨next, file, ?_, hfile, hdump⟩
      rw [List.getElem?_append_right (h.length ▸ Nat.not_lt.mp hge), ← h.length, hzero]
      rfl

theorem elsewhere (h : Stored handles states disk) {disk' : Disk}
    (hsame : ∀ path ∈ states, disk'.files path = disk.files path) :
    Stored handles states disk' := by
  refine ⟨h.nodup, h.length, fun i path hi => ?_⟩
  rw [hsame path (List.mem_of_getElem? hi)]
  exact h.holds i path hi

/-- To load a state file is a restart. -/
theorem reload (h : Stored handles states disk) {i : ℕ} {path : String}
    (hi : states[i]? = some path) {group : MLSGroup}
    (hgroup : disk.Holds path group) : ∃ handle, handles[i]? = some handle ∧
      Transition.run C handle .reload = .ok group := by
  obtain ⟨handle, file, hhandle, hfile, hdump⟩ := h.holds i path hi
  obtain ⟨file', hfile', hload⟩ := hgroup
  obtain rfl := Option.some.inj (hfile.symm.trans hfile')
  refine ⟨handle, hhandle, ?_⟩
  rw [Transition.run, hdump]
  exact hload

/-- The handle in a state file follows the log. -/
theorem follows (h : Stored handles states disk) {founder : MLSGroup} {log : List Taken}
    (hnet : Net.Consistent C ⟨founder, log, handles⟩) {path : String} (hpath : path ∈ states)
    {group : MLSGroup} (hgroup : disk.Holds path group) :
    Net.Follows C ⟨founder, log, handles⟩ group := by
  obtain ⟨i, hi⟩ := List.mem_iff_getElem?.mp hpath
  obtain ⟨handle, hhandle, hreload⟩ := h.reload hi hgroup
  have hfollows := hnet.handles handle (List.mem_of_getElem? hhandle)
  exact hfollows.same (hnet.reloaded hfollows hreload)

end Stored

namespace Session

variable {desk : Desk}

/-- Every session is a run of handles, and the state files are their dumps. -/
theorem refines (hC : C.Correct) (h : Session C desk) : ∃ founder handles,
    Net.Reachable C ⟨founder, desk.log, handles⟩ ∧ Stored handles desk.states desk.disk := by
  induction h with
  | create hrun =>
      obtain ⟨_, _, group, hcreate, hleaves⟩ := CommandLine.createGroup_eq_ok hrun
      have hempty : ∀ disk, Stored [] [] disk := fun disk => ⟨.nil, rfl, nofun⟩
      exact ⟨group, [group], .create hcreate, (hempty _).append hleaves List.not_mem_nil rfl⟩
  | commit entry _ hi hgroup hhead hproper hcommits hfree hrun ih =>
      obtain ⟨founder, handles, hreach, hstored⟩ := ih
      obtain ⟨file, group, committed, hfile, hload, hcommit, hleaves⟩ := hcommits.run_eq_ok hrun
      obtain ⟨file', hfile', hload'⟩ := id hgroup
      obtain rfl := Option.some.inj (hfile.symm.trans hfile')
      obtain rfl := Except.ok.inj (hload.symm.trans hload')
      obtain rfl := Except.ok.inj (hcommit.symm.trans hproper.commit)
      obtain ⟨handle, hhandle, hreload⟩ := hstored.reload hi hgroup
      obtain ⟨hlt, -⟩ := List.getElem?_eq_some_iff.mp hi
      have hreloaded := hreach.step (.reload hhandle hreload)
      have htaken := hreloaded.step (.take entry
        (List.getElem?_set_self (hstored.length ▸ hlt)) hhead hproper)
      rw [List.set_set] at htaken
      exact ⟨founder, _, htaken, hstored.write hlt hleaves hfree.nodup hfree.apart⟩
  | join _ hlog hp hwelcome hfile hdata hkeys hkem hinit hnew hrun ih =>
      obtain ⟨founder, handles, hreach, hstored⟩ := ih
      obtain ⟨_, sigKey, _, _, group, hkeys', hkem', hfile', hjoin, hleaves⟩ :=
        CommandLine.joinGroup_eq_ok hrun
      obtain rfl := Option.some.inj (hkeys.symm.trans hkeys')
      obtain rfl := Except.ok.inj (hkem.symm.trans hkem')
      obtain rfl := Option.some.inj (hfile.symm.trans hfile')
      have hproper := ((hreach.consistent hC).built _ _ hlog).1
      rw [Taken.join_welcomeFile hproper hp hwelcome hdata] at hjoin
      exact ⟨founder, _, hreach.step (.enter ⟨sigKey, _⟩ hlog hp hwelcome hinit hjoin),
        hstored.append hleaves hnew rfl⟩
  | apply _ hi hgroup hlog hfile hdata hfor hkey hfree hrun ih =>
      obtain ⟨founder, handles, hreach, hstored⟩ := ih
      obtain ⟨file, group, _, update, next, data, hstate, hload, hfile', hread, hnext, hdump,
        hops⟩ :=
        CommandLine.applyCommit_eq_ok.mp hrun
      obtain ⟨file', hstate', hload'⟩ := id hgroup
      obtain rfl := Option.some.inj (hstate.symm.trans hstate')
      obtain rfl := Except.ok.inj (hload.symm.trans hload')
      obtain rfl := Option.some.inj (hfile.symm.trans hfile')
      obtain ⟨handle, hhandle, hreload⟩ := hstored.reload hi hgroup
      obtain ⟨hlt, -⟩ := List.getElem?_eq_some_iff.mp hi
      obtain ⟨hproper, -, hplace, -⟩ := (hreach.consistent hC).built _ _ hlog
      obtain ⟨_, hread', hcommit⟩ := Taken.receive_commitFile hC hproper hplace hdata
      obtain rfl := Except.ok.inj (hread.symm.trans hread')
      have hreloaded := hreach.step (.reload hhandle hreload)
      have haccepted := hreloaded.step (.accept
        (List.getElem?_set_self (hstored.length ▸ hlt)) hlog hcommit hfor hkey hnext)
      rw [List.set_set] at haccepted
      exact ⟨founder, _, haccepted, hstored.write hlt
        ⟨data, [], hdump, by rw [List.append_nil]; exact hops, nofun⟩ hfree.nodup hfree.apart⟩
  | elsewhere _ hsame ih =>
      obtain ⟨founder, handles, hreach, hstored⟩ := ih
      exact ⟨founder, handles, hreach, hstored.elsewhere hsame⟩

/-- Members whose state files are in one epoch have the same group, tree, secrets and transcript,
whatever commands were run in between and in whatever order. -/
theorem state_files_converge (hC : C.Correct) (h : Session C desk) {groups : List MLSGroup} {k : ℕ}
    (hgroups : ∀ group ∈ groups, ∃ path ∈ desk.states, desk.disk.Holds path group ∧
      group.state.epochId = k) : Converged groups := by
  obtain ⟨founder, handles, hreach, hstored⟩ := h.refines hC
  have hfollows : ∀ group ∈ groups, Net.Follows C ⟨founder, desk.log, handles⟩ group ∧
      group.state.epochId = k := by
    intro group hgroup
    obtain ⟨path, hpath, hholds, hepoch⟩ := hgroups group hgroup
    exact ⟨hstored.follows (hreach.consistent hC) hpath hholds, hepoch⟩
  exact Net.Follows.converged hfollows

end Session

/-! ## A member that applies the commit files it is given -/

/-- The index and the group id that are loaded fit their length fields. -/
theorem MLSGroup.fromBytes_bounds {data : Bytes} {group : MLSGroup}
    (h : MLSGroup.fromBytes data = .ok group) :
    group.myIndex < 256 ^ 4 ∧ group.state.groupId.length < 65536 := by
  simp only [MLSGroup.fromBytes, EpochState.fromBytes, Py.bind_eq_ok, Py.pure_eq,
    Except.ok.injEq] at h
  obtain ⟨_, -, _, -, _, ⟨_, -, _, -, rfl⟩, _, -, rfl⟩ := h
  refine ⟨beNat_lt_of_le (length_slice_le data 0 4), ?_⟩
  have hlen (state : Bytes) : beNat (slice state 0 2) < 65536 :=
    beNat_lt_of_le (length_slice_le state 0 2)
  exact (length_slice_le _ 2 _).trans_lt (hlen _)

/-- Whoever accepted a commit can be dumped. -/
theorem MLSGroup.toBytes_processed (hC : C.Correct) {self next : MLSGroup} {update : GroupUpdate}
    (h : processUpdateBody C self update = .ok next) (hindex : self.myIndex < 256 ^ 4)
    (hgroup : self.state.groupId.length < 65536) : ∃ data, next.toBytes = .ok data := by
  obtain ⟨_, ctx, ks, _, _, hks, -, ⟨body, hbody⟩, hepoch, rfl⟩ := processUpdateBody_next h
  have hsecrets := KeySchedule.derive_secrets hC hks
  have hlt := GroupUpdate.epoch_lt hbody
  rw [hepoch] at hlt
  refine toBytes_ok ⟨hindex, hlt, fun s hs => hsecrets s (List.mem_of_mem_tail hs),
    (hC.sha256_size _).le⟩ .nil hgroup (hsecrets _ List.mem_cons_self) ?_ (by simp [init])
  obtain ⟨treeRaw, htree, -⟩ := Py.bind_eq_ok.mp hbody
  exact ⟨treeRaw, htree⟩

namespace CommandLine

variable {disk : Disk} {groupState commit : String} {outState : Option String} {group : MLSGroup}
  {file : File} {update : GroupUpdate}

/-- What `apply-commit` does once both files are read. -/
theorem applyCommit_run (hgroup : disk.Holds groupState group)
    (hfile : disk.files commit = some file)
    (hread : MLSMessage.receive file.contents = .ok update) :
    (applyCommit groupState commit outState).run C disk =
      match (group.processUpdate C update).2 with
      | .error e => (.error (.raised e), [])
      | .ok next => Cli.writeGroup (Cli.outPath groupState outState) next disk := by
  obtain ⟨stateFile, hstate, hload⟩ := hgroup
  obtain ⟨message, hmessage, hupdate⟩ := Py.bind_eq_ok.mp hread
  change Cli.applyCommit C groupState commit outState disk = _
  simp only [Cli.applyCommit, Cli.readGroup, readFile, call, Effectful.bind_assoc, look_bind,
    hstate, hload, hfile, hmessage, hupdate, Except.mapError, MLSGroup.applyCommit]
  cases (group.processUpdate C update).2 <;> rfl

end CommandLine

/-- The files of all commits in the log. -/
structure Disk.Serves (C : Crypto) (log : List Taken) (disk : Disk) (commits : List String) :
    Prop where
  length : commits.length = log.length
  sent : ∀ (k : ℕ) (commit : String), commits[k]? = some commit → ∃ (entry : Taken) (file : File),
    log[k]? = some entry ∧ disk.files commit = some file ∧
      MLSMessage.send C entry.committed.update = .ok file.contents

/-- The epoch in the state file. -/
def Disk.epochAt (disk : Disk) (path : String) : ℕ :=
  match disk.files path with
  | none => 0
  | some file =>
    match MLSGroup.fromBytes file.contents with
    | .error _ => 0
    | .ok group => group.state.epochId

theorem Disk.Holds.epochAt {disk : Disk} {path : String} {group : MLSGroup}
    (h : disk.Holds path group) : disk.epochAt path = group.state.epochId := by
  obtain ⟨file, hfile, hload⟩ := h
  simp only [Disk.epochAt, hfile, hload]

/-- `apply-commit`, in place, on the file of the `k`-th commit; the disk that this leaves. -/
def Cli.offer (C : Crypto) (path : String) (commits : List String) (disk : Disk) (k : ℕ) : Disk :=
  match commits[k]? with
  | none => disk
  | some commit => after disk ((CommandLine.applyCommit path commit none).run C disk).2

namespace Net

variable {net : Net} {path : String} {commits : List String} {index start : ℕ} {disk : Disk}

/-- The state file of a member that catches up, and the files of the commits. -/
structure Resumes (C : Crypto) (net : Net) (path : String) (commits : List String) (index start : ℕ)
    (disk : Disk) : Prop where
  holds : ∃ group, disk.Holds path group ∧ net.CatchingUp C index start group
  serves : disk.Serves C net.log commits

/-- The commit of its epoch takes the member one epoch further. -/
theorem Consistent.offer_next (hC : C.Correct) (h : net.Consistent C) {group : MLSGroup}
    (hgroup : disk.Holds path group) (hcatching : net.CatchingUp C index start group)
    {entry : Taken} {file : File} {commit : String}
    (hlog : net.log[group.state.epochId]? = some entry) (hfile : disk.files commit = some file)
    (hsent : MLSMessage.send C entry.committed.update = .ok file.contents)
    (hfor : entry.For index) : ∃ data next,
    (CommandLine.applyCommit path commit none).run C disk = (.ok (), secretOps path data) ∧
      MLSGroup.fromBytes data = .ok next ∧ net.CatchingUp C index start next ∧
      next.state.epochId = group.state.epochId + 1 := by
  obtain ⟨hfollows, hkey, rfl, hstart⟩ := hcatching
  obtain ⟨hproper, -, hplace, -⟩ := h.built _ _ hlog
  obtain ⟨update, hread, hcommit⟩ := Taken.receive_commitFile hC hproper hplace hsent
  obtain ⟨processed, hprocessed, hagree, hfollows', hkey', hindex⟩ :=
    h.followed hC hfollows hlog rfl hfor hkey hcommit
  have hopens := h.opens _ _ (opener_succ hlog)
  have hepoch : processed.state.epochId = group.state.epochId + 1 :=
    hagree.epochId.trans hopens.epochId
  obtain ⟨stateFile, hstate, hload⟩ := id hgroup
  have hbounds := MLSGroup.fromBytes_bounds hload
  have hbody := hprocessed
  rw [processUpdate_snd] at hbody
  obtain ⟨data, hdata⟩ := MLSGroup.toBytes_processed hC hbody hbounds.1 hbounds.2
  have hsecrets : ∀ s ∈ processed.state.keySchedule.secrets, s.length = 32 := by
    rw [hagree.keySchedule]
    exact hopens.secrets
  obtain ⟨next, hnext, -, -⟩ := fromBytes_toBytes hdata hfollows'.inPlace.onWire hsecrets
  have hreload : Transition.run C processed .reload = .ok next := by
    rw [Transition.run, hdata]
    exact hnext
  have hsame := h.reloaded hfollows' hreload
  refine ⟨data, next, ?_, hnext, ⟨hfollows'.same hsame, hsame.holdsKey hkey',
    hsame.myIndex.trans hindex, ?_⟩, hsame.agrees.epochId.trans hepoch⟩
  · rw [CommandLine.applyCommit_run hgroup hfile hread, hprocessed]
    exact writeGroup_eq_ok.mpr ⟨data, hdata, rfl⟩
  · rw [hsame.agrees.epochId, hepoch]
    omega

/-- Any other commit is refused and leaves all files as they are. -/
theorem Consistent.offer_other (hC : C.Correct) (h : net.Consistent C) {group : MLSGroup}
    (hgroup : disk.Holds path group) (hfollows : net.Follows C group) {k : ℕ} {entry : Taken}
    {file : File} {commit : String} (hlog : net.log[k]? = some entry)
    (hother : group.state.epochId ≠ k) (hfile : disk.files commit = some file)
    (hsent : MLSMessage.send C entry.committed.update = .ok file.contents) :
    (CommandLine.applyCommit path commit none).run C disk =
      (.error (.raised (.valueError "Out of order update")), []) := by
  obtain ⟨hproper, -, hplace, -⟩ := h.built _ _ hlog
  obtain ⟨update, hread, hcommit⟩ := Taken.receive_commitFile hC hproper hplace hsent
  rw [CommandLine.applyCommit_run hgroup hfile hread, h.refused hfollows hlog hother hcommit]

theorem Consistent.offering (hC : C.Correct) (h : net.Consistent C) (hapart : path ∉ commits)
    (hfor : ∀ k (entry : Taken), start ≤ k → net.log[k]? = some entry → entry.For index) :
    InOrder.Consumer (Cli.offer C path commits) (fun disk => disk.epochAt path) net.log.length
      (net.Resumes C path commits index start) := by
  constructor
  · rintro disk ⟨⟨group, hgroup, hcatching⟩, hserves⟩ hlt
    rw [hgroup.epochAt] at hlt ⊢
    have hcommit := List.getElem?_eq_getElem (hserves.length ▸ hlt)
    obtain ⟨entry, file, hlog, hfile, hsent⟩ := hserves.sent _ _ hcommit
    obtain ⟨data, next, hrun, hload, hnext, hepoch⟩ :=
      h.offer_next hC hgroup hcatching hlog hfile hsent
      (hfor _ _ hcatching.start hlog)
    have hdisk :
      Cli.offer C path commits disk group.state.epochId = after disk (secretOps path data) := by
      simp only [Cli.offer, hcommit, hrun]
    have hother : ∀ other, path ≠ other →
        (after disk (secretOps path data)).files other = disk.files other := by
      intro other hne
      apply CommandLine.after_other
      intro op hop
      simp only [secretOps, List.mem_cons, List.not_mem_nil, or_false] at hop
      rcases hop with rfl | rfl | rfl <;> exact hne.symm
    have hwritten : (after disk (secretOps path data ++ [])).files path = some ⟨0o600, data⟩ :=
      files_secretOps disk fun _ hop => (List.not_mem_nil hop).elim
    rw [List.append_nil] at hwritten
    have hholds : Disk.Holds (after disk (secretOps path data)) path next := ⟨_, hwritten, hload⟩
    rw [hdisk]
    refine ⟨⟨⟨next, hholds, hnext⟩, hserves.length, fun k commit hk => ?_⟩,
      hholds.epochAt.trans hepoch⟩
    rw [hother commit fun heq => hapart (heq ▸ List.mem_of_getElem? hk)]
    exact hserves.sent k commit hk
  · rintro disk k ⟨⟨group, hgroup, hcatching⟩, hserves⟩ hother
    have hsame : Cli.offer C path commits disk k = disk := by
      rw [Cli.offer]
      cases hk : commits[k]? with
      | none => rfl
      | some commit =>
          obtain ⟨entry, file, hlog, hfile, hsent⟩ := hserves.sent k commit hk
          have hepoch : group.state.epochId ≠ k := by
            rintro rfl
            obtain ⟨hlt, -⟩ := List.getElem?_eq_some_iff.mp hlog
            exact hother ⟨hgroup.epochAt.symm, by rwa [hgroup.epochAt]⟩
          simp only [h.offer_other hC hgroup hcatching.follows hlog hepoch hfile hsent]
          rfl
    rw [hsame]
    exact ⟨⟨⟨group, hgroup, hcatching⟩, hserves⟩, rfl⟩

end Net

/-- A member that holds its key and is neither the committer of what it lacks nor removed by it
applies commit files in any order and any number of times, one command at a time. It gets to the
last epoch if and only if what it lacked is among them in order; a file that is not the next one is
refused, and nothing is written. Its state file agrees with all that are in the same epoch. -/
theorem Session.applied_commits_catch_up (hC : C.Correct) {desk : Desk} (h : Session C desk)
    {path : String} {group : MLSGroup} (hpath : path ∈ desk.states)
    (hgroup : desk.disk.Holds path group)
    (hkey : group.HoldsKey C) {commits : List String}
    (hserves : desk.disk.Serves C desk.log commits)
    (hapart : path ∉ commits)
    (hfor : ∀ k (entry : Taken), group.state.epochId ≤ k → desk.log[k]? = some entry →
      entry.For group.myIndex) (offers : List ℕ) :
    ∃ next, (offers.foldl (Cli.offer C path commits) desk.disk).Holds path next ∧
      (next.state.epochId = desk.log.length ↔ (List.range' group.state.epochId
        (desk.log.length - group.state.epochId)).Sublist offers) ∧
      (∀ earlier k later commit, offers = earlier ++ k :: later → commits[k]? = some commit →
        (earlier.foldl (Cli.offer C path commits) desk.disk).epochAt path ≠ k →
        (CommandLine.applyCommit path commit none).run C
          (earlier.foldl (Cli.offer C path commits) desk.disk) =
          (.error (.raised (.valueError "Out of order update")), [])) ∧
      ∀ groups : List MLSGroup,
        (∀ other ∈ groups, ∃ file ∈ desk.states, desk.disk.Holds file other ∧
          other.state.epochId = next.state.epochId) → Converged (next :: groups) := by
  obtain ⟨founder, handles, hreach, hstored⟩ := h.refines hC
  have hnet := hreach.consistent hC
  have hfollows := hstored.follows hnet hpath hgroup
  have hconsumer := hnet.offering hC hapart hfor
  have hstart :
    Net.Resumes C ⟨founder, desk.log, handles⟩ path commits group.myIndex group.state.epochId
      desk.disk := ⟨⟨group, hgroup, hfollows, hkey, rfl, le_rfl⟩, hserves⟩
  obtain ⟨-, opener, hopener, -⟩ := id hfollows
  have hthrough := hconsumer.through_iff hstart (hgroup.epochAt ▸ Net.opener_lt hopener) offers
  obtain ⟨next, hnext, hcatching⟩ := (hconsumer.keeps hstart offers).holds
  rw [hgroup.epochAt, hnext.epochAt] at hthrough
  refine ⟨next, hnext, hthrough, fun earlier k later commit _ hcommit hother => ?_,
    fun groups hgroups => ?_⟩
  · obtain ⟨⟨at', hat, hcatching'⟩, hserves'⟩ := hconsumer.keeps hstart earlier
    obtain ⟨entry, file, hlog, hfile, hsent⟩ := hserves'.sent k commit hcommit
    rw [hat.epochAt] at hother
    exact hnet.offer_other hC hat hcatching'.follows hlog hother hfile hsent
  have hall : ∀ other ∈ next :: groups, Net.Follows C ⟨founder, desk.log, handles⟩ other ∧
      other.state.epochId = next.state.epochId := by
    intro other hother
    rcases List.mem_cons.mp hother with rfl | hother
    · exact ⟨hcatching.follows, rfl⟩
    · obtain ⟨file, hfile, hholds, hepoch⟩ := hgroups other hother
      exact ⟨hstored.follows hnet hfile hholds, hepoch⟩
  exact Net.Follows.converged hall

/-! ## Alice and Bob on one disk -/

namespace Sample

/-- The disk that a command leaves which returns. -/
def step (line : CommandLine) (disk : Disk) : Py Disk :=
  match line.run crypto disk with
  | (.ok (), ops) => .ok (after disk ops)
  | (.error _, _) => .error .assertionError

theorem step_eq_ok {line : CommandLine} {disk disk' : Disk} (h : step line disk = .ok disk') :
    ∃ ops, line.run crypto disk = (.ok (), ops) ∧ disk' = after disk ops := by
  unfold step at h
  rcases hrun : line.run crypto disk with ⟨e | u, ops⟩
  · rw [hrun] at h
    cases h
  · rw [hrun] at h
    exact ⟨ops, rfl, (Except.ok.inj h).symm⟩

def contents (disk : Disk) (path : String) : Py Bytes :=
  match disk.files path with
  | some file => .ok file.contents
  | none => .error .keyError

theorem contents_eq_ok {disk : Disk} {path : String} {data : Bytes}
    (h : contents disk path = .ok data) :
    ∃ file, disk.files path = some file ∧ file.contents = data := by
  unfold contents at h
  cases hfile : disk.files path with
  | none =>
      rw [hfile] at h
      cases h
  | some file =>
      rw [hfile] at h
      exact ⟨file, rfl, Except.ok.inj h⟩

def load (disk : Disk) (path : String) : Py MLSGroup := contents disk path >>= MLSGroup.fromBytes

theorem load_eq_ok {disk : Disk} {path : String} {group : MLSGroup}
    (h : load disk path = .ok group) : disk.Holds path group := by
  obtain ⟨data, hdata, hload⟩ := Py.bind_eq_ok.mp h
  obtain ⟨file, hfile, rfl⟩ := contents_eq_ok hdata
  exact ⟨file, hfile, hload⟩

/-- The keys of Alice and Bob, and the key package of Bob. -/
def start (pub : Bytes) : Disk where
  umask := 0o022
  files path :=
    if path = "alice.priv" then some ⟨0o600, (sig 1).privateBytes ++ (kem 1).privateBytes⟩
    else if path = "bob.priv" then some ⟨0o600, (sig 20).privateBytes ++ (kem 20).privateBytes⟩
    else if path = "bob.pub" then some ⟨0o644, pub⟩
    else none

def createLine : CommandLine := .createGroup "g" "alice.priv" "alice" (kem 2)

def addLine : CommandLine := .addMember "alice" "bob.pub" "welcome" "commit1" none (coins 40)

def joinLine : CommandLine := .joinGroup "welcome" "bob.priv" "bob"

def updateLine : CommandLine := .updateKey "bob" "commit2" none (coins 60)

/-- Alice adds Bob, Bob joins and updates his key. -/
def cliRun : Py Unit := do
  let bobPackage ← keyPackage 20
  let pub ← bobPackage.toBytes
  let disk1 ← step createLine (start pub)
  let disk2 ← step addLine disk1
  let disk3 ← step joinLine disk2
  let disk4 ← step updateLine disk3
  let alice0 ← load disk1 "alice"
  let (kp, _) ← KeyPackage.fromBytesAt pub 0
  let first ← (Proposal.addMember kp).commit crypto alice0 (coins 40)
  let alice1 ← load disk3 "alice"
  let bob1 ← load disk3 "bob"
  let second ← Proposal.updateKey.commit crypto bob1 (coins 60)
  let welcomeFile ← contents disk2 "welcome"
  let commit1 ← MLSMessage.send crypto first.update
  let commit2 ← MLSMessage.send crypto second.update
  expect (identity alice1 = (0, sig 1, true) ∧ bob1.myIndex = 1)
  expect (alice0.state.epochId = 0 ∧ alice1.state.epochId = 1 ∧ bob1.state.epochId = 1)
  expect ((refs first.update.tree).Nodup ∧ (refs second.update.tree).Nodup)
  expect (kp.leafNode.leafNodeSource = leafNodeSourceKeyPackage ∧
    kp.initKeyPub = (kem 20).publicBytes crypto)
  expect (contents disk1 "bob.pub" = .ok pub ∧ contents disk4 "alice" = contents disk3 "alice" ∧
    contents disk2 "bob.priv" = .ok ((sig 20).privateBytes ++ (kem 20).privateBytes))
  expect (first.welcome.map (fun w => DialectWelcome.toBytes ⟨w, none⟩) = some (.ok welcomeFile))
  expect (contents disk4 "commit1" = .ok commit1 ∧ contents disk4 "commit2" = .ok commit2)

theorem cliRun_ok : ∃ u, cliRun = .ok u := Py.ok_of_isOk (by decide +kernel)

theorem cliSession : ∃ (log : List Taken) (disk3 disk4 : Disk) (alice bob : MLSGroup),
    PureMls.Session crypto ⟨log.take 1, ["alice", "bob"], disk3⟩ ∧
    PureMls.Session crypto ⟨log, ["alice", "bob"], disk4⟩ ∧ log.length = 2 ∧
    disk3.Holds "alice" alice ∧ disk3.Holds "bob" bob ∧ disk4.Holds "alice" alice ∧
    alice.state.epochId = 1 ∧ bob.state.epochId = 1 ∧ alice.HoldsKey crypto ∧
    disk4.Serves crypto log ["commit1", "commit2"] ∧
    ∀ k (entry : Taken), 1 ≤ k → log[k]? = some entry → entry.For alice.myIndex := by
  obtain ⟨_, hrun⟩ := cliRun_ok
  simp only [cliRun, expect, Py.bind_eq_ok, Py.require_eq_ok] at hrun
  obtain ⟨bobPackage, -, pub, -, disk1, hdisk1, disk2, hdisk2, disk3, hdisk3, disk4, hdisk4, alice0,
    halice0, ⟨kp, offset⟩, hkp, first, hfirst, alice1, halice1, bob1, hbob1, second, hsecond,
    welcomeFile, hwelcomeFile, commit1, hcommit1, commit2, hcommit2, _, ⟨halice, hbob⟩, _,
    ⟨hepoch0, hepoch1, hepoch1'⟩, _, ⟨hrefs1, hrefs2⟩, _, ⟨hsource, hinit⟩, _, ⟨hpub, hsame, hkeys⟩,
    _, hwelcome, hfile1, hfile2⟩ := hrun
  obtain ⟨ops1, hops1, hafter1⟩ := step_eq_ok hdisk1
  obtain ⟨ops2, hops2, hafter2⟩ := step_eq_ok hdisk2
  obtain ⟨ops3, hops3, hafter3⟩ := step_eq_ok hdisk3
  obtain ⟨ops4, hops4, hafter4⟩ := step_eq_ok hdisk4
  obtain ⟨pubFile, hpubFile, rfl⟩ := contents_eq_ok hpub
  obtain ⟨keys, hkeysFile, hkeysData⟩ := contents_eq_ok hkeys
  obtain ⟨welcome, hsome, hdata⟩ := Option.map_eq_some_iff.mp hwelcome
  obtain ⟨file, hfile, rfl⟩ := contents_eq_ok hwelcomeFile
  obtain ⟨file1, hdisk1', rfl⟩ := contents_eq_ok hfile1
  obtain ⟨file2, hdisk2', rfl⟩ := contents_eq_ok hfile2
  have hkem : KemKey.fromPrivateBytes (slice keys.contents 32 64) = .ok (kem 20) := by
    rw [hkeysData]
    rfl
  let entry1 : Taken := ⟨alice0, coins 40, .addMember kp, first⟩
  let entry2 : Taken := ⟨bob1, coins 60, .updateKey, second⟩
  have hproper1 : entry1.Proper crypto := by
    refine ⟨hfirst, refsCollisionFree hrefs1, ?_⟩
    rintro _ ⟨⟩
    exact hsource
  have hproper2 : entry2.Proper crypto := ⟨hsecond, refsCollisionFree hrefs2, nofun⟩
  have hsession1 : PureMls.Session crypto ⟨[], ["alice"], disk1⟩ := hafter1 ▸ .create hops1
  have hfree1 : Desk.Free ⟨[], ["alice"], disk1⟩ 0 addLine := by
    constructor
    · change ["alice"].Nodup
      decide
    · change ∀ path ∈ ["welcome", "commit1"], path ∉ ["alice"]
      decide
  have hsession2 : PureMls.Session crypto ⟨[entry1], ["alice"], disk2⟩ := by
    rw [hafter2]
    exact .commit entry1 hsession1 rfl (load_eq_ok halice0) hepoch0 hproper1
      (.addMember hpubFile hkp) hfree1 hops2
  have hnew : "bob" ∉ ["alice"] := by decide
  have hsession3 : PureMls.Session crypto ⟨[entry1], ["alice", "bob"], disk3⟩ := by
    rw [hafter3]
    exact .join (k := 0) hsession2 rfl rfl hsome hfile hdata hkeysFile hkem hinit hnew hops3
  have hfree3 : Desk.Free ⟨[entry1], ["alice", "bob"], disk3⟩ 1 updateLine := by
    constructor
    · change ["alice", "bob"].Nodup
      decide
    · change ∀ path ∈ ["commit2"], path ∉ ["alice", "bob"]
      decide
  have hsession4 : PureMls.Session crypto ⟨[entry1, entry2], ["alice", "bob"], disk4⟩ := by
    rw [hafter4]
    exact .commit entry2 hsession3 rfl (load_eq_ok hbob1) hepoch1' hproper2 .updateKey hfree3 hops4
  have hload4 : load disk4 "alice" = .ok alice1 := by
    rw [load, hsame]
    exact halice1
  refine ⟨[entry1, entry2], disk3, disk4, alice1, bob1, hsession3, hsession4, rfl,
    load_eq_ok halice1, load_eq_ok hbob1, load_eq_ok hload4, hepoch1, hepoch1',
    (identity_eq halice).2.2, ⟨rfl, ?_⟩, ?_⟩
  · intro k commit hk
    match k with
    | 0 =>
      obtain rfl := Option.some.inj hk
      exact ⟨entry1, file1, rfl, hdisk1', hcommit1⟩
    | 1 =>
      obtain rfl := Option.some.inj hk
      exact ⟨entry2, file2, rfl, hdisk2', hcommit2⟩
  · intro k entry hk hlog
    match k with
    | 1 =>
      obtain rfl := Option.some.inj hlog
      refine ⟨?_, trivial⟩
      rw [(identity_eq halice).1, show entry2.sender.myIndex = 1 from hbob]
      decide

end Sample

/-- Alice and Bob after Bob has joined. -/
theorem state_files_converge_two :
    ∃ (disk : Disk) (alice bob : MLSGroup), disk.Holds "alice" alice ∧
    disk.Holds "bob" bob ∧ Converged [alice, bob] := by
  obtain ⟨log, disk, _, alice, bob, hsession, -, -, halice, hbob, -, hepoch, hepoch', -⟩ :=
    Sample.cliSession
  have hgroups : ∀ group ∈ [alice, bob], ∃ path ∈ ["alice", "bob"], disk.Holds path group ∧
      group.state.epochId = 1 := by
    intro group hgroup
    rcases List.mem_pair.mp hgroup with rfl | rfl
    · exact ⟨_, List.mem_cons_self, halice, hepoch⟩
    · exact ⟨_, List.mem_cons_of_mem _ List.mem_cons_self, hbob, hepoch'⟩
  exact ⟨disk, alice, bob, halice, hbob,
    Session.state_files_converge Sample.correct hsession hgroups⟩

/-- Alice applies both commits in the wrong order, and the one she lacks twice. -/
theorem applied_commits_catch_up_alice :
    ∃ (disk : Disk) (next : MLSGroup), disk.epochAt "alice" = 1 ∧
    (CommandLine.applyCommit "alice" "commit1" none).run Sample.crypto disk =
      (.error (.raised (.valueError "Out of order update")), []) ∧
    ([0, 1, 0, 1].foldl (Cli.offer Sample.crypto "alice" ["commit1", "commit2"]) disk).Holds "alice"
    next ∧ next.state.epochId = 2 := by
  obtain ⟨log, _, disk, alice, _, -, hsession, hlength, -, -, halice, hepoch, -, hkey, hserves,
    hfor⟩ :=
    Sample.cliSession
  obtain ⟨next, hnext, hthrough, hrefused, -⟩ :=
    Session.applied_commits_catch_up Sample.correct hsession
    List.mem_cons_self halice hkey hserves (by decide) (by rwa [hepoch]) [0, 1, 0, 1]
  rw [hepoch, hlength] at hthrough
  have hone : disk.epochAt "alice" = 1 := halice.epochAt.trans hepoch
  refine ⟨disk, next, hone, hrefused [] 0 [1, 0, 1] "commit1" rfl rfl ?_, hnext,
    hthrough.mpr (by decide)⟩
  rw [List.foldl_nil, hone]
  decide

end PureMls
