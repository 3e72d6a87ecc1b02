import PureMls.Model.Cli
import PureMls.Verification.Assumptions

/-! # Files with private keys

Every command writes one file with private keys. Whether others can read it depends on whether it
was there before. -/

namespace PureMls

open Effectful Command

variable {C : Crypto}

/-! ## Who may read a file -/

namespace File

/-- Only the owner has permissions. -/
def OwnerOnly (file : File) : Prop := file.mode &&& 0o077 = 0

instance (file : File) : Decidable file.OwnerOnly := by
  unfold OwnerOnly
  infer_instance

end File

/-- At the paths of `S` there are only files of the owner alone. -/
def Disk.Guards (S : Set String) (disk : Disk) : Prop :=
  ∀ path ∈ S, ∀ file, disk.files path = some file → file.OwnerOnly

namespace FileOp

def path : FileOp → String
  | create path _ => path
  | write path _ => path
  | chmod path _ => path

/-- Gives nobody else permissions at the paths of `S`. -/
def Discreet (S : Set String) : FileOp → Prop
  | create path mode => path ∈ S → mode &&& 0o077 = 0
  | write _ _ => True
  | chmod path mode => path ∈ S → mode &&& 0o077 = 0

variable {S : Set String} {disk : Disk} {op : FileOp}

theorem apply_other {path : String} (h : path ≠ op.path) :
    (Store.apply disk op).files path = disk.files path := by
  cases op <;> exact if_neg h

theorem discreet_of_notMem (h : op.path ∉ S) : op.Discreet S := by
  cases op with
  | create path mode => exact fun hmem => absurd hmem h
  | write path data => trivial
  | chmod path mode => exact fun hmem => absurd hmem h

theorem create_self (disk : Disk) (path : String) (mode : Mode) :
    (Store.apply disk (create path mode)).files path = some
      ⟨((disk.files path).map File.mode).getD (mode &&& ~~~disk.umask), []⟩ := by
  change (if path = path then _ else _) = _
  rw [if_pos rfl]
  cases disk.files path <;> rfl

theorem write_self (disk : Disk) (path : String) (data : Bytes) :
    (Store.apply disk (write path data)).files path =
      (disk.files path).map fun file => { file with contents := file.contents ++ data } :=
  if_pos rfl

theorem chmod_self (disk : Disk) (path : String) (mode : Mode) :
    (Store.apply disk (chmod path mode)).files path =
      (disk.files path).map fun file => { file with mode := mode } := if_pos rfl

/-- A new file has at most the permissions it was opened with. -/
theorem masked {mode : Mode} (h : mode &&& 0o077 = 0) (umask : Mode) :
    (mode &&& ~~~umask) &&& 0o077 = 0 := by
  rw [BitVec.and_assoc, BitVec.and_comm (~~~umask), ← BitVec.and_assoc, h]
  exact BitVec.zero_and

theorem Discreet.guards (h : op.Discreet S) (hdisk : disk.Guards S) :
    (Store.apply disk op : Disk).Guards S := by
  intro path hpath file hfile
  by_cases hop : path = op.path
  · cases op with
    | create target mode =>
        obtain rfl : path = target := hop
        have hmode := h hpath
        rw [create_self, Option.some.injEq] at hfile
        subst hfile
        cases hold : disk.files path with
        | none => exact masked hmode disk.umask
        | some old => exact hdisk path hpath old hold
    | write target data =>
        obtain rfl : path = target := hop
        rw [write_self] at hfile
        obtain ⟨old, hold, rfl⟩ := Option.map_eq_some_iff.mp hfile
        exact hdisk path hpath old hold
    | chmod target mode =>
        obtain rfl : path = target := hop
        rw [chmod_self] at hfile
        obtain ⟨old, hold, rfl⟩ := Option.map_eq_some_iff.mp hfile
        exact h hpath
  · rw [apply_other hop] at hfile
    exact hdisk path hpath file hfile

end FileOp

/-! ## What a command does -/

namespace Command

theorem readFile_silent (path : String) : Emits (fun _ => False) (readFile path) := .look _

theorem call_silent {α : Type} (x : Py α) : Emits (fun _ => False) (call x) := .look _

/-- The operations of `_write_secret`. -/
def secretOps (path : String) (data : Bytes) : List FileOp :=
  [.create path 0o600, .write path data, .chmod path 0o600]

theorem readKeys_silent (path : String) : Emits (fun _ => False) (Cli.readKeys path) :=
  Emits.bind (readFile_silent path) fun _ => Emits.bind (call_silent _) fun _ =>
    Emits.bind (call_silent _) fun _ => .look _

theorem readGroup_silent (path : String) : Emits (fun _ => False) (Cli.readGroup path) :=
  Emits.bind (readFile_silent path) fun _ => call_silent _

theorem writePublic_emits (path : String) (data : Py Bytes) :
    Emits (fun op => op.path = path) (writePublic path data) :=
  Emits.bind (.perform rfl) fun _ => Emits.bind (.look _) fun _ => .perform rfl

end Command

namespace CommandLine

/-- The file with private keys. -/
def secretOutput : CommandLine → String
  | keygen name _ _ => name ++ ".priv"
  | createGroup _ _ out _ => out
  | addMember groupState _ _ _ outState _ => Cli.outPath groupState outState
  | joinGroup _ _ outState => outState
  | removeMember groupState _ _ outState _ => Cli.outPath groupState outState
  | updateKey groupState _ outState _ => Cli.outPath groupState outState
  | applyCommit groupState _ outState => Cli.outPath groupState outState

/-- The files that are made for others. -/
def publicOutputs : CommandLine → List String
  | keygen name _ _ => [name ++ ".pub"]
  | addMember _ _ outWelcome outCommit _ _ => [outWelcome, outCommit]
  | removeMember _ _ outCommit _ _ => [outCommit]
  | updateKey _ outCommit _ _ => [outCommit]
  | _ => []

/-- First the secret file is written, then the public ones. -/
def InOrder (line : CommandLine) (ops : List FileOp) : Prop :=
  ∃ data rest, ops = secretOps line.secretOutput data ++ rest ∧
    ∀ op ∈ rest, op.path ∈ line.publicOutputs

variable {line : CommandLine} {rest : Command Unit}

theorem logs_writeSecret (data : Bytes)
    (hrest : rest.Emits fun op => op.path ∈ line.publicOutputs) :
    Logs line.InOrder (do writeSecret line.secretOutput data; rest) :=
  fun _ => .inr ⟨data, _, rfl, hrest _⟩

theorem logs_writeGroup (group : MLSGroup)
    (hrest : rest.Emits fun op => op.path ∈ line.publicOutputs) :
    Logs line.InOrder (do Cli.writeGroup line.secretOutput group; rest) := by
  rw [Cli.writeGroup, Effectful.bind_assoc]
  exact Logs.bind (call_silent _) fun data => logs_writeSecret data hrest

theorem logs_writeGroup_last (group : MLSGroup) :
    Logs line.InOrder (Cli.writeGroup line.secretOutput group) :=
  Logs.bind (call_silent _) fun data _ => .inr ⟨data, [], rfl, nofun⟩

theorem public_emits {path : String} (data : Py Bytes) (h : path ∈ line.publicOutputs) :
    Emits (fun op => op.path ∈ line.publicOutputs) (writePublic path data) := by
  refine (writePublic_emits path data).mono ?_
  rintro op rfl
  exact h

theorem run_logs (C : Crypto) (line : CommandLine) : Logs line.InOrder (line.run C) := by
  cases line with
  | keygen name sigKey kemKey =>
      refine Logs.bind (call_silent _) fun kp => logs_writeSecret _ ?_
      exact public_emits _ (by simp [publicOutputs])
  | createGroup groupId founderPriv out initKey =>
      exact Logs.bind (readKeys_silent _) fun _ => Logs.bind (call_silent _) fun group =>
        logs_writeGroup_last group
  | addMember groupState inviteePub outWelcome outCommit outState coins =>
      refine Logs.bind (readGroup_silent _) fun group => Logs.bind (readFile_silent _) fun pub =>
        Logs.bind (call_silent _) fun _ => Logs.bind (call_silent _) fun ⟨next, welcome, commit⟩ =>
        logs_writeGroup next ?_
      exact Emits.bind (public_emits _ (by simp [publicOutputs])) fun _ =>
        public_emits _ (by simp [publicOutputs])
  | joinGroup welcome myPriv outState =>
      exact Logs.bind (readKeys_silent _) fun _ => Logs.bind (readFile_silent _) fun data =>
        Logs.bind (call_silent _) fun group => logs_writeGroup_last group
  | removeMember groupState leafIndex outCommit outState coins =>
      refine Logs.bind (readGroup_silent _) fun group =>
        Logs.bind (call_silent _) fun ⟨next, commit⟩ =>
        logs_writeGroup next ?_
      exact public_emits _ (by simp [publicOutputs])
  | updateKey groupState outCommit outState coins =>
      refine Logs.bind (readGroup_silent _) fun group =>
        Logs.bind (call_silent _) fun ⟨next, commit⟩ =>
        logs_writeGroup next ?_
      exact public_emits _ (by simp [publicOutputs])
  | applyCommit groupState commit outState =>
      exact Logs.bind (readGroup_silent _) fun group => Logs.bind (readFile_silent _) fun data =>
        Logs.bind (call_silent _) fun message => Logs.bind (call_silent _) fun update =>
        Logs.bind (call_silent _) fun next => logs_writeGroup_last next

theorem run_discreet {S : Set String} (C : Crypto) (line : CommandLine)
    (hpublic : ∀ path ∈ line.publicOutputs, path ∉ S) :
    (line.run C).Emits fun op => op.Discreet S := by
  intro disk op hop
  rcases line.run_logs C disk with hnil | ⟨data, rest, heq, hrest⟩
  · rw [hnil] at hop
    cases hop
  · rw [heq, List.mem_append] at hop
    rcases hop with hop | hop
    · simp only [secretOps, List.mem_cons, List.not_mem_nil, or_false] at hop
      rcases hop with rfl | rfl | rfl
      · exact fun _ => rfl
      · trivial
      · exact fun _ => rfl
    · exact FileOp.discreet_of_notMem (hpublic _ (hrest op hop))

end CommandLine

/-! ## At every moment of a session -/

/-- Files of the owner alone stay so at every moment, whatever commands are called and however they
end, if no command makes one of them for others. -/
theorem secret_files_guarded {S : Set String} {lines : List CommandLine}
    (hpublic : ∀ line ∈ lines, ∀ path ∈ line.publicOutputs, path ∉ S) {disk : Disk}
    (hdisk : disk.Guards S) :
    ∀ moment ∈ moments disk (session disk (lines.map fun line => line.run C)),
      moment.Guards S := by
  have hemits : ∀ x ∈ lines.map fun line => line.run C, Emits (fun op => op.Discreet S) x := by
    intro x hx
    obtain ⟨line, hline, rfl⟩ := List.mem_map.mp hx
    exact line.run_discreet C (hpublic line hline)
  exact moments_invariant (fun _ _ hop hs => hop.guards hs) (session_emits hemits disk) hdisk

namespace Sample

def keygenAlice : CommandLine := .keygen "alice" (sig 1) (kem 1)

/-- A disk that has at most a file for Alice's private keys. -/
def diskWith (keys : Option File) : Disk :=
  ⟨0o022, fun path => if path = "alice.priv" then keys else none⟩

end Sample

open Sample in
/-- Alice makes her keys twice on an empty disk. -/
theorem secret_files_guarded_alice :
    (session (diskWith none) ([keygenAlice, keygenAlice].map fun line => line.run crypto)).length =
    10 ∧ ∀ moment ∈ moments (diskWith none)
      (session (diskWith none) ([keygenAlice, keygenAlice].map fun line => line.run crypto)),
      moment.Guards {"alice.priv"} := by
  refine ⟨by decide +kernel, secret_files_guarded ?_ ?_⟩
  · simp [keygenAlice, CommandLine.publicOutputs]
  · rintro path rfl file hfile
    cases hfile

namespace CommandLine

variable {line : CommandLine} {disk : Disk} {ops : List FileOp}

/-- Operations elsewhere leave the file. -/
theorem after_other {path : String} (hops : ∀ op ∈ ops, path ≠ op.path) :
    (after disk ops).files path = disk.files path := by
  induction ops generalizing disk with
  | nil => rfl
  | cons op ops ih =>
      have hnext := @ih (Store.apply disk op) fun op' hop => hops op' (List.mem_cons_of_mem _ hop)
      exact hnext.trans (FileOp.apply_other (hops op List.mem_cons_self))

end CommandLine

namespace Command

variable {path : String} {data : Bytes} {rest : List FileOp}

/-- The file before its mode is set. -/
theorem files_written (disk : Disk) (path : String) (data : Bytes) :
    (after disk [.create path 0o600, .write path data]).files path =
      some ⟨((disk.files path).map File.mode).getD (0o600 &&& ~~~disk.umask), data⟩ := by
  change (Store.apply (Store.apply disk (FileOp.create path 0o600)) (FileOp.write path data)).files
    path = _
  rw [FileOp.write_self, FileOp.create_self]
  rfl

theorem files_secretOps (disk : Disk) (hrest : ∀ op ∈ rest, path ≠ op.path) :
    (after disk (secretOps path data ++ rest)).files path = some ⟨0o600, data⟩ := by
  rw [after_append, CommandLine.after_other hrest]
  change (Store.apply (after disk [.create path 0o600, .write path data])
    (FileOp.chmod path 0o600)).files
    path = _
  rw [FileOp.chmod_self, files_written]
  rfl

end Command

end PureMls
