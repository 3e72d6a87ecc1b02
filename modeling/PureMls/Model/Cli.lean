import PureMls.Foundation.Effects
import PureMls.Model.Dialects
import PureMls.Model.Receive

/-! # Command line

Every command is a process of its own: it reads files, calls the library and writes files. Two
paths are the same file if they are the same string. A file that is there can be read, and no call
that creates, writes or changes a file fails or writes less than it is given. -/

namespace PureMls

/-! ## Files -/

/-- Permission bits: owner, group, others. -/
abbrev Mode := BitVec 9

structure File where
  mode : Mode
  contents : Bytes
  deriving DecidableEq

structure Disk where
  umask : Mode
  files : String → Option File

namespace Disk

/-- The disk with another file at a path, or with none. -/
def put (disk : Disk) (path : String) (file : Option File) : Disk :=
  { disk with files := fun p => if p = path then file else disk.files p }

end Disk

inductive FileOp where
  /-- `open(path, O_WRONLY | O_CREAT | O_TRUNC, mode)` -/
  | create (path : String) (mode : Mode)
  | write (path : String) (data : Bytes)
  | chmod (path : String) (mode : Mode)
  deriving DecidableEq

namespace FileOp

/-- A file that is there keeps its mode when it is opened; a new one gets what the umask leaves. -/
def apply (disk : Disk) : FileOp → Disk
  | create path mode =>
    let mode := match disk.files path with
      | some file => file.mode
      | none => mode &&& ~~~disk.umask
    disk.put path (some ⟨mode, []⟩)
  | write path data => disk.put path ((disk.files path).map fun file =>
      { file with contents := file.contents ++ data })
  | chmod path mode => disk.put path ((disk.files path).map fun file => { file with mode := mode })

end FileOp

instance : Store Disk FileOp := ⟨FileOp.apply⟩

/-- How a command ends that does not return. -/
inductive Exit where
  /-- `FileNotFoundError` -/
  | missing (path : String)
  /-- `OSError`: the file system does not take the name. -/
  | refused (path : String)
  | raised (fault : Fault)
  deriving DecidableEq

abbrev Command := Effectful Disk FileOp Exit

namespace Command

/-- `open(path, "rb").read()` -/
def readFile (path : String) : Command Bytes := Effectful.look fun disk =>
  match disk.files path with
  | some file => .ok file.contents
  | none => .error (.missing path)

/-- A call of the library. -/
def call {α : Type} (x : Py α) : Command α := Effectful.look fun _ => x.mapError .raised

/-- `_write_secret` -/
def writeSecret (path : String) (data : Bytes) : Command Unit := do
  Effectful.perform (.create path 0o600)
  Effectful.perform (.write path data)
  -- the mode of a file that was there before
  Effectful.perform (.chmod path 0o600)

/-- `open(path, "wb").write(data())`; the file is there before the data is. -/
def writePublic (path : String) (data : Py Bytes) : Command Unit := do
  Effectful.perform (.create path 0o666)
  let bytes ← call data
  Effectful.perform (.write path bytes)

end Command

/-! ## Raw bytes -/

namespace MLSGroup

variable (C : Crypto)

/-- `MLSGroup.join` on the bytes of a Welcome. -/
def joinRaw (data : Bytes) (sigKey : SignatureKey) (kemKey : KemKey) : Py MLSGroup := do
  let welcome ← (DialectWelcome.fromBytes data none).rethrow fun e =>
    if e = .hang then e else .valueError s!"Failed to parse Welcome TLS bytes: {e.text}"
  join C welcome.toWelcome sigKey kemKey [] none

/-- `apply_commit` -/
def applyCommit (self : MLSGroup) (commit : GroupUpdate) : MLSGroup × Py MLSGroup :=
  self.processUpdate C commit

end MLSGroup

/-! ## Commands -/

namespace Cli

open Command

variable (C : Crypto)

/-- `args.out_state if args.out_state else args.group_state` -/
def outPath (groupState : String) (outState : Option String) : String :=
  if outState.getD "" = "" then groupState else outState.getD ""

/-- The two private keys in a `.priv` file. -/
def readKeys (path : String) : Command (SignatureKey × KemKey) := do
  let pd ← readFile path
  let sigKey ← call (SignatureKey.fromPrivateBytes (slice pd 0 32))
  let kemKey ← call (KemKey.fromPrivateBytes (slice pd 32 64))
  pure (sigKey, kemKey)

def readGroup (path : String) : Command MLSGroup := do
  let data ← readFile path
  call (MLSGroup.fromBytes data)

def writeGroup (path : String) (group : MLSGroup) : Command Unit := do
  let data ← call group.toBytes
  writeSecret path data

/-- `MLSMessage.wrap_commit(commit).to_bytes()` -/
def commitBytes (commit : GroupUpdate) : Py Bytes := do
  let message ← MLSMessage.wrapCommit C commit
  message.toBytes

def keygen (name : String) (sigKey : SignatureKey) (kemKey : KemKey) : Command Unit := do
  let kp ← call (KeyPackage.create (kemKey.publicBytes C) (kemKey.publicBytes C)
    (sigKey.publicBytes C) (ascii name) (sigKey.sign C))
  writeSecret (name ++ ".priv") (sigKey.privateBytes ++ kemKey.privateBytes)
  writePublic (name ++ ".pub") kp.toBytes

def createGroup (groupId founderPriv out : String) (initKey : KemKey) : Command Unit := do
  let (sigKey, kemKey) ← readKeys founderPriv
  let group ← call (MLSGroup.create C (ascii groupId) sigKey kemKey initKey)
  writeGroup out group

def addMember (groupState inviteePub outWelcome outCommit : String) (outState : Option String)
    (coins : CommitCoins) : Command Unit := do
  let group ← readGroup groupState
  let pub ← readFile inviteePub
  let (kp, _) ← call (KeyPackage.fromBytesAt pub 0)
  let (newGroup, welcome, commit) ← call (group.addMember C coins kp).2
  writeGroup (outPath groupState outState) newGroup
  writePublic outWelcome (DialectWelcome.toBytes ⟨welcome, none⟩)
  writePublic outCommit (commitBytes C commit)

def joinGroup (welcome myPriv outState : String) : Command Unit := do
  let (sigKey, kemKey) ← readKeys myPriv
  let data ← readFile welcome
  let group ← call (MLSGroup.joinRaw C data sigKey kemKey)
  writeGroup outState group

def removeMember (groupState : String) (leafIndex : ℤ) (outCommit : String)
    (outState : Option String) (coins : CommitCoins) : Command Unit := do
  let group ← readGroup groupState
  let (newGroup, commit) ← call (group.removeMember C coins leafIndex).2
  writeGroup (outPath groupState outState) newGroup
  writePublic outCommit (commitBytes C commit)

def updateKey (groupState outCommit : String) (outState : Option String) (coins : CommitCoins) :
    Command Unit := do
  let group ← readGroup groupState
  let (newGroup, commit) ← call (group.updateKey C coins).2
  writeGroup (outPath groupState outState) newGroup
  writePublic outCommit (commitBytes C commit)

def applyCommit (groupState commit : String) (outState : Option String) : Command Unit := do
  let group ← readGroup groupState
  let data ← readFile commit
  let message ← call (MLSMessage.fromBytes data)
  let update ← call message.unwrapCommit
  let newGroup ← call (group.applyCommit C update).2
  writeGroup (outPath groupState outState) newGroup

end Cli

/-- A command line, and what its process draws at random. -/
inductive CommandLine where
  | keygen (name : String) (sigKey : SignatureKey) (kemKey : KemKey)
  | createGroup (groupId founderPriv out : String) (initKey : KemKey)
  | addMember (groupState inviteePub outWelcome outCommit : String) (outState : Option String)
      (coins : CommitCoins)
  | joinGroup (welcome myPriv outState : String)
  | removeMember (groupState : String) (leafIndex : ℤ) (outCommit : String)
      (outState : Option String) (coins : CommitCoins)
  | updateKey (groupState outCommit : String) (outState : Option String) (coins : CommitCoins)
  | applyCommit (groupState commit : String) (outState : Option String)

namespace CommandLine

/-- `main` -/
def run (C : Crypto) : CommandLine → Command Unit
  | keygen name sigKey kemKey => Cli.keygen C name sigKey kemKey
  | createGroup groupId founderPriv out initKey => Cli.createGroup C groupId founderPriv out initKey
  | addMember groupState inviteePub outWelcome outCommit outState coins =>
    Cli.addMember C groupState inviteePub outWelcome outCommit outState coins
  | joinGroup welcome myPriv outState => Cli.joinGroup C welcome myPriv outState
  | removeMember groupState leafIndex outCommit outState coins =>
    Cli.removeMember C groupState leafIndex outCommit outState coins
  | updateKey groupState outCommit outState coins =>
      Cli.updateKey C groupState outCommit outState coins
  | applyCommit groupState commit outState => Cli.applyCommit C groupState commit outState

end CommandLine

end PureMls
