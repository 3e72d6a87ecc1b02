import PureMls.Foundation.Shards
import PureMls.Model.Cli

/-! # Encrypted store

`AsyncEncryptedStore`: every group in a file of its own. What a call does before its first `await`
happens at once; its file is then written, read or removed in a thread, system call by system call,
while other calls go on. A system call may write or read a part, and a file may be gone or have a
name that the file system does not take; no call fails for another reason. -/

namespace PureMls

/-! ## Files in use -/

/-- Names, and the contents that they or open files refer to by number. -/
structure Volume where
  /-- The names that the file system takes. Most take no more than 255 bytes between two slashes. -/
  takes : String → Bool
  names : String → Option ℕ
  inodes : List Bytes

namespace Volume

/-- `open(path, "wb")`: a file that is there is cut to nothing. -/
def openWrite (vol : Volume) (path : String) : Option (ℕ × Volume) :=
  if vol.takes path then
    match vol.names path with
    | some i => some (i, { vol with inodes := vol.inodes.set i [] })
    | none => some (vol.inodes.length, { vol with
        names := fun p => if p = path then some vol.inodes.length else vol.names p
        inodes := vol.inodes ++ [[]] })
  else none

/-- What a write at an offset makes of the contents; a gap before it is filled with zeros. -/
def overwrite (offset : ℕ) (data contents : Bytes) : Bytes :=
  contents.take offset ++ List.replicate (offset - contents.length) 0 ++ data ++
    contents.drop (offset + data.length)

def write (vol : Volume) (i offset : ℕ) (data : Bytes) : Volume :=
  { vol with inodes := vol.inodes.modify i (overwrite offset data) }

def read (vol : Volume) (i : ℕ) : Bytes := vol.inodes[i]?.getD []

/-- `os.remove(path)`: open files keep what they refer to. -/
def remove (vol : Volume) (path : String) : Volume :=
  { vol with names := fun p => if p = path then none else vol.names p }

end Volume

/-- `os.path.join(dir, name)` for a name that is no absolute path. -/
def osPathJoin (dir name : String) : String :=
  if dir.toList.getLast?.getD '/' = '/' then dir ++ name else dir ++ "/" ++ name

/-! ## The store -/

/-- `os.urandom(12)` -/
abbrev VaultNonce := { nonce : Bytes // nonce.length = 12 }

structure AsyncEncryptedStore where
  storageDir : String
  vaultKey : Bytes
  size : vaultKey.length = 32

namespace AsyncEncryptedStore

def init (storageDir : String) (vaultKey : Bytes) : Py AsyncEncryptedStore :=
  if h : vaultKey.length = 32 then .ok ⟨storageDir, vaultKey, h⟩
  else .error (.valueError "Vault key must be 32 bytes (AES-256)")

/-- `_get_path` -/
def getPath (self : AsyncEncryptedStore) (groupId : Bytes) : String :=
  osPathJoin self.storageDir ("group_" ++ hexString groupId ++ ".mls")

inductive Call where
  | saveGroup (group : MLSGroup) (nonce : VaultNonce)
  | loadGroup (groupId : Bytes)
  | deleteGroup (groupId : Bytes)
  deriving DecidableEq

def Call.groupId : Call → Bytes
  | saveGroup group _ => group.state.groupId
  | loadGroup groupId => groupId
  | deleteGroup groupId => groupId

inductive Answer where
  | saved
  | loaded (group : Option MLSGroup)
  | deleted (existed : Bool)
  deriving DecidableEq

abbrev Outcome := Except Exit Answer

/-- What a call has still to do in its thread. -/
inductive Thread where
  | openWrite (path : String) (payload : Bytes)
  | write (inode : ℕ) (payload : Bytes) (offset : ℕ)
  | openRead (path : String)
  | read (inode : ℕ) (payload : Bytes)
  | remove (path : String)

variable (C : Crypto) (self : AsyncEncryptedStore)

def payload (group : MLSGroup) (nonce : VaultNonce) : Py Bytes := do
  let data ← group.toBytes
  let ciphertext ← C.aesGcmEncrypt self.vaultKey nonce.1 data group.state.groupId
  pure (nonce.1 ++ ciphertext)

/-- `except (InvalidTag, ValueError) as e` -/
def loadFault : Fault → Fault
  | .invalidTag => .valueError "Failed to decrypt or parse group state: "
  | .valueError message => .valueError s!"Failed to decrypt or parse group state: {message}"
  | e => e

/-- What `load_group` does with the bytes it has read. -/
def openPayload (groupId payload : Bytes) : Py MLSGroup := do
  Py.require (28 ≤ payload.length) (.valueError "Stored payload is too short")
  let opened : Py MLSGroup := do
    let data ← C.aesGcmDecrypt self.vaultKey (payload.take 12) (payload.drop 12) groupId
    MLSGroup.fromBytes data
  opened.rethrow loadFault

/-- Whether the call raises or a file is missing at once, or what is left to its thread; `present`
is what `os.path.exists` says. -/
def begin (present : Bool) : Call → Thread ⊕ Outcome
  | .saveGroup group nonce =>
    match payload C self group nonce with
    | .ok payload => .inl (.openWrite (self.getPath group.state.groupId) payload)
    | .error e => .inr (.error (.raised e))
  | .loadGroup groupId =>
    if present then .inl (.openRead (self.getPath groupId)) else .inr (.ok (.loaded none))
  | .deleteGroup groupId =>
    if present then .inl (.remove (self.getPath groupId)) else .inr (.ok (.deleted false))

/-- One system call of a thread, and with the last one the end of the call. A write or a read may
take any part of what is left, but at least a byte. -/
def resume (extra : ℕ) (vol : Volume) (groupId : Bytes) : Thread → (Thread ⊕ Outcome) × Volume
  | .openWrite path payload =>
    match vol.openWrite path with
    | some (i, opened) => (.inl (.write i payload 0), opened)
    | none => (.inr (.error (.refused path)), vol)
  | .write i payload offset =>
    if offset < payload.length then
      (.inl (.write i payload (min (offset + (extra + 1)) payload.length)),
        vol.write i offset (slice payload offset (offset + (extra + 1))))
    else (.inr (.ok .saved), vol)
  | .openRead path =>
    match vol.names path with
    | some i => (.inl (.read i []), vol)
    | none => (.inr (.error (.missing path)), vol)
  | .read i payload =>
    if payload.length < (vol.read i).length then
      (.inl (.read i (payload ++ slice (vol.read i) payload.length (payload.length + (extra + 1)))),
        vol)
    else (.inr ((openPayload C self groupId payload).mapError .raised |>.map (.loaded ∘ some)), vol)
  | .remove path =>
    match vol.names path with
    | some _ => (.inr (.ok (.deleted true)), vol.remove path)
    | none => (.inr (.error (.missing path)), vol)

/-! ## Calls that overlap -/

/-- The files, the calls with what their threads have still to do or how they have ended, and the
calls that have ended, in the order in which they did. -/
structure Running where
  vol : Volume
  calls : List (Call × (Thread ⊕ Outcome))
  log : List (Call × Outcome)

namespace Running

def call (s : Running) (c : Call) : Running :=
  let r := begin C self (s.vol.names (self.getPath c.groupId)).isSome c
  ⟨s.vol, s.calls ++ [(c, r)], s.log ++ Shards.ended c r⟩

/-- The thread of the `i`-th call makes a system call. -/
def resume (s : Running) (i extra : ℕ) : Running :=
  match s.calls[i]? with
  | some (c, .inl th) =>
    let (r, vol) := AsyncEncryptedStore.resume C self extra s.vol c.groupId th
    ⟨vol, s.calls.set i (c, r), s.log ++ Shards.ended c r⟩
  | _ => s

/-- No call for the group is under way. -/
def Free (s : Running) (groupId : Bytes) : Prop :=
  ∀ i c th, Shards.Busy s.calls i c th → c.groupId ≠ groupId

end Running

/-- Threads go on in any order, and calls start at any time, unless one for the same group is under
way. -/
inductive Reachable (vol : Volume) : Running → Prop where
  | init : Reachable vol ⟨vol, [], []⟩
  | call {s : Running} (c : Call) : Reachable vol s → s.Free c.groupId →
      Reachable vol (s.call C self c)
  | resume {s : Running} (i extra : ℕ) : Reachable vol s → Reachable vol (s.resume C self i extra)

end AsyncEncryptedStore

end PureMls
