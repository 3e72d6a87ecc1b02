import PureMls.Foundation.Shards
import PureMls.Model.Storage
import PureMls.Verification.Asynchrony
import PureMls.Verification.Entering

/-! # Interleaved calls of the encrypted store

Every group has a file of its own, so that calls for different groups cannot meet. -/

namespace PureMls

namespace AsyncEncryptedStore

variable {C : Crypto} {self : AsyncEncryptedStore}

/-! ## One file for every group -/

/-- The number that hexadecimal digits spell. -/
def hexValue (digits : List Char) : ℕ :=
  digits.foldl
    (fun n digit => 16 * n + (if digit.toNat < 58 then digit.toNat - 48 else digit.toNat - 87)) 0

private theorem length_hexDigits : ∀ b < 256, (hexDigits 2 b).toList.length = 2 := by decide +kernel

private theorem hexValue_hexDigits :
    ∀ b < 256, hexValue (hexDigits 2 b).toList = b := by decide +kernel

theorem hexString_injective : Function.Injective hexString := by
  intro xs ys h
  have hlist := congrArg String.toList h
  simp only [hexString, String.toList_join, List.flatMap_map] at hlist
  clear h
  induction xs generalizing ys with
  | nil =>
      cases ys with
      | nil => rfl
      | cons y ys =>
          have hlen := congrArg List.length hlist
          simp only [List.flatMap_nil, List.flatMap_cons, List.length_append, List.length_nil,
            length_hexDigits y.toNat y.toNat_lt] at hlen
          omega
  | cons x xs ih =>
      cases ys with
      | nil =>
          have hlen := congrArg List.length hlist
          simp only [List.flatMap_nil, List.flatMap_cons, List.length_append, List.length_nil,
            length_hexDigits x.toNat x.toNat_lt] at hlen
          omega
      | cons y ys =>
          simp only [List.flatMap_cons] at hlist
          have hlen :
            (hexDigits 2 x.toNat).toList.length = (hexDigits 2 y.toNat).toList.length := by
            rw [length_hexDigits x.toNat x.toNat_lt, length_hexDigits y.toNat y.toNat_lt]
          obtain ⟨hhead, htail⟩ := List.append_inj hlist hlen
          have hvalue := congrArg hexValue hhead
          rw [hexValue_hexDigits x.toNat x.toNat_lt,
            hexValue_hexDigits y.toNat y.toNat_lt] at hvalue
          rw [UInt8.toNat_inj.mp hvalue, ih htail]

theorem getPath_injective (self : AsyncEncryptedStore) : Function.Injective self.getPath := by
  intro groupId groupId' h
  have hlist := congrArg String.toList h
  simp only [getPath, osPathJoin] at hlist
  apply hexString_injective
  apply String.toList_inj.mp
  split at hlist
  · simp only [String.toList_append, List.append_cancel_left_eq,
      List.append_cancel_right_eq] at hlist
    exact hlist
  · simp only [String.toList_append, List.append_cancel_left_eq,
      List.append_cancel_right_eq] at hlist
    exact hlist

end AsyncEncryptedStore

namespace Volume

variable {vol : Volume} {path path' : String} {i : ℕ}

/-- Every name is one that the file system takes, and refers to contents that no other name refers
to. -/
structure WellFormed (vol : Volume) : Prop where
  takes : ∀ path i, vol.names path = some i → vol.takes path
  inRange : ∀ path i, vol.names path = some i → i < vol.inodes.length
  separate : ∀ path path' i, vol.names path = some i → vol.names path' = some i → path = path'

/-- The file at a path: its number and its contents. -/
def view (vol : Volume) (path : String) : Option (ℕ × Bytes) :=
  (vol.names path).bind fun i => vol.inodes[i]?.map fun contents => (i, contents)

theorem view_eq_some {contents : Bytes} : vol.view path = some (i, contents) ↔
    vol.names path = some i ∧ vol.inodes[i]? = some contents := by
  cases hname : vol.names path with
  | none => simp [view, hname]
  | some j =>
      simp only [view, hname, Option.bind_some, Option.map_eq_some_iff, Prod.mk.injEq,
        Option.some.injEq]
      constructor
      · rintro ⟨_, hget, rfl, rfl⟩
        exact ⟨rfl, hget⟩
      · rintro ⟨rfl, hget⟩
        exact ⟨_, hget, rfl, rfl⟩

theorem WellFormed.isSome_view (h : vol.WellFormed) (path : String) :
    (vol.view path).isSome = (vol.names path).isSome := by
  cases hname : vol.names path with
  | none => simp [view, hname]
  | some i =>
      have hget := List.getElem?_eq_getElem (h.inRange path i hname)
      simp [view, hname, hget]

/-- The files that are not at a path stay as they are. -/
structure Keeps (vol vol' : Volume) (path : String) : Prop where
  wellFormed : vol'.WellFormed
  takes : vol'.takes = vol.takes
  others : ∀ other, other ≠ path → vol'.view other = vol.view other

theorem view_of_names {vol' : Volume} {other : String} (hname : vol'.names other = vol.names other)
    (hget : ∀ j, vol.names other = some j → vol'.inodes[j]? = vol.inodes[j]?) :
    vol'.view other = vol.view other := by
  rw [view, view, hname]
  cases hj : vol.names other with
  | none => rfl
  | some j => rw [Option.bind_some, Option.bind_some, hget j hj]

/-- Contents change at the number of a path. -/
theorem WellFormed.keeps_inodes (h : vol.WellFormed) (hname : vol.names path = some i)
    {inodes : List Bytes} (hlen : inodes.length = vol.inodes.length)
    (hget : ∀ j, j ≠ i → inodes[j]? = vol.inodes[j]?) :
    Keeps vol { vol with inodes := inodes } path := by
  refine ⟨⟨h.takes, fun p j hj => (h.inRange p j hj).trans_eq hlen.symm, h.separate⟩, rfl,
    fun other hother => ?_⟩
  refine view_of_names rfl fun j hj => hget j ?_
  rintro rfl
  exact hother (h.separate other path j hj hname)

theorem WellFormed.openWrite (h : vol.WellFormed) {vol' : Volume}
    (hopen : vol.openWrite path = some (i, vol')) :
    Keeps vol vol' path ∧ vol'.view path = some (i, []) := by
  unfold Volume.openWrite at hopen
  split_ifs at hopen with htakes
  cases hname : vol.names path with
  | some j =>
      have hlt := h.inRange path j hname
      simp only [hname, Option.some.injEq, Prod.mk.injEq] at hopen
      obtain ⟨rfl, rfl⟩ := hopen
      refine ⟨h.keeps_inodes hname List.length_set fun j hj => List.getElem?_set_ne hj.symm, ?_⟩
      exact view_eq_some.mpr ⟨hname, List.getElem?_set_self hlt⟩
  | none =>
      simp only [hname, Option.some.injEq, Prod.mk.injEq] at hopen
      obtain ⟨rfl, rfl⟩ := hopen
      have hlast : ∀ p, vol.names p ≠ some vol.inodes.length := fun p hp => (h.inRange p _ hp).false
      refine ⟨⟨⟨fun p j hj => ?_, fun p j hj => ?_, fun p p' j hj hj' => ?_⟩, rfl,
        fun other hother => ?_⟩, ?_⟩
      · simp only at hj
        split_ifs at hj with hp
        · exact hp ▸ htakes
        · exact h.takes p j hj
      · simp only at hj
        rw [List.length_append, List.length_singleton]
        split_ifs at hj
        · cases hj
          omega
        · have := h.inRange p j hj
          omega
      · simp only at hj hj'
        split_ifs at hj hj' with hp hp'
        · exact hp.trans hp'.symm
        · exact absurd (hj'.trans hj.symm) (hlast p')
        · exact absurd (hj.trans hj'.symm) (hlast p)
        · exact h.separate p p' j hj hj'
      · refine view_of_names (if_neg hother) fun j hj => ?_
        exact List.getElem?_append_left (h.inRange other j hj)
      · exact view_eq_some.mpr ⟨if_pos rfl, List.getElem?_concat_length⟩

theorem WellFormed.write (h : vol.WellFormed) {contents : Bytes}
    (hview : vol.view path = some (i, contents)) (offset : ℕ)
    (data : Bytes) : Keeps vol (vol.write i offset data) path ∧
      (vol.write i offset data).view path = some (i, overwrite offset data contents) := by
  obtain ⟨hname, hget⟩ := view_eq_some.mp hview
  refine ⟨h.keeps_inodes hname (List.length_modify _ _ _) fun j hj =>
    List.getElem?_modify_ne _ _ hj.symm, ?_⟩
  refine view_eq_some.mpr ⟨hname, ?_⟩
  simp only [Volume.write, List.getElem?_modify_eq, hget]
  rfl

theorem WellFormed.remove (h : vol.WellFormed) (path : String) :
    Keeps vol (vol.remove path) path ∧ (vol.remove path).view path = none := by
  have hold : ∀ {p j}, (vol.remove path).names p = some j → vol.names p = some j := by
    intro p j hj
    simp only [Volume.remove] at hj
    split_ifs at hj
    exact hj
  refine ⟨⟨⟨fun p j hj => h.takes p j (hold hj), fun p j hj => h.inRange p j (hold hj),
      fun p p' j hj hj' => h.separate p p' j (hold hj) (hold hj')⟩, rfl,
        fun other hother => view_of_names (if_neg hother) fun j _ => rfl⟩, ?_⟩
  have hnone : (vol.remove path).names path = none := if_pos rfl
  rw [view, hnone]
  rfl

theorem take_append_slice (bytes : Bytes) (offset n : ℕ) :
    bytes.take offset ++ slice bytes offset (offset + n) = bytes.take (offset + n) := by
  rw [slice, Nat.add_sub_cancel_left, List.take_add]

/-- A part of the payload is written after the part before it. -/
theorem overwrite_take {bytes : Bytes} {offset : ℕ} (h : offset ≤ bytes.length) (n : ℕ) :
    overwrite offset (slice bytes offset (offset + n)) (bytes.take offset) = bytes.take
      (offset + n) := by
  have hlen : (bytes.take offset).length = offset := List.length_take_of_le h
  have htake : (bytes.take offset).take offset = bytes.take offset := List.take_of_length_le hlen.le
  rw [overwrite, hlen, htake, Nat.sub_self, List.replicate_zero, List.append_nil, take_append_slice,
    List.drop_eq_nil_of_le (by omega), List.append_nil]

theorem read_of_view {contents : Bytes} (hview : vol.view path = some (i, contents)) :
    vol.read i = contents := by
  rw [read, (view_eq_some.mp hview).2]
  rfl

end Volume

/-! ## A call that is alone on its file -/

namespace AsyncEncryptedStore

variable {C : Crypto} {self : AsyncEncryptedStore} {groupId data bytes : Bytes} {vol : Volume}

/-- A file of the store: the dump of a handle, encrypted for a group. -/
def Sealed (C : Crypto) (self : AsyncEncryptedStore) (groupId data bytes : Bytes) : Prop :=
  ∃ (nonce : VaultNonce) (ciphertext : Bytes),
    C.aesGcmEncrypt self.vaultKey nonce.1 data groupId = .ok ciphertext ∧
      bytes = nonce.1 ++ ciphertext

theorem Sealed.openPayload (hC : C.Correct) (htag : C.TagSized)
    (h : Sealed C self groupId data bytes) :
    openPayload C self groupId bytes = (MLSGroup.fromBytes data).rethrow loadFault := by
  obtain ⟨⟨nonce, hnonce⟩, ciphertext, hencrypt, rfl⟩ := h
  have hlen := htag _ _ _ _ _ hencrypt
  have hlong : 28 ≤ (nonce ++ ciphertext).length := by
    rw [List.length_append, hnonce, hlen]
    omega
  have htake : (nonce ++ ciphertext).take 12 = nonce := List.take_left' hnonce
  have hdrop : (nonce ++ ciphertext).drop 12 = ciphertext := List.drop_left' hnonce
  rw [AsyncEncryptedStore.openPayload, Py.require_of _ hlong, Py.ok_bind, htake, hdrop,
    hC.decrypt_encrypt _ _ _ _ _ hencrypt]
  rfl

/-- What a call does to the dump that is kept for its group, if any, when nothing else goes on and
the file system takes these names. -/
def serve (C : Crypto) (self : AsyncEncryptedStore) (takes : String → Bool) :
    Call → Option Bytes → Outcome × Option Bytes
  | .saveGroup group nonce, kept =>
    match group.toBytes, payload C self group nonce with
    | .ok data, .ok _ =>
      let path := self.getPath group.state.groupId
      if takes path then (.ok .saved, some data) else (.error (.refused path), kept)
    | _, .error e => (.error (.raised e), kept)
    | .error e, _ => (.error (.raised e), kept)
  | .loadGroup _, none => (.ok (.loaded none), none)
  | .loadGroup _, some data =>
    ((((MLSGroup.fromBytes data).rethrow loadFault).mapError .raised).map (.loaded ∘ some),
      some data)
  | .deleteGroup _, kept => (.ok (.deleted kept.isSome), none)

/-- The file of a group, with its number, against the dump that is kept. -/
def Idle (C : Crypto) (self : AsyncEncryptedStore) (groupId : Bytes) (file : Option (ℕ × Bytes))
    (kept : Option Bytes) : Prop :=
  Option.Rel (fun file data => Sealed C self groupId data file.2) file kept

/-- How far a call is with the file of its group. -/
inductive Busy (C : Crypto) (self : AsyncEncryptedStore) (takes : String → Bool) :
    Call → Thread → Option (ℕ × Bytes) → Option Bytes → Prop where
  | openWrite {group nonce bytes file kept} : payload C self group nonce = .ok bytes →
      Idle C self group.state.groupId file kept →
      Busy C self takes (.saveGroup group nonce)
        (.openWrite (self.getPath group.state.groupId) bytes) file kept
  | write {group nonce bytes i offset kept} : payload C self group nonce = .ok bytes →
      takes (self.getPath group.state.groupId) →
      Busy C self takes (.saveGroup group nonce) (.write i bytes offset)
        (some (i, bytes.take offset)) kept
  | openRead {groupId i contents kept} : Idle C self groupId (some (i, contents)) kept →
      Busy C self takes (.loadGroup groupId) (.openRead (self.getPath groupId))
        (some (i, contents)) kept
  | read {groupId i contents got kept} : Idle C self groupId (some (i, contents)) kept →
      got = contents.take got.length →
      Busy C self takes (.loadGroup groupId) (.read i got) (some (i, contents)) kept
  | remove {groupId i contents kept} : Idle C self groupId (some (i, contents)) kept →
      Busy C self takes (.deleteGroup groupId) (.remove (self.getPath groupId))
        (some (i, contents)) kept

/-- The store as calls on the files of their groups. -/
def service (C : Crypto) (self : AsyncEncryptedStore) (takes : String → Bool) :
    Shards.Service Bytes (Option (ℕ × Bytes)) Call Thread Outcome where
  key := Call.groupId
  start c file := begin C self file.isSome c
  Step c th file r file' := ∃ vol vol' extra, Volume.WellFormed vol ∧ vol.takes = takes ∧
    vol.view (self.getPath c.groupId) = file ∧ resume C self extra vol c.groupId th = (r, vol') ∧
    vol'.view (self.getPath c.groupId) = file'

abbrev Settles (C : Crypto) (self : AsyncEncryptedStore) (takes : String → Bool) :=
  Shards.Settles (service C self takes) (serve C self takes) (Idle C self) (Busy C self takes)

variable {takes : String → Bool}

theorem serve_saveGroup {group : MLSGroup} {nonce : VaultNonce}
    (h : payload C self group nonce = .ok bytes)
    (kept : Option Bytes) : ∃ data, Sealed C self group.state.groupId data bytes ∧
      serve C self takes (.saveGroup group nonce) kept = if takes
        (self.getPath group.state.groupId) then
        (.ok .saved, some data) else
          (.error (.refused (self.getPath group.state.groupId)), kept) := by
  obtain ⟨data, hdata, hencrypt⟩ := Py.bind_eq_ok.mp h
  obtain ⟨ciphertext, hencrypt, hbytes⟩ := Py.bind_eq_ok.mp hencrypt
  refine ⟨data, ⟨nonce, ciphertext, hencrypt, (Except.ok.inj hbytes).symm⟩, ?_⟩
  simp only [serve, hdata, h]

theorem serve_saved {group : MLSGroup} {nonce : VaultNonce} {kept : Option Bytes}
    (h : (serve C self takes (.saveGroup group nonce) kept).1 = .ok .saved) :
    ∃ data, group.toBytes = .ok data ∧
      (serve C self takes (.saveGroup group nonce) kept).2 = some data := by
  cases hpayload : payload C self group nonce with
  | error e =>
      simp only [serve, hpayload] at h
      cases group.toBytes <;> cases h
  | ok bytes =>
      obtain ⟨data, hdata, -⟩ := Py.bind_eq_ok.mp hpayload
      refine ⟨data, hdata, ?_⟩
      simp only [serve, hpayload, hdata] at h ⊢
      split_ifs at h ⊢
      rfl

theorem begin_settles (c : Call) (file : Option (ℕ × Bytes)) (kept : Option Bytes)
    (h : Idle C self c.groupId file kept) :
    Settles C self takes c (begin C self file.isSome c) file kept := by
  cases c with
  | saveGroup group nonce =>
      cases hpayload : payload C self group nonce with
      | ok bytes =>
          simp only [begin, hpayload]
          exact .openWrite hpayload h
      | error e =>
          simp only [begin, hpayload, Settles, Shards.Settles, serve]
          cases group.toBytes <;> exact ⟨trivial, h⟩
  | loadGroup groupId =>
      cases h with
      | none => exact ⟨rfl, .none⟩
      | some hsealed => exact Busy.openRead (.some hsealed)
  | deleteGroup groupId =>
      cases h with
      | none => exact ⟨rfl, .none⟩
      | some hsealed => exact Busy.remove (.some hsealed)

/-- A system call of a busy call touches no other file, and takes the call further. -/
theorem resume_settles (hC : C.Correct) (htag : C.TagSized) (hvol : vol.WellFormed) (extra : ℕ)
    {c : Call} {th : Thread} {kept : Option Bytes}
    (h : Busy C self vol.takes c th (vol.view (self.getPath c.groupId)) kept) :
    vol.Keeps (resume C self extra vol c.groupId th).2 (self.getPath c.groupId) ∧
      Settles C self vol.takes c (resume C self extra vol c.groupId th).1
        ((resume C self extra vol c.groupId th).2.view (self.getPath c.groupId)) kept := by
  have hsame : vol.Keeps vol (self.getPath c.groupId) := ⟨hvol, rfl, fun _ _ => rfl⟩
  generalize hview : vol.view (self.getPath c.groupId) = file at h
  cases h with
  | @openWrite group nonce bytes _ _ hpayload hidle =>
      obtain ⟨data, -, hserve⟩ := serve_saveGroup hpayload kept
      simp only [resume, Call.groupId]
      cases hopen : vol.openWrite (self.getPath group.state.groupId) with
      | some opened =>
          obtain ⟨i, vol'⟩ := opened
          obtain ⟨hkeeps, hopened⟩ := hvol.openWrite hopen
          refine ⟨hkeeps, ?_⟩
          simp only [hopened]
          refine Busy.write hpayload ?_
          by_contra hrefused
          rw [Volume.openWrite, if_neg hrefused] at hopen
          cases hopen
      | none =>
          have hrefused : ¬ vol.takes (self.getPath group.state.groupId) := by
            intro htakes
            rw [Volume.openWrite, if_pos htakes] at hopen
            split at hopen <;> cases hopen
          rw [if_neg hrefused] at hserve
          refine ⟨hsame, ?_⟩
          simp only [Settles, Shards.Settles, hserve]
          exact ⟨trivial, hview ▸ hidle⟩
  | @write group nonce bytes i offset _ hpayload htakes =>
      by_cases hlt : offset < bytes.length
      · obtain ⟨hkeeps, hwritten⟩ :=
          hvol.write hview offset (slice bytes offset (offset + (extra + 1)))
        rw [Volume.overwrite_take hlt.le, List.take_eq_take_min] at hwritten
        simp only [resume, if_pos hlt]
        refine ⟨hkeeps, ?_⟩
        rw [hwritten]
        exact Busy.write hpayload htakes
      · obtain ⟨data, hsealed, hserve⟩ := serve_saveGroup hpayload kept
        rw [if_pos htakes] at hserve
        simp only [resume, if_neg hlt]
        refine ⟨hsame, ?_⟩
        rw [hview, List.take_of_length_le (Nat.not_lt.mp hlt)]
        simp only [Settles, Shards.Settles, hserve]
        exact ⟨trivial, .some hsealed⟩
  | @openRead groupId i contents _ hidle =>
      obtain ⟨hname, -⟩ := Volume.view_eq_some.mp hview
      have hname' : vol.names (self.getPath groupId) = some i := hname
      simp only [resume, hname']
      refine ⟨hsame, ?_⟩
      rw [hview]
      exact Busy.read hidle rfl
  | @read groupId i contents got _ hidle hgot =>
      have hread : vol.read i = contents := Volume.read_of_view hview
      by_cases hlt : got.length < contents.length
      · simp only [resume, hread, if_pos hlt]
        refine ⟨hsame, ?_⟩
        rw [hview]
        refine Busy.read hidle ?_
        have hmore := Volume.take_append_slice contents got.length (extra + 1)
        rw [← hgot] at hmore
        rw [hmore, List.length_take, ← List.take_eq_take_min]
      · rw [List.take_of_length_le (Nat.not_lt.mp hlt)] at hgot
        subst hgot
        simp only [resume, hread, lt_irrefl, if_false]
        refine ⟨hsame, ?_⟩
        rw [hview]
        cases hidle with
        | some hsealed =>
            simp only [Call.groupId, hsealed.openPayload hC htag]
            exact ⟨rfl, .some hsealed⟩
  | @remove groupId i contents _ hidle =>
      obtain ⟨hname, -⟩ := Volume.view_eq_some.mp hview
      have hname' : vol.names (self.getPath groupId) = some i := hname
      obtain ⟨hkeeps, hnone⟩ := hvol.remove (self.getPath groupId)
      simp only [resume, hname']
      refine ⟨hkeeps, ?_⟩
      simp only [Call.groupId, hnone]
      cases hidle with
      | some hsealed => exact ⟨rfl, .none⟩

/-! ## Calls that overlap -/

/-- The files of the groups. -/
def files (self : AsyncEncryptedStore) (vol : Volume) (groupId : Bytes) : Option (ℕ × Bytes) :=
  vol.view (self.getPath groupId)

theorem files_of_keeps {vol' : Volume} (h : vol.Keeps vol' (self.getPath groupId)) :
    self.files vol' =
    Function.update (self.files vol) groupId (vol'.view (self.getPath groupId)) := by
  funext other
  by_cases hother : other = groupId
  · subst hother
    rw [Function.update_self, files]
  · rw [Function.update_of_ne hother]
    exact h.others _ fun heq => hother (self.getPath_injective heq)

theorem simulates (hC : C.Correct) (htag : C.TagSized) :
    Shards.Simulates (service C self takes) (serve C self takes) (Idle C self)
      (Busy C self takes) := by
  refine ⟨begin_settles, ?_⟩
  rintro c th file kept r file' hbusy ⟨vol, vol', extra, hvol, rfl, rfl, hresume, rfl⟩
  have hset := (resume_settles hC htag hvol extra hbusy).2
  rw [hresume] at hset
  exact hset

variable {s : Running} {kept : Bytes → Option Bytes}

/-- The store behaves as calls on the files of their groups. -/
theorem Reachable.sharded (hC : C.Correct) (htag : C.TagSized) (hvol : vol.WellFormed)
    (hkept : ∀ groupId, Idle C self groupId (self.files vol groupId) (kept groupId))
    (h : Reachable C self vol s) : s.vol.WellFormed ∧ s.vol.takes = vol.takes ∧
      Shards.Reachable (service C self vol.takes)
        (self.files vol) ⟨self.files s.vol, s.calls, s.log⟩ := by
  induction h with
  | init => exact ⟨hvol, rfl, .init⟩
  | @call s c _ hfree ih =>
      obtain ⟨hformed, htakes, hshards⟩ := ih
      refine ⟨hformed, htakes, hshards.call hfree ?_⟩
      rw [← hformed.isSome_view]
      rfl
  | @resume s i extra _ ih =>
      obtain ⟨hformed, htakes, hshards⟩ := ih
      rw [Running.resume]
      split
      next c th hbusy =>
        have hserves := (hshards.serial (simulates hC htag) hkept).2
        have hbusy' := hserves.busy i c th hbusy
        rw [← htakes] at hbusy'
        have hkeeps := (resume_settles hC htag hformed extra hbusy').1
        refine ⟨hkeeps.wellFormed, hkeeps.takes.trans htakes, ?_⟩
        rw [files_of_keeps hkeeps]
        exact hshards.step hbusy ⟨s.vol, _, extra, hformed, htakes, rfl, rfl, rfl⟩
      next => exact ⟨hformed, htakes, hshards⟩

/-- Calls that overlap, but not on one group, have the results of the same calls made one after the
other on a map from group ids to dumps, in the order in which they end; the files of the groups that
no call is under way for hold what that map holds. A save under a name that the file system does not
take is refused by both. -/
theorem interleaved_calls_serial (hC : C.Correct) (htag : C.TagSized) (hvol : vol.WellFormed)
    (hkept : ∀ groupId, Idle C self groupId (self.files vol groupId) (kept groupId))
    (h : Reachable C self vol s) :
    s.log.map Prod.snd = Shards.results Call.groupId (serve C self vol.takes) kept
      (s.log.map Prod.fst) ∧
    ∀ groupId, s.Free groupId → Idle C self groupId (self.files s.vol groupId)
      (Shards.leave Call.groupId (serve C self vol.takes) kept (s.log.map Prod.fst) groupId) := by
  obtain ⟨-, -, hshards⟩ := h.sharded hC htag hvol hkept
  obtain ⟨hresults, hserves⟩ := hshards.serial (simulates hC htag) hkept
  exact ⟨hresults, hserves.idle⟩

/-- A group that was saved last is loaded as the same member, whatever calls for other groups were
under way meanwhile. -/
theorem saved_group_loaded (hC : C.Correct) (htag : C.TagSized) (hvol : vol.WellFormed)
    (hkept : ∀ groupId, Idle C self groupId (self.files vol groupId) (kept groupId))
    (h : Reachable C self vol s) {before between after : List (Call × Outcome)} {group : MLSGroup}
    {nonce : VaultNonce} {o : Outcome}
    (hlog : s.log = before ++ (.saveGroup group nonce, .ok .saved) ::
      (between ++ (.loadGroup group.state.groupId, o) :: after))
    (hbetween : ∀ e ∈ between, e.1.groupId = group.state.groupId →
    ∃ groupId, e.1 = .loadGroup groupId)
    (hreached : Reached C group) (hjoiner : group.state.keySchedule.joinerSecret.length = 32) :
    ∃ restored, o = .ok (.loaded (some restored)) ∧ SameMember restored group ∧
      ∀ ref, ref ∈ restored.consumedKeyPackages ↔ ref ∈ group.consumedKeyPackages := by
  obtain ⟨-, -, hshards⟩ := h.sharded hC htag hvol hkept
  obtain ⟨hresults, -⟩ := hshards.serial (simulates hC htag) hkept
  have hsplit : s.log = (before ++ (.saveGroup group nonce, .ok .saved) :: between) ++
      (.loadGroup group.state.groupId, o) :: after := by
    rw [hlog, List.append_assoc, List.cons_append]
  obtain ⟨data, hdata, hkeeps⟩ := serve_saved (Shards.result_at (hlog ▸ hresults)).symm
  have hload := Shards.result_at (hsplit ▸ hresults)
  have hleft : Shards.leave Call.groupId (serve C self vol.takes) kept
      ((before ++ (.saveGroup group nonce, .ok .saved) :: between).map Prod.fst)
        group.state.groupId =
      some data := by
    rw [List.map_append, List.map_cons, List.append_cons, Shards.leave, List.foldl_append]
    have hquiet : ∀ c ∈ between.map Prod.fst, c.groupId = group.state.groupId →
        ∀ x, (serve C self vol.takes c x).2 = x := by
      intro c hc hgroup x
      obtain ⟨e, he, rfl⟩ := List.mem_map.mp hc
      obtain ⟨groupId, hcall⟩ := hbetween e he hgroup
      rw [hcall]
      cases x <;> rfl
    refine (Shards.leave_of_unchanged hquiet _).trans ?_
    exact (congrFun (Shards.leave_concat kept _ _) _).trans
      ((Function.update_self _ _ _).trans hkeeps)
  have honwire : group.state.tree.OnWire := hreached.onWire (fun _ hc => hc) (fun _ _ hc => hc)
  obtain ⟨restored, hrestored, hrefs, heq⟩ := MLSGroup.fromBytes_toBytes hdata honwire
    (MLSGroup.secrets_of_joiner (hreached.wellSized hC) hjoiner)
  refine ⟨restored, ?_, .of_loaded heq, hrefs⟩
  rw [hload]
  change (serve C self vol.takes (.loadGroup group.state.groupId)
    (Shards.leave Call.groupId (serve C self vol.takes) kept _
    group.state.groupId)).1 = _
  rw [hleft, serve, hrestored]
  rfl

end AsyncEncryptedStore

/-! ## Two groups in one store -/

namespace Sample

open AsyncEncryptedStore

def vault : AsyncEncryptedStore := ⟨"vault", List.replicate 32 65, by simp⟩

def vaultNonce (b : UInt8) : VaultNonce := ⟨List.replicate 12 b, by simp⟩

/-- An empty directory `vault`; after `vault/` a name has at most 255 characters. -/
def emptyVolume : Volume := ⟨fun path => path.toList.length ≤ 261, fun _ => none, []⟩

def freeNow (s : Running) (groupId : Bytes) : Bool :=
  s.calls.all fun call => match call with
    | (c, .inl _) => c.groupId ≠ groupId
    | _ => true

theorem free_of_freeNow {s : Running} {groupId : Bytes} (h : freeNow s groupId = true) :
    s.Free groupId := by
  intro i c th hbusy
  have hcall := List.all_eq_true.mp h _ (List.mem_of_getElem? hbusy)
  exact of_decide_eq_true hcall

/-- A call is made, or a thread goes on. -/
def play (s : Running) : Call ⊕ (ℕ × ℕ) → Py Running
  | .inl c => do
    expect (freeNow s c.groupId = true)
    pure (s.call crypto vault c)
  | .inr (i, extra) => pure (s.resume crypto vault i extra)

theorem play_reachable {events : List (Call ⊕ (ℕ × ℕ))} {s s' : Running}
    (hs : AsyncEncryptedStore.Reachable crypto vault emptyVolume s)
    (h : events.foldlM play s = .ok s') :
    AsyncEncryptedStore.Reachable crypto vault emptyVolume s' := by
  induction events generalizing s with
  | nil =>
      obtain rfl := Except.ok.inj h
      exact hs
  | cons event events ih =>
      rw [List.foldlM_cons] at h
      obtain ⟨next, hnext, h⟩ := Py.bind_eq_ok.mp h
      refine ih ?_ h
      cases event with
      | inl c =>
          obtain ⟨_, hfree, hnext⟩ := Py.bind_eq_ok.mp hnext
          obtain rfl := Except.ok.inj hnext
          exact .call c hs (free_of_freeNow (Py.require_eq_ok.mp hfree))
      | inr step =>
          obtain rfl := Except.ok.inj hnext
          exact .resume _ _ hs

/-- Both groups are saved at once, the first in two pieces; it is loaded before the other is
through. A group with an id of 123 bytes is not saved. -/
def storeRun : Py Unit := do
  let alice ← MLSGroup.create crypto (ascii "g") (sig 1) (kem 1) (kem 2)
  let other ← MLSGroup.create crypto (ascii "h") (sig 1) (kem 1) (kem 2)
  let long ← MLSGroup.create crypto (List.replicate 123 7) (sig 1) (kem 1) (kem 2)
  let s ← List.foldlM play ⟨emptyVolume, [], []⟩ [.inl (.saveGroup alice (vaultNonce 1)),
    .inl (.saveGroup other (vaultNonce 2)), .inr (0, 0), .inr (1, 0), .inr (0, 5), .inr (1, 9999),
    .inr (0, 9999), .inr (0, 0), .inl (.loadGroup (ascii "g")), .inr (2, 0), .inr (1, 0),
    .inr (2, 9999), .inr (2, 0), .inl (.saveGroup long (vaultNonce 3)), .inr (3, 0)]
  expect (alice.state.groupId = ascii "g" ∧ other.state.groupId = ascii "h" ∧
    alice.state.keySchedule.joinerSecret.length = 32)
  expect (s.log.map Prod.fst = [.saveGroup alice (vaultNonce 1), .saveGroup other (vaultNonce 2),
    .loadGroup (ascii "g"), .saveGroup long (vaultNonce 3)])
  expect ((s.log.map Prod.snd).take 2 = [.ok .saved, .ok .saved] ∧
    (s.log.map Prod.snd).drop 3 = [.error (.refused (vault.getPath long.state.groupId))])

theorem storeRun_ok : ∃ u, storeRun = .ok u := Py.ok_of_isOk (by decide +kernel)

theorem emptyVolume_wellFormed : emptyVolume.WellFormed := ⟨nofun, nofun, nofun⟩

theorem emptyVolume_idle (groupId : Bytes) :
    Idle crypto vault groupId (vault.files emptyVolume groupId) none := .none

theorem storeSession : ∃ (s : Running) (alice other long : MLSGroup) (o : Outcome),
    AsyncEncryptedStore.Reachable crypto vault emptyVolume s ∧ s.log =
      [(.saveGroup alice (vaultNonce 1), .ok .saved), (.saveGroup other (vaultNonce 2), .ok .saved),
        (.loadGroup alice.state.groupId, o),
        (.saveGroup long (vaultNonce 3), .error (.refused (vault.getPath long.state.groupId)))] ∧
    other.state.groupId ≠ alice.state.groupId ∧ Reached crypto alice ∧
    alice.state.keySchedule.joinerSecret.length = 32 := by
  obtain ⟨_, hrun⟩ := storeRun_ok
  simp only [storeRun, expect, Py.bind_eq_ok, Py.require_eq_ok] at hrun
  obtain ⟨alice, halice, other, hother, long, -, s, hplay, _, ⟨hg, hh, hjoiner⟩, _, hcalls,
    hresults⟩ := hrun
  have hlen := congrArg List.length hcalls
  match hlog : s.log with
  | [(c0, o0), (c1, o1), (c2, o2), (c3, o3)] =>
    simp only [hlog, List.map_cons, List.map_nil, List.cons.injEq, and_true, List.take_succ_cons,
      List.take_zero, List.drop_succ_cons, List.drop_zero] at hcalls hresults
    obtain ⟨rfl, rfl, rfl, rfl⟩ := hcalls
    obtain ⟨⟨rfl, rfl⟩, rfl⟩ := hresults
    refine ⟨s, alice, other, long, o2,
      play_reachable .init hplay, by rw [hlog, hg], ?_, .create halice, hjoiner⟩
    rw [hg, hh]
    decide
  | [] | [_] | [_, _] | [_, _, _] | _ :: _ :: _ :: _ :: _ :: _ => simp [hlog] at hlen

end Sample

open AsyncEncryptedStore in
/-- Two saves that overlap, a load, and a save that is refused. -/
theorem interleaved_calls_serial_two : ∃ s : Running, s.log.length = 4 ∧ s.log.map Prod.snd =
    Shards.results Call.groupId (serve Sample.crypto Sample.vault Sample.emptyVolume.takes)
      (fun _ => none)
      (s.log.map Prod.fst) := by
  obtain ⟨s, _, _, _, _, hreach, hlog, -⟩ := Sample.storeSession
  have hserial :=
    interleaved_calls_serial Sample.correct Sample.crypto_tagSized Sample.emptyVolume_wellFormed
    Sample.emptyVolume_idle hreach
  exact ⟨s, by rw [hlog]; rfl, hserial.1⟩

open AsyncEncryptedStore in
/-- Alice is loaded while the other save is under way. -/
theorem saved_group_loaded_alice : ∃ (alice restored : MLSGroup) (s : Running),
    (.loadGroup alice.state.groupId, .ok (.loaded (some restored))) ∈ s.log ∧
    SameMember restored alice := by
  obtain ⟨s, alice, other, long, o, hreach, hlog, hother, hreached, hjoiner⟩ := Sample.storeSession
  have hsplit : s.log = [] ++ (.saveGroup alice (Sample.vaultNonce 1), .ok .saved) ::
      ([(.saveGroup other (Sample.vaultNonce 2), .ok .saved)] ++
        (.loadGroup alice.state.groupId, o) ::
        [(.saveGroup long (Sample.vaultNonce 3),
          .error (.refused (Sample.vault.getPath long.state.groupId)))]) := hlog
  have hbetween : ∀ e ∈ [((.saveGroup other (Sample.vaultNonce 2), .ok .saved) : Call × Outcome)],
      e.1.groupId = alice.state.groupId → ∃ groupId, e.1 = .loadGroup groupId := by
    intro e he hgroup
    rw [List.mem_singleton.mp he] at hgroup
    exact absurd hgroup hother
  obtain ⟨restored, rfl, hsame, -⟩ := saved_group_loaded Sample.correct Sample.crypto_tagSized
    Sample.emptyVolume_wellFormed Sample.emptyVolume_idle hreach hsplit hbetween hreached hjoiner
  exact ⟨alice, restored, s, by rw [hlog]; simp, hsame⟩

end PureMls
