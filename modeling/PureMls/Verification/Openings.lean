import PureMls.Verification.CheckOrder
import PureMls.Verification.Entering

/-! # Two ways to open a Welcome

`join` tries the entries under the standard label and passes over whatever does not open.
`decrypt_group_secrets` tries them under the label of the dialect and passes over a wrong tag
only. -/

namespace PureMls

open MLSGroup

variable {C : Crypto} {kemKey : KemKey} {info raw egi : Bytes} {entry : EncryptedGroupSecrets}
  {entries : List EncryptedGroupSecrets}

/-! ## One entry -/

namespace EncryptedGroupSecrets

/-- `HPKE.open` on an entry. -/
def openWith (C : Crypto) (kemKey : KemKey) (info : Bytes) (entry : EncryptedGroupSecrets) :
    Py Bytes :=
  HPKE.openSealed C kemKey entry.kemOutput entry.ciphertext [] 0 info

/-- The key exchange with the encapsulated key goes through. -/
def WellFormed (C : Crypto) (kemKey : KemKey) (entry : EncryptedGroupSecrets) : Prop :=
  ∃ dh, kemKey.dhExchange C entry.kemOutput = .ok dh

theorem openWith_cases (hC : C.Correct) (htag : C.DecryptFailsWithTag) (kemKey : KemKey)
    (info : Bytes) (entry : EncryptedGroupSecrets) :
    (∃ raw, entry.openWith C kemKey info = .ok raw ∧ entry.WellFormed C kemKey) ∨
    (entry.openWith C kemKey info = .error .invalidTag ∧ entry.WellFormed C kemKey) ∨
    (∃ message, entry.openWith C kemKey info = .error (.valueError message) ∧
      ¬ entry.WellFormed C kemKey) := by
  unfold openWith HPKE.openSealed WellFormed
  cases hdh : kemKey.dhExchange C entry.kemOutput with
  | error e =>
      refine .inr (.inr ?_)
      obtain ⟨message, rfl⟩ : ∃ message, e = .valueError message := by
        unfold KemKey.dhExchange at hdh
        split_ifs at hdh
        · split at hdh
          · cases hdh
          · exact ⟨_, (Except.error.inj hdh).symm⟩
        · exact ⟨_, (Except.error.inj hdh).symm⟩
      refine ⟨message, rfl, ?_⟩
      rintro ⟨dh, hok⟩
      cases hok
  | ok dh =>
      obtain ⟨key, nonce, hkeys, hkey, hnonce⟩ :=
        HPKE.contextKeys_eq_ok hC dh (entry.kemOutput ++ kemKey.publicBytes C) info
      rw [Py.ok_bind, hkeys, Py.ok_bind]
      cases hopen : C.aesGcmDecrypt key nonce entry.ciphertext [] with
      | ok raw => exact .inl ⟨raw, hopen, dh, rfl⟩
      | error e =>
          rw [htag _ _ _ _ hkey hnonce e hopen] at hopen
          exact .inr (.inl ⟨hopen, dh, rfl⟩)

end EncryptedGroupSecrets

/-! ## The two searches -/

/-- The plaintext of the first entry that opens under an info. -/
def firstOpened (C : Crypto) (kemKey : KemKey) (info : Bytes)
    (entries : List EncryptedGroupSecrets) : Option Bytes :=
  entries.findSome? fun entry => (entry.openWith C kemKey info).toOption

/-- The entries before it, or all when none opens. -/
def unopened (C : Crypto) (kemKey : KemKey) (info : Bytes) (entries : List EncryptedGroupSecrets) :
    List EncryptedGroupSecrets :=
  entries.takeWhile fun entry => !(entry.openWith C kemKey info).isOk

theorem firstOpened_cons_ok (entries : List EncryptedGroupSecrets)
    (h : entry.openWith C kemKey info = .ok raw) :
    firstOpened C kemKey info (entry :: entries) = some raw ∧
      unopened C kemKey info (entry :: entries) = [] := by
  constructor
  · rw [firstOpened, List.findSome?_cons, h]
    rfl
  · rw [unopened, List.takeWhile_cons, h]
    rfl

theorem firstOpened_cons_error (entries : List EncryptedGroupSecrets) {e : Fault}
    (h : entry.openWith C kemKey info = .error e) :
    firstOpened C kemKey info (entry :: entries) = firstOpened C kemKey info entries ∧
      unopened C kemKey info (entry :: entries) = entry :: unopened C kemKey info entries := by
  constructor
  · rw [firstOpened, List.findSome?_cons, h]
    rfl
  · rw [unopened, List.takeWhile_cons, h]
    rfl

/-- `join` finds the first entry that opens, whatever stands before it. -/
theorem openGroupSecrets_eq (hC : C.Correct) (htag : C.DecryptFailsWithTag)
    (hinfo : egsInfo egi = .ok info) : openGroupSecrets C kemKey egi entries =
      match firstOpened C kemKey info entries with
      | some raw => .ok raw
      | none => .error (.valueError
          "No EncryptedGroupSecrets could be decrypted with the provided KEM key") := by
  induction entries with
  | nil => rfl
  | cons entry rest ih =>
      have hstep : (do let info ← egsInfo egi
                       HPKE.openSealed C kemKey entry.kemOutput entry.ciphertext [] 0 info) =
          entry.openWith C kemKey info := by
        rw [hinfo]
        rfl
      rw [openGroupSecrets]
      simp only [hstep]
      rcases entry.openWith_cases hC htag kemKey info with ⟨raw, hopen, -⟩ | ⟨hopen, -⟩ | ⟨message,
        hopen, -⟩
      · rw [(firstOpened_cons_ok _ hopen).1, hopen]
      · rw [(firstOpened_cons_error _ hopen).1, hopen]
        exact ih
      · rw [(firstOpened_cons_error _ hopen).1, hopen]
        exact ih

/-- `decrypt_group_secrets` comes to the same entry only over well-formed ones. -/
theorem findOpened_eq_ok (hC : C.Correct) (htag : C.DecryptFailsWithTag) {opened : Option Bytes} :
    DialectWelcome.findOpened C kemKey info entries = .ok opened ↔
      firstOpened C kemKey info entries = opened ∧
        ∀ entry ∈ unopened C kemKey info entries, entry.WellFormed C kemKey := by
  induction entries with
  | nil =>
      rw [DialectWelcome.findOpened, Py.pure_eq, Except.ok.injEq]
      exact ⟨fun h => ⟨h, fun entry hmem => absurd hmem List.not_mem_nil⟩, fun h => h.1⟩
  | cons entry rest ih =>
      have hstep : HPKE.openSealed C kemKey entry.kemOutput entry.ciphertext [] 0 info =
        entry.openWith C kemKey info := rfl
      rw [DialectWelcome.findOpened]
      simp only [hstep]
      rcases entry.openWith_cases hC htag kemKey info with ⟨raw, hopen, -⟩ | ⟨hopen, hwell⟩ |
        ⟨message, hopen, hmalformed⟩
      · obtain ⟨hfirst, hbefore⟩ := firstOpened_cons_ok rest hopen
        rw [hfirst, hbefore, hopen]
        simp only [Py.pure_eq, Except.ok.injEq]
        exact ⟨fun h => ⟨h, fun entry hmem => absurd hmem List.not_mem_nil⟩, fun h => h.1⟩
      · obtain ⟨hfirst, hbefore⟩ := firstOpened_cons_error rest hopen
        rw [hfirst, hbefore, hopen]
        simp only [ih, List.forall_mem_cons]
        exact ⟨fun h => ⟨h.1, hwell, h.2⟩, fun h => ⟨h.1, h.2.2⟩⟩
      · obtain ⟨-, hbefore⟩ := firstOpened_cons_error rest hopen
        rw [hbefore, hopen, List.forall_mem_cons]
        exact ⟨fun h => (by cases h), fun h => absurd h.2.1 hmalformed⟩

/-! ## Infos -/

theorem Strategy.welcomeInfo_standard (egi : Bytes) :
    Strategy.standard.welcomeInfo egi = egsInfo egi := by
  have hlabel : tlsVarint (ascii "MLS 1.0 Welcome").length = .ok [15] := rfl
  have hfull : ascii "MLS 1.0 " ++ ascii "Welcome" = ascii "MLS 1.0 Welcome" := rfl
  simp only [welcomeInfo, welcomeLabel, egsInfo, makeHpkeInfo, tlsOpaque, hfull, hlabel, Py.ok_bind]
  cases tlsVarint egi.length with
  | error e => rfl
  | ok size =>
      simp only [Py.ok_bind, Py.pure_eq, List.append_assoc]

theorem Strategy.welcomeInfo_eq_ok (strategy : Strategy) (egi : Bytes) :
    (∃ info, strategy.welcomeInfo egi = .ok info) ↔ egi.length < 2 ^ 30 := by
  obtain ⟨labelSize, hlabel⟩ : ∃ e, tlsVarint strategy.welcomeLabel.length = .ok e := by
    cases strategy with
    | standard => exact ⟨_, rfl⟩
    | cisco => exact ⟨_, rfl⟩
    | mlspp => exact ⟨_, rfl⟩
  constructor
  · rintro ⟨info, h⟩
    simp only [welcomeInfo, hlabel, Py.ok_bind] at h
    obtain ⟨size, hsize, -⟩ := Py.bind_eq_ok.mp h
    exact lt_of_tlsVarint hsize
  · intro h
    obtain ⟨size, hsize⟩ := returns_varint h
    exact ⟨_, by simp only [welcomeInfo, hlabel, hsize, Py.ok_bind]; rfl⟩

/-! ## Agreement -/

namespace DialectWelcome

/-- The first steps of `decrypt_group_secrets`: the plaintext that it decodes, if an entry opens. -/
def opened (C : Crypto) (welcome : DialectWelcome) (initKey : KemKey) : Py (Option Bytes) := do
  let strategy ← getDialect welcome.dialectName
  let info ← strategy.welcomeInfo welcome.encryptedGroupInfo
  findOpened C initKey info welcome.encryptedGroupSecrets

/-- Where `join` finds an entry `decrypt_group_secrets` decodes the same plaintext and returns a
GroupSecrets, and where it finds none `decrypt_group_secrets` returns `None`. -/
def OpeningsAgree (C : Crypto) (welcome : DialectWelcome) (kemKey : KemKey) : Prop :=
  match openGroupSecrets C kemKey welcome.encryptedGroupInfo welcome.encryptedGroupSecrets with
  | .ok raw => welcome.opened C kemKey = .ok (some raw) ∧
      ∃ secrets, welcome.decryptGroupSecrets C kemKey = .ok (some secrets)
  | .error _ => welcome.decryptGroupSecrets C kemKey = .ok none

variable {welcome : DialectWelcome}

theorem decryptGroupSecrets_eq (C : Crypto) (welcome : DialectWelcome) (kemKey : KemKey) :
    welcome.decryptGroupSecrets C kemKey = welcome.opened C kemKey >>= fun opened =>
      match opened with
      | some gsBytes => some <$> GroupSecrets.fromBytes gsBytes
      | none => pure none := by
  rw [decryptGroupSecrets, opened, bind_assoc]
  exact bind_congr fun strategy => (bind_assoc _ _ _).symm

theorem decryptGroupSecrets_eq_none :
    welcome.decryptGroupSecrets C kemKey = .ok none ↔ welcome.opened C kemKey = .ok none := by
  rw [decryptGroupSecrets_eq]
  constructor
  · intro h
    obtain ⟨found, hopened, h⟩ := Py.bind_eq_ok.mp h
    cases found with
    | none => exact hopened
    | some raw =>
        obtain ⟨secrets, -, hsome⟩ := Py.map_eq_ok.mp h
        cases hsome
  · intro h
    rw [h]
    rfl

/-- An agreement in terms of the entries: the dialect is registered, the GroupInfo has a length that
can be encoded, and under the info of the dialect every entry before the first that opens is well
formed and the plaintext is that of the first one that opens under the standard info, a
GroupSecrets. -/
structure Coincide (C : Crypto) (welcome : DialectWelcome) (kemKey : KemKey) (strategy : Strategy)
    (info standardInfo : Bytes) : Prop where
  dialect : getDialect welcome.dialectName = .ok strategy
  info_eq : strategy.welcomeInfo welcome.encryptedGroupInfo = .ok info
  standardInfo_eq : Strategy.standard.welcomeInfo welcome.encryptedGroupInfo = .ok standardInfo
  same : firstOpened C kemKey info welcome.encryptedGroupSecrets =
    firstOpened C kemKey standardInfo welcome.encryptedGroupSecrets
  wellFormed : ∀ entry ∈ unopened C kemKey info welcome.encryptedGroupSecrets,
    entry.WellFormed C kemKey
  decodes : ∀ raw, firstOpened C kemKey standardInfo welcome.encryptedGroupSecrets = some raw →
    ∃ secrets, GroupSecrets.fromBytes raw = .ok secrets

theorem Coincide.opened (hC : C.Correct) (htag : C.DecryptFailsWithTag) {strategy : Strategy}
    {info standardInfo : Bytes} (h : welcome.Coincide C kemKey strategy info standardInfo) :
    welcome.opened C kemKey = .ok
      (firstOpened C kemKey standardInfo welcome.encryptedGroupSecrets) := by
  rw [DialectWelcome.opened, h.dialect, Py.ok_bind, h.info_eq, Py.ok_bind]
  exact (findOpened_eq_ok hC htag).mpr ⟨h.same, h.wellFormed⟩

/-- The two ways to open a Welcome agree exactly when its entries coincide under both infos. -/
theorem openings_agree_iff (hC : C.Correct) (htag : C.DecryptFailsWithTag)
    (welcome : DialectWelcome) (kemKey : KemKey) : welcome.OpeningsAgree C kemKey ↔
      ∃ strategy info standardInfo, welcome.Coincide C kemKey strategy info standardInfo := by
  constructor
  · intro h
    -- either way `decrypt_group_secrets` gets through its search
    obtain ⟨found, hopened⟩ : ∃ found, welcome.opened C kemKey = .ok found := by
      unfold OpeningsAgree at h
      split at h
      · exact ⟨_, h.1⟩
      · exact ⟨none, decryptGroupSecrets_eq_none.mp h⟩
    obtain ⟨strategy, hdialect, hrest⟩ := Py.bind_eq_ok.mp hopened
    obtain ⟨info, hinfo, hfound⟩ := Py.bind_eq_ok.mp hrest
    obtain ⟨standardInfo, hstandard⟩ := (Strategy.standard.welcomeInfo_eq_ok _).mpr
      ((strategy.welcomeInfo_eq_ok _).mp ⟨info, hinfo⟩)
    obtain ⟨hfirst, hwell⟩ := (findOpened_eq_ok hC htag).mp hfound
    have hegs := (Strategy.welcomeInfo_standard _).symm.trans hstandard
    rw [OpeningsAgree, openGroupSecrets_eq hC htag hegs] at h
    refine ⟨strategy, info, standardInfo, hdialect, hinfo, hstandard, ?_, hwell, fun raw hraw => ?_⟩
    · cases hjoin : firstOpened C kemKey standardInfo welcome.encryptedGroupSecrets with
      | some raw =>
          simp only [hjoin] at h
          rw [hfirst]
          exact Except.ok.inj (hopened.symm.trans h.1)
      | none =>
          simp only [hjoin] at h
          rw [hfirst]
          exact Except.ok.inj (hopened.symm.trans (decryptGroupSecrets_eq_none.mp h))
    · simp only [hraw] at h
      obtain ⟨hsome, secrets, hdecrypt⟩ := h
      rw [decryptGroupSecrets_eq, hsome, Py.ok_bind] at hdecrypt
      obtain ⟨secrets', hdecode, -⟩ := Py.map_eq_ok.mp hdecrypt
      exact ⟨secrets', hdecode⟩
  · rintro ⟨strategy, info, standardInfo, h⟩
    have hopened := h.opened hC htag
    have hegs := (Strategy.welcomeInfo_standard _).symm.trans h.standardInfo_eq
    rw [OpeningsAgree, openGroupSecrets_eq hC htag hegs]
    cases hjoin : firstOpened C kemKey standardInfo welcome.encryptedGroupSecrets with
    | some raw =>
        obtain ⟨secrets, hdecode⟩ := h.decodes raw hjoin
        rw [hjoin] at hopened
        refine ⟨hopened, secrets, ?_⟩
        rw [decryptGroupSecrets_eq, hopened, Py.ok_bind]
        simp only [hdecode, Py.map_ok]
    | none =>
        rw [hjoin] at hopened
        exact decryptGroupSecrets_eq_none.mpr hopened

end DialectWelcome

namespace Sample

/-- Bob's Welcome in the dialect of Cisco, and in the standard dialect behind an entry with an empty
encapsulated key. -/
theorem entry_openings : ∃ e, Sample.entry 20 = .ok e ∧
    (openGroupSecrets crypto (kem 20) e.welcome.encryptedGroupInfo
      e.welcome.encryptedGroupSecrets).isOk ∧
    (DialectWelcome.decryptGroupSecrets crypto ⟨e.welcome, some "cisco"⟩ (kem 20)).toOption =
    some none ∧ (openGroupSecrets crypto (kem 20) e.welcome.encryptedGroupInfo
      (⟨[], [], []⟩ :: e.welcome.encryptedGroupSecrets)).isOk ∧
    (DialectWelcome.decryptGroupSecrets crypto ⟨{ e.welcome with encryptedGroupSecrets :=
      ⟨[], [], []⟩ :: e.welcome.encryptedGroupSecrets }, none⟩ (kem 20)).fault? =
      some (Fault.valueError "Malformed KemKey public bytes") := by
  have hok : (do
    let e ← Sample.entry 20
    expect ((openGroupSecrets crypto (kem 20) e.welcome.encryptedGroupInfo
        e.welcome.encryptedGroupSecrets).isOk ∧
      (DialectWelcome.decryptGroupSecrets crypto ⟨e.welcome, some "cisco"⟩ (kem 20)).toOption =
        some none ∧
      (openGroupSecrets crypto (kem 20) e.welcome.encryptedGroupInfo
        (⟨[], [], []⟩ :: e.welcome.encryptedGroupSecrets)).isOk ∧
      (DialectWelcome.decryptGroupSecrets crypto ⟨{ e.welcome with encryptedGroupSecrets :=
        ⟨[], [], []⟩ :: e.welcome.encryptedGroupSecrets }, none⟩ (kem 20)).fault? =
        some (Fault.valueError "Malformed KemKey public bytes"))).isOk := by decide +kernel
  obtain ⟨_, hrun⟩ := Py.ok_of_isOk hok
  obtain ⟨e, he, hexpect⟩ := Py.bind_eq_ok.mp hrun
  exact ⟨e, he, Py.require_eq_ok.mp hexpect⟩

end Sample

namespace DialectWelcome

/-- The Welcome for Bob, in the dialect of Cisco. -/
theorem openings_agree_iff_bob : ∃ (alice next : MLSGroup) (kp : KeyPackage) (welcome : Welcome)
    (update : GroupUpdate),
    (alice.addMember Sample.crypto (Sample.coins 40) kp).2 = .ok (next, welcome, update) ∧
    (OpeningsAgree Sample.crypto ⟨welcome, some "cisco"⟩ (Sample.kem 20) ↔
      ∃ strategy info standardInfo, Coincide Sample.crypto ⟨welcome, some "cisco"⟩
        (Sample.kem 20) strategy
        info standardInfo) := by
  obtain ⟨e, he, -⟩ := Sample.entry_openings
  obtain ⟨-, hadd, -⟩ := Sample.entering he
  exact ⟨_, _, _, _, _, hadd, openings_agree_iff Sample.correct Sample.decryptFailsWithTag _ _⟩

/-- `join` opens the Welcome that Alice made for Bob. Given the dialect of Cisco it does not open in
`decrypt_group_secrets`, and behind an entry with an empty encapsulated key it makes it raise. -/
theorem openings_differ : ∃ (alice next : MLSGroup) (kp : KeyPackage) (welcome : Welcome)
    (update : GroupUpdate),
    (alice.addMember Sample.crypto (Sample.coins 40) kp).2 = .ok (next, welcome, update) ∧
    ¬ OpeningsAgree Sample.crypto ⟨welcome, some "cisco"⟩ (Sample.kem 20) ∧
    ¬ OpeningsAgree Sample.crypto ⟨{ welcome with encryptedGroupSecrets :=
      ⟨[], [], []⟩ :: welcome.encryptedGroupSecrets }, none⟩ (Sample.kem 20) := by
  obtain ⟨e, he, hjoin, hcisco, hjoin', hmalformed⟩ := Sample.entry_openings
  obtain ⟨-, hadd, -⟩ := Sample.entering he
  obtain ⟨raw, hraw⟩ := Py.ok_of_isOk hjoin
  obtain ⟨raw', hraw'⟩ := Py.ok_of_isOk hjoin'
  refine ⟨_, _, _, _, _, hadd, fun hagree => ?_, fun hagree => ?_⟩
  · simp only [OpeningsAgree, hraw] at hagree
    obtain ⟨-, secrets, hsome⟩ := hagree
    rw [hsome] at hcisco
    cases hcisco
  · simp only [OpeningsAgree, hraw', Py.fault?_eq_some.mp hmalformed] at hagree
    obtain ⟨-, secrets, hsome⟩ := hagree
    cases hsome

end DialectWelcome

end PureMls
