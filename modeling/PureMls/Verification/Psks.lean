import PureMls.Verification.Joining

/-! # Pre-shared keys of a Welcome

Which value a joiner uses for each PSK that the Welcome names, and that the confirmation
tag leaves no choice of values. -/

namespace PureMls

variable {C : Crypto} {psks : List PreSharedKeyID} {pskList : List (PreSharedKeyID × Bytes)}

/-! ## Identities -/

/-- What identifies a pre-shared key; the nonce is the Welcome's. -/
inductive PskIdentity where
  | external (pskType : ℕ) (pskId : Bytes)
  | resumption (usage : ℕ) (pskGroupId : Bytes) (pskEpoch : ℕ)
  deriving DecidableEq

def PreSharedKeyID.identity (psk : PreSharedKeyID) : PskIdentity :=
  if psk.pskType = 1 then .external psk.pskType psk.pskId
  else .resumption psk.usage psk.pskGroupId psk.pskEpoch

/-- The caller gives `value` for the key with this identity. -/
def Supplies (pskList : List (PreSharedKeyID × Bytes)) (identity : PskIdentity) (value : Bytes) :
    Prop :=
  ∃ entry ∈ pskList, entry.1.identity = identity ∧ entry.2 = value

/-- The last entry whose `psk_id` field is `pskId`. -/
def lastWith (pskList : List (PreSharedKeyID × Bytes)) (pskId : Bytes) :
    Option (PreSharedKeyID × Bytes) :=
  pskList.reverse.find? fun entry => entry.1.pskId = pskId

/-- Every PSK of the list is there in order, with a value supplied for its identity. -/
def Resolved (psks : List PreSharedKeyID) (pskList resolved : List (PreSharedKeyID × Bytes)) :
    Prop :=
  List.Forall₂ (fun psk entry => entry.1 = psk ∧
    Supplies pskList psk.identity entry.2) psks resolved

/-! ## Resolution -/

/-- Every listed PSK gets the value of the last entry with its `psk_id`. -/
theorem resolvePsks_eq_ok {resolved : List (PreSharedKeyID × Bytes)} :
    MLSGroup.resolvePsks psks pskList = .ok resolved ↔
      List.Forall₂ (fun psk entry => entry.1 = psk ∧
        ∃ last, lastWith pskList psk.pskId = some last ∧ last.2 = entry.2) psks resolved := by
  have hget : ∀ pskId : Bytes, (pskList.foldl (fun d entry => d.set entry.1.pskId entry.2)
      (Dict.empty : Dict Bytes Bytes)).get? pskId = (lastWith pskList pskId).map Prod.snd := by
    intro pskId
    rw [Dict.get?_foldl_set (fun entry : PreSharedKeyID × Bytes => entry.1.pskId) Prod.snd,
      Dict.get?_empty, Option.or_none]
    rfl
  unfold MLSGroup.resolvePsks
  by_cases hnil : psks = []
  · subst hnil
    simp [eq_comm]
  · rw [if_neg hnil]
    simp only [hget]
    by_cases hlist : pskList = []
    · subst hlist
      obtain ⟨psk, rest, rfl⟩ := List.exists_cons_of_ne_nil hnil
      constructor
      · intro h
        simp at h
      · intro h
        cases h with
        | cons hhead _ =>
            obtain ⟨-, last, hlast, -⟩ := hhead
            simp [lastWith] at hlast
    · rw [Py.require_of _ hlist, Py.ok_bind, mapM_eq_ok_iff]
      constructor
      · refine List.Forall₂.imp fun psk entry h => ?_
        cases hlast : lastWith pskList psk.pskId with
        | none => simp [hlast] at h
        | some last =>
            simp only [hlast, Option.map_some, Py.pure_eq, Except.ok.injEq] at h
            obtain ⟨hfst, hsnd⟩ := Prod.ext_iff.mp h
            exact ⟨hfst.symm, last, rfl, hsnd⟩
      · refine List.Forall₂.imp fun psk entry h => ?_
        obtain ⟨hfst, last, hlast, hsnd⟩ := h
        simp only [hlast, Option.map_some, Py.pure_eq, Except.ok.injEq]
        exact Prod.ext hfst.symm hsnd

theorem resolved_fst {resolved : List (PreSharedKeyID × Bytes)}
    (h : MLSGroup.resolvePsks psks pskList = .ok resolved) : resolved.map Prod.fst = psks := by
  have hall := resolvePsks_eq_ok.mp h
  clear h
  induction hall with
  | nil => rfl
  | cons hhead _ ih => rw [List.map_cons, hhead.1, ih]

/-- Every PSK of the Welcome is paired, in order, with a value that the caller supplied for its
identity, if and only if the last entry with its `psk_id` carries such a value. -/
theorem psk_resolution_iff (psks : List PreSharedKeyID) (pskList : List (PreSharedKeyID × Bytes)) :
    (∃ resolved, MLSGroup.resolvePsks psks pskList = .ok resolved ∧
      Resolved psks pskList resolved) ↔
      ∀ psk ∈ psks, ∃ last, lastWith pskList psk.pskId = some last ∧
        Supplies pskList psk.identity last.2 := by
  constructor
  · rintro ⟨resolved, hok, hresolved⟩ psk hpsk
    have hall := resolvePsks_eq_ok.mp hok
    clear hok
    induction hresolved with
    | nil => simp at hpsk
    | @cons first entry rest entries hhead _ ih =>
        cases hall with
        | cons hfirst hrest =>
            rcases List.mem_cons.mp hpsk with rfl | hmem
            · obtain ⟨-, last, hlast, hvalue⟩ := hfirst
              exact ⟨last, hlast, hvalue ▸ hhead.2⟩
            · exact ih hmem hrest
  · intro h
    induction psks with
    | nil => exact ⟨[], rfl, .nil⟩
    | cons psk psks ih =>
        obtain ⟨entries, hok, hentries⟩ := ih fun psk' hmem => h psk' (List.mem_cons_of_mem _ hmem)
        obtain ⟨last, hlast, hsupplies⟩ := h psk List.mem_cons_self
        refine ⟨(psk, last.2) :: entries, ?_, .cons ⟨rfl, hsupplies⟩ hentries⟩
        exact resolvePsks_eq_ok.mpr (.cons ⟨rfl, last, hlast, rfl⟩ (resolvePsks_eq_ok.mp hok))

namespace Sample

/-- The resumption PSKs of two groups, as they are read from the wire. -/
def resumption (group : String) : PreSharedKeyID := ⟨2, [], zeros32, 1, ascii group, 1⟩

def resumptionSecrets : GroupSecrets := ⟨zeros32, none, [resumption "a", resumption "b"]⟩

def resumptionList : List (PreSharedKeyID × Bytes) := [(resumption "a", [1]), (resumption "b", [2])]

end Sample

open Sample in
/-- The PSKs of two groups both resolve to the value of the second. -/
theorem resumption_psks_confused :
    ¬ ∀ raw gs pskList, GroupSecrets.fromBytes raw = .ok gs →
      (∀ psk ∈ gs.psks, ∃ value, Supplies pskList psk.identity value) →
      ∃ resolved, MLSGroup.resolvePsks gs.psks pskList = .ok resolved ∧
        Resolved gs.psks pskList resolved := by
  intro h
  obtain ⟨raw, hraw⟩ : ∃ raw, resumptionSecrets.toBytes = .ok raw :=
    Py.ok_of_isOk (by decide +kernel)
  have hread : GroupSecrets.fromBytes raw = .ok resumptionSecrets := by
    have hbind : resumptionSecrets.toBytes >>= GroupSecrets.fromBytes = .ok resumptionSecrets := by
      decide +kernel
    rwa [hraw] at hbind
  have hvalues : MLSGroup.resolvePsks resumptionSecrets.psks resumptionList =
      .ok [(resumption "a", [2]), (resumption "b", [2])] := by decide +kernel
  obtain ⟨resolved, hok, hresolved⟩ :=
    h raw resumptionSecrets resumptionList hread fun psk hpsk => by
    rcases List.mem_pair.mp hpsk with rfl | rfl
    · exact ⟨[1], (resumption "a", [1]), List.mem_cons_self, rfl, rfl⟩
    · exact ⟨[2], (resumption "b", [2]), by simp [resumptionList], rfl, rfl⟩
  rw [hvalues, Except.ok.injEq] at hok
  subst hok
  cases hresolved with
  | cons hfirst _ =>
      obtain ⟨-, entry, hentry, hidentity, hvalue⟩ := hfirst
      rcases List.mem_pair.mp hentry with rfl | rfl
      · exact absurd hvalue (by decide)
      · exact absurd hidentity (by decide)

/-! ## The PSK chain -/

/-- The PSKLabel of one round. -/
def pskLabel (count : ℕ) (entry : (PreSharedKeyID × Bytes) × ℕ) : Py Bytes := do
  let id ← entry.1.1.toBytes
  let index ← structPack 2 entry.2
  let size ← structPack 2 count
  pure (id ++ (index ++ size))

/-- The HMAC calls of the PSK chain from an accumulator on: three for each PSK. -/
def pskCalls (C : Crypto) (count : ℕ) :
    List ((PreSharedKeyID × Bytes) × ℕ) → Bytes → List (Bytes × Bytes)
  | [], _ => []
  | entry :: entries, acc =>
    let label := (pskLabel count entry).toOption.getD []
    let input := expandCall (hkdfExtract C zeros32 entry.1.2) "derived psk" label
    let round := (C.hmacSha256 input.1 input.2, acc)
    (zeros32, entry.1.2) :: input :: round ::
      pskCalls C count entries (C.hmacSha256 round.1 round.2)

private theorem pskRound_eq_ok {count : ℕ} {acc next : Bytes} {entry : (PreSharedKeyID × Bytes) × ℕ}
    (h : pskRound C count acc entry = .ok next) :
    ∃ label input, pskLabel count entry = .ok label ∧
      expandWithLabel C (hkdfExtract C zeros32 entry.1.2) "derived psk" label 32 = .ok input ∧
      C.hmacSha256 input acc = next := by
  simp only [pskRound, Py.bind_eq_ok, Py.pure_eq, Except.ok.injEq] at h
  obtain ⟨id, hid, index, hindex, size, hsize, input, hinput, rfl⟩ := h
  exact ⟨_, input, by simp [pskLabel, hid, hindex, hsize], hinput, rfl⟩

/-- Chains over the same PSKs that end in the same secret used the same values. -/
private theorem pskChain_inj (hC : C.Correct) {calls : List (Bytes × Bytes)}
    (hinj : C.HmacInjectiveOn calls) {count : ℕ}
    {entries entries' : List ((PreSharedKeyID × Bytes) × ℕ)} {acc acc' out : Bytes}
    (hids : List.Forall₂ (fun e e' => e.1.1 = e'.1.1 ∧ e.2 = e'.2) entries entries')
    (h : entries.foldlM (pskRound C count) acc = .ok out)
    (h' : entries'.foldlM (pskRound C count) acc' = .ok out)
    (hcalls : pskCalls C count entries acc ⊆ calls)
    (hcalls' : pskCalls C count entries' acc' ⊆ calls) : entries = entries' ∧ acc = acc' := by
  induction hids generalizing acc acc' with
  | nil =>
      simp only [List.foldlM_nil, Py.pure_eq, Except.ok.injEq] at h h'
      exact ⟨rfl, h.trans h'.symm⟩
  | @cons entry entry' entries entries' hid _ ih =>
      simp only [List.foldlM_cons, Py.bind_eq_ok] at h h'
      obtain ⟨next, hround, hrest⟩ := h
      obtain ⟨next', hround', hrest'⟩ := h'
      obtain ⟨label, input, hlabel, hinput, hnext⟩ := pskRound_eq_ok hround
      obtain ⟨label', input', hlabel', hinput', hnext'⟩ := pskRound_eq_ok hround'
      simp only [pskCalls, hlabel, hlabel', Except.toOption, Option.getD_some, List.cons_subset,
        ← expandWithLabel_eq_hmac hC hinput, ← expandWithLabel_eq_hmac hC hinput', hnext, hnext']
        at hcalls hcalls'
      obtain ⟨hextract, hexpand, hchain, htail⟩ := hcalls
      obtain ⟨hextract', hexpand', hchain', htail'⟩ := hcalls'
      obtain ⟨htails, hnexts⟩ := ih hrest hrest' htail htail'
      have hrounds := hinj _ hchain _ hchain' (hnext.trans (hnexts.trans hnext'.symm))
      obtain ⟨hinputs, haccs⟩ := Prod.ext_iff.mp hrounds
      simp only at hinputs haccs
      subst hinputs
      have hextracted := expandWithLabel_inj hC hinj hexpand hexpand' hinput hinput'
      have hvalue := congrArg Prod.snd (hinj _ hextract _ hextract' hextracted)
      have hentry : entry = entry' :=
        Prod.ext_iff.mpr ⟨Prod.ext_iff.mpr ⟨hid.1, hvalue⟩, hid.2⟩
      exact ⟨by rw [hentry, htails], haccs⟩

private theorem zipIdx_sameIds {xs ys : List (PreSharedKeyID × Bytes)} (n : ℕ)
    (h : xs.map Prod.fst = ys.map Prod.fst) :
    List.Forall₂ (fun e e' : (PreSharedKeyID × Bytes) × ℕ => e.1.1 = e'.1.1 ∧ e.2 = e'.2)
      (xs.zipIdx n) (ys.zipIdx n) := by
  induction xs generalizing ys n with
  | nil =>
      rw [List.map_nil, eq_comm, List.map_eq_nil_iff] at h
      subst h
      exact .nil
  | cons x xs ih =>
      cases ys with
      | nil => simp at h
      | cons y ys =>
          rw [List.map_cons, List.map_cons, List.cons.injEq] at h
          rw [List.zipIdx_cons, List.zipIdx_cons]
          exact .cons ⟨h.1, rfl⟩ (ih (n + 1) h.2)

/-! ## Two joins of one Welcome -/

namespace Opening

/-- The HMAC calls between the PSK values and the confirmation tag. -/
def calls (C : Crypto) (o : Opening) : List (Bytes × Bytes) :=
  let ctx := o.info.groupContext.toBytes.toOption.getD []
  let epoch := expandCall (hkdfExtract C o.secrets.joinerSecret o.psk) "epoch" ctx
  let confirm := expandCall (C.hmacSha256 epoch.1 epoch.2) "confirm" []
  pskCalls C o.resolved.length o.resolved.zipIdx zeros32 ++
    [(o.secrets.joinerSecret, o.psk), epoch, confirm,
      (C.hmacSha256 confirm.1 confirm.2, o.info.groupContext.confirmedTranscriptHash)]

/-- The key schedule that the confirmation tag of the GroupInfo is checked against. -/
structure Confirmed (C : Crypto) (o : Opening) : Prop where
  psk_eq : pskSecret C o.resolved = .ok o.psk
  resolved_fst : o.resolved.map Prod.fst = o.secrets.psks
  schedule : ∃ ctx epochSecret confKey, o.info.groupContext.toBytes = .ok ctx ∧
    expandWithLabel C (hkdfExtract C o.secrets.joinerSecret o.psk) "epoch" ctx 32 =
      .ok epochSecret ∧
    deriveSecret C epochSecret "confirm" = .ok confKey ∧
    C.hmacSha256 confKey o.info.groupContext.confirmedTranscriptHash = o.info.confirmationTag

end Opening

/-- The GroupInfo ciphertext opens to the same bytes under each of these PSK secrets under which
it opens at all. -/
def OpensOnce (C : Crypto) (joinerSecret egi : Bytes) (psks : List Bytes) : Prop :=
  ∀ psk ∈ psks, ∀ psk' ∈ psks, ∀ raw raw',
    MLSGroup.openGroupInfo C joinerSecret psk egi = .ok raw →
    MLSGroup.openGroupInfo C joinerSecret psk' egi = .ok raw' → raw = raw'

theorem decryptGroupInfo_eq_ok {joinerSecret psk egi raw : Bytes}
    (h : MLSGroup.decryptGroupInfo C joinerSecret psk egi = .ok raw) :
    MLSGroup.openGroupInfo C joinerSecret psk egi = .ok raw ∨
      MLSGroup.openGroupInfo C joinerSecret zeros32 egi = .ok raw := by
  unfold MLSGroup.decryptGroupInfo at h
  cases hfirst : MLSGroup.openGroupInfo C joinerSecret psk egi with
  | ok _ => exact .inl (by rwa [hfirst] at h)
  | error e =>
      simp only [hfirst] at h
      split_ifs at h
      · exact .inr (Py.rethrow_eq_ok.mp h)

theorem confirmed_of_join {welcome : Welcome} {sigKey : SignatureKey} {kemKey : KemKey}
    {ratchetTree : Option RatchetTree} {joined : MLSGroup} {o : Opening}
    (h : MLSGroup.join C welcome sigKey kemKey pskList ratchetTree = .ok joined)
    (ho : openWelcome C welcome kemKey pskList = .ok o) : o.Confirmed C := by
  obtain ⟨o', _, _, ctx, epochSecret, ks, ho', -, -, -, hctx, hepoch, hks, htag, -⟩ :=
    MLSGroup.join_eq_ok h
  obtain rfl := Except.ok.inj (ho.symm.trans ho')
  simp only [openWelcome, Py.bind_eq_ok, Py.pure_eq, Except.ok.injEq] at ho
  obtain ⟨_, -, _, -, resolved, hresolved, psk, hpsk, _, -, _, -, rfl⟩ := ho
  exact ⟨hpsk, resolved_fst hresolved, ctx, epochSecret, ks.confirmationKey, hctx, hepoch,
    (KeySchedule.fromEpochSecret_eq_ok hks).2.2.1, htag⟩

/-- Two openings of one Welcome read the same secrets, and the same GroupInfo. -/
theorem openWelcome_same {welcome : Welcome} {kemKey : KemKey}
    {pskList pskList' : List (PreSharedKeyID × Bytes)} {o o' : Opening}
    (h : openWelcome C welcome kemKey pskList = .ok o)
    (h' : openWelcome C welcome kemKey pskList' = .ok o')
    (honce : OpensOnce C o.secrets.joinerSecret welcome.encryptedGroupInfo
      [zeros32, o.psk, o'.psk]) :
    o'.secrets = o.secrets ∧ o'.info = o.info := by
  simp only [openWelcome, Py.bind_eq_ok, Py.pure_eq, Except.ok.injEq] at h h'
  obtain ⟨raw, hraw, gs, hgs, resolved, -, psk, -, infoBytes, hdecrypt, info, hinfo, rfl⟩ := h
  obtain ⟨_, hraw', _, hgs', resolved', -, psk', -, infoBytes', hdecrypt', info', hinfo', rfl⟩ := h'
  obtain rfl := Except.ok.inj (hraw.symm.trans hraw')
  obtain rfl := Except.ok.inj (hgs.symm.trans hgs')
  have hbytes : infoBytes = infoBytes' := by
    rcases decryptGroupInfo_eq_ok hdecrypt with hfirst | hfirst <;>
      rcases decryptGroupInfo_eq_ok hdecrypt' with hsecond | hsecond <;>
      exact honce _ (by simp) _ (by simp) _ _ hfirst hsecond
  subst hbytes
  exact ⟨rfl, Except.ok.inj (hinfo'.symm.trans hinfo)⟩

/-- The calls of an opening in terms of the secrets they derive. -/
private theorem Opening.mem_calls (hC : C.Correct) {o : Opening} {ctx epochSecret confKey : Bytes}
    (hctx : o.info.groupContext.toBytes = .ok ctx)
    (hepoch : expandWithLabel C (hkdfExtract C o.secrets.joinerSecret o.psk) "epoch" ctx 32 =
      .ok epochSecret)
    (hconf : deriveSecret C epochSecret "confirm" = .ok confKey) :
    pskCalls C o.resolved.length o.resolved.zipIdx zeros32 ⊆ o.calls C ∧
      (o.secrets.joinerSecret, o.psk) ∈ o.calls C ∧
      expandCall (hkdfExtract C o.secrets.joinerSecret o.psk) "epoch" ctx ∈ o.calls C ∧
      expandCall epochSecret "confirm" [] ∈ o.calls C ∧
      (confKey, o.info.groupContext.confirmedTranscriptHash) ∈ o.calls C := by
  simp only [Opening.calls, hctx, Except.toOption, Option.getD_some,
    ← expandWithLabel_eq_hmac hC hepoch, ← expandWithLabel_eq_hmac hC hconf]
  exact ⟨List.subset_append_left _ _, by simp, by simp, by simp, by simp⟩

/-- The confirmation tag determines the PSK secret, and with it every value in the chain. -/
theorem Opening.Confirmed.resolved_unique (hC : C.Correct) {o o' : Opening} (h : o.Confirmed C)
    (h' : o'.Confirmed C) (hsecrets : o'.secrets = o.secrets) (hinfo : o'.info = o.info)
    (hinj : C.HmacInjectiveOn (o.calls C ++ o'.calls C)) : o'.resolved = o.resolved := by
  obtain ⟨ctx, epochSecret, confKey, hctx, hepoch, hconf, htag⟩ := h.schedule
  obtain ⟨ctx', epochSecret', confKey', hctx', hepoch', hconf', htag'⟩ := h'.schedule
  rw [hinfo] at hctx' htag'
  obtain rfl := Except.ok.inj (hctx.symm.trans hctx')
  obtain ⟨hchain, hjoiner, hexpand, hconfirm, htagged⟩ := Opening.mem_calls hC hctx hepoch hconf
  rw [← hinfo] at hctx
  obtain ⟨hchain', hjoiner', hexpand', hconfirm', htagged'⟩ :=
    Opening.mem_calls hC hctx hepoch' hconf'
  rw [hinfo] at htagged'
  have hleft : o.calls C ⊆ o.calls C ++ o'.calls C := List.subset_append_left _ _
  have hright : o'.calls C ⊆ o.calls C ++ o'.calls C := List.subset_append_right _ _
  -- from the tag back to the PSK secret, one HMAC call after the other
  have hconfKey := hinj _ (hleft htagged) _ (hright htagged') (htag.trans htag'.symm)
  obtain rfl : confKey = confKey' := congrArg Prod.fst hconfKey
  obtain rfl : epochSecret = epochSecret' :=
    expandWithLabel_inj hC hinj (hleft hconfirm) (hright hconfirm') hconf hconf'
  have hintermediate :=
    expandWithLabel_inj hC hinj (hleft hexpand) (hright hexpand') hepoch hepoch'
  have hpsk : o.psk = o'.psk :=
    congrArg Prod.snd (hinj _ (hleft hjoiner) _ (hright hjoiner') hintermediate)
  have hids : o.resolved.map Prod.fst = o'.resolved.map Prod.fst := by
    rw [h.resolved_fst, h'.resolved_fst, hsecrets]
  have hcount : o'.resolved.length = o.resolved.length := by
    simpa using (congrArg List.length hids).symm
  have hfold := h.psk_eq
  have hfold' := h'.psk_eq
  rw [pskSecret] at hfold hfold'
  rw [hcount, ← hpsk] at hfold'
  rw [hcount] at hchain'
  have hentries := (pskChain_inj hC hinj (zipIdx_sameIds 0 hids) hfold hfold'
    (fun _ hc => hleft (hchain hc)) (fun _ hc => hright (hchain' hc))).1
  have hvalues := congrArg (List.map Prod.fst) hentries
  rwa [List.zipIdx_map_fst, List.zipIdx_map_fst, eq_comm] at hvalues

/-- Two psk_lists with which one Welcome can be joined give every PSK that it names the same
value. -/
theorem psk_valuation_unique (hC : C.Correct) {welcome : Welcome} {sigKey : SignatureKey}
    {kemKey : KemKey} {ratchetTree : Option RatchetTree}
    {pskList pskList' : List (PreSharedKeyID × Bytes)} {joined joined' : MLSGroup} {o o' : Opening}
    (hjoin : MLSGroup.join C welcome sigKey kemKey pskList ratchetTree = .ok joined)
    (hjoin' : MLSGroup.join C welcome sigKey kemKey pskList' ratchetTree = .ok joined')
    (hopen : openWelcome C welcome kemKey pskList = .ok o)
    (hopen' : openWelcome C welcome kemKey pskList' = .ok o')
    (honce : OpensOnce C o.secrets.joinerSecret welcome.encryptedGroupInfo [zeros32, o.psk, o'.psk])
    (hinj : C.HmacInjectiveOn (o.calls C ++ o'.calls C)) :
    o.resolved.map Prod.fst = o.secrets.psks ∧ o'.secrets = o.secrets ∧
    o'.resolved = o.resolved := by
  have hconfirmed := confirmed_of_join hjoin hopen
  have hconfirmed' := confirmed_of_join hjoin' hopen'
  obtain ⟨hsecrets, hinfo⟩ := openWelcome_same hopen hopen' honce
  exact ⟨hconfirmed.resolved_fst, hsecrets,
    hconfirmed.resolved_unique hC hconfirmed' hsecrets hinfo hinj⟩

/-! ## A Welcome that names a PSK -/

namespace Sample

def externalPsk (pskId : String) : PreSharedKeyID := ⟨1, ascii pskId, zeros32, 0, [], 0⟩

/-- Bob's own tree, its GroupInfo encrypted under the PSK `[7]`. -/
def pskWelcome : Py Welcome := do
  let bob ← MLSGroup.create crypto (ascii "g") (sig 20) (kem 20) (kem 2)
  welcomeTo bob.state.tree [(externalPsk "id", [7])]

/-- The same value alone and after the value of another PSK. -/
def pskLists : List (PreSharedKeyID × Bytes) × List (PreSharedKeyID × Bytes) :=
  ([(externalPsk "id", [7])], [(externalPsk "other", [9]), (externalPsk "id", [7])])

def pskJoins : Py (Welcome × (MLSGroup × Opening) × MLSGroup × Opening) := do
  let welcome ← pskWelcome
  let joined ← MLSGroup.join crypto welcome (sig 20) (kem 20) pskLists.1 none
  let joined' ← MLSGroup.join crypto welcome (sig 20) (kem 20) pskLists.2 none
  let o ← openWelcome crypto welcome (kem 20) pskLists.1
  let o' ← openWelcome crypto welcome (kem 20) pskLists.2
  expect (o.psk = o'.psk)
  expectFault (MLSGroup.openGroupInfo crypto o.secrets.joinerSecret zeros32
    welcome.encryptedGroupInfo) .invalidTag
  expect (crypto.HmacInjectiveOn (o.calls crypto ++ o'.calls crypto))
  pure (welcome, (joined, o), joined', o')

theorem pskJoins_ok : ∃ r, pskJoins = .ok r := Py.ok_of_isOk (by decide +kernel)

end Sample

open Sample in
theorem psk_valuation_unique_external :
    ∃ welcome, ∃ o o' : Opening, openWelcome crypto welcome (kem 20) pskLists.1 = .ok o ∧
      openWelcome crypto welcome (kem 20) pskLists.2 = .ok o' ∧
      o.resolved.map Prod.fst = o.secrets.psks ∧ o'.secrets = o.secrets ∧
        o'.resolved = o.resolved := by
  obtain ⟨r, h⟩ := pskJoins_ok
  simp only [pskJoins, expectFault, expect, Py.bind_eq_ok, Py.require_eq_ok, Py.pure_eq,
    Except.ok.injEq] at h
  obtain ⟨welcome, -, joined, hjoin, joined', hjoin', o, ho, o', ho', _, hpsk, _, hzero, _, hinj,
    -⟩ := h
  refine ⟨welcome, o, o', ho, ho', psk_valuation_unique correct hjoin hjoin' ho ho' ?_ hinj⟩
  have hsame : ∀ psk ∈ [zeros32, o.psk, o'.psk], ∀ raw,
      MLSGroup.openGroupInfo crypto o.secrets.joinerSecret psk welcome.encryptedGroupInfo =
        .ok raw →
      psk = o.psk := by
    intro psk hmem raw hraw
    simp only [List.mem_cons, List.not_mem_nil, or_false] at hmem
    rcases hmem with rfl | rfl | rfl
    · rw [Py.fault?_eq_some.mp hzero] at hraw
      cases hraw
    · rfl
    · exact hpsk.symm
  intro psk hmem psk' hmem' raw raw' hraw hraw'
  rw [hsame psk hmem raw hraw] at hraw
  rw [hsame psk' hmem' raw' hraw'] at hraw'
  exact Except.ok.inj (hraw.symm.trans hraw')

/-! ## A ciphertext that opens under two keys -/

namespace Crypto

/-- The same primitives, where one ciphertext opens under one more key. -/
def withOpening (C : Crypto) (key nonce data ct : Bytes) : Crypto where
  __ := C
  aesGcmEncrypt key' nonce' data' ad :=
    if key' = key ∧ nonce' = nonce ∧ data' = data ∧ ad = [] then .ok ct
    else C.aesGcmEncrypt key' nonce' data' ad
  aesGcmDecrypt key' nonce' ct' ad :=
    if key' = key ∧ nonce' = nonce ∧ ct' = ct ∧ ad = [] then .ok data
    else C.aesGcmDecrypt key' nonce' ct' ad

theorem Correct.withOpening (hC : C.Correct) {key nonce data ct : Bytes}
    (hct : C.aesGcmDecrypt key nonce ct [] = .error .invalidTag) :
    (C.withOpening key nonce data ct).Correct where
  sha256_size := hC.sha256_size
  hmac_size := hC.hmac_size
  sign_verify := hC.sign_verify
  sign_ne_nil := hC.sign_ne_nil
  ed25519_size := hC.ed25519_size
  x25519_size := hC.x25519_size
  exchange_comm := hC.exchange_comm
  decrypt_encrypt key' nonce' data' ad ct' h := by
    simp only [Crypto.withOpening] at h ⊢
    split_ifs at h with hencrypt
    · obtain ⟨rfl, rfl, rfl, rfl⟩ := hencrypt
      rw [if_pos ⟨rfl, rfl, (Except.ok.inj h).symm, rfl⟩]
    · have hdecrypt := hC.decrypt_encrypt key' nonce' data' ad ct' h
      -- nothing was encrypted to this ciphertext before
      rw [if_neg, hdecrypt]
      rintro ⟨rfl, rfl, rfl, rfl⟩
      rw [hct] at hdecrypt
      cases hdecrypt
  decrypt_fault key' nonce' ct' ad message hkey hnonce := by
    simp only [Crypto.withOpening]
    split_ifs
    · exact nofun
    · exact hC.decrypt_fault key' nonce' ct' ad message hkey hnonce

end Crypto

namespace Sample

/-- Two values of one PSK. -/
def rivalValues : List (PreSharedKeyID × Bytes) × List (PreSharedKeyID × Bytes) :=
  ([(externalPsk "id", [7])], [(externalPsk "id", [8])])

structure Valuations where
  C : Crypto
  welcome : Welcome
  joined : MLSGroup
  joined' : MLSGroup
  o : Opening
  o' : Opening

/-- The ciphertext of a GroupInfo made with the PSK `[7]`, which under the keys of the PSK `[8]`
opens to the GroupInfo made with that one. AES-GCM has such ciphertexts for any two keys. -/
def valuations : Py Valuations := do
  let bob ← MLSGroup.create crypto (ascii "g") (sig 20) (kem 20) (kem 2)
  let welcome ← welcomeTo bob.state.tree rivalValues.1
  let rival ← welcomeTo bob.state.tree rivalValues.2
  let psk ← pskSecret crypto rivalValues.2
  let key ← KeySchedule.deriveWelcomeKey crypto zeros32 psk
  let nonce ← KeySchedule.deriveWelcomeNonce crypto zeros32 psk
  let data ← crypto.aesGcmDecrypt key nonce rival.encryptedGroupInfo []
  expectFault (crypto.aesGcmDecrypt key nonce welcome.encryptedGroupInfo []) .invalidTag
  let C := crypto.withOpening key nonce data welcome.encryptedGroupInfo
  let joined ← MLSGroup.join C welcome (sig 20) (kem 20) rivalValues.1 none
  let joined' ← MLSGroup.join C welcome (sig 20) (kem 20) rivalValues.2 none
  let o ← openWelcome C welcome (kem 20) rivalValues.1
  let o' ← openWelcome C welcome (kem 20) rivalValues.2
  expect (C.HmacInjectiveOn (o.calls C ++ o'.calls C))
  expect (o.resolved ≠ o'.resolved)
  pure ⟨C, welcome, joined, joined', o, o'⟩

theorem valuations_ok : ∃ r, valuations = .ok r := Py.ok_of_isOk (by decide +kernel)

end Sample

open Sample in
/-- A Welcome whose GroupInfo opens under the keys of two PSK values is joined with either value. -/
theorem psk_valuations_differ :
    ∃ (C : Crypto) (welcome : Welcome) (joined joined' : MLSGroup) (o o' : Opening), C.Correct ∧
      MLSGroup.join C welcome (sig 20) (kem 20) rivalValues.1 none = .ok joined ∧
      MLSGroup.join C welcome (sig 20) (kem 20) rivalValues.2 none = .ok joined' ∧
      openWelcome C welcome (kem 20) rivalValues.1 = .ok o ∧
      openWelcome C welcome (kem 20) rivalValues.2 = .ok o' ∧
      C.HmacInjectiveOn (o.calls C ++ o'.calls C) ∧ o.resolved ≠ o'.resolved := by
  obtain ⟨r, h⟩ := valuations_ok
  simp only [valuations, expectFault, expect, Py.bind_eq_ok, Py.require_eq_ok, Py.pure_eq,
    Except.ok.injEq] at h
  obtain ⟨bob, -, welcome, -, rival, -, psk, -, key, -, nonce, -, data, -, _, hclosed, joined,
    hjoin, joined', hjoin', o, ho, o', ho', _, hinj, _, hne, -⟩ := h
  exact ⟨_, welcome, joined, joined', o, o', correct.withOpening (Py.fault?_eq_some.mp hclosed),
    hjoin, hjoin', ho, ho', hinj, hne⟩

end PureMls
