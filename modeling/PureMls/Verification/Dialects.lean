import PureMls.Model.Dialects
import PureMls.Verification.ParsedTrees

/-! # A Welcome in every dialect

It is read back, but for a standard Welcome whose first bytes are taken for a header. -/

namespace PureMls

/-! ## Vectors -/

namespace Strategy

theorem readsAs_length {strategy : Strategy} {n : ℕ} {e : Bytes}
    (h : strategy.tlsLength n = .ok e) : ReadsAs strategy.readLength e n := by
  cases strategy with
  | standard => exact readsAs_varint h
  | cisco => exact readsAs_u16 h
  | mlspp => exact readsAs_u32 h

theorem readsAs_vector {strategy : Strategy} {items : List Bytes} {e : Bytes}
    (h : strategy.encodeVector items = .ok e) :
    ReadsAs strategy.decodeVector e [items.flatten] := by
  simp only [encodeVector, Py.bind_eq_ok, Py.pure_eq, Except.ok.injEq] at h
  obtain ⟨size, hsize, rfl⟩ := h
  exact (readsAs_length hsize).bind (readsAs_checked.bind_last (.pure _))

theorem readLength_advances {strategy : Strategy} {buf : Bytes} {offset n next : ℕ}
    (h : strategy.readLength buf offset = .ok (n, next)) : offset < next := by
  cases strategy with
  | standard => exact varintDecode_advances h
  | cisco =>
      have hnext : next = offset + 2 := unpackFrom_next h
      omega
  | mlspp =>
      have hnext : next = offset + 4 := unpackFrom_next h
      omega

/-- A vector takes at least its length, and does not run over the end. -/
theorem decodeVector_bounds {strategy : Strategy} {buf : Bytes} {offset next : ℕ} {vec : List Bytes}
    (h : strategy.decodeVector buf offset = .ok (vec, next)) :
    offset < next ∧ next ≤ buf.length := by
  obtain ⟨⟨n, mid⟩, hlength, h⟩ := Py.bind_eq_ok.mp h
  obtain ⟨⟨body, stop⟩, hbody, h⟩ := Py.bind_eq_ok.mp h
  obtain rfl := (Prod.mk.inj (Except.ok.inj h)).2
  have hmid : mid ≤ stop := advances_checked _ _ _ _ _ _ hbody
  exact ⟨Nat.lt_of_lt_of_le (readLength_advances hlength) hmid,
    endsInside_checked _ _ _ _ _ _ hbody⟩

theorem getDialect_name (strategy : Strategy) : getDialect strategy.name = .ok strategy := by
  cases strategy <;> rfl

end Strategy

namespace EncryptedGroupSecrets

theorem readsAs {secrets : EncryptedGroupSecrets} {e : Bytes} (h : secrets.toBytes = .ok e) :
    ReadsAs fromBytes e secrets := by
  simp only [toBytes, Py.bind_eq_ok, Py.pure_eq, Except.ok.injEq] at h
  obtain ⟨nm, hnm, ko, hko, ct, hct, rfl⟩ := h
  simp only [List.append_assoc]
  exact (readsAs_opaqueV hnm).bind <| (readsAs_opaqueV hko).bind <|
    (readsAs_opaqueV hct).bind_last (.pure _)

theorem toBytes_ne_nil {secrets : EncryptedGroupSecrets} {e : Bytes} (h : secrets.toBytes = .ok e) :
    e ≠ [] := by
  simp only [toBytes, Py.bind_eq_ok, Py.pure_eq, Except.ok.injEq] at h
  obtain ⟨nm, hnm, ko, hko, ct, hct, rfl⟩ := h
  simp [tlsOpaque_ne_nil hnm]

theorem all_joinBytes {entries : List EncryptedGroupSecrets} {e : Bytes}
    (h : joinBytes toBytes entries = .ok e) : fromBytes.all e = .ok entries := by
  have hall := PureMls.all_joinBytes (g := id) (fun _ _ _ hx => readsAs hx)
    (fun _ _ _ hx => toBytes_ne_nil hx) h
  rwa [List.map_id] at hall

end EncryptedGroupSecrets

/-! ## The encoding of a Welcome -/

namespace DialectWelcome

/-- The entries laid end to end, and the two vectors. -/
structure Encoded (strategy : Strategy) (welcome : DialectWelcome) (entries egs egi : Bytes) :
    Prop where
  joined : joinBytes EncryptedGroupSecrets.toBytes welcome.encryptedGroupSecrets = .ok entries
  entryVector : strategy.encodeVector [entries] = .ok egs
  infoVector : strategy.encodeVector [welcome.encryptedGroupInfo] = .ok egi

theorem toBytes_encoded {strategy : Strategy} {welcome : DialectWelcome} {data : Bytes}
    (hname : welcome.dialectName = strategy.name) (h : welcome.toBytes = .ok data) :
    ∃ entries egs egi, Encoded strategy welcome entries egs egi ∧
      data = strategy.header ++ ([0x00, 0x01] ++ egs ++ egi) := by
  have hsuite : tlsU16 0x0001 = .ok [0x00, 0x01] := rfl
  simp only [toBytes, hname, strategy.getDialect_name, hsuite, Py.bind_eq_ok, Py.pure_eq,
    Except.ok.injEq, exists_eq_left'] at h
  obtain ⟨entries, hentries, egs, hegs, egi, hegi, rfl⟩ := h
  exact ⟨entries, egs, egi, ⟨hentries, hegs, hegi⟩, by simp only [List.append_assoc]⟩

theorem toBytes_eq_ok {strategy : Strategy} {welcome : DialectWelcome} {data : Bytes}
    (hdialect : welcome.dialect = some strategy.name) (h : welcome.toBytes = .ok data) :
    ∃ entries egs egi, Encoded strategy welcome entries egs egi ∧
      data = strategy.header ++ ([0x00, 0x01] ++ egs ++ egi) := by
  refine toBytes_encoded ?_ h
  rw [dialectName, hdialect]
  cases strategy <;> rfl

theorem fromBytes_eq {strategy : Strategy} {data : Bytes} :
    fromBytes data (some strategy.name) = readBody strategy data (bodyOffset strategy data) >>=
      fun read => .ok ⟨read.1, some strategy.name⟩ := by
  have hget : getDialect ((some strategy.name).getD "standard") = .ok strategy :=
    strategy.getDialect_name
  rw [fromBytes, hget]
  rfl

variable {strategy : Strategy} {welcome : DialectWelcome} {entries egs egi : Bytes}

/-- After the header the Welcome is read back. -/
theorem Encoded.readsAs (h : Encoded strategy welcome entries egs egi) :
    ReadsAs (readBody strategy) ([0x00, 0x01] ++ egs ++ egi)
      ⟨0x0001, welcome.encryptedGroupSecrets, welcome.encryptedGroupInfo⟩ := by
  have hsuite : tlsU16 0x0001 = .ok [0x00, 0x01] := rfl
  have hentries := Strategy.readsAs_vector h.entryVector
  have hinfo := Strategy.readsAs_vector h.infoVector
  rw [List.flatten_singleton] at hentries hinfo
  rw [List.append_assoc]
  exact (readsAs_u16 hsuite).bind <| hentries.bind <|
    .bind_first (.lift (EncryptedGroupSecrets.all_joinBytes h.joined)) <| hinfo.bind_last (.pure _)

/-! ## The header -/

/-- An encoded length that starts like the length `n`, as read. -/
theorem encodeVector_cons {body vec rest rest' size : Bytes} {n : ℕ}
    (h : Strategy.standard.encodeVector [body] = .ok vec) (hsize : tlsVarint n = .ok size)
    (heq : vec ++ rest = size ++ rest') : body.length = n ∧ body ++ rest = rest' := by
  simp only [Strategy.encodeVector, Py.bind_eq_ok, Py.pure_eq, Except.ok.injEq,
    List.flatten_singleton] at h
  obtain ⟨size', hsize', rfl⟩ := h
  rw [List.append_assoc] at heq
  obtain ⟨hlen, -, hrest⟩ := (readsAs_varint hsize').unique (readsAs_varint hsize) heq
  exact ⟨hlen, hrest⟩

/-- The vectors of a Welcome with no entries and three bytes of group info. -/
theorem Encoded.vectors_eq (h : Encoded .standard welcome entries egs egi)
    (hnil : welcome.encryptedGroupSecrets = []) (hinfo : welcome.encryptedGroupInfo.length = 3) :
    egs = [0x00] ∧ egi = 0x03 :: welcome.encryptedGroupInfo := by
  have hjoined := h.joined
  rw [hnil] at hjoined
  obtain rfl := Except.ok.inj hjoined
  have hthree : tlsVarint 3 = .ok [0x03] := rfl
  have hvector := h.infoVector
  simp only [Strategy.encodeVector, Strategy.tlsLength, List.flatten_singleton, hinfo,
    hthree] at hvector
  exact ⟨(Except.ok.inj h.entryVector).symm, (Except.ok.inj hvector).symm⟩

/-- The first four bytes of a standard encoding are those of an MLSMessage exactly for no entries
and three bytes of group info. -/
theorem Encoded.wrapped_iff (h : Encoded .standard welcome entries egs egi) :
    [0x00, 0x01, 0x00, 0x03] <+: [0x00, 0x01] ++ egs ++ egi ↔
      welcome.encryptedGroupSecrets = [] ∧ welcome.encryptedGroupInfo.length = 3 := by
  constructor
  · rintro ⟨rest, hrest⟩
    have hbody : egs ++ egi = [0x00] ++ (0x03 :: rest) := by simpa using hrest.symm
    obtain ⟨hlen, hnext⟩ := encodeVector_cons h.entryVector (rfl : tlsVarint 0 = .ok [0x00]) hbody
    obtain rfl := List.length_eq_zero_iff.mp hlen
    have hnone : (.ok [] : Py (List EncryptedGroupSecrets)) = .ok welcome.encryptedGroupSecrets :=
      EncryptedGroupSecrets.all_joinBytes h.joined
    have hinfo : egi ++ [] = [0x03] ++ rest := by simpa using hnext
    exact ⟨(Except.ok.inj hnone).symm,
      (encodeVector_cons h.infoVector (rfl : tlsVarint 3 = .ok [0x03]) hinfo).1⟩
  · rintro ⟨hnil, hinfo⟩
    obtain ⟨rfl, rfl⟩ := h.vectors_eq hnil hinfo
    exact ⟨welcome.encryptedGroupInfo, rfl⟩

theorem bodyOffset_header (hne : strategy ≠ .standard) (body : Bytes) :
    bodyOffset strategy (strategy.header ++ body) = strategy.header.length := by
  have hheader : strategy.header ≠ [] := by
    cases strategy with
    | standard => exact absurd rfl hne
    | cisco => exact List.cons_ne_nil _ _
    | mlspp => exact List.cons_ne_nil _ _
  rw [bodyOffset, if_pos ⟨hheader, List.prefix_append _ _⟩]

theorem bodyOffset_standard (data : Bytes) :
    bodyOffset .standard data = if [0x00, 0x01, 0x00, 0x03] <+: data then 4 else 0 := by
  have hheader : ¬ (Strategy.standard.header ≠ [] ∧ Strategy.standard.header <+: data) :=
    fun h => h.1 rfl
  have hname : Strategy.standard.name = "standard" := rfl
  rw [bodyOffset, if_neg hheader]
  simp only [hname, true_and]

/-! ## Round trips -/

/-- A Welcome whose encoding has an MLSMessage header to be skipped. -/
def LooksWrapped (strategy : Strategy) (welcome : DialectWelcome) : Prop :=
  strategy = .standard ∧ welcome.encryptedGroupSecrets = [] ∧ welcome.encryptedGroupInfo.length = 3

/-- The offset is right unless the standard encoding looks like an MLSMessage. -/
theorem Encoded.bodyOffset_eq (h : Encoded strategy welcome entries egs egi)
    (hplain : ¬ LooksWrapped strategy welcome) :
    bodyOffset strategy
      (strategy.header ++ ([0x00, 0x01] ++ egs ++ egi)) = strategy.header.length := by
  by_cases hstrategy : strategy = .standard
  · subst hstrategy
    have hnot : ¬ [0x00, 0x01, 0x00, 0x03] <+: [0x00, 0x01] ++ egs ++ egi := fun hpre =>
      hplain ⟨rfl, h.wrapped_iff.mp hpre⟩
    have hheader : Strategy.standard.header = [] := rfl
    rw [hheader, List.nil_append, bodyOffset_standard, if_neg hnot]
    rfl
  · exact bodyOffset_header hstrategy _

theorem Encoded.round_trip (h : Encoded strategy welcome entries egs egi)
    (hplain : ¬ LooksWrapped strategy welcome) :
    fromBytes (strategy.header ++ ([0x00, 0x01] ++ egs ++ egi)) (some strategy.name) =
      .ok ⟨⟨0x0001, welcome.encryptedGroupSecrets, welcome.encryptedGroupInfo⟩,
        some strategy.name⟩ := by
  have hread := h.readsAs.at_start strategy.header []
  rw [List.append_nil] at hread
  rw [fromBytes_eq, h.bodyOffset_eq hplain, hread, Py.ok_bind]

/-- After four bytes that were no header, three bytes cannot hold a cipher suite and two vectors. -/
theorem Encoded.wrapped_fails (h : Encoded .standard welcome entries egs egi)
    (hnil : welcome.encryptedGroupSecrets = []) (hinfo : welcome.encryptedGroupInfo.length = 3)
    (read : DialectWelcome) :
    fromBytes ([0x00, 0x01] ++ egs ++ egi) (some "standard") ≠ .ok read := by
  intro hread
  have hpre := h.wrapped_iff.mpr ⟨hnil, hinfo⟩
  have hlength : ([0x00, 0x01] ++ egs ++ egi).length = 7 := by
    obtain ⟨rfl, rfl⟩ := h.vectors_eq hnil hinfo
    simp [hinfo]
  change fromBytes _ (some Strategy.standard.name) = _ at hread
  rw [fromBytes_eq, bodyOffset_standard, if_pos hpre] at hread
  obtain ⟨⟨body, stop⟩, hbody, -⟩ := Py.bind_eq_ok.mp hread
  obtain ⟨⟨suite, next⟩, hsuite, hbody⟩ := Py.bind_eq_ok.mp hbody
  obtain ⟨⟨egsVec, mid⟩, hegs, hbody⟩ := Py.bind_eq_ok.mp hbody
  obtain ⟨⟨secrets, mid'⟩, hlift, hbody⟩ := Py.bind_eq_ok.mp hbody
  obtain ⟨⟨egiVec, last⟩, hegi, -⟩ := Py.bind_eq_ok.mp hbody
  have hnext : next = 4 + 2 := unpackFrom_next hsuite
  have hmid : mid' = mid := by
    obtain ⟨_, -, hlift⟩ := Py.bind_eq_ok.mp hlift
    exact (Prod.mk.inj (Except.ok.inj hlift)).2.symm
  have hentries : next < mid := (Strategy.decodeVector_bounds hegs).1
  obtain ⟨hlt, hle⟩ : mid' < last ∧ last ≤ _ := Strategy.decodeVector_bounds hegi
  omega

end DialectWelcome

/-- A Welcome is read back from its encoding exactly when it is not a standard one with no entries
and three bytes of group info. -/
theorem welcome_round_trip_iff {strategy : Strategy} {welcome : DialectWelcome} {data : Bytes}
    (hsuite : welcome.cipherSuite = 0x0001) (hdialect : welcome.dialect = some strategy.name)
    (hdata : welcome.toBytes = .ok data) :
    DialectWelcome.fromBytes data welcome.dialect = .ok welcome ↔
      ¬ DialectWelcome.LooksWrapped strategy welcome := by
  obtain ⟨entries, egs, egi, hencoded, rfl⟩ := DialectWelcome.toBytes_eq_ok hdialect hdata
  constructor
  · rintro hread ⟨rfl, hnil, hinfo⟩
    rw [hdialect] at hread
    exact hencoded.wrapped_fails hnil hinfo welcome hread
  · intro hplain
    rw [hdialect, hencoded.round_trip hplain]
    obtain ⟨⟨suite, entries, info⟩, dialect⟩ := welcome
    obtain rfl : suite = 0x0001 := hsuite
    obtain rfl : dialect = some strategy.name := hdialect
    rfl

namespace Sample

def groupSecrets : EncryptedGroupSecrets := ⟨ascii "reference", ascii "output", ascii "secrets"⟩

def ciscoWelcome : DialectWelcome := ⟨⟨0x0001, [groupSecrets], ascii "info"⟩, some "cisco"⟩

/-- No entries and three bytes of group info. -/
def bareWelcome : DialectWelcome := ⟨⟨0x0001, [], [7, 7, 7]⟩, some "standard"⟩

end Sample

theorem welcome_round_trip_cisco : ∃ data, Sample.ciscoWelcome.toBytes = .ok data ∧
    DialectWelcome.fromBytes data (some "cisco") = .ok Sample.ciscoWelcome := by
  have hreturns : ∃ data, Sample.ciscoWelcome.toBytes = .ok data := ⟨_, rfl⟩
  obtain ⟨data, hdata⟩ := hreturns
  have hdialect : Sample.ciscoWelcome.dialect = some Strategy.cisco.name := rfl
  have hplain : ¬ DialectWelcome.LooksWrapped .cisco Sample.ciscoWelcome := by
    rintro ⟨⟨⟩, -⟩
  exact ⟨data, hdata, (welcome_round_trip_iff rfl hdialect hdata).mpr hplain⟩

/-- The first four bytes of a standard Welcome are taken for the header of an MLSMessage. -/
theorem bare_welcome_unreadable : ∃ data, Sample.bareWelcome.toBytes = .ok data ∧
    DialectWelcome.fromBytes data (some "standard") ≠ .ok Sample.bareWelcome :=
  ⟨[0x00, 0x01, 0x00, 0x03, 7, 7, 7], by decide, by decide⟩

end PureMls
