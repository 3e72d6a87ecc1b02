import PureMls.Model.Proposals
import PureMls.Verification.Assumptions
import PureMls.Verification.Spellings
import PureMls.Verification.Structures

/-! # Proposals and their encodings

Every encoding is read back; and which of the byte strings that are accepted come back. -/

namespace PureMls.Proposals

/-! ## Reading back -/

theorem readsAs_type {proposalType : ℕ} {name : String} {e : Bytes}
    (h : tlsU16 proposalType = .ok e) : ReadsAs (readType proposalType name) e () :=
  (readsAs_u16 h).bind_last (.lift (Py.require_of _ rfl))

theorem readsAs_typedOpaque {proposalType : ℕ} {name : String} {body e : Bytes}
    (h : typedOpaque proposalType body = .ok e) :
    ReadsAs (readTypedOpaque proposalType name) e body := by
  simp only [typedOpaque, Py.bind_eq_ok, Py.pure_eq, Except.ok.injEq] at h
  obtain ⟨type, htype, encBody, hbody, rfl⟩ := h
  exact (readsAs_type htype).bind (readsAs_opaqueV hbody)

namespace AddProposal

theorem readsAs {proposal : AddProposal} {e : Bytes} (h : proposal.toBytes = .ok e) :
    ReadsAs fromBytes e proposal :=
  (readsAs_typedOpaque h).bind_last (.pure _)

end AddProposal

namespace UpdateProposal

theorem readsAs {proposal : UpdateProposal} {e : Bytes} (h : proposal.toBytes = .ok e) :
    ReadsAs fromBytes e proposal :=
  (readsAs_typedOpaque h).bind_last (.pure _)

end UpdateProposal

namespace RemoveProposal

theorem readsAs {proposal : RemoveProposal} {e : Bytes} (h : proposal.toBytes = .ok e) :
    ReadsAs fromBytes e proposal := by
  simp only [toBytes, Py.bind_eq_ok, Py.pure_eq, Except.ok.injEq] at h
  obtain ⟨type, htype, removed, hremoved, rfl⟩ := h
  exact (readsAs_type htype).bind ((readsAs_u32 hremoved).bind_last (.pure _))

theorem returns_toBytes {proposal : RemoveProposal} (h : proposal.removed < 2 ^ 32) :
    proposal.toBytes.Returns :=
  Py.Returns.bind ⟨_, rfl⟩ fun _ _ => (returns_structPack h).bind fun _ _ => .pure _

end RemoveProposal

namespace PSKProposal

theorem readsAs {proposal : PSKProposal} {e : Bytes} (h : proposal.toBytes = .ok e) :
    ReadsAs fromBytes e proposal := by
  simp only [toBytes, Py.bind_eq_ok] at h
  obtain ⟨pskId, hid, pskNonce, hnonce, hwire⟩ := h
  have hbyte : tlsU8 1 = .ok [0x01] := rfl
  have hbody : ReadsAs readBody (0x01 :: (pskId ++ pskNonce)) proposal :=
    (readsAs_u8 hbyte).bind <| (readsAs_opaqueV hid).bind <|
      (readsAs_opaqueV hnonce).bind_last (.pure _)
  exact (readsAs_typedOpaque hwire).bind_last (.lift hbody.run_self)

end PSKProposal

/-- The type in front of an encoding. -/
theorem peekType_of_drop {data rest e : Bytes} {offset proposalType : ℕ}
    (htype : tlsU16 proposalType = .ok e) (hdrop : data.drop offset = e ++ rest) :
    peekType data offset = proposalType := by
  obtain ⟨hlt, rfl⟩ := structPack_eq_ok.mp htype
  have hslice := slice_of_drop_eq hdrop
  rw [length_beBytes] at hslice
  rw [peekType, hslice, beNat_beBytes hlt]

theorem peekType_of_typedOpaque {data rest body e : Bytes} {offset proposalType : ℕ}
    (h : typedOpaque proposalType body = .ok e) (hdrop : data.drop offset = e ++ rest) :
    peekType data offset = proposalType := by
  simp only [typedOpaque, Py.bind_eq_ok, Py.pure_eq, Except.ok.injEq] at h
  obtain ⟨type, htype, encBody, -, rfl⟩ := h
  rw [List.append_assoc] at hdrop
  exact peekType_of_drop htype hdrop

/-- The type selects the decoder of the encoded proposal. -/
theorem Proposal.readsAs {proposal : Proposal} {e : Bytes} (h : proposal.toBytes = .ok e) :
    ReadsAs proposalFromBytes e proposal := by
  intro buf rest offset hle hdrop
  cases proposal with
  | add proposal =>
      have htype : peekType buf offset = ProposalType.ADD := peekType_of_typedOpaque h hdrop
      have hread : ReadsAs (Proposal.add <$> AddProposal.fromBytes) e (.add proposal) :=
        (AddProposal.readsAs h).bind_last (.pure _)
      rw [proposalFromBytes, if_pos htype]
      exact hread buf rest offset hle hdrop
  | update proposal =>
      have htype : peekType buf offset = ProposalType.UPDATE := peekType_of_typedOpaque h hdrop
      have hread : ReadsAs (Proposal.update <$> UpdateProposal.fromBytes) e (.update proposal) :=
        (UpdateProposal.readsAs h).bind_last (.pure _)
      rw [proposalFromBytes, htype]
      exact hread buf rest offset hle hdrop
  | remove proposal =>
      have hread : ReadsAs (Proposal.remove <$> RemoveProposal.fromBytes) e (.remove proposal) :=
        (RemoveProposal.readsAs h).bind_last (.pure _)
      have htype : peekType buf offset = ProposalType.REMOVE := by
        simp only [Proposal.toBytes, RemoveProposal.toBytes, Py.bind_eq_ok, Py.pure_eq,
          Except.ok.injEq] at h
        obtain ⟨type, htype, removed, -, rfl⟩ := h
        rw [List.append_assoc] at hdrop
        exact peekType_of_drop htype hdrop
      rw [proposalFromBytes, htype]
      exact hread buf rest offset hle hdrop
  | psk proposal =>
      have hread : ReadsAs (Proposal.psk <$> PSKProposal.fromBytes) e (.psk proposal) :=
        (PSKProposal.readsAs h).bind_last (.pure _)
      have htype : peekType buf offset = ProposalType.PRE_SHARED_KEY := by
        simp only [Proposal.toBytes, PSKProposal.toBytes, Py.bind_eq_ok] at h
        obtain ⟨_, -, _, -, hwire⟩ := h
        exact peekType_of_typedOpaque hwire hdrop
      rw [proposalFromBytes, htype]
      exact hread buf rest offset hle hdrop

namespace ProposalOrRef

/-- One of the two fields is set, and not both. -/
def ExactlyOne (item : ProposalOrRef) : Prop := item.value.isSome ≠ item.reference.isSome

theorem readsAs {item : ProposalOrRef} {e : Bytes} (hone : item.ExactlyOne)
    (h : item.toBytes = .ok e) : ReadsAs fromBytes e item := by
  obtain ⟨value, reference⟩ := item
  rcases value with _ | value <;> rcases reference with _ | reference
  · exact absurd rfl hone
  · simp only [toBytes, Py.bind_eq_ok, Py.pure_eq, Except.ok.injEq] at h
    obtain ⟨sized, hsized, rfl⟩ := h
    have hbyte : tlsU8 2 = .ok [0x02] := rfl
    exact (readsAs_u8 hbyte).bind ((readsAs_opaqueV hsized).bind_last (.pure _))
  · simp only [toBytes, Py.bind_eq_ok, Py.pure_eq, Except.ok.injEq] at h
    obtain ⟨sized, hsized, rfl⟩ := h
    have hbyte : tlsU8 1 = .ok [0x01] := rfl
    exact (readsAs_u8 hbyte).bind ((readsAs_opaqueV hsized).bind_last (.pure _))
  · exact absurd rfl hone

theorem toBytes_ne_nil {item : ProposalOrRef} {e : Bytes} (h : item.toBytes = .ok e) : e ≠ [] := by
  obtain ⟨value, reference⟩ := item
  rcases value with _ | value <;> rcases reference with _ | reference
  · cases h
  all_goals
    simp only [toBytes, Py.bind_eq_ok, Py.pure_eq, Except.ok.injEq] at h
    obtain ⟨sized, -, rfl⟩ := h
    exact List.cons_ne_nil _ _

end ProposalOrRef

namespace Commit

theorem readsAs_path {path : Option Bytes} {e : Bytes} (h : pathBytes path = .ok e) :
    ReadsAs readPath e path := by
  cases path with
  | none =>
      cases h
      have hbyte : tlsU8 0 = .ok [0x00] := rfl
      exact (readsAs_u8 hbyte).bind_last (.pure _)
  | some path =>
      simp only [pathBytes, Py.bind_eq_ok, Py.pure_eq, Except.ok.injEq] at h
      obtain ⟨sized, hsized, rfl⟩ := h
      have hbyte : tlsU8 1 = .ok [0x01] := rfl
      exact (readsAs_u8 hbyte).bind ((readsAs_opaqueV hsized).bind_last (.pure _))

theorem readsAs {commit : Commit} {e : Bytes} (hitems : ∀ item ∈ commit.proposals, item.ExactlyOne)
    (h : commit.toBytes = .ok e) : ReadsAs fromBytes e commit := by
  simp only [toBytes, Py.bind_eq_ok, Py.pure_eq, Except.ok.injEq] at h
  obtain ⟨propBytes, hprops, proposals, hsized, path, hpath, rfl⟩ := h
  obtain ⟨encs, rfl, hreads, hall⟩ := joinBytes_forall₂ (g := id)
    (fun item hitem _ he => ProposalOrRef.readsAs (hitems item hitem) he) hprops
  rw [List.map_id] at hreads
  have hne : ∀ enc ∈ encs, enc ≠ [] := by
    intro enc henc
    obtain ⟨item, -, hitem⟩ := mem_of_mapM (mapM_of_forall₂ hall) henc
    exact ProposalOrRef.toBytes_ne_nil hitem
  exact (readsAs_opaqueV hsized).bind <| .bind_first (.lift (ReadsAs.all hreads hne)) <|
    (readsAs_path hpath).bind_last (.pure _)

end Commit

/-! ## Coming back -/

/-- The VarInt at this place, if there is one, is in its shortest form. -/
def ShortestAt (data : Bytes) (offset : ℕ) : Prop :=
  ∀ n next, varintDecode data offset = .ok (n, next) → slice data offset next = Rfc.varint n

/-- Every VarInt that is read of a proposal is in its shortest form. -/
structure Minimal (data : Bytes) (offset : ℕ) : Prop where
  body : peekType data offset ≠ ProposalType.REMOVE → ShortestAt data (offset + 2)
  pskId : peekType data offset = ProposalType.PRE_SHARED_KEY → ∀ wire next,
    readOpaque data (offset + 2) = .ok (wire, next) → ShortestAt wire 1
  pskNonce : peekType data offset = ProposalType.PRE_SHARED_KEY → ∀ wire next,
    readOpaque data (offset + 2) = .ok (wire, next) → ∀ pskId mid,
    readOpaque wire 1 = .ok (pskId, mid) → ShortestAt wire mid

/-- The type byte is that of an external key, and nothing follows the nonce. -/
structure ExactBody (wire : Bytes) : Prop where
  pskType : wire[0]? = some 0x01
  stops : ∀ pskId mid pskNonce stop, readOpaque wire 1 = .ok (pskId, mid) →
    readOpaque wire mid = .ok (pskNonce, stop) → stop = wire.length

/-- What stands here is no pre-shared key proposal, or one with an exact body. -/
def NothingSkipped (data : Bytes) (offset : ℕ) : Prop :=
  peekType data offset = ProposalType.PRE_SHARED_KEY → ∀ wire next,
    readOpaque data (offset + 2) = .ok (wire, next) → ExactBody wire

/-- The proposal is encoded as the bytes it was read from, and has their reference. -/
def ComesBack (C : Crypto) (proposal : Proposal) (received : Bytes) : Prop :=
  proposal.toBytes = .ok received ∧
    ∀ e, proposal.toBytes = .ok e → proposalRef C e = proposalRef C received

theorem comesBack_iff {C : Crypto} {proposal : Proposal} {received : Bytes} :
    ComesBack C proposal received ↔ proposal.toBytes = .ok received := by
  refine ⟨And.left, fun h => ⟨h, fun e he => ?_⟩⟩
  rw [Except.ok.inj (he.symm.trans h)]

variable {data : Bytes} {offset next : ℕ}

/-- A vector with the shortest length is the encoding of its data. -/
theorem opaque_of_shortest {body : Bytes} (hmin : ShortestAt data offset)
    (hle : offset ≤ data.length) (h : readOpaque data offset = .ok (body, next)) :
    ∃ enc rest, tlsOpaque body = .ok enc ∧ data.drop offset = enc ++ rest ∧
    next = offset + enc.length := by
  obtain ⟨⟨n, mid⟩, hsize, hbody⟩ := Py.bind_eq_ok.mp h
  obtain ⟨size, after, hdrop, rfl, hform⟩ := spelled_varint data offset n mid hle hsize
  have hmid := (spelled_varint.bounds hle hsize).2.1
  obtain ⟨bytes, rest, hdrop', rfl, rfl, hlen⟩ := spelled_checked _ _ data _ body next hmid hbody
  have hshort : size = Rfc.varint n := by
    rw [← hmin n _ hsize, slice_of_drop_eq hdrop]
  have hvarint : tlsVarint bytes.length = .ok size :=
    tlsVarint_eq_ok.mpr ⟨hlen ▸ hform.lt, hlen ▸ hshort.symm⟩
  refine ⟨size ++ bytes, rest, ?_, drop_append_drop hdrop hdrop', ?_⟩
  · rw [tlsOpaque, hvarint]
    rfl
  · rw [List.length_append, Nat.add_assoc]

/-- Two parts that follow one another, cut out. -/
theorem slice_append_drop {head tail after rest : Bytes} (hhead : data.drop offset = head ++ after)
    (htail : data.drop (offset + head.length) = tail ++ rest) :
    slice data offset (offset + head.length + tail.length) = head ++ tail := by
  have hslice := slice_of_drop_eq (drop_append_drop hhead htail)
  rwa [List.length_append, ← Nat.add_assoc] at hslice

theorem type_of_readType {proposalType : ℕ} {name : String} {u : Unit}
    (h : readType proposalType name data offset = .ok (u, next)) :
    next = offset + (beBytes 2 proposalType).length ∧ next ≤ data.length ∧
      ∃ rest, data.drop offset = beBytes 2 proposalType ++ rest := by
  obtain ⟨⟨found, mid⟩, hfound, hrequire⟩ := Py.bind_eq_ok.mp h
  obtain ⟨_, heq, hnext⟩ := Py.bind_eq_ok.mp hrequire
  obtain rfl := Py.require_eq_ok.mp heq
  cases hnext
  have hmid := unpackFrom_next hfound
  have hend : offset + 2 ≤ data.length := by
    by_contra hlong
    rw [readU16, unpackFrom, if_neg hlong] at hfound
    cases hfound
  obtain ⟨enc, rest, hdrop, hnext, -, rfl⟩ :=
    spelled_unpackFrom 2 data offset found mid (by omega) hfound
  exact ⟨hnext, hmid ▸ hend, rest, hdrop⟩

/-- One structure with its type in front of it comes back. -/
theorem typedOpaque_of_shortest {proposalType : ℕ} {name : String} {body : Bytes}
    (htype : proposalType < 2 ^ 16) (hmin : ShortestAt data (offset + 2))
    (h : readTypedOpaque proposalType name data offset = .ok (body, next)) :
    readOpaque data (offset + 2) = .ok (body, next) ∧
      typedOpaque proposalType body = .ok (slice data offset next) := by
  obtain ⟨⟨_, mid⟩, htyped, hbody⟩ := Py.bind_eq_ok.mp h
  obtain ⟨rfl, hle, after, hdrop⟩ := type_of_readType htyped
  obtain ⟨enc, rest, henc, hdrop', rfl⟩ := opaque_of_shortest hmin hle hbody
  have hslice := slice_append_drop hdrop hdrop'
  have hu16 : tlsU16 proposalType = .ok (beBytes 2 proposalType) :=
    structPack_eq_ok.mpr ⟨htype, rfl⟩
  rw [length_beBytes] at hslice
  refine ⟨hbody, ?_⟩
  rw [hslice, typedOpaque, hu16, Py.ok_bind, henc]
  rfl

theorem typedOpaque_inj {proposalType : ℕ} {body body' e : Bytes}
    (h : typedOpaque proposalType body = .ok e) (h' : typedOpaque proposalType body' = .ok e) :
    body = body' := by
  have hread : ReadsAs (readTypedOpaque proposalType "") e body := readsAs_typedOpaque h
  exact hread.unique_self (readsAs_typedOpaque h')

theorem RemoveProposal.comesBack {proposal : RemoveProposal}
    (h : fromBytes data offset = .ok (proposal, next)) :
    proposal.toBytes = .ok (slice data offset next) := by
  obtain ⟨⟨_, mid⟩, htyped, h⟩ := Py.bind_eq_ok.mp h
  obtain ⟨rfl, hle, after, hdrop⟩ := type_of_readType htyped
  obtain ⟨⟨removed, stop⟩, hremoved, h⟩ := Py.bind_eq_ok.mp h
  cases h
  obtain ⟨enc, rest, hdrop', rfl, hlt, rfl⟩ := spelled_unpackFrom 4 data _ removed _ hle hremoved
  have hslice := slice_append_drop hdrop hdrop'
  have hu16 : tlsU16 ProposalType.REMOVE = .ok (beBytes 2 ProposalType.REMOVE) := rfl
  have hu32 : tlsU32 removed = .ok (beBytes 4 removed) := structPack_eq_ok.mpr ⟨hlt, rfl⟩
  rw [hslice, toBytes, hu16, Py.ok_bind, hu32]
  rfl

/-- The body of a pre-shared key proposal, part by part. -/
theorem PSKProposal.readBody_parts {wire : Bytes} {proposal : PSKProposal}
    (hid : ShortestAt wire 1)
    (hnonce : ∀ pskId mid, readOpaque wire 1 = .ok (pskId, mid) → ShortestAt wire mid)
    (h : readBody.run wire = .ok proposal) :
    ∃ b pskId pskNonce rest, wire = b :: (pskId ++ pskNonce ++ rest) ∧
      tlsOpaque proposal.pskId = .ok pskId ∧ tlsOpaque proposal.pskNonce = .ok pskNonce ∧
      (ExactBody wire ↔ b = 0x01 ∧ rest = []) := by
  obtain ⟨⟨_, stop⟩, hread, rfl⟩ := Py.map_eq_ok.mp h
  obtain ⟨⟨pskType, one⟩, htype, hread⟩ := Py.bind_eq_ok.mp hread
  obtain ⟨_, hbyte, hone⟩ := Py.bind_eq_ok.mp htype
  cases hone
  obtain ⟨⟨id, mid⟩, hreadId, hread⟩ := Py.bind_eq_ok.mp hread
  obtain ⟨⟨nonce, stop⟩, hreadNonce, hread⟩ := Py.bind_eq_ok.mp hread
  cases hread
  obtain ⟨b, -, hdrop0⟩ := drop_of_byteAt hbyte
  have hpos : 0 + 1 ≤ wire.length := by
    have hlen := congrArg List.length hdrop0
    rw [List.length_drop, List.length_cons] at hlen
    omega
  obtain ⟨encId, _, hencId, hdrop1, rfl⟩ := opaque_of_shortest hid hpos hreadId
  have hmid := (spelled_opaqueV.bounds hpos hreadId).2.1
  obtain ⟨encNonce, rest, hencNonce, hdrop2, rfl⟩ :=
    opaque_of_shortest (hnonce id _ hreadId) hmid hreadNonce
  have hwire : wire = b :: (encId ++ encNonce ++ rest) := by
    rw [List.drop_zero] at hdrop0
    rw [hdrop0, drop_append_drop hdrop1 hdrop2]
  refine ⟨b, encId, encNonce, rest, hwire, hencId, hencNonce, ?_⟩
  have hlen := congrArg List.length hwire
  simp only [List.length_cons, List.length_append] at hlen
  constructor
  · intro hexact
    have hfirst := hexact.pskType
    have hstop := hexact.stops id _ nonce _ hreadId hreadNonce
    rw [hwire, List.getElem?_cons_zero, Option.some.injEq] at hfirst
    exact ⟨hfirst, List.length_eq_zero_iff.mp (by omega)⟩
  · rintro ⟨hfirst, hrest⟩
    subst hfirst hrest
    refine ⟨by rw [hwire]; rfl, fun id' mid' nonce' stop' hid' hnonce' => ?_⟩
    obtain ⟨rfl, rfl⟩ := Prod.mk.inj (Except.ok.inj (hreadId.symm.trans hid'))
    obtain ⟨rfl, rfl⟩ := Prod.mk.inj (Except.ok.inj (hreadNonce.symm.trans hnonce'))
    rw [List.length_nil] at hlen
    omega

/-- A pre-shared key proposal comes back if nothing in its body is skipped. -/
theorem PSKProposal.comesBack_iff {proposal : PSKProposal} (hmin : Minimal data offset)
    (htype : peekType data offset = ProposalType.PRE_SHARED_KEY)
    (h : fromBytes data offset = .ok (proposal, next)) :
    proposal.toBytes = .ok (slice data offset next) ↔ NothingSkipped data offset := by
  obtain ⟨⟨wire, mid⟩, htyped, hlift⟩ := Py.bind_eq_ok.mp h
  obtain ⟨_, hrun, hnext⟩ := Py.bind_eq_ok.mp hlift
  cases hnext
  have hbody := hmin.body (by rw [htype]; decide)
  obtain ⟨hwire, hreceived⟩ := typedOpaque_of_shortest (by decide) hbody htyped
  obtain ⟨b, pskId, pskNonce, rest, hparts, hencId, hencNonce, hexact⟩ :=
    readBody_parts (hmin.pskId htype wire _ hwire) (hmin.pskNonce htype wire _ hwire) hrun
  have hskipped : NothingSkipped data offset ↔ ExactBody wire := by
    refine ⟨fun hall => hall htype wire _ hwire, fun hone _ wire' next' hwire' => ?_⟩
    obtain ⟨rfl, -⟩ := Prod.mk.inj (Except.ok.inj (hwire.symm.trans hwire'))
    exact hone
  have hencode : proposal.toBytes =
      typedOpaque ProposalType.PRE_SHARED_KEY (0x01 :: (pskId ++ pskNonce)) := by
    rw [toBytes, hencId, Py.ok_bind, hencNonce, Py.ok_bind]
  rw [hskipped, hexact, hencode]
  constructor
  · intro hsame
    have hbytes := (typedOpaque_inj hsame hreceived).trans hparts
    obtain ⟨hfirst, htail⟩ := List.cons.inj hbytes
    exact ⟨hfirst.symm, List.self_eq_append_right.mp htail⟩
  · rintro ⟨rfl, rfl⟩
    rw [← hreceived, hparts, List.append_nil]

/-- What is accepted comes back exactly when nothing of it is skipped. -/
theorem proposal_comesBack_iff {C : Crypto} {proposal : Proposal} (hmin : Minimal data offset)
    (h : proposalFromBytes data offset = .ok (proposal, next)) :
    ComesBack C proposal (slice data offset next) ↔ NothingSkipped data offset := by
  rw [PureMls.Proposals.comesBack_iff]
  simp only [proposalFromBytes] at h
  split_ifs at h with hadd hupdate hremove hpsk
  · obtain ⟨⟨read, mid⟩, hread, hnext⟩ := Py.bind_eq_ok.mp h
    cases hnext
    obtain ⟨⟨body, mid⟩, hbody, hnext⟩ := Py.bind_eq_ok.mp hread
    cases hnext
    have hshort := hmin.body (by rw [hadd]; decide)
    exact iff_of_true (typedOpaque_of_shortest (by decide) hshort hbody).2
      fun hpsk => absurd (hadd.symm.trans hpsk) (by decide)
  · obtain ⟨⟨read, mid⟩, hread, hnext⟩ := Py.bind_eq_ok.mp h
    cases hnext
    obtain ⟨⟨body, mid⟩, hbody, hnext⟩ := Py.bind_eq_ok.mp hread
    cases hnext
    have hshort := hmin.body (by rw [hupdate]; decide)
    exact iff_of_true (typedOpaque_of_shortest (by decide) hshort hbody).2
      fun hpsk => absurd (hupdate.symm.trans hpsk) (by decide)
  · obtain ⟨⟨read, mid⟩, hread, hnext⟩ := Py.bind_eq_ok.mp h
    cases hnext
    exact iff_of_true (RemoveProposal.comesBack hread)
      fun hpsk => absurd (hremove.symm.trans hpsk) (by decide)
  · obtain ⟨⟨read, mid⟩, hread, hnext⟩ := Py.bind_eq_ok.mp h
    cases hnext
    exact PSKProposal.comesBack_iff hmin hpsk hread

/-! ## Both directions -/

/-- Every value that has an encoding is read back, wherever the encoding stands. -/
structure ReadBack : Prop where
  add : ∀ x : AddProposal, x.toBytes.Returns →
    RoundTrips AddProposal.toBytes AddProposal.fromBytes x x
  update : ∀ x : UpdateProposal, x.toBytes.Returns →
    RoundTrips UpdateProposal.toBytes UpdateProposal.fromBytes x x
  remove : ∀ x : RemoveProposal, x.removed < 2 ^ 32 →
    RoundTrips RemoveProposal.toBytes RemoveProposal.fromBytes x x
  psk : ∀ x : PSKProposal, x.toBytes.Returns →
    RoundTrips PSKProposal.toBytes PSKProposal.fromBytes x x
  proposal : ∀ x : Proposal, x.toBytes.Returns → RoundTrips Proposal.toBytes proposalFromBytes x x
  proposalOrRef : ∀ x : ProposalOrRef, x.ExactlyOne → x.toBytes.Returns →
    RoundTrips ProposalOrRef.toBytes ProposalOrRef.fromBytes x x
  commit : ∀ x : Commit, (∀ item ∈ x.proposals, item.ExactlyOne) → x.toBytes.Returns →
    RoundTrips Commit.toBytes Commit.fromBytes x x

theorem readBack : ReadBack where
  add _ h := .of h (fun _ => AddProposal.readsAs) rfl
  update _ h := .of h (fun _ => UpdateProposal.readsAs) rfl
  remove _ h := .of (RemoveProposal.returns_toBytes h) (fun _ => RemoveProposal.readsAs) rfl
  psk _ h := .of h (fun _ => PSKProposal.readsAs) rfl
  proposal _ h := .of h (fun _ => Proposal.readsAs) rfl
  proposalOrRef _ hone h := .of h (fun _ => ProposalOrRef.readsAs hone) rfl
  commit _ hitems h := .of h (fun _ => Commit.readsAs hitems) rfl

/-- Encodings are read back; and what is accepted in shortest form comes back, with its reference,
exactly when it is no pre-shared key proposal whose type byte or trailing bytes are skipped. -/
theorem proposal_codecs_inverse (C : Crypto) :
    ReadBack ∧ ∀ data offset proposal next, Minimal data offset →
      proposalFromBytes data offset = .ok (proposal, next) →
      (ComesBack C proposal (slice data offset next) ↔ NothingSkipped data offset) :=
  ⟨readBack, fun _ _ _ _ => proposal_comesBack_iff⟩

namespace Sample

/-- A proposal to use the external key 7 with the nonce 9. -/
def externalProposal : Bytes := [0x00, 0x04, 0x05, 0x01, 0x01, 0x07, 0x01, 0x09]

/-- The same type with the type byte of a resumption key, an empty identifier and no nonce. -/
def resumptionProposal : Bytes := [0x00, 0x04, 0x03, 0x02, 0x00, 0x00]

/-- A length below 64 has one byte. -/
theorem shortestAt {data : Bytes} {offset n : ℕ}
    (h : varintDecode data offset = .ok (n, offset + 1))
    (hform : slice data offset (offset + 1) = Rfc.varint n) : ShortestAt data offset := by
  intro n' next h'
  obtain ⟨rfl, rfl⟩ := Prod.mk.inj (Except.ok.inj (h.symm.trans h'))
  exact hform

theorem externalProposal_minimal : Minimal externalProposal 0 := by
  have hwire : readOpaque externalProposal 2 = .ok ([0x01, 0x01, 0x07, 0x01, 0x09], 8) := rfl
  refine ⟨fun _ => shortestAt (n := 5) rfl rfl, fun _ wire next h => ?_,
    fun _ wire next h pskId mid hid => ?_⟩
  · obtain ⟨rfl, -⟩ := Prod.mk.inj (Except.ok.inj (hwire.symm.trans h))
    exact shortestAt (n := 1) rfl rfl
  · obtain ⟨rfl, -⟩ := Prod.mk.inj (Except.ok.inj (hwire.symm.trans h))
    have hread : readOpaque [0x01, 0x01, 0x07, 0x01, 0x09] 1 = .ok ([0x07], 3) := rfl
    obtain ⟨-, rfl⟩ := Prod.mk.inj (Except.ok.inj (hread.symm.trans hid))
    exact shortestAt (n := 1) rfl rfl

theorem resumptionProposal_minimal : Minimal resumptionProposal 0 := by
  have hwire : readOpaque resumptionProposal 2 = .ok ([0x02, 0x00, 0x00], 6) := rfl
  refine ⟨fun _ => shortestAt (n := 3) rfl rfl, fun _ wire next h => ?_,
    fun _ wire next h pskId mid hid => ?_⟩
  · obtain ⟨rfl, -⟩ := Prod.mk.inj (Except.ok.inj (hwire.symm.trans h))
    exact shortestAt (n := 0) rfl rfl
  · obtain ⟨rfl, -⟩ := Prod.mk.inj (Except.ok.inj (hwire.symm.trans h))
    have hread : readOpaque [0x02, 0x00, 0x00] 1 = .ok ([], 2) := rfl
    obtain ⟨-, rfl⟩ := Prod.mk.inj (Except.ok.inj (hread.symm.trans hid))
    exact shortestAt (n := 0) rfl rfl

end Sample

theorem proposal_codecs_inverse_external :
    ComesBack PureMls.Sample.crypto (.psk ⟨[0x07], [0x09]⟩)
      (slice Sample.externalProposal 0 8) := by
  have haccepted :
    proposalFromBytes Sample.externalProposal 0 = .ok (.psk ⟨[0x07], [0x09]⟩, 8) := by
    decide
  refine ((proposal_codecs_inverse _).2 _ _ _ _ Sample.externalProposal_minimal haccepted).mpr ?_
  intro _ wire next h
  have hwire : readOpaque Sample.externalProposal 2 = .ok ([0x01, 0x01, 0x07, 0x01, 0x09], 8) := rfl
  obtain ⟨rfl, -⟩ := Prod.mk.inj (Except.ok.inj (hwire.symm.trans h))
  refine ⟨rfl, fun pskId mid pskNonce stop hid hnonce => ?_⟩
  have hread : readOpaque [0x01, 0x01, 0x07, 0x01, 0x09] 1 = .ok ([0x07], 3) := rfl
  obtain ⟨-, rfl⟩ := Prod.mk.inj (Except.ok.inj (hread.symm.trans hid))
  have hlast : readOpaque [0x01, 0x01, 0x07, 0x01, 0x09] 3 = .ok ([0x09], 5) := rfl
  obtain ⟨-, rfl⟩ := Prod.mk.inj (Except.ok.inj (hlast.symm.trans hnonce))
  rfl

/-- The type of a resumption key is not looked at, and comes back as that of an external one. -/
theorem resumption_type_lost : Minimal Sample.resumptionProposal 0 ∧
    proposalFromBytes Sample.resumptionProposal 0 = .ok (.psk ⟨[], []⟩, 6) ∧
    (Proposal.psk ⟨[], []⟩).toBytes = .ok [0x00, 0x04, 0x03, 0x01, 0x00, 0x00] ∧
    ∀ C, ¬ ComesBack C (.psk ⟨[], []⟩) (slice Sample.resumptionProposal 0 6) := by
  refine ⟨Sample.resumptionProposal_minimal, by decide, by decide, fun C h => ?_⟩
  have hbytes : [0x00, 0x04, 0x03, 0x01, 0x00, 0x00] = slice Sample.resumptionProposal 0 6 :=
    Except.ok.inj h.1
  exact absurd hbytes (by decide)

end PureMls.Proposals
