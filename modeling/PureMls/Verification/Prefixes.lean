import PureMls.Verification.Dialects
import PureMls.Verification.MessageCodec
import PureMls.Verification.Streaming

/-! # Messages that are cut short

No proper prefix of an encoding is decoded. -/

namespace PureMls

/-- Every proper prefix of the encoding of `x` is refused. -/
def RefusesPrefixes {α β : Type} (encode : α → Py Bytes) (decode : Bytes → Py β) (x : α) : Prop :=
  ∀ data, encode x = .ok data → ∀ received, received <+: data → received ≠ data →
    (decode received).Raises

/-- A proper prefix is what is left when the rest is cut off. -/
theorem take_of_prefix {received data : Bytes} (h : received <+: data) (hne : received ≠ data) :
    ∃ k < data.length, received = data.take k := by
  obtain ⟨rest, rfl⟩ := h
  have hpos : 0 < rest.length := by
    refine List.length_pos_iff.mpr fun hnil => hne ?_
    rw [hnil, List.append_nil]
  exact ⟨received.length, by rw [List.length_append]; omega, by rw [List.take_left]⟩

/-- The decoder of a standalone buffer, its encodings being read back as anything. -/
theorem RefusesPrefixes.of_reads {α β : Type} {encode : α → Py Bytes} {d : Decoder β} {x : α}
    (hreads : Reads d) (hinside : EndsInside d)
    (hencoded : ∀ data, encode x = .ok data → ∃ y, ReadsAs d data y) :
    RefusesPrefixes encode d.run x := by
  intro data hdata received hpre hne
  obtain ⟨k, hk, rfl⟩ := take_of_prefix hpre hne
  obtain ⟨y, hy⟩ := hencoded data hdata
  exact (hreads.raises_take DecodeFault.not_hang hinside hy [] hk).map Prod.fst

/-! ## Messages that end with a checked vector -/

theorem KeyPackage.endsInside : EndsInside KeyPackage.fromBytesAt :=
  .bind fun _ => .bind fun _ => .bind fun _ => .bind fun _ => .bind fun _ => .bind fun _ =>
    .bind fun _ =>
    endsInside_opaque.map _

theorem GroupInfo.endsInside : EndsInside GroupInfo.fromBytesAt :=
  .bind fun _ => .bind fun _ => .bind fun _ => .bind fun _ => .bind fun _ => endsInside_opaque.map _

theorem GroupUpdate.endsInside : EndsInside GroupUpdate.fromBytesAt :=
  .bind fun _ => .bind fun _ => .bind fun _ => .bind fun _ => .bind fun _ => .bind fun _ =>
    .bind fun _ =>
    endsInside_opaque.map _

theorem MLSMessage.endsInside : EndsInside MLSMessage.fromBytesAt :=
  .bind fun _ => .bind fun _ => .bind fun _ => endsInside_opaque32.map _

/-- Parsing the nested messages does not move the offset. -/
theorem PublicMessage.endsInside : EndsInside PublicMessage.fromBytesAt := by
  intro buf offset message next h
  obtain ⟨⟨contentBytes, _⟩, -, h⟩ := Py.bind_eq_ok.mp h
  obtain ⟨⟨authBytes, start⟩, -, h⟩ := Py.bind_eq_ok.mp h
  obtain ⟨⟨tag, stop⟩, htag, h⟩ := Py.bind_eq_ok.mp h
  obtain ⟨⟨content, mid⟩, hcontent, h⟩ := Py.bind_eq_ok.mp h
  obtain ⟨⟨auth, last⟩, hauth, h⟩ := Py.bind_eq_ok.mp h
  obtain ⟨_, -, hmid⟩ := Py.bind_eq_ok.mp hcontent
  obtain ⟨_, -, hlast⟩ := Py.bind_eq_ok.mp hauth
  cases hmid
  cases hlast
  cases h
  exact endsInside_opaque _ _ _ _ htag

theorem KeyPackage.refusesPrefixes (x : KeyPackage) :
    RefusesPrefixes KeyPackage.toBytes KeyPackage.fromBytes x :=
  .of_reads KeyPackage.reads KeyPackage.endsInside fun _ h => ⟨_, KeyPackage.readsAs h⟩

theorem RatchetTree.refusesPrefixes (x : RatchetTree) :
    RefusesPrefixes RatchetTree.toBytes RatchetTree.fromBytes x := by
  intro data hdata received hpre hne
  simp only [toBytes, Py.bind_eq_ok, Py.pure_eq, Except.ok.injEq] at hdata
  obtain ⟨parts, -, size, hsize, rfl⟩ := hdata
  have hopaque : tlsOpaque parts = .ok (size ++ parts) := by
    rw [tlsOpaque, hsize]
    rfl
  obtain ⟨k, hk, rfl⟩ := take_of_prefix hpre hne
  have hraises := reads_opaque.raises_take DecodeFault.not_hang endsInside_opaque
    (readsAs_opaqueV hopaque) [] hk
  exact (hraises.map Prod.fst).bind _

theorem GroupInfo.refusesPrefixes (x : GroupInfo) :
    RefusesPrefixes GroupInfo.toBytes GroupInfo.fromBytes x := by
  have hfields : RefusesPrefixes GroupInfo.toBytes GroupInfo.fromBytesAt.run x :=
    .of_reads GroupInfo.reads GroupInfo.endsInside fun _ h => ⟨_, GroupInfo.readsAs h⟩
  exact fun data hdata received hpre hne => (hfields data hdata received hpre hne).bind _

/-- Also of a commit whose tree is no complete array. -/
theorem GroupUpdate.refusesPrefixes (x : GroupUpdate) :
    RefusesPrefixes GroupUpdate.toBytes GroupUpdate.fromBytes x :=
  .of_reads GroupUpdate.reads GroupUpdate.endsInside fun _ h =>
    ⟨_, GroupUpdate.readsAs_withTree h fun _ => RatchetTree.fromBytes_eq_ofEntries⟩

theorem PublicMessage.refusesPrefixes (x : PublicMessage) :
    RefusesPrefixes PublicMessage.toBytes PublicMessage.fromBytes x :=
  .of_reads PublicMessage.reads PublicMessage.endsInside fun _ h => ⟨_, PublicMessage.readsAs h⟩

theorem MLSMessage.refusesPrefixes (x : MLSMessage) :
    RefusesPrefixes MLSMessage.toBytes MLSMessage.fromBytes x :=
  .of_reads MLSMessage.reads MLSMessage.endsInside fun _ h => ⟨_, MLSMessage.readsAs h⟩

/-! ## Welcome -/

theorem Strategy.endsInside_vector (strategy : Strategy) : EndsInside strategy.decodeVector :=
  .bind fun _ => (endsInside_checked _ _).map _

namespace DialectWelcome

variable {strategy : Strategy} {welcome : DialectWelcome} {entries egs egi : Bytes}

theorem endsInside_body (strategy : Strategy) : EndsInside (readBody strategy) :=
  .bind fun _ => .bind fun _ => .bind fun _ => strategy.endsInside_vector.map _

/-- With an entry in it the encoding does not start like an MLSMessage, and no prefix of it does. -/
theorem Encoded.bodyOffset_take (h : Encoded strategy welcome entries egs egi)
    (hne : welcome.encryptedGroupSecrets ≠ []) (k : ℕ) :
    bodyOffset strategy (strategy.header ++ ([0x00, 0x01] ++ egs ++ egi).take k) =
      strategy.header.length := by
  by_cases hstrategy : strategy = .standard
  · subst hstrategy
    have hnot : ¬ [0x00, 0x01, 0x00, 0x03] <+: ([0x00, 0x01] ++ egs ++ egi).take k := fun hpre =>
      hne (h.wrapped_iff.mp (hpre.trans (List.take_prefix _ _))).1
    have hheader : Strategy.standard.header = [] := rfl
    rw [hheader, List.nil_append, bodyOffset_standard, if_neg hnot]
    rfl
  · exact bodyOffset_header hstrategy _

/-- What is left of a header alone is too short for a cipher suite. -/
theorem raises_header {k : ℕ} (hk : k < strategy.header.length) :
    (readBody strategy (strategy.header.take k)
      (bodyOffset strategy (strategy.header.take k))).Raises := by
  have hoffset : bodyOffset strategy (strategy.header.take k) = 0 := by
    have hshort : ¬ strategy.header <+: strategy.header.take k := fun hpre => by
      have hlen := hpre.length_le
      rw [List.length_take] at hlen
      omega
    have hname : ¬ strategy.name = "standard" := by
      cases strategy with
      | standard => exact absurd hk (Nat.not_lt_zero _)
      | cisco => decide
      | mlspp => decide
    rw [bodyOffset, if_neg fun hboth => hshort hboth.2, if_neg fun hboth => hname hboth.1]
  have hsize : ¬ 0 + 2 ≤ (strategy.header.take k).length := by
    have hheader : strategy.header.length ≤ 2 := by cases strategy <;> decide
    rw [List.length_take]
    omega
  rw [hoffset]
  apply Py.Raises.bind
  rw [readU16, unpackFrom, if_neg hsize]
  exact ⟨_, rfl, by simp⟩

theorem Encoded.raises_take (h : Encoded strategy welcome entries egs egi)
    (hne : welcome.encryptedGroupSecrets ≠ []) {k : ℕ}
    (hk : k < (strategy.header ++ ([0x00, 0x01] ++ egs ++ egi)).length) :
    (fromBytes ((strategy.header ++ ([0x00, 0x01] ++ egs ++ egi)).take k)
      (some strategy.name)).Raises := by
  rw [fromBytes_eq]
  apply Py.Raises.bind
  by_cases hheader : k < strategy.header.length
  · rw [List.take_append_of_le_length hheader.le]
    exact raises_header hheader
  · -- the header is there, and the body behind it is cut
    obtain ⟨j, rfl⟩ := Nat.exists_eq_add_of_le (Nat.not_lt.mp hheader)
    rw [List.take_length_add_append, h.bodyOffset_take hne]
    rw [List.length_append] at hk
    exact (reads_body strategy).raises_take DecodeFault.not_hang
      (endsInside_body strategy) h.readsAs
      strategy.header (by omega)

/-- The decoder is told the dialect of the encoder; without one both take the standard. -/
theorem refusesPrefixes {welcome : DialectWelcome}
    (hdialect : welcome.dialect.getD "standard" = strategy.name)
    (hne : welcome.encryptedGroupSecrets ≠ []) :
    RefusesPrefixes toBytes (fun data => fromBytes data welcome.dialect) welcome := by
  intro data hdata received hpre hproper
  obtain ⟨k, hk, rfl⟩ := take_of_prefix hpre hproper
  have hname : welcome.dialectName = strategy.name := by
    rw [dialectName]
    cases hdial : welcome.dialect with
    | none => rwa [hdial] at hdialect
    | some name =>
        rw [hdial] at hdialect
        obtain rfl : name = strategy.name := hdialect
        cases strategy <;> rfl
  obtain ⟨entries, egs, egi, hencoded, rfl⟩ := toBytes_encoded hname hdata
  have hraises := hencoded.raises_take hne hk
  have hget : (some strategy.name).getD "standard" = welcome.dialect.getD "standard" :=
    hdialect.symm
  simp only [fromBytes] at hraises ⊢
  rwa [hget] at hraises

end DialectWelcome

/-- No proper prefix of an encoding is accepted by the decoder of its type. -/
theorem truncated_messages_rejected :
    (∀ x, RefusesPrefixes KeyPackage.toBytes KeyPackage.fromBytes x) ∧
    (∀ x, RefusesPrefixes RatchetTree.toBytes RatchetTree.fromBytes x) ∧
    (∀ x, RefusesPrefixes GroupInfo.toBytes GroupInfo.fromBytes x) ∧
    (∀ x, RefusesPrefixes GroupUpdate.toBytes GroupUpdate.fromBytes x) ∧
    (∀ x, RefusesPrefixes PublicMessage.toBytes PublicMessage.fromBytes x) ∧
    (∀ x, RefusesPrefixes MLSMessage.toBytes MLSMessage.fromBytes x) ∧
    (∀ (strategy : Strategy) (x : DialectWelcome), x.dialect.getD "standard" = strategy.name →
      x.encryptedGroupSecrets ≠ [] →
      RefusesPrefixes DialectWelcome.toBytes
        (fun data => DialectWelcome.fromBytes data x.dialect) x) :=
  ⟨KeyPackage.refusesPrefixes, RatchetTree.refusesPrefixes, GroupInfo.refusesPrefixes,
    GroupUpdate.refusesPrefixes, PublicMessage.refusesPrefixes, MLSMessage.refusesPrefixes,
    fun _ _ => DialectWelcome.refusesPrefixes⟩

theorem truncated_messages_rejected_cisco : RefusesPrefixes DialectWelcome.toBytes
    (fun data => DialectWelcome.fromBytes data (some "cisco")) Sample.ciscoWelcome :=
  truncated_messages_rejected.2.2.2.2.2.2 .cisco Sample.ciscoWelcome rfl (by decide)

end PureMls
