import PureMls.Foundation.Walk
import PureMls.Verification.Assumptions
import PureMls.Verification.TreeHash

/-! # Trees read from the wire

What `RatchetTree.from_bytes` accepts, entry by entry, and when the array it builds has
the layout that the tree arithmetic relies on. -/

namespace PureMls

/-! ## How far the decoders read -/

theorem unpackFrom_next {n : ℕ} {buf : Bytes} {offset item next : ℕ}
    (h : unpackFrom n buf offset = .ok (item, next)) : next = offset + n := by
  rw [unpackFrom] at h
  split at h
  · cases h
    rfl
  · cases h

theorem advances_unpackFrom (n : ℕ) : Advances (unpackFrom n) := by
  intro buf offset item next h
  rw [unpackFrom_next h]
  exact Nat.le_add_right _ _

theorem advances_u8 : Advances readU8 := by
  intro buf offset item next h
  obtain ⟨_, -, hnext⟩ := Py.bind_eq_ok.mp h
  cases hnext
  exact Nat.le_succ _

theorem varintDecode_advances {buf : Bytes} {offset item next : ℕ}
    (h : varintDecode buf offset = .ok (item, next)) : offset < next := by
  obtain ⟨first, -, h⟩ := Py.bind_eq_ok.mp h
  simp only at h
  split_ifs at h
  · cases h
    omega
  · obtain ⟨_, -, hnext⟩ := Py.bind_eq_ok.mp h
    cases hnext
    omega
  · simp only [Py.bind_eq_ok] at h
    obtain ⟨_, -, _, -, _, -, _, -, hnext⟩ := h
    cases hnext
    omega

theorem advances_varint : Advances varintDecode := fun _ _ _ _ h => (varintDecode_advances h).le

theorem advances_slice (length : ℕ) : Advances (readSlice length) := by
  intro buf offset item next h
  cases h
  exact Nat.le_add_right _ _

theorem advances_checked (length : ℕ) (message : ℕ → ℕ → String) :
    Advances (readChecked length message) := by
  intro buf offset item next h
  obtain ⟨_, -, hnext⟩ := Py.bind_eq_ok.mp h
  cases hnext
  exact Nat.le_add_right _ _

theorem advances_opaque : Advances readOpaque := advances_varint.bind fun _ => advances_checked _ _

theorem endsInside_checked (length : ℕ) (message : ℕ → ℕ → String) :
    EndsInside (readChecked length message) := by
  intro buf offset item next h
  obtain ⟨_, hbound, hnext⟩ := Py.bind_eq_ok.mp h
  cases hnext
  exact Py.require_eq_ok.mp hbound

theorem endsInside_opaque : EndsInside readOpaque := .bind fun _ => endsInside_checked _ _

theorem endsInside_opaque32 : EndsInside readOpaque32 := .bind fun _ => endsInside_checked _ _

theorem advances_extensions : Advances readExtensions :=
  advances_opaque.bind fun _ => .lift _

theorem Credential.advances : Advances Credential.fromBytesAt :=
  (advances_unpackFrom 2).bind fun _ => advances_opaque.bind fun _ => .pure _

theorem Capabilities.advances : Advances Capabilities.fromBytesAt := by
  have hvec : Advances readVarintVec :=
    advances_varint.bind fun _ => (advances_slice _).bind fun _ => .pure _
  exact hvec.bind fun _ => hvec.bind fun _ => hvec.bind fun _ => hvec.bind fun _ =>
    hvec.bind fun _ => .pure _

namespace LeafNode

private theorem advances_sourceBlock (source : ℕ) : Advances (readSourceBlock source) := by
  unfold readSourceBlock
  split_ifs
  · exact (advances_unpackFrom 8).bind fun _ => (advances_unpackFrom 8).bind fun _ => .pure _
  · exact advances_opaque.bind fun _ => .pure _
  · exact .pure _

theorem advances : Advances LeafNode.fromBytesAt :=
  advances_opaque.bind fun _ => advances_opaque.bind fun _ => Credential.advances.bind fun _ =>
    Capabilities.advances.bind fun _ => advances_u8.bind fun _ =>
    (advances_sourceBlock _).bind fun _ => advances_extensions.bind fun _ =>
    advances_opaque.bind fun _ => .pure _

theorem endsInside : EndsInside LeafNode.fromBytesAt :=
  .bind fun _ => .bind fun _ => .bind fun _ => .bind fun _ => .bind fun _ => .bind fun _ =>
    .bind fun _ => endsInside_opaque.map _

end LeafNode

namespace ParentNode

theorem advances : Advances ParentNode.fromBytesAt :=
  advances_opaque.bind fun _ => advances_opaque.bind fun _ => advances_opaque.bind fun _ => .pure _

theorem endsInside : EndsInside ParentNode.fromBytesAt :=
  .bind fun _ => .bind fun _ => endsInside_opaque.map _

end ParentNode

/-! ## How much they read -/

private theorem untilEnd_length_le {α : Type} {d : Decoder α} {raw : Bytes} {fuel offset : ℕ}
    {items : List α} (h : d.untilEnd raw fuel offset = .ok items) : items.length ≤ fuel := by
  induction fuel generalizing offset items with
  | zero =>
      unfold Decoder.untilEnd at h
      split_ifs at h
      simp only [Except.ok.injEq] at h
      simp [← h]
  | succ fuel ih =>
      unfold Decoder.untilEnd at h
      split_ifs at h
      · simp only [Py.bind_eq_ok, Except.ok.injEq] at h
        obtain ⟨⟨item, next⟩, -, rest, hrest, rfl⟩ := h
        simpa using ih hrest
      · simp only [Except.ok.injEq] at h
        simp [← h]

/-! ## Entries -/

theorem byteAt_eq_ok {buf : Bytes} {i v : ℕ} :
    byteAt buf i = .ok v ↔ ∃ b, buf[i]? = some b ∧ b.toNat = v := by
  unfold byteAt
  cases buf[i]? <;> simp

namespace RatchetTree

variable {raw : Bytes} {tree : RatchetTree}

/-- The byte that announces a node of this kind. -/
def nodeType : Node → UInt8
  | .leaf _ => 0x01
  | .parent _ => 0x02

private theorem readNode_spec {offset next : ℕ} {node : Node}
    (h : readNode raw offset = .ok (node, next)) :
    raw[offset]? = some (nodeType node) ∧ offset < next ∧ next ≤ raw.length := by
  obtain ⟨⟨type, mid⟩, htype, h⟩ := Py.bind_eq_ok.mp h
  obtain ⟨_, hbyte, hmid⟩ := Py.bind_eq_ok.mp htype
  cases hmid
  obtain ⟨b, hb, rfl⟩ := byteAt_eq_ok.mp hbyte
  simp only at h
  split_ifs at h with hleaf hparent
  · obtain ⟨⟨leaf, after⟩, hread, hrest⟩ := Py.bind_eq_ok.mp h
    cases hrest
    have hone : b = 0x01 := UInt8.toNat_inj.mp hleaf
    exact ⟨hb.trans (congrArg some hone), LeafNode.advances _ _ _ _ hread,
      LeafNode.endsInside _ _ _ _ hread⟩
  · obtain ⟨⟨parent, after⟩, hread, hrest⟩ := Py.bind_eq_ok.mp h
    cases hrest
    have htwo : b = 0x02 := UInt8.toNat_inj.mp hparent
    exact ⟨hb.trans (congrArg some htwo), ParentNode.advances _ _ _ _ hread,
      ParentNode.endsInside _ _ _ _ hread⟩
  · simp [Decoder.lift] at h

/-- An entry is a blank, a presence byte with nothing after it, or a node. -/
theorem readEntry_spec {offset next : ℕ} {item : Option (Option Node)}
    (h : readEntry raw offset = .ok (item, next)) :
    offset < next ∧ next ≤ raw.length ∧
      ((item = some none ∧ raw[offset]? = some 0x00) ∨
        (item = none ∧ raw[offset]? = some 0x01 ∧ raw[offset + 1]? = none) ∨
        ∃ node, item = some (some node) ∧ raw[offset]? = some 0x01 ∧
          raw[offset + 1]? = some (nodeType node)) := by
  obtain ⟨⟨present, mid⟩, hpresent, h⟩ := Py.bind_eq_ok.mp h
  obtain ⟨_, hbyte, hmid⟩ := Py.bind_eq_ok.mp hpresent
  cases hmid
  obtain ⟨b, hb, rfl⟩ := byteAt_eq_ok.mp hbyte
  have hlt : offset < raw.length := (List.getElem?_eq_some_iff.mp hb).1
  simp only at h
  split_ifs at h with hblank hnode hend
  · cases h
    have hzero : b = 0x00 := UInt8.toNat_inj.mp hblank
    exact ⟨Nat.lt_succ_self _, hlt, .inl ⟨rfl, hb.trans (congrArg some hzero)⟩⟩
  · cases h
    have hone : b = 0x01 := UInt8.toNat_inj.mp hnode
    refine ⟨Nat.lt_succ_self _, hlt, .inr (.inl ⟨rfl, hb.trans (congrArg some hone), ?_⟩)⟩
    exact List.getElem?_eq_none hend
  · obtain ⟨⟨node, after⟩, hread, hrest⟩ := Py.bind_eq_ok.mp h
    cases hrest
    have hone : b = 0x01 := UInt8.toNat_inj.mp hnode
    obtain ⟨htype, hafter, hbound⟩ := readNode_spec hread
    refine ⟨by omega, hbound, .inr (.inr ⟨node, rfl, hb.trans (congrArg some hone), htype⟩)⟩

/-! ## The array that is built -/

theorem parse_eq_ok (h : parse raw = .ok tree) :
    ∃ items, Walk readEntry raw 0 items ∧ tree = ofEntries items.reduceOption := by
  obtain ⟨items, hitems, hrest⟩ := Py.bind_eq_ok.mp h
  cases hrest
  exact ⟨items, walk_of_all hitems, rfl⟩

theorem getNode_ofEntries (entries : List (Option Node)) (i : ℕ) :
    (ofEntries entries).getNode i = (entries[i]?).join := by
  simp only [getNode, ofEntries, List.getElem?_append]
  by_cases h : i < entries.length
  · rw [if_pos h]
  · rw [if_neg h, List.getElem?_eq_none (Nat.not_lt.mp h), List.getElem?_replicate]
    split_ifs <;> rfl

theorem numLeaves_ofEntries (entries : List (Option Node)) :
    (entries = [] ∧ (ofEntries entries).numLeaves = 0) ∨
    ∃ m, (ofEntries entries).numLeaves = 2 ^ m ∧
      (entries.length + 1) / 2 ≤ 2 ^ m ∧ ∀ k, (entries.length + 1) / 2 ≤ 2 ^ k → m ≤ k := by
  simp only [ofEntries]
  by_cases h : 0 < (entries.length + 1) / 2
  · rw [if_pos h]
    exact .inr (nextPow2_spec _)
  · rw [if_neg h]
    exact .inl ⟨List.eq_nil_of_length_eq_zero (by omega), rfl⟩

/-- The array is full unless the entries are as many as a power of two from 2 on: then the
last one has no place in the tree. -/
theorem length_ofEntries_iff (entries : List (Option Node)) :
    (ofEntries entries).nodes.length = 2 * (ofEntries entries).numLeaves - 1 ↔
      ∀ k, entries.length ≠ 2 ^ (k + 1) := by
  have hlen : (ofEntries entries).nodes.length =
      entries.length + (2 * (ofEntries entries).numLeaves - 1 - entries.length) := by
    simp [ofEntries]
  rw [hlen]
  rcases numLeaves_ofEntries entries with ⟨rfl, h0⟩ | ⟨m, hm, hle, hmin⟩
  · rw [h0]
    have hpos : ∀ k, 0 ≠ 2 ^ (k + 1) := fun k => (Nat.two_pow_pos _).ne
    simpa using hpos
  · rw [hm]
    have hpos := Nat.two_pow_pos m
    constructor
    · intro hfull k hk
      have hhalf : (entries.length + 1) / 2 = 2 ^ k := by rw [hk, pow_succ]; omega
      have hmk : m ≤ k := hmin k hhalf.le
      have hpow : 2 ^ m ≤ 2 ^ k := Nat.pow_le_pow_right (by decide) hmk
      rw [hk, pow_succ] at hfull
      omega
    · intro hne
      have hne' := hne m
      rw [pow_succ] at hne'
      omega

/-! ## Trees as they travel -/

/-- The trees that are parsed, and those the tree operations build: no leaf, or a power of two of
them with all their nodes and at most one entry more. -/
def OnWire (tree : RatchetTree) : Prop :=
  tree.numLeaves = 0 ∧ tree.nodes = [] ∨
    ∃ m ≤ 29, tree.Covers m ∧ tree.nodes.length ≤ 2 ^ (m + 1)

theorem ofEntries_onWire {entries : List (Option Node)} (h : entries.length < 2 ^ 30) :
    (ofEntries entries).OnWire := by
  have hlen : (ofEntries entries).nodes.length =
      entries.length + (2 * (ofEntries entries).numLeaves - 1 - entries.length) := by
    simp [ofEntries]
  rcases numLeaves_ofEntries entries with ⟨rfl, hzero⟩ | ⟨m, hm, hle, hmin⟩
  · exact .inl ⟨hzero, by simpa [hzero] using hlen⟩
  · have hpow : 2 ^ (m + 1) = 2 * 2 ^ m := by ring
    rw [hm] at hlen
    refine .inr ⟨m, hmin 29 (by omega), ⟨hm, ?_⟩, ?_⟩
    · omega
    · omega

theorem fromBytes_onWire {data : Bytes} (h : fromBytes data = .ok tree) : tree.OnWire := by
  obtain ⟨raw, hraw, hparse⟩ := Py.bind_eq_ok.mp h
  obtain ⟨items, hitems, hrest⟩ := Py.bind_eq_ok.mp hparse
  cases hrest
  apply ofEntries_onWire
  have hlen := untilEnd_length_le hitems
  have hraw' := yields_opaque.run hraw
  exact Nat.lt_of_le_of_lt ((List.length_filterMap_le id items).trans hlen) hraw'

namespace OnWire

theorem covers (h : tree.OnWire) :
    tree.numLeaves = 0 ∧ tree.nodes = [] ∨ ∃ m ≤ 29, tree.Covers m := by
  rcases h with h | ⟨m, hm, hcovers, -⟩
  · exact .inl h
  · exact .inr ⟨m, hm, hcovers⟩

theorem length_le (h : tree.OnWire) : tree.nodes.length ≤ 2 * tree.numLeaves := by
  rcases h with ⟨-, hnil⟩ | ⟨m, -, hcovers, hle⟩
  · simp [hnil]
  · rw [hcovers.1]
    rwa [pow_succ, Nat.mul_comm] at hle

theorem canon (h : tree.OnWire) : tree.canon.OnWire := by
  rcases h with ⟨hzero, hnil⟩ | ⟨m, hm, hcovers, hle⟩
  · exact .inl ⟨hzero, by simp [RatchetTree.canon, hnil]⟩
  · exact .inr ⟨m, hm, ⟨hcovers.1, by simpa using hcovers.2⟩, by simpa using hle⟩

/-- Such a tree is what its own entries stand for. -/
theorem ofEntries_nodes (h : tree.OnWire) : ofEntries tree.nodes = tree := by
  obtain ⟨numLeaves, nodes⟩ := tree
  rcases h with ⟨hzero, hnil⟩ | ⟨m, -, ⟨hm, hge⟩, hle⟩
  · simp only at hzero hnil
    simp [ofEntries, hzero, hnil]
  · simp only at hm hge hle
    have hpow : 2 ^ (m + 1) = 2 * 2 ^ m := by ring
    have hpos := Nat.two_pow_pos m
    have himplied : (nodes.length + 1) / 2 = 2 ^ m := by omega
    have hpad : 2 * 2 ^ m - 1 - nodes.length = 0 := by omega
    simp [ofEntries, himplied, hpos, nextPow2_pow, hm, hpad]

/-- Parsing the encoding gives the canonical form. -/
theorem fromBytes_toBytes (h : tree.OnWire) {e : Bytes} (he : tree.toBytes = .ok e) :
    fromBytes e = .ok tree.canon :=
  fromBytes_toBytes_of h.canon.ofEntries_nodes he

end OnWire

theorem Sized.onWire {m : ℕ} (h : tree.Sized m) (hm : m ≤ 29) : tree.OnWire :=
  .inr ⟨m, hm, h.covers, h.2.le.trans (Nat.sub_le _ _)⟩

/-! ## The layout -/

/-- The layout of a node array and how it comes from the bytes of the vector. -/
structure ArrayInvariant (raw : Bytes) (tree : RatchetTree) : Prop where
  leaves : tree.numLeaves = 0 ∨ ∃ m, tree.numLeaves = 2 ^ m
  size : tree.nodes.length = 2 * tree.numLeaves - 1
  even : ∀ i parent, i % 2 = 0 → tree.getNode i ≠ some (.parent parent)
  odd : ∀ i leaf, i % 2 = 1 → tree.getNode i ≠ some (.leaf leaf)
  /-- The entries before the padding stand one after the other in the bytes and fill them. -/
  bytes : ∃ entries padding, tree.nodes = entries ++ List.replicate padding none ∧
    Tiles readEntry raw 0 (entries.map some)

/-- The node type that belongs at an index. -/
def typeAt (i : ℕ) : UInt8 := if i % 2 = 0 then 0x01 else 0x02

/-- Each entry is a blank or has the node type of its place, and there are not as many entries
as a power of two from 2 on. -/
structure Aligned (raw : Bytes) : Prop where
  kinds : ∀ i o, StartsAt readEntry raw i o →
    raw[o]? = some 0x00 ∨ raw[o + 1]? = some (typeAt i)
  count : ∀ k, ¬ ItemCount readEntry raw (2 ^ (k + 1))

private theorem exists_map_some {α : Type} {items : List (Option α)} (h : none ∉ items) :
    ∃ entries : List α, items = entries.map some := by
  induction items with
  | nil => exact ⟨[], rfl⟩
  | cons item items ih =>
      cases item with
      | none => simp at h
      | some entry =>
          obtain ⟨entries, rfl⟩ := ih fun hmem => h (List.mem_cons_of_mem _ hmem)
          exact ⟨entry :: entries, rfl⟩

/-- In an aligned vector every entry that is read is a blank or a node of its place. -/
private theorem Aligned.entries (h : Aligned raw) {items : List (Option (Option Node))}
    (hwalk : Walk readEntry raw 0 items) :
    ∃ entries : List (Option Node), items = entries.map some ∧
      ∀ i node, entries[i]? = some (some node) → nodeType node = typeAt i := by
  have hitem : ∀ (i : ℕ) (item : Option (Option Node)), items[i]? = some item →
      item = some none ∨ ∃ node, item = some (some node) ∧ nodeType node = typeAt i := by
    intro i item hget
    obtain ⟨o, next, hstart, hread⟩ := hwalk.startsAt hget
    obtain ⟨-, -, ⟨rfl, -⟩ | ⟨rfl, hone, hend⟩ | ⟨node, rfl, hone, htype⟩⟩ := readEntry_spec hread
    · exact .inl rfl
    · rcases h.kinds i o hstart with hzero | htype
      · simp [hone] at hzero
      · simp [hend] at htype
    · rcases h.kinds i o hstart with hzero | htype'
      · simp [hone] at hzero
      · rw [htype, Option.some.injEq] at htype'
        exact .inr ⟨node, rfl, htype'⟩
  have hnone : none ∉ items := by
    intro hmem
    obtain ⟨i, hi⟩ := List.mem_iff_getElem?.mp hmem
    simpa using hitem i none hi
  obtain ⟨entries, rfl⟩ := exists_map_some hnone
  refine ⟨entries, rfl, fun i node hget => ?_⟩
  rcases hitem i (some (some node)) (by simp [hget]) with hblank | ⟨node', heq, htype⟩
  · simp at hblank
  · cases heq
    exact htype

/-- A vector gives the layout that the tree arithmetic needs exactly when it is aligned. -/
theorem arrayInvariant_iff (h : parse raw = .ok tree) : ArrayInvariant raw tree ↔ Aligned raw := by
  obtain ⟨items, hwalk, rfl⟩ := parse_eq_ok h
  constructor
  · intro hinv
    obtain ⟨entries, padding, hnodes, htiles⟩ := hinv.bytes
    have hitems : items = entries.map some := hwalk.unique htiles.walk.2
    subst hitems
    rw [reduceOption_map_some] at hinv
    refine ⟨fun i o hstart => ?_, fun k hcount => ?_⟩
    · have hi := hwalk.lt_of_startsAt hstart
      rw [List.length_map] at hi
      have hitem : (entries.map some)[i]? = some (some entries[i]) := by simp [hi]
      obtain ⟨o', next, hstart', hread⟩ := hwalk.startsAt hitem
      rw [hstart'.unique hstart] at hread
      have hget : (ofEntries entries).getNode i = entries[i] := by
        rw [getNode_ofEntries, List.getElem?_eq_getElem hi]
        rfl
      obtain ⟨-, -, ⟨-, hzero⟩ | ⟨hnone, -⟩ | ⟨node, hnode, -, htype⟩⟩ := readEntry_spec hread
      · exact .inl hzero
      · cases hnone
      · rw [Option.some.injEq] at hnode
        rw [hnode] at hget
        refine .inr (htype.trans (congrArg some ?_))
        rcases Nat.mod_two_eq_zero_or_one i with hi2 | hi2
        · cases node with
          | leaf leaf => simp [nodeType, typeAt, hi2]
          | parent parent => exact absurd hget (hinv.even i parent hi2)
        · cases node with
          | leaf leaf => exact absurd hget (hinv.odd i leaf hi2)
          | parent parent => simp [nodeType, typeAt, hi2]
    · have hlen := hcount.unique hwalk.itemCount
      rw [List.length_map] at hlen
      exact (length_ofEntries_iff entries).mp hinv.size k hlen.symm
  · intro haligned
    obtain ⟨entries, rfl, htype⟩ := haligned.entries hwalk
    rw [reduceOption_map_some]
    have hkind : ∀ i node, (ofEntries entries).getNode i = some node →
      nodeType node = typeAt i := by
      intro i node hget
      rw [getNode_ofEntries, Option.join_eq_some_iff] at hget
      exact htype i node hget
    refine ⟨?_, ?_, fun i parent hi hget => ?_, fun i leaf hi hget => ?_, ?_⟩
    · rcases numLeaves_ofEntries entries with ⟨-, hzero⟩ | ⟨m, hm, -⟩
      · exact .inl hzero
      · exact .inr ⟨m, hm⟩
    · refine (length_ofEntries_iff entries).mpr fun k hk => haligned.count k ?_
      rw [← hk, ← entries.length_map some]
      exact hwalk.itemCount
    · simpa [nodeType, typeAt, hi] using hkind i _ hget
    · simpa [nodeType, typeAt, hi] using hkind i _ hget
    · exact ⟨entries, _, rfl, hwalk.tiles (fun o item next hread =>
        ⟨(readEntry_spec hread).1, (readEntry_spec hread).2.1⟩) (Nat.zero_le _)⟩

/-- For everything the two parsers accept: the array has its layout, and every byte of the
vector belongs to exactly one entry, if and only if the vector is aligned. -/
theorem parsed_layout_iff (data : Bytes) :
    (∀ tree, fromBytes data = .ok tree →
      ∃ raw, readOpaque.run data = .ok raw ∧ (ArrayInvariant raw tree ↔ Aligned raw)) ∧
    ∀ offset tree next, fromBytesAt data offset = .ok (tree, next) →
      ∃ raw, readOpaque data offset = .ok (raw, next) ∧
        (ArrayInvariant raw tree ↔ Aligned raw) := by
  constructor
  · intro tree h
    obtain ⟨raw, hraw, hparse⟩ := Py.bind_eq_ok.mp h
    exact ⟨raw, hraw, arrayInvariant_iff hparse⟩
  · intro offset tree next h
    obtain ⟨⟨raw, after⟩, hraw, hlift⟩ := Py.bind_eq_ok.mp h
    obtain ⟨_, hparse, hpure⟩ := Py.bind_eq_ok.mp hlift
    cases hpure
    exact ⟨raw, hraw, arrayInvariant_iff hparse⟩

end RatchetTree

namespace Sample

/-- A leaf, a parent node and a blank leaf, written and read. -/
def threeEntries : Py (Bytes × RatchetTree × Bytes) := do
  let data ← RatchetTree.toBytes ⟨2, [some (.leaf plainLeaf), some (.parent ⟨[6], [7], [1]⟩), none]⟩
  let tree ← RatchetTree.fromBytes data
  let raw ← readOpaque.run data
  expect (tree.numLeaves = 2 ∧
    tree.nodes.map (Option.map RatchetTree.nodeType) = [some 1, some 2, none])
  pure (data, tree, raw)

theorem threeEntries_ok : ∃ r, threeEntries = .ok r := Py.ok_of_isOk (by decide +kernel)

end Sample

namespace RatchetTree

open Sample in
theorem parsed_layout_three :
    ∃ data tree raw, fromBytes data = .ok tree ∧
      tree.nodes.map (Option.map nodeType) = [some 1, some 2, none] ∧
        readOpaque.run data = .ok raw ∧
      (ArrayInvariant raw tree ↔ Aligned raw) := by
  obtain ⟨_, hrun⟩ := threeEntries_ok
  simp only [threeEntries, expect, Py.bind_eq_ok, Py.require_eq_ok] at hrun
  obtain ⟨data, -, tree, htree, _, -, _, ⟨-, hkinds⟩, -⟩ := hrun
  obtain ⟨raw, hraw, hiff⟩ := (parsed_layout_iff data).1 tree htree
  exact ⟨data, tree, raw, htree, hkinds, hraw, hiff⟩

/-- Two blank entries are one leaf slot, but both stay in the array. -/
theorem parsed_two_blanks :
    ¬ ∀ data tree raw, fromBytes data = .ok tree → readOpaque.run data = .ok raw →
      ArrayInvariant raw tree := by
  intro h
  have hinv := h [0x02, 0x00, 0x00] ⟨1, [none, none]⟩ [0x00, 0x00] rfl rfl
  exact absurd hinv.size (by decide)

end RatchetTree

end PureMls
