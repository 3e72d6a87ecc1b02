import PureMls.Verification.Refusals

/-! # process_update comes to an end

Nothing in it can run for ever but the walks over the received tree, and it gets to these only after
other checks. -/

namespace PureMls

open RatchetTree MLSGroup

variable {C : Crypto}

/-! ## Encoders and loops -/

theorem Encodes.ends {x : Py Bytes} (h : Encodes x) : x.Ends := by
  refine h.mono fun e he => ?_
  cases he <;> exact nofun

theorem OpenFault.ne_hang {e : Fault} (h : OpenFault e) : e ≠ .hang := by
  cases h <;> exact nofun

namespace MLSGroup

variable {self : MLSGroup} {update : GroupUpdate}

/-- Whatever is wrong with a signature, it is verified or refused. -/
theorem verifySignature_ends (leaf : LeafNode) (groupId : Bytes) (leafIndex : ℕ) :
    (leaf.verifySignature C groupId leafIndex).Ends := by
  have htbs : (leaf.tbsBytes groupId leafIndex).Ends :=
    (leaf.encodes_tbsBytes groupId leafIndex).ends
  refine (Py.FailsWith.require nofun).bind fun _ => ?_
  refine ((Py.FailsWith.require nofun).bind fun _ => .ok _).bind fun key => ?_
  exact htbs.bind fun _ => Py.FailsWith.require nofun

theorem forM_ends {f : ℕ → Py Unit} (h : ∀ i, (f i).Ends) (is : List ℕ) : (is.forM f).Ends := by
  induction is with
  | nil => exact .ok _
  | cons i is ih => exact (h i).bind fun _ => ih

theorem verifyLeaves_ends (groupId : Bytes) (tree : RatchetTree) :
    (verifyLeaves C groupId tree).Ends := by
  refine forM_ends (fun l => ?_) _
  cases tree.getLeaf (2 * l) with
  | some leaf => exact verifySignature_ends leaf groupId l
  | none => exact .ok _

/-! ## Before the opening -/

/-- The receiver gets to the walks over the received tree: the checks before them pass, and the
commit has a path. -/
structure ReachesWalks (C : Crypto) (receiver : MLSGroup) (update : GroupUpdate) : Prop where
  checked : (receiver.checkUpdate update).Returns
  leaves : verifyLeaves C receiver.state.groupId update.tree = .ok ()
  reference : (ownReference C receiver update).Returns
  path : ∃ path, update.updatePath = some path ∧ path.nodes ≠ []

theorem addressed_ends_iff (hself : Reached C self) (hwire : update.tree.OnWire)
    (hpacks : update.Packs) :
    (addressed C self update).Ends ↔ ((ownReference C self update).Returns → WalksEnd update) := by
  constructor
  · rintro hends ⟨own, hown⟩
    by_contra hwalks
    rw [addressed_eq, hown, Py.ok_bind, addressedByPath_hang hwire hpacks hwalks,
      Py.error_bind] at hends
    exact hends .hang rfl rfl
  · exact fun h => ((addressed_graceful_iff hself hwire hpacks).mpr h).ends

theorem beforeOpening_ends_iff (hself : Reached C self) (hwire : update.tree.OnWire)
    (hpacks : update.Packs) : (beforeOpening C self update).Ends ↔ (ReachesWalks C self update →
      update.tree.numLeaves ≤ 1 ∨ update.committerIndex < update.tree.numLeaves) := by
  have haddressed : ∀ committer : LeafNode, (addressed C self update >>= fun sealedSecret =>
      pure (committer, sealedSecret)).Ends ↔
        ((ownReference C self update).Returns → WalksEnd update) :=
    fun _ => (Py.ends_bind_iff.trans (and_iff_left fun _ _ => .ok _)).trans
      (addressed_ends_iff hself hwire hpacks)
  rw [beforeOpening, Py.ends_bind_iff, and_iff_right checkUpdate_graceful.ends]
  simp only [Py.ends_bind_iff (x := verifyLeaves C self.state.groupId update.tree),
    and_iff_right (verifyLeaves_ends self.state.groupId update.tree), haddressed]
  constructor
  · rintro h ⟨⟨committer, hcommitter⟩, hleaves, hreference, path, hpath, hnodes⟩
    exact h committer hcommitter () hleaves hreference path hpath hnodes
  · rintro h committer hcommitter _ hleaves hreference path hpath hnodes
    exact h ⟨⟨committer, hcommitter⟩, hleaves, hreference, path, hpath, hnodes⟩

/-! ## After the opening -/

theorem authenticate_ends (hself : Reached C self) (committer : LeafNode) :
    (authenticate C self update committer).Ends := by
  obtain ⟨hash, hhash⟩ := hself.hashed.treeHash
  refine (update.encodes_bodyBytes.ends.bind fun _ => .ok _).bind fun framed =>
    framed.encodes_toBytes.ends.bind fun framedBytes => Py.FailsWith.bind ?_ fun tbs => .ok _
  refine Py.FailsWith.rethrow (P := (· ≠ .hang)) ?_ fun e he hfault => ?_
  · rw [makeGroupContext, hhash, Py.ok_bind]
    refine ((Py.FailsWith.require (by simp)).bind fun _ => .ok _).bind fun key => ?_
    exact (encodes_framedContentTbs _ framed).ends.bind fun tbs =>
      (Py.FailsWith.require (by simp)).bind fun _ => .ok _
  · -- the signature check reports other exceptions by other names
    cases e with
    | hang => exact he rfl
    | _ => cases hfault

theorem afterOpening_ends (hself : Reached C self) (hwire : update.tree.OnWire)
    (hpacks : update.Packs) (committer : LeafNode) (commitSecret : Bytes) :
    (afterOpening C self update committer commitSecret).Ends :=
  (authenticate_ends hself committer).bind fun checked =>
    (afterAuthentication_graceful hwire hpacks commitSecret checked).ends

end MLSGroup

/-! ## The whole call -/

/-- `process_update` of a decoded commit returns or raises, unless it gets to the walks over the
received tree with a committer beyond the leaves of that tree: then it never ends. -/
theorem process_update_ends_iff (hC : C.Correct) (htag : C.DecryptFailsWithTag)
    {receiver : MLSGroup} (hreceiver : Reached C receiver) {update : GroupUpdate}
    (h : update.Decoded) :
    (receiver.processUpdate C update).2 ≠ .error .hang ↔ (ReachesWalks C receiver update →
      update.tree.numLeaves ≤ 1 ∨ update.committerIndex < update.tree.numLeaves) := by
  rw [← Py.ends_iff, processUpdate_snd, processUpdateBody_eq, Py.ends_bind_iff,
    beforeOpening_ends_iff hreceiver h.onWire h.packs]
  refine and_iff_left fun found _ => Py.FailsWith.bind ?_ fun commitSecret =>
    afterOpening_ends hreceiver h.onWire h.packs found.1 commitSecret
  refine (found.2.openWith_failsWith hC htag receiver.myKemKey).mono
    (fun _ => OpenFault.ne_hang) |>.bind
    fun pathSecret => ?_
  obtain ⟨last, hlast⟩ := advancePathSecret_ok C found.2.steps pathSecret
  rw [hlast]
  exact .ok _

namespace Sample

/-- Alice, in a group of three, receives the commit whose tree has two leaves. -/
def cornered : Py (MLSGroup × GroupUpdate) := do
  let alice ← trio
  let update ← smallTreeUpdate
  expect (alice.state.groupId = ascii "g" ∧ update.tree.numLeaves = 2 ∧ update.committerIndex = 2)
  expectFault (alice.processUpdate crypto update).2 .hang
  pure (alice, update)

theorem cornered_ok : ∃ r, cornered = .ok r := Py.ok_of_isOk (by decide +kernel)

theorem smallTreeUpdate_decoded {update : GroupUpdate} (h : smallTreeUpdate = .ok update) :
    update.Decoded := by
  simp only [smallTreeUpdate, Py.bind_eq_ok, Py.pure_eq, Except.ok.injEq] at h
  obtain ⟨_, -, data, -, body, hbody, rfl⟩ := h
  exact ⟨data, body, hbody, rfl⟩

end Sample

open Sample in
/-- The commit with the small tree gets Alice to the walks, and she never comes back; sent under
another group id it is refused before them. -/
theorem process_update_ends_small_tree :
    ∃ alice update, ReachesWalks crypto alice update ∧
      ¬ (update.tree.numLeaves ≤ 1 ∨ update.committerIndex < update.tree.numLeaves) ∧
      (alice.processUpdate crypto { update with groupId := ascii "other" }).2 ≠ .error .hang := by
  obtain ⟨r, hrun⟩ := cornered_ok
  simp only [cornered, expectFault, expect, Py.bind_eq_ok, Py.require_eq_ok] at hrun
  obtain ⟨alice, htrio, update, hsmall, _, ⟨hgroup, hleaves, hcommitter⟩, _, hhang, -⟩ := hrun
  have hreached := trio_reached htrio
  have hdecoded := smallTreeUpdate_decoded hsmall
  have hforeign : { update with groupId := ascii "other" }.Decoded := by
    obtain ⟨data, body, hbody, heq⟩ := hdecoded
    exact ⟨data, body, hbody, by rw [heq]⟩
  have houtside :
    ¬ (update.tree.numLeaves ≤ 1 ∨ update.committerIndex < update.tree.numLeaves) := by
    rw [hleaves, hcommitter]
    decide
  refine ⟨alice, update, ?_, houtside,
    (process_update_ends_iff correct decryptFailsWithTag hreached hforeign).mpr fun hreaches => ?_⟩
  · by_contra hnot
    exact (process_update_ends_iff correct decryptFailsWithTag hreached hdecoded).mpr
      (fun hreaches => absurd hreaches hnot) (Py.fault?_eq_some.mp hhang)
  · obtain ⟨committer, hcheck⟩ := hreaches.checked
    simp only [checkUpdate, Py.bind_eq_ok, Py.require_eq_ok, hgroup] at hcheck
    exact absurd hcheck.choose_spec.1 (by decide)

/-- Alice, in a group of three, receives that commit and her `process_update` never returns. -/
theorem process_update_never_returns :
    ∃ receiver data update, Reachable Sample.crypto receiver ∧
      GroupUpdate.fromBytes data = .ok update ∧
      (receiver.processUpdate Sample.crypto { update with groupId := ascii "g" }).2 =
        .error .hang := by
  obtain ⟨r, hrun⟩ := Sample.run_ok
  simp only [Sample.run, Sample.smallTreeUpdate, Sample.expectFault, Sample.expect, Py.bind_eq_ok,
    Py.pure_eq, Except.ok.injEq, Py.require_eq_ok] at hrun
  obtain ⟨kp, -, _, -, alice, hcreate, ⟨added, welcome, _⟩, hadd, bob, -, ⟨_, _, update⟩, -,
    receiver, hprocess, _, -, ⟨_, _⟩, -, _, -, ⟨_, _⟩, -, _, ⟨_, -, data, -, small, hsmall, rfl⟩, _,
    -, _, hhang, -⟩ := hrun
  have hfirst : Transition.run Sample.crypto alice (.addMember (Sample.coins 40) kp) = .ok added :=
    Py.map_eq_ok.mpr ⟨_, hadd, rfl⟩
  have hsecond : Transition.run Sample.crypto added (.processUpdate update) = .ok receiver :=
    hprocess
  exact ⟨receiver, data, small, .next (.next (.create hcreate) hfirst) hsecond, hsmall,
    Py.fault?_eq_some.mp hhang⟩

end PureMls
