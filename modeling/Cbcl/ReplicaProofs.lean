import Cbcl.RelayModel
import Cbcl.ExceptProofs
import Cbcl.WorklistProofs

/-!
# What a step of a replica can do

`Admits` says once what an event that changes a replica has been checked for and what it changes.
Every public operation commits events one after the other, so invariants need no more than this.
-/

namespace CbclQuorum

open CbclMessage CbclAct CbclTreeMap CbclExcept CbclStateShape
open CbclEscrow (Ownership Kind operationKeys checked DEPS)
open CbclDialectParser (NONCE)

-- ── Fallible checks ────

@[simp] theorem ensure_ok_iff {p : Prop} [Decidable p] {reason : String} {u : Unit} :
    ensure p reason = .ok u ↔ p := by
  unfold ensure
  by_cases h : p
  · simp [h]
  · simp [h]

@[simp] theorem orError_ok_iff {α : Type} {reason : String} {x : Option α} {a : α} :
    orError reason x = .ok a ↔ x = some a := by
  cases x with
  | none => simp [orError]
  | some b => simp [orError]

-- ── What an event is checked for ────

/-- What `prepareOwned` checks of a request in either role. -/
structure OwnedChecks (auth : Authentication) (r : Replica) (request : OwnedSealRequest) : Prop where
  owned : r.checkOwned auth request = .ok ()
  root : ∀ root, r.ownedRoot request.version.manifest.account = some root →
    root = r.context.versionId request.version.manifest
  owned_room : r.context.versionId request.version.manifest ∈ r.state.owned ∨
    r.state.owned.size < r.limits.versions
  version_room : r.context.versionId request.version.manifest ∈ r.state.versions ∨
    r.state.versions.size < r.limits.versions

/-- What reading an act's operation establishes. -/
structure ReadsAs (c : Context) (a : Act) (epoch : String) (m : VersionManifest) (op : Operation) :
    Prop where
  act : op.act = a
  epoch : op.epoch = epoch
  signer : c.account a.signer = .ok op.account
  account : m.account = op.account
  deps : a.fields[DEPS]? = some (dependenciesExpr m)
  nonce : isNonce a.fields[NONCE]? = true
  amounts : ∃ (kind : Kind) (key : String) (recipient : Option String) (n : Int) (payee : String),
    operationKeys c.rule a.verb = some (kind, key, recipient) ∧ amountOf a.fields[key]? = .ok n ∧
      recipientOf c a op.account recipient = .ok payee ∧
      op.cost = costOf c.rule.ceiling.isSome n kind ∧
      op.credits = (∅ : BTreeMap String Resources).insert payee
        (creditOf c.rule.ceiling.isSome n kind)

/-- Every operation of an account this replica has signed is held by a version. -/
def HoldsSigned (r : Replica) (m : VersionManifest) : Prop :=
  ∀ id ∈ r.state.signed, ∃ op, r.state.operations[id]? = some op ∧
    (op.account = m.account → id ∈ m.held)

/-- The events that change a replica, with everything they were checked for. -/
inductive Admits (auth : Authentication) (r : Replica) : Event → Update → Prop where
  | proposal {request : OwnedSealRequest} (checks : OwnedChecks auth r request)
      (fresh : r.context.versionId request.version.manifest ∉ r.state.owned) :
      Admits auth r (.ownedProposal request)
        (.owned (r.context.versionId request.version.manifest) request false)
  | sealed {request : OwnedSealRequest} (checks : OwnedChecks auth r request)
      (unsealed : r.state.sealed[request.version.manifest.account]? = none)
      {current : String}
      (active : r.state.active[request.version.manifest.account]? = some current)
      (parent : current ∈ request.version.manifest.parents)
      (held : HoldsSigned r request.version.manifest) :
      Admits auth r (.sealOwned request)
        (.owned (r.context.versionId request.version.manifest) request true)
  | version {v : DagVersion} (check : r.checkVersion auth v = .ok ())
      (fresh : r.context.versionId v.manifest ∉ r.state.versions)
      (room : r.state.versions.size < r.limits.versions) :
      Admits auth r (.version v) (.version (r.context.versionId v.manifest) v)
  | adopt {id : String} {v : DagVersion} (known : r.state.versions[id]? = some v)
      {current : String} (active : r.state.active[v.manifest.account]? = some current)
      (moves : current ≠ id) (continues : r.checkContinuation id v.manifest = .ok ())
      (parent : current ∈ v.manifest.parents) (held : HoldsSigned r v.manifest) :
      Admits auth r (.adoptVersion id) (.adopt v.manifest.account id)
  | candidate {a : Act} {op : Operation} (read : r.operation a = .ok op)
      (authentic : auth.authenticateAct a = true)
      (fresh : r.state.operations[a.address]? = none)
      (room : r.state.operations.size < r.limits.operations) :
      Admits auth r (.candidate a) (.candidate a.address op)
  | certificate {c : Certificate}
      (kind : c.kind = .operation ∨ c.kind = .effects ∨ c.kind = .cancel ∨ c.kind = .ownedSeal)
      (subject : r.checkSubject c = .ok ())
      (verified : r.verifyCertificate auth c c.kind c.payload = .ok ())
      (exclusion : r.checkExclusion c = .ok ())
      (fresh : r.has c.kind c.payload = false) :
      Admits auth r (.certificate c) (.certificate c.kind c.payload c)
  | sign {id : String} {op : Operation} {charge : Resources} (fresh : id ∉ r.state.signed)
      (known : r.state.operations[id]? = some op) (budget : r.budgetOp id op = .ok charge) :
      Admits auth r (.sign id) (.sign id op.epoch charge)
  | effect {id : String} {op : Operation} (fresh : id ∉ r.state.effects)
      (known : r.state.operations[id]? = some op) (unfenced : id ∉ r.state.fences)
      (certified : r.has .operation id = true) :
      Admits auth r (.effect id) (.effect id)
  | fence {v : Vote} {op : Operation} (fresh : v.payload ∉ r.state.fences)
      (known : r.state.operations[v.payload]? = some op)
      (concurrent : r.ownerEpochIsOwned op.account op.epoch = .ok false)
      (verified : r.verifyVote auth v .cancelRequest v.payload op.act.signer = .ok ())
      (unsigned : v.payload ∉ r.state.effects) :
      Admits auth r (.fence v) (.fence v.payload)
  | release {id : String} {op : Operation} {charge : Resources} (fresh : id ∉ r.state.released)
      (signed : id ∈ r.state.signed) (cancelled : r.has .cancel id = true)
      (known : r.state.operations[id]? = some op)
      (concurrent : r.ownerEpochIsOwned op.account op.epoch = .ok false)
      (charged : (r.chargeOf op.epoch).sub op.cost = .ok charge)
      (nonnegative : charge.nonnegative = true) :
      Admits auth r (.release id) (.release id op.epoch charge)

section Admission

variable {auth : Authentication} {r : Replica} {u : Update}

@[simp] theorem op_ok_iff {id : String} {op : Operation} :
    r.op id = .ok op ↔ r.state.operations[id]? = some op := by
  unfold Replica.op
  exact orError_ok_iff

@[simp] theorem epoch_ok_iff {id : String} {m : VersionManifest} :
    r.epoch id = .ok m ↔ r.manifest? id = some m := by
  unfold Replica.epoch
  exact orError_ok_iff

/-- Reading an operation, taken apart. -/
theorem readsAs_of_readOperation {c : Context} {a : Act} {epoch : String} {m : VersionManifest}
    {op : Operation} (h : c.readOperation a epoch m = .ok op) : ReadsAs c a epoch m op := by
  unfold Context.readOperation at h
  obtain ⟨account, haccount, h⟩ := bind_ok_iff.mp h
  obtain ⟨⟨⟩, hsame, h⟩ := bind_ok_iff.mp h
  obtain ⟨⟨⟩, hdeps, h⟩ := bind_ok_iff.mp h
  obtain ⟨⟨⟩, hnonce, h⟩ := bind_ok_iff.mp h
  obtain ⟨⟨kind, key, recipient⟩, hkeys, h⟩ := bind_ok_iff.mp h
  obtain ⟨n, hn, h⟩ := bind_ok_iff.mp h
  obtain ⟨payee, hpayee, h⟩ := bind_ok_iff.mp h
  obtain ⟨⟨⟩, -, h⟩ := bind_ok_iff.mp h
  obtain ⟨⟨⟩, -, h⟩ := bind_ok_iff.mp h
  obtain ⟨⟨⟩, -, h⟩ := bind_ok_iff.mp h
  injection h with h
  subst h
  exact {
    act := rfl
    epoch := rfl
    signer := haccount
    account := ensure_ok_iff.mp hsame
    deps := ensure_ok_iff.mp hdeps
    nonce := ensure_ok_iff.mp hnonce
    amounts := ⟨kind, key, recipient, n, payee, orError_ok_iff.mp hkeys, hn, hpayee, rfl, rfl⟩ }

/-- What the operation of an act establishes. -/
structure OperationOk (r : Replica) (a : Act) (op : Operation) : Prop where
  bounded : boundedMessage a.message r.limits.object_bytes = .ok ()
  structural : r.context.structural a = .ok ()
  source : sourceEpoch a = .ok op.epoch
  reads : ∃ m, r.manifest? op.epoch = some m ∧ r.context.readOperation a op.epoch m = .ok op

theorem operationOk_of_operation {a : Act} {op : Operation} (h : r.operation a = .ok op) :
    OperationOk r a op := by
  unfold Replica.operation at h
  obtain ⟨⟨⟩, hbound, h⟩ := bind_ok_iff.mp h
  obtain ⟨⟨⟩, hstructural, h⟩ := bind_ok_iff.mp h
  obtain ⟨⟨⟩, -, h⟩ := bind_ok_iff.mp h
  obtain ⟨epoch, hsource, h⟩ := bind_ok_iff.mp h
  obtain ⟨m, hm, h⟩ := bind_ok_iff.mp h
  have hepoch := (readsAs_of_readOperation h).epoch
  rw [← hepoch] at hsource hm h
  exact ⟨hbound, hstructural, hsource, m, epoch_ok_iff.mp hm, h⟩

theorem holdsSigned_ok {m : VersionManifest} {reason : String}
    (h : r.holdsSigned m reason = .ok ()) : HoldsSigned r m := by
  intro id hid
  unfold Replica.holdsSigned at h
  have hid' : id ∈ r.state.signed.toList := Std.ExtTreeSet.mem_toList.mpr hid
  obtain ⟨op, hop, hheld⟩ := bind_ok_iff.mp (forM_ok_iff.mp h id hid')
  exact ⟨op, op_ok_iff.mp hop, ensure_ok_iff.mp hheld⟩

theorem admits_of_prepareOwned {request : OwnedSealRequest} {permanent : Bool}
    (h : r.prepareOwned auth request permanent = .ok (some u)) :
    Admits auth r (if permanent then .sealOwned request else .ownedProposal request) u := by
  unfold Replica.prepareOwned at h
  obtain ⟨⟨⟩, hcheck, h⟩ := bind_ok_iff.mp h
  obtain ⟨⟨⟩, hroot, h⟩ := bind_ok_iff.mp h
  have hroot' : ∀ root, r.ownedRoot request.version.manifest.account = some root →
      root = r.context.versionId request.version.manifest := by
    intro root hr
    exact ensure_ok_iff.mp hroot root hr
  cases permanent with
  | true =>
      simp only [if_true] at h ⊢
      split at h
      · split at h
        · exact nomatch h
        · exact nomatch h
      · rename_i hsealed
        obtain ⟨current, hcurrent, h⟩ := bind_ok_iff.mp h
        obtain ⟨⟨⟩, hparent, h⟩ := bind_ok_iff.mp h
        obtain ⟨⟨⟩, hheld, h⟩ := bind_ok_iff.mp h
        obtain ⟨⟨⟩, hor, h⟩ := bind_ok_iff.mp h
        obtain ⟨⟨⟩, hvr, h⟩ := bind_ok_iff.mp h
        injection h with h
        injection h with h
        subst h
        exact .sealed ⟨hcheck, hroot', ensure_ok_iff.mp hor, ensure_ok_iff.mp hvr⟩ hsealed
          (orError_ok_iff.mp hcurrent) (ensure_ok_iff.mp hparent) (holdsSigned_ok hheld)
  | false =>
      simp only [Bool.false_eq_true, if_false] at h ⊢
      split at h
      · exact nomatch h
      · rename_i hfresh
        obtain ⟨⟨⟩, hor, h⟩ := bind_ok_iff.mp h
        obtain ⟨⟨⟩, hvr, h⟩ := bind_ok_iff.mp h
        injection h with h
        injection h with h
        subst h
        exact .proposal ⟨hcheck, hroot', ensure_ok_iff.mp hor, ensure_ok_iff.mp hvr⟩ hfresh

theorem admits_of_prepareVersion {v : DagVersion}
    (h : r.prepareVersion auth v = .ok (some u)) : Admits auth r (.version v) u := by
  unfold Replica.prepareVersion at h
  obtain ⟨⟨⟩, hcheck, h⟩ := bind_ok_iff.mp h
  dsimp only at h
  split at h
  · exact nomatch h
  · rename_i hfresh
    obtain ⟨⟨⟩, hroom, h⟩ := bind_ok_iff.mp h
    injection h with h
    injection h with h
    subst h
    exact .version hcheck hfresh (ensure_ok_iff.mp hroom)

theorem admits_of_prepareAdopt {id : String}
    (h : r.prepareAdopt id = .ok (some u)) : Admits auth r (.adoptVersion id) u := by
  unfold Replica.prepareAdopt at h
  obtain ⟨v, hv, h⟩ := bind_ok_iff.mp h
  obtain ⟨current, hcurrent, h⟩ := bind_ok_iff.mp h
  split at h
  · exact nomatch h
  · rename_i hmoves
    obtain ⟨⟨⟩, hcont, h⟩ := bind_ok_iff.mp h
    obtain ⟨⟨⟩, hparent, h⟩ := bind_ok_iff.mp h
    obtain ⟨⟨⟩, hheld, h⟩ := bind_ok_iff.mp h
    injection h with h
    injection h with h
    subst h
    exact .adopt (orError_ok_iff.mp hv) (orError_ok_iff.mp hcurrent) hmoves hcont
      (ensure_ok_iff.mp hparent) (holdsSigned_ok hheld)

theorem admits_of_prepareCandidate {a : Act}
    (h : r.prepareCandidate auth a = .ok (some u)) : Admits auth r (.candidate a) u := by
  unfold Replica.prepareCandidate at h
  obtain ⟨op, hop, h⟩ := bind_ok_iff.mp h
  obtain ⟨⟨⟩, hauth, h⟩ := bind_ok_iff.mp h
  split at h
  · split at h
    · exact nomatch h
    · exact nomatch h
  · rename_i hfresh
    obtain ⟨⟨⟩, hroom, h⟩ := bind_ok_iff.mp h
    injection h with h
    injection h with h
    subst h
    exact .candidate hop (ensure_ok_iff.mp hauth) hfresh (ensure_ok_iff.mp hroom)

theorem admits_of_prepareCertificate {c : Certificate}
    (h : r.prepareCertificate auth c = .ok (some u)) : Admits auth r (.certificate c) u := by
  unfold Replica.prepareCertificate at h
  obtain ⟨⟨⟩, hkind, h⟩ := bind_ok_iff.mp h
  obtain ⟨⟨⟩, hsubject, h⟩ := bind_ok_iff.mp h
  obtain ⟨⟨⟩, hverified, h⟩ := bind_ok_iff.mp h
  obtain ⟨⟨⟩, hexclusion, h⟩ := bind_ok_iff.mp h
  split at h
  · exact nomatch h
  · rename_i hfresh
    injection h with h
    injection h with h
    subst h
    exact .certificate (ensure_ok_iff.mp hkind) hsubject hverified hexclusion
      (Bool.eq_false_iff.mpr hfresh)

theorem admits_of_prepareSign {id : String}
    (h : r.prepareSign id = .ok (some u)) : Admits auth r (.sign id) u := by
  unfold Replica.prepareSign at h
  split at h
  · exact nomatch h
  · rename_i hfresh
    obtain ⟨charge, hcharge, h⟩ := bind_ok_iff.mp h
    obtain ⟨op, hop, h⟩ := bind_ok_iff.mp h
    injection h with h
    injection h with h
    subst h
    unfold Replica.budget at hcharge
    obtain ⟨op', hop', hcharge⟩ := bind_ok_iff.mp hcharge
    rw [hop] at hop'
    injection hop' with hop'
    subst hop'
    exact .sign hfresh (op_ok_iff.mp hop) hcharge

theorem admits_of_prepareEffect {id : String}
    (h : r.prepareEffect id = .ok (some u)) : Admits auth r (.effect id) u := by
  unfold Replica.prepareEffect at h
  split at h
  · exact nomatch h
  · rename_i hfresh
    obtain ⟨op, hop, h⟩ := bind_ok_iff.mp h
    obtain ⟨⟨⟩, hguard, h⟩ := bind_ok_iff.mp h
    injection h with h
    injection h with h
    subst h
    obtain ⟨hfence, hcert⟩ := ensure_ok_iff.mp hguard
    exact .effect hfresh (op_ok_iff.mp hop) hfence hcert

theorem admits_of_prepareFence {v : Vote}
    (h : r.prepareFence auth v = .ok (some u)) : Admits auth r (.fence v) u := by
  unfold Replica.prepareFence at h
  obtain ⟨op, hop, h⟩ := bind_ok_iff.mp h
  obtain ⟨owned, howned, h⟩ := bind_ok_iff.mp h
  obtain ⟨⟨⟩, hnot, h⟩ := bind_ok_iff.mp h
  obtain ⟨⟨⟩, hvote, h⟩ := bind_ok_iff.mp h
  obtain ⟨⟨⟩, heffects, h⟩ := bind_ok_iff.mp h
  split at h
  · exact nomatch h
  · rename_i hfresh
    injection h with h
    injection h with h
    subst h
    rw [ensure_ok_iff.mp hnot] at howned
    exact .fence hfresh (op_ok_iff.mp hop) howned hvote (ensure_ok_iff.mp heffects)

theorem admits_of_prepareRelease {id : String}
    (h : r.prepareRelease id = .ok (some u)) : Admits auth r (.release id) u := by
  unfold Replica.prepareRelease at h
  obtain ⟨⟨⟩, hguard, h⟩ := bind_ok_iff.mp h
  obtain ⟨hsigned, hcancel⟩ := ensure_ok_iff.mp hguard
  split at h
  · exact nomatch h
  · rename_i hfresh
    obtain ⟨op, hop, h⟩ := bind_ok_iff.mp h
    obtain ⟨owned, howned, h⟩ := bind_ok_iff.mp h
    obtain ⟨⟨⟩, hnot, h⟩ := bind_ok_iff.mp h
    obtain ⟨charge, hcharge, h⟩ := bind_ok_iff.mp h
    obtain ⟨⟨⟩, hnonneg, h⟩ := bind_ok_iff.mp h
    injection h with h
    injection h with h
    subst h
    rw [ensure_ok_iff.mp hnot] at howned
    exact .release hfresh hsigned hcancel (op_ok_iff.mp hop) howned hcharge
      (ensure_ok_iff.mp hnonneg)

/-- A kind of certificate is there exactly when its lookup is. -/
theorem has_iff {kind : VoteKind} {id : String} :
    r.has kind id = true ↔ ∃ c, r.certificate kind id = some c := by
  unfold Replica.has Replica.certificate
  rw [Std.ExtTreeMap.contains_iff_mem, ← Std.ExtTreeMap.isSome_getElem?_iff_mem,
    Option.isSome_iff_exists]

/-- **What a step can do**: an event that changes a replica is admitted. -/
theorem admits_of_prepare {event : Event} (h : r.prepare auth event = .ok (some u)) :
    Admits auth r event u := by
  cases event with
  | initialized => exact nomatch h
  | candidate a => exact admits_of_prepareCandidate h
  | certificate c => exact admits_of_prepareCertificate h
  | sign id => exact admits_of_prepareSign h
  | effect id => exact admits_of_prepareEffect h
  | fence v => exact admits_of_prepareFence h
  | release id => exact admits_of_prepareRelease h
  | version v => exact admits_of_prepareVersion h
  | adoptVersion id => exact admits_of_prepareAdopt h
  | ownedProposal request => exact admits_of_prepareOwned h
  | sealOwned request => exact admits_of_prepareOwned h

end Admission

end CbclQuorum
