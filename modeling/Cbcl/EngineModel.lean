import Cbcl.ReplicaModel

/-!
# Events, journals and the operations of a replica

`prepare` checks an event and `applyUpdate` performs it; `commit` writes the event to the journal in
between (`quorum/engine.rs`).  The journal is a host service: it holds one nonforking log, appends
at the expected length only, and may refuse, in which case nothing was written.
-/

namespace CbclQuorum

open CbclMessage CbclAct CbclTreeMap
open CbclEscrow (Ownership checked)

-- ── Checking and performing an event ────

namespace Replica

variable (r : Replica)

/-- Every operation of an account this replica has signed is held by a version. -/
def holdsSigned (m : VersionManifest) (reason : String) : Except String Unit :=
  r.state.signed.toList.forM fun id => do
    let op ← r.op id
    ensure (op.account = m.account → id ∈ m.held) reason

/-- Check a seal request, as a proposal or as this replica's own permanent seal. -/
def prepareOwned (auth : Authentication) (request : OwnedSealRequest) (permanent : Bool) :
    Except String (Option Update) := do
  r.checkOwned auth request
  let m := request.version.manifest
  let id := r.context.versionId m
  ensure (∀ root ∈ r.ownedRoot m.account, root = id) "conflicting certified owned root"
  let room : Except String (Option Update) := do
    ensure (id ∈ r.state.owned ∨ r.state.owned.size < r.limits.versions)
      "owned proposal limit reached"
    ensure (id ∈ r.state.versions ∨ r.state.versions.size < r.limits.versions)
      "version limit reached; evidence retained"
    return some (.owned id request permanent)
  if permanent then
    match r.state.sealed[m.account]? with
    | some old =>
        if old = id then return none
        else .error "account permanently sealed to another root"
    | none => do
        let current ← orError "unknown account" r.state.active[m.account]?
        ensure (current ∈ m.parents) "seal must follow active parent"
        r.holdsSigned m "seal omits historical signature"
        room
  else if id ∈ r.state.owned then return none
  else room

/-- Check a version. -/
def prepareVersion (auth : Authentication) (v : DagVersion) : Except String (Option Update) := do
  r.checkVersion auth v
  let id := r.context.versionId v.manifest
  if id ∈ r.state.versions then return none
  else do
    ensure (r.state.versions.size < r.limits.versions) "version limit reached; evidence retained"
    return some (.version id v)

/-- Whether an account may move to a version, given its certified owned root. -/
def checkContinuation (id : String) (m : VersionManifest) : Except String Unit :=
  match r.ownedRoot m.account with
  | some root => do
      let below ← r.descends id root
      let above ← if below then .ok true else r.descends root id
      ensure (above = true) "adoption outside certified owned ancestry"
  | none =>
      ensure (¬ (m.phase = .owned ∨ m.account ∈ r.state.sealed))
        "owned account awaits seal certificate"

/-- Check the adoption of a version. -/
def prepareAdopt (id : String) : Except String (Option Update) := do
  let v ← orError "unknown DAG version" r.state.versions[id]?
  let m := v.manifest
  let current ← orError "unknown pool" r.state.active[m.account]?
  if current = id then return none
  else do
    r.checkContinuation id m
    ensure (current ∈ m.parents) "adoption must follow a direct active parent"
    r.holdsSigned m "DAG version omits historical signature"
    return some (.adopt m.account id)

/-- Check an act. -/
def prepareCandidate (auth : Authentication) (a : Act) : Except String (Option Update) := do
  let op ← r.operation a
  ensure (auth.authenticateAct a = true) "owner signature or protocol admission failed"
  match r.state.operations[a.address]? with
  | some old => if old = op then return none else .error "conflicting act identity"
  | none => do
      ensure (r.state.operations.size < r.limits.operations)
        "operation limit reached; evidence retained"
      return some (.candidate a.address op)

/-- What a certificate is about is known, and conflicts with nothing certified. -/
def checkSubject (c : Certificate) : Except String Unit :=
  if c.kind = .ownedSeal then do
    let request ← orError "unknown owned proposal" r.state.owned[c.payload]?
    let account := request.version.manifest.account
    ensure (∀ root ∈ r.ownedRoot account, root = c.payload) "conflicting certified owned root"
    ensure (∀ root ∈ r.state.sealed[account]?, root = c.payload)
      "certificate conflicts with permanent local seal"
  else do
    let _ ← r.op c.payload
    return ()

/-- Effects and cancellation exclude each other; effects need the operation certificate. -/
def checkExclusion (c : Certificate) : Except String Unit := do
  ensure (c.kind = .effects → r.has .operation c.payload) "effects require operation certificate"
  ensure (c.kind = .effects → ¬ r.has .cancel c.payload)
    "conflicting genuine effects and cancellation certificates"
  ensure (c.kind = .cancel → ¬ r.has .effects c.payload)
    "conflicting genuine cancellation and effects certificates"

/-- Check a certificate. -/
def prepareCertificate (auth : Authentication) (c : Certificate) :
    Except String (Option Update) := do
  ensure (c.kind = .operation ∨ c.kind = .effects ∨ c.kind = .cancel ∨ c.kind = .ownedSeal)
    "unexpected certificate type"
  r.checkSubject c
  r.verifyCertificate auth c c.kind c.payload
  r.checkExclusion c
  if r.has c.kind c.payload then return none else return some (.certificate c.kind c.payload c)

/-- Check a signature of this replica. -/
def prepareSign (id : String) : Except String (Option Update) :=
  if id ∈ r.state.signed then return none
  else do
    let charge ← r.budget id
    let op ← r.op id
    return some (.sign id op.epoch charge)

/-- Check an effects vote of this replica. -/
def prepareEffect (id : String) : Except String (Option Update) :=
  if id ∈ r.state.effects then return none
  else do
    let _ ← r.op id
    ensure (id ∉ r.state.fences ∧ r.has .operation id)
      "effects fenced or missing operation certificate"
    return some (.effect id)

/-- Whether a version of an account descends from the account's certified owned root. -/
def ownerEpochIsOwned (owner epoch : String) : Except String Bool :=
  match r.ownedRoot owner with
  | some root => r.descends epoch root
  | none => .ok false

/-- Check a cancellation fence. -/
def prepareFence (auth : Authentication) (v : Vote) : Except String (Option Update) := do
  let op ← r.op v.payload
  let owned ← r.ownerEpochIsOwned op.account op.epoch
  ensure (owned = false) "owned operations cannot be cancelled"
  r.verifyVote auth v .cancelRequest v.payload op.act.signer
  ensure (v.payload ∉ r.state.effects) "validator already signed effects"
  if v.payload ∈ r.state.fences then return none else return some (.fence v.payload)

/-- Check the release of a cancelled operation's charge. -/
def prepareRelease (id : String) : Except String (Option Update) := do
  ensure (id ∈ r.state.signed ∧ r.has .cancel id)
    "release requires own charge and cancellation quorum"
  if id ∈ r.state.released then return none
  else do
    let op ← r.op id
    let owned ← r.ownerEpochIsOwned op.account op.epoch
    ensure (owned = false) "owned operations cannot release slots"
    let charge ← (r.chargeOf op.epoch).sub op.cost
    ensure charge.nonnegative "inconsistent derived charge"
    return some (.release id op.epoch charge)

/-- Check an event; nothing to do where it has been done. -/
def prepare (auth : Authentication) : Event → Except String (Option Update)
  | .initialized => .error "duplicate initialization"
  | .ownedProposal request => r.prepareOwned auth request false
  | .sealOwned request => r.prepareOwned auth request true
  | .version v => r.prepareVersion auth v
  | .adoptVersion id => r.prepareAdopt id
  | .candidate a => r.prepareCandidate auth a
  | .certificate c => r.prepareCertificate auth c
  | .sign id => r.prepareSign id
  | .effect id => r.prepareEffect id
  | .fence v => r.prepareFence auth v
  | .release id => r.prepareRelease id

end Replica

/-- Perform a checked change. -/
def State.applyUpdate (s : State) : Update → State
  | .owned id request permanent =>
      { s with
        sealed := if permanent then s.sealed.insert request.version.manifest.account id else s.sealed
        versions := s.versions.insert id request.version
        owned := s.owned.insert id request }
  | .candidate id op => { s with operations := s.operations.insert id op }
  | .certificate kind id c => { s with certificates := s.certificates.insert (kind, id) c }
  | .version id v => { s with versions := s.versions.insert id v }
  | .adopt account id =>
      { s with active := s.active.insert account id, visited := s.visited.insert id }
  | .sign id epoch charge =>
      { s with signed := s.signed.insert id, charges := s.charges.insert epoch charge }
  | .effect id => { s with effects := s.effects.insert id }
  | .fence id => { s with fences := s.fences.insert id }
  | .release id epoch charge =>
      { s with released := s.released.insert id, charges := s.charges.insert epoch charge }

/-- A replica after a change, one event further. -/
def Replica.advance (r : Replica) (u : Update) : Replica :=
  { r with state := r.state.applyUpdate u, sequence := r.sequence + 1 }

-- ── Journals ────

/-- The durable log of one identity, and what the host answers to the appends to come: an error,
    or none. -/
structure Journal (ε : Type) where
  log : Option (List ε)
  answers : List (Option String)

/-- Append events at an expected length, or create the log. -/
def Journal.append {ε : Type} (j : Journal ε) (expected : Option Nat) (events : List ε) :
    Journal ε × Except String Unit :=
  match j.answers.head?.join with
  | some reason => (⟨j.log, j.answers.tail⟩, .error reason)
  | none =>
      match expected, j.log with
      | none, none => (⟨some events, j.answers.tail⟩, .ok ())
      | some n, some log =>
          if log.length = n then (⟨some (log ++ events), j.answers.tail⟩, .ok ())
          else (⟨j.log, j.answers.tail⟩, .error "unexpected sequence")
      | _, _ => (⟨j.log, j.answers.tail⟩, .error "unexpected sequence")

/-- A replica with its journal. -/
structure Host where
  replica : Replica
  journal : Journal Event

namespace Host

/-- Check an event, write it and perform it. -/
def commit (auth : Authentication) (h : Host) (event : Event) : Host × Except String Unit :=
  match h.replica.prepare auth event with
  | .error reason => (h, .error reason)
  | .ok none => (h, .ok ())
  | .ok (some update) =>
      if h.replica.sequence ≥ h.replica.limits.events then
        (h, .error "journal limit reached; evidence retained")
      else match h.journal.append (some h.replica.sequence) [event] with
        | (journal, .error reason) => (⟨h.replica, journal⟩, .error reason)
        | (journal, .ok ()) => (⟨h.replica.advance update, journal⟩, .ok ())

/-- Commit an event; on success the signature it stands for may be asked for. -/
def commitRequest (auth : Authentication) (h : Host) (event : Event) (kind : VoteKind)
    (payload : String) : Host × Except String SigningRequest :=
  match h.commit auth event with
  | (h', .ok ()) => (h', .ok (h'.replica.context.request kind payload h'.replica.validator))
  | (h', .error reason) => (h', .error reason)

/-- Register an act. -/
def register (auth : Authentication) (h : Host) (a : Act) : Host × Except String Unit :=
  h.commit auth (.candidate a)

/-- Receive a certificate. -/
def receive (auth : Authentication) (h : Host) (c : Certificate) : Host × Except String Unit :=
  h.commit auth (.certificate c)

/-- Receive a version. -/
def receiveVersion (auth : Authentication) (h : Host) (v : DagVersion) :
    Host × Except String Unit :=
  h.commit auth (.version v)

/-- Adopt a version. -/
def adoptVersion (auth : Authentication) (h : Host) (id : String) : Host × Except String Unit :=
  h.commit auth (.adoptVersion id)

/-- Record a seal request. -/
def recordOwnedProposal (auth : Authentication) (h : Host) (request : OwnedSealRequest) :
    Host × Except String Unit :=
  h.commit auth (.ownedProposal request)

/-- Seal an account permanently. -/
def prepareOwnedSeal (auth : Authentication) (h : Host) (request : OwnedSealRequest) :
    Host × Except String SigningRequest :=
  h.commitRequest auth (.sealOwned request) .ownedSeal
    (h.replica.context.versionId request.version.manifest)

/-- Sign an operation. -/
def prepareOperation (auth : Authentication) (h : Host) (id : String) :
    Host × Except String SigningRequest :=
  h.commitRequest auth (.sign id) .operation id

/-- Sign the effects of an operation. -/
def prepareEffects (auth : Authentication) (h : Host) (id : String) :
    Host × Except String SigningRequest :=
  h.commitRequest auth (.effect id) .effects id

/-- Fence an operation and sign its cancellation. -/
def prepareCancel (auth : Authentication) (h : Host) (request : Vote) :
    Host × Except String SigningRequest :=
  h.commitRequest auth (.fence request) .cancel request.payload

/-- Release the charge of a cancelled operation. -/
def release (auth : Authentication) (h : Host) (id : String) : Host × Except String Unit :=
  h.commit auth (.release id)

/-- Adopt versions in turn; what was adopted stays adopted. -/
def adoptAll (auth : Authentication) (h : Host) : List String → Host × Except String Unit
  | [] => (h, .ok ())
  | id :: rest =>
      match h.adoptVersion auth id with
      | (h', .ok ()) => adoptAll auth h' rest
      | (h', .error reason) => (h', .error reason)

end Host

-- ── Initialization and recovery ────

/-- The state of a fresh replica: every account at its genesis version. -/
def State.initial (c : Context) : State :=
  let roots := c.root_ids.toList
  { operations := ∅, owned := ∅, sealed := ∅, certificates := ∅, versions := ∅
    visited := roots.foldl (fun visited p => visited.insert p.2) ∅
    signed := ∅, effects := ∅, fences := ∅, released := ∅
    active := roots.foldl (fun active p => active.insert p.1 p.2) ∅
    charges := ∅ }

/-- A replica whose journal holds the initialization only. -/
def Replica.fresh (c : Context) (validator : String) (limits : Limits) : Replica :=
  ⟨c, validator, limits, 1, State.initial c⟩

/-- Create a log exactly once. -/
def Host.initializeReplica (c : Context) (validator : String) (limits : Limits) (journal : Journal Event) :
    Journal Event × Except String Host :=
  if ¬ c.isValidator validator then (journal, .error "validator outside committee")
  else if journal.log.isSome then (journal, .error "journal exists: recover it")
  else if limits.events = 0 then (journal, .error "event limit is zero")
  else match journal.append none [.initialized] with
    | (journal, .error reason) => (journal, .error reason)
    | (journal, .ok ()) => (journal, .ok ⟨.fresh c validator limits, journal⟩)

/-- Replay events in turn. -/
def Replica.replay (auth : Authentication) (r : Replica) : List Event → Except String Replica
  | [] => .ok r
  | event :: rest => do
      match ← r.prepare auth event with
      | some update => (r.advance update).replay auth rest
      | none => ({ r with sequence := r.sequence + 1 } : Replica).replay auth rest

/-- Rebuild a replica from its log. -/
def Replica.recover (auth : Authentication) (c : Context) (validator : String) (limits : Limits)
    (journal : Journal Event) : Except String Replica :=
  if ¬ c.isValidator validator then .error "validator outside committee"
  else match journal.log with
    | none => .error "missing journal; initialize explicitly"
    | some log =>
        if log.head? ≠ some .initialized ∨ log.length > limits.events then
          .error "invalid or oversized journal"
        else (Replica.fresh c validator limits).replay auth log.tail

-- ── Group commit ────

/-- Whether an event may be part of a group. -/
def Event.groupable : Event → Bool
  | .candidate _ => true
  | .certificate _ => true
  | .sign _ => true
  | .effect _ => true
  | _ => false

/-- What is needed to take back one staged change. -/
inductive GroupUndo where
  | candidate (id : String)
  | certificate (kind : VoteKind) (id : String)
  | sign (id epoch : String) (charge : Option Resources)
  | effect (id : String)

/-- How a change of a group is taken back; other changes are not part of one. -/
def State.undoOf (s : State) : Update → Option GroupUndo
  | .candidate id _ => some (.candidate id)
  | .certificate kind id _ => some (.certificate kind id)
  | .sign id epoch _ => some (.sign id epoch s.charges[epoch]?)
  | .effect id => some (.effect id)
  | _ => none

/-- Take back one staged change. -/
def State.undo (s : State) : GroupUndo → State
  | .candidate id => { s with operations := s.operations.erase id }
  | .certificate kind id => { s with certificates := s.certificates.erase (kind, id) }
  | .sign id epoch charge =>
      { s with
        signed := s.signed.erase id
        charges := match charge with
          | some old => s.charges.insert epoch old
          | none => s.charges.erase epoch }
  | .effect id => { s with effects := s.effects.erase id }

/-- A group being staged: the replica so far, how to take it back (latest first), the events to be
    written and their changes. -/
structure GroupPreparation where
  replica : Replica
  undo : List GroupUndo
  durable : List Event
  updates : List Update

/-- Stage one event. -/
def GroupPreparation.stage (auth : Authentication) (plan : GroupPreparation) (event : Event) :
    GroupPreparation × Except String Unit :=
  if !event.groupable then (plan, .error "unsupported group transition")
  else match plan.replica.prepare auth event with
    | .error reason => (plan, .error reason)
    | .ok none => (plan, .ok ())
    | .ok (some update) =>
        if plan.replica.sequence ≥ plan.replica.limits.events then
          (plan, .error "journal limit reached; evidence retained")
        else
          (⟨plan.replica.advance update,
            (plan.replica.state.undoOf update).toList ++ plan.undo,
            plan.durable ++ [event], plan.updates ++ [update]⟩, .ok ())

/-- Stage events in turn. -/
def GroupPreparation.stageAll (auth : Authentication) (plan : GroupPreparation) :
    List Event → GroupPreparation × Except String Unit
  | [] => (plan, .ok ())
  | event :: rest =>
      match plan.stage auth event with
      | (plan, .ok ()) => plan.stageAll auth rest
      | (plan, .error reason) => (plan, .error reason)

/-- Take back everything staged. -/
def GroupPreparation.rollback (plan : GroupPreparation) (sequence : Nat) : Replica :=
  { plan.replica with state := plan.undo.foldl State.undo plan.replica.state, sequence }

/-- The request an event of a group answers with. -/
def Replica.groupRequest (r : Replica) : Event → Option SigningRequest
  | .sign id => some (r.context.request .operation id r.validator)
  | .effect id => some (r.context.request .effects id r.validator)
  | _ => none

/-- Check a group, write it at once and perform it. -/
def Host.commitGroup (auth : Authentication) (h : Host) (events : List Event) :
    Host × Except String (List (Option SigningRequest)) :=
  if events.length > 256 then (h, .error "group exceeds 256 events")
  else
    let staged := GroupPreparation.stageAll auth ⟨h.replica, [], [], []⟩ events
    let replica := staged.1.rollback h.replica.sequence
    match staged.2 with
    | .error reason => (⟨replica, h.journal⟩, .error reason)
    | .ok () =>
        if staged.1.durable = [] then
          (⟨replica, h.journal⟩, .ok (events.map replica.groupRequest))
        else match h.journal.append (some replica.sequence) staged.1.durable with
          | (journal, .error reason) => (⟨replica, journal⟩, .error reason)
          | (journal, .ok ()) =>
              let replica := staged.1.updates.foldl Replica.advance replica
              (⟨replica, journal⟩, .ok (events.map replica.groupRequest))

end CbclQuorum
