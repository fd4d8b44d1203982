import Cbcl.EngineModel

/-!
# Relaying evidence

A replica exports the closure of what an act or a seal rests on: acts, versions, seal requests and
certificates.  Another replica imports the items in any order with its ordinary checks, retrying
what is still missing something until a round brings no progress (`quorum/engine.rs`).
-/

namespace CbclQuorum

open CbclMessage CbclAct CbclTreeMap
open CbclEscrow (Ownership)

/-- One piece of public evidence. -/
inductive RelayItem where
  | act (a : Act)
  | version (v : DagVersion)
  | owned (r : OwnedSealRequest)
  | certificate (c : Certificate)
deriving DecidableEq

/-- An issued act with the evidence it rests on. -/
structure Publication where
  act : Act
  evidence : List RelayItem

/-- A seal request with the evidence it rests on. -/
structure SealPublication where
  request : OwnedSealRequest
  evidence : List RelayItem

/-- What became of a publication. -/
inductive PublicationResult where
  | seal (request : SigningRequest)
  | operation (request : SigningRequest)
  | effects (operation : Certificate) (request : SigningRequest)
  | finalized (certificate : Certificate) (evidence : List RelayItem)
  | pending (items : List RelayItem) (reasons : List String)

-- ── Export ────

/-- The state of an export: two stacks, what was seen, and the evidence so far. -/
structure RelaySearch where
  operations : List String
  versions : List String
  seen_ops : List String
  seen_versions : List String
  seen_roots : List String
  evidence : List RelayItem

namespace Replica

variable (r : Replica)

/-- The retained certificates of an operation. -/
def operationCertificates (id : String) : List RelayItem :=
  [VoteKind.operation, .effects, .cancel].filterMap fun kind =>
    (r.certificate kind id).map .certificate

/-- Export the operation on top of the stack. -/
def relayOperation (target : Option Act) (s : RelaySearch) (id : String) (rest : List String) :
    Except String RelaySearch :=
  if id ∈ s.seen_ops then .ok { s with operations := rest }
  else do
    let candidate ← match target.filter (id = ·.address) with
      | some a => .ok a
      | none => orError "missing relay operation" (r.operationAct id)
    let op ← r.operation candidate
    return { s with
      operations := rest
      versions := op.epoch :: s.versions
      seen_ops := id :: s.seen_ops
      evidence := s.evidence ++ .act candidate :: r.operationCertificates id }

/-- Export the certified owned root below an owned version. -/
def relayRoot (id account : String) (s : RelaySearch) : Except String RelaySearch := do
  let root ← orError "missing relay owned-root QC" (r.ownedRoot account)
  let inside ← r.descends id root
  ensure (inside = true) "relay target is outside owned root"
  if root ∈ s.seen_roots then return s
  else do
    let request ← orError "missing owned request" r.state.owned[root]?
    let certificate ← orError "missing seal QC" (r.certificate .ownedSeal root)
    return { s with
      versions := root :: s.versions
      seen_roots := root :: s.seen_roots
      evidence := s.evidence ++ [.owned request, .certificate certificate] }

/-- Export the version on top of the stack; a genesis version is known to everybody. -/
def relayVersion (s : RelaySearch) (id : String) (rest : List String) :
    Except String RelaySearch :=
  if id ∈ s.seen_versions then .ok { s with versions := rest }
  else do
    let manifest ← r.epoch id
    match r.version id with
    | none => return { s with versions := rest, seen_versions := id :: s.seen_versions }
    | some version =>
        let s := { s with
          operations := manifest.refunded.toList.reverse ++ (manifest.credited.toList.reverse
            ++ (manifest.held.toList.reverse ++ s.operations))
          versions := manifest.parents.toList.reverse ++ rest
          seen_versions := id :: s.seen_versions
          evidence := s.evidence ++ [.version version] }
        if manifest.phase = .owned then r.relayRoot id manifest.account s else return s

/-- Export until both stacks are empty; operations come first. -/
def relayLoop (target : Option Act) : Nat → RelaySearch → Except String RelaySearch
  | 0, s => .ok s
  | n + 1, s =>
      match s.operations, s.versions with
      | id :: rest, _ => do
          let s ← r.relayOperation target s id rest
          relayLoop target n s
      | [], id :: rest => do
          let s ← r.relayVersion s id rest
          relayLoop target n s
      | [], [] => .ok s

/-- A bound on the steps of an export: every operation pushes one version, every version its books
    and at most one root. -/
def relayBound (operations versions : List String) : Nat :=
  operations.length + versions.length + r.state.operations.size + 1 +
    ((valuesOf r.state.versions).map fun v =>
      v.manifest.parents.size + v.manifest.held.size + v.manifest.credited.size
        + v.manifest.refunded.size + 1).sum

/-- Export the closure of operations and versions. -/
def relayEvidence (target : Option Act) (operations versions : List String) :
    Except String (List RelayItem) := do
  let s ← r.relayLoop target (r.relayBound operations versions)
    ⟨operations.reverse, versions.reverse, [], [], [], []⟩
  return s.evidence

/-- Export an act with what it rests on. -/
def publication (a : Act) : Except String Publication := do
  let _ ← r.operation a
  let evidence ← r.relayEvidence (some a) [a.address] []
  return ⟨a, evidence⟩

/-- Export what the seal of a version rests on. -/
def sealEvidence (m : VersionManifest) : Except String (List RelayItem) := do
  r.checkVersionManifest m
  r.relayEvidence none (m.held ∪ m.credited).toList m.parents.toList

-- ── Bounds on imported items ────

/-- The bounds of an act. -/
def boundRelayAct (a : Act) : Except String Unit := do
  ensure (a.signer.utf8ByteSize ≤ r.limits.object_bytes ∧
      a.address.utf8ByteSize ≤ r.limits.object_bytes ∧ a.verb.utf8ByteSize ≤ r.limits.object_bytes)
    "relay act header limit exceeded"
  boundedMessage a.message r.limits.object_bytes
  r.context.structural a

/-- The bounds of a vote. -/
def boundRelayVote (v : Vote) : Except String Unit := do
  ensure (v.signature.length ≤ r.limits.signature_bytes ∧ v.context = r.context.id ∧
      v.payload.utf8ByteSize ≤ 71)
    "relay vote domain or signature limit exceeded"
  ensure (v.signer ∈ r.context.actors ∨ r.context.isValidator v.signer = true)
    "unknown relay signing identity"

/-- The bounds of a version. -/
def boundRelayVersion (v : DagVersion) : Except String Unit := do
  let m := v.manifest
  ensure (m.account ∈ r.context.initial ∧ m.parents.size ≤ r.limits.versions + 1 ∧
      m.held.size ≤ r.limits.operations ∧ m.refunded.size ≤ r.limits.operations ∧
      m.credited.size ≤ r.limits.operations)
    "relay manifest scope or count limit exceeded"
  [m.parents, m.held, m.refunded, m.credited].forM fun ids =>
    ensure (∀ id ∈ ids.toList, id.utf8ByteSize ≤ 71) "relay identifier limit exceeded"
  r.boundRelayVote v.authorization

/-- The bounds of a seal request. -/
def boundSealRequest (request : OwnedSealRequest) : Except String Unit := do
  r.boundRelayVersion request.version
  r.boundRelayVote request.authorization

/-- The bounds of an item. -/
def boundRelayItem : RelayItem → Except String Unit
  | .act a => r.boundRelayAct a
  | .version v => r.boundRelayVersion v
  | .owned request => r.boundSealRequest request
  | .certificate c => do
      ensure (c.votes.length ≤ r.context.committee.validators.length ∧ c.payload.utf8ByteSize ≤ 71)
        "relay certificate count or payload limit exceeded"
      c.votes.forM r.boundRelayVote

/-- How many items a publication may carry. -/
def relayItemBound : Nat := r.limits.operations * 4 + r.limits.versions * 3 + 1

end Replica

-- ── Import ────

/-- The event an item is imported as. -/
def RelayItem.event : RelayItem → Event
  | .act a => .candidate a
  | .version v => .version v
  | .owned request => .ownedProposal request
  | .certificate c => .certificate c

/-- What a round of imports leaves: the items deferred and why. -/
structure ImportRound where
  host : Host
  deferred : List RelayItem
  reasons : List String

/-- Try items in turn; a failing check defers an item, a failing journal ends the import. -/
def ImportRound.run (auth : Authentication) (round : ImportRound) :
    List RelayItem → ImportRound × Except String Unit
  | [] => (round, .ok ())
  | item :: rest =>
      match round.host.replica.prepare auth item.event with
      | .error reason =>
          ImportRound.run auth
            ⟨round.host, round.deferred ++ [item], round.reasons ++ [reason]⟩ rest
      | .ok _ =>
          match round.host.commit auth item.event with
          | (host, .ok ()) => ImportRound.run auth { round with host } rest
          | (host, .error reason) => ({ round with host }, .error reason)

namespace Host

/-- Repeat rounds until nothing is pending or a round brings no progress. -/
def importLoop (auth : Authentication) : Nat → Host → List RelayItem →
    Host × Except String (List RelayItem × List String)
  | 0, h, pending => (h, .ok (pending, []))
  | n + 1, h, pending =>
      match ImportRound.run auth ⟨h, [], []⟩ pending with
      | (round, .error reason) => (round.host, .error reason)
      | (round, .ok ()) =>
          if round.deferred = [] ∨ round.deferred.length = pending.length then
            (round.host, .ok (round.deferred, round.reasons))
          else importLoop auth n round.host round.deferred

/-- Import items: bounds first, then rounds. -/
def importRelayItems (auth : Authentication) (h : Host) (items : List RelayItem) :
    Host × Except String (List RelayItem × List String) :=
  if items.length > h.replica.limits.operations * 4 + h.replica.limits.versions * 3 + 2 then
    (h, .error "publication evidence limit exceeded")
  else match items.forM h.replica.boundRelayItem with
    | .error reason => (h, .error reason)
    | .ok () => importLoop auth (items.length + 1) h items

/-- Import evidence without a decision of this replica's own: what is pending, and why. -/
def receiveEvidence (auth : Authentication) (h : Host) (items : List RelayItem) :
    Host × Except String (List RelayItem × List String) :=
  h.importRelayItems auth items

end Host

-- ── Catching up ────

/-- The state of a search from a target back to the active version. -/
structure AdoptionSearch where
  todo : List String
  seen : List String
  forward : BTreeMap String String

namespace Replica

variable (r : Replica)

/-- Whether a version lies on the line of a certified root: below it, or above. -/
def onLine (root id : String) : Except String Bool := do
  if ← r.descends id root then return true
  else r.descends root id

/-- Whether the search may go through a version. -/
def mayPass (account : String) (boundary : Option String) (id : String) (node : VersionManifest) :
    Except String Bool := do
  let allowed ← match boundary with
    | some root => r.onLine root id
    | none => .ok !(node.phase = .owned && (r.ownedRoot account).isNone)
  return allowed && !r.state.signed.toList.any fun signed =>
    (r.state.operations[signed]?).any (·.account = account) && !node.held.contains signed

/-- Note the parents not seen yet, and how they lead forward. -/
def pushParents (id : String) (s : AdoptionSearch) (parents : List String) : AdoptionSearch :=
  parents.foldl (fun s parent =>
    if parent ∈ s.seen then s
    else ⟨parent :: s.todo, parent :: s.seen, s.forward.insert parent id⟩) s

/-- Search backwards for the active version. -/
def adoptionLoop (account current : String) (boundary : Option String) :
    Nat → AdoptionSearch → Except String (Option AdoptionSearch)
  | 0, _ => .ok none
  | n + 1, s =>
      match s.todo with
      | [] => .ok none
      | id :: todo =>
          if id = current then .ok (some s)
          else do
            let node ← r.epoch id
            if ← r.mayPass account boundary id node then
              adoptionLoop account current boundary n
                (pushParents id { s with todo } node.parents.toList)
            else adoptionLoop account current boundary n { s with todo }

/-- Read the path forward, checking every node again. -/
def forwardPath (account target : String) (boundary : Option String)
    (forward : BTreeMap String String) : Nat → String → Except String (List String)
  | 0, _ => .error "broken catch-up path"
  | n + 1, cursor =>
      if cursor = target then .ok []
      else do
        let next ← orError "broken catch-up path" forward[cursor]?
        let node ← r.epoch next
        match boundary with
        | some root => do
            let inside ← r.onLine root next
            ensure (inside = true) "catch-up node is outside certified root ancestry"
        | none =>
            ensure (¬ (node.phase = .owned ∧ (r.ownedRoot account).isNone))
              "catch-up awaits owned-root QC"
        r.state.signed.toList.forM fun signed => do
          let op ← r.op signed
          ensure (op.account = account → signed ∈ node.held)
            "catch-up node omits historical signature"
        let rest ← forwardPath account target boundary forward n next
        return next :: rest

/-- Versions to adopt in turn to reach a target. -/
def adoptionPath (target : String) (boundary : Option String) : Except String (List String) := do
  let manifest ← r.epoch target
  let current ← r.activeEpoch manifest.account
  if current = target then return []
  else do
    match ← r.adoptionLoop manifest.account current boundary r.walkBound
        ⟨[target], [target], ∅⟩ with
    | none => .error "catch-up target is not a descendant of current version"
    | some s =>
        r.forwardPath manifest.account target boundary s.forward (s.forward.size + 1) current

/-- Versions to adopt in turn to reach an owned target. -/
def ownedAdoptionPath (target : String) : Except String (List String) := do
  let manifest ← r.epoch target
  if manifest.phase ≠ .owned then return []
  else do
    let root ← orError "catch-up awaits owned-root QC" (r.ownedRoot manifest.account)
    let inside ← r.descends target root
    ensure (inside = true) "catch-up target outside owned root"
    r.adoptionPath target (some root)

end Replica

namespace Host

/-- Catch up with an owned version. -/
def catchUpOwned (auth : Authentication) (h : Host) (target : String) :
    Host × Except String Unit :=
  match h.replica.ownedAdoptionPath target with
  | .error reason => (h, .error reason)
  | .ok path => h.adoptAll auth path

/-- Answer with the replica's own signature request, or say why not. -/
def answerWith (answer : Host × Except String SigningRequest)
    (result : SigningRequest → PublicationResult) : Host × Except String PublicationResult :=
  match answer with
  | (h, .ok request) => (h, .ok (result request))
  | (h, .error reason) => (h, .error reason)

/-- Answer with pending items. -/
def stayPending (h : Host) (items : List RelayItem) (reasons : List String) :
    Host × Except String PublicationResult :=
  (h, .ok (.pending items reasons))

/-- The last steps of a publication: catch up and sign. -/
def signPublication (auth : Authentication) (h : Host) (a : Act) :
    Host × Except String PublicationResult :=
  match h.replica.op a.address with
  | .error reason => (h, .error reason)
  | .ok op =>
      match h.replica.ownedAdoptionPath op.epoch with
      | .error reason => h.stayPending [] [reason]
      | .ok path =>
          match h.adoptAll auth path with
          | (h, .error reason) => (h, .error reason)
          | (h, .ok ()) =>
              match h.replica.prepare auth (.sign a.address) with
              | .error reason => h.stayPending [] [reason]
              | .ok _ => answerWith (h.prepareOperation auth a.address) .operation

/-- A publication after its evidence was imported. -/
def settlePublication (auth : Authentication) (h : Host) (a : Act) (pending : List RelayItem)
    (reasons : List String) : Host × Except String PublicationResult :=
  match h.replica.certificate .effects a.address with
  | some certificate =>
      match h.replica.publication a with
      | .error reason => (h, .error reason)
      | .ok p => (h, .ok (.finalized certificate p.evidence))
  | none =>
      if pending ≠ [] then h.stayPending pending reasons
      else match h.replica.certificate .operation a.address with
        | some operation => answerWith (h.prepareEffects auth a.address) (.effects operation)
        | none => h.signPublication auth a

/-- Import a publication and take it as far as it goes. -/
def preparePublication (auth : Authentication) (h : Host) (p : Publication) :
    Host × Except String PublicationResult :=
  match h.replica.boundRelayAct p.act with
  | .error reason => (h, .error reason)
  | .ok () =>
      if !auth.authenticateAct p.act then (h, .error "publication target authentication failed")
      else if p.evidence.length > h.replica.relayItemBound then
        (h, .error "publication evidence limit exceeded")
      else match p.evidence.forM h.replica.boundRelayItem with
        | .error reason => (h, .error reason)
        | .ok () =>
            match h.importRelayItems auth (p.evidence ++ [.act p.act]) with
            | (h, .error reason) => (h, .error reason)
            | (h, .ok (pending, reasons)) => h.settlePublication auth p.act pending reasons

/-- Catch up with a parent of a seal, unless the active version is one or the account is sealed. -/
def catchUpParent (auth : Authentication) (h : Host) (m : VersionManifest) :
    Host × Except String (Option String) :=
  match h.replica.activeEpoch m.account with
  | .error reason => (h, .error reason)
  | .ok current =>
      if current ∈ m.parents ∨ m.account ∈ h.replica.state.sealed then (h, .ok none)
      else match m.parents.toList.findSome? fun parent =>
          (h.replica.adoptionPath parent (h.replica.ownedRoot m.account)).toOption with
        | none => (h, .ok (some "seal parent catch-up needs compatible ancestry"))
        | some path =>
            match h.adoptAll auth path with
            | (h, .error reason) => (h, .error reason)
            | (h, .ok ()) => (h, .ok none)

/-- The last steps of a seal: catch up and seal. -/
def signSeal (auth : Authentication) (h : Host) (request : OwnedSealRequest) :
    Host × Except String PublicationResult :=
  match h.replica.checkOwned auth request with
  | .error reason => (h, .error reason)
  | .ok () =>
      match h.catchUpParent auth request.version.manifest with
      | (h, .error reason) => (h, .error reason)
      | (h, .ok (some reason)) => h.stayPending [] [reason]
      | (h, .ok none) =>
          match h.replica.prepare auth (.sealOwned request) with
          | .error reason => h.stayPending [] [reason]
          | .ok _ => answerWith (h.prepareOwnedSeal auth request) .seal

/-- A seal publication after its evidence was imported. -/
def settleSeal (auth : Authentication) (h : Host) (request : OwnedSealRequest)
    (pending : List RelayItem) (reasons : List String) : Host × Except String PublicationResult :=
  match h.replica.certificate .ownedSeal
      (h.replica.context.versionId request.version.manifest) with
  | some certificate =>
      match h.replica.checkOwned auth request with
      | .error reason => (h, .error reason)
      | .ok () =>
          match h.replica.sealEvidence request.version.manifest with
          | .error reason => (h, .error reason)
          | .ok evidence =>
              (h, .ok (.finalized certificate
                (evidence ++ [.owned request, .certificate certificate])))
  | none =>
      if pending ≠ [] then h.stayPending pending reasons else h.signSeal auth request

/-- Import a seal publication and take it as far as it goes. -/
def prepareSealPublication (auth : Authentication) (h : Host) (p : SealPublication) :
    Host × Except String PublicationResult :=
  match h.replica.boundSealRequest p.request with
  | .error reason => (h, .error reason)
  | .ok () =>
      if p.evidence.length > h.replica.relayItemBound then
        (h, .error "seal evidence limit exceeded")
      else match h.importRelayItems auth p.evidence with
        | (h, .error reason) => (h, .error reason)
        | (h, .ok (pending, reasons)) => h.settleSeal auth p.request pending reasons

end Host

end CbclQuorum
