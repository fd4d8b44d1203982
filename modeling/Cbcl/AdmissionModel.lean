import Cbcl.ThreadedStoreModel
import Cbcl.VerifierModel

/-!
# The admission monitor

`AdmissionMonitor` (`admission.rs`) keeps an accepted history for one pinned thread and one
endpoint.  Receipt only queues a candidate; `step` visits the head of the queue and accepts,
rejects or requeues it; `drainReady` visits in rounds until a whole round changes nothing.
The gate is a function: it authenticates a message and returns its content address, and its
decisions are stable.  What `dialect_hash` computes is a parameter of `new`.
-/

namespace CbclAdmission

open CbclMessage CbclProtocol CbclStore CbclRole CbclVerifier CbclThreadedStore

/-- The required gate: a verified content address, or the reason of the refusal. -/
abbrev AdmissionGate := Message → Except String ContentHash

/-- Errors of receipt and construction. -/
inductive AdmissionError where
  | authentication (reason : String)
  | context (reason : String)
  | message (reason : String)
  | conflictingIdentity (hash : ContentHash)
deriving DecidableEq

/-- The recorded state of a candidate. -/
inductive AdmissionState where
  | pending
  | accepted
  | rejected (violation : CausalViolation)
deriving DecidableEq

/-- What one queue visit did. -/
structure AdmissionEvent where
  hash : ContentHash
  state : AdmissionState
deriving DecidableEq

/-- A received message and its state. -/
structure Candidate where
  message : Message
  state : AdmissionState
deriving DecidableEq

/-- The fixed part of a monitor. -/
structure AdmissionContext where
  dialect : Dialect
  cast : Cast
  endpoint : Endpoint
  endpoint_key : AgentKey
  thread : ThreadId
  root : ContentHash
  gate : AdmissionGate

/-- A monitor: its context, the received candidates, the queue and the accepted history. -/
structure AdmissionMonitor extends AdmissionContext where
  received : BTreeMap ContentHash Candidate
  pending : List ContentHash
  accepted : ThreadedMessageStore

-- ── Message checks ────

/-- Walk the wrappers: a cast only on the pinned outer root, one signature, the right
    dialect.  `outer` holds for the message itself and for nothing inside it. -/
def scanWrappers (dialectName : String) (isRoot : Bool) :
    Bool → Option String → Message → Except AdmissionError (Option String)
  | outer, signer, .wrapped wrapper params content =>
      if wrapper = .withRoles ∧ ¬ (isRoot ∧ outer) then
        .error (.message "only the pinned outer root may carry a cast")
      else if wrapper = .signed then
        if signer.isSome then .error (.message "ambiguous nested signatures")
        else match params with
          | .atom (.symbol key) :: _ => scanWrappers dialectName isRoot false (some key) content
          | _ => .error (.message "signed wrapper requires a signer key")
      else scanWrappers dialectName isRoot false signer content
  | _, signer, .dialect name inner =>
      if name ≠ dialectName then .error (.message "wrong dialect wrapper")
      else scanWrappers dialectName isRoot false signer inner
  | _, signer, _ => .ok signer

namespace AdmissionContext

/-- Whether a causal reference names predecessor hashes explicitly. -/
def namesPredecessors : Option CausedBy → Bool
  | some (.single _) => true
  | some (.multiple hs) => !hs.isEmpty
  | _ => false

/-- The checks a non-root payload passes at receipt: explicit predecessors, a protocol step,
    an annotation, and an endpoint that sends or receives it. -/
def checkStep (ctx : AdmissionContext) (simple : Message) (signer : String) :
    Except AdmissionError Unit :=
  let perf := (simple.performative.map Performative.name).getD ""
  if !namesPredecessors simple.causedBy then
    .error (.message "non-root messages require explicit predecessor hashes")
  else if !(ctx.dialect.causal_protocol.any fun protocol =>
      protocol.steps.keys.any fun name => repeatBaseName name = perf)
      ∨ perf = BEGIN_KEYWORD then
    .error (.message "performative is not a protocol step")
  else match ctx.dialect.annotationOf perf with
    | none => .error (.message "missing role annotation")
    | some ann =>
        let sends := ann.from = ctx.endpoint.role ∧ signer = ctx.endpoint_key
        let receives := ctx.endpoint.role ∈ ann.to ∧ ctx.endpoint_key ∈ simple.recipientSet
        if ¬ sends ∧ ¬ receives then
          .error (.message "message is not relevant to this endpoint")
        else .ok ()

/-- The checks of a message at receipt. -/
def checkMessage (ctx : AdmissionContext) (hash : ContentHash) (message : Message) :
    Except AdmissionError Unit :=
  match message.innermostSimple with
  | none => .error (.message "simple payload required")
  | some simple =>
      if simple.thread ≠ some ctx.thread then
        .error (.message "message must explicitly name the pinned thread")
      else do
        let isRoot := hash = ctx.root
        match ← scanWrappers ctx.dialect.name isRoot true none message with
        | none => .error (.message "authenticated signed wrapper required")
        | some signer =>
            if isRoot then
              if message.wrapperType ≠ some .withRoles ∨ simple.causedBy ≠ some .begin then
                .error (.message "root must be predecessor-free with-roles nomination")
              else .ok ()
            else ctx.checkStep simple signer

end AdmissionContext

namespace AdmissionMonitor

/-- Verification against the accepted history. -/
def verify (m : AdmissionMonitor) (message : Message) : VerificationResult :=
  verifyCausalForRole message m.endpoint m.dialect m.cast m.accepted.toStore m.thread m.root

/-- Whether the root and every cited hash are accepted; the root itself is resolved. -/
def resolved (m : AdmissionMonitor) (hash : ContentHash) (message : Message) : Bool :=
  if hash = m.root then true
  else if !m.accepted.contains m.root m.thread then false
  else match message.innermostSimple.bind Message.causedBy with
    | some (.single h) => m.accepted.contains h m.thread
    | some (.multiple hs) => hs.all fun h => m.accepted.contains h m.thread
    | _ => false

/-- The recorded state of a hash. -/
def state (m : AdmissionMonitor) (hash : ContentHash) : Option AdmissionState :=
  (m.received[hash]?).map (·.state)

/-- The received message of a hash. -/
def receivedMessage (m : AdmissionMonitor) (hash : ContentHash) : Option Message :=
  (m.received[hash]?).map (·.message)

/-- Authenticate and retain a candidate; a duplicate changes nothing. -/
def receive (m : AdmissionMonitor) (message : Message) :
    Except AdmissionError ContentHash × AdmissionMonitor :=
  match m.gate message with
  | .error reason => (.error (.authentication reason), m)
  | .ok hash =>
    match m.received[hash]? with
    | some existing =>
        if existing.message = message then (.ok hash, m)
        else (.error (.conflictingIdentity hash), m)
    | none =>
      match m.checkMessage hash message with
      | .error e => (.error e, m)
      | .ok () =>
          (.ok hash, { m with
            received := m.received.insert hash ⟨message, .pending⟩
            pending := m.pending ++ [hash] })

/-- The state one visit gives a candidate, judged against the history before it. -/
def visit (m : AdmissionMonitor) (hash : ContentHash) (message : Message) : AdmissionState :=
  if !m.resolved hash message then .pending
  else match m.verify message with
    | .valid => .accepted
    | .unknown => .pending
    | .violation e => .rejected e

/-- One queue visit.  A queued hash without a candidate does not occur. -/
def step (m : AdmissionMonitor) : Option AdmissionEvent × AdmissionMonitor :=
  match m.pending with
  | [] => (none, m)
  | hash :: rest =>
    match m.received[hash]? with
    | none => (none, m)
    | some candidate =>
        let state := m.visit hash candidate.message
        (some ⟨hash, state⟩, { m with
          received := m.received.insert hash { candidate with state }
          pending := if state = .pending then rest ++ [hash] else rest
          accepted := if state = .accepted then
              (m.accepted.append hash m.thread candidate.message).2
            else m.accepted })

/-- The events of some visits that are not `Pending`, and the monitor after them. -/
def visits : Nat → AdmissionMonitor → List AdmissionEvent × AdmissionMonitor
  | 0, m => ([], m)
  | n + 1, m =>
      let (event, m) := m.step
      let (events, m) := visits n m
      (event.toList.filter (·.state ≠ .pending) ++ events, m)

/-- Rounds over the whole queue until one brings no progress. -/
def drainRounds : Nat → AdmissionMonitor → List AdmissionEvent × AdmissionMonitor
  | 0, m => ([], m)
  | fuel + 1, m =>
      let (events, m) := visits m.pending.length m
      if events = [] then ([], m)
      else
        let (later, m) := drainRounds fuel m
        (events ++ later, m)

/-- Drain the queue to a fixed point.  A round with progress shortens the queue, so its
    length bounds the rounds. -/
def drainReady (m : AdmissionMonitor) : List AdmissionEvent × AdmissionMonitor :=
  drainRounds (m.pending.length + 1) m

end AdmissionMonitor

-- ── Construction ────

/-- The key an endpoint occupies under a cast. -/
def endpointKey (endpoint : Endpoint) (cast : Cast) : Option AgentKey :=
  match endpoint.occupant, cast.singleton[endpoint.role]? with
  | none, some key => some key
  | some key, none =>
      if (cast.indexed[endpoint.role]?).any (·.contains key) then some key else none
  | _, _ => none

/-- The dialect side of construction: full-message locality, unique names, and the R5/R6
    checks over a protocol with a predecessor-free `begin`. -/
def checkDialect (dialect : Dialect) : Except AdmissionError Unit :=
  if dialect.causal_locality ≠ .reject then
    .error (.context "admission requires full-message causal locality")
  else if ¬ (dialect.performatives.map (·.name)).Nodup then
    .error (.context "duplicate performative annotations")
  else if ¬ (dialect.roles.map (·.name)).Nodup then .error (.context "duplicate roles")
  else match dialect.causal_protocol with
    | none => .error (.context "a causal protocol is required")
    | some protocol =>
        if !(protocol.steps[BEGIN_KEYWORD]?).any (·.predecessors.isEmpty) then
          .error (.context "protocol requires a predecessor-free begin step")
        else if protocol.verifyR5Protocol (dialect.performatives.map (·.name)) ≠ []
            ∨ protocol.steps.toList.any (fun (name, step) => name ≠ step.performative)
            ∨ r6Violations dialect ≠ [] then
          .error (.context "dialect fails R5/R6 or step-name consistency")
        else if protocol.steps.keys.any fun name =>
            name ≠ BEGIN_KEYWORD ∧ dialect.annotationOf (repeatBaseName name) = none then
          .error (.context "every protocol step needs a base role annotation")
        else .ok ()

/-- The cast of a root: an outer `with-roles` wrapper pinning the computed dialect hash. -/
def checkRoot (dialectHash : Dialect → String) (dialect : Dialect) (root : Message) :
    Except AdmissionError Cast :=
  match root with
  | .wrapped .withRoles params _ =>
      match parseWrapperCast params dialect.roles with
      | .error e => .error (.context e.display)
      | .ok cast =>
          if dialect.hash ≠ some (dialectHash dialect)
              ∨ cast.dialect_pin ≠ some (dialectHash dialect) then
            .error (.context "root and installed dialect must pin the computed dialect hash")
          else if r6InstantiatedViolations dialect cast ≠ [] then
            .error (.context "cast fails per-occupant causal locality")
          else .ok cast
  | _ => .error (.context "root must be the outer with-roles wrapper")

/-- Freeze a dialect and a cast-bearing root; the root is received, not yet accepted. -/
def AdmissionMonitor.new (dialectHash : Dialect → String) (dialect : Dialect)
    (endpoint : Endpoint) (root : Message) (gate : AdmissionGate) :
    Except AdmissionError AdmissionMonitor := do
  checkDialect dialect
  let cast ← checkRoot dialectHash dialect root
  match endpointKey endpoint cast with
  | none => .error (.context "endpoint must name a sealed cast occupant")
  | some endpoint_key =>
    match root.innermostSimple.bind Message.thread with
    | none => .error (.context "root requires an explicit thread")
    | some thread =>
      match gate root with
      | .error reason => .error (.authentication reason)
      | .ok rootHash =>
          let monitor : AdmissionMonitor :=
            { dialect, cast, endpoint, endpoint_key, thread, root := rootHash, gate
              received := ∅, pending := [], accepted := ThreadedMessageStore.new }
          monitor.checkMessage rootHash root
          if monitor.verify root ≠ .valid then
            .error (.context "invalid root nomination")
          else
            return { monitor with
              received := (∅ : BTreeMap ContentHash Candidate).insert rootHash ⟨root, .pending⟩
              pending := [rootHash] }

-- ── Runs ────

/-- A call on a monitor. -/
inductive Call where
  | receive (message : Message)
  | step
  | drainReady

/-- The monitor after a call. -/
def Call.apply : Call → AdmissionMonitor → AdmissionMonitor
  | .receive message, m => (m.receive message).2
  | .step, m => m.step.2
  | .drainReady, m => m.drainReady.2

/-- The monitor after a sequence of calls. -/
def run (m : AdmissionMonitor) (calls : List Call) : AdmissionMonitor :=
  calls.foldl (fun m call => call.apply m) m

end CbclAdmission
