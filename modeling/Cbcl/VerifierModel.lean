import Cbcl.RepeatModel
import Cbcl.RoleModel

/-!
# The causal verifiers

`verifyCausal` (`protocol.rs`) checks a message's `:caused-by` against the dialect-level
protocol; `verifyCausalForRole` (`projection.rs`) is its meet with role conformance and the
occupant-counted `(all …)` fan-in.  Both are functions of a store: nothing is remembered
between calls.  Branches the source marks `unreachable!` return `Unknown` here.
-/

namespace CbclVerifier

open CbclMessage CbclProtocol CbclStore CbclRepeat CbclRole

-- ── R5 predecessor check ────

/-- How a resolved type compares with the allowed ones. -/
def classify (allowed : String → Bool) : Option String → Lookup
  | none => .missing
  | some p => if allowed p then .allowed else .wrong

/-- The state of the fan-in loop. -/
structure FanInScan where
  state : FanIn
  found_types : BTreeSet String
  first_error : Option CausalViolation

/-- Visit one hash of a fan-in. -/
def scanHash (store : MessageStore) (thread : ThreadId) (all_set : BTreeSet String)
    (scan : FanInScan) (hash : String) : FanInScan :=
  match predecessorType store hash thread with
  | none => { scan with state := observe scan.state .missing }
  | some pred_perf =>
      if pred_perf ∈ all_set then
        { scan with
          state := observe scan.state .allowed
          found_types := scan.found_types.insert pred_perf }
      else
        { scan with
          state := observe scan.state .wrong
          first_error := scan.first_error <|>
            some (.invalidPredecessor hash all_set.toList pred_perf) }

/-- The verdict on a fan-in reference against the first `(all …)` declaration. -/
def verifyFanIn (store : MessageStore) (thread : ThreadId) (msg_performative : String)
    (all_decl : Option (BTreeSet String)) (hashes : List String) : VerificationResult :=
  let scan := match all_decl with
    | some all_set => hashes.foldl (scanHash store thread all_set) ⟨.clear, ∅, none⟩
    | none => ⟨.clear, ∅, none⟩
  let missing := match all_decl, scan.state with
    | some all_set, .clear => all_set.toList.filter (· ∉ scan.found_types)
    | _, _ => []
  match finish all_decl.isSome scan.state missing.isEmpty with
  | .valid => .valid
  | .unknown => .unknown
  | .invalidPredecessor => (scan.first_error.map .violation).getD .unknown
  | .incompleteFanIn => .violation (.incompleteFanIn missing)
  | .fanInWithoutAllDecl => .violation (.fanInWithoutAllDecl msg_performative)
  | _ => .unknown

/-- The verdict on a single hash. -/
def verifySingle (store : MessageStore) (thread : ThreadId) (step : StepDecl) (hash : String) :
    VerificationResult :=
  let pred_perf := predecessorType store hash thread
  let allowed := allowedSinglePredecessors step
  match single (!step.predecessors.isEmpty) (classify (allowed.contains ·) pred_perf) with
  | .valid => .valid
  | .unknown => .unknown
  | .extraneousPredecessor => .violation (.extraneousPredecessor hash (pred_perf.getD ""))
  | .invalidPredecessor => .violation (.invalidPredecessor hash allowed (pred_perf.getD ""))
  | _ => .unknown

/-- The verdict of a step of a protocol without copies. -/
def verifyStep (step : StepDecl) (msg_performative : String) (caused_by : Option CausedBy)
    (store : MessageStore) (thread : ThreadId) : VerificationResult :=
  match caused_by with
  | none =>
      match absent (!step.predecessors.isEmpty) with
      | .valid => .valid
      | .missingCausedBy => .violation .missingCausedBy
      | _ => .unknown
  | some .begin =>
      match literalBegin (beginAllowed step) with
      | .valid => .valid
      | .invalidPredecessor =>
          .violation (.invalidPredecessor BEGIN_KEYWORD (allowedSinglePredecessors step)
            BEGIN_KEYWORD)
      | _ => .unknown
  | some (.single hash) => verifySingle store thread step hash
  | some (.multiple hashes) => verifyFanIn store thread msg_performative (firstAll step) hashes

/-- Causal consistency of a message against its protocol. -/
def verifyCausal (msg_performative : String) (caused_by : Option CausedBy)
    (store : MessageStore) (protocol : CausalProtocol) (thread : ThreadId) :
    VerificationResult :=
  if hasRepeat protocol then
    CbclRepeat.verify msg_performative caused_by store protocol thread none
  else match protocol.steps[msg_performative]? with
    | none => .valid
    | some step => verifyStep step msg_performative caused_by store thread

-- ── Role conformance ────

/-- The key of the outermost `signed` wrapper that names one; `:sender` is never trusted. -/
def signerOf : Message → Option String
  | .wrapped .signed (.atom (.symbol s) :: _) _ => some s
  | .wrapped _ _ content => signerOf content
  | .dialect _ inner => signerOf inner
  | .simple .. => none
  | .metaDef _ => none

/-- A role violation with its reason. -/
def roleViolation (reason : String) : VerificationResult :=
  .violation (.roleConformance reason)

/-- The keys the cast expects as recipients: each singleton key, every sealed occupant. -/
def expectedRecipientKeys (ann : RoleAnnotation) (cast : Cast) : BTreeSet String :=
  ann.to.toList.foldl (fun keys role =>
    let keys := match cast.singleton[role]? with
      | some k => keys.insert k
      | none => keys
    match cast.indexed[role]? with
    | some ks => ks.toList.foldl (·.insert ·) keys
    | none => keys) ∅

/-- Sender by signature, recipients exactly the cast's keys of the `:to` roles. -/
def checkConformance (outer simple : Message) (ann : RoleAnnotation) (cast : Cast) :
    VerificationResult :=
  match signerOf outer with
  | none => roleViolation "role-annotated message carries no sender key"
  | some sender =>
      let expected := expectedRecipientKeys ann cast
      let actual := simple.recipientSet
      if !cast.admits ann.from sender then
        roleViolation ("sender '" ++ sender ++ "' is not the cast's occupant of role '"
          ++ ann.from ++ "' (REQ-612)")
      else if expected ≠ actual then
        roleViolation ("recipients " ++ debugSet actual ++ " do not match the cast keys "
          ++ debugSet expected ++ " for :to roles " ++ debugSet ann.to ++ " (REQ-615)")
      else .valid

/-- Root typing: a reference to the thread root itself reads as `begin`. -/
def rewriteRootReferences (cb : CausedBy) (root : ContentHash) : CausedBy :=
  match cb with
  | .single h => if h = root then .begin else .single h
  | other => other

/-- A `with-roles` wrapper is legal only as the thread root, carrying the thread's cast. -/
def verifyCastWrapper (msg : Message) (d : Dialect) (cast : Cast) (store : MessageStore)
    (thread : ThreadId) (root : ContentHash) : VerificationResult :=
  match msg with
  | .wrapped _ params content =>
      match parseWrapperCast params d.roles with
      | .error v => roleViolation v.display
      | .ok parsed =>
          if parsed ≠ cast then
            roleViolation "with-roles wrapper does not match the thread's root cast (REQ-613)"
          else if content.wrapperType ≠ some .signed then
            roleViolation "with-roles payload must be a signed message (CON-601)"
          else if (store.lookupInThread root thread).any (· ≠ msg) then
            roleViolation "a second with-roles wrapper is not the thread root (REQ-613)"
          else if content.innermostSimple.bind Message.causedBy = some .begin then .valid
          else roleViolation "with-roles wrapper must be the thread's causal root (REQ-613)"
  | _ => .unknown

-- ── Occupant-counted fan-in ────

/-- The predecessor types of `(all …)` fan-ins with an indexed sender, and its occupants. -/
def countedPredecessors (d : Dialect) (cast : Cast) (step : StepDecl) :
    List (String × BTreeSet AgentKey) :=
  step.predecessors.flatMap fun
    | .all preds => preds.toList.filterMap fun pred =>
        ((d.annotationOf (repeatBaseName pred)).bind fun ann => cast.indexed[ann.from]?).map
          fun occupants => (pred, occupants)
    | _ => []

/-- Whether a full message is an instance of a predecessor type: by its copy position when
    there is a resolution, by its name otherwise. -/
def isInstance (resolution : Option Resolution) (pred_type hash : String) (simple : Message) :
    Bool :=
  match resolution with
  | some r => r.at hash pred_type = .valid
  | none => simple.performative.map Performative.name = some pred_type

/-- The cast-admitted sender a resolved message counts for. -/
def countedSender (resolution : Option Resolution) (pred_type : String)
    (occupants : BTreeSet AgentKey) (entry : String × Message) : Option String :=
  entry.2.innermostSimple.bind fun simple =>
    if isInstance resolution pred_type entry.1 simple then
      (signerOf entry.2).filter (occupants.contains ·)
    else none

/-- The sealed occupants without an instance among the resolved messages. -/
def missingOccupants (resolution : Option Resolution) (resolved : List (String × Message))
    (counted : String × BTreeSet AgentKey) : List String :=
  let senders := resolved.filterMap (countedSender resolution counted.1 counted.2)
  counted.2.toList.filter (· ∉ senders)

/-- Occupant-counted `(all …)` fan-in: every sealed occupant of an indexed sender must be
    present among the cited full messages. -/
def occupantFanin (perf : String) (caused_by : Option CausedBy) (d : Dialect) (cast : Cast)
    (store : MessageStore) (thread : ThreadId) (resolution : Option Resolution) :
    VerificationResult :=
  match d.causal_protocol.bind (·.steps[perf]?) with
  | none => .valid
  | some step =>
      let counted := countedPredecessors d cast step
      if counted = [] then .valid
      else match caused_by with
        | some (.multiple hs) =>
            match hs.mapM fun h => (store.lookupInThread h thread).map (h, ·) with
            | none => .unknown
            | some resolved =>
                match counted.find? (fun c => missingOccupants resolution resolved c ≠ []) with
                | some c =>
                    roleViolation ("fan-in over '" ++ c.1
                      ++ "' lacks instances from sealed occupant(s) "
                      ++ debugList (missingOccupants resolution resolved c) ++ " (REQ-618)")
                | none => .valid
        | _ => .valid

/-- Choose among candidate copies: a valid one wins at once, an unknown one outlasts
    violations, and without candidates nothing is counted. -/
def chooseCandidate : Option VerificationResult → List VerificationResult → VerificationResult
  | result, [] => result.getD .valid
  | result, value :: rest =>
      match value with
      | .valid => .valid
      | .unknown => chooseCandidate (some .unknown) rest
      | .violation v =>
          if result = some .unknown then chooseCandidate result rest
          else chooseCandidate (some (.violation v)) rest

/-- Copy positions and indexed-role coverage must agree on the same candidate. -/
def repeatOccupantFanin (perf : String) (caused_by : Option CausedBy) (d : Dialect)
    (cast : Cast) (store : MessageStore) (thread : ThreadId) (root : ContentHash) :
    VerificationResult :=
  match d.causal_protocol.filter hasRepeat with
  | none => occupantFanin perf caused_by d cast store thread none
  | some cp =>
      let resolution := Resolution.new store cp thread (some root) (citedHashes caused_by)
      let candidates := cp.steps.toList.filter fun (name, step) =>
        repeatBaseName name = perf ∧ resolution.step step caused_by = .valid
      chooseCandidate none (candidates.map fun (name, _) =>
        occupantFanin name caused_by d cast store thread (some resolution))

-- ── Role-local verification ────

/-- The R5 verdict of a role-local check, with root typing applied to the reference. -/
def rolePredecessors (perf : String) (caused_by : Option CausedBy) (d : Dialect)
    (store : MessageStore) (thread : ThreadId) (root : ContentHash) : VerificationResult :=
  match d.causal_protocol with
  | some protocol =>
      if hasRepeat protocol then
        CbclRepeat.verify perf caused_by store protocol thread (some root)
      else
        verifyCausal perf (caused_by.map (rewriteRootReferences · root)) store protocol thread
  | none => .valid

/-- The text of a dialect-pin mismatch, when root and installed dialect disagree. -/
def pinMismatch (d : Dialect) (cast : Cast) : Option String :=
  match cast.dialect_pin, d.hash with
  | some pinned, some installed =>
      if pinned ≠ installed then some (R6Violation.dialectPinMismatch pinned installed).display
      else none
  | _, _ => none

/-- The meet of conformance, R5 and occupant fan-in for a simple payload. -/
def verifySimple (msg simple : Message) (perf : String) (d : Dialect) (cast : Cast)
    (store : MessageStore) (thread : ThreadId) (root : ContentHash) : VerificationResult :=
  let conformance := match d.annotationOf perf with
    | some ann => checkConformance msg simple ann cast
    | none => .valid
  match conformance with
  | .violation v => .violation v
  | conformance =>
      let r5 := rolePredecessors perf simple.causedBy d store thread root
      let fanin := repeatOccupantFanin perf simple.causedBy d cast store thread root
      (conformance.meet r5).meet fanin

/-- Role-local verification.  The verdict does not depend on the endpoint. -/
def verifyCausalForRole (msg : Message) (_endpoint : Endpoint) (d : Dialect) (cast : Cast)
    (store : MessageStore) (thread : ThreadId) (root : ContentHash) : VerificationResult :=
  match pinMismatch d cast with
  | some reason => roleViolation reason
  | none =>
    if msg.wrapperType = some .withRoles then verifyCastWrapper msg d cast store thread root
    else match msg.innermostSimple with
      | none => .valid
      | some simple =>
          match simple.performative with
          | none => .valid
          | some p => verifySimple msg simple p.name d cast store thread root

-- ── A counter that ticks twice ────

/-- `tick` may be followed by one more `tick`, the copy `tick#2`. -/
def tickProtocol : CausalProtocol where
  steps := Std.ExtTreeMap.ofList
    [("begin", ⟨"begin", [], [.single "tick"]⟩),
     ("tick", ⟨"tick", [.single "begin"], [.single "tick#2"]⟩),
     ("tick#2", ⟨"tick#2", [.single "tick"], []⟩)] compare

/-- The ticking dialect: `clock` sends every tick to nobody. -/
def tickDialect : Dialect where
  name := "ticks"
  performatives := [⟨"tick", some ⟨"clock", ∅⟩⟩]
  hash := none
  causal_protocol := some tickProtocol
  roles := [⟨"clock", .singleton⟩]
  causal_locality := .reject

/-- `@clock` occupies `clock`. -/
def tickCast : Cast := ⟨(∅ : BTreeMap String AgentKey).insert "clock" "@clock", ∅, none⟩

/-- A signed tick. -/
def tick (cause : CausedBy) : Message :=
  .wrapped .signed [.atom (.symbol "@clock")]
    (.simple (.custom "tick") none (.list []) [] (some "t") none (some cause))

end CbclVerifier
