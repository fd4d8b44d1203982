import Cbcl.DialectParserModel
import Cbcl.EvaluatorModel
import Cbcl.TextModel
import Cbcl.ThreadedStoreModel
import Cbcl.VerifierModel

/-!
# The verified pipeline and the agent

`run_pipeline` reads a text and validates the dialect definition of a meta message;
`run_pipeline_full` also verifies causality against every installed dialect, evaluates the message
and checks its shape (`pipeline.rs`).  An agent does the same with its own store and dialects and
applies the effects (`agent.rs`).  What happens to a message with an unknown predecessor is a
policy (`policy.rs`).  Violations carry blame (`blame.rs`).
-/

namespace CbclPipeline

open CbclMessage CbclProtocol CbclStore CbclThreadedStore CbclVerifier CbclShape
open CbclDialect CbclDialectParser CbclEvaluator CbclText

-- ── Policy ────

/-- What to do about unknown predecessors. -/
inductive UnknownPredecessorPolicy where
  | reject
  | buffer (max_pending ttl : Nat)
deriving DecidableEq

/-- Why a message is pending. -/
inductive PendingReason where
  | causalPending
deriving DecidableEq

/-- A verdict under a policy. -/
inductive PolicyOutcome where
  | accept
  | reject (v : CausalViolation)
  | pending (reason : PendingReason)
  | buffered
deriving DecidableEq

/-- Map a verdict to an outcome. -/
def applyPolicy (result : VerificationResult) (policy : UnknownPredecessorPolicy) :
    PolicyOutcome :=
  match result with
  | .valid => .accept
  | .violation v => .reject v
  | .unknown =>
      match policy with
      | .reject => .pending .causalPending
      | .buffer .. => .buffered

-- ── Blame ────

/-- Who is responsible. -/
inductive BlameParty where
  | sender | dialectAuthor | installer
deriving DecidableEq

/-- Which constraint was violated. -/
inductive ViolationKind where
  | shape | causal | r5
deriving DecidableEq

/-- One entry of a blame chain. -/
structure BlameEntry where
  party : BlameParty
  reason : String
  evidence : Option SExpr

/-- A violation with its blame. -/
structure ViolationError where
  kind : ViolationKind
  blame_chain : List BlameEntry
  detail : String
  recipient : Option String := none
  dialect : Option String := none
  dialect_author : Option String := none
  dialect_hash : Option String := none
  performative : Option String := none
  verifier : Option String := none
  message_hash : Option String := none
  caused_by : Option String := none
  rule : Option String := none
  field : Option String := none
  expected : Option String := none
  found : Option String := none
  thread_id : Option String := none

/-- The text of a causal violation. -/
def causalViolationText : CausalViolation → String
  | .unknownPredecessor caused_by => "unknown predecessor: " ++ caused_by
  | .invalidPredecessor caused_by expected found =>
      "invalid predecessor " ++ caused_by ++ ": expected one of ["
        ++ ", ".intercalate expected ++ "], found " ++ found
  | .missingCausedBy => "missing :caused-by"
  | .incompleteFanIn missing_types =>
      "incomplete fan-in: missing types [" ++ ", ".intercalate missing_types ++ "]"
  | .extraneousPredecessor caused_by found =>
      "extraneous predecessor " ++ caused_by ++ ": found " ++ found
  | .fanInWithoutAllDecl performative =>
      "fan-in without (all ...) declaration for " ++ performative
  | .roleConformance reason => "role conformance: " ++ reason

/-- The predecessor a causal violation names. -/
def violationCause : CausalViolation → Option String
  | .unknownPredecessor caused_by => some caused_by
  | .invalidPredecessor caused_by _ _ => some caused_by
  | _ => none

namespace ViolationError

/-- Blame the sender of a causal violation. -/
def fromCausalViolation (v : CausalViolation) (message_hash thread_id : Option String) :
    ViolationError where
  kind := .causal
  blame_chain := [⟨.sender, causalViolationText v, none⟩]
  detail := causalViolationText v
  message_hash
  thread_id
  caused_by := violationCause v

/-- Blame the sender of a shape violation. -/
def fromShapeViolation (v : ShapeViolation) (message_hash thread_id : Option String)
    (evidence : Option SExpr) : ViolationError where
  kind := .shape
  blame_chain := [⟨.sender, "shape rule '" ++ v.rule ++ "' violated: " ++ v.detail, evidence⟩]
  detail := "shape violation: " ++ v.detail
  message_hash
  thread_id
  rule := some v.rule
  field := v.field
  expected := v.expected
  found := v.found

/-- Name the dialect and the performative. -/
def withDialectContext (e : ViolationError) (d : Dialect) (performative : String) :
    ViolationError :=
  { e with dialect := some d.name, dialect_author := d.author, dialect_hash := d.hash
           performative := some performative }

end ViolationError

-- ── Validation of definitions ────

/-- Validation errors. -/
inductive ValidationError where
  | r1RecursivePerformative (performatives : List String)
  | r2ResourceBoundsInvalid (field : String) (value : UInt32)
  | r2FuelExhausted
  | r3CoreOverride (performatives : List String)
  | r4SignatureInvalid
  | r5Violation (errors : List String)
  | causalViolation (violation : CausalViolation) (blame : ViolationError)
  | shapeViolation (violation : ShapeViolation) (blame : ViolationError)
  | malformedMessage (reason : String)
  | malformedDialect (reason : String)

/-- The name of a parent, with its shorthand resolved. -/
def resolveParent (name : String) : String := if name = "cbcl" then "cbcl-base" else name

/-- The ancestors a definition is checked with: the installed parents, and the base dialect where
    it is named and was not found. -/
def definitionAncestors (d : Dialect) (registry : Option DialectRegistry) : List Dialect :=
  let parents := match registry with
    | none => []
    | some r => d.extends.filterMap fun name => r.findByName (resolveParent name)
  let credited_base := registry.any fun r =>
    d.extends.any fun name =>
      resolveParent name = baseDialect.name && (r.findByName (resolveParent name)).isSome
  if !credited_base && d.extends.any (fun name => name = "cbcl" || name = baseDialect.name) then
    parents ++ [baseDialect]
  else parents

/-- Validate a `(define …)` form. -/
def validateDefineDialect (dialect_def : SExpr) (registry : Option DialectRegistry) :
    Except ValidationError Unit :=
  match parseDialect dialect_def with
  | .error reason => .error (.malformedDialect reason)
  | .ok d =>
      let recursive := r1Violations d
      if recursive ≠ [] then .error (.r1RecursivePerformative recursive)
      else match invalidResourceBound d with
        | some (field, value) => .error (.r2ResourceBoundsInvalid field value)
        | none =>
            let overrides := r3Violations d
            if overrides ≠ [] then .error (.r3CoreOverride overrides)
            else
              let r5_errors := r5ViolationsWithAncestors d (definitionAncestors d registry)
              if r5_errors ≠ [] then .error (.r5Violation r5_errors) else .ok ()

/-- Whether an S-expression is a `(define …)` form. -/
def isDefineForm : SExpr → Bool
  | .list (head :: _) => isSymbol "define" head
  | _ => false

/-- Validate the definition of a meta message: the form itself, or the first definition a
    `(teach …)` form carries. -/
def validateMetaDialect (message : Message) (registry : Option DialectRegistry) :
    Except ValidationError Unit :=
  match message with
  | .metaDef (.list (head :: items)) =>
      if isSymbol "define" head then validateDefineDialect (.list (head :: items)) registry
      else if isSymbol "teach" head then
        match items.find? isDefineForm with
        | some item => validateDefineDialect item registry
        | none => .ok ()
      else .ok ()
  | _ => .ok ()

-- ── The pipelines ────

/-- The result of a pipeline. -/
inductive PipelineResult where
  | success (message : Message)
  | parseError (e : ParseError)
  | validationError (e : ValidationError)
  | pending (message : Message) (reason : PendingReason)
  | buffered (message : Message)

/-- Read and validate a text. -/
def runPipeline (input : String) : PipelineResult :=
  match parse input with
  | .error e => .parseError e
  | .ok sexpr =>
      match CbclRecogniser.tryFrom sexpr with
      | .error reason => .validationError (.malformedMessage reason)
      | .ok message =>
          match validateMetaDialect message none with
          | .error err => .validationError err
          | .ok () => .success message

/-- The runtime context of the full pipeline. -/
structure PipelineContext where
  registry : DialectRegistry
  store : MessageStore
  policy : UnknownPredecessorPolicy

/-- The thread a message is verified in. -/
def threadOrDefault (thread : Option String) : ThreadId := thread.getD "default"

/-- The dialects that take part in the verification of a performative: those with a protocol step
    of its name. -/
def participates (perf : String) (d : Dialect) : Option CausalProtocol :=
  d.causal_protocol.filter fun proto => proto.steps.contains perf

/-- Verify a message against the installed dialects in turn; the first outcome other than
    acceptance is the result. -/
def verifyDialects (ctx : PipelineContext) (message : Message) (perf : String)
    (caused_by : Option CausedBy) (thread : Option String) :
    List Dialect → Option PipelineResult
  | [] => none
  | d :: rest =>
      match participates perf d with
      | none => verifyDialects ctx message perf caused_by thread rest
      | some proto =>
          match applyPolicy (verifyCausal perf caused_by ctx.store proto (threadOrDefault thread))
              ctx.policy with
          | .accept => verifyDialects ctx message perf caused_by thread rest
          | .reject cv => some (.validationError (.causalViolation cv
              ((ViolationError.fromCausalViolation cv none thread).withDialectContext d perf)))
          | .pending reason => some (.pending message reason)
          | .buffered => some (.buffered message)

/-- The first shape of a performative an expansion violates. -/
def checkDialectShapes (perf : String) (expanded : SExpr) (thread : Option String) :
    List Dialect → Except ValidationError Unit
  | [] => .ok ()
  | d :: rest => do
      d.shapes.forM fun shape =>
        if shape.performative = perf then
          match shape.check expanded with
          | .ok () => .ok ()
          | .error sv => .error (.shapeViolation sv
              ((ViolationError.fromShapeViolation sv none thread (some expanded)).withDialectContext
                d perf))
        else .ok ()
      checkDialectShapes perf expanded thread rest

/-- Evaluation errors as validation errors. -/
def evalErrorToValidation (err : EvalError) (thread : Option String) : ValidationError :=
  match err with
  | .unknownPerformative name => .malformedMessage ("unknown performative: " ++ name)
  | .unscopedDialectPerformative name =>
      .malformedMessage ("dialect performative '" ++ name
        ++ "' invoked outside (lang <dialect> ...); "
        ++ "the message must name the dialect that defines it")
  | .templateExpansionFailed _ => .r2FuelExhausted
  | .unknownDialect name => .malformedMessage ("unknown dialect: " ++ name)
  | .malformedMessage reason => .malformedMessage reason
  | .shapeViolation sv => .shapeViolation sv (.fromShapeViolation sv none thread none)

/-- The steps after reading and validation: verify, evaluate, check the shape.  Wrappers and scopes
    defer to the innermost simple message. -/
def runChecks (ctx : PipelineContext) (message : Message) : PipelineResult :=
  match message.innermostSimple with
  | some (.simple performative _ _ _ thread _ caused_by) =>
      match verifyDialects ctx message performative.name caused_by thread ctx.registry.dialects with
      | some result => result
      | none =>
          match evaluateWithoutShapeCheck message ctx.registry with
          | .error e => .validationError (evalErrorToValidation e thread)
          | .ok result =>
              match checkDialectShapes performative.name result.expanded thread
                  ctx.registry.dialects with
              | .error e => .validationError e
              | .ok () => .success message
  | _ => .success message

/-- Read, validate, verify, evaluate and check a text. -/
def runPipelineFull (input : String) (ctx : PipelineContext) : PipelineResult :=
  match parse input with
  | .error e => .parseError e
  | .ok sexpr =>
      match CbclRecogniser.tryFrom sexpr with
      | .error reason => .validationError (.malformedMessage reason)
      | .ok message =>
          match validateMetaDialect message (some ctx.registry) with
          | .error err => .validationError err
          | .ok () => runChecks ctx message

-- ── The agent ────

/-- How the verdicts of several protocols are combined. -/
inductive MergePolicy where
  | conjunction | disjunction
deriving DecidableEq

/-- The strictest outcome wins. -/
def mergePolicyOutcomes : PolicyOutcome → PolicyOutcome → PolicyOutcome
  | .reject v, _ => .reject v
  | _, .reject v => .reject v
  | .pending left, .pending _ => .pending left
  | .pending r, _ => .pending r
  | _, .pending r => .pending r
  | .buffered, _ => .buffered
  | _, .buffered => .buffered
  | .accept, .accept => .accept

/-- One acceptance is enough. -/
def mergePolicyOutcomesDisjunctive : PolicyOutcome → PolicyOutcome → PolicyOutcome
  | .accept, _ => .accept
  | _, .accept => .accept
  | .pending r, _ => .pending r
  | _, .pending r => .pending r
  | .buffered, _ => .buffered
  | _, .buffered => .buffered
  | .reject v, _ => .reject v

/-- A buffered message. -/
structure PendingEntry where
  hash : ContentHash
  message : Message
  thread : ThreadId
  performative : String
  caused_by : Option CausedBy
  inserted_at : Nat

/-- Bounded queues of buffered messages, by thread. -/
structure PendingQueue where
  max_pending : Nat
  ttl : Nat
  queues : BTreeMap ThreadId (List PendingEntry)

/-- Enqueue; a full queue loses its oldest entry. -/
def PendingQueue.enqueue (q : PendingQueue) (entry : PendingEntry) : PendingQueue :=
  let queue := (q.queues[entry.thread]?).getD []
  let kept := if queue.length ≥ q.max_pending then queue.tail else queue
  { q with queues := q.queues.insert entry.thread (kept ++ [entry]) }

/-- An agent. -/
structure Agent where
  id : String
  beliefs : Finset SExpr
  dialect_registry : DialectRegistry
  message_queue : List Message
  conversation_threads : BTreeMap String (List Message)
  message_store : ThreadedMessageStore
  policy : UnknownPredecessorPolicy
  pending_queue : PendingQueue
  merge_policy : MergePolicy

/-- The outcome of a message at an agent. -/
inductive AgentOutcome where
  | applied (result : EvalResult)
  | causalReject (v : CausalViolation)
  | pending (reason : PendingReason)
  | buffered
  | evalError (e : EvalError)

/-- Whether every hash a causal reference names is in the store. -/
def causedByResolved (caused_by : Option CausedBy) (store : ThreadedMessageStore)
    (thread : ThreadId) : Bool :=
  (citedHashes caused_by).all fun h => store.contains h thread

/-- A violation found before the references are resolved is provisional. -/
def gateUnresolvedViolation (result : VerificationResult) (resolved : Bool) :
    VerificationResult :=
  match result with
  | .violation v => if resolved then .violation v else .unknown
  | r => r

namespace Agent

/-- The outcome of one protocol. -/
def protocolOutcome (a : Agent) (perf : String) (caused_by : Option CausedBy) (thread : ThreadId)
    (proto : CausalProtocol) : PolicyOutcome :=
  applyPolicy (gateUnresolvedViolation
    (verifyCausal perf caused_by a.message_store.toStore proto thread)
    (causedByResolved caused_by a.message_store thread)) a.policy

/-- Whether a decision ends the walk over the dialects. -/
def decided (a : Agent) (decision : PolicyOutcome) : Bool :=
  match a.merge_policy, decision with
  | .conjunction, .reject _ => true
  | .disjunction, .accept => true
  | _, _ => false

/-- Combine the outcomes of the dialects in turn. -/
def verdictOver (a : Agent) (perf : String) (caused_by : Option CausedBy) (thread : ThreadId) :
    Option PolicyOutcome → List Dialect → Option PolicyOutcome
  | decision, [] => decision
  | decision, d :: rest =>
      match participates perf d with
      | none => a.verdictOver perf caused_by thread decision rest
      | some proto =>
          let outcome := a.protocolOutcome perf caused_by thread proto
          let next := match decision with
            | none => outcome
            | some prev =>
                match a.merge_policy with
                | .conjunction => mergePolicyOutcomes prev outcome
                | .disjunction => mergePolicyOutcomesDisjunctive prev outcome
          if a.decided next then some next else a.verdictOver perf caused_by thread (some next) rest

/-- Causal verification and policy; `none` where no protocol constrains the message. -/
def causalVerdict (a : Agent) (msg : Message) : Option PolicyOutcome :=
  match msg.innermostSimple with
  | some (.simple performative _ _ _ thread _ caused_by) =>
      a.verdictOver performative.name caused_by (threadOrDefault thread) none
        a.dialect_registry.dialects
  | _ => none

/-- Buffer a message under the data of its innermost simple message. -/
def bufferPending (a : Agent) (msg : Message) (now : Nat) : Agent :=
  match msg.innermostSimple with
  | some (.simple performative _ _ _ thread _ caused_by) =>
      let entry : PendingEntry :=
        ⟨"", msg, threadOrDefault thread, performative.name, caused_by, now⟩
      { a with pending_queue := a.pending_queue.enqueue entry }
  | _ => a

/-- Apply the effects an agent applies itself. -/
def applyEffect (a : Agent) : Effect → Agent
  | .storeBelief belief => { a with beliefs := insert belief a.beliefs }
  | .removeBelief belief => { a with beliefs := a.beliefs.erase belief }
  | _ => a

/-- Append a message to a conversation. -/
def appendToThread (a : Agent) (thread : Option String) (msg : Message) : Agent :=
  match thread with
  | none => a
  | some t => { a with conversation_threads :=
      a.conversation_threads.insert t (((a.conversation_threads[t]?).getD []) ++ [msg]) }

/-- Evaluate a message and apply its effects, unless verification stops it. -/
def evaluateAndApplyAt (a : Agent) (msg : Message) (now : Nat) : AgentOutcome × Agent :=
  match a.causalVerdict msg with
  | some (.reject cv) => (.causalReject cv, a)
  | some (.pending reason) => (.pending reason, a)
  | some .buffered => (.buffered, a.bufferPending msg now)
  | _ =>
      match evaluate msg a.dialect_registry with
      | .error e => (.evalError e, a)
      | .ok result =>
          (.applied result,
            (result.effects.foldl applyEffect a).appendToThread result.thread msg)

end Agent

end CbclPipeline
