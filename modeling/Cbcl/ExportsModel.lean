import Cbcl.ActModel
import Cbcl.R7Model
import Cbcl.StateShapeModel
import Cbcl.ThreadedStoreModel
import Cbcl.VerifierModel

/-!
# The admission export

`admit` (`state_exports.rs`) judges one act against an accepted set: its shapes alone, then its
causal reference over the store of the accepted acts and itself, under the cast of the accepted
root when the dialect declares roles.  `Instance` (`intend.rs`) is the context it reads off the
accepted acts.
-/

namespace CbclExports

open CbclMessage CbclProtocol CbclStore CbclThreadedStore CbclAct CbclShape CbclStateShape
open CbclVerifier CbclDialect
open CbclRole hiding Dialect PerformativeDef

-- ── Texts ────

/-- The text of a causal violation. -/
def causalText : CausalViolation → String
  | .unknownPredecessor caused_by => "unknown predecessor: " ++ caused_by
  | .invalidPredecessor caused_by expected found =>
      "invalid predecessor " ++ caused_by ++ ": expected one of [" ++ ", ".intercalate expected
        ++ "], found " ++ found
  | .missingCausedBy => "missing :caused-by"
  | .incompleteFanIn missing_types =>
      "incomplete fan-in: missing types [" ++ ", ".intercalate missing_types ++ "]"
  | .extraneousPredecessor caused_by found =>
      "extraneous predecessor " ++ caused_by ++ ": found " ++ found
  | .fanInWithoutAllDecl performative =>
      "fan-in without (all ...) declaration for " ++ performative
  | .roleConformance reason => "role conformance: " ++ reason

-- ── The instance of a thread ────

/-- The act of the least address, the first of several. -/
def leastAct : List Act → Option Act
  | [] => none
  | a :: rest => some (rest.foldl (fun least b => if b.address < least.address then b else least) a)

/-- The root of a thread: a cast-bearing act without predecessors. -/
def root (acts : List Act) : Option Act :=
  leastAct (acts.filter fun a =>
    a.predecessors.isEmpty && a.message.wrapperType = some .withRoles)

/-- The act of the opener verb; of a repeated opener only one that follows `begin` or the root. -/
def opener (protocol : CausalProtocol) (acts : List Act) : Option Act :=
  (CbclR7.openerVerb protocol).bind fun verb =>
    let repeated := protocol.steps.keys.any fun name =>
      isCopyName name && repeatBaseName name = verb
    let rt := root acts
    leastAct (acts.filter fun a => a.verb = verb &&
      (!repeated || a.simple.causedBy = some .begin ||
        rt.any fun r => a.predecessors = [r.address]))

/-- Read the cast from the `with-roles` wrapper of a root message. -/
def castOf (dialect : Dialect) : Message → Except String Cast
  | .wrapped .withRoles params _ =>
      match parseWrapperCast params dialect.roles with
      | .ok parsed => .ok parsed
      | .error e => .error e.display
  | .wrapped _ _ content => castOf dialect content
  | .dialect _ inner => castOf dialect inner
  | .simple .. =>
      .error "the root of a role-declaring dialect must carry a with-roles wrapper"
  | .metaDef _ =>
      .error "the root of a role-declaring dialect must carry a with-roles wrapper"

/-- What a state function may read of a thread. -/
structure Instance where
  dialect : Dialect
  thread : ThreadId
  acts : List Act
  opener : Option Act
  root : Option Act
  cast : Option Cast

namespace Instance

/-- The instance of some accepted acts. -/
def new (dialect : Dialect) (thread : ThreadId) (acts : List Act) : Except String Instance :=
  let op := dialect.causal_protocol.bind fun p => CbclExports.opener p acts
  if dialect.roles.isEmpty then .ok ⟨dialect, thread, acts, op, none, none⟩
  else
    match CbclExports.root acts with
    | none => .ok ⟨dialect, thread, acts, op, none, none⟩
    | some r =>
        match castOf dialect r.message with
        | .ok parsed => .ok ⟨dialect, thread, acts, op, some r, some parsed⟩
        | .error e => .error e

/-- The accepted acts as a store, each under its address. -/
def store (i : Instance) : ThreadedMessageStore :=
  i.acts.foldl (fun s a => (s.append a.address i.thread a.message).2) .new

/-- The address of the accepted opener. -/
def instanceId (i : Instance) : Option String := i.opener.map (·.address)

end Instance

-- ── Admission ────

/-- The verdict of the export. -/
inductive Admission where
  | accepted
  | pending
  | rejected (reason : String)
deriving DecidableEq

/-- The first shape of the act's verb that its simple message breaks. -/
def brokenShape (d : Dialect) (act : Act) : Option ShapeViolation :=
  (d.shapes.filter (·.performative = act.verb)).findSome? fun shape =>
    match shape.check (CbclRecogniser.toSExpr act.simple) with
    | .ok () => none
    | .error v => some v

/-- The causal stage: the verdict on an act over the store, or the refusal of a root. -/
def causalVerdict (d : Dialect) (protocol : CausalProtocol) (thread : ThreadId)
    (inst : Instance) (store : ThreadedMessageStore) (act : Act) :
    Except String VerificationResult :=
  let endpoint : Endpoint := ⟨"", some act.signer⟩
  match inst.cast, inst.root with
  | some rootCast, some root =>
      .ok (verifyCausalForRole act.message endpoint d.roleLayer rootCast store.toStore thread
        root.address)
  | _, _ =>
      if d.roles.isEmpty then
        .ok (verifyCausal act.verb act.simple.causedBy store.toStore protocol thread)
      else if act.predecessors.isEmpty then
        match castOf d act.message with
        | .ok ownCast =>
            .ok (verifyCausalForRole act.message endpoint d.roleLayer ownCast store.toStore thread
              act.address)
        | .error e => .error ("root: " ++ e)
      else .ok .unknown

/-- Admission of an act over the accepted acts of its thread. -/
def admitAct (d : Dialect) (thread : ThreadId) (accepted : List Act) (act : Act) : Admission :=
  match d.causal_protocol with
  | none => .rejected "dialect has no protocol clause"
  | some protocol =>
      match verifyStateShape d act.message with
      | .error v => .rejected ("state shape: " ++ violationText v)
      | .ok () =>
          match brokenShape d act with
          | some v => .rejected ("shape: " ++ violationText v)
          | none =>
              match Instance.new d thread accepted with
              | .error e => .rejected e
              | .ok inst =>
                  let store := (inst.store.append act.address thread act.message).2
                  match causalVerdict d protocol thread inst store act with
                  | .error e => .rejected e
                  | .ok .valid => .accepted
                  | .ok .unknown => .pending
                  | .ok (.violation v) => .rejected (causalText v)

end CbclExports
