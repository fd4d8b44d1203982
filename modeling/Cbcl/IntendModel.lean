import Cbcl.ExportsModel
import Cbcl.RepeatModel
import Cbcl.StateModel
import Cbcl.TextModel

/-!
# The intent binder

`intend` (`intend.rs`) completes a verb and its data fields into a canonical act over the
accepted acts of a thread: it gates the role and the domains, finds recipients, replaced writes,
predecessors and the bookkeeping of a counter (`escrow.rs`), and verifies what it has built.
-/

namespace CbclIntend

open CbclMessage CbclProtocol CbclStore CbclThreadedStore CbclAct CbclShape CbclStateShape
open CbclVerifier CbclDialect CbclRepeat CbclState CbclEscrow CbclExports CbclText
open CbclDialectParser
open CbclRole hiding Dialect PerformativeDef

/-- Why an intent was rejected. -/
inductive Reject where
  | unknownVerb
  | openerVerb
  | forge (field : String)
  | role (required : String)
  | domain (field : String)
  | nothingToDelete
  | noPredecessor
  | shape (v : ShapeViolation)
  | notValid (v : VerificationResult)
  | noOpener
  | resource (reason : String)

/-- Whether a verb has copies in a protocol. -/
def isRepeated (protocol : CausalProtocol) (verb : String) : Bool :=
  protocol.steps.keys.any fun name => isCopyName name && repeatBaseName name = verb

-- ── Resource histories in context ────

/-- The keywords of the pairs of a parameter list. -/
def pairKeys : List SExpr → List String
  | .atom (.keyword k) :: _ :: rest => k :: pairKeys rest
  | [.atom (.keyword k)] => [k]
  | _ :: _ :: rest => pairKeys rest
  | _ => []

/-- What is wrong with a resource act in the context of a dialect and a thread. -/
def contextFault (d : Dialect) (thread : ThreadId) (a : Act) : Option String :=
  if !(verifyStateShape d a.message).isOk || (brokenShape d a).isSome then
    some "invalid resource message shape"
  else if ¬ (pairKeys (params a.simple)).Nodup then some "duplicate resource keyword"
  else if a.simple.thread ≠ some thread ∨ lang a.message ≠ some d.name then
    some "resource history context mismatch"
  else none

/-- The acts an opener names as its predecessors. -/
def openerRoots (acts : List Act) (op : Act) : List Act :=
  acts.filter fun a => op.predecessors.any fun id => resourceStateId id = a.address

/-- Whether a root of a resource is out of context. -/
def rootFault (d : Dialect) (thread : ThreadId) (rt : Act) : Bool :=
  rt.verb ≠ "hello" || rt.simple.thread ≠ some thread || !rt.predecessors.isEmpty ||
    !(castOf d rt.message).isOk

/-- The symbols of some addresses as a list. -/
def addressList (addresses : List String) : SExpr :=
  .list (addresses.map fun a => .atom (.symbol a))

section Acts

variable (contentHash : Message → String)

/-- The observation of a counter in the context of a dialect and a thread. -/
def observeIn (d : Dialect) (thread : ThreadId) (c : CounterRule) (acts : List Act) : Outcome :=
  match (acts.filter fun a => c.verbs.contains a.verb).findSome? fun a =>
      (contextFault d thread a).map (·, a.address) with
  | some (reason, address) => .fault reason [address]
  | none =>
      match ((acts.filter fun a => a.verb = c.initial_verb).flatMap (openerRoots acts)).find?
          (rootFault d thread) with
      | some rt => .fault "resource root context mismatch" [rt.address]
      | none => observe contentHash c acts

/-- The bookkeeping fields of a counter operation: the signer's last operation and those of the
    other accounts. -/
def bookkeeping (d : Dialect) (acts : List Act) (thread : ThreadId) (signer verb : String) :
    Except String (List (String × SExpr)) :=
  match ruleFor d verb with
  | none => .ok []
  | some (_, c) =>
      match observeIn contentHash d thread c acts with
      | .ready snapshot =>
          if signer ∉ snapshot.rights then .error "signer is not a resource account"
          else
            let prev := (snapshot.tips[signer]?).getD snapshot.opener
            let deps : BTreeSet String := ((snapshot.tips.toList.filter (·.1 ≠ signer)).map
              (·.2)).foldl (·.insert ·) ∅
            if deps.toList.length > (boundsOf d).max_list.toNat then
              .error "escrow dependency limit exceeded"
            else .ok [(PREV, .atom (.symbol prev)),
              (DEPS, addressList deps.toList)]
      | other => .error (outcomeValue other).render

-- ── Admission of an intent ────

/-- The keywords a caller may not supply. -/
def isForged (key : String) : Bool :=
  ROUTING_KEYWORDS.contains key || key = RESERVED_REPLACES || key = PREV || key = DEPS ||
    key = NONCE

/-- The role of a verb must be one the signer occupies. -/
def roleGate (inst : Instance) (signer : AgentKey) (verb : String) : Except Reject Unit :=
  match inst.cast, inst.dialect.roleLayer.annotationOf verb with
  | some c, some ann =>
      if c.admits ann.from signer then .ok () else .error (.role ann.from)
  | _, _ => .ok ()

/-- The domains of a verb must allow the supplied values. -/
def domainGate (clause : StateClause) (state : State) (verb : String)
    (fields : BTreeMap String SExpr) : Except Reject Unit :=
  (clause.domains.filter (·.1 = verb)).forM fun (_, key, field) =>
    let allowed := ((state.find? (·.1 = field)).map fun e => allowedValues e.2).getD []
    if ((fields[key]?).map Value.fromSExpr).any fun v =>
        allowed.any fun x => x.render = v.render then .ok ()
    else .error (.domain key)

/-- The recipients of a verb: the cast's keys of its `:to` roles, else the opener's. -/
def recipientsOf (inst : Instance) (verb : String) : Except Reject (BTreeSet String) :=
  match inst.cast, inst.dialect.roleLayer.annotationOf verb with
  | some c, some ann => .ok (expectedRecipientKeys ann c)
  | _, _ =>
      match inst.opener with
      | some op => .ok op.recipients
      | none => .error .noOpener

-- ── Replaced writes ────

/-- Addresses sorted, without repetition, up to a bound. -/
def settleAddresses (bound : UInt32) (addresses : List String) : List String :=
  ((addresses.insertionSort (· ≤ ·)).destutter (· ≠ ·)).take bound.toNat

/-- How a verb writes or deletes under a rule: the writer, its key, its deleter, and whether the
    verb deletes. -/
def bindingOf (verb : String) : Rule → Option (String × Option String × Option String × Bool)
  | .values w _ => if w = verb then some (w, none, none, false) else none
  | .valuesPerKey w key _ delete =>
      if w = verb then some (w, some key, delete, false)
      else if delete = some verb then some (w, some key, delete, true) else none
  | .lwwMap w key _ _ delete =>
      if w = verb then some (w, some key, delete, false)
      else if delete = some verb then some (w, some key, delete, true) else none
  | .observedSet add remove key =>
      if remove = verb then some (add, some key, some remove, true) else none
  | _ => none

/-- Whether an act has the key value of the supplied fields. -/
def sameKey (fields : BTreeMap String SExpr) (key : Option String) (a : Act) : Bool :=
  match key with
  | none => true
  | some k =>
      match a.fields[k]?, fields[k]? with
      | some x, some y => (Value.fromSExpr x).render = (Value.fromSExpr y).render
      | _, _ => false

/-- The addresses one rule makes an act of the verb replace. -/
def replacedUnder (clause : StateClause) (acts : List Act) (bound : UInt32) (signer verb : String)
    (fields : BTreeMap String SExpr) (replaces : Option (List String)) (rule : Rule) :
    Except Reject (Option (List String)) :=
  match rule with
  | .lwwPerSigner writer _ _ =>
      if writer = verb then
        let addresses := (((kernelFor contentHash clause acts).currentBySigner writer).filter
          (·.signer = signer)).map (·.address)
        .ok (some (settleAddresses bound (replaces.getD [] ++ addresses)))
      else .ok replaces
  | rule =>
      match bindingOf verb rule with
      | none => .ok replaces
      | some (writer, key, delete, is_delete) =>
          let kernel := kernelFor contentHash clause acts
          let written := ((kernel.current writer key delete).filter (sameKey fields key)).map
            (·.address)
          if is_delete && written.isEmpty then .error .nothingToDelete
          else
            let deleted := if is_delete then [] else
              (delete.map fun dv => ((kernel.current dv key (some writer)).filter
                (sameKey fields key)).map (·.address)).getD []
            let addresses := settleAddresses bound (written ++ deleted)
            match replaces with
            | none => .ok (some addresses)
            | some existing => .ok (some (settleAddresses bound (existing ++ addresses)))

/-- The addresses an act of the verb replaces, over all rules. -/
def replacedBy (clause : StateClause) (acts : List Act) (bound : UInt32) (signer verb : String)
    (fields : BTreeMap String SExpr) : Except Reject (Option (List String)) :=
  (clause.fields.map (·.2)).foldlM
    (replacedUnder contentHash clause acts bound signer verb fields) none

end Acts

-- ── Predecessors ────

/-- The greatest address of some acts. -/
def greatestAddress : List Act → Option String
  | [] => none
  | a :: rest => some (rest.foldl (fun greatest b =>
      if b.address < greatest then greatest else b.address) a.address)

/-- The signer's own tip among some candidates, else the greatest of them. -/
def pickPredecessor (signer : String) (candidates : List Act) : Option String :=
  let own := candidates.filter (·.signer = signer)
  if own.isEmpty then greatestAddress candidates
  else
    let tips := own.filter fun a => !(own.flatMap (·.predecessors)).contains a.address
    greatestAddress (if tips.isEmpty then own else tips)

/-- A predecessor among the acts of some types. -/
def chooseTypedPredecessor (inst : Instance) (signer : String) (allowed : List String)
    (resolution : Option Resolution) : Option String :=
  pickPredecessor signer (inst.acts.filter fun a =>
    match resolution with
    | some r => allowed.any fun name => r.at a.address name = .valid
    | none => allowed.contains a.verb)

/-- One instance of a name for every occupant of its indexed role, else one. -/
def chooseInstances (inst : Instance) (signer : String) (resolution : Resolution)
    (name : String) : Option (List String) :=
  match (inst.dialect.roleLayer.annotationOf (repeatBaseName name)).bind fun ann =>
      inst.cast.bind fun c => c.indexed[ann.from]? with
  | some occupants => occupants.toList.mapM fun who =>
      greatestAddress (inst.acts.filter fun a =>
        a.signer = who && resolution.at a.address name = .valid)
  | none => (chooseTypedPredecessor inst signer [name] (some resolution)).map fun h => [h]

/-- The reference a node of a step with copies can be given. -/
def repeatNode (inst : Instance) (signer : String) (resolution : Resolution) (node : NodeRef) :
    Option CausedBy :=
  if node.performatives.contains BEGIN_KEYWORD then none
  else match node with
    | .all _ =>
        match node.performatives.mapM (chooseInstances inst signer resolution) with
        | some groups =>
            if groups.flatten.isEmpty then none
            else some (.multiple ((groups.flatten.insertionSort (· ≤ ·)).destutter (· ≠ ·)))
        | none => none
    | _ => (chooseTypedPredecessor inst signer node.performatives (some resolution)).map .single

/-- The reference of a verb of a protocol with copies: the furthest position that is ready and,
    for a repeated verb, not taken. -/
def repeatCause (inst : Instance) (signer verb : String) : Except Reject CausedBy :=
  match inst.dialect.causal_protocol with
  | none => .error .noPredecessor
  | some protocol =>
      let resolution := Resolution.new inst.store.toStore protocol inst.thread
        (inst.root.map (·.address)) (inst.acts.map (·.address))
      let open_names := resolution.order.reverse.filter fun name =>
        repeatBaseName name = verb && !(isRepeated protocol verb &&
          inst.acts.any fun a => resolution.at a.address name = .valid)
      match open_names.findSome? fun name =>
          (((protocol.steps[name]?).map (·.predecessors)).getD []).findSome?
            (repeatNode inst signer resolution) with
      | some cause => .ok cause
      | none => .error .noPredecessor

/-- The predecessors of the first node of a step that has some, and whether an `all` node was
    met. -/
def chooseNodes (inst : Instance) (signer : String) : Bool → List NodeRef →
    Except Reject (Bool × List String)
  | fan_in, [] => .ok (fan_in, [])
  | fan_in, .single s :: rest =>
      match chooseTypedPredecessor inst signer [s] none with
      | some p => .ok (fan_in, [p])
      | none => if s = BEGIN_KEYWORD then .error .openerVerb else chooseNodes inst signer fan_in rest
  | fan_in, .any set :: rest =>
      match chooseTypedPredecessor inst signer set.toList none with
      | some p => .ok (fan_in, [p])
      | none => chooseNodes inst signer fan_in rest
  | _, .all set :: rest =>
      match set.toList.mapM fun s => chooseTypedPredecessor inst signer [s] none with
      | some (p :: ps) => .ok (true, p :: ps)
      | _ => chooseNodes inst signer true rest

/-- The causal reference of an act of the verb. -/
def causeOf (inst : Instance) (protocol : CausalProtocol) (signer verb : String) :
    Except Reject CausedBy :=
  if hasRepeat protocol then repeatCause inst signer verb
  else
    match (protocol.steps[verb]?).map (·.predecessors) with
    | none => .error .noPredecessor
    | some [] => .error .noPredecessor
    | some steps =>
        match chooseNodes inst signer false steps with
        | .error e => .error e
        | .ok (_, []) => .error .noPredecessor
        | .ok (fan_in, p :: ps) =>
            if fan_in && !ps.isEmpty then .ok (.multiple ((p :: ps).insertionSort (· ≤ ·)))
            else .ok (.single p)

-- ── The binder ────

/-- Supplied fields must be declared for the verb. -/
def checkDeclared (d : Dialect) (verb : String) (fields : BTreeMap String SExpr) :
    Except Reject Unit :=
  fields.keys.forM fun k =>
    if (declaredKeywords d.shapes verb).contains k then .ok ()
    else .error (.shape (violation "closed" (some (":" ++ k))
      ("undeclared field :" ++ k ++ " on '" ++ verb ++ "'")))

/-- Keyword parameters as items. -/
def pairItems (pairs : List (String × SExpr)) : List SExpr :=
  pairs.flatMap fun (k, v) => [.atom (.keyword k), v]

/-- The recipient position of some recipients. -/
def recipientOf (recipients : BTreeSet String) : Option Recipients :=
  match recipients.toList with
  | [] => none
  | [r] => some (.one r)
  | _ => some (.set recipients)

/-- What the binder adds to the fields: the bookkeeping, the replaced addresses and the sender. -/
def addedPairs (bookkeeping : List (String × SExpr)) (replaces : Option (List String))
    (signer : AgentKey) : List (String × SExpr) :=
  bookkeeping ++ (replaces.map fun addresses => (RESERVED_REPLACES, addressList addresses)).toList
    ++ [("from", .atom (.symbol signer))]

/-- The keyword parameters of an act. -/
def pairsOf (fields : BTreeMap String SExpr) (bookkeeping : List (String × SExpr))
    (replaces : Option (List String)) (signer : AgentKey) : List (String × SExpr) :=
  fields.toList ++ addedPairs bookkeeping replaces signer

/-- The simple message of an act. -/
def simpleOf (inst : Instance) (signer : AgentKey) (verb : String)
    (fields : BTreeMap String SExpr) (recipients : BTreeSet String)
    (bookkeeping : List (String × SExpr)) (replaces : Option (List String)) (cause : CausedBy) :
    Message :=
  .simple (.custom verb) (recipientOf recipients) (.list [])
    (pairItems (pairsOf fields bookkeeping replaces signer)) (some inst.thread) none (some cause)

/-- A message under the signature its host will put on it. -/
def signedBy (signer : AgentKey) (message : Message) : Message :=
  .wrapped .signed [.atom (.symbol signer)] message

section Binder

variable (contentHash : Message → String)

/-- The verdict on a built message over the accepted acts and itself. -/
def verdictOf (inst : Instance) (protocol : CausalProtocol) (signer : AgentKey) (verb : String)
    (simple message : Message) : VerificationResult :=
  let signed := signedBy signer message
  let store := (inst.store.append (wireAddress contentHash simple) inst.thread signed).2
  match inst.cast, inst.root with
  | some c, some rt =>
      verifyCausalForRole signed ⟨"", some signer⟩ inst.dialect.roleLayer c store.toStore
        inst.thread rt.address
  | _, _ => verifyCausal verb simple.causedBy store.toStore protocol inst.thread

/-- A counter operation must leave the history ready. -/
def resourceGate (inst : Instance) (signer : AgentKey) (verb : String) (message : Message) :
    Except Reject Unit :=
  match ruleFor inst.dialect verb with
  | none => .ok ()
  | some (_, c) =>
      match Act.fromMessage contentHash message signer with
      | .error e => .error (.resource e)
      | .ok candidate =>
          if c.certification.isQuorum then
            .error (.resource "quorum-budget requires certificate runtime")
          else match observeIn contentHash inst.dialect inst.thread c inst.acts with
            | .ready _ =>
                match check contentHash c inst.acts candidate with
                | .ready _ => .ok ()
                | other => .error (.resource (outcomeValue other).render)
            | other => .error (.resource (outcomeValue other).render)

/-- The first shape of a verb that a simple message breaks. -/
def checkShapes (d : Dialect) (verb : String) (simple : Message) : Except Reject Unit :=
  (d.shapes.filter (·.performative = verb)).forM fun shape =>
    match shape.check (CbclRecogniser.toSExpr simple) with
    | .ok () => .ok ()
    | .error v => .error (.shape v)

/-- What a computation returns, a failure read as a rejection. -/
def orReject {ε α : Type} (reject : ε → Reject) : Except ε α → Except Reject α
  | .ok a => .ok a
  | .error e => .error (reject e)

/-- Refuse an intent on a condition. -/
def rejectIf (c : Prop) [Decidable c] (reject : Reject) : Except Reject Unit :=
  if c then .error reject else .ok ()

/-- Complete a verb and its data fields into a canonical act for the host to sign. -/
def intend (inst : Instance) (signer : AgentKey) (verb : String)
    (fields : BTreeMap String SExpr) : Except Reject Message :=
  let d := inst.dialect
  match d.state, d.causal_protocol with
  | some clause, some protocol => do
      rejectIf (d.roleLayer.findPerformative verb = none) .unknownVerb
      rejectIf (CbclR7.openerVerb protocol = some verb ∧ isRepeated protocol verb = false)
        .openerVerb
      fields.keys.forM fun k => rejectIf (isForged k = true) (.forge k)
      roleGate inst signer verb
      domainGate clause (fold contentHash clause (some protocol) inst.acts) verb fields
      let recipients ← recipientsOf inst verb
      let replaces ← replacedBy contentHash clause inst.acts (boundsOf d).max_list signer verb fields
      let cause ← causeOf inst protocol signer verb
      checkDeclared d verb fields
      let pairs ← orReject .resource (bookkeeping contentHash d inst.acts inst.thread signer verb)
      let simple := simpleOf inst signer verb fields recipients pairs replaces cause
      let message := Message.dialect d.name simple
      orReject .shape (verifyStateShape d message)
      checkShapes d verb simple
      rejectIf (verdictOf contentHash inst protocol signer verb simple message ≠ .valid)
        (.notValid (verdictOf contentHash inst protocol signer verb simple message))
      resourceGate contentHash inst signer verb message
      return message
  | _, _ => .error .unknownVerb

/-- The canonical text of an act, as the host signs it. -/
def canonicalText (message : Message) : String := serialize (CbclRecogniser.toSExpr message)

/-- The content address of an act built by `intend`, wire spelling. -/
def addressOf (message : Message) : Option String :=
  message.innermostSimple.map (wireAddress contentHash)

end Binder

end CbclIntend
