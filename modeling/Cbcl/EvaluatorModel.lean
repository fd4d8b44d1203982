import Cbcl.DialectModel

/-!
# Template expansion and evaluation

A performative of a dialect carries a template; evaluating a message expands the template with the
message's content and parameters (`template.rs`), within the dialect's resource bounds (`r2.rs`),
and reads the expansion as effects (`evaluator.rs`).  Evaluation changes nothing: the effects are
applied by the caller.
-/

namespace CbclEvaluator

open CbclMessage CbclShape CbclDialect

-- ── Resources ────

/-- Resources used so far, and their bounds. -/
structure ResourceState where
  current_depth : UInt32
  expansion_size : UInt32
  max_depth : UInt32
  max_exp_size : UInt32
deriving DecidableEq

namespace ResourceState

/-- Nothing used. -/
def initial (bounds : ResourceBounds) : ResourceState :=
  ⟨0, 0, bounds.max_depth, bounds.max_expansion_size⟩

/-- Enter a deeper level. -/
def enterDepth (rs : ResourceState) : Option ResourceState :=
  let new_depth := rs.current_depth + 1
  if new_depth < rs.max_depth then some { rs with current_depth := new_depth } else none

/-- Add to the size of the expansion. -/
def addExpansion (rs : ResourceState) (size : UInt32) : Option ResourceState :=
  let new_size := rs.expansion_size + size
  if new_size < rs.max_exp_size then some { rs with expansion_size := new_size } else none

end ResourceState

mutual
/-- The octets of the atoms of an S-expression. -/
def byteSize : SExpr → Nat
  | .atom (.symbol s) => s.utf8ByteSize
  | .atom (.str s) => s.utf8ByteSize
  | .atom (.keyword s) => s.utf8ByteSize
  | .atom (.num _) => 8
  | .atom (.bool _) => 1
  | .list items => byteSizeItems items
/-- The octets of the atoms of some items. -/
def byteSizeItems : List SExpr → Nat
  | [] => 0
  | x :: rest => byteSize x + byteSizeItems rest
end

-- ── Templates ────

/-- Values of the parameters. -/
abbrev Bindings := BTreeMap String SExpr

/-- An expansion: one expression or several. -/
inductive ExpandedTemplate where
  | single (expr : SExpr)
  | sequence (exprs : List SExpr)

/-- Bind parameters to arguments by position. -/
def buildBindings (params args : List SExpr) : Bindings :=
  (params.zip args).foldl (fun bindings (param, arg) =>
    match param with
    | .atom (.symbol name) => bindings.insert name arg
    | _ => bindings) ∅

/-- The value of a bound symbol; anything else stands for itself. -/
def resolveValue (bindings : Bindings) : SExpr → SExpr
  | .atom (.symbol name) => (bindings[name]?).getD (.atom (.symbol name))
  | expr => expr

mutual
/-- Replace the bound symbols throughout. -/
def substituteExpr (bindings : Bindings) : SExpr → SExpr
  | .atom a => resolveValue bindings (.atom a)
  | .list items => .list (substituteItems bindings items)
/-- Replace the bound symbols in some items. -/
def substituteItems (bindings : Bindings) : List SExpr → List SExpr
  | [] => []
  | x :: rest => substituteExpr bindings x :: substituteItems bindings rest
end

/-- Whether a value is of a named type. -/
def evalTypePredicate (value : SExpr) (type_name : String) : Bool :=
  match value with
  | .atom (.num _) => type_name = "number"
  | .atom (.str _) => type_name = "string"
  | .atom (.symbol s) =>
      type_name = "symbol" || (type_name = "agent" && s.toList.head? = some '@')
  | .atom (.bool _) => type_name = "bool"
  | _ => false

/-- The conditions `(= a b)`, `(member a (b …))` and `(type? a name)`; anything else is false. -/
def evalCondition (bindings : Bindings) : SExpr → Bool
  | .list [head, a, b] =>
      if isSymbol "=" head then resolveValue bindings a = resolveValue bindings b
      else if isSymbol "member" head then
        match b with
        | .list members => members.any fun m => resolveValue bindings a = resolveValue bindings m
        | _ => false
      else if isSymbol "type?" head then
        match b with
        | .atom (.symbol type_name) => evalTypePredicate (resolveValue bindings a) type_name
        | _ => false
      else false
  | _ => false

/-- Whether some items are all `(literal …)` or `(cond …)` forms. -/
def isSequenceTemplate (items : List SExpr) : Bool :=
  !items.isEmpty && items.all fun
    | .list (head :: _) => isSymbol "literal" head || isSymbol "cond" head
    | _ => false

/-- The expansions of a sequence, the first form in front. -/
def consExpansion : Option ExpandedTemplate → Option (List SExpr) → Option (List SExpr)
  | some (.single expr), some exprs => some (expr :: exprs)
  | some (.sequence exprs), some more => some (exprs ++ more)
  | _, _ => none

mutual
/-- Evaluate a template form. -/
def evalForm (bindings : Bindings) : SExpr → Option ExpandedTemplate
  | .atom a => some (.single (resolveValue bindings (.atom a)))
  | .list [] => some (.single (.list []))
  | .list (head :: rest) =>
      if isSymbol "literal" head then
        match rest with
        | [body] => some (.single (substituteExpr bindings body))
        | _ => none
      else if isSymbol "cond" head then evalCond bindings rest
      else if isSequenceTemplate (head :: rest) then
        (consExpansion (evalForm bindings head) (evalSequence bindings rest)).map .sequence
      else some (.single (substituteExpr bindings (.list (head :: rest))))
/-- The first clause whose condition holds, or the `else` clause. -/
def evalCond (bindings : Bindings) : List SExpr → Option ExpandedTemplate
  | .list [test, body] :: rest =>
      if isSymbol "else" test || evalCondition bindings test then evalForm bindings body
      else evalCond bindings rest
  | _ => none
/-- The expansions of a sequence, in order. -/
def evalSequence (bindings : Bindings) : List SExpr → Option (List SExpr)
  | [] => some []
  | x :: rest => consExpansion (evalForm bindings x) (evalSequence bindings rest)
end

/-- The size of an expansion, as a machine integer. -/
def expansionSize : ExpandedTemplate → UInt32
  | .single expr => UInt32.ofNat (byteSize expr)
  | .sequence exprs => exprs.foldl (fun n e => n + UInt32.ofNat (byteSize e)) 0

/-- Evaluate a template within the bounds. -/
def evalTemplate (template : SExpr) (bindings : Bindings) (rs : ResourceState) :
    Option (ExpandedTemplate × ResourceState) := do
  let rs ← rs.enterDepth
  let result ← evalForm bindings template
  let rs ← rs.addExpansion (expansionSize result)
  return (result, rs)

/-- Expand the template of a performative. -/
def expandTemplate (p : PerformativeDef) (args : List SExpr) (rs : ResourceState) :
    Option (SExpr × ResourceState) := do
  let (result, rs) ← evalTemplate p.template (buildBindings p.params args) rs
  match result with
  | .single expr => return (expr, rs)
  | .sequence exprs => return (.list exprs, rs)

-- ── Evaluation ────

/-- Effects of a message. -/
inductive Effect where
  | sendMessage (recipient : Option String) (content : SExpr)
  | sendQuery (recipient : Option String) (content : SExpr)
  | sendReply (recipient : Option String) (content : SExpr)
  | signalError (content : SExpr)
  | acknowledge
  | cancelConversation
  | announcePresence
  | announceDeparture
  | storeBelief (belief : SExpr)
  | removeBelief (belief : SExpr)
  | installDialect (dialect_def : SExpr)
  | custom (expanded : SExpr)

/-- Errors of evaluation. -/
inductive EvalError where
  | unknownPerformative (name : String)
  | unscopedDialectPerformative (name : String)
  | templateExpansionFailed (performative : String)
  | unknownDialect (name : String)
  | malformedMessage (reason : String)
  | shapeViolation (v : ShapeViolation)
deriving DecidableEq

/-- The result of evaluation. -/
structure EvalResult where
  expanded : SExpr
  effects : List Effect
  thread : Option String

/-- The dialect that defines a performative: the base dialect for a core one, the enclosing scope
    for any other. -/
def resolvePerformativeDialect (performative : Performative) (registry : DialectRegistry)
    (scope : Option Dialect) : Except EvalError Dialect :=
  match performative with
  | .core c =>
      match registry.baseDefinerOf c.asStr with
      | some d => .ok d
      | none => .error (.unknownPerformative c.asStr)
  | .custom name =>
      match scope with
      | none => .error (.unscopedDialectPerformative name)
      | some d =>
          if d.definesPerformative name then .ok d else .error (.unknownPerformative name)

/-- Every shape of a performative, over all installed dialects. -/
def checkShapes (performative : String) (expanded : SExpr) (registry : DialectRegistry) :
    Except EvalError Unit :=
  registry.dialects.forM fun d => d.shapes.forM fun shape =>
    if shape.performative = performative then
      match shape.check expanded with
      | .ok () => .ok ()
      | .error v => .error (.shapeViolation v)
    else .ok ()

/-- The action of an `(effect action)` form. -/
def extractEffectAction : SExpr → Option String
  | .list [head, .atom (.symbol action)] => if isSymbol "effect" head then some action else none
  | _ => none

/-- The effects of an expansion; a send goes to every recipient, or once to nobody. -/
def interpretEffects (expanded : SExpr) (recipients : List String) (content : SExpr) :
    List Effect :=
  let targets : List (Option String) :=
    if recipients.isEmpty then [none] else recipients.map some
  match extractEffectAction expanded with
  | none => [.custom expanded]
  | some action =>
      if action = "send-message" then
        targets.map (fun r => .sendMessage r content) ++ [.storeBelief content]
      else if action = "send-query" then targets.map fun r => .sendQuery r content
      else if action = "send-reply" then targets.map fun r => .sendReply r content
      else if action = "signal-error" then [.signalError content]
      else if action = "acknowledge" then [.acknowledge]
      else if action = "cancel-conversation" then [.cancelConversation]
      else if action = "announce-presence" then [.announcePresence]
      else if action = "announce-departure" then [.announceDeparture]
      else [.custom expanded]

/-- Evaluate a message in a scope, with or without the shape check. -/
def evaluateWithScope (registry : DialectRegistry) (check_shape : Bool) :
    Option Dialect → Message → Except EvalError EvalResult
  | scope, .simple performative recipient content params thread sender caused_by => do
      let name := performative.name
      let d ← resolvePerformativeDialect performative registry scope
      match d.findPerformative name with
      | none => .error (.unknownPerformative name)
      | some p =>
          match expandTemplate p (content :: params) (.initial d.resources) with
          | none => .error (.templateExpansionFailed name)
          | some (expanded, _) => do
              if check_shape then checkShapes name expanded registry
              let recipients := Message.recipientSet
                (.simple performative recipient content params thread sender caused_by)
              return ⟨expanded, interpretEffects expanded recipients.toList content, thread⟩
  | _, .metaDef dialect_def =>
      .ok ⟨.list [.atom (.symbol "effect"), .atom (.symbol "install-dialect")],
        [.installDialect dialect_def], none⟩
  | _, .dialect dialect_name inner =>
      match registry.findByName dialect_name with
      | none => .error (.unknownDialect dialect_name)
      | some d => evaluateWithScope registry check_shape (some d) inner
  | scope, .wrapped _ _ content => evaluateWithScope registry check_shape scope content

/-- Evaluate a message. -/
def evaluate (msg : Message) (registry : DialectRegistry) : Except EvalError EvalResult :=
  evaluateWithScope registry true none msg

/-- Evaluate a message, leaving the shape check to the caller. -/
def evaluateWithoutShapeCheck (msg : Message) (registry : DialectRegistry) :
    Except EvalError EvalResult :=
  evaluateWithScope registry false none msg

end CbclEvaluator
