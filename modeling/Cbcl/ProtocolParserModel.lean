import Cbcl.ShapeModel

/-!
# Reading causal protocols

`protocol_parser.rs` reads `(protocol (then …)+)`.  A chain `(then a b c)` stands for the edges
`a → b` and `b → c`.  A form `(repeat k step …)` in a chain is expanded while reading into `k`
copies of its body, each copy named by its index behind `#`; the expansions of a whole protocol
share one budget, charged before anything is built.
-/

namespace CbclProtocolParser

open CbclMessage CbclProtocol CbclShape

/-- The largest number of copies all repetitions of a protocol may make. -/
def REPEAT_EXPANSION_CEILING : Nat := 8192

/-- The largest machine integer. -/
def U64_MAX : Nat := 2 ^ 64 - 1

/-- Errors of the protocol parser. -/
inductive ProtocolParseError where
  | notAList
  | notProtocol
  | noThenClauses
  | thenTooFew
  | expectedThen (found : String)
  | invalidNodeRef (detail : String)
  | groupTooFew (kind : String)
  | groupNonSymbol (kind : String)
  | repeatCountNotNat (found : String)
  | repeatEmptyBody
  | repeatContainsBegin
  | repeatBudgetExceeded (steps : Nat)
deriving DecidableEq

/-- The text of a protocol parse error. -/
def ProtocolParseError.display : ProtocolParseError → String
  | notAList => "protocol declaration must be a list"
  | notProtocol => "expected 'protocol' keyword"
  | noThenClauses => "protocol must contain at least one (then ...) clause"
  | thenTooFew => "(then ...) requires at least 2 node-refs"
  | expectedThen found => "expected (then ...) clause, found: " ++ found
  | invalidNodeRef detail => "invalid node-ref: " ++ detail
  | groupTooFew kind => "(" ++ kind ++ " ...) requires at least 2 performative-refs"
  | groupNonSymbol kind => "(" ++ kind ++ " ...) arguments must be symbols"
  | repeatCountNotNat found =>
      "(repeat ...) count must be a positive integer (CON-701 nat), found: " ++ found
  | repeatEmptyBody => "(repeat ...) requires at least one protocol-step"
  | repeatContainsBegin => "(repeat ...) body must not reference 'begin'"
  | repeatBudgetExceeded steps =>
      "(repeat ...) expands to " ++ toString steps ++ " step instances, exceeding the "
        ++ "R2 expansion ceiling " ++ toString REPEAT_EXPANSION_CEILING

-- ── Node references ────

/-- A name outside the namespace of the copies. -/
def checkUserSymbol (s : String) : Except ProtocolParseError Unit :=
  if isCopyName s then
    .error (.invalidNodeRef ("'" ++ s ++ "' contains '" ++ String.singleton REPEAT_SEPARATOR
      ++ "', reserved for synthesised repeat copies"))
  else .ok ()

/-- The members of a group. -/
def parseGroup (kind : String) (items : List SExpr) :
    Except ProtocolParseError (BTreeSet String) :=
  items.foldlM (fun set item =>
    match item with
    | .atom (.symbol s) => do
        checkUserSymbol s
        return set.insert s
    | _ => .error (.groupNonSymbol kind)) ∅

/-- Read a symbol, `(any …)` or `(all …)`. -/
def parseNodeRef : SExpr → Except ProtocolParseError NodeRef
  | .atom (.symbol s) => do
      checkUserSymbol s
      return .single s
  | .list (.atom (.symbol head) :: members) =>
      if head = "any" ∨ head = "all" then
        if members.length < 2 then .error (.groupTooFew head)
        else do
          let set ← parseGroup head members
          return if head = "any" then .any set else .all set
      else .error (.invalidNodeRef ("unknown node-ref head: " ++ head))
  | .list (head :: _) =>
      .error (.invalidNodeRef ("list head is not a symbol: " ++ head.display))
  | other => .error (.invalidNodeRef other.display)

-- ── Repetition ────

/-- Whether an S-expression is a `(repeat …)` form. -/
def isRepeatForm : SExpr → Bool
  | .list (head :: _) => isSymbol "repeat" head
  | _ => false

/-- A positive count. -/
def parseNat : SExpr → Except ProtocolParseError Nat
  | .atom (.num n) =>
      if 1 ≤ n then .ok n.toInt.toNat
      else .error (.repeatCountNotNat (SExpr.atom (.num n)).display)
  | other => .error (.repeatCountNotNat other.display)

/-- Charge the budget. -/
def chargeExpansion (used n : Nat) : Except ProtocolParseError Nat :=
  let total := min (used + n) U64_MAX
  if total > REPEAT_EXPANSION_CEILING then .error (.repeatBudgetExceeded total) else .ok total

/-- A copy of a node reference: every name gets the index of the copy. -/
def suffixNodeRef (index : Nat) (nr : NodeRef) : NodeRef :=
  let suffix := fun s : String => s ++ String.singleton REPEAT_SEPARATOR ++ toString index
  let copies := fun set : BTreeSet String =>
    set.toList.foldl (fun acc s => acc.insert (suffix s)) (∅ : BTreeSet String)
  match nr with
  | .single s => .single (suffix s)
  | .any set => .any (copies set)
  | .all set => .all (copies set)

/-- The copies of a body: the whole body for each index in turn. -/
def copyBody (k : Nat) (body : List NodeRef) : List NodeRef :=
  (List.range k).flatMap fun i => body.map (suffixNodeRef (i + 1))

/-- Charge the copies of a body beyond the first and make them all. -/
def repeatBody (k : Nat) (body : List NodeRef) (used : Nat) :
    Except ProtocolParseError (List NodeRef × Nat) :=
  if (k - 1) * body.length > U64_MAX then .error (.repeatBudgetExceeded U64_MAX)
  else do
    let used ← chargeExpansion used ((k - 1) * body.length)
    return (copyBody k body, used)

/-- A plain step of a body: not the root, and it costs one copy. -/
def bodyStep (step : SExpr) (used : Nat) : Except ProtocolParseError (List NodeRef × Nat) := do
  let nr ← parseNodeRef step
  if BEGIN_KEYWORD ∈ nr.performatives then .error .repeatContainsBegin
  else
    let used ← chargeExpansion used 1
    return ([nr], used)

mutual
/-- Expand a `(repeat k step …)` form; the innermost repetitions are expanded first. -/
def expandRepeat : SExpr → Nat → Except ProtocolParseError (List NodeRef × Nat)
  | .list (.atom (.symbol head) :: count :: body), used =>
      if head ≠ "repeat" then
        .error (.invalidNodeRef (SExpr.list (.atom (.symbol head) :: count :: body)).display)
      else do
        let k ← parseNat count
        if body.isEmpty then .error .repeatEmptyBody
        else
          let (refs, used) ← expandBody body used
          repeatBody k refs used
  | .list [.atom (.symbol head)], _ =>
      if head ≠ "repeat" then
        .error (.invalidNodeRef (SExpr.list [.atom (.symbol head)]).display)
      else .error (.repeatCountNotNat "<missing>")
  | other, _ => .error (.invalidNodeRef other.display)
/-- The steps of a body, in order. -/
def expandBody : List SExpr → Nat → Except ProtocolParseError (List NodeRef × Nat)
  | [], used => .ok ([], used)
  | step :: rest, used => do
      let (refs, used) ← (if isRepeatForm step then expandRepeat step used else bodyStep step used)
      let (more, used) ← expandBody rest used
      return (refs ++ more, used)
end

-- ── Protocols ────

/-- A plain step of a chain. -/
def chainStep (item : SExpr) (used : Nat) : Except ProtocolParseError (List NodeRef × Nat) := do
  let nr ← parseNodeRef item
  return ([nr], used)

/-- The node references of a chain. -/
def chainRefs : List SExpr → Nat → Except ProtocolParseError (List NodeRef × Nat)
  | [], used => .ok ([], used)
  | item :: rest, used => do
      let (refs, used) ←
        (if isRepeatForm item then expandRepeat item used else chainStep item used)
      let (more, used) ← chainRefs rest used
      return (refs ++ more, used)

/-- The edges of a `(then …)` clause. -/
def parseThenClause (sexpr : SExpr) (used : Nat) :
    Except ProtocolParseError (List (NodeRef × NodeRef) × Nat) :=
  match sexpr with
  | .list [] => .error (.expectedThen "empty list")
  | .list (head :: items) =>
      if !isSymbol "then" head then .error (.expectedThen head.display)
      else do
        let (refs, used) ← chainRefs items used
        if refs.length < 2 then .error .thenTooFew
        else return (refs.zip refs.tail, used)
  | other => .error (.expectedThen other.display)

/-- The declaration of a step, created empty where it is missing. -/
def stepOf (steps : BTreeMap String StepDecl) (name : String) : StepDecl :=
  (steps[name]?).getD ⟨name, [], []⟩

/-- Record an edge at every name on either side. -/
def addEdge (steps : BTreeMap String StepDecl) (edge : NodeRef × NodeRef) :
    BTreeMap String StepDecl :=
  let (pred, succ) := edge
  let steps := pred.performatives.foldl (fun steps p =>
    let step := stepOf steps p
    steps.insert p { step with successors := step.successors ++ [succ] }) steps
  succ.performatives.foldl (fun steps s =>
    let step := stepOf steps s
    steps.insert s { step with predecessors := step.predecessors ++ [pred] }) steps

/-- Read the clauses of a protocol in order. -/
def parseClauses : List SExpr → BTreeMap String StepDecl → Nat →
    Except ProtocolParseError (BTreeMap String StepDecl)
  | [], steps, _ => .ok steps
  | clause :: rest, steps, used => do
      let (edges, used) ← parseThenClause clause used
      parseClauses rest (edges.foldl addEdge steps) used

/-- Read a `(protocol (then …)+)` form. -/
def parseProtocol : SExpr → Except ProtocolParseError CausalProtocol
  | .list [] => .error .notProtocol
  | .list (head :: clauses) =>
      if !isSymbol "protocol" head then .error .notProtocol
      else if clauses.isEmpty then .error .noThenClauses
      else do
        let steps ← parseClauses clauses ∅ 0
        return ⟨steps⟩
  | _ => .error .notAList

end CbclProtocolParser
