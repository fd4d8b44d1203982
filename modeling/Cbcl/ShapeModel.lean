import Cbcl.StateModel

/-!
# Shape constraints

A dialect may constrain the structure of expanded messages (`shape.rs`): keywords that must or
may be present, the kind of their values, and a bound on the nesting.  A rule about a keyword
holds of the value behind it, so the rules form a tree.  `parse_shape` reads them from a
`(shape …)` clause (`shape_parser.rs`).
-/

namespace CbclShape

open CbclMessage CbclState

/-- Whether an S-expression is a given symbol. -/
def isSymbol (name : String) : SExpr → Bool
  | .atom (.symbol s) => s = name
  | _ => false

mutual
/-- The nesting depth of an S-expression. -/
def depth : SExpr → Nat
  | .atom _ => 0
  | .list items => 1 + depthItems items
/-- The greatest depth of some items. -/
def depthItems : List SExpr → Nat
  | [] => 0
  | x :: rest => max (depth x) (depthItems rest)
end

/-- The recognised type constraints. -/
inductive TypeConstraint where
  | string | hlc | number | bool | symbol | keyword | list
deriving DecidableEq

/-- Read a type constraint. -/
def TypeConstraint.fromStr (s : String) : Option TypeConstraint :=
  if s = "string" then some .string
  else if s = "hlc" then some .hlc
  else if s = "number" then some .number
  else if s = "bool" then some .bool
  else if s = "symbol" then some .symbol
  else if s = "keyword" then some .keyword
  else if s = "list" then some .list
  else none

/-- The name of a type constraint. -/
def TypeConstraint.display : TypeConstraint → String
  | .string => "string"
  | .hlc => "hlc"
  | .number => "number"
  | .bool => "bool"
  | .symbol => "symbol"
  | .keyword => "keyword"
  | .list => "list"

/-- Whether a value satisfies a type constraint. -/
def TypeConstraint.matchesValue : TypeConstraint → SExpr → Bool
  | .hlc, .atom (.str text) => (Hlc.parse text).isSome
  | .string, .atom (.str _) => true
  | .number, .atom (.num _) => true
  | .bool, .atom (.bool _) => true
  | .symbol, .atom (.symbol _) => true
  | .keyword, .atom (.keyword _) => true
  | .list, .list _ => true
  | _, _ => false

/-- A shape rule; the children of a keyword rule are about the keyword's value. -/
inductive ShapeRule where
  | require (keyword : String) (type_constraint : Option TypeConstraint)
      (children : List ShapeRule)
  | optional (keyword : String) (type_constraint : Option TypeConstraint)
      (default : Option SExpr) (children : List ShapeRule)
  | maxDepth (n : UInt32)

/-- The shape constraint of a performative. -/
structure ShapeConstraint where
  performative : String
  rules : List ShapeRule

/-- A violation found by a shape check. -/
structure ShapeViolation where
  rule : String
  field : Option String
  expected : Option String
  found : Option String
  detail : String
deriving DecidableEq

-- ── Checking ────

/-- The value behind the first occurrence of a keyword. -/
def findKeywordItems (keyword : String) : List SExpr → Option SExpr
  | [] => none
  | .atom (.keyword k) :: rest => if k = keyword then rest.head? else findKeywordItems keyword rest
  | _ :: rest => findKeywordItems keyword rest

/-- The value behind a keyword of a list. -/
def findKeywordValue (sexpr : SExpr) (keyword : String) : Option SExpr :=
  match sexpr with
  | .list items => findKeywordItems keyword items
  | _ => none

/-- The kind of a value, for error messages. -/
def describeType : SExpr → String
  | .atom (.str _) => "string"
  | .atom (.num _) => "number"
  | .atom (.bool _) => "bool"
  | .atom (.symbol _) => "symbol"
  | .atom (.keyword _) => "keyword"
  | .list _ => "list"

/-- Check the kind of the value of a keyword; `kind` names the rule. -/
def checkType (kind keyword : String) (tc : Option TypeConstraint) (value : SExpr) :
    Except ShapeViolation Unit :=
  match tc with
  | none => .ok ()
  | some tc =>
      if tc.matchesValue value then .ok ()
      else .error
        { rule := kind ++ " :" ++ keyword ++ " " ++ tc.display
          field := some (":" ++ keyword)
          expected := some tc.display
          found := some (describeType value)
          detail := "parameter :" ++ keyword ++ " expected type " ++ tc.display ++ ", found "
            ++ describeType value }

mutual
/-- Check one rule. -/
def checkRule : ShapeRule → SExpr → Except ShapeViolation Unit
  | .require keyword tc children, sexpr =>
      match findKeywordValue sexpr keyword with
      | none => .error
          { rule := "require :" ++ keyword
            field := some (":" ++ keyword)
            expected := some "present"
            found := some "missing"
            detail := "required parameter :" ++ keyword ++ " is missing" }
      | some value => do
          checkType "require" keyword tc value
          checkRules children value
  | .optional keyword tc _ children, sexpr =>
      match findKeywordValue sexpr keyword with
      | none => .ok ()
      | some value => do
          checkType "optional" keyword tc value
          checkRules children value
  | .maxDepth n, sexpr =>
      let d := UInt32.ofNat (depth sexpr)
      if d > n then .error
        { rule := "max-depth " ++ toString n
          field := none
          expected := some ("<= " ++ toString n)
          found := some (toString d)
          detail := "message depth " ++ toString d ++ " exceeds max-depth " ++ toString n }
      else .ok ()
/-- Check rules in order. -/
def checkRules : List ShapeRule → SExpr → Except ShapeViolation Unit
  | [], _ => .ok ()
  | r :: rest, sexpr => do
      checkRule r sexpr
      checkRules rest sexpr
end

/-- Check an expanded message against a constraint. -/
def ShapeConstraint.check (c : ShapeConstraint) (sexpr : SExpr) : Except ShapeViolation Unit :=
  checkRules c.rules sexpr

-- ── Well-formedness ────

mutual
/-- Every depth bound of a rule, in order. -/
def ruleMaxDepths : ShapeRule → List UInt32
  | .require _ _ children => collectMaxDepths children
  | .optional _ _ _ children => collectMaxDepths children
  | .maxDepth n => [n]
/-- Every depth bound of some rules, in order. -/
def collectMaxDepths : List ShapeRule → List UInt32
  | [] => []
  | r :: rest => ruleMaxDepths r ++ collectMaxDepths rest
end

/-- Every depth bound of a constraint. -/
def ShapeConstraint.maxDepths (c : ShapeConstraint) : List UInt32 := collectMaxDepths c.rules

mutual
/-- One rule of a duplicate check, given the keywords seen beside it. -/
def walkKeyword (depth : Nat) (seen : BTreeSet String) :
    ShapeRule → Except String (BTreeSet String)
  | .require keyword _ children =>
      if keyword ∈ seen then
        .error ("duplicate keyword :" ++ keyword ++ " at depth " ++ toString depth)
      else do
        let _ ← walkKeywords (depth + 1) ∅ children
        return seen.insert keyword
  | .optional keyword _ _ children =>
      if keyword ∈ seen then
        .error ("duplicate keyword :" ++ keyword ++ " at depth " ++ toString depth)
      else do
        let _ ← walkKeywords (depth + 1) ∅ children
        return seen.insert keyword
  | .maxDepth _ => .ok seen
/-- Sibling keyword rules name different keywords, at every level. -/
def walkKeywords (depth : Nat) (seen : BTreeSet String) :
    List ShapeRule → Except String (BTreeSet String)
  | [] => .ok seen
  | r :: rest => do
      let seen ← walkKeyword depth seen r
      walkKeywords depth seen rest
end

/-- No keyword is named twice among sibling rules. -/
def ShapeConstraint.noDuplicateKeywords (c : ShapeConstraint) : Except String Unit := do
  let _ ← walkKeywords 0 ∅ c.rules
  return ()

mutual
/-- A text for each empty keyword of a rule. -/
def emptyKeyword : ShapeRule → List String
  | .require keyword _ children =>
      (if keyword = "" then ["shape rule has empty keyword"] else []) ++ checkKeywordsValid children
  | .optional keyword _ _ children =>
      (if keyword = "" then ["shape rule has empty keyword"] else []) ++ checkKeywordsValid children
  | .maxDepth _ => []
/-- A text for each empty keyword of some rules. -/
def checkKeywordsValid : List ShapeRule → List String
  | [] => []
  | r :: rest => emptyKeyword r ++ checkKeywordsValid rest
end

-- ── Reading ────

/-- Read a keyword. -/
def extractKeyword : SExpr → Except String String
  | .atom (.keyword k) => .ok k
  | _ => .error "expected a keyword (e.g. :name)"

/-- The type constraint at the head of some items. -/
def typeConstraintAt : List SExpr → Option TypeConstraint
  | .atom (.symbol s) :: _ => TypeConstraint.fromStr s
  | _ => none

/-- Whether an S-expression looks like a shape rule. -/
def isChildRule : SExpr → Bool
  | .list (.atom (.symbol s) :: _) => s = "require" || s = "optional" || s = "max-depth"
  | _ => false

/-- The default value at the head of some items: anything but a rule. -/
def defaultValueAt : List SExpr → Option SExpr
  | x :: _ => if isChildRule x then none else some x
  | [] => none

/-- Read `(max-depth n)`. -/
def parseMaxDepthRule : List SExpr → Except String ShapeRule
  | [.atom (.num n)] =>
      if 0 < n then .ok (.maxDepth (UInt32.ofInt n.toInt))
      else .error ("max-depth must be positive, got " ++ toString n.toInt)
  | [_] => .error "max-depth value must be a number"
  | _ => .error "max-depth rule requires exactly one number"

/-- Read a rule from its head and its arguments, each with its own reading as a rule: the
    arguments behind keyword, type and default are the children. -/
def parseRuleForm (head : String) (args : List SExpr) (readings : List (Except String ShapeRule)) :
    Except String ShapeRule :=
  if head = "require" then
    match args with
    | [] => .error "require rule needs at least a keyword"
    | k :: rest => do
        let keyword ← extractKeyword k
        let tc := typeConstraintAt rest
        let children ← (readings.drop (1 + tc.toList.length)).mapM id
        return .require keyword tc children
  else if head = "optional" then
    match args with
    | [] => .error "optional rule needs at least a keyword"
    | k :: rest => do
        let keyword ← extractKeyword k
        let tc := typeConstraintAt rest
        let default := defaultValueAt (rest.drop tc.toList.length)
        let children ←
          (readings.drop (1 + tc.toList.length + default.toList.length)).mapM id
        return .optional keyword tc default children
  else if head = "max-depth" then parseMaxDepthRule args
  else .error ("unknown shape rule: " ++ head)

mutual
/-- Read a rule: `(require …)`, `(optional …)` or `(max-depth n)`. -/
def parseShapeRule : SExpr → Except String ShapeRule
  | .list (.atom (.symbol head) :: args) => parseRuleForm head args (parseEachRule args)
  | .list (_ :: _) => .error "shape rule must start with a symbol"
  | _ => .error "shape rule must be a non-empty list"
/-- The reading of each item as a rule. -/
def parseEachRule : List SExpr → List (Except String ShapeRule)
  | [] => []
  | x :: rest => parseShapeRule x :: parseEachRule rest
end

/-- Read a `(shape performative rule …)` clause. -/
def parseShape : SExpr → Except String ShapeConstraint
  | .list (head :: performative :: rule :: rules) =>
      if !isSymbol "shape" head then .error "shape clause must start with 'shape'"
      else match performative with
        | .atom (.symbol s) => do
            let rules ← (rule :: rules).mapM parseShapeRule
            return ⟨s, rules⟩
        | _ => .error "performative name must be a symbol"
  | .list _ => .error "shape clause requires at least: shape, performative-name, rule"
  | _ => .error "shape clause must be a list"

end CbclShape
