import Cbcl.ProtocolParserModel
import Cbcl.StateParserModel

/-!
# Reading dialect definitions

`dialect_parser.rs` reads `(define name (parent …) author clause …)` into a dialect.  The clauses
are read in order into one record; a repeated clause replaces what an earlier one said, unless
the source refuses it.  At the end the compiler's own shape rules are added for the verbs of the
state clause (`r7.rs`).
-/

namespace CbclDialectParser

open CbclMessage CbclProtocol CbclShape CbclState CbclEscrow CbclDialect
open CbclRole hiding Dialect PerformativeDef
open CbclProtocolParser CbclStateParser CbclCanonical

-- ── Roles and annotations ────

/-- Read one role declaration: `name` or `(* name)`. -/
def parseRoleDecl (item : SExpr) : Except R6Violation RoleDecl :=
  match item with
  | .atom (.symbol name) => .ok ⟨name, .singleton⟩
  | .list [.atom (.symbol star), .atom (.symbol name)] =>
      if star = "*" then .ok ⟨name, .indexed⟩
      else .error (.malformedRoles
        ("role declaration must be a symbol or (* name), got " ++ item.display))
  | _ => .error (.malformedRoles
      ("role declaration must be a symbol or (* name), got " ++ item.display))

/-- Read a `:roles` value: different names, at least one. -/
def parseRoles : SExpr → Except R6Violation (List RoleDecl)
  | .list [] => .error (.malformedRoles "empty :roles ()")
  | .list items =>
      items.foldlM (fun decls item => do
        let decl ← parseRoleDecl item
        if decls.any (·.name = decl.name) then
          .error (.malformedRoles ("duplicate role name '" ++ decl.name ++ "'"))
        else return decls ++ [decl]) []
  | _ => .error (.malformedRoles ":roles value is not a list")

/-- Read a `:from` value: one role. -/
def parseFrom (performative : String) : SExpr → Except R6Violation String
  | .atom (.symbol role) => .ok role
  | other => .error (.malformedFromTo performative
      (":from must be exactly one role symbol, got " ++ other.display))

/-- Read a `:to` value: one role, or a list of different roles. -/
def parseRecipientSet (performative : String) : SExpr → Except R6Violation (BTreeSet String)
  | .atom (.symbol role) => .ok ((∅ : BTreeSet String).insert role)
  | .list items =>
      items.foldlM (fun set item =>
        match item with
        | .atom (.symbol role) =>
            if role ∈ set then
              .error (.malformedFromTo performative ("duplicate :to member '" ++ role ++ "'"))
            else .ok (set.insert role)
        | other => .error (.malformedFromTo performative
            (":to members must be role symbols, got " ++ other.display))) (∅ : BTreeSet String)
  | other => .error (.malformedFromTo performative
      (":to must be a role symbol or a list, got " ++ other.display))

/-- The text of a role violation as an error. -/
def roleError {α : Type} : Except R6Violation α → Except String α
  | .ok x => .ok x
  | .error v => .error v.display

-- ── Clauses ────

/-- What the clauses have said so far. -/
structure Clauses where
  performatives : List PerformativeDef
  resources : ResourceBounds
  examples : List SExpr
  signature : Option (List UInt8)
  hash : Option String
  protocol : Option String
  causal_protocol : Option CausalProtocol
  shapes : List ShapeConstraint
  roles : List RoleDecl
  causal_locality : CausalLocality
  state : Option StateClause
  state_bounds : Option StateBounds

/-- Nothing said: the defaults. -/
def Clauses.default : Clauses where
  performatives := []
  resources := ⟨16, 1024, 50⟩
  examples := []
  signature := none
  hash := none
  protocol := none
  causal_protocol := none
  shapes := []
  roles := []
  causal_locality := .reject
  state := none
  state_bounds := none

/-- Read a symbol; `context` names it in the error. -/
def extractSymbol (sexpr : SExpr) (context : String) : Except String String :=
  match sexpr with
  | .atom (.symbol s) => .ok s
  | _ => .error (context ++ " must be a symbol")

/-- Read the parents. -/
def extractExtends : SExpr → Except String (List String)
  | .list items => items.mapM fun item => extractSymbol item "extends entry"
  | _ => .error "extends must be a list"

/-- Read the author. -/
def extractAuthor : SExpr → Except String (Option String)
  | .atom (.symbol s) => .ok (some s)
  | .atom (.str s) => .ok (some s)
  | _ => .error "author must be a symbol or string"

/-- Read the parameters of a performative. -/
def extractParamList : SExpr → Except String (List SExpr)
  | .list items => .ok items
  | _ => .error "parameter list must be a list"

/-- The octets of a signature. -/
def extractSignatureBytes : SExpr → List UInt8
  | .atom (.str s) => octets s
  | .atom (.symbol s) => octets s
  | _ => []

/-- A text, or the printed form of anything else. -/
def extractStringOrSymbol : SExpr → String
  | .atom (.str s) => s
  | .atom (.symbol s) => s
  | other => other.display

/-- One resource bound; anything but `(key number)` is passed over. -/
def addResource (bounds : ResourceBounds) : SExpr → ResourceBounds
  | .list [.atom (.symbol key), .atom (.num n)] =>
      let val := UInt32.ofInt n.toInt
      if key = "max-depth" then { bounds with max_depth := val }
      else if key = "max-expansion-size" then { bounds with max_expansion_size := val }
      else if key = "verification-time" then { bounds with verification_time_ms := val }
      else bounds
  | _ => bounds

/-- Read the resource bounds; absent ones take defaults. -/
def parseResourceRequirements : SExpr → Except String ResourceBounds
  | .list items => .ok (items.foldl addResource ⟨16, 1024, 50⟩)
  | _ => .error "resource-requirements must be a list"

/-- Read a `:causal-locality` value; the routes are derived at install. -/
def parseCausalLocality (value : SExpr) : Except String CausalLocality :=
  match value with
  | .atom (.symbol mode) =>
      if mode = "derive" then .ok (.derive ∅)
      else if mode = "reject" then .ok .reject
      else .error (":causal-locality must be derive or reject, got " ++ value.display
        ++ " (REQ-709)")
  | other => .error (":causal-locality must be derive or reject, got " ++ other.display
      ++ " (REQ-709)")

/-- Read a clause headed by a keyword. -/
def parseKeywordClause (acc : Clauses) (kw : String) (args : List SExpr) (clause : SExpr) :
    Except String Clauses :=
  if kw = "resource-requirements" then
    match args with
    | [] => .error "resource-requirements needs a value"
    | value :: _ => do
        let resources ← parseResourceRequirements value
        return { acc with resources }
  else if kw = "examples" then .ok { acc with examples := acc.examples ++ args }
  else if kw = "signature" ∨ kw = "signed" then
    match args with
    | [] => .ok acc
    | value :: _ => .ok { acc with signature := some (extractSignatureBytes value) }
  else if kw = "hash" then
    match args with
    | [] => .ok acc
    | value :: _ => .ok { acc with hash := some (extractStringOrSymbol value) }
  else if kw = "protocol" then
    match args with
    | [] => .ok acc
    | value :: _ => .ok { acc with protocol := some (extractStringOrSymbol value) }
  else if kw = "roles" then
    match args with
    | [value] => do
        let roles ← roleError (parseRoles value)
        return { acc with roles }
    | _ => .error ":roles takes exactly one value (CON-600)"
  else if kw = "causal-locality" then
    match args with
    | [value] => do
        let causal_locality ← parseCausalLocality value
        return { acc with causal_locality }
    | _ => .error ":causal-locality takes exactly one value (REQ-709)"
  else if kw = "state-bounds" then
    if acc.state_bounds.isSome then .error "duplicate :state-bounds clause"
    else do
      let b ← parseStateBounds clause
      return { acc with state_bounds := some b }
  else .error ("unknown keyword clause: :" ++ kw)

/-- What the items behind the parameters of an `extend` have said so far. -/
structure ExtendForm where
  template : Option SExpr
  «from» : Option String
  «to» : Option (BTreeSet String)

/-- Read the template and the annotations of an `extend`, in any order. -/
def parseExtendItems (perf : String) : List SExpr → ExtendForm → Except String ExtendForm
  | [], acc => .ok acc
  | .atom (.keyword kw) :: rest, acc =>
      if kw = "from" then
        match rest with
        | [] => .error (":from on '" ++ perf ++ "' needs a value")
        | value :: rest =>
            if acc.from.isSome then .error ("duplicate :from on '" ++ perf ++ "'")
            else do
              let role ← roleError (parseFrom perf value)
              parseExtendItems perf rest { acc with «from» := some role }
      else if kw = "to" then
        match rest with
        | [] => .error (":to on '" ++ perf ++ "' needs a value")
        | value :: rest =>
            if acc.to.isSome then .error ("duplicate :to on '" ++ perf ++ "'")
            else do
              let roles ← roleError (parseRecipientSet perf value)
              parseExtendItems perf rest { acc with «to» := some roles }
      else .error ("extend '" ++ perf ++ "' has unknown keyword :" ++ kw)
  | other :: rest, acc =>
      if acc.template.isSome then
        .error ("extend '" ++ perf ++ "' has more than one template form")
      else parseExtendItems perf rest { acc with template := some other }

/-- Read the arguments of an `extend` clause. -/
def parseExtend : List SExpr → Except String PerformativeDef
  | name :: params :: item :: items => do
      let perf ← extractSymbol name "performative name"
      let params ← extractParamList params
      let form ← parseExtendItems perf (item :: items) ⟨none, none, none⟩
      match form.template with
      | none => .error ("extend '" ++ perf ++ "' is missing its template")
      | some template =>
          match form.from, form.to with
          | some sender, some recipients => return ⟨perf, params, template, some ⟨sender, recipients⟩⟩
          | none, none => return ⟨perf, params, template, none⟩
          | _, _ => .error ("extend '" ++ perf
              ++ "' must carry both :from and :to or neither (CON-600)")
  | _ => .error "extend clause requires: extend name (params) template"

/-- The head of a clause, for error messages. -/
def clauseHeadDescription : SExpr → String
  | .atom (.symbol s) => s
  | .atom (.keyword k) => ":" ++ k
  | _ => "<non-symbol>"

/-- Read one clause. -/
def parseClause (acc : Clauses) (clause : SExpr) : Except String Clauses :=
  match clause with
  | .list (.atom (.keyword kw) :: args) => parseKeywordClause acc kw args clause
  | .list (head :: args) =>
      if isSymbol "state" head then
        if acc.state.isSome then .error "duplicate state clause"
        else do
          let state ← parseState clause
          return { acc with state := some state }
      else if isSymbol "extend" head then do
        let perf ← parseExtend args
        return { acc with performatives := acc.performatives ++ [perf] }
      else if isSymbol "protocol" head then
        match parseProtocol clause with
        | .ok cp => .ok { acc with causal_protocol := some cp }
        | .error e => .error ("protocol parse error: " ++ e.display)
      else if isSymbol "shape" head then do
        let shape ← parseShape clause
        return { acc with shapes := acc.shapes ++ [shape] }
      else .error ("unknown clause type: " ++ clauseHeadDescription head)
  | _ => .error "clause must be a non-empty list"

-- ── The compiler's own shape rules ────

/-- The keyword of quorum operations. -/
def NONCE : String := "escrow-nonce"

/-- The type a verb's shape gives a keyword, if it names one. -/
def fieldType (shapes : List ShapeConstraint) (verb key : String) : Option TypeConstraint :=
  (((shapes.filter (·.performative = verb)).flatMap (·.rules)).findSome? (fun
    | .require keyword tc _ => if keyword = key then some tc else none
    | .optional keyword tc _ _ => if keyword = key then some tc else none
    | .maxDepth _ => none)).join

/-- Whether a verb's shape names a keyword at the top. -/
def namesKeyword (shapes : List ShapeConstraint) (verb key : String) : Bool :=
  ((shapes.filter (·.performative = verb)).flatMap (·.rules)).any fun
    | .require keyword _ _ => keyword = key
    | .optional keyword _ _ _ => keyword = key
    | .maxDepth _ => false

/-- Whether a verb's shape declares `:replaces`. -/
def shapeHasReplaces (shapes : List ShapeConstraint) (verb : String) : Bool :=
  (fieldType shapes verb RESERVED_REPLACES).isSome || namesKeyword shapes verb RESERVED_REPLACES

/-- Add a rule to the first shape of a verb, or a shape for it. -/
def addRule (verb : String) (rule : ShapeRule) : List ShapeConstraint → List ShapeConstraint
  | [] => [⟨verb, [rule]⟩]
  | s :: rest =>
      if s.performative = verb then { s with rules := s.rules ++ [rule] } :: rest
      else s :: addRule verb rule rest

/-- Require a keyword of a type, unless the shape gives it a type already. -/
def requireField (shapes : List ShapeConstraint) (verb keyword : String) (tc : TypeConstraint) :
    List ShapeConstraint :=
  if (fieldType shapes verb keyword).isSome then shapes
  else addRule verb (.require keyword (some tc) []) shapes

/-- The counters of a clause. -/
def counters (clause : StateClause) : List CounterRule :=
  clause.fields.filterMap fun
    | (_, .boundedCounter c) => some c
    | _ => none

/-- The verbs whose acts replace others, of one rule. -/
def replacesVerbs : Rule → List String
  | .values verb _ => [verb]
  | .lwwPerSigner verb _ _ => [verb]
  | .valuesPerKey verb _ _ delete => verb :: delete.toList
  | .lwwMap verb _ _ _ delete => verb :: delete.toList
  | .observedSet _ remove _ => [remove]
  | _ => []

/-- The verbs whose acts replace others, of a clause. -/
def clauseReplacesVerbs (clause : StateClause) : BTreeSet String :=
  (clause.fields.flatMap fun (_, rule) => replacesVerbs rule).foldl (·.insert ·) ∅

/-- Add the bookkeeping rules of the verbs of a state clause. -/
def insertReplaces (d : Dialect) : Dialect :=
  match d.state with
  | none => d
  | some clause =>
      let shapes := ((counters clause).flatMap CounterRule.operationVerbs).foldl
        (fun shapes verb => requireField (requireField shapes verb PREV .symbol) verb DEPS .list)
        d.shapes
      let shapes :=
        (((counters clause).filter (·.certification.isQuorum)).flatMap
          CounterRule.operationVerbs).foldl
          (fun shapes verb => requireField shapes verb NONCE .string) shapes
      let shapes := (clauseReplacesVerbs clause).toList.foldl (fun shapes verb =>
        if shapeHasReplaces shapes verb then shapes
        else addRule verb (.require RESERVED_REPLACES (some .list) []) shapes) shapes
      { d with shapes }

-- ── Definitions ────

/-- Whether a rule declares a keyword the compiler keeps for itself. -/
def declaresReserved : ShapeRule → Bool
  | .require keyword _ _ => keyword ∈ [RESERVED_REPLACES, PREV, DEPS, NONCE]
  | .optional keyword _ _ _ => keyword ∈ [RESERVED_REPLACES, PREV, DEPS, NONCE]
  | .maxDepth _ => false

/-- Assemble a dialect from its clauses. -/
def assemble (name : String) (parents : List String) (author : Option String) (c : Clauses) :
    Except String Dialect :=
  match (if c.state.isSome then c.shapes.find? (·.rules.any declaresReserved) else none) with
  | some shape =>
      .error ("shape '" ++ shape.performative ++ "' declares compiler bookkeeping (:replaces or "
        ++ ":escrow-*), which is reserved and inserted by the compiler (SPEC-019 REQ-1907)")
  | none => .ok (insertReplaces
      { name, «extends» := parents, author
        performatives := c.performatives
        resources := c.resources
        examples := c.examples
        signature := c.signature
        hash := c.hash
        protocol := c.protocol
        causal_protocol := c.causal_protocol
        shapes := c.shapes
        roles := c.roles
        causal_locality := c.causal_locality
        state := c.state
        state_bounds := c.state_bounds })

/-- Read a `(define name (parent …) author clause …)` form. -/
def parseDialect : SExpr → Except String Dialect
  | .list [] => .error "empty dialect definition"
  | .list (head :: items) =>
      if !isSymbol "define" head then .error "dialect definition must start with 'define'"
      else match items with
        | name :: parents :: author :: clauses => do
            let name ← extractSymbol name "dialect name"
            let parents ← extractExtends parents
            let author ← extractAuthor author
            let c ← clauses.foldlM parseClause Clauses.default
            assemble name parents author c
        | _ => .error "dialect definition requires at least: define, name, extends, author"
  | _ => .error "dialect definition must be a list"

end CbclDialectParser
