import Cbcl.DialectCanonicalModel
import Cbcl.StateShapeModel

/-!
# The installation checks of the state layer

`r7_violations` (`r7.rs`) reads a whole dialect: the bounds, the fields of the state clause with
their rules, verbs and types, the bookkeeping field `:replaces`, the domains, and a name that claims
to be a self-address.  The declarations of bounded counters are checked first (`escrow.rs`).  An
installed dialect has none of these violations.
-/

namespace CbclR7

open CbclMessage CbclProtocol CbclAct CbclShape CbclState CbclEscrow CbclCertification CbclDialect
  CbclDialectParser CbclStateShape CbclDialectCanonical CbclCanonical CbclTypedAddr
open CbclRole hiding Dialect PerformativeDef

/-- The start of a self-addressed dialect name. -/
def SELF_ADDRESS_PREFIX : String := "sha256-"

/-- The length of a clock text. -/
def WIRE_LEN : UInt32 := 29

/-- A violation of the state layer. -/
inductive R7Violation where
  | malformed (detail : String)
  | unknownVerb (verb : String)
  | unknownField (verb field : String)
  | typing (detail : String)
  | replaces (detail : String)
  | domain (detail : String)
  | bounds (detail : String)
  | name (expected found : String)
deriving DecidableEq

/-- Whether the only predecessor of a step is `begin`. -/
def opensProtocol (step : StepDecl) : Bool := step.predecessors = [.single BEGIN_KEYWORD]

/-- The one performative whose only predecessor is `begin`, if exactly one exists. -/
def openerVerb (protocol : CausalProtocol) : Option String :=
  match protocol.steps.toList.filter
    (fun (name, step) => name ≠ BEGIN_KEYWORD && opensProtocol step) with
  | [(name, _)] => some (repeatBaseName name)
  | _ => none

/-- The opener of a dialect's protocol. -/
def openerOf (d : Dialect) : Option String := d.causal_protocol.bind openerVerb

/-- Every performative a clause names, in order. -/
def stateBearingVerbs (clause : StateClause) : BTreeSet String :=
  (clause.fields.flatMap (fun (_, rule) => ruleVerbs rule)
    ++ clause.domains.map (·.1)).foldl (·.insert ·) ∅

/-- Every verb-keyword pair a clause reads, in order. -/
def dataFieldSet (clause : StateClause) : BTreeSet (String × String) :=
  (dataFields clause).foldl (·.insert ·) ∅

/-- A type of scalar values. -/
def isScalar : TypeConstraint → Bool
  | .string => true
  | .hlc => true
  | .number => true
  | .bool => true
  | _ => false

/-- Whether a shape of a verb requires a keyword with one of some types. -/
def requiresTyped (d : Dialect) (verb key : String) (types : List TypeConstraint) : Bool :=
  (d.shapes.filter (·.performative = verb)).any fun shape => shape.rules.any fun
    | .require keyword (some t) _ => keyword = key && types.contains t
    | _ => false

-- ── Counters ────

/-- Keywords no counter may read as data. -/
def reserved (key : String) : Bool :=
  [PREV, DEPS, NONCE, RESERVED_REPLACES].contains key || ROUTING_KEYWORDS.contains key

/-- Check a certification by resolving its own committee. -/
def validateCertification : Certification → Except String Unit
  | .quorumBudget (some keys) faults =>
      match Committee.new keys faults with
      | .ok _ => .ok ()
      | .error e => .error e
  | _ => .ok ()

/-- The typed fields a counter's rules read: its verb, keyword and admissible types. -/
def expectedFields (c : CounterRule) : List (String × String × List TypeConstraint) :=
  [(c.initial_verb, c.initial_key, [if c.ownership = .collective then .number else .list]),
    (c.increment.1, c.increment.2, [.number]), (c.decrement.1, c.decrement.2, [.number])]
    ++ (c.transfer.map fun (v, r, k) => [(v, r, [.symbol, .string]), (v, k, [.number])]).getD []
    ++ (c.headroom_key.map fun k => (c.initial_verb, k, [TypeConstraint.list])).toList
    ++ (c.transfer_headroom.map fun (v, r, k) =>
        [(v, r, [.symbol, .string]), (v, k, [.number])]).getD []

/-- The operations of a counter that another counter or kind owns already. -/
def ownedOperations (initial_verb : String) :
    List String → BTreeSet String → List String × BTreeSet String
  | [], owned => ([], owned)
  | verb :: rest, owned =>
      let error := "operation '" ++ verb ++ "' must serve exactly one counter and operation kind"
      if verb = initial_verb then
        let (errors, owned) := ownedOperations initial_verb rest owned
        (error :: errors, owned)
      else
        let (errors, owned') := ownedOperations initial_verb rest (owned.insert verb)
        (if verb ∈ owned then error :: errors else errors, owned')

/-- Whether the bounds of a counter exceed the numeric limit or are out of order. -/
def exceedsLimits (c : CounterRule) (bounds : StateBounds) : Bool :=
  let limit := bounds.max_number.toUInt64.toNat
  c.floor.toInt.natAbs > limit || c.ceiling.any fun n => n < c.floor || n.toInt.natAbs > limit

/-- The rules of ownership: what a collective counter lacks and an account counter needs. -/
def ownershipErrors (d : Dialect) (c : CounterRule) : List String :=
  if c.ownership = .collective then
    (if !c.certification.isQuorum || c.headroom_key.isSome || c.transfer.isSome ||
        c.transfer_headroom.isSome then
      ["collective counters require quorum-budget and scalar initialization without account "
        ++ "transfers"]
    else [])
    ++ (c.verbs.filter fun verb => ((d.findPerformative verb).bind (·.role)).isNone).map
        fun verb => "collective verb '" ++ verb ++ "' requires an explicit from role"
  else if c.transfer.isNone then ["account counters require a transfer mapping"]
  else []

/-- The errors of one counter, and the operations owned after it. -/
def counterErrors (d : Dialect) (clause : StateClause) (name : String) (c : CounterRule)
    (owned : BTreeSet String) : List String × BTreeSet String :=
  let (operations, owned) := ownedOperations c.initial_verb c.operationVerbs owned
  let distinct := "counter data fields must be distinct"
  ((match validateCertification c.certification with
      | .ok () => []
      | .error e => [e])
    ++ (if d.roles.isEmpty then ["bounded counters require an authenticated role cast"] else [])
    ++ (if openerOf d ≠ some c.initial_verb then
        ["bounded-counter '" ++ name ++ "' must initialize from the unique opener"] else [])
    ++ (if c.issuer ≠ "" && !d.roles.any (·.name = c.issuer) then
        ["unknown bounded-counter issuer role '" ++ c.issuer ++ "'"] else [])
    ++ (if exceedsLimits c (boundsOf d) then
        ["counter bounds exceed numeric limits or ceiling is below floor"] else [])
    ++ (if (c.ownership = .account && c.ceiling.isSome != c.headroom_key.isSome) ||
          (c.transfer_headroom.isSome && c.ceiling.isNone) then
        ["ceiling requires initial-headroom; headroom transfers require ceiling"] else [])
    ++ ownershipErrors d c
    ++ operations
    ++ (if c.transfer.any fun (_, r, k) => r = k then [distinct] else [])
    ++ (if c.headroom_key = some c.initial_key then [distinct] else [])
    ++ (if c.transfer_headroom.any fun (_, r, k) => r = k then
        ["headroom recipient and amount fields must differ"] else [])
    ++ (expectedFields c).flatMap (fun (v, k, types) =>
        (if reserved k then ["counter data may not read reserved :" ++ k] else [])
          ++ (if requiresTyped d v k types then []
            else ["counter '" ++ name ++ "': '" ++ v ++ "' requires an appropriately typed :" ++ k]))
    ++ (clause.domains.filter fun (v, _, _) => c.verbs.contains v).map (fun (v, _, _) =>
        "domain may not hide resource acts of '" ++ v ++ "'"),
    owned)

/-- Whether a keyword is escrow bookkeeping. -/
def isBookkeeping (key : String) : Bool := [PREV, DEPS, NONCE].contains key

/-- The errors of the bounded counters of a dialect. -/
def declarationErrors (d : Dialect) : List String :=
  match d.state with
  | none => []
  | some clause =>
      (clause.fields.foldl (fun (errors, owned) (name, rule) =>
        match rule with
        | .boundedCounter c =>
            let (more, owned) := counterErrors d clause name c owned
            (errors ++ more, owned)
        | _ => (errors, owned)) (([] : List String), (∅ : BTreeSet String))).1
      ++ ((clause.fields.flatMap fun (_, rule) => ruleDataFields rule).filter
          fun (_, k) => isBookkeeping k).map (fun _ => "state data may not read escrow bookkeeping")
      ++ (clause.domains.filter fun (_, k, _) => isBookkeeping k).map
          (fun _ => "domain may not read escrow bookkeeping")

-- ── Fields ────

/-- The bounds of a dialect are positive and within the defaults. -/
def boundsViolations (d : Dialect) : List R7Violation :=
  let defaults := StateBounds.default
  match d.state_bounds with
  | none => []
  | some b =>
      (if b.max_string > defaults.max_string || b.max_list > defaults.max_list ||
          b.max_number > defaults.max_number || b.max_fields > defaults.max_fields then
        [.bounds "a bound may not exceed its default"] else [])
      ++ (if b.max_string = 0 || b.max_list = 0 || b.max_number ≤ 0 || b.max_fields = 0 then
        [.bounds "a bound must be positive"] else [])

/-- Fields are some, not too many, and named apart. -/
def fieldCountViolations (d : Dialect) (clause : StateClause) : List R7Violation :=
  let count := clause.fields.length
  (if count = 0 then [.malformed "a state clause declares at least one field"] else [])
    ++ (if UInt32.ofNat count > (boundsOf d).max_fields then
        [.bounds (toString count ++ " fields exceed max-fields " ++
          toString (boundsOf d).max_fields)] else [])

/-- The fields whose name stands before them already. -/
def duplicateFields : List String → List String → List R7Violation
  | _, [] => []
  | seen, name :: rest =>
      if seen.contains name then
        .malformed ("duplicate field '" ++ name ++ "'") :: duplicateFields seen rest
      else duplicateFields (name :: seen) rest

/-- A clause needs a protocol with one opener. -/
def openerViolations (d : Dialect) : List R7Violation :=
  match d.causal_protocol with
  | none => [.malformed "a state clause requires a protocol clause"]
  | some p =>
      if (openerVerb p).isNone then
        [.malformed ("the protocol must have exactly one performative whose only predecessor is "
          ++ "begin")]
      else []

/-- The verbs of a clause are performatives of the dialect. -/
def verbViolations (d : Dialect) (clause : StateClause) : List R7Violation :=
  ((stateBearingVerbs clause).toList.filter fun verb => !d.definesPerformative verb).map
    .unknownVerb

/-- The fields a clause reads are declared with a type it can read. -/
def dataFieldViolations (d : Dialect) (clause : StateClause) : List R7Violation :=
  (dataFieldSet clause).toList.flatMap fun (verb, key) =>
    if key = RESERVED_REPLACES then [.replaces ("'" ++ verb ++ "' reads :replaces as data")]
    else
      let typing := R7Violation.typing ("field :" ++ key ++ " of '" ++ verb
        ++ "' is a symbol or keyword; state-bearing fields are string, number, bool, or list")
      match fieldType d.shapes verb key with
      | none => if d.definesPerformative verb then [.unknownField verb key] else []
      | some .symbol => if recipientField d verb key then [] else [typing]
      | some .keyword => [typing]
      | some _ => []

/-- The clock of a last-writer-wins rule is a required clock field of its own. -/
def clockViolations (d : Dialect) (rule : Rule) : List R7Violation :=
  match clockField rule with
  | none => []
  | some (verb, clock) =>
      let conflicts := match rule with
        | .lwwRegister _ key _ => clock = key
        | .lwwPerSigner _ key _ => clock = key
        | .lwwMap _ key value _ _ => clock = key || clock = value
        | _ => false
      (if fieldType d.shapes verb clock ≠ some .hlc || !requiresTyped d verb clock [.hlc] then
        [.typing ("LWW clock :" ++ clock ++ " of '" ++ verb ++ "' must be a required hlc field")]
        else [])
      ++ (if (boundsOf d).max_string < WIRE_LEN then
        [.bounds "max-string cannot hold a canonical HLC"] else [])
      ++ (if conflicts || reserved clock then
        [.typing "LWW clock must be a distinct application field"] else [])

/-- A value a rule groups or collects by is scalar. -/
def scalarViolation (d : Dialect) (what verb key name : String) : List R7Violation :=
  match fieldType d.shapes verb key with
  | none => []
  | some tc =>
      if isScalar tc then []
      else [.typing (what ++ " :" ++ key ++ " of '" ++ verb ++ "' must be scalar (field '" ++ name
        ++ "')")]

/-- What a histogram or sum reads: a field before it that maps to the values it needs. -/
def derivedViolations (d : Dialect) (fields : List (String × Rule)) (name field : String)
    (isSum : Bool) : List R7Violation :=
  match (fields.takeWhile (·.1 ≠ name)).find? (·.1 = field) with
  | none => [.typing ("'" ++ name ++ "' references field '" ++ field
      ++ "', which is not defined earlier in the clause")]
  | some (_, r) =>
      let mapLike := match r with
        | .lwwPerSigner .. => true
        | .lwwMap .. => true
        | .events .. => true
        | _ => false
      let isEvents := match r with
        | .events .. => true
        | _ => false
      let numeric := match r with
        | .lwwPerSigner verb key _ => fieldType d.shapes verb key = some .number
        | .events verb key => fieldType d.shapes verb key = some .number
        | .lwwMap verb _ value _ _ => fieldType d.shapes verb value = some .number
        | _ => false
      (if mapLike then []
        else [.typing ("'" ++ name
          ++ "' must reference an lww-per-signer, lww-map, or events field")])
      ++ (if !isSum && isEvents then
        [.typing ("histogram '" ++ name ++ "' may not reference an events field")] else [])
      ++ (if isSum && !numeric then
        [.typing ("sum '" ++ name ++ "' requires a numeric field")] else [])

/-- The types a rule demands of the fields it reads. -/
def ruleTypeViolations (d : Dialect) (fields : List (String × Rule)) (name : String) :
    Rule → List R7Violation
  | .progress verb =>
      match d.causal_protocol with
      | none => []
      | some protocol =>
          match positionChain protocol verb with
          | .ok _ => []
          | .error reason => [.typing reason]
  | .lwwMap verb key .. => scalarViolation d "map key" verb key name
  | .valuesPerKey verb key .. => scalarViolation d "map key" verb key name
  | .setUnion verb key => scalarViolation d "value" verb key name
  | .observedSet verb _ key => scalarViolation d "value" verb key name
  | .counter inc dec key =>
      (if inc = dec then [.typing ("counter '" ++ name ++ "' names the same verb twice")] else [])
        ++ [inc, dec].flatMap fun v =>
          match fieldType d.shapes v key with
          | none => []
          | some tc =>
              if tc = .number then []
              else [.typing ("counter '" ++ name ++ "': :" ++ key ++ " of '" ++ v
                ++ "' must be a number")]
  | .histogram field => derivedViolations d fields name field false
  | .sum field => derivedViolations d fields name field true
  | _ => []

/-- The writer, key and delete verb of a map rule that deletes. -/
def deleteVerb : Rule → Option (String × String × String)
  | .valuesPerKey verb key _ (some dv) => some (verb, key, dv)
  | .lwwMap verb key _ _ (some dv) => some (verb, key, dv)
  | _ => none

/-- The keywords a verb's shapes declare, as a set. -/
def declaredKeywordSet (shapes : List ShapeConstraint) (verb : String) : BTreeSet String :=
  (declaredKeywords shapes verb).foldl (·.insert ·) ∅

/-- A delete verb carries the key and `:replaces`, and nothing else. -/
def deleteViolations (d : Dialect) (name : String) (rule : Rule) : List R7Violation :=
  match deleteVerb rule with
  | none => []
  | some (verb, key, dv) =>
      (if dv = verb then [.replaces ("delete verb of '" ++ name ++ "' equals its writer")] else [])
      ++ (if d.definesPerformative dv && declaredKeywordSet d.shapes dv ≠
            ((∅ : BTreeSet String).insert key).insert RESERVED_REPLACES then
          [.replaces ("delete verb '" ++ dv ++ "' must carry exactly :" ++ key ++ " and :replaces")]
        else [])
      ++ (match fieldType d.shapes verb key, fieldType d.shapes dv key with
          | some a, some b =>
              if a ≠ b then
                [.typing ("key :" ++ key ++ " differs in type between '" ++ verb ++ "' and '" ++ dv
                  ++ "'")]
              else []
          | _, _ => [])

/-- `:replaces` stands exactly where the clause implies it. -/
def replacesViolations (d : Dialect) (clause : StateClause) : List R7Violation :=
  d.performatives.flatMap fun p =>
    let has := shapeHasReplaces d.shapes p.name
    let should := (clauseReplacesVerbs clause).contains p.name
    (if has && !should then
      [.replaces ("'" ++ p.name
        ++ "' declares :replaces but no rule makes it a writer, delete, or remove verb")] else [])
    ++ (if should && !has then
      [.replaces ("'" ++ p.name ++ "' is missing the reserved :replaces field")] else [])

/-- A delete verb serves one register. -/
def deleteOwnerViolations :
    List (String × Rule) → BTreeMap String String → List R7Violation
  | [], _ => []
  | (name, rule) :: rest, owners =>
      match deleteVerb rule with
      | none => deleteOwnerViolations rest owners
      | some (verb, _, dv) =>
          (if (owners[dv]?).any (· ≠ verb) then
            [.replaces ("delete verb '" ++ dv ++ "' serves two registers (field '" ++ name ++ "')")]
            else [])
          ++ deleteOwnerViolations rest (owners.insert dv verb)

/-- Initial fields read the opener. -/
def initialViolations (d : Dialect) (clause : StateClause) : List R7Violation :=
  clause.fields.flatMap fun
    | (name, .initial verb _) =>
        if some verb ≠ openerOf d then
          [.typing ("initial field '" ++ name ++ "' must name the unique protocol opener")]
        else []
    | _ => []

/-- A domain filters by a list the opener fixed. -/
def domainViolations (d : Dialect) (clause : StateClause) : List R7Violation :=
  clause.domains.flatMap fun (verb, key, field) =>
    (if some verb = openerOf d then
      [.domain ("a domain may not filter the opener '" ++ verb ++ "'")] else [])
    ++ (match fieldType d.shapes verb key with
        | some tc =>
            if tc = .string then []
            else [.domain ("domain key :" ++ key ++ " of '" ++ verb ++ "' must be a string")]
        | none => [])
    ++ (match clause.ruleOf field with
        | none => [.domain ("domain names undefined field '" ++ field ++ "'")]
        | some rule =>
            (if (ruleVerbs rule).any (fun v => some v ≠ openerOf d) || (ruleVerbs rule).isEmpty then
              [.domain ("domain field '" ++ field ++ "' must be a rule over the opener only")]
              else [])
            ++ (match rule with
              | .initial verb key =>
                  if fieldType d.shapes verb key ≠ some .list then
                    [.domain ("domain field '" ++ field ++ "' must be list-valued")]
                  else []
              | _ => [.domain ("domain field '" ++ field
                  ++ "' must be an `initial` over the opener's list")]))

/-- The violations of a clause, in the order they are reported. -/
def clauseViolations (d : Dialect) (clause : StateClause) : List R7Violation :=
  fieldCountViolations d clause
    ++ duplicateFields [] (clause.fields.map (·.1))
    ++ openerViolations d
    ++ verbViolations d clause
    ++ dataFieldViolations d clause
    ++ clause.fields.flatMap (fun (name, rule) =>
        clockViolations d rule ++ ruleTypeViolations d clause.fields name rule
          ++ deleteViolations d name rule)
    ++ replacesViolations d clause
    ++ deleteOwnerViolations clause.fields ∅
    ++ initialViolations d clause
    ++ domainViolations d clause

section Hashing

variable (sha256 : Octets → Digest)

/-- A name that claims to be a self-address is one. -/
def nameViolations (d : Dialect) : List R7Violation :=
  if (stripStart SELF_ADDRESS_PREFIX d.name).isSome && d.name ≠ dialectName sha256 d then
    [.name (dialectName sha256 d) d.name]
  else []

/-- The violations of the state layer; none for a dialect with neither clause. -/
def r7Violations (d : Dialect) : List R7Violation :=
  (declarationErrors d).map .typing
    ++ boundsViolations d
    ++ (match d.state with
      | none => []
      | some clause => clauseViolations d clause)
    ++ nameViolations sha256 d

end Hashing

end CbclR7
