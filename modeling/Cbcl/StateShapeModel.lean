import Cbcl.DialectParserModel

/-!
# The shape of state-bearing messages

`verify_state_shape` (`r7.rs`) reads one message against the state clause of its dialect: the field
set of a state-bearing verb is closed, the fields rules and domains name are within their bounds,
the bookkeeping fields of counter operations and the `:replaces` list have their form.
-/

namespace CbclStateShape

open CbclMessage CbclAct CbclShape CbclState CbclEscrow CbclDialect CbclDialectParser

-- ── What a clause names ────

/-- Every performative a rule names. -/
def ruleVerbs : Rule → List String
  | .boundedCounter c => c.verbs
  | .lwwRegister verb .. => [verb]
  | .lwwPerSigner verb .. => [verb]
  | .initial verb _ => [verb]
  | .exists verb => [verb]
  | .count verb => [verb]
  | .progress verb => [verb]
  | .events verb _ => [verb]
  | .setUnion verb _ => [verb]
  | .values verb _ => [verb]
  | .valuesPerKey verb _ _ delete => verb :: delete.toList
  | .lwwMap verb _ _ _ delete => verb :: delete.toList
  | .observedSet add remove _ => [add, remove]
  | .counter inc dec _ => [inc, dec]
  | .histogram _ => []
  | .sum _ => []

/-- The clock field of a last-writer-wins rule. -/
def clockField : Rule → Option (String × String)
  | .lwwRegister verb _ clock => some (verb, clock)
  | .lwwPerSigner verb _ clock => some (verb, clock)
  | .lwwMap verb _ _ clock _ => some (verb, clock)
  | _ => none

/-- Every verb-keyword pair a rule reads as data. -/
def ruleDataFields : Rule → List (String × String)
  | .boundedCounter c => c.dataFields
  | .lwwRegister verb key clock => [(verb, key), (verb, clock)]
  | .lwwPerSigner verb key clock => [(verb, key), (verb, clock)]
  | .lwwMap verb key value clock delete =>
      [(verb, key), (verb, value), (verb, clock)] ++ (delete.map fun d => (d, key)).toList
  | .initial verb key => [(verb, key)]
  | .events verb key => [(verb, key)]
  | .setUnion verb key => [(verb, key)]
  | .values verb key => [(verb, key)]
  | .valuesPerKey verb key value delete =>
      [(verb, key), (verb, value)] ++ (delete.map fun d => (d, key)).toList
  | .observedSet add remove key => [(add, key), (remove, key)]
  | .counter inc dec key => [(inc, key), (dec, key)]
  | .exists _ => []
  | .count _ => []
  | .progress _ => []
  | .histogram _ => []
  | .sum _ => []

/-- Whether a clause names a verb. -/
def stateBearing (clause : StateClause) (verb : String) : Bool :=
  clause.fields.any (fun (_, rule) => (ruleVerbs rule).contains verb) ||
    clause.domains.any (fun (v, _, _) => v = verb)

/-- Every verb-keyword pair a clause reads as data. -/
def dataFields (clause : StateClause) : List (String × String) :=
  clause.fields.flatMap (fun (_, rule) => ruleDataFields rule)
    ++ clause.domains.map (fun (v, key, _) => (v, key))

/-- The keywords of a verb that rules and domains read, in order. -/
def namedFields (clause : StateClause) (verb : String) : BTreeSet String :=
  ((dataFields clause).filter (·.1 = verb)).foldl (fun keys pair => keys.insert pair.2) ∅

/-- The keywords the shapes of a verb declare. -/
def declaredKeywords (shapes : List ShapeConstraint) (verb : String) : List String :=
  ((shapes.filter (·.performative = verb)).flatMap (·.rules)).flatMap fun
    | .require keyword _ _ => [keyword]
    | .optional keyword _ _ _ => [keyword]
    | .maxDepth _ => []

/-- The bounds of a dialect. -/
def boundsOf (d : Dialect) : StateBounds := d.state_bounds.getD .default

/-- The counter whose operations a verb is among. -/
def ruleFor (d : Dialect) (verb : String) : Option (String × CounterRule) := do
  let clause ← d.state
  clause.fields.findSome? fun
    | (name, .boundedCounter c) =>
        if c.operationVerbs.contains verb then some (name, c) else none
    | _ => none

/-- Whether a keyword names the recipient of a transfer. -/
def recipientField (d : Dialect) (verb key : String) : Bool :=
  (ruleFor d verb).any fun (_, c) =>
    c.transfer.any (fun (v, r, _) => v = verb && r = key) ||
      c.transfer_headroom.any (fun (v, r, _) => v = verb && r = key)

/-- Whether a keyword names the allocations of an account-owned counter. -/
def allocationField (clause : StateClause) (verb key : String) : Bool :=
  clause.fields.any fun
    | (_, .boundedCounter c) =>
        c.ownership = .account && c.initial_verb = verb &&
          (c.initial_key = key || c.headroom_key = some key)
    | _ => false

-- ── Checks ────

/-- A violation of the state shape. -/
def violation (rule : String) (field : Option String) (detail : String) : ShapeViolation :=
  ⟨rule, field.map (":" ++ ·), none, none, detail⟩

/-- Only declared and routing keywords, in keyword position. -/
def checkClosed (declared : List String) (verb : String) :
    List SExpr → Except ShapeViolation Unit
  | .atom (.keyword k) :: rest =>
      if !declared.contains k && !ROUTING_KEYWORDS.contains k then
        .error (violation "closed" (some k) ("undeclared field :" ++ k ++ " on '" ++ verb ++ "'"))
      else match rest with
        | [] => .ok ()
        | _ :: rest => checkClosed declared verb rest
  | other :: _ =>
      .error (violation "closed" none
        ("positional parameter " ++ other.display ++ " on '" ++ verb ++ "'"))
  | [] => .ok ()

/-- A string, number or Boolean. -/
def isScalarValue : SExpr → Bool
  | .atom (.str _) => true
  | .atom (.num _) => true
  | .atom (.bool _) => true
  | _ => false

/-- A length as the source compares it with a bound. -/
def lengthU32 (n : Nat) : UInt32 := UInt32.ofNat n

/-- The bounds of an atom. -/
def checkAtomBounds (verb key : String) (bounds : StateBounds) : Atom → Except ShapeViolation Unit
  | .str s =>
      if lengthU32 s.utf8ByteSize > bounds.max_string then
        .error (violation "size" (some key)
          (":" ++ key ++ " of '" ++ verb ++ "' exceeds max-string " ++ toString bounds.max_string))
      else .ok ()
  | .num n =>
      if n.toInt.natAbs > bounds.max_number.toUInt64.toNat then
        .error (violation "size" (some key)
          (":" ++ key ++ " of '" ++ verb ++ "' exceeds max-number " ++ toString bounds.max_number))
      else .ok ()
  | _ => .ok ()

/-- The bounds of a value: a scalar, or a list of scalars. -/
def checkBounds (verb key : String) (bounds : StateBounds) : SExpr → Except ShapeViolation Unit
  | .atom a => checkAtomBounds verb key bounds a
  | .list items =>
      if lengthU32 items.length > bounds.max_list then
        .error (violation "size" (some key)
          (":" ++ key ++ " of '" ++ verb ++ "' exceeds max-list " ++ toString bounds.max_list))
      else items.forM fun
        | .atom a =>
            if isScalarValue (.atom a) then checkAtomBounds verb key bounds a
            else .error (violation "size" (some key)
              (":" ++ key ++ " of '" ++ verb ++ "' holds a non-scalar element"))
        | .list _ => .error (violation "size" (some key)
            (":" ++ key ++ " of '" ++ verb ++ "' holds a non-scalar element"))

/-- The clock of a last-writer-wins rule is a canonical clock text. -/
def checkClocks (clause : StateClause) (verb : String) (fields : BTreeMap String SExpr) :
    Except ShapeViolation Unit :=
  clause.fields.forM fun (_, rule) =>
    match clockField rule with
    | none => .ok ()
    | some (writer, clock) =>
        if writer = verb && !(fields[clock]?).any TypeConstraint.hlc.matchesValue then
          .error (violation "hlc" (some clock)
            "expected canonical hlc-<16 lower hex>-<8 lower hex> string")
        else .ok ()

/-- The allocations of an account-owned counter are within the bounds. -/
def checkAllocations (bounds : StateBounds) (key : String) (value : SExpr) :
    Except ShapeViolation Unit :=
  match allocations value with
  | .error e => .error (violation "allocations" (some key) e)
  | .ok parsed =>
      if parsed.size > bounds.max_list.toNat ||
          parsed.toList.any (fun (a, n) =>
            a.utf8ByteSize > bounds.max_string.toNat || n > bounds.max_number.toInt) then
        .error (violation "allocations" (some key) "allocation bounds exceeded")
      else .ok ()

/-- A recipient is an account key within the bounds. -/
def checkRecipientField (bounds : StateBounds) (key : String) (value : SExpr) :
    Except ShapeViolation Unit :=
  if (text value).any (fun s => s.toList.head? = some '@' && s.utf8ByteSize > 1 &&
      s.utf8ByteSize ≤ bounds.max_string.toNat) then .ok ()
  else .error (violation "recipient" (some key) "recipient must be an account key")

/-- The fields rules and domains name, each by its kind. -/
def checkNamed (d : Dialect) (clause : StateClause) (verb : String)
    (fields : BTreeMap String SExpr) : Except ShapeViolation Unit :=
  (namedFields clause verb).toList.forM fun key =>
    match fields[key]? with
    | none => .ok ()
    | some value =>
        if allocationField clause verb key then checkAllocations (boundsOf d) key value
        else if recipientField d verb key then checkRecipientField (boundsOf d) key value
        else checkBounds verb key (boundsOf d) value

/-- A nonce of 1 to 256 bytes. -/
def isNonce : Option SExpr → Bool
  | some (.atom (.str s)) => s ≠ "" && s.utf8ByteSize ≤ 256
  | _ => false

/-- Dependencies are addresses in strictly increasing order, other than the previous link. -/
def checkDependencies (prev : String) : Option String → List SExpr → Except ShapeViolation Unit
  | _, [] => .ok ()
  | last, .atom (.symbol s) :: rest =>
      if isAddress s && s ≠ prev && last.all (· < s) then checkDependencies prev (some s) rest
      else .error (violation "escrow" (some DEPS) "dependencies must be sorted distinct addresses")
  | _, _ :: _ =>
      .error (violation "escrow" (some DEPS) "dependencies must be sorted distinct addresses")

/-- The bookkeeping of a counter operation. -/
def checkEscrow (d : Dialect) (verb : String) (fields : BTreeMap String SExpr) :
    Except ShapeViolation Unit :=
  match ruleFor d verb with
  | none => .ok ()
  | some (_, counter) =>
      if counter.certification.isQuorum && !isNonce fields[NONCE]? then
        .error (violation "escrow" (some NONCE) "missing or invalid transaction nonce")
      else match fields[PREV]? with
        | some (.atom (.symbol prev)) =>
            if !isAddress prev then
              .error (violation "escrow" (some PREV) "missing or invalid escrow-prev")
            else match fields[DEPS]? with
              | some (.list xs) =>
                  if xs.length > (boundsOf d).max_list.toNat then
                    .error (violation "escrow" (some DEPS) "missing or oversized escrow-deps")
                  else checkDependencies prev none xs
              | _ => .error (violation "escrow" (some DEPS) "missing or oversized escrow-deps")
        | _ => .error (violation "escrow" (some PREV) "missing or invalid escrow-prev")

/-- The addresses of a `:replaces` list are distinct. -/
def checkReplacedItems : List String → List SExpr → Except ShapeViolation Unit
  | _, [] => .ok ()
  | seen, item :: rest =>
      match text item with
      | none =>
          .error (violation "replaces" (some RESERVED_REPLACES) ":replaces holds a non-address")
      | some address =>
          if !isAddress address then
            .error (violation "replaces" (some RESERVED_REPLACES)
              ("'" ++ address ++ "' is not a content address"))
          else if seen.contains address then
            .error (violation "replaces" (some RESERVED_REPLACES)
              ("'" ++ address ++ "' named twice"))
          else checkReplacedItems (address :: seen) rest

/-- The `:replaces` list: required of the verbs that replace, bounded and well formed. -/
def checkReplaces (d : Dialect) (clause : StateClause) (verb : String)
    (fields : BTreeMap String SExpr) : Except ShapeViolation Unit :=
  match fields[RESERVED_REPLACES]? with
  | none =>
      if (clauseReplacesVerbs clause).contains verb then
        .error (violation "replaces" (some RESERVED_REPLACES) "missing required :replaces list")
      else .ok ()
  | some (.list items) =>
      if lengthU32 items.length > (boundsOf d).max_list then
        .error (violation "replaces" (some RESERVED_REPLACES)
          (":replaces names more than " ++ toString (boundsOf d).max_list ++ " addresses"))
      else checkReplacedItems [] items
  | some _ => .error (violation "replaces" (some RESERVED_REPLACES) ":replaces must be a list")

/-- The state shape of a message: trivial for a verb the clause does not name. -/
def verifyStateShape (d : Dialect) (msg : Message) : Except ShapeViolation Unit :=
  match d.state, msg.innermostSimple with
  | some clause, some simple =>
      match simple.performative with
      | none => .ok ()
      | some performative =>
          let verb := performative.name
          if !stateBearing clause verb then .ok ()
          else do
            let fields := keywordFields simple
            checkClosed (declaredKeywords d.shapes verb) verb (params simple)
            checkClocks clause verb fields
            checkNamed d clause verb fields
            checkEscrow d verb fields
            checkReplaces d clause verb fields
  | _, _ => .ok ()

/-- The text of a shape violation. -/
def violationText (v : ShapeViolation) : String := "shape violation: " ++ v.detail

end CbclStateShape
