import Cbcl.DialectModel

/-!
# Reading state clauses

`state_parser.rs` reads `(state entry …)` and `(:state-bounds bound …)`.  Every head is a
different symbol; an unknown head, a wrong number of arguments or an atom of the wrong kind is an
error, and nothing is repaired.
-/

namespace CbclStateParser

open CbclMessage CbclShape CbclState CbclEscrow CbclCertification CbclDialect

/-- Read a symbol; `what` names it in the error. -/
def symbol (s : SExpr) (what : String) : Except String String :=
  match s with
  | .atom (.symbol x) => .ok x
  | other => .error (what ++ " must be a symbol, got " ++ other.display)

/-- Read a keyword; `what` names it in the error. -/
def keyword (s : SExpr) (what : String) : Except String String :=
  match s with
  | .atom (.keyword x) => .ok x
  | other => .error (what ++ " must be a keyword field (:name), got " ++ other.display)

/-- A verb argument. -/
def verb (s : SExpr) : Except String String := symbol s "verb"

/-- A field argument. -/
def key (s : SExpr) : Except String String := keyword s "field"

/-- A field name: a lowercase letter, then lowercase letters, digits and dashes. -/
def isFieldName (s : String) : Bool :=
  match s.toList with
  | [] => false
  | c :: rest =>
      (c :: rest).length ≤ 48 && c.isLower &&
        (c :: rest).all fun c => c.isLower || c.isDigit || c = '-'

-- ── Bounded counters ────

/-- The options a bounded counter may have. -/
def COUNTER_OPTIONS : List String :=
  ["floor", "ceiling", "certification", "ownership", "initial", "initial-rights",
    "initial-headroom", "issuers", "increment", "decrement", "transfer", "transfer-headroom"]

/-- The options of a declaration, by name. -/
abbrev Options := BTreeMap String (List SExpr)

/-- File one option. -/
def addOption (options : Options) (option : SExpr) : Except String Options :=
  match option with
  | .list [] => .error "empty counter option"
  | .list (head :: args) => do
      let name ← symbol head "counter option"
      if name ∉ COUNTER_OPTIONS then
        .error ("unknown bounded-counter option '" ++ name ++ "'")
      else if name ∈ options then
        .error ("duplicate bounded-counter option '" ++ name ++ "'")
      else return options.insert name args
  | _ => .error "counter option must be a list"

/-- The arguments of an option that must be there, with their number. -/
def getOption (options : Options) (name : String) (n : Nat) : Except String (List SExpr) :=
  match options[name]? with
  | none => .error ("missing bounded-counter option '" ++ name ++ "'")
  | some xs =>
      if xs.length ≠ n then .error ("'" ++ name ++ "' takes " ++ toString n ++ " arguments")
      else .ok xs

/-- An integer option. -/
def integerOption (options : Options) (name : String) : Except String Int64 := do
  match ← getOption options name 1 with
  | [.atom (.num n)] => .ok n
  | _ => .error ("'" ++ name ++ "' requires an integer")

/-- A verb and a field. -/
def pairOption (options : Options) (name : String) : Except String (String × String) := do
  match ← getOption options name 2 with
  | [v, k] => return (← verb v, ← key k)
  | _ => .error ("'" ++ name ++ "' takes 2 arguments")

/-- A verb, a recipient field and an amount field. -/
def tripleOption (options : Options) (name : String) :
    Except String (String × String × String) := do
  match ← getOption options name 3 with
  | [v, r, k] => return (← verb v, ← keyword r "recipient field", ← keyword k "amount field")
  | _ => .error ("'" ++ name ++ "' takes 3 arguments")

/-- An option that is read only where it is present. -/
def optionalOption {α : Type} (options : Options) (name : String)
    (read : Options → String → Except String α) : Except String (Option α) :=
  if name ∈ options then do
    let x ← read options name
    return some x
  else .ok none

/-- The ownership of a counter. -/
def parseOwnership (options : Options) : Except String Ownership :=
  match options["ownership"]? with
  | none => .ok .account
  | some [x] => do
      let mode ← symbol x "ownership"
      if mode = "account" then .ok .account
      else if mode = "collective" then .ok .collective
      else .error "ownership must be account or collective"
  | some _ => .error "ownership takes one argument"

/-- What the options of a certification profile have said so far. -/
structure Profile where
  validators : Option (List String)
  faults : Option UInt32
  seen : BTreeSet String

/-- Read one option of a certification profile. -/
def addProfileOption (p : Profile) (option : SExpr) : Except String Profile :=
  match option with
  | .list [] => .error "empty certification option"
  | .list (head :: args) => do
      let name ← symbol head "certification option"
      if name ∈ p.seen then .error ("duplicate certification option '" ++ name ++ "'")
      else
        let p := { p with seen := p.seen.insert name }
        if name = "validators" then
          if args.isEmpty then .error "validators requires at least one key"
          else
            let keys ← args.mapM fun x => symbol x "validator key"
            return { p with validators := some keys }
        else if name = "faults" then
          match args with
          | [.atom (.num n)] =>
              if 0 ≤ n ∧ n.toInt < 2 ^ 32 then
                return { p with faults := some (UInt32.ofInt n.toInt) }
              else .error "faults must be a nonnegative 32-bit integer"
          | [_] => .error "faults requires an integer"
          | _ => .error ("unknown or malformed certification option '" ++ name ++ "'")
        else .error ("unknown or malformed certification option '" ++ name ++ "'")
  | _ => .error "certification option must be a list"

/-- A quorum profile; a roster in the dialect is checked at once. -/
def quorumBudget (validators : Option (List String)) (faults : Option UInt32) :
    Except String Certification :=
  match validators with
  | some keys => do
      let c ← Committee.new keys faults
      return .quorumBudget (some c.validators) (some c.faults)
  | none => .ok (.quorumBudget none faults)

/-- Read a certification profile. -/
def parseCertification : List SExpr → Except String Certification
  | [] => .error "certification requires a profile"
  | mode :: args => do
      let profile ← symbol mode "certification profile"
      if profile = "host-gate" ∧ args = [] then .ok .hostGate
      else if profile = "quorum-budget" then
        let p ← args.foldlM addProfileOption ⟨none, none, ∅⟩
        quorumBudget p.validators p.faults
      else .error "unknown or malformed certification profile"

/-- The options that go with accounts only. -/
def ACCOUNT_OPTIONS : List String :=
  ["initial-rights", "initial-headroom", "transfer", "transfer-headroom"]

/-- Read the issuers: a role, or `()` for everyone. -/
def parseIssuer (options : Options) : Except String String := do
  match ← getOption options "issuers" 1 with
  | [.list []] => .ok ""
  | [x] => symbol x "issuer role or ()"
  | _ => .error "'issuers' takes 1 arguments"

/-- Read a bounded counter. -/
def parseCounter (args : List SExpr) : Except String CounterRule := do
  let options ← args.foldlM addOption ∅
  let ownership ← parseOwnership options
  let collective := ownership = .collective
  if collective ∧ ACCOUNT_OPTIONS.any (· ∈ options) then
    .error ("collective counters use scalar initial and do not accept account "
      ++ "allocation/transfer options")
  else if ¬ collective ∧ "initial" ∈ options then
    .error "account ownership requires initial-rights"
  else do
    let (initial_verb, initial_key) ←
      pairOption options (if collective then "initial" else "initial-rights")
    let ceiling ← optionalOption options "ceiling" integerOption
    let headroom ← optionalOption options "initial-headroom" pairOption
    if ¬ collective ∧ ceiling.isSome ≠ headroom.isSome then
      .error "ceiling and initial-headroom must occur together"
    else if headroom.any (fun (v, k) => v ≠ initial_verb || k = initial_key) then
      .error "headroom needs the same opener and a distinct field"
    else do
      let transfer_headroom ← optionalOption options "transfer-headroom" tripleOption
      if transfer_headroom.isSome ∧ ceiling.isNone then
        .error "headroom transfer requires ceiling"
      else do
        let certification ← match options["certification"]? with
          | some xs => parseCertification xs
          | none => .ok .hostGate
        if collective ∧ !certification.isQuorum then
          .error "collective counters require quorum-budget certification"
        else do
          let floor ← integerOption options "floor"
          let issuer ← parseIssuer options
          let increment ← pairOption options "increment"
          let decrement ← pairOption options "decrement"
          let transfer ←
            (if collective then .ok none else (tripleOption options "transfer").map some)
          return { ownership, certification, floor, ceiling, initial_verb, initial_key,
                   headroom_key := headroom.map (·.2), issuer, increment, decrement, transfer,
                   transfer_headroom }

-- ── Rules and clauses ────

/-- A wrong number of arguments. -/
def wrongArity (head : String) (n : Nat) (args : List SExpr) : Except String Rule :=
  .error (head ++ " takes " ++ toString n ++ " argument(s), got " ++ toString args.length)

/-- A rule over one verb. -/
def verbRule (head : String) (make : String → Rule) : List SExpr → Except String Rule
  | [v] => do return make (← verb v)
  | args => wrongArity head 1 args

/-- A rule over a verb and a field. -/
def verbKeyRule (head : String) (make : String → String → Rule) : List SExpr → Except String Rule
  | [v, k] => do return make (← verb v) (← key k)
  | args => wrongArity head 2 args

/-- A rule over a verb, a field and a clock. -/
def clockRule (head : String) (make : String → String → String → Rule) :
    List SExpr → Except String Rule
  | [v, k, c] => do return make (← verb v) (← key k) (← key c)
  | args => wrongArity head 3 args

/-- A rule over two verbs and a field. -/
def twoVerbRule (head : String) (make : String → String → String → Rule) :
    List SExpr → Except String Rule
  | [a, b, k] => do return make (← verb a) (← verb b) (← key k)
  | args => wrongArity head 3 args

/-- A rule over a field of the clause. -/
def fieldRule (head : String) (make : String → Rule) : List SExpr → Except String Rule
  | [f] => do return make (← symbol f "field name")
  | args => wrongArity head 1 args

/-- The rules that were retired. -/
def RETIRED_RULES : List String :=
  ["last", "latest-per-signer", "latest-per-key", "register-per-key"]

/-- Read the arguments of a rule. -/
def parseRuleArgs (head : String) (args : List SExpr) : Except String Rule :=
  if head = "bounded-counter" then do return .boundedCounter (← parseCounter args)
  else if head = "lww-register" then clockRule head .lwwRegister args
  else if head = "lww-per-signer" then clockRule head .lwwPerSigner args
  else if head = "lww-map" then
    match args with
    | [v, k, x, c] => do return .lwwMap (← verb v) (← key k) (← key x) (← key c) none
    | [v, k, x, c, d] => do
        return .lwwMap (← verb v) (← key k) (← key x) (← key c) (some (← verb d))
    | _ => .error (head ++ " takes 4 or 5 arguments, got " ++ toString args.length)
  else if head ∈ RETIRED_RULES then
    .error ("retired state rule '" ++ head
      ++ "': use initial for opener fields or an explicit lww-* rule with a clock")
  else if head = "initial" then verbKeyRule head .initial args
  else if head = "exists" then verbRule head .«exists» args
  else if head = "count" then verbRule head .count args
  else if head = "progress" then verbRule head .progress args
  else if head = "events" then verbKeyRule head .events args
  else if head = "set-union" then verbKeyRule head .setUnion args
  else if head = "values" ∨ head = "multi-value-register" then verbKeyRule head .values args
  else if head = "values-per-key" ∨ head = "multi-value-map" then
    match args with
    | [v, k, x] => do return .valuesPerKey (← verb v) (← key k) (← key x) none
    | [v, k, x, d] => do
        -- the delete verb is read first
        let delete ← verb d
        return .valuesPerKey (← verb v) (← key k) (← key x) (some delete)
    | _ => .error (head ++ " takes 3 or 4 arguments, got " ++ toString args.length)
  else if head = "observed-set" then twoVerbRule head .observedSet args
  else if head = "counter" then twoVerbRule head .counter args
  else if head = "histogram" then fieldRule head .histogram args
  else if head = "sum" then fieldRule head .sum args
  else .error ("unknown rule '" ++ head ++ "' (SPEC-019 REQ-1901)")

/-- Read one rule `(head arg …)`. -/
def parseRule : SExpr → Except String Rule
  | .list (head :: args) => do
      let head ← symbol head "rule head"
      parseRuleArgs head args
  | _ => .error "a rule must be a non-empty list"

/-- Read one entry of a clause: a domain, or a named field. -/
def parseEntry : SExpr → Except String Entry
  | .list (head :: args) =>
      if isSymbol "domain" head then
        match args with
        | [v, k, f] => do
            return .domain (← symbol v "domain verb") (← keyword k "domain key")
              (← symbol f "domain field")
        | _ => .error "domain takes: verb :key field"
      else match args with
        | [rule] => do
            let name ← symbol head "field name"
            if !isFieldName name then
              .error ("'" ++ name ++ "' is not a field name ([a-z][a-z0-9-]\x7b0,47\x7d)")
            else return .field name (← parseRule rule)
        | _ => .error "a field entry is: (name (rule …))"
  | _ => .error "a state entry must be a non-empty list"

/-- Read a `(state entry …)` clause. -/
def parseState : SExpr → Except String StateClause
  | .list (head :: entry :: entries) =>
      if !isSymbol "state" head then .error "state clause requires: state entry…"
      else do
        let entries ← (entry :: entries).mapM parseEntry
        return ⟨entries⟩
  | .list _ => .error "state clause requires: state entry…"
  | _ => .error "state clause must be a list"

/-- Read one bound, given those read before. -/
def addBound (acc : StateBounds × List String) (bound : SExpr) :
    Except String (StateBounds × List String) :=
  match bound with
  | .list [head, value] => do
      let name ← symbol head "bound name"
      match value with
      | .atom (.num n) =>
          if ¬ 0 < n then
            .error ("bound " ++ name ++ " must be a positive number, got " ++ value.display)
          else if name ∈ acc.2 then .error ("duplicate bound " ++ name)
          else
            let b := acc.1
            let seen := acc.2 ++ [name]
            if name = "max-string" then
              return ({ b with max_string := UInt32.ofInt n.toInt }, seen)
            else if name = "max-list" then return ({ b with max_list := UInt32.ofInt n.toInt }, seen)
            else if name = "max-number" then return ({ b with max_number := n }, seen)
            else if name = "max-fields" then
              return ({ b with max_fields := UInt32.ofInt n.toInt }, seen)
            else .error ("unknown bound '" ++ name ++ "'")
      | other =>
          .error ("bound " ++ name ++ " must be a positive number, got " ++ other.display)
  | _ => .error "a bound is: (max-… n)"

/-- Read a `(:state-bounds bound …)` clause; absent bounds take defaults. -/
def parseStateBounds : SExpr → Except String StateBounds
  | .list (.atom (.keyword k) :: bounds) =>
      if k ≠ "state-bounds" then .error ":state-bounds clause requires: :state-bounds bound…"
      else do
        let (b, _) ← bounds.foldlM addBound (StateBounds.default, [])
        return b
  | .list _ => .error ":state-bounds clause requires: :state-bounds bound…"
  | _ => .error ":state-bounds clause must be a list"

end CbclStateParser
