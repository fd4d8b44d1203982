import Cbcl.DialectModel
import Cbcl.TypedAddrModel

/-!
# The signing form of a dialect

What a signature over a dialect covers (`canonical.rs`): one S-expression headed by `dialect`, with
a section for each field.  The first six sections are always there; the protocol, the shapes, the
roles, the causal-locality mode, the state clause and its bounds are written only when declared.
The signature, the hash and the uncompiled protocol text stay out, and so does the routing table
an installation derives.
-/

namespace CbclDialectCanonical

open CbclMessage CbclProtocol CbclShape CbclState CbclEscrow CbclCertification CbclCanonical
  CbclTypedAddr CbclDialect CbclTreeMap
open CbclRole hiding Dialect PerformativeDef

/-- A symbol. -/
def sym (s : String) : SExpr := .atom (.symbol s)

/-- A string. -/
def str (s : String) : SExpr := .atom (.str s)

/-- A keyword. -/
def kw (s : String) : SExpr := .atom (.keyword s)

/-- A machine integer as a number. -/
def numU32 (n : UInt32) : SExpr := .atom (.num (Int64.ofNat n.toNat))

/-- A form: a symbol and its arguments. -/
def form (head : String) (args : List SExpr) : SExpr := .list (sym head :: args)

-- ── Protocol, shapes and roles ────

/-- A node reference. -/
def nodeRefToSexpr : NodeRef → SExpr
  | .single s => form "single" [str s]
  | .any set => form "any" (set.toList.map str)
  | .all set => form "all" (set.toList.map str)

/-- A step: its performative, predecessors and successors. -/
def stepToSexpr (s : StepDecl) : SExpr :=
  form "step" [str s.performative, form "predecessors" (s.predecessors.map nodeRefToSexpr),
    form "successors" (s.successors.map nodeRefToSexpr)]

/-- The steps of a protocol, in key order; the keys are not written. -/
def protocolToSexpr (p : CausalProtocol) : SExpr :=
  form "causal-protocol" ((valuesOf p.steps).map stepToSexpr)

/-- The type of a keyword, if it has one. -/
def typeConstraintToSexpr (tc : Option TypeConstraint) : SExpr :=
  form "type" (tc.map fun t => sym t.display).toList

/-- The default of an optional keyword, if it has one. -/
def defaultToSexpr (d : Option SExpr) : SExpr := form "default" d.toList

mutual
/-- A shape rule, its children after its own fields. -/
def shapeRuleToSexpr : ShapeRule → SExpr
  | .require keyword tc children =>
      form "require" ([str keyword, typeConstraintToSexpr tc] ++ shapeRulesToSexpr children)
  | .optional keyword tc default children =>
      form "optional" ([str keyword, typeConstraintToSexpr tc, defaultToSexpr default]
        ++ shapeRulesToSexpr children)
  | .maxDepth n => form "max-depth" [numU32 n]
/-- Some shape rules, in order. -/
def shapeRulesToSexpr : List ShapeRule → List SExpr
  | [] => []
  | r :: rest => shapeRuleToSexpr r :: shapeRulesToSexpr rest
end

/-- A shape constraint. -/
def shapeToSexpr (s : ShapeConstraint) : SExpr :=
  form "shape" (str s.performative :: shapeRulesToSexpr s.rules)

/-- The shapes, in declaration order. -/
def shapesToSexpr (shapes : List ShapeConstraint) : SExpr :=
  form "shapes" (shapes.map shapeToSexpr)

/-- The name of a cardinality. -/
def cardinalityName : RoleCardinality → String
  | .singleton => "singleton"
  | .indexed => "indexed"

/-- The roles, in declaration order. -/
def rolesToSexpr (roles : List RoleDecl) : SExpr :=
  form "roles" (roles.map fun r =>
    form "role-decl" [str r.name, sym (cardinalityName r.cardinality)])

/-- The annotation of a performative, its recipients sorted. -/
def roleAnnotationToSexpr (ann : RoleAnnotation) : SExpr :=
  form "role" [form "from" [str ann.from], form "to" (ann.to.toList.map str)]

-- ── The state clause ────

/-- The head of a rule. -/
def ruleHead : Rule → String
  | .boundedCounter _ => "bounded-counter"
  | .lwwRegister .. => "lww-register"
  | .lwwPerSigner .. => "lww-per-signer"
  | .lwwMap .. => "lww-map"
  | .initial .. => "initial"
  | .exists _ => "exists"
  | .count _ => "count"
  | .progress _ => "progress"
  | .events .. => "events"
  | .setUnion .. => "set-union"
  | .values .. => "values"
  | .valuesPerKey .. => "values-per-key"
  | .observedSet .. => "observed-set"
  | .counter .. => "counter"
  | .histogram _ => "histogram"
  | .sum _ => "sum"

/-- The fault bound written for a certification: the one its committee resolves to, when it names
    validators. -/
def writtenBound (validators : Option (List String)) (faults : Option UInt32) : Option UInt32 :=
  match validators with
  | some keys =>
      match Committee.new keys faults with
      | .ok c => some c.faults
      | .error _ => none
  | none => faults

/-- The certification, nothing for the host gate. -/
def certificationOption : Certification → Option SExpr
  | .hostGate => none
  | .quorumBudget validators faults =>
      some (form "certification" ([sym "quorum-budget"]
        ++ (validators.map fun keys =>
            form "validators" ((keys.insertionSort (· ≤ ·)).map sym)).toList
        ++ ((writtenBound validators faults).map fun f => form "faults" [numU32 f]).toList))

/-- The options of a bounded counter. -/
def canonicalOptions (c : CounterRule) : List SExpr :=
  [form "floor" [.atom (.num c.floor)]]
    ++ (c.ceiling.map fun n => form "ceiling" [.atom (.num n)]).toList
    ++ (certificationOption c.certification).toList
    ++ (if c.ownership = .collective then [form "ownership" [sym "collective"]] else [])
    ++ [form (if c.ownership = .collective then "initial" else "initial-rights")
        [sym c.initial_verb, kw c.initial_key]]
    ++ (c.headroom_key.map fun k => form "initial-headroom" [sym c.initial_verb, kw k]).toList
    ++ [form "issuers" [if c.issuer = "" then .list [] else sym c.issuer],
      form "increment" [sym c.increment.1, kw c.increment.2],
      form "decrement" [sym c.decrement.1, kw c.decrement.2]]
    ++ (c.transfer.map fun t => form "transfer" [sym t.1, kw t.2.1, kw t.2.2]).toList
    ++ (c.transfer_headroom.map fun t =>
        form "transfer-headroom" [sym t.1, kw t.2.1, kw t.2.2]).toList

/-- The arguments of a rule. -/
def ruleArguments : Rule → List SExpr
  | .boundedCounter c => canonicalOptions c
  | .lwwRegister verb key clock => [str verb, str key, str clock]
  | .lwwPerSigner verb key clock => [str verb, str key, str clock]
  | .lwwMap verb key value clock delete =>
      [str verb, str key, str value, str clock] ++ (delete.map str).toList
  | .initial verb key => [str verb, str key]
  | .events verb key => [str verb, str key]
  | .setUnion verb key => [str verb, str key]
  | .values verb key => [str verb, str key]
  | .exists verb => [str verb]
  | .count verb => [str verb]
  | .progress verb => [str verb]
  | .valuesPerKey verb key value delete =>
      [str verb, str key, str value] ++ (delete.map str).toList
  | .observedSet add remove key => [str add, str remove, str key]
  | .counter inc dec key => [str inc, str dec, str key]
  | .histogram field => [str field]
  | .sum field => [str field]

/-- An entry of a clause. -/
def entryToSexpr : Entry → SExpr
  | .domain verb key field => form "domain" [str verb, str key, str field]
  | .field name rule => form "field" [str name, form (ruleHead rule) (ruleArguments rule)]

/-- A state clause, in clause order. -/
def stateToSexpr (clause : StateClause) : SExpr :=
  form "state" (clause.entries.map entryToSexpr)

/-- The bounds of the state layer. -/
def stateBoundsToSexpr (b : StateBounds) : SExpr :=
  form "state-bounds" [numU32 b.max_string, numU32 b.max_list, .atom (.num b.max_number),
    numU32 b.max_fields]

-- ── The whole dialect ────

/-- A performative with its parameters, template and annotation. -/
def performativeToSexpr (p : PerformativeDef) : SExpr :=
  form "perf" ([str p.name, form "params" p.params, p.template]
    ++ (p.role.map roleAnnotationToSexpr).toList)

/-- The resource bounds. -/
def resourcesToSexpr (r : ResourceBounds) : SExpr :=
  form "resources" [numU32 r.max_depth, numU32 r.max_expansion_size, numU32 r.verification_time_ms]

/-- The sections written for a declared mode only. -/
def localitySection : CausalLocality → List SExpr
  | .reject => []
  | .derive _ => [form "causal-locality" [sym "derive"]]

/-- The signable S-expression of a dialect. -/
def toSignableSexpr (d : Dialect) : SExpr :=
  form "dialect" ([str d.name,
      form "extends" (d.extends.map str),
      form "author" (d.author.map str).toList,
      form "performatives" (d.performatives.map performativeToSexpr),
      resourcesToSexpr d.resources,
      form "examples" d.examples]
    ++ (d.causal_protocol.map protocolToSexpr).toList
    ++ (if d.shapes.isEmpty then [] else [shapesToSexpr d.shapes])
    ++ (if d.roles.isEmpty then [] else [rolesToSexpr d.roles])
    ++ localitySection d.causal_locality
    ++ (d.state.map stateToSexpr).toList
    ++ (d.state_bounds.map stateBoundsToSexpr).toList)

/-- The octets a signature and a hash are over. -/
def dialectCanonicalBytes (d : Dialect) : Octets := encode (toSignableSexpr d)

section Hashing

variable (sha256 : Octets → Digest)

/-- The content hash of a dialect. -/
def dialectHash (d : Dialect) : String := "sha256:" ++ hex32 (sha256 (dialectCanonicalBytes d))

/-- The hash of the body of a dialect, its name left empty. -/
def dialectBodyHash (d : Dialect) : String :=
  hex32 (sha256 (dialectCanonicalBytes { d with name := "" }))

/-- The name a self-addressed dialect carries. -/
def dialectName (d : Dialect) : String := "sha256-" ++ dialectBodyHash sha256 d

end Hashing

end CbclDialectCanonical
