import Cbcl.RoleModel
import Cbcl.ShapeModel

/-!
# Dialects and the install-time constraints

A dialect with everything it declares (`dialect.rs`), the base dialect, the registry of installed
dialects, and the checks a definition must pass before it is accepted: no recursion (`r1.rs`),
valid resource bounds, no core performative redefined (`r3.rs`), well-formed shapes and protocol
(`r5.rs`).
-/

namespace CbclDialect

open CbclMessage CbclProtocol CbclRole CbclShape CbclState CbclEscrow

/-- Resource bounds of evaluation. -/
structure ResourceBounds where
  max_depth : UInt32
  max_expansion_size : UInt32
  verification_time_ms : UInt32
deriving DecidableEq

/-- Bounds of the state layer. -/
structure StateBounds where
  max_string : UInt32
  max_list : UInt32
  max_number : Int64
  max_fields : UInt32
deriving DecidableEq

/-- The default bounds. -/
def StateBounds.default : StateBounds := ⟨2048, 64, 1000000000000, 32⟩

/-- A performative definition: parameters, template and role annotation. -/
structure PerformativeDef where
  name : String
  params : List SExpr
  template : SExpr
  role : Option RoleAnnotation

/-- A dialect. -/
structure Dialect where
  name : String
  «extends» : List String
  author : Option String
  performatives : List PerformativeDef
  resources : ResourceBounds
  examples : List SExpr
  signature : Option (List UInt8)
  hash : Option String
  protocol : Option String
  causal_protocol : Option CausalProtocol
  shapes : List ShapeConstraint
  roles : List RoleDecl
  causal_locality : CausalLocality
  state : Option StateClause
  state_bounds : Option StateBounds

namespace Dialect

/-- What the role layer and the causal verifiers read of a dialect. -/
def roleLayer (d : Dialect) : CbclRole.Dialect where
  name := d.name
  performatives := d.performatives.map fun p => ⟨p.name, p.role⟩
  hash := d.hash
  causal_protocol := d.causal_protocol
  roles := d.roles
  causal_locality := d.causal_locality

/-- Whether a dialect defines a performative. -/
def definesPerformative (d : Dialect) (name : String) : Bool :=
  d.performatives.any (·.name = name)

/-- The first performative definition of a name. -/
def findPerformative (d : Dialect) (name : String) : Option PerformativeDef :=
  d.performatives.find? (·.name = name)

/-- The names of the performatives. -/
def performativeNames (d : Dialect) : List String := d.performatives.map (·.name)

end Dialect

-- ── The base dialect ────

/-- The template `(effect action)`. -/
def effectTemplate (action : String) : SExpr :=
  .list [.atom (.symbol "effect"), .atom (.symbol action)]

/-- The effect of each core performative. -/
def CORE_EFFECT_ACTIONS : List (String × String) :=
  [("tell", "send-message"), ("ask", "send-query"), ("reply", "send-reply"),
    ("error", "signal-error"), ("ok", "acknowledge"), ("cancel", "cancel-conversation"),
    ("hello", "announce-presence"), ("bye", "announce-departure")]

/-- The base dialect: the eight core performatives. -/
def baseDialect : Dialect where
  name := "cbcl-base"
  «extends» := []
  author := some "@cbcl-system"
  performatives := CORE_EFFECT_ACTIONS.map fun (name, action) =>
    ⟨name, [], effectTemplate action, none⟩
  resources := ⟨8, 512, 10⟩
  examples := []
  signature := none
  hash := none
  protocol := none
  causal_protocol := none
  shapes := []
  roles := []
  causal_locality := .reject
  state := none
  state_bounds := none

/-- The installed dialects, the base dialect first. -/
structure DialectRegistry where
  dialects : List Dialect
  base_first : dialects.head? = some baseDialect

namespace DialectRegistry

/-- The registry of the base dialect alone. -/
def new : DialectRegistry := ⟨[baseDialect], rfl⟩

/-- The first installed dialect of a name. -/
def findByName (r : DialectRegistry) (name : String) : Option Dialect :=
  r.dialects.find? (·.name = name)

/-- The base dialect, if it defines a name. -/
def baseDefinerOf (r : DialectRegistry) (name : String) : Option Dialect :=
  r.dialects.head?.filter (·.definesPerformative name)

/-- A registry with one more dialect. -/
def push (r : DialectRegistry) (d : Dialect) : DialectRegistry where
  dialects := r.dialects ++ [d]
  base_first := by
    have h := r.base_first
    cases hd : r.dialects with
    | nil => rw [hd] at h; exact nomatch h
    | cons x xs => rw [hd] at h; exact h

end DialectRegistry

-- ── R1: no recursion ────

mutual
/-- The symbols of an S-expression, added to some. -/
def collectSymbolReferences : SExpr → BTreeSet String → BTreeSet String
  | .atom (.symbol name), referenced => referenced.insert name
  | .atom _, referenced => referenced
  | .list items, referenced => collectItemReferences items referenced
/-- The symbols of some items, added to some. -/
def collectItemReferences : List SExpr → BTreeSet String → BTreeSet String
  | [], referenced => referenced
  | x :: rest, referenced => collectItemReferences rest (collectSymbolReferences x referenced)
end

/-- The performatives each template mentions, the last definition of a name winning. -/
def dependencyGraph (d : Dialect) : BTreeMap String (BTreeSet String) :=
  d.performatives.foldl (fun graph p =>
    graph.insert p.name
      ((collectSymbolReferences p.template ∅).filter fun name => d.definesPerformative name)) ∅

/-- Whether a walk that visits no dependency twice leads back to the start.  Each call adds a
    performative to the walk, so their number bounds the depth. -/
def reachesCycle (graph : BTreeMap String (BTreeSet String)) (start : String) :
    Nat → String → BTreeSet String → Bool
  | 0, _, _ => false
  | fuel + 1, current, visiting =>
      ((graph[current]?.map (·.toList)).getD []).any fun dependency =>
        dependency = start ||
          (dependency ∉ visiting &&
            reachesCycle graph start fuel dependency (visiting.insert dependency))

/-- The performatives on a cycle of templates. -/
def cyclicPerformatives (graph : BTreeMap String (BTreeSet String)) : List String :=
  graph.keys.filter fun name => reachesCycle graph name (graph.size + 1) name ∅

/-- The performatives that violate R1; the base dialect is exempt. -/
def r1Violations (d : Dialect) : List String :=
  if d.name = "cbcl-base" then []
  else d.performativeNames.filter (cyclicPerformatives (dependencyGraph d)).contains

-- ── R2 and R3 ────

/-- The first invalid resource bound. -/
def invalidResourceBound (d : Dialect) : Option (String × UInt32) :=
  let bounds := d.resources
  if bounds.max_depth = 0 ∨ bounds.max_depth > 64 then some ("max_depth", bounds.max_depth)
  else if bounds.max_expansion_size = 0 ∨ bounds.max_expansion_size > 8192 then
    some ("max_expansion_size", bounds.max_expansion_size)
  else if bounds.verification_time_ms = 0 ∨ bounds.verification_time_ms > 1000 then
    some ("verification_time_ms", bounds.verification_time_ms)
  else none

/-- Whether a name is a core performative. -/
def isCorePerformativeName (s : String) : Bool := (CbclRecogniser.coreParse s).isSome

/-- The core performatives a dialect redefines; the base dialect is exempt. -/
def r3Violations (d : Dialect) : List String :=
  if d.name = "cbcl-base" then [] else d.performativeNames.filter isCorePerformativeName

-- ── R5: protocol and shapes ────

/-- The text of a protocol violation. -/
def protocolViolationText : ProtocolViolation → String
  | .cycle participants => "cycle detected: " ++ " → ".intercalate participants
  | .unreachable step => "step '" ++ step ++ "' is unreachable from begin"
  | .undefinedPerformative name => "performative '" ++ name ++ "' is not defined"
  | .duplicateStep name => "duplicate step declaration for '" ++ name ++ "'"

/-- The violations of one shape. -/
def shapeViolations (d : Dialect) (shape : ShapeConstraint) : List String :=
  (if d.definesPerformative shape.performative then []
    else ["shape targets unknown performative '" ++ shape.performative ++ "'"])
  ++ checkKeywordsValid shape.rules
  ++ (shape.maxDepths.filter (· > d.resources.max_depth)).map (fun n =>
      "shape '" ++ shape.performative ++ "' max-depth " ++ toString n
        ++ " exceeds dialect R2 bound " ++ toString d.resources.max_depth)
  ++ (match shape.noDuplicateKeywords with
    | .ok () => []
    | .error msg => ["shape '" ++ shape.performative ++ "': " ++ msg])

/-- All R5 violations, with the performatives of the ancestors defined. -/
def r5ViolationsWithAncestors (d : Dialect) (ancestors : List Dialect) : List String :=
  (match d.causal_protocol with
    | none => []
    | some proto =>
        (proto.verifyR5Protocol
          (d.performativeNames ++ ancestors.flatMap Dialect.performativeNames)).map
            protocolViolationText)
  ++ d.shapes.flatMap (shapeViolations d)

end CbclDialect
