import Cbcl.ProtocolModel

/-!
# Roles, casts and the R6 checks

The role layer (`role.rs`): declared roles, `:from`/`:to` annotations, the cast a
`with-roles` wrapper nominates, and the two static checks of causal locality (`r6.rs`):
`r6Violations` on a dialect alone, `r6InstantiatedViolations` on a dialect and a sealed cast.

A dialect appears here with the fields these checks and the causal verifiers read.
-/

namespace CbclRole

open CbclMessage CbclProtocol

/-- How many occupants a role admits. -/
inductive RoleCardinality where
  | singleton | indexed
deriving DecidableEq

/-- A declared role. -/
structure RoleDecl where
  name : String
  cardinality : RoleCardinality
deriving DecidableEq

/-- The `:from`/`:to` annotation of a performative. -/
structure RoleAnnotation where
  «from» : String
  «to» : BTreeSet String
deriving DecidableEq

/-- The assignment of agents to roles for one thread. -/
structure Cast where
  singleton : BTreeMap String AgentKey
  indexed : BTreeMap String (BTreeSet AgentKey)
  dialect_pin : Option String
deriving DecidableEq

/-- Whether a key may occupy a role. -/
def Cast.admits (cast : Cast) (role : String) (key : AgentKey) : Bool :=
  match cast.singleton[role]? with
  | some k => k = key
  | none => (cast.indexed[role]?).any (·.contains key)

/-- A role and, for an indexed role, one of its occupants. -/
structure Endpoint where
  role : String
  occupant : Option AgentKey
deriving DecidableEq

/-- How causal-locality failures are treated: rejected, or compiled into envelope routes. -/
inductive CausalLocality where
  | reject
  | derive (routes : BTreeMap String (BTreeSet String))
deriving DecidableEq

/-- A performative definition: the fields the role layer reads. -/
structure PerformativeDef where
  name : String
  role : Option RoleAnnotation
deriving DecidableEq

/-- A dialect: the fields the causal verifiers and the role checks read. -/
structure Dialect where
  name : String
  performatives : List PerformativeDef
  hash : Option String
  causal_protocol : Option CausalProtocol
  roles : List RoleDecl
  causal_locality : CausalLocality
deriving DecidableEq

namespace Dialect

/-- The first performative definition of a name. -/
def findPerformative (d : Dialect) (name : String) : Option PerformativeDef :=
  d.performatives.find? (·.name = name)

/-- The role annotation of a performative. -/
def annotationOf (d : Dialect) (name : String) : Option RoleAnnotation :=
  (d.findPerformative name).bind (·.role)

/-- The annotation table: performative name to annotation, the last definition winning. -/
def annotations (d : Dialect) : BTreeMap String RoleAnnotation :=
  d.performatives.foldl (fun table p =>
    match p.role with
    | some ann => table.insert p.name ann
    | none => table) ∅

end Dialect

/-- R6 violations: one constructor per rejectable condition. -/
inductive R6Violation where
  | missingFromTo (performative : String)
  | undeclaredRole (performative role : String)
  | strayAnnotated (performative : String)
  | chooserIncoherent (members : List String)
  | notCausallyLocal (performative predecessor role : String)
  | unreachableRole (role : String)
  | malformedRoles (detail : String)
  | malformedFromTo (performative detail : String)
  | malformedCast (detail : String)
  | unknownRole (role : String)
  | arityMismatch (role : String) (keys : Nat)
  | perOccupantLocalityFailure (performative occupant : String)
  | dialectPinMismatch (pinned installed : String)
deriving DecidableEq

/-- The message text of an R6 violation. -/
def R6Violation.display : R6Violation → String
  | missingFromTo p =>
      "R6 violation: performative '" ++ p ++ "' lacks :from or :to (REQ-601)"
  | undeclaredRole p r =>
      "R6 violation: performative '" ++ p ++ "' names undeclared role '" ++ r ++ "' (REQ-602)"
  | strayAnnotated p =>
      "R6 violation: performative '" ++ p
        ++ "' carries :from/:to but the dialect declares no :roles (REQ-602)"
  | chooserIncoherent members =>
      "R6 violation: choice " ++ debugList members ++ " has no common sender role (REQ-603)"
  | notCausallyLocal p pred r =>
      "R6 violation: role '" ++ r ++ "' is an endpoint of '" ++ p
        ++ "' but not of its predecessor '" ++ pred ++ "' (REQ-604)"
  | unreachableRole r =>
      "R6 violation: role '" ++ r
        ++ "' is not an endpoint of any performative reachable from begin (REQ-605)"
  | malformedRoles detail => "R6 violation: malformed :roles — " ++ detail ++ " (CON-600)"
  | malformedFromTo p detail =>
      "R6 violation: malformed :from/:to on '" ++ p ++ "' — " ++ detail ++ " (CON-600)"
  | malformedCast detail => "R6 violation: malformed cast — " ++ detail ++ " (CON-601)"
  | unknownRole r => "R6 violation: cast binds unknown role '" ++ r ++ "' (CON-601)"
  | arityMismatch r keys =>
      "R6 violation: singleton role '" ++ r ++ "' bound to " ++ toString keys
        ++ " keys (CON-601)"
  | perOccupantLocalityFailure p k =>
      "R6 violation: '" ++ p ++ "' fails per-occupant causal locality at occupant '" ++ k
        ++ "' (REQ-608)"
  | dialectPinMismatch pinned installed =>
      "R6 violation: root pins dialect '" ++ pinned
        ++ "' but the installed dialect hashes to '" ++ installed ++ "' (REQ-628)"

-- ── Casts ────

/-- The keys of one binding; every key is a symbol and occurs once. -/
def parseKeys (roleName : String) (keys : List SExpr) :
    Except R6Violation (BTreeSet AgentKey) :=
  keys.foldlM (fun keySet key =>
    match key with
    | .atom (.symbol k) =>
        if k ∈ keySet then
          .error (.malformedCast ("duplicate key '" ++ k ++ "' for role '" ++ roleName ++ "'"))
        else .ok (keySet.insert k)
    | other => .error (.malformedCast ("key must be a symbol, got " ++ other.display))) ∅

/-- Whether a cast binds a role. -/
def Cast.binds (cast : Cast) (role : String) : Bool :=
  cast.singleton.contains role || cast.indexed.contains role

/-- Add the binding of a declared role: one key for a singleton, some for an indexed one. -/
def bindRole (cast : Cast) (decl : RoleDecl) (roleName : String) (keySet : BTreeSet AgentKey) :
    Except R6Violation Cast :=
  match decl.cardinality with
  | .singleton =>
      match keySet.toList with
      | [key] => .ok { cast with singleton := cast.singleton.insert roleName key }
      | _ => .error (.arityMismatch roleName keySet.size)
  | .indexed =>
      if keySet.isEmpty then
        .error (.malformedCast ("indexed role '" ++ roleName ++ "' bound to no keys"))
      else .ok { cast with indexed := cast.indexed.insert roleName keySet }

/-- Read one `(role key+)` form into a cast. -/
def parseBinding (roles : List RoleDecl) (cast : Cast) (item : SExpr) :
    Except R6Violation Cast :=
  match item with
  | .list (.atom (.symbol roleName) :: keys) =>
      match roles.find? (·.name = roleName) with
      | none => .error (.unknownRole roleName)
      | some decl =>
          if cast.binds roleName then
            .error (.malformedCast ("duplicate binding for role '" ++ roleName ++ "'"))
          else do
            let keySet ← parseKeys roleName keys
            bindRole cast decl roleName keySet
  | .list _ =>
      .error (.malformedCast ("binding must start with a role symbol, got " ++ item.display))
  | _ => .error (.malformedCast ("binding must be a (role key+) list, got " ++ item.display))

/-- Parse a bindings list: every declared role is bound exactly once. -/
def parseCast (bindings : SExpr) (roles : List RoleDecl) : Except R6Violation Cast :=
  match bindings with
  | .list items => do
      let cast ← items.foldlM (parseBinding roles) ⟨∅, ∅, none⟩
      match roles.find? (fun decl => !cast.binds decl.name) with
      | some decl =>
          .error (.malformedCast
            ("declared role '" ++ decl.name ++ "' is not bound by the cast"))
      | none => .ok cast
  | _ => .error (.malformedCast "bindings must be a list of (role key+) forms")

/-- Parse the value of a `:dialect` field: a `sha256:<hex64>` symbol. -/
def parseDialectPin (value : SExpr) : Except R6Violation String :=
  match value with
  | .atom (.symbol pin) =>
      match stripStart "sha256:" pin with
      | none =>
          .error (.malformedCast
            (":dialect value must start with 'sha256:', got '" ++ pin ++ "'"))
      | some hex =>
          if isHex64 hex then .ok pin
          else .error (.malformedCast
            (":dialect digest must be exactly 64 lowercase hex characters, got '" ++ hex ++ "'"))
  | other =>
      .error (.malformedCast
        (":dialect value must be a sha256:<hex64> symbol, got " ++ other.display))

/-- Parse the parameters of a `with-roles` wrapper: bindings and at most a dialect pin. -/
def parseWrapperCast (params : List SExpr) (roles : List RoleDecl) :
    Except R6Violation Cast :=
  let shape := R6Violation.malformedCast
    ("with-roles wrapper must carry exactly one bindings list, "
      ++ "optionally followed by :dialect sha256:<hex64> (CON-601, REQ-628)")
  match params with
  | [bindings] => parseCast bindings roles
  | [bindings, .atom (.keyword k), value] =>
      if k = "dialect" then do
        let pin ← parseDialectPin value
        let cast ← parseCast bindings roles
        return { cast with dialect_pin := some pin }
      else .error shape
  | _ => .error shape

-- ── R6 ────

/-- The endpoint roles of an annotation: its sender and its recipients. -/
def endpoints (ann : RoleAnnotation) : BTreeSet String := ann.to.insert ann.from

/-- Append a violation unless it was reported before. -/
def pushUnique (violations : List R6Violation) (v : R6Violation) : List R6Violation :=
  if v ∈ violations then violations else violations ++ [v]

/-- Report a sequence of findings, each once. -/
def report (findings : List R6Violation) : List R6Violation := findings.foldl pushUnique []

/-- Reporting each finding once loses none of them. -/
theorem mem_foldl_pushUnique (findings acc : List R6Violation) (v : R6Violation) :
    v ∈ findings.foldl pushUnique acc ↔ v ∈ acc ∨ v ∈ findings := by
  induction findings generalizing acc with
  | nil => simp
  | cons w rest ih =>
      rw [List.foldl_cons, ih, pushUnique]
      by_cases hw : w ∈ acc
      · rw [if_pos hw, List.mem_cons]
        constructor
        · rintro (h | h)
          · exact Or.inl h
          · exact Or.inr (Or.inr h)
        · rintro (h | rfl | h)
          · exact Or.inl h
          · exact Or.inl hw
          · exact Or.inr h
      · rw [if_neg hw, List.mem_append, List.mem_singleton, List.mem_cons, or_assoc]

/-- A report is clean exactly when nothing was found. -/
theorem report_eq_nil_iff {findings : List R6Violation} : report findings = [] ↔ findings = [] := by
  constructor
  · intro h
    cases findings with
    | nil => rfl
    | cons v rest =>
        have hv : v ∈ report (v :: rest) :=
          (mem_foldl_pushUnique _ _ v).mpr (Or.inr (List.mem_cons_self ..))
        rw [h] at hv
        exact nomatch hv
  · rintro rfl
    rfl

/-- Annotations naming roles the dialect does not declare. -/
def undeclaredRoles (d : Dialect) : List R6Violation :=
  d.performatives.flatMap fun p =>
    match p.role with
    | none => []
    | some ann =>
        ((ann.from :: ann.to.toList).filter (· ∉ d.roles.map (·.name))).map
          (.undeclaredRole p.name)

/-- Protocol performatives without an annotation; copies inherit their base name's. -/
def missingAnnotations (d : Dialect) (cp : CausalProtocol) : List R6Violation :=
  (cp.steps.keys.filter fun name =>
    name ≠ BEGIN_KEYWORD ∧ repeatBaseName name ∉ d.annotations).map
      fun name => .missingFromTo (repeatBaseName name)

/-- A disjunctive alternative set whose annotated members disagree on the sender. -/
def checkChoice (d : Dialect) (members : List String) : List R6Violation :=
  let named := members.filter (· ≠ BEGIN_KEYWORD)
  let senders : BTreeSet String := (named.filterMap fun m =>
    (d.annotations[repeatBaseName m]?).map (·.from)).foldl (·.insert ·) ∅
  if named.length < 2 then []
  else if senders.size > 1 then [.chooserIncoherent named]
  else []

/-- Chooser coherence of one step: every `(any …)` set, and the predecessor alternatives. -/
def checkChoices (d : Dialect) (step : StepDecl) : List R6Violation :=
  ((step.predecessors ++ step.successors).flatMap fun
    | .any set => checkChoice d set.toList
    | _ => [])
  ++ if step.predecessors.length ≥ 2 then
       checkChoice d (step.predecessors.flatMap NodeRef.performatives)
     else []

/-- Causal locality of one step: its endpoint roles are endpoints of every predecessor. -/
def checkLocality (d : Dialect) (step : StepDecl) : List R6Violation :=
  if step.performative = BEGIN_KEYWORD then []
  else match d.annotations[repeatBaseName step.performative]? with
    | none => []
    | some t_ann =>
        (step.predecessors.flatMap NodeRef.performatives).flatMap fun pred =>
          if pred = BEGIN_KEYWORD then []
          else match d.annotations[repeatBaseName pred]? with
            | none => []
            | some p_ann =>
                ((endpoints t_ann).toList.filter (· ∉ endpoints p_ann)).map
                  (.notCausallyLocal step.performative pred)

/-- Forward edges of the protocol, from either encoding. -/
def forwardEdges (cp : CausalProtocol) : BTreeMap String (BTreeSet String) :=
  let addEdge := fun (adj : BTreeMap String (BTreeSet String)) (a b : String) =>
    adj.insert a (((adj[a]?).getD ∅).insert b)
  cp.steps.foldl (fun adj _ step =>
    let adj := (step.successors.flatMap NodeRef.performatives).foldl
      (fun adj succ => addEdge adj step.performative succ) adj
    (step.predecessors.flatMap NodeRef.performatives).foldl
      (fun adj pred => addEdge adj pred step.performative) adj) ∅

/-- Pop a name, insert and push every successor other than `begin` not reached before. -/
def reachFrom (adj : BTreeMap String (BTreeSet String)) :
    Nat → List String → BTreeSet String → BTreeSet String
  | 0, _, reachable => reachable
  | _ + 1, [], reachable => reachable
  | fuel + 1, name :: frontier, reachable =>
      let next := ((adj[name]?.map (·.toList)).getD []).foldl (fun acc succ =>
        if succ ≠ BEGIN_KEYWORD ∧ succ ∉ acc.2 then (succ :: acc.1, acc.2.insert succ)
        else acc) (frontier, reachable)
      reachFrom adj fuel next.1 next.2

/-- Performatives reachable from `begin`; every pop but the first follows an insertion. -/
def reachableFromBegin (cp : CausalProtocol) : BTreeSet String :=
  let adj := forwardEdges cp
  reachFrom adj ((adj.values.map (·.size)).sum + 1) [BEGIN_KEYWORD] ∅

/-- Declared roles that are no endpoint of a reachable performative. -/
def unreachableRoles (d : Dialect) (cp : CausalProtocol) : List R6Violation :=
  (d.roles.filter fun role =>
    !(reachableFromBegin cp).toList.any fun name =>
      (d.annotations[repeatBaseName name]?).any fun ann => (endpoints ann).contains role.name).map
        fun role => .unreachableRole role.name

/-- The dialect-level R6 check; a dialect without roles only must not be annotated. -/
def r6Violations (d : Dialect) : List R6Violation :=
  report <|
    if d.roles = [] then
      (d.performatives.filter (·.role.isSome)).map fun p => .strayAnnotated p.name
    else undeclaredRoles d ++
      match d.causal_protocol with
      | none => d.roles.map fun role => .unreachableRole role.name
      | some cp =>
          missingAnnotations d cp
            ++ cp.steps.values.flatMap (checkChoices d)
            ++ cp.steps.values.flatMap (checkLocality d)
            ++ unreachableRoles d cp

/-- Whether a node reference names one predecessor per citing message. -/
def namesInstance : NodeRef → Bool
  | .all _ => false
  | _ => true

/-- Per-occupant locality of one step for one indexed role: a cited predecessor sent by the
    role must be addressed to it too, unless only the citing occupant itself observes it. -/
def checkOccupants (d : Dialect) (role : String) (occupants : BTreeSet AgentKey)
    (step : StepDecl) : List R6Violation :=
  match d.annotations[repeatBaseName step.performative]? with
  | none => []
  | some t_ann =>
      if role ∉ endpoints t_ann then []
      else step.predecessors.flatMap fun nr =>
        if namesInstance nr ∧ role ∉ t_ann.to then []
        else nr.performatives.flatMap fun pred =>
          match d.annotations[repeatBaseName pred]? with
          | none => []
          | some p_ann =>
              if p_ann.from = role ∧ role ∉ p_ann.to then
                occupants.toList.map (.perOccupantLocalityFailure step.performative)
              else []

/-- The cast-instantiated half of causal locality, for roles of two occupants or more. -/
def r6InstantiatedViolations (d : Dialect) (cast : Cast) : List R6Violation :=
  report <|
    match d.causal_protocol with
    | none => []
    | some cp =>
        d.roles.flatMap fun role =>
          match role.cardinality, cast.indexed[role.name]? with
          | .indexed, some occupants =>
              if occupants.size < 2 then []
              else cp.steps.values.flatMap (checkOccupants d role.name occupants)
          | _, _ => []

end CbclRole
