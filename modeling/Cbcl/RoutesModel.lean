import Cbcl.InstallModel
import Cbcl.ClosureProofs

/-!
# Envelope routes of occupants

When a thread opens, the occupants of every indexed role are known.  Then
`derive_occupant_envelope_routes` (`r6.rs`) adds routes to single occupants: when an instance that
some occupant of a role sent is cited by a step that involves the role, all occupants of the role
must have seen it.
-/

namespace CbclRoutes

open CbclMessage CbclProtocol CbclDialect CbclTreeMap CbclInstall CbclClosure
open CbclRole hiding Dialect

/-- The routes derived when the dialect was installed. -/
def installRoutes (d : Dialect) : BTreeMap String (BTreeSet String) :=
  match d.causal_locality with
  | .derive table => table
  | .reject => ∅

/-- Whether a role is an envelope recipient of a performative. -/
def routesTo (table : BTreeMap String (BTreeSet String)) (performative role : String) : Bool :=
  (table[performative]?).any (·.contains role)

/-- The annotation of a performative or of a copy of it. -/
def annotationFor (d : Dialect) (name : String) : Option RoleAnnotation :=
  d.roleLayer.annotations[repeatBaseName name]?

/-- Whether a reference is to the sender's own instance. -/
def isOwn : NodeRef → Bool
  | .single _ => true
  | .any _ => true
  | .all _ => false

section Role

variable (d : Dialect) (cp : CausalProtocol) (role : String) (occupants : BTreeSet AgentKey)
  (routes : BTreeMap String (BTreeSet AgentKey))

/-- Whether all occupants of the role have routes from a performative. -/
def occRouted (name : String) : Bool :=
  (routes[name]?).any fun s => occupants.toList.all (s.contains ·)

/-- Whether all occupants of the role receive a performative: it is sent to the role, or routed to
    the role or to each of them. -/
def receives (name : String) (ann : RoleAnnotation) : Bool :=
  ann.to.contains role || routesTo (installRoutes d) name role || occRouted occupants routes name

/-- Whether the role is an endpoint of a performative. -/
def exposed (name : String) (ann : RoleAnnotation) : Bool :=
  (endpoints ann).contains role || routesTo (installRoutes d) name role
    || occRouted occupants routes name

/-- The performatives that occupants of the role send and not all of them observe, though one that
    involves the role cites them. -/
def unobserved : List String :=
  (valuesOf cp.steps).flatMap fun step =>
    match annotationFor d step.performative with
    | none => []
    | some t_ann =>
        if exposed d role occupants routes step.performative t_ann then
          step.predecessors.flatMap fun nr =>
            -- a `single` or `any` reference names the sender's own instance
            if isOwn nr && !receives d role occupants routes step.performative t_ann then []
            else nr.performatives.filter fun pred =>
              match annotationFor d pred with
              | none => false
              | some p_ann => p_ann.from = role && !receives d role occupants routes pred p_ann
        else []

/-- Route the performatives of one pass to every occupant.  None of them reaches all occupants
    before, so each of them adds a route. -/
def occupantPass : Option (BTreeMap String (BTreeSet AgentKey)) :=
  match unobserved d cp role occupants routes with
  | [] => none
  | frontier => some (frontier.foldl (fun routes pred =>
      routes.insert pred (occupants.toList.foldl (·.insert ·) ((routes[pred]?).getD ∅))) routes)

/-- The routes after all passes for a role.  Each pass but the last adds a route from a predecessor
    of the protocol to an occupant, which bounds the passes. -/
def occupantPasses : BTreeMap String (BTreeSet AgentKey) :=
  let preds := ((valuesOf cp.steps).flatMap fun s =>
    s.predecessors.flatMap NodeRef.performatives).length
  repeatPass (occupantPass d cp role occupants) (preds * occupants.size + 1) routes

end Role

/-- The indexed roles that have two occupants or more, with their occupants. -/
def sharedRole (cast : Cast) (role : RoleDecl) : Option (String × BTreeSet AgentKey) :=
  match role.cardinality with
  | .singleton => none
  | .indexed =>
      match cast.indexed[role.name]? with
      | none => none
      | some occupants => if occupants.size < 2 then none else some (role.name, occupants)

/-- The envelope routes of single occupants under a cast, role by role. -/
def deriveOccupantEnvelopeRoutes (d : Dialect) (cast : Cast) :
    BTreeMap String (BTreeSet AgentKey) :=
  match d.causal_protocol with
  | none => ∅
  | some cp => d.roles.foldl (fun routes role =>
      match sharedRole cast role with
      | none => routes
      | some (name, occupants) => occupantPasses d cp name occupants routes) ∅

end CbclRoutes
