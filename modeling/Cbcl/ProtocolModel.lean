import Cbcl.MessageModel

/-!
# Causal protocols and the three-valued verdict

The declaration side of causal verification (`protocol.rs`): node references, steps, the
install-time R5 checks, the verdict lattice `Unknown < Valid, Violation`, and the
allocation-free decision kernel (`causal_kernel.rs`) the single-copy verifier runs on.
-/

namespace CbclProtocol

open CbclMessage

/-- The base performative of a possibly synthesised copy name: `x#2` ↦ `x`. -/
def repeatBaseName (name : String) : String :=
  String.ofList (name.toList.takeWhile (· ≠ REPEAT_SEPARATOR))

/-- Whether a name carries a copy index. -/
def isCopyName (name : String) : Bool := name.toList.contains REPEAT_SEPARATOR

/-- Reference to one or more performatives in a protocol declaration. -/
inductive NodeRef where
  | single (s : String)
  | any (set : BTreeSet String)
  | all (set : BTreeSet String)
deriving DecidableEq

/-- The performative names a node reference mentions. -/
def NodeRef.performatives : NodeRef → List String
  | .single s => [s]
  | .any set => set.toList
  | .all set => set.toList

/-- A step of the causal protocol graph. -/
structure StepDecl where
  performative : String
  predecessors : List NodeRef
  successors : List NodeRef
deriving DecidableEq

/-- A causal protocol: step declarations keyed by performative name. -/
structure CausalProtocol where
  steps : BTreeMap String StepDecl
deriving DecidableEq

/-- Protocol-level violations of the R5 checks. -/
inductive ProtocolViolation where
  | cycle (participants : List String)
  | unreachable (step : String)
  | undefinedPerformative (name : String)
  | duplicateStep (name : String)
deriving DecidableEq

/-- Whether two entries of a list are equal. -/
def hasDuplicate : List NodeRef → Bool
  | [] => false
  | r :: rest => rest.contains r || hasDuplicate rest

/-- The traversal state of the colouring search: 0 white, 1 gray, 2 black. -/
structure CycleSearch where
  color : BTreeMap String Nat
  path : List String
  violations : List ProtocolViolation

/-- Colour `node` gray, follow its neighbours, record every back edge, colour it black.
    Each call colours a white node, so the number of vertices bounds the depth. -/
def dfsCycle (graph : BTreeMap String (BTreeSet String)) :
    Nat → String → CycleSearch → CycleSearch
  | 0, _, s => s
  | fuel + 1, node, s =>
      let entered := { s with color := s.color.insert node 1, path := s.path ++ [node] }
      let explored := ((graph[node]?.map (·.toList)).getD []).foldl (fun s next =>
        match s.color.getD next 0 with
        | 0 => dfsCycle graph fuel next s
        | 1 =>
            if next ∈ s.path then
              { s with violations := s.violations ++ [.cycle (s.path.drop (s.path.idxOf next))] }
            else s
        | _ => s) entered
      { explored with path := explored.path.dropLast, color := explored.color.insert node 2 }

/-- Pop a vertex, mark and push every neighbour not visited before.  A vertex is pushed
    once, so the number of vertices bounds the pops. -/
def visitFrom (graph : BTreeMap String (BTreeSet String)) :
    Nat → List String → BTreeSet String → BTreeSet String
  | 0, _, visited => visited
  | _ + 1, [], visited => visited
  | fuel + 1, current :: queue, visited =>
      let next := ((graph[current]?.map (·.toList)).getD []).foldl (fun acc v =>
        if v ∈ acc.2 then acc else (v :: acc.1, acc.2.insert v)) (queue, visited)
      visitFrom graph fuel next.1 next.2

namespace CausalProtocol

/-- Every name in a step or a node reference, `begin` excepted. -/
def allReferencedPerformatives (p : CausalProtocol) : BTreeSet String :=
  p.steps.foldl (fun names name step =>
    ((step.predecessors ++ step.successors).flatMap NodeRef.performatives).foldl
      (fun names q => if q ≠ BEGIN_KEYWORD then names.insert q else names)
      (if name ≠ BEGIN_KEYWORD then names.insert name else names)) ∅

/-- The successor graph as adjacency sets. -/
def successorGraph (p : CausalProtocol) : BTreeMap String (BTreeSet String) :=
  p.steps.foldl (fun graph name step =>
    (step.successors.flatMap NodeRef.performatives).foldl (fun graph s =>
      (graph.insert name (((graph[name]?).getD ∅).insert s)).insertIfNew s ∅)
      (graph.insertIfNew name ∅)) ∅

/-- R5 acyclicity of the successor graph. -/
def checkAcyclicity (p : CausalProtocol) : List ProtocolViolation :=
  let graph := p.successorGraph
  (graph.keys.foldl (fun s node =>
    if s.color.getD node 0 = 0 then dfsCycle graph (graph.size + 1) node s else s)
    ⟨∅, [], []⟩).violations

/-- R5 reachability of every step from `begin`. -/
def checkReachability (p : CausalProtocol) : List ProtocolViolation :=
  let graph := p.successorGraph
  let visited :=
    if BEGIN_KEYWORD ∈ graph then
      visitFrom graph (graph.size + 1) [BEGIN_KEYWORD]
        ((∅ : BTreeSet String).insert BEGIN_KEYWORD)
    else ∅
  (p.steps.keys.filter fun name => name ≠ BEGIN_KEYWORD ∧ name ∉ visited).map .unreachable

/-- R5 definedness: every referenced base name is defined; each is flagged once. -/
def checkPerformativeDefinedness (p : CausalProtocol) (defined : List String) :
    List ProtocolViolation :=
  (p.allReferencedPerformatives.toList.foldl (fun acc name =>
    let base := repeatBaseName name
    if base ∉ defined ∧ base ∉ acc.1 then
      (acc.1.insert base, acc.2 ++ [.undefinedPerformative base])
    else acc) ((∅ : BTreeSet String), [])).2

/-- R5 step uniqueness: no literally repeated node reference. -/
def checkStepUniqueness (p : CausalProtocol) : List ProtocolViolation :=
  p.steps.foldl (fun violations name step =>
    if hasDuplicate step.predecessors || hasDuplicate step.successors then
      violations ++ [.duplicateStep name]
    else violations) []

/-- All R5 protocol checks. -/
def verifyR5Protocol (p : CausalProtocol) (defined : List String) : List ProtocolViolation :=
  p.checkStepUniqueness ++ p.checkAcyclicity ++ p.checkReachability
    ++ p.checkPerformativeDefinedness defined

end CausalProtocol

/-- Causal verification failure details. -/
inductive CausalViolation where
  | unknownPredecessor (caused_by : String)
  | invalidPredecessor (caused_by : String) (expected : List String) (found : String)
  | missingCausedBy
  | incompleteFanIn (missing_types : List String)
  | extraneousPredecessor (caused_by found : String)
  | fanInWithoutAllDecl (performative : String)
  | roleConformance (reason : String)
deriving DecidableEq

/-- The three-valued verdict. -/
inductive VerificationResult where
  | unknown
  | valid
  | violation (v : CausalViolation)
deriving DecidableEq

namespace VerificationResult

/-- Strong Kleene conjunction: a violation absorbs, then `Unknown`. -/
def meet : VerificationResult → VerificationResult → VerificationResult
  | violation v, _ => violation v
  | _, violation v => violation v
  | unknown, _ => unknown
  | _, unknown => unknown
  | valid, valid => valid

/-- The knowledge order of the source's `PartialOrd`: `Unknown` is below everything, and a
    resolved verdict is below the verdicts of its own class. -/
inductive Le : VerificationResult → VerificationResult → Prop where
  | unknown (r : VerificationResult) : Le unknown r
  | valid : Le valid valid
  | violation (v w : CausalViolation) : Le (violation v) (violation w)

end VerificationResult

-- ── The decision kernel ────

/-- What one predecessor lookup found. -/
inductive Lookup where
  | missing | allowed | wrong
deriving DecidableEq

/-- The state of the fan-in machine. -/
inductive FanIn where
  | clear | missing | wrong
deriving DecidableEq

/-- The kernel's decisions. -/
inductive Decision where
  | valid | unknown | missingCausedBy | invalidPredecessor | extraneousPredecessor
  | fanInWithoutAllDecl | incompleteFanIn
deriving DecidableEq

/-- No `:caused-by` at all. -/
def absent (has_predecessors : Bool) : Decision :=
  if has_predecessors then .missingCausedBy else .valid

/-- A literal `begin` reference. -/
def literalBegin (allowed : Bool) : Decision :=
  if allowed then .valid else .invalidPredecessor

/-- A single predecessor. -/
def single (has_predecessors : Bool) : Lookup → Decision
  | .missing => .unknown
  | .allowed => .valid
  | .wrong => if has_predecessors then .invalidPredecessor else .extraneousPredecessor

/-- Consume one lookup: wrong is absorbing, missing persists until a wrong lookup. -/
def observe : FanIn → Lookup → FanIn
  | .wrong, _ => .wrong
  | _, .wrong => .wrong
  | .missing, _ => .missing
  | _, .missing => .missing
  | .clear, .allowed => .clear

/-- Coverage only decides after every supplied lookup was allowed. -/
def finish (has_all : Bool) (state : FanIn) (complete : Bool) : Decision :=
  if !has_all then .fanInWithoutAllDecl
  else match state with
    | .wrong => .invalidPredecessor
    | .missing => .unknown
    | .clear => if complete then .valid else .incompleteFanIn

/-- Names allowed as a single-message predecessor: `Single` and `Any`, not `All`. -/
def allowedSinglePredecessors (step : StepDecl) : List String :=
  step.predecessors.flatMap fun
    | .single s => [s]
    | .any set => set.toList
    | .all _ => []

/-- The first `(all …)` declaration of a step. -/
def firstAll (step : StepDecl) : Option (BTreeSet String) :=
  step.predecessors.findSome? fun
    | .all set => some set
    | _ => none

/-- Whether a literal `begin` is an alternative of a step. -/
def beginAllowed (step : StepDecl) : Bool :=
  step.predecessors.any fun
    | .single s => s = BEGIN_KEYWORD
    | .any set => set.contains BEGIN_KEYWORD
    | .all _ => false

end CbclProtocol
