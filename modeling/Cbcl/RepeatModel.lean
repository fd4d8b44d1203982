import Cbcl.WorklistProofs
import Cbcl.StoreModel

/-!
# Copy resolution — dynamic programming over the expanded protocol

Wire verbs stay unindexed; which copy of a `(repeat k …)` step a message inhabits is
established by its causal ancestry (`repeat.rs`).  `Resolution.new` walks the referenced
closure, orders the steps so that every predecessor comes first, and fills one row per
(message, step): whether that message inhabits that step.  Missing ancestry stays
`Unknown`; a step of a cyclic declaration has no row and fails closed.
-/

namespace CbclRepeat

open CbclMessage CbclProtocol CbclStore CbclWorklist

/-- The native spelling of a reference: only the state prefix is translated. -/
def nativeReference (id : String) : String :=
  match stripStart "sha256-" id with
  | some hex => "sha256:" ++ hex
  | none => id

/-- Whether a protocol holds synthesised copies. -/
def hasRepeat (protocol : CausalProtocol) : Bool := protocol.steps.keys.any isCopyName

/-- Steps whose predecessors are all placed, in key order. -/
def readySteps (protocol : CausalProtocol) (done : List String) : List String :=
  (protocol.steps.toList.filter fun (name, step) =>
    name ∉ done ∧ ∀ nr ∈ step.predecessors, ∀ p ∈ nr.performatives, p ∈ done).map Prod.fst

/-- Rounds of ready steps until none is left; `done` is the order built so far. -/
def stepOrder (protocol : CausalProtocol) : Nat → List String → List String
  | 0, done => done
  | fuel + 1, done =>
      if readySteps protocol done = [] then done
      else stepOrder protocol fuel (done ++ readySteps protocol done)

/-- The evidence table: one row per message of the closure and step. -/
abbrev Rows := BTreeMap (String × String) VerificationResult

/-- A resolution, scoped to a thread and to the referenced closure. -/
structure Resolution where
  store : MessageStore
  protocol : CausalProtocol
  thread : ThreadId
  root : Option ContentHash
  order : List String
  rows : Rows
  materialized : Option MaterializedPositions

/-- The cached fact of a reference, if the cache covers it. -/
def cachedFact (materialized : Option MaterializedPositions) (hash : String) :
    Option PositionFact :=
  materialized.bind fun p => p.entries.get (nativeReference hash)

/-- What the closure walk pushes after visiting a hash: a covered hash ends the walk. -/
def closureSuccessors (store : MessageStore) (thread : ThreadId)
    (materialized : Option MaterializedPositions) (hash : String) : List String :=
  if (cachedFact materialized hash).isSome then []
  else match metadata store hash thread with
    | some (_, cause) => citedHashes cause
    | none => []

/-- The referenced closure of some hashes. -/
def referencedClosure (store : MessageStore) (thread : ThreadId)
    (materialized : Option MaterializedPositions) (hashes : List String) : List String :=
  closure (closureSuccessors store thread materialized) store.hashes hashes.reverse

/-- The uncovered messages of the closure with their metadata. -/
def closureMessages (store : MessageStore) (thread : ThreadId)
    (materialized : Option MaterializedPositions) (hashes : List String) :
    BTreeMap String (String × Option CausedBy) :=
  (referencedClosure store thread materialized hashes).foldl (fun messages hash =>
    if (cachedFact materialized hash).isSome then messages
    else match metadata store hash thread with
      | some data => messages.insert hash data
      | none => messages) ∅

namespace Resolution

/-- The type of a reference: cached, else what the store discloses. -/
def kind (r : Resolution) (hash : String) : Option String :=
  match cachedFact r.materialized hash with
  | some fact => some fact.metadata.verb
  | none => predecessorType r.store hash r.thread

/-- The rejection of a reference. -/
def wrong (r : Resolution) (hash : String) (expected : List String) : VerificationResult :=
  .violation (.invalidPredecessor hash expected ((r.kind hash).getD ""))

/-- Whether some copy of a base name is declared. -/
def repeated (r : Resolution) (base : String) : Bool :=
  r.protocol.steps.keys.any fun s => isCopyName s && repeatBaseName s = base

/-- Whether a reference inhabits a step.  Ordinary types keep their pre-repeat reading;
    copies (and the plain step of a repeated base) need ancestry evidence. -/
def «at» (r : Resolution) (hash step : String) : VerificationResult :=
  match cachedFact r.materialized hash with
  | some fact =>
      let ordinary := !isCopyName step && !r.repeated fact.metadata.verb
        && repeatBaseName step = fact.metadata.verb
      if ordinary || fact.steps.contains step then .valid else r.wrong hash [step]
  | none =>
    match r.kind hash with
    | none => .unknown
    | some found =>
      if found ≠ repeatBaseName step then r.wrong hash [step]
      else if !isCopyName step && !r.repeated found then .valid
      else match metadata r.store hash r.thread with
        | none => .unknown
        | some _ => (r.rows[(hash, step)]?).getD (r.wrong hash [step])

/-- Copy alternatives are existential: a wrong copy must not eclipse a missing one. -/
def alternatives (r : Resolution) (hash : String) (allowed : List String) :
    VerificationResult :=
  if allowed.any (fun name => r.at hash name = .valid) then .valid
  else if (r.kind hash).isNone || allowed.any (fun name => r.at hash name = .unknown) then
    .unknown
  else r.wrong hash allowed

/-- Whether a single reference names the thread root, in either spelling. -/
def namesRoot (h root : String) : Bool :=
  h = root ||
    match stripStart "sha256-" h, stripStart "sha256:" root with
    | some a, some b => a = b
    | _, _ => false

/-- Root typing: a single reference to the thread root reads as `begin`. -/
def rewriteRoot (root : Option ContentHash) (caused_by : Option CausedBy) : Option CausedBy :=
  match caused_by, root with
  | some (.single h), some root => if namesRoot h root then some .begin else caused_by
  | _, _ => caused_by

/-- Whether some name of `all` matches a reference. -/
def matched (r : Resolution) (all : List String) (h : String) : Bool :=
  all.any fun name => r.at h name = .valid

/-- Whether a reference may still match some name of `all`. -/
def undecided (r : Resolution) (all : List String) (h : String) : Bool :=
  (r.kind h).isNone || all.any fun name => r.at h name = .unknown

/-- Fan-in over an `(all …)` declaration: every reference must match, every name must be
    found; missing evidence keeps the verdict open. -/
def fanIn (r : Resolution) (all hashes : List String) : VerificationResult :=
  match hashes.find? (fun h => !r.matched all h && !r.undecided all h) with
  | some h => r.wrong h all
  | none =>
    let found := all.filter fun name => hashes.any fun h => r.at h name = .valid
    let absent := all.filter (· ∉ found)
    let possible := all.filter fun name => hashes.any fun h => r.at h name = .unknown
    if hashes.any (fun h => !r.matched all h && r.undecided all h)
        || absent.any (· ∈ possible) then .unknown
    else if absent = [] then .valid
    else .violation (.incompleteFanIn absent)

/-- Verdict of one step on a causal reference. -/
def step (r : Resolution) (step : StepDecl) (caused_by : Option CausedBy) :
    VerificationResult :=
  match rewriteRoot r.root caused_by with
  | none =>
      if step.predecessors = [] then .valid else .violation .missingCausedBy
  | some .begin =>
      let allowed := allowedSinglePredecessors step
      if BEGIN_KEYWORD ∈ allowed then .valid else r.wrong BEGIN_KEYWORD allowed
  | some (.single h) => r.alternatives h (allowedSinglePredecessors step)
  | some (.multiple hashes) =>
      match firstAll step with
      | none => .violation (.fanInWithoutAllDecl step.performative)
      | some all => r.fanIn all.toList hashes

/-- Fill the rows of one step: every message of its base type is judged against it. -/
def fillStep (messages : BTreeMap String (String × Option CausedBy)) (r : Resolution)
    (name : String) : Resolution :=
  if name = BEGIN_KEYWORD then r
  else match r.protocol.steps[name]? with
    | none => r
    | some decl =>
      messages.foldl (fun acc hash data =>
        if data.1 = repeatBaseName name then
          { acc with rows := acc.rows.insert (hash, name) (acc.step decl data.2) }
        else acc) r

/-- Build the evidence table of the referenced closure. -/
def new (store : MessageStore) (protocol : CausalProtocol) (thread : ThreadId)
    (root : Option ContentHash) (hashes : List String) : Resolution :=
  let materialized := store.materializedPositions.filter
    (fun p => p.matchesContext protocol thread root)
  let messages := closureMessages store thread materialized hashes
  if messages.isEmpty then
    { store, protocol, thread, root, order := [], rows := ∅, materialized }
  else
    let order := stepOrder protocol protocol.steps.size []
    order.foldl (fillStep messages)
      { store, protocol, thread, root, order, rows := ∅, materialized }

/-- The verdict of a verb: existential over its copies. -/
def verify (r : Resolution) (verb : String) (cause : Option CausedBy) : VerificationResult :=
  let results := (r.protocol.steps.toList.filter fun (name, _) =>
    name ≠ BEGIN_KEYWORD ∧ repeatBaseName name = verb).map fun (_, decl) => r.step decl cause
  if results.any (· = .valid) then .valid
  else if results.any (· = .unknown) then .unknown
  else results.getLast?.getD (.violation .missingCausedBy)

end Resolution

/-- The verdict of a verb over a protocol with copies; a verb of no step is legacy-valid. -/
def verify (verb : String) (cause : Option CausedBy) (store : MessageStore)
    (protocol : CausalProtocol) (thread : ThreadId) (root : Option ContentHash) :
    VerificationResult :=
  if protocol.steps.keys.any (fun name => repeatBaseName name = verb) then
    (Resolution.new store protocol thread root (citedHashes cause)).verify verb cause
  else .valid

end CbclRepeat
