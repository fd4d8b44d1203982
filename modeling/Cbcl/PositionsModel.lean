import Cbcl.CodecModel
import Cbcl.StateModel

/-!
# Cached positions and their continuation

`repeat.rs` can keep, for the accepted messages of one thread, the steps each of them
inhabits.  A message is added after its parents; its steps follow from theirs by the native
evaluator, and no ancestry is read again.  The facts live in a persistent treap whose
priorities are hashes of the identities.

`progress_resume.rs` is the checkpoint's handle on such a cache: it starts at the cast-bearing
root of the thread and takes every accepted message after it.
-/

namespace CbclPositions

open CbclMessage CbclProtocol CbclStore CbclRepeat CbclAct CbclState CbclCanonical
  CbclTypedAddr CbclCodec

-- ── The treap ────

/-- The number of facts, as the root records it. -/
def size : PositionIndex → Nat
  | .nil => 0
  | .node _ _ size _ _ => size

/-- A node over two subtrees. -/
def node (fact : PositionFact) (priority : List UInt8) (left right : PositionIndex) :
    PositionIndex :=
  .node fact priority (1 + size left + size right) left right

/-- What orders the nodes of a path: priority octets, then identity. -/
def rankOf (priority : List UInt8) (id : String) : List Nat ×ₗ String :=
  toLex (priority.map UInt8.toNat, id)

/-- The facts below an identity, and the others. -/
def split (id : String) : PositionIndex → PositionIndex × PositionIndex
  | .nil => (.nil, .nil)
  | .node fact priority _ left right =>
      if fact.metadata.id < id then
        (node fact priority left (split id right).1, (split id right).2)
      else
        ((split id left).1, node fact priority (split id left).2 right)

/-- Insert a fact: it takes the place of the first node of a higher rank on its path. -/
def put (fact : PositionFact) (priority : List UInt8) : PositionIndex → PositionIndex
  | .nil => node fact priority .nil .nil
  | .node f p s left right =>
      if rankOf priority fact.metadata.id < rankOf p f.metadata.id then
        let parts := split fact.metadata.id (.node f p s left right)
        node fact priority parts.1 parts.2
      else if fact.metadata.id < f.metadata.id then node f p (put fact priority left) right
      else node f p left (put fact priority right)

/-- The facts in identity order. -/
def values : PositionIndex → List PositionFact
  | .nil => []
  | .node fact _ _ left right => values left ++ fact :: values right

-- ── The cache ────

/-- A cache with the ranks of its protocol and the greatest rank of each verb so far. -/
structure CachedPositions extends MaterializedPositions where
  ranks : BTreeMap String (BTreeMap String Nat)
  progress : BTreeMap String Nat
deriving DecidableEq

/-- The ranks of a chain of positions, from one. -/
def rankTable (chain : List String) : BTreeMap String Nat :=
  chain.zipIdx.foldl (fun table (name, index) => table.insert name (index + 1)) ∅

/-- The ranks of every verb whose positions form a chain. -/
def ranksOf (protocol : CausalProtocol) : BTreeMap String (BTreeMap String Nat) :=
  (protocol.steps.keys.filter (· ≠ BEGIN_KEYWORD)).foldl (fun ranks name =>
    match positionChain protocol (repeatBaseName name) with
    | .ok chain => ranks.insert (repeatBaseName name) (rankTable chain)
    | .error _ => ranks) ∅

/-- A store that knows the covered messages only. -/
def portStore (positions : MaterializedPositions) : MessageStore where
  lookupInThread := fun _ _ => none
  envelopeInThread := fun _ _ => none
  openedInThread := fun _ _ => none
  materializedPositions := some positions
  hashes := []
  finite := fun _ _ _ => ⟨rfl, rfl, rfl⟩

/-- The native evaluator over the covered messages: every parent is covered, so no closure is
    walked and no row is filled. -/
def portResolution (positions : MaterializedPositions) (protocol : CausalProtocol) :
    Resolution where
  store := portStore positions
  protocol := protocol
  thread := positions.context.thread
  root := some positions.context.root
  order := []
  rows := ∅
  materialized := some positions

/-- The declarations of a verb. -/
def declarations (protocol : CausalProtocol) (verb : String) : List (String × StepDecl) :=
  protocol.steps.toList.filter fun (name, _) =>
    name ≠ BEGIN_KEYWORD ∧ repeatBaseName name = verb

/-- The steps a message inhabits, by the facts of its parents. -/
def establishedSteps (positions : MaterializedPositions) (data : PositionMetadata) :
    BTreeSet String :=
  match positions.protocol with
  | none => ∅
  | some protocol =>
      (declarations protocol data.verb).foldl (fun steps (name, decl) =>
        if (portResolution positions protocol).step decl data.cause = .valid then
          steps.insert name
        else steps) ∅

namespace CachedPositions

/-- An empty cache; a cyclic protocol or one with unreachable steps is refused. -/
def new (context : PositionContext) (protocol : Option CausalProtocol) :
    Except String CachedPositions :=
  match protocol with
  | none => .ok { context, protocol := none, entries := .nil, ranks := ∅, progress := ∅ }
  | some p =>
      if p.checkAcyclicity ≠ [] ∨ p.checkReachability ≠ [] then .error "invalid resume protocol"
      else .ok
        { context, protocol := some p, entries := .nil, ranks := ranksOf p, progress := ∅ }

/-- Whether a reference is covered, in either spelling. -/
def contains (p : CachedPositions) (id : String) : Bool :=
  (p.entries.get (nativeReference id)).isSome

/-- The greatest rank of a verb. -/
def progressOf (p : CachedPositions) (verb : String) : Nat := (p.progress[verb]?).getD 0

/-- The progress after a message of a verb with its steps. -/
def advance (p : CachedPositions) (verb : String) (steps : BTreeSet String) :
    BTreeMap String Nat :=
  match p.ranks[verb]? with
  | none => p.progress
  | some table =>
      p.progress.insert verb (max (p.progressOf verb)
        (((steps.toList.filterMap fun s => table[s]?).max?).getD 0))

/-- The checks on the causes of a new message. -/
def checkCauses (p : CachedPositions) (data : PositionMetadata) : Except String Unit :=
  if (citedHashes data.cause).any fun h => !p.contains h then .error "missing resume ancestor"
  else if data.id = p.context.root then
    if data.cause = some .begin then .ok () else .error "resume root cause"
  else if p.protocol.isSome
      ∧ (citedHashes data.cause = [] ∨ (p.entries.get p.context.root).isNone) then
    .error "resume root required"
  else .ok ()

section Hashing

variable (sha256 : Octets → Digest)

/-- File a fact under its identity. -/
def insert (p : CachedPositions) (fact : PositionFact) : CachedPositions :=
  { p with entries := put fact (sha256 (octets fact.metadata.id)).toList p.entries }

/-- Add a message to the cache. -/
def applyMetadata (p : CachedPositions) (data : PositionMetadata) :
    Except String CachedPositions :=
  match p.entries.get data.id with
  | some old => if old.metadata = data then .ok p else .error "conflicting resume identity"
  | none => do
      p.checkCauses data
      let steps := establishedSteps p.toMaterializedPositions data
      let declared := p.protocol.any fun protocol => declarations protocol data.verb ≠ []
      if declared ∧ data.id ≠ p.context.root ∧ steps = ∅ then
        throw "invalid resume position"
      return { p with progress := p.advance data.verb steps }.insert sha256 ⟨data, steps⟩

/-- Add an accepted message of the cache's thread. -/
def applyAccepted (p : CachedPositions) (message : Message) : Except String CachedPositions :=
  match message.innermostSimple with
  | none => .error "resume simple"
  | some simple =>
      if simple.thread ≠ some p.context.thread then .error "resume thread"
      else match simple.performative with
        | none => .error "resume verb"
        | some performative =>
            p.applyMetadata sha256
              { id := typedRoot sha256 simple
                verb := performative.name
                cause := simple.causedBy }

end Hashing

end CachedPositions

-- ── Restoration ────

/-- The native spellings of what a record cites, repetitions included. -/
def parentsOf (record : PositionMetadata) : List String :=
  (citedHashes record.cause).map nativeReference

/-- A restoration under way: the records not taken yet, which records wait for an identity, how
    many of its parents a record waits for, and the records that wait for none.  The last of
    these is next. -/
structure Restoring where
  todo : BTreeMap String PositionMetadata
  waiting : BTreeMap String (List String)
  remaining : BTreeMap String Nat
  ready : List String

/-- The records by identity. -/
def fileRecords (records : List PositionMetadata) :
    Except String (BTreeMap String PositionMetadata) :=
  records.foldlM (fun todo r =>
    if r.id ∈ todo then .error "duplicate resume identity" else .ok (todo.insert r.id r)) ∅

namespace Restoring

/-- Let a record wait for its parents. -/
def enter (w : Restoring) (entry : String × PositionMetadata) : Except String Restoring :=
  let (id, r) := entry
  if (parentsOf r).any (· ∉ w.todo) then .error "missing resume ancestor"
  else .ok { w with
    waiting := (parentsOf r).foldl
      (fun m parent => m.insert parent ((m[parent]?).getD [] ++ [id])) w.waiting
    remaining := w.remaining.insert id (parentsOf r).length
    ready := if parentsOf r = [] then w.ready ++ [id] else w.ready }

/-- One parent of a waiting record is restored. -/
def release (w : Restoring) (child : String) : Except String Restoring :=
  match w.remaining[child]? with
  | none => .error "resume child"
  | some count =>
      let w := { w with remaining := w.remaining.insert child (count - 1) }
      .ok (if count - 1 = 0 then { w with ready := w.ready ++ [child] } else w)

/-- The restoration after a record was taken. -/
def take (w : Restoring) (id : String) : Restoring :=
  { w with
    todo := w.todo.erase id
    waiting := w.waiting.erase id
    ready := w.ready.dropLast }

end Restoring

namespace CachedPositions

section Hashing

variable (sha256 : Octets → Digest)

/-- Restore what is ready.  Every round takes a record or ends, so their number bounds the
    rounds. -/
def restoreLoop : Nat → CachedPositions → Restoring →
    Except String (CachedPositions × Restoring)
  | 0, out, w => .ok (out, w)
  | fuel + 1, out, w =>
      match w.ready.getLast? with
      | none => .ok (out, w)
      | some id =>
          match w.todo[id]? with
          | none => .error "resume cycle"
          | some r => do
              let out ← out.applyMetadata sha256 r
              let w ← ((w.waiting[id]?).getD []).foldlM Restoring.release (w.take id)
              restoreLoop fuel out w

/-- Restore accepted metadata: parents first, whatever the order of the records. -/
def restoreAttested (context : PositionContext) (protocol : Option CausalProtocol)
    (records : List PositionMetadata) : Except String CachedPositions := do
  let out ← new context protocol
  let todo ← fileRecords records
  let w ← todo.toList.foldlM Restoring.enter ⟨todo, ∅, ∅, []⟩
  let (out, w) ← restoreLoop sha256 (records.length + 1) out w
  if w.todo.isEmpty then return out
  throw "cyclic resume ancestry"

end Hashing

end CachedPositions

-- ── The checkpoint's handle ────

/-- How many messages a cache may cover. -/
def MAX_RECORDS : Nat := 65536

/-- A cache that starts at the root of a thread. -/
structure ProgressResume where
  protocol : Option CausalProtocol
  verb : String
  positions : Option CachedPositions
deriving DecidableEq

/-- The error a refused native operation is reported as. -/
def orInvalid {α : Type} (reason : String) : Except String α → Except Error α
  | .ok a => .ok a
  | .error _ => .error (.invalid reason)

/-- Whether a message opens a thread: it carries a cast and cites nothing. -/
def opensThread (message : Message) : Bool :=
  message.wrapperType = some .withRoles
    && message.innermostSimple.any fun simple => simple.causedBy = some .begin

namespace ProgressResume

section Hashing

variable (sha256 : Octets → Digest) (protocolCode : Option CausalProtocol → List UInt8)

/-- A handle without a root; the protocol is checked at once. -/
def new (protocol : Option CausalProtocol) (verb : String) : Except Error ProgressResume := do
  let _ ← orInvalid "progress protocol"
    (CachedPositions.new ⟨protocolCode protocol, "", ""⟩ protocol)
  return { protocol, verb, positions := none }

/-- The cache of the root of a thread. -/
def open_ (r : ProgressResume) (act : Act) (native : String) (thread : ThreadId) :
    Except Error CachedPositions := do
  if ¬ opensThread act.message then throw (.invalid "progress first act must be root")
  let p ← orInvalid "progress protocol"
    (CachedPositions.new ⟨protocolCode r.protocol, native, thread⟩ r.protocol)
  orInvalid "progress root" (p.applyAccepted sha256 act.message)

/-- Extend the cache by an accepted message. -/
def extend (p : CachedPositions) (act : Act) (native : String) :
    Except Error CachedPositions := do
  if size p.entries ≥ MAX_RECORDS ∧ ¬ p.contains native then throw .budget
  orInvalid "progress native position" (p.applyAccepted sha256 act.message)

/-- Take a fresh accepted act.  Without a protocol nothing is kept. -/
def apply (r : ProgressResume) (act : Act) : Except Error ProgressResume :=
  match act.message.innermostSimple with
  | none => .error (.invalid "progress simple")
  | some simple =>
      match simple.performative with
      | none => .error (.invalid "progress verb")
      | some performative =>
          if act.address ≠ wireAddress (typedRoot sha256) simple
              ∨ act.verb ≠ performative.name then
            .error (.invalid "progress derived act")
          else if r.protocol.isNone then .ok r
          else match simple.thread with
            | none => .error (.invalid "progress thread")
            | some thread => do
                let native := typedRoot sha256 simple
                let p ← match r.positions with
                  | some p => extend sha256 p act native
                  | none => open_ sha256 protocolCode r act native thread
                return { r with positions := some p }

end Hashing

/-- The greatest rank of the handle's verb. -/
def progress (r : ProgressResume) : Nat :=
  (r.positions.map fun p => p.progressOf r.verb).getD 0

end ProgressResume

end CbclPositions
