import Cbcl.PositionsModel
import Cbcl.ResourceResumeModel

/-!
# Checkpoint summaries

`summary.rs` replaces the acts of a thread by one row per state field.  Each rule keeps only
what its value and its continuation need: the two least openers, the current winner of a
clock, the live writes with the replacements that still wait for their targets, totals, the
cached positions and counter facts.  `apply` takes one accepted act and a test for the acts
applied before it; `render` gives the values the fold would give.

Sorted vectors that are searched by key are ordered maps and sets here.  The hashes of the
schema, the protocol and a counter's rule are parameters: they enter encodings only.
-/

namespace CbclSummary

open CbclMessage CbclProtocol CbclRepeat CbclAct CbclEscrow CbclState CbclCanonical CbclTypedAddr
  CbclCodec CbclPositions CbclTreeMap

/-- What a rule reads of one act. -/
structure Contribution where
  id : String
  signer : String
  key : Option SExpr
  value : Option SExpr
  clock : Option String
deriving DecidableEq

/-- One entry of an event field. -/
structure Event where
  id : String
  signer : String
  selected_value : SExpr
deriving DecidableEq

/-- Live writes by identity, and the replacements whose target has not arrived. -/
structure ScopedRow where
  live : BTreeMap String Contribution
  pending : BTreeSet (Octets × String)
deriving DecidableEq

/-- The state of one field between acts. -/
inductive RowData where
  | initial (xs : List Contribution)
  | scoped (row : ScopedRow)
  | lwwRegister (winner : Option Contribution)
  | «exists» (flag : Bool)
  | count (n : Nat)
  | counter (n : Int)
  | setUnion (xs : BTreeSet Octets)
  | events (xs : BTreeMap String Event)
  | derived
  | progress (s : ProgressResume)
  | resource (s : CbclResourceResume.Summary)
deriving DecidableEq

/-- A summary: the clause, its protocol, the cached positions and the rows. -/
structure Summary where
  clause : StateClause
  protocol : Option CausalProtocol
  global_progress : Option ProgressResume
  rows : List RowData
deriving DecidableEq

-- ── Reading acts ────

/-- A wire identity. -/
def wireId (s : String) : Bool := (stripStart "sha256-" s).any isHex64

mutual
/-- The stored form of a value: symbols and keywords become their text. -/
def native : SExpr → SExpr
  | .atom (.symbol s) => .atom (.str s)
  | .atom (.keyword s) => .atom (.str (":" ++ s))
  | .atom (.str s) => .atom (.str s)
  | .atom (.num n) => .atom (.num n)
  | .atom (.bool b) => .atom (.bool b)
  | .list xs => .list (nativeItems xs)
/-- The stored form of the items of a list. -/
def nativeItems : List SExpr → List SExpr
  | [] => []
  | x :: xs => native x :: nativeItems xs
end

/-- A field of an act in its stored form. -/
def field (a : Act) (k : String) : Option SExpr := (a.fields[k]?).map native

/-- The verbs a rule names. -/
def verbs : Rule → List String
  | .boundedCounter c => c.verbs
  | .lwwRegister verb .. => [verb]
  | .lwwPerSigner verb .. => [verb]
  | .initial verb _ => [verb]
  | .exists verb => [verb]
  | .count verb => [verb]
  | .progress verb => [verb]
  | .events verb _ => [verb]
  | .setUnion verb _ => [verb]
  | .values verb _ => [verb]
  | .valuesPerKey verb _ _ delete => verb :: delete.toList
  | .lwwMap verb _ _ _ delete => verb :: delete.toList
  | .observedSet add remove _ => [add, remove]
  | .counter inc dec _ => [inc, dec]
  | .histogram _ => []
  | .sum _ => []

/-- The verb-keyword pairs a rule reads as data. -/
def dataFields : Rule → List (String × String)
  | .boundedCounter c => c.dataFields
  | .lwwRegister verb key clock => [(verb, key), (verb, clock)]
  | .lwwPerSigner verb key clock => [(verb, key), (verb, clock)]
  | .lwwMap verb key value clock delete =>
      [(verb, key), (verb, value), (verb, clock)] ++ (delete.map (·, key)).toList
  | .initial verb key => [(verb, key)]
  | .events verb key => [(verb, key)]
  | .setUnion verb key => [(verb, key)]
  | .values verb key => [(verb, key)]
  | .valuesPerKey verb key value delete =>
      [(verb, key), (verb, value)] ++ (delete.map (·, key)).toList
  | .observedSet add remove key => [(add, key), (remove, key)]
  | .counter inc dec key => [(inc, key), (dec, key)]
  | _ => []

/-- The rules with observed replacement. -/
def scopes : Rule → Bool
  | .values .. => true
  | .valuesPerKey .. => true
  | .observedSet .. => true
  | .lwwMap .. => true
  | .lwwPerSigner .. => true
  | _ => false

/-- Whether an act may replace writes of a rule. -/
def replacing (r : Rule) (a : Act) : Bool := scopes r && (verbs r).contains a.verb

/-- Whether an act writes a rule's field. -/
def writer (r : Rule) (a : Act) : Bool :=
  match r with
  | .observedSet add _ _ => a.verb = add
  | _ => (verbs r).head? = some a.verb

/-- A reference of a `:replaces` list is a string or symbol that spells a wire identity. -/
def namesWire (x : SExpr) : Bool := (text x).any wireId

/-- The checks on the references of a replacing act. -/
def checkReferences (r : Rule) (a : Act) : Except Error Unit :=
  if replacing r a then
    match a.fields[RESERVED_REPLACES]? with
    | none => .ok ()
    | some (.list xs) =>
        if xs.all namesWire then .ok () else .error (.invalid "replacement identity")
    | some _ => .error (.invalid "replacements")
  else .ok ()

/-- A canonical clock of an act. -/
def clockText (a : Act) (k : String) : Option String :=
  match a.fields[k]? with
  | some (.atom (.str s)) => if (Hlc.parse s).isSome then some s else none
  | _ => none

/-- What a rule keeps of an act. -/
def project (r : Rule) (a : Act) : Contribution :=
  match r with
  | .initial _ key => ⟨a.address, "", none, field a key, none⟩
  | .values _ key => ⟨a.address, "", none, field a key, none⟩
  | .observedSet _ _ key => ⟨a.address, "", field a key, none, none⟩
  | .valuesPerKey _ key value _ => ⟨a.address, "", field a key, field a value, none⟩
  | .lwwMap _ key value clock _ =>
      ⟨a.address, a.signer, field a key, field a value, clockText a clock⟩
  | .lwwRegister _ key clock => ⟨a.address, a.signer, none, field a key, clockText a clock⟩
  | .lwwPerSigner _ key clock => ⟨a.address, a.signer, none, field a key, clockText a clock⟩
  | _ => ⟨a.address, "", none, none, none⟩

/-- What orders contributions with a clock. -/
def stamp (c : Contribution) : Option Stamp :=
  (c.clock.bind Hlc.parse).map fun t => toLex (t, toLex (c.signer, c.id))

/-- The scope within which a write is replaced. -/
def scope (r : Rule) (c : Contribution) : Octets :=
  match r with
  | .valuesPerKey .. => (c.key.map encode).getD []
  | .lwwMap .. => (c.key.map encode).getD []
  | .observedSet .. => (c.key.map encode).getD []
  | .lwwPerSigner .. => encode (.atom (.str c.signer))
  | _ => []

/-- Set a field where there is a value. -/
def setField (fields : BTreeMap String SExpr) (key : String) (v : Option SExpr) :
    BTreeMap String SExpr :=
  match v with
  | some v => fields.insert key v
  | none => fields

/-- The verb and the fields a contribution stands for. -/
def restored (r : Rule) (c : Contribution) : String × BTreeMap String SExpr :=
  let clock := c.clock.map fun s => SExpr.atom (.str s)
  match r with
  | .initial verb key => (verb, setField ∅ key c.value)
  | .values verb key => (verb, setField ∅ key c.value)
  | .valuesPerKey verb key value _ => (verb, setField (setField ∅ key c.key) value c.value)
  | .observedSet add _ key => (add, setField ∅ key c.key)
  | .lwwMap verb key value clk _ =>
      (verb, setField (setField (setField ∅ key c.key) value c.value) clk clock)
  | .lwwRegister verb key clk => (verb, setField (setField ∅ key c.value) clk clock)
  | .lwwPerSigner verb key clk => (verb, setField (setField ∅ key c.value) clk clock)
  | _ => ("", ∅)

/-- An act made from a contribution, for the fold only. -/
def synthetic (r : Rule) (c : Contribution) : Act where
  address := c.id
  verb := (restored r c).1
  signer := c.signer
  predecessors := []
  recipients := ∅
  fields := (restored r c).2
  message := .simple (.custom (restored r c).1) none (.list []) [] none none none

/-- What an act adds to a total. -/
def integerDelta (r : Rule) (a : Act) : Int :=
  match r with
  | .count verb => if a.verb = verb then 1 else 0
  | .counter inc dec key =>
      let n := ((fieldOf a key).bind Value.asInt).getD 0
      (if a.verb = inc then n else 0) - (if a.verb = dec then n else 0)
  | _ => 0

-- ── An empty summary ────

section Hashing

variable (sha256 : Octets → Digest) (protocolCode : Option CausalProtocol → List UInt8)

/-- The row of a rule before the first act. -/
def emptyRow (protocol : Option CausalProtocol) : Rule → Except Error RowData
  | .initial .. => .ok (.initial [])
  | .lwwRegister .. => .ok (.lwwRegister none)
  | .values .. => .ok (.scoped ⟨∅, ∅⟩)
  | .valuesPerKey .. => .ok (.scoped ⟨∅, ∅⟩)
  | .observedSet .. => .ok (.scoped ⟨∅, ∅⟩)
  | .lwwMap .. => .ok (.scoped ⟨∅, ∅⟩)
  | .lwwPerSigner .. => .ok (.scoped ⟨∅, ∅⟩)
  | .exists _ => .ok (.exists false)
  | .count _ => .ok (.count 0)
  | .counter .. => .ok (.counter 0)
  | .setUnion .. => .ok (.setUnion ∅)
  | .events .. => .ok (.events ∅)
  | .histogram _ => .ok .derived
  | .sum _ => .ok .derived
  | .progress verb => (ProgressResume.new protocolCode protocol verb).map .progress
  | .boundedCounter _ => .ok (.resource CbclResourceResume.Summary.default)

/-- The rules a derived field may read. -/
def derives (rule : Rule) (source : Option Rule) : Bool :=
  match source with
  | some (.lwwMap ..) => true
  | some (.lwwPerSigner ..) => true
  | some (.events ..) => match rule with
    | .sum _ => true
    | _ => false
  | _ => false

/-- A derived field reads an earlier map field. -/
def checkSource (before : List (String × Rule)) (rule : Rule) : Except Error Unit :=
  let read (source : String) : Except Error Unit :=
    if derives rule ((before.find? (·.1 = source)).map (·.2)) then .ok ()
    else .error (.invalid "derived source")
  match rule with
  | .histogram source => read source
  | .sum source => read source
  | _ => .ok ()

/-- The empty rows of some entries, after the fields before them. -/
def emptyRows (protocol : Option CausalProtocol) (before : List (String × Rule)) :
    List Entry → Except Error (List RowData)
  | [] => .ok []
  | .domain .. :: _ => .error .unsupported
  | .field name rule :: rest => do
      if before.any (·.1 = name) then throw (.invalid "duplicate state field")
      checkSource before rule
      let row ← emptyRow protocolCode protocol rule
      let rows ← emptyRows protocol (before ++ [(name, rule)]) rest
      return row :: rows

/-- Whether a rule reports progress. -/
def isProgress : Rule → Bool
  | .progress _ => true
  | _ => false

/-- Whether the positions of every accepted message are kept. -/
def keepsPositions (clause : StateClause) (p : CausalProtocol) : Bool :=
  hasRepeat p || clause.fields.any fun (_, r) => isProgress r

/-- The summary of no acts. -/
def Summary.new (clause : StateClause) (protocol : Option CausalProtocol) :
    Except Error Summary := do
  let rows ← emptyRows protocolCode protocol [] clause.entries
  let global_progress ← (protocol.filter (keepsPositions clause)).mapM fun p =>
    ProgressResume.new protocolCode (some p) ""
  return { clause, protocol, global_progress, rows }

-- ── Applying an act ────

/-- An act carries the metadata its message determines. -/
def checkAct (a : Act) : Except Error Unit :=
  match Act.fromMessage (typedRoot sha256) a.message a.signer with
  | .error _ => .error (.invalid "act payload")
  | .ok derived => if derived ≠ a then .error (.invalid "act metadata") else .ok ()

/-- Every value a rule reads of an act can be read back from its octets. -/
def checkData (r : Rule) (a : Act) : Except Error Unit :=
  (dataFields r).forM fun (verb, key) =>
    if verb = a.verb then
      match field a key with
      | none => .ok ()
      | some v => (decodeSexpr (encode v) (256 * 1024)).map fun _ => ()
    else .ok ()

/-- Keep the two least openers. -/
def addInitial (xs : List Contribution) (c : Contribution) : List Contribution :=
  (((xs ++ [c]).insertionSort fun a b => a.id ≤ b.id).destutter fun a b => a.id ≠ b.id).take 2

/-- Keep the contribution of the later stamp. -/
def later (winner : Option Contribution) (c : Contribution) : Option Contribution :=
  match stamp c with
  | none => winner
  | some t =>
      if winner.all fun w => (stamp w).all fun u => u < t then some c else winner

/-- Take one reference of a replacing act: its target leaves the live writes, or is awaited. -/
def replaceOne (r : Rule) (k : Octets) (address : String) (covered : String → Bool)
    (row : ScopedRow) (id : String) : ScopedRow where
  live := row.live.filter fun _ w => w.id ≠ id ∨ scope r w ≠ k
  pending := if id ≠ address ∧ ¬ covered id then row.pending.insert (k, id) else row.pending

/-- Apply an act to a row with observed replacement. -/
def applyScoped (r : Rule) (row : ScopedRow) (a : Act) (covered : String → Bool) : ScopedRow :=
  let c := project r a
  let k := scope r c
  let suppressed := row.pending.contains (k, a.address)
  let pending := row.pending.filter fun p => p.2 ≠ a.address
  let live := if writer r a ∧ ¬ suppressed then row.live.insertIfNew c.id c else row.live
  if replacing r a then (replacedBy a).foldl (replaceOne r k a.address covered) ⟨live, pending⟩
  else ⟨live, pending⟩

/-- Apply an act to one row. -/
def applyRow (r : Rule) (data : RowData) (a : Act) (covered : String → Bool) :
    Except Error RowData :=
  match data with
  | .initial xs => .ok (.initial (if writer r a then addInitial xs (project r a) else xs))
  | .lwwRegister winner =>
      .ok (.lwwRegister (if writer r a then later winner (project r a) else winner))
  | .scoped row => .ok (.scoped (applyScoped r row a covered))
  | .exists flag => .ok (.exists (writer r a || flag))
  | .count n =>
      if n + (integerDelta r a).toNat < 2 ^ 64 then .ok (.count (n + (integerDelta r a).toNat))
      else .error .budget
  | .counter n =>
      match checkedAdd n (integerDelta r a) with
      | some n => .ok (.counter n)
      | none => .error .budget
  | .setUnion xs =>
      match r with
      | .setUnion verb key =>
          .ok (.setUnion (if a.verb = verb then
            ((field a key).map fun v => xs.insert (encode v)).getD xs else xs))
      | _ => .ok (.setUnion xs)
  | .events xs =>
      match r with
      | .events verb key =>
          .ok (.events (if a.verb = verb then
            ((field a key).map fun v =>
              xs.insertIfNew a.address ⟨a.address, a.signer, v⟩).getD xs else xs))
      | _ => .ok (.events xs)
  | .derived => .ok .derived
  | .progress s => (s.apply sha256 protocolCode a).map .progress
  | .resource s =>
      match r with
      | .boundedCounter rule => (s.apply sha256 rule a covered).map .resource
      | _ => .error (.invalid "resource rule")

/-- Apply an act to rows and their rules. -/
def applyRows (a : Act) (covered : String → Bool) :
    List (String × Rule) → List RowData → Except Error (List RowData)
  | (_, r) :: fields, data :: rows => do
      let data ← applyRow sha256 protocolCode r data a covered
      let rows ← applyRows a covered fields rows
      return data :: rows
  | _, _ => .ok []

/-- Apply an act; `covered` tells which identities were applied before.  Nothing changes
    unless every row accepts it. -/
def Summary.apply (s : Summary) (a : Act) (covered : String → Bool) : Except Error Summary := do
  checkAct sha256 a
  s.clause.fields.forM fun (_, r) => do
    checkReferences r a
    checkData r a
  if covered a.address then return s
  let global_progress ← s.global_progress.mapM fun g => g.apply sha256 protocolCode a
  let rows ← applyRows sha256 protocolCode a covered s.clause.fields s.rows
  return { s with global_progress, rows }

/-- The identities whose coverage an act makes the summary ask for. -/
def Summary.queryIds (s : Summary) (a : Act) : Except Error (List String) := do
  checkAct sha256 a
  let ids ← (s.clause.fields.zip s.rows).foldlM (fun (ids : BTreeSet String) ((_, r), data) => do
    checkReferences r a
    let ids := if replacing r a then (replacedBy a).foldl (fun ids id => ids.insert id) ids
      else ids
    match r, data with
    | .boundedCounter rule, .resource resume =>
        return (← resume.queryIds sha256 rule a).foldl (fun ids id => ids.insert id) ids
    | _, _ => return ids) ∅
  return (ids.erase a.address).toList

/-- Apply acts one by one; an identity is covered once its act has been applied. -/
def Summary.applyAll (s : Summary) : List Act → List String → Except Error Summary
  | [], _ => .ok s
  | a :: acts, applied => do
      let s ← s.apply sha256 protocolCode a fun id => applied.contains id
      s.applyAll acts (a.address :: applied)

-- ── Rendering ────

/-- The fold of one field over the acts some contributions stand for. -/
def foldLive (name : String) (r : Rule) (xs : List Contribution) : Value :=
  ((fold (typedRoot sha256) ⟨[.field name r]⟩ none (xs.map (synthetic r))).head?.map (·.2)).getD
    .absent

/-- Stored values, distinct and sorted by rendering. -/
def sortedValues (xs : List Value) : List Value := sortedDistinct xs

/-- The value of a derived field. -/
def derive (r : Rule) (done : State) : Value :=
  match r with
  | .histogram field => histogramOf done field
  | .sum field => .int ((entriesOf done field).filterMap fun e => e.2.asInt).sum
  | _ => .absent

/-- A stored value read back; `apply` has checked that it can be. -/
def readBack (os : Octets) : Value :=
  match decodeSexpr os (256 * 1024) with
  | .ok x => Value.fromSExpr x
  | .error _ => .absent

/-- The value of one row. -/
def renderRow (name : String) (r : Rule) (data : RowData) (done : State) : Value :=
  match data with
  | .initial xs => foldLive sha256 name r xs
  | .scoped row => foldLive sha256 name r (valuesOf row.live)
  | .lwwRegister c => foldLive sha256 name r c.toList
  | .exists v => .bool v
  | .count n => .int n
  | .counter n => .int n
  | .setUnion xs => .set (sortedValues (xs.toList.map readBack))
  | .events xs => .map ((valuesOf xs).map fun e =>
      (.str e.id, .pair e.signer (Value.fromSExpr e.selected_value)))
  | .derived => derive r done
  | .progress s => .int (s.progress : Nat)
  | .resource s =>
      match r with
      | .boundedCounter rule => s.render rule
      | _ => .absent

/-- The values of a summary, in clause order. -/
def Summary.render (s : Summary) : State :=
  (s.clause.fields.zip s.rows).foldl (fun done ((name, r), data) =>
    done ++ [(name, renderRow sha256 name r data done)]) []

-- ── Encodings ────

/-- An optional value. -/
def putValue : Option SExpr → Octets
  | none => putU32 0
  | some v => putU32 1 ++ putBytes (encode v)

/-- A counted list of contributions. -/
def putContributions (xs : List Contribution) : Octets :=
  putU32 xs.length ++ xs.flatMap fun c =>
    putString c.id ++ putString c.signer ++ putValue c.key ++ putValue c.value
      ++ putValue (c.clock.map fun s => .atom (.str s))

/-- A causal reference. -/
def putCause : Option CausedBy → Octets
  | none => putU32 0
  | some .begin => putU32 1
  | some (.single h) => putU32 2 ++ putString h
  | some (.multiple hs) => putU32 3 ++ putU32 hs.length ++ hs.flatMap putString

/-- The record of cached positions: metadata only. -/
def encodeProgress (r : ProgressResume) : Octets :=
  putU32 1 ++ protocolCode r.protocol ++ putString r.verb
    ++ putU32 (if r.positions.isSome then 1 else 0)
    ++ (r.positions.map fun p =>
      putString p.context.root ++ putString p.context.thread
        ++ putU32 (values p.entries).length
        ++ (values p.entries).flatMap fun f =>
          putString f.metadata.id ++ putString f.metadata.verb ++ putCause f.metadata.cause).getD []

/-- The octets of awaited replacements, sorted. -/
def putPending (pending : BTreeSet (Octets × String)) : Octets :=
  putU32 pending.size
    ++ ((pending.toList.map fun p => putBytes p.1 ++ putString p.2).insertionSort fun a b =>
      a.map UInt8.toNat ≤ b.map UInt8.toNat).flatten

/-- The record of one row. -/
def encodeRow (ruleHash : CounterRule → Digest) : RowData → Octets
  | .initial xs => putU32 0 ++ putContributions xs
  | .scoped row => putU32 1 ++ putContributions (valuesOf row.live) ++ putPending row.pending
  | .lwwRegister c => putU32 2 ++ putContributions c.toList
  | .exists v => putU32 3 ++ putU32 (if v then 1 else 0)
  | .count n => putU32 4 ++ bigEndian 8 n
  | .counter n => putU32 5 ++ bigEndian 16 (n % 2 ^ 128).toNat
  | .setUnion xs => putU32 6 ++ putU32 xs.size ++ xs.toList.flatMap putBytes
  | .events xs => putU32 7 ++ putU32 xs.size ++ (valuesOf xs).flatMap fun e =>
      putString e.id ++ putString e.signer ++ putBytes (encode e.selected_value)
  | .derived => putU32 8
  | .progress s => putU32 9 ++ putBytes (encodeProgress protocolCode s)
  | .resource s => putU32 10 ++ putBytes (s.encode ruleHash)

/-- The record of a summary. -/
def Summary.encode (ruleHash : CounterRule → Digest)
    (schemaHash : StateClause → Option CausalProtocol → Digest) (s : Summary) : Octets :=
  putU32 2 ++ (schemaHash s.clause s.protocol).toList
    ++ (match s.global_progress with
      | none => putU32 0
      | some r => putU32 1 ++ putBytes (encodeProgress protocolCode r))
    ++ putU32 s.rows.length ++ s.rows.flatMap (encodeRow protocolCode ruleHash)

/-- The hash of a summary. -/
def Summary.hash (ruleHash : CounterRule → Digest)
    (schemaHash : StateClause → Option CausalProtocol → Digest) (s : Summary) : Digest :=
  CbclCodec.hash sha256 "cbcl/checkpoint/summary/v2" (s.encode protocolCode ruleHash schemaHash)

end Hashing

end CbclSummary
