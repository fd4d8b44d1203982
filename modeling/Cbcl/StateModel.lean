import Cbcl.CanonicalModel
import Cbcl.EscrowModel
import Cbcl.RepeatModel
import Cbcl.ThreadedStoreModel

/-!
# The state layer

A `(state …)` clause (`state.rs`) names fields and gives each a rule: registers, sets, maps,
counters, progress along the protocol.  `fold` evaluates the fields in clause order over the
acts of a thread.  Acts are first reduced to one per address, domains are resolved against
that set, and each rule then selects and reduces; `Histogram` and `Sum` read earlier fields.

Values carry a canonical JSON rendering.  Renderings are the keys by which sets are sorted and
maps are grouped, so the rendering is part of the model.
-/

namespace CbclState

open CbclMessage CbclProtocol CbclStore CbclThreadedStore CbclRepeat CbclAct CbclEscrow
  CbclTreeMap CbclCanonical

/-- The reserved bookkeeping keyword of replacing writes. -/
def RESERVED_REPLACES : String := "replaces"

-- ── Clauses ────

/-- The author-facing rules. -/
inductive Rule where
  | boundedCounter (c : CounterRule)
  | lwwRegister (verb key clock : String)
  | lwwPerSigner (verb key clock : String)
  | lwwMap (verb key value clock : String) (delete : Option String)
  | initial (verb key : String)
  | «exists» (verb : String)
  | count (verb : String)
  | progress (verb : String)
  | events (verb key : String)
  | setUnion (verb key : String)
  | values (verb key : String)
  | valuesPerKey (verb key value : String) (delete : Option String)
  | observedSet (add remove key : String)
  | counter (inc dec key : String)
  | histogram (field : String)
  | sum (field : String)
deriving DecidableEq

/-- One entry of a clause: a field, or a domain filter on the acts of a verb. -/
inductive Entry where
  | field (name : String) (rule : Rule)
  | domain (verb key field : String)
deriving DecidableEq

/-- A parsed clause. -/
structure StateClause where
  entries : List Entry
deriving DecidableEq

/-- The fields, in clause order. -/
def StateClause.fields (clause : StateClause) : List (String × Rule) :=
  clause.entries.filterMap fun
    | .field name rule => some (name, rule)
    | .domain .. => none

/-- The domains, in clause order. -/
def StateClause.domains (clause : StateClause) : List (String × String × String) :=
  clause.entries.filterMap fun
    | .field .. => none
    | .domain verb key field => some (verb, key, field)

/-- The rule of a named field. -/
def StateClause.ruleOf (clause : StateClause) (field : String) : Option Rule :=
  (clause.fields.find? (·.1 = field)).map (·.2)

-- ── Values and their rendering ────

/-- A state value. -/
inductive Value where
  | absent
  | str (s : String)
  | int (n : Int)
  | bool (b : Bool)
  | list (items : List Value)
  | set (items : List Value)
  | map (entries : List (Value × Value))
  | pair (signer : String) (value : Value)

mutual
/-- Read a field value; symbols and keywords become their text. -/
def Value.fromSExpr : SExpr → Value
  | .atom (.str x) => .str x
  | .atom (.num n) => .int n.toInt
  | .atom (.bool b) => .bool b
  | .atom (.symbol x) => .str x
  | .atom (.keyword x) => .str (":" ++ x)
  | .list items => .list (Value.fromItems items)
/-- Read the items of a list. -/
def Value.fromItems : List SExpr → List Value
  | [] => []
  | x :: xs => Value.fromSExpr x :: Value.fromItems xs
end

/-- A lowercase hexadecimal digit. -/
def hexDigit (n : Nat) : Char := if n < 10 then Char.ofNat (48 + n) else Char.ofNat (87 + n)

/-- One character of a JSON string: the two-character escapes where they exist, `\u00XX` for
    the other control characters. -/
def jsonChar (c : Char) : List Char :=
  if c = '"' then ['\\', '"']
  else if c = '\\' then ['\\', '\\']
  else if c = '\n' then ['\\', 'n']
  else if c = '\r' then ['\\', 'r']
  else if c = '\t' then ['\\', 't']
  else if c.toNat = 0x8 then ['\\', 'b']
  else if c.toNat = 0xc then ['\\', 'f']
  else if c.toNat < 0x20 then
    ['\\', 'u', '0', '0', hexDigit (c.toNat / 16), hexDigit (c.toNat % 16)]
  else [c]

/-- A JSON string. -/
def jsonString (s : List Char) : List Char := '"' :: s.flatMap jsonChar ++ ['"']

/-- The decimal text of an integer. -/
def intText (n : Int) : List Char := (signedDecimal n).map fun b => Char.ofNat b.toNat

/-- The text of a map key: a string as itself, anything else as its rendering. -/
def mapKeyText (k : Value) (rendering : List Char) : List Char :=
  match k with
  | .str s => s.toList
  | _ => rendering

/-- Texts, separated by commas. -/
def commas : List (List Char) → List Char
  | [] => []
  | [x] => x
  | x :: y :: rest => x ++ ',' :: commas (y :: rest)

/-- One member of an object. -/
def member (key value : List Char) : List Char := jsonString key ++ ':' :: value

mutual
/-- The characters of the canonical rendering. -/
def Value.renderInto : Value → List Char
  | .absent => ['n', 'u', 'l', 'l']
  | .str s => jsonString s.toList
  | .int n => intText n
  | .bool b => if b then ['t', 'r', 'u', 'e'] else ['f', 'a', 'l', 's', 'e']
  | .list items => '[' :: commas (Value.renderItems items) ++ [']']
  | .set items => '[' :: commas (Value.renderItems items) ++ [']']
  | .map entries => '\x7b' :: commas (Value.renderEntries entries) ++ ['\x7d']
  | .pair signer value =>
      '\x7b' :: commas [member ['b', 'y'] (jsonString signer.toList),
        member ['v', 'a', 'l', 'u', 'e'] value.renderInto] ++ ['\x7d']
/-- The items of a list or set. -/
def Value.renderItems : List Value → List (List Char)
  | [] => []
  | x :: rest => x.renderInto :: Value.renderItems rest
/-- The members of a map. -/
def Value.renderEntries : List (Value × Value) → List (List Char)
  | [] => []
  | (k, v) :: rest =>
      member (mapKeyText k k.renderInto) v.renderInto :: Value.renderEntries rest
end

/-- The canonical JSON rendering. -/
def Value.render (v : Value) : String := String.ofList v.renderInto

/-- The integer a value carries. -/
def Value.asInt : Value → Option Int
  | .int n => some n
  | .pair _ value => value.asInt
  | _ => none

/-- The named values of a state. -/
abbrev State := List (String × Value)

/-- Render a whole state: an object in clause order. -/
def renderJson (state : State) : String :=
  String.ofList ('\x7b' :: commas (state.map fun (name, v) => member name.toList v.renderInto)
    ++ ['\x7d'])

/-- Distinct values sorted by rendering: a stable sort, then runs of one rendering keep their
    first value. -/
def sortedDistinct (values : List Value) : List Value :=
  (values.insertionSort fun a b => a.render ≤ b.render).destutter fun a b => a.render ≠ b.render

/-- The value an outcome of a bounded counter is shown as. -/
def outcomeValue (outcome : Outcome) : Value :=
  let balances (m : BTreeMap String Int) : Value :=
    .map (m.toList.map fun (k, n) => (.str k, .int n))
  let entries : BTreeMap String Value :=
    match outcome with
    | .ready s =>
        let entries := ((∅ : BTreeMap String Value).insert "status" (.str "ready")
          |>.insert "value" (.int s.value)).insert "rights" (balances s.rights)
        match s.headroom with
        | some h => entries.insert "headroom" (balances h)
        | none => entries
    | .pending xs =>
        ((∅ : BTreeMap String Value).insert "status" (.str "pending")).insert "evidence"
          (.list (xs.map .str))
    | .fault reason evidence =>
        (((∅ : BTreeMap String Value).insert "status" (.str "fault")).insert "reason"
          (.str reason)).insert "evidence" (.list (evidence.map .str))
  .map (entries.toList.map fun (k, v) => (.str k, v))

-- ── Clocks ────

/-- A lowercase hexadecimal character. -/
def isLowerHex (c : Char) : Bool := ('0' ≤ c && c ≤ '9') || ('a' ≤ c && c ≤ 'f')

/-- The value of a lowercase hexadecimal character. -/
def hexValue (c : Char) : Nat := if c ≤ '9' then c.toNat - 48 else c.toNat - 87

/-- The number a hexadecimal text spells. -/
def fromHex (cs : List Char) : Nat := cs.foldl (fun n c => 16 * n + hexValue c) 0

/-- A hybrid logical clock: physical milliseconds, then a logical counter. -/
abbrev Hlc := Nat ×ₗ Nat

/-- Recognise `hlc-<16 hex>-<8 hex>`. -/
def Hlc.parse (text : String) : Option Hlc :=
  let cs := text.toList
  if cs.length ≠ 29 ∨ cs.take 4 ≠ "hlc-".toList ∨ cs[20]? ≠ some '-' then none
  else if ((cs.drop 4).take 16).all isLowerHex && (cs.drop 21).all isLowerHex then
    some (toLex (fromHex ((cs.drop 4).take 16), fromHex (cs.drop 21)))
  else none

-- ── Progress ────

/-- The ancestors of the placed steps and the positions of a verb among them. -/
structure Chain where
  ancestors : BTreeMap String (BTreeSet String)
  positions : List String

/-- The ancestors a step inherits from its predecessors. -/
def inherited (protocol : CausalProtocol) (ancestors : BTreeMap String (BTreeSet String))
    (name : String) : BTreeSet String :=
  let parents := ((protocol.steps[name]?).map fun step =>
    step.predecessors.flatMap NodeRef.performatives).getD []
  parents.foldl (fun acc parent =>
    ((ancestors[parent]?).getD ∅).toList.foldl (·.insert ·) (acc.insert parent)) ∅

/-- Place one ready step; a position that does not follow the one before it is refused. -/
def placeStep (protocol : CausalProtocol) (verb : String) (chain : Chain) (name : String) :
    Except String Chain :=
  let known := inherited protocol chain.ancestors name
  if name ≠ BEGIN_KEYWORD ∧ repeatBaseName name = verb then
    if chain.positions.getLast?.any (· ∉ known) then
      .error ("progress '" ++ verb ++ "' has incomparable protocol positions")
    else .ok ⟨chain.ancestors.insert name known, chain.positions ++ [name]⟩
  else .ok ⟨chain.ancestors.insert name known, chain.positions⟩

/-- Rounds of ready steps until none is left. -/
def placeRounds (protocol : CausalProtocol) (verb : String) : Nat → Chain → Except String Chain
  | 0, chain => .ok chain
  | fuel + 1, chain =>
      match readySteps protocol chain.ancestors.keys with
      | [] => .ok chain
      | ready => do
          let chain ← ready.foldlM (placeStep protocol verb) chain
          placeRounds protocol verb fuel chain

/-- The ordered occurrences of a verb in a finite protocol. -/
def positionChain (protocol : CausalProtocol) (verb : String) : Except String (List String) := do
  let chain ← placeRounds protocol verb protocol.steps.size ⟨∅, []⟩
  if chain.ancestors.size ≠ protocol.steps.size ∨ chain.positions = [] then
    .error ("progress '" ++ verb ++ "' requires positions in an acyclic protocol")
  else return chain.positions

/-- The act of least address. -/
def minByAddress (acts : List Act) : Option Act :=
  acts.foldl (fun best a =>
    match best with
    | none => some a
    | some b => if a.address < b.address then some a else some b) none

section Acts

variable (contentHash : Message → String)

/-- File a threaded act under both spellings of its address. -/
def fileThreaded (store : ThreadedMessageStore) (a : Act) : ThreadedMessageStore :=
  match a.simple.thread with
  | none => store
  | some thread =>
      ((store.append (contentHash a.simple) thread a.message).2.append a.address thread
        a.message).2

/-- Add an act to its thread. -/
def addMember (threads : BTreeMap String (List Act)) (a : Act) : BTreeMap String (List Act) :=
  match a.simple.thread with
  | none => threads
  | some thread => threads.insert thread ((threads[thread]?).getD [] ++ [a])

/-- The root of a thread: the cast-bearing member without a predecessor. -/
def rootOf (members : List Act) : Option ContentHash :=
  (minByAddress (members.filter fun a =>
    a.message.wrapperType = some .withRoles ∧ a.predecessors = [])).map
      fun a => contentHash a.simple

/-- The ranks at which the members of a thread are established. -/
def memberPositions (protocol : CausalProtocol) (verb : String) (chain : List String)
    (store : MessageStore) (thread : String) (members : List Act) : List Nat :=
  let resolution := Resolution.new store protocol thread (rootOf contentHash members)
    (members.map (·.address))
  (members.filter (·.verb = verb)).flatMap fun a =>
    chain.zipIdx.filterMap fun (name, index) =>
      if resolution.rows[(a.address, name)]? = some .valid then some (index + 1) else none

/-- The protocol ranks of a verb that accepted acts establish. -/
def acceptedPositions (protocol : CausalProtocol) (verb : String) (acts : List Act) :
    List Nat :=
  match positionChain protocol verb with
  | .error _ => []
  | .ok chain =>
      let store := (acts.foldl (fileThreaded contentHash) ThreadedMessageStore.new).toStore
      (acts.foldl addMember ∅).toList.flatMap fun (thread, members) =>
        memberPositions contentHash protocol verb chain store thread members

-- ── The kernel ────

/-- One act per address, and the domains in force: a verb, a key and its allowed values. -/
structure Kernel where
  accepted : List Act
  domains : List (String × String × List Value)

/-- One act per address; the first occurrence is kept. -/
def dedupByAddress (acts : List Act) : List Act :=
  (acts.foldl (fun (seen, kept) a =>
    if a.address ∈ seen then (seen, kept) else (seen.insert a.address, kept ++ [a]))
    ((∅ : BTreeSet String), ([] : List Act))).2

/-- A field of an act as a value. -/
def fieldOf (a : Act) (key : String) : Option Value := (a.fields[key]?).map Value.fromSExpr

/-- The addresses an act names in `:replaces`. -/
def replacedBy (a : Act) : List String :=
  match a.fields[RESERVED_REPLACES]? with
  | some (.list items) => items.filterMap text
  | _ => []

/-- What orders the candidates of a last-writer-wins pick: clock, signer, address. -/
abbrev Stamp := Hlc ×ₗ String ×ₗ String

/-- The stamp of an act with a canonical clock. -/
def stampOf (clock : String) (a : Act) : Option Stamp :=
  match a.fields[clock]? with
  | some (.atom (.str s)) => (Hlc.parse s).map fun t => toLex (t, toLex (a.signer, a.address))
  | _ => none

/-- The last candidate of greatest stamp. -/
def maxBy (candidates : List (Stamp × Act)) : Option (Stamp × Act) :=
  candidates.foldl (fun best x =>
    match best with
    | none => some x
    | some b => if b.1 ≤ x.1 then some x else some b) none

/-- Whether a domain admits an act. -/
def admits (domain : String × String × List Value) (verb : String) (a : Act) : Bool :=
  if domain.1 ≠ verb then true
  else match fieldOf a domain.2.1 with
    | some v => domain.2.2.any fun x => x.render = v.render
    | none => false

/-- The rendered key of an act; the empty text where there is none. -/
def keyOf (key : Option String) (a : Act) : String :=
  match key with
  | some k => ((fieldOf a k).map Value.render).getD ""
  | none => ""

/-- Group acts by signer, in signer order. -/
def groupBySigner (table : List Act) : BTreeMap String (List Act) :=
  table.foldl (fun out a => out.insert a.signer ((out[a.signer]?).getD [] ++ [a])) ∅

/-- Add an act to the group of its rendered key; the first key value stands for the group. -/
def addToGroup (key : String) (out : BTreeMap String (Value × List Act)) (a : Act) :
    BTreeMap String (Value × List Act) :=
  match fieldOf a key with
  | none => out
  | some k =>
      let group := (out[k.render]?).getD (k, [])
      out.insert k.render (group.1, group.2 ++ [a])

/-- Group acts by a key field, in the order of the renderings. -/
def groupByKey (table : List Act) (key : String) : List (Value × List Act) :=
  valuesOf (table.foldl (addToGroup key) ∅)

/-- The distinct values of a field. -/
def distinct (table : List Act) (key : String) : Value :=
  .set (sortedDistinct (table.filterMap fun a => fieldOf a key))

/-- The sum of an integer field. -/
def sumOf (table : List Act) (key : String) : Int :=
  (table.filterMap fun a => (fieldOf a key).bind Value.asInt).sum

/-- The value of the candidate with the greatest canonical clock. -/
def pickLww (acts : List Act) (key clock : String) : Value :=
  match maxBy (acts.filterMap fun a => (stampOf clock a).map (·, a)) with
  | some (_, a) => (fieldOf a key).getD .absent
  | none => .absent

/-- The field of the only act of a table. -/
def initialOf (table : List Act) (key : String) : Value :=
  match table with
  | [a] => (fieldOf a key).getD .absent
  | _ => .absent

/-- The value a map entry contributes to a histogram. -/
def bare : Value → Value
  | .pair _ value => value
  | v => v

/-- Count a value under its rendering; the first value stands for its rendering. -/
def countValue (counts : BTreeMap String (Value × Int)) (v : Value) :
    BTreeMap String (Value × Int) :=
  match v with
  | .absent => counts
  | v =>
      let entry := (counts[v.render]?).getD (v, 0)
      counts.insert v.render (entry.1, entry.2 + 1)

/-- The entries of a finished map field. -/
def entriesOf (done : State) (field : String) : List (Value × Value) :=
  match done.find? (·.1 = field) with
  | some (_, .map entries) => entries
  | _ => []

/-- How often each value occurs in a map field. -/
def histogramOf (done : State) (field : String) : Value :=
  let counts := (entriesOf done field).foldl (fun counts e => countValue counts (bare e.2)) ∅
  .map ((valuesOf counts).map fun (v, n) => (v, .int n))

namespace Kernel

/-- The accepted acts of a verb, less those a domain excludes. -/
def acts (k : Kernel) (verb : String) : List Act :=
  (k.accepted.filter (·.verb = verb)).filter fun a => k.domains.all fun d => admits d verb a

/-- The writes no accepted write or deletion of the same key replaces. -/
def current (k : Kernel) (verb : String) (key delete : Option String) : List Act :=
  let replacers := k.acts verb ++ (delete.map k.acts).getD []
  let replaced := replacers.flatMap fun r => (replacedBy r).map fun a => (keyOf key r, a)
  (k.acts verb).filter fun w => (keyOf key w, w.address) ∉ replaced

/-- The writes no accepted write of the same signer replaces. -/
def currentBySigner (k : Kernel) (verb : String) : List Act :=
  let replaced := (k.acts verb).flatMap fun r => (replacedBy r).map fun a => (r.signer, a)
  (k.acts verb).filter fun w => (w.signer, w.address) ∉ replaced

/-- The contributions of an event field, by address. -/
def events (k : Kernel) (verb key : String) : List (Value × Value) :=
  ((k.acts verb).filterMap fun a =>
    (fieldOf a key).map fun v => (Value.str a.address, Value.pair a.signer v)).insertionSort
      fun a b => a.1.render ≤ b.1.render

/-- Evaluate a rule over the accepted acts and the fields done so far. -/
def eval (k : Kernel) (rule : Rule) (done : State) (protocol : Option CausalProtocol) : Value :=
  match rule with
  | .boundedCounter c => outcomeValue (observe contentHash c k.accepted)
  | .lwwRegister verb key clock => pickLww (k.acts verb) key clock
  | .lwwPerSigner verb key clock =>
      .map ((groupBySigner (k.currentBySigner verb)).toList.map fun (s, t) =>
        (.str s, pickLww t key clock))
  | .lwwMap verb key value clock delete =>
      .map ((groupByKey (k.current verb (some key) delete) key).map fun (v, t) =>
        (v, pickLww t value clock))
  | .initial verb key => initialOf (k.accepted.filter (·.verb = verb)) key
  | .exists verb => .bool (!(k.acts verb).isEmpty)
  | .count verb => .int (k.acts verb).length
  | .progress verb =>
      let positions := (protocol.map fun p =>
        acceptedPositions contentHash p verb k.accepted).getD []
      .int ((positions.max?).getD 0 : Nat)
  | .events verb key => .map (k.events verb key)
  | .setUnion verb key => distinct (k.acts verb) key
  | .values verb key => distinct (k.current verb none none) key
  | .valuesPerKey verb key value delete =>
      .map ((groupByKey (k.current verb (some key) delete) key).map fun (v, t) =>
        (v, distinct t value))
  | .observedSet add remove key => distinct (k.current add (some key) (some remove)) key
  | .counter inc dec key => .int (sumOf (k.acts inc) key - sumOf (k.acts dec) key)
  | .histogram field => histogramOf done field
  | .sum field => .int ((entriesOf done field).filterMap fun e => e.2.asInt).sum

end Kernel

/-- The values a domain field allows. -/
def allowedValues : Value → List Value
  | .list items => items
  | .set items => items
  | _ => []

/-- The kernel of a clause: domains are resolved with no domain in force. -/
def kernelFor (clause : StateClause) (acts : List Act) : Kernel :=
  let set := dedupByAddress acts
  let bareKernel : Kernel := ⟨set, []⟩
  ⟨set, clause.domains.map fun (verb, key, field) =>
    (verb, key, ((clause.ruleOf field).map fun rule =>
      allowedValues (bareKernel.eval contentHash rule [] none)).getD [])⟩

/-- The value of one field.  A bounded counter reads the acts as given, not the kernel. -/
def fieldValue (clause : StateClause) (protocol : Option CausalProtocol) (acts : List Act)
    (done : State) (rule : Rule) : Value :=
  match rule with
  | .boundedCounter c => outcomeValue (observe contentHash c acts)
  | rule => (kernelFor contentHash clause acts).eval contentHash rule done protocol

/-- The fold: every field of the clause over the acts, in clause order. -/
def fold (clause : StateClause) (protocol : Option CausalProtocol) (acts : List Act) : State :=
  clause.fields.foldl (fun done (name, rule) =>
    done ++ [(name, fieldValue contentHash clause protocol acts done rule)]) []

end Acts

end CbclState
