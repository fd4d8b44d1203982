import Cbcl.ActModel
import Cbcl.CertificationModel
import Cbcl.KahnProofs

/-!
# Escrow counters

`escrow.rs` verifies a bounded counter over authenticated acts.  One opener allocates rights
(and headroom, under a ceiling) to accounts; every later operation is signed by an account,
names its owner's previous operation and the operations of others it has seen, and is
authorised against that causal past only.  `observe` is a cascade of early returns: the
opener and its cast, the operations one by one, their links, a Kahn traversal that checks
local budgets, and the final totals.

Amounts are the source's 128-bit integers: mathematical integers with checked operations.
Each stage is a function into `Except Stop`; the error is what the source returns early.
-/

namespace CbclEscrow

open CbclMessage CbclAct CbclCertification CbclKahn CbclTreeMap

/-- The keyword of an operation's previous link. -/
def PREV : String := "escrow-prev"

/-- The keyword of an operation's dependencies. -/
def DEPS : String := "escrow-deps"

/-- Who owns the rights of a counter. -/
inductive Ownership where
  | account
  | collective
deriving DecidableEq

/-- The declaration of a bounded counter. -/
structure CounterRule where
  ownership : Ownership
  certification : Certification
  floor : Int64
  ceiling : Option Int64
  initial_verb : String
  initial_key : String
  headroom_key : Option String
  issuer : String
  increment : String × String
  decrement : String × String
  transfer : Option (String × String × String)
  transfer_headroom : Option (String × String × String)
deriving DecidableEq

/-- The verbs of a counter's operations. -/
def CounterRule.operationVerbs (c : CounterRule) : List String :=
  [c.increment.1, c.decrement.1] ++ (c.transfer.map (·.1)).toList
    ++ (c.transfer_headroom.map (·.1)).toList

/-- All verbs a counter reads. -/
def CounterRule.verbs (c : CounterRule) : List String := c.operationVerbs ++ [c.initial_verb]

/-- The verb-keyword pairs a counter reads. -/
def CounterRule.dataFields (c : CounterRule) : List (String × String) :=
  [(c.initial_verb, c.initial_key), c.increment, c.decrement]
    ++ (c.transfer.map fun (verb, r, k) => [(verb, r), (verb, k)]).getD []
    ++ (c.headroom_key.map fun k => (c.initial_verb, k)).toList
    ++ (c.transfer_headroom.map fun (verb, r, k) => [(verb, r), (verb, k)]).getD []

/-- What a complete, consistent history amounts to. -/
structure Snapshot where
  value : Int
  rights : BTreeMap String Int
  headroom : Option (BTreeMap String Int)
  tips : BTreeMap String String
  opener : String
deriving DecidableEq

/-- The verdict over a history. -/
inductive Outcome where
  | ready (snapshot : Snapshot)
  | pending (evidence : List String)
  | fault (reason : String) (evidence : List String)
deriving DecidableEq

/-- What a stage returns early. -/
inductive Stop where
  | pending (evidence : List String)
  | fault (reason : String) (evidence : List String)
deriving DecidableEq

/-- The verdict of an early return. -/
def Stop.outcome : Stop → Outcome
  | .pending evidence => .pending evidence
  | .fault reason evidence => .fault reason evidence

/-- Return a fault early. -/
def fault {α : Type} (reason : String) (evidence : List String) : Except Stop α :=
  .error (.fault reason evidence)

-- ── Checked arithmetic ────

/-- The 128-bit range. -/
def inI128 (n : Int) : Prop := -2 ^ 127 ≤ n ∧ n < 2 ^ 127

instance (n : Int) : Decidable (inI128 n) := inferInstanceAs (Decidable (_ ∧ _))

/-- A 128-bit result, if it fits. -/
def checked (n : Int) : Option Int := if inI128 n then some n else none

/-- Checked addition. -/
def checkedAdd (a b : Int) : Option Int := checked (a + b)

/-- Checked subtraction. -/
def checkedSub (a b : Int) : Option Int := checked (a - b)

/-- An optional result, or the fault message of an overflow. -/
def orOverflow {α : Type} : Option α → Except String α
  | some a => .ok a
  | none => .error "arithmetic overflow"

/-- The checked sum of a map's values, in key order. -/
def total (m : BTreeMap String Int) : Option Int :=
  (valuesOf m).foldlM checkedAdd 0

-- ── Reading S-expressions ────

/-- A symbol or a string. -/
def text : SExpr → Option String
  | .atom (.symbol s) => some s
  | .atom (.str s) => some s
  | _ => none

/-- A number. -/
def number : SExpr → Option Int
  | .atom (.num n) => some n.toInt
  | _ => none

/-- An account key: it starts with `@` and names something. -/
def account (x : SExpr) : Option String :=
  (text x).filter fun s => s.toList.head? = some '@' && s.length > 1

/-- One `(account natural)` pair. -/
def allocation (m : BTreeMap String Int) : SExpr → Except String (BTreeMap String Int)
  | .list [who, amount] =>
      match account who with
      | none => .error "allocation account must start with @"
      | some a =>
          match (number amount).filter (0 ≤ ·) with
          | none => .error "allocation amount must be a natural integer"
          | some n =>
              if a ∈ m then .error "duplicate allocation account" else .ok (m.insert a n)
  | _ => .error "allocation must be (account natural)"

/-- Allocations: a nonempty list of pairs with distinct accounts. -/
def allocations : SExpr → Except String (BTreeMap String Int)
  | .list [] => .error "allocations must be nonempty"
  | .list pairs => pairs.foldlM allocation ∅
  | .atom _ => .error "allocations must be a list"

/-- A content address in its wire spelling. -/
def isAddress (s : String) : Bool := (stripStart "sha256-" s).any isHex64

/-- The wire spelling of a native address; anything else is left alone. -/
def resourceStateId (id : String) : String :=
  match stripStart "sha256:" id with
  | some hex => if isHex64 hex then "sha256-" ++ hex else id
  | none => id

/-- A link with its address in the wire spelling. -/
def projectedLink : SExpr → SExpr
  | .atom (.str s) => .atom (.str (resourceStateId s))
  | .atom (.symbol s) => .atom (.symbol (resourceStateId s))
  | x => x

-- ── Resource facts ────

/-- What a counter reads of an act. -/
structure ResourceFact where
  address : String
  verb : String
  signer : String
  predecessors : List String
  fields : BTreeMap String SExpr
  language : Option String
  thread : Option String
  «from» : Option SExpr
  bindings : Option (List SExpr)
deriving DecidableEq

/-- Facts by key, in key order. -/
abbrev Facts := BTreeMap String ResourceFact

/-- The value a fact keeps of a field: links in their wire spelling. -/
def projectedField (key : String) (value : SExpr) : SExpr :=
  if key = PREV then projectedLink value
  else if key = DEPS then
    match value with
    | .list xs => .list (xs.map projectedLink)
    | _ => value
  else value

/-- The field names a counter keeps of an act of a verb. -/
def keptFields (c : CounterRule) (verb : String) : List String :=
  ((c.dataFields.filter (·.1 = verb)).map (·.2)) ++ [PREV, DEPS]

/-- The part of an act a counter reads; none if it reads nothing of it. -/
def projectUnchecked (c : CounterRule) (a : Act) : Option ResourceFact :=
  if a.verb ∉ c.verbs ∧ CbclAct.cast a.message = none then none
  else some
    { address := a.address
      verb := a.verb
      signer := a.signer
      predecessors := a.predecessors.map resourceStateId
      fields := (a.fields.filter fun k _ => k ∈ keptFields c a.verb).map projectedField
      language := lang a.message
      thread := a.simple.thread
      «from» := rawField a.simple "from"
      bindings := CbclAct.cast a.message }

-- ── Operations ────

/-- The four operations. -/
inductive Kind where
  | increment
  | decrement
  | transfer
  | headroom
deriving DecidableEq

/-- An operation with its links. -/
structure Node where
  act : ResourceFact
  prev : String
  deps : List String
  kind : Kind
  amount : Int
  recipient : Option String
deriving DecidableEq

/-- The kind of a fact's verb, with the keywords of its amount and its recipient. -/
def operationKeys (c : CounterRule) (verb : String) : Option (Kind × String × Option String) :=
  if verb = c.increment.1 then some (.increment, c.increment.2, none)
  else if verb = c.decrement.1 then some (.decrement, c.decrement.2, none)
  else match c.transfer.filter (verb = ·.1), c.transfer_headroom with
    | some (_, r, k), _ => some (.transfer, k, some r)
    | none, some (v, r, k) => if verb = v then some (.headroom, k, some r) else none
    | none, none => none

/-- The kind, amount and recipient of an operation. -/
def operation (c : CounterRule) (a : ResourceFact) : Option (Kind × SExpr × Option SExpr) :=
  match operationKeys c a.verb with
  | none => none
  | some (kind, key, recipient) =>
      (a.fields[key]?).map fun amount => (kind, amount, recipient.bind fun k => a.fields[k]?)

/-- What the opener fixes. -/
structure Opening where
  op : ResourceFact
  initial : BTreeMap String Int
  headroom : Option (BTreeMap String Int)
  issuers : BTreeSet String

/-- The recipient of an operation: another account for transfers, none otherwise. -/
def checkRecipient (o : Opening) (a : ResourceFact) (kind : Kind) (recipient : Option SExpr) :
    Except Stop (Option String) :=
  if kind = .transfer ∨ kind = .headroom then
    match (recipient.bind account).filter fun r => r ∈ o.initial ∧ r ≠ a.signer with
    | some r => .ok (some r)
    | none => fault "invalid resource recipient" [a.address]
  else .ok none

/-- The dependencies of an operation: distinct addresses other than its previous link. -/
def checkDeps (a : ResourceFact) (prev : String) : List SExpr → List String →
    Except Stop (List String)
  | [], deps => .ok deps
  | x :: xs, deps =>
      match (text x).filter fun s => isAddress s ∧ s ≠ prev with
      | none => fault "invalid escrow dependency" [a.address]
      | some dep =>
          if dep ∈ deps then fault "duplicate escrow dependency" [a.address]
          else checkDeps a prev xs (deps ++ [dep])

/-- The checks of one operation, in the order of the source. -/
def checkNode (c : CounterRule) (o : Opening) (a : ResourceFact) : Except Stop Node :=
  if a.thread ≠ o.op.thread ∨ a.language ≠ o.op.language ∨ a.signer ∉ o.initial then
    fault "foreign resource instance or account" [a.address]
  else if a.from.bind text ≠ some a.signer then
    fault "resource signer disagrees with :from" [a.address]
  else match operation c a with
  | none => fault "malformed resource operation" [a.address]
  | some (kind, amount, recipient) =>
    match (number amount).filter (0 < ·) with
    | none => fault "resource amount must be positive" [a.address]
    | some amount =>
      if kind = .increment ∧ a.signer ∉ o.issuers then
        fault "unauthorized increment" [a.address]
      else do
        let recipient ← checkRecipient o a kind recipient
        match (((a.fields[PREV]?).bind text).filter isAddress), a.fields[DEPS]? with
        | none, _ => fault "missing escrow previous address" [a.address]
        | some prev, some (.list xs) =>
            let deps ← checkDeps a prev xs []
            return { act := a, prev, deps, kind, amount, recipient }
        | some _, _ => fault "missing escrow dependencies" [a.address]

/-- The operations of a history and the successor of each (owner, previous) pair. -/
structure Operations where
  nodes : BTreeMap String Node
  children : BTreeMap (String × String) String

/-- Add one operation; a second successor of one previous link is a fork. -/
def addNode (c : CounterRule) (o : Opening) (ops : Operations) (a : ResourceFact) :
    Except Stop Operations := do
  let n ← checkNode c o a
  match ops.children[(a.signer, n.prev)]? with
  | some other => fault "owner fork" ([other, a.address].insertionSort (· ≤ ·))
  | none =>
      return ⟨ops.nodes.insert a.address n, ops.children.insert (a.signer, n.prev) a.address⟩

/-- The operations of a fact map, in key order. -/
def collect (c : CounterRule) (o : Opening) (all : Facts) : Except Stop Operations :=
  ((valuesOf all).filter fun a => a.verb ∈ c.operationVerbs).foldlM (addNode c o) ⟨∅, ∅⟩

/-- Check one link of an operation; a link to nothing known is missing evidence. -/
def checkLink (all : Facts) (present : String → Bool) (opener : String)
    (nodes : BTreeMap String Node) (n : Node) (missing : BTreeSet String) (dep : String) :
    Except Stop (BTreeSet String) :=
  if dep = opener then .ok missing
  else match nodes[dep]? with
    | some parent =>
        if dep = n.prev ∧ parent.act.signer ≠ n.act.signer then
          fault "wrong owner previous link" [n.act.address, dep]
        else .ok missing
    | none =>
        if dep ∈ all ∨ present dep then
          fault "foreign resource dependency" [n.act.address, dep]
        else .ok (missing.insert dep)

/-- Check the links of every operation. -/
def checkLinks (all : Facts) (present : String → Bool) (opener : String)
    (nodes : BTreeMap String Node) : Except Stop Unit := do
  let missing ← (valuesOf nodes).foldlM (fun missing n =>
    (n.prev :: n.deps).foldlM (checkLink all present opener nodes n) missing) ∅
  if missing = ∅ then return () else .error (.pending missing.toList)

-- ── Local budgets ────

/-- An owner's cumulative record at one of its operations, with the latest operation of each
    account it has seen. -/
structure Summary where
  sequence : Nat
  tips : BTreeMap String String
  credited : Int
  debited : Int
  sent_rights : BTreeMap String Int
  sent_headroom : BTreeMap String Int
deriving DecidableEq

/-- The record before the first operation. -/
def Summary.default : Summary := ⟨0, ∅, 0, 0, ∅, ∅⟩

/-- The summaries of the visited operations. -/
abbrev Summaries := BTreeMap String Summary

/-- Add to a cumulative record of transfers. -/
def recordSent (sent : BTreeMap String Int) (n : Node) : Except String (BTreeMap String Int) :=
  match n.recipient with
  | none => .error "missing recipient"
  | some to_ => do
      let amount ← orOverflow (checkedAdd ((sent[to_]?).getD 0) n.amount)
      return sent.insert to_ amount

/-- Record an operation. -/
def Summary.record (s : Summary) (n : Node) : Except String Summary :=
  if s.sequence + 1 ≥ 2 ^ 64 then .error "sequence overflow"
  else
    let s := { s with sequence := s.sequence + 1 }
    match n.kind with
    | .increment => do
        let credited ← orOverflow (checkedAdd s.credited n.amount)
        return { s with credited }
    | .decrement => do
        let debited ← orOverflow (checkedAdd s.debited n.amount)
        return { s with debited }
    | .transfer => do
        let sent_rights ← recordSent s.sent_rights n
        return { s with sent_rights }
    | .headroom => do
        let sent_headroom ← recordSent s.sent_headroom n
        return { s with sent_headroom }

/-- The summary of a visited operation. -/
def summaryOf (summaries : Summaries) (address : String) : Summary :=
  (summaries[address]?).getD Summary.default

/-- What the tips of other owners have sent to an owner, added to what it has. -/
def addIncoming (owner : String) (summaries : Summaries) (sent : Summary → BTreeMap String Int)
    (tips : BTreeMap String String) (balance : Int) : Except String Int :=
  (tips.toList.filter (·.1 ≠ owner)).foldlM (fun balance entry =>
    orOverflow (checkedAdd balance (((sent (summaryOf summaries entry.2))[owner]?).getD 0)))
    balance

/-- An owner's own account: its allocation, credits and debits, less what it has sent. -/
def ownBalance (initial credited debited : Int) (sent : BTreeMap String Int) :
    Except String Int := do
  let outgoing ← orOverflow (total sent)
  orOverflow (((checkedAdd initial credited).bind (checkedSub · debited)).bind
    (checkedSub · outgoing))

/-- The rights and headroom an operation can count on, from its own past only. -/
def localBudgets (owner : String) (initial : BTreeMap String Int)
    (headroom : Option (BTreeMap String Int)) (own : Summary) (tips : BTreeMap String String)
    (summaries : Summaries) : Except String (Int × Option Int) := do
  let rights ← ownBalance ((initial[owner]?).getD 0) own.credited own.debited own.sent_rights
  let space ← headroom.mapM fun h =>
    ownBalance ((h[owner]?).getD 0) own.debited own.credited own.sent_headroom
  let rights ← addIncoming owner summaries (·.sent_rights) tips rights
  let space ← space.mapM (addIncoming owner summaries (·.sent_headroom) tips)
  return (rights, space)

/-- Keep the later of an owner's tips. -/
def keepLater (summaries : Summaries) (tips : BTreeMap String String) (owner tip : String) :
    BTreeMap String String :=
  if (tips[owner]?).all fun old =>
      (summaryOf summaries old).sequence < (summaryOf summaries tip).sequence
  then tips.insert owner tip else tips

/-- Take in the tips a dependency has seen. -/
def mergeTips (opener : String) (summaries : Summaries) (tips : BTreeMap String String)
    (dep : String) : BTreeMap String String :=
  if dep = opener then tips
  else (summaryOf summaries dep).tips.foldl (keepLater summaries) tips

/-- The tips an operation has seen through its own past and its dependencies. -/
def seenTips (opener : String) (summaries : Summaries) (n : Node) (own : Summary) :
    BTreeMap String String :=
  n.deps.foldl (mergeTips opener summaries) own.tips

/-- The owner's record before an operation. -/
def ownSummary (opener : String) (summaries : Summaries) (n : Node) : Summary :=
  if n.prev = opener then Summary.default else summaryOf summaries n.prev

/-- Whether an operation spends headroom rather than rights. -/
def Kind.spendsHeadroom (k : Kind) : Bool := k = .increment || k = .headroom

/-- Judge an operation against the summaries of its past. -/
def judge (o : Opening) (summaries : Summaries) (n : Node) : Except Stop Summary :=
  let own := ownSummary o.op.address summaries n
  let tips := seenTips o.op.address summaries n own
  match localBudgets n.act.signer o.initial o.headroom own tips summaries with
  | .error e => fault e [n.act.address]
  | .ok (rights, space) =>
      let budget := if n.kind.spendsHeadroom then space else some rights
      if budget.any (· < n.amount) then
        fault (if n.kind.spendsHeadroom then "insufficient headroom" else "insufficient rights")
          [n.act.address]
      else match own.record n with
        | .error e => fault e [n.act.address]
        | .ok next => .ok { next with tips := tips.insert n.act.signer n.act.address }

/-- The dependencies of an operation among the operations. -/
def Node.dependencies (opener : String) (n : Node) : BTreeSet String :=
  ((n.prev :: n.deps).filter (· ≠ opener)).foldl (fun s d => s.insert d) ∅

/-- The dependencies of an address. -/
def dependenciesOf (opener : String) (nodes : BTreeMap String Node) (address : String) :
    BTreeSet String :=
  ((nodes[address]?).map (·.dependencies opener)).getD ∅

/-- Visit one operation of the traversal. -/
def visit (o : Opening) (nodes : BTreeMap String Node) (address : String)
    (summaries : Summaries) : Except Stop Summaries :=
  match nodes[address]? with
  | none => .ok summaries
  | some n => do
      let next ← judge o summaries n
      return summaries.insert address next

/-- The Kahn traversal over all operations. -/
def summarize (o : Opening) (nodes : BTreeMap String Node) : Except Stop Summaries :=
  traverse (visit o nodes) nodes.size
    (Kahn.start (dependenciesOf o.op.address nodes) nodes.keys) ∅

-- ── Totals ────

/-- Add to an account's balance. -/
def add (m : BTreeMap String Int) (owner : String) (n : Int) :
    Except String (BTreeMap String Int) :=
  match m[owner]? with
  | none => .error "unknown account"
  | some v => do
      let v ← orOverflow (checkedAdd v n)
      return m.insert owner v

/-- Move an amount from the owner of an operation to its recipient. -/
def move (m : BTreeMap String Int) (n : Node) : Except String (BTreeMap String Int) := do
  let m ← add m n.act.signer (-n.amount)
  match n.recipient with
  | none => .error "missing recipient"
  | some to_ => add m to_ n.amount

/-- Apply an operation to the balances. -/
def Node.apply (n : Node) (rights : BTreeMap String Int)
    (headroom : Option (BTreeMap String Int)) :
    Except String (BTreeMap String Int × Option (BTreeMap String Int)) :=
  match n.kind with
  | .increment => do
      let headroom ← headroom.mapM (add · n.act.signer (-n.amount))
      let rights ← add rights n.act.signer n.amount
      return (rights, headroom)
  | .decrement => do
      let rights ← add rights n.act.signer (-n.amount)
      let headroom ← headroom.mapM (add · n.act.signer n.amount)
      return (rights, headroom)
  | .transfer => do
      let rights ← move rights n
      return (rights, headroom)
  | .headroom =>
      match headroom with
      | none => .error "headroom transfer requires ceiling"
      | some h => do
          let h ← move h n
          return (rights, some h)

/-- The final balances: every operation applied, in key order. -/
def balances (o : Opening) (nodes : BTreeMap String Node) :
    Except Stop (BTreeMap String Int × Option (BTreeMap String Int)) :=
  (valuesOf nodes).foldlM (fun (rights, headroom) n =>
    match n.apply rights headroom with
    | .error e => fault e [n.act.address]
    | .ok next => .ok next) (o.initial, o.headroom)

/-- Whether some balance is negative. -/
def negative (m : BTreeMap String Int) : Bool := (valuesOf m).any (· < 0)

/-- The latest operation of each owner: the one no other operation of the owner follows. -/
def latest (ops : Operations) : BTreeMap String String :=
  (valuesOf ops.nodes).foldl (fun tips n =>
    if (n.act.signer, n.act.address) ∈ ops.children then tips
    else tips.insert n.act.signer n.act.address) ∅

/-- The final checks and the snapshot. -/
def conclude (c : CounterRule) (o : Opening) (ops : Operations) : Except Stop Snapshot := do
  let (rights, headroom) ← balances o ops.nodes
  if negative rights ∨ headroom.any negative then
    fault "negative escrow budget" ops.nodes.keys
  else match (total rights).bind (checkedAdd · c.floor.toInt) with
    | none => fault "arithmetic overflow" []
    | some value =>
        if c.ceiling.any fun ceiling =>
            ((headroom.bind total).bind (checkedAdd value ·)) ≠ some ceiling.toInt then
          fault "headroom conservation failure" []
        else return { value, rights, headroom, tips := latest ops, opener := o.op.address }

-- ── The opener ────

/-- The one opener of a history. -/
def findOpener (c : CounterRule) (all : Facts) : Except Stop ResourceFact :=
  match (valuesOf all).filter (·.verb = c.initial_verb) with
  | [] => .error (.pending [])
  | [op] => .ok op
  | openers => fault "multiple resource openers" (openers.map (·.address))

/-- The cast-bearing root the opener names. -/
def findRoot (all : Facts) (present : String → Bool) (op : ResourceFact) :
    Except Stop ResourceFact :=
  match op.predecessors with
  | [p] =>
      match all[p]? with
      | some root => .ok root
      | none =>
          if present p then fault "missing authenticated cast" [p] else .error (.pending [p])
  | _ => fault "resource opener needs a cast-bearing root" [op.address]

/-- Read the keys of one binding. -/
def readKeys (c : CounterRule) (root : ResourceFact) (role : String) :
    List SExpr → BTreeSet String × BTreeSet String →
      Except Stop (BTreeSet String × BTreeSet String)
  | [], acc => .ok acc
  | x :: xs, (members, issuers) =>
      match account x with
      | none => fault "malformed cast account" [root.address]
      | some key =>
          readKeys c root role xs
            (members.insert key, if role = c.issuer then issuers.insert key else issuers)

/-- Read one binding of the cast. -/
def readBinding (c : CounterRule) (root : ResourceFact)
    (acc : BTreeSet String × BTreeSet String) :
    SExpr → Except Stop (BTreeSet String × BTreeSet String)
  | .list xs =>
      match xs.head?.bind text with
      | none => fault "malformed cast role" [root.address]
      | some role => readKeys c root role (xs.drop 1) acc
  | .atom _ => fault "malformed cast" [root.address]

/-- The members and the issuers of the cast. -/
def readCast (c : CounterRule) (root : ResourceFact) :
    Except Stop (BTreeSet String × BTreeSet String) :=
  match root.bindings with
  | none => fault "missing authenticated cast" [root.address]
  | some bindings => bindings.foldlM (readBinding c root) (∅, ∅)

/-- A field of the opener read as allocations. -/
def readAllocations (op : ResourceFact) (key absent invalid : String) :
    Except String (BTreeMap String Int) :=
  match op.fields[key]? with
  | none => .error absent
  | some x =>
      match allocations x with
      | .error _ => .error invalid
      | .ok m => .ok m

/-- The headroom allocations, if the counter has a headroom key: the accounts must match. -/
def readHeadroom (c : CounterRule) (op : ResourceFact) (initial : BTreeMap String Int) :
    Except Stop (Option (BTreeMap String Int)) :=
  match c.headroom_key with
  | none => .ok none
  | some key =>
      match readAllocations op key "missing headroom allocations"
          "invalid headroom allocations" with
      | .error _ => fault "headroom accounts must match allocations" [op.address]
      | .ok h =>
          if h.keys = initial.keys then .ok (some h)
          else fault "headroom accounts must match allocations" [op.address]

/-- Under a ceiling, rights and headroom must add up to it. -/
def checkCeiling (c : CounterRule) (op : ResourceFact) (initial : BTreeMap String Int)
    (headroom : Option (BTreeMap String Int)) : Except Stop Unit :=
  match (total initial).bind (checkedAdd · c.floor.toInt) with
  | none => fault "arithmetic overflow" [op.address]
  | some initial_total =>
      if c.ceiling.any fun ceiling => ceiling < c.floor ∨
          ((headroom.bind total).bind (checkedAdd · initial_total)) ≠ some ceiling.toInt then
        fault "initial rights plus headroom must equal ceiling minus floor" [op.address]
      else .ok ()

/-- Open a counter from its opener and its root: the cast and the allocations. -/
def openWith (c : CounterRule) (op root : ResourceFact) : Except Stop Opening := do
  let (members, issuers) ← readCast c root
  if op.signer ∉ members then
    fault "resource opener signer is outside the cast" [op.address]
  else match readAllocations op c.initial_key "missing initial allocations"
        "invalid initial allocations" with
    | .error e => fault e [op.address]
    | .ok initial =>
        if initial.keys.any (· ∉ members) ∨ issuers.any (· ∉ initial) then
          fault "allocation accounts and issuer cast disagree" [op.address]
        else do
          let headroom ← readHeadroom c op initial
          checkCeiling c op initial headroom
          return { op, initial, headroom, issuers }

/-- The opener, its cast and its allocations. -/
def openCounter (c : CounterRule) (all : Facts) (present : String → Bool) :
    Except Stop Opening := do
  let op ← findOpener c all
  let root ← findRoot all present op
  openWith c op root

-- ── Observation ────

/-- The counters this verifier accepts: owned per account and gated by the host. -/
def checkProfile (c : CounterRule) : Except Stop Unit :=
  if c.ownership = .collective then
    fault "collective counter requires the certificate runtime" []
  else if c.certification.isQuorum then
    fault ("quorum-budget requires an explicit certificate runtime; "
      ++ "legacy fold cannot prove finality") []
  else .ok ()

/-- All stages over a fact map. -/
def settle (c : CounterRule) (all : Facts) (present : String → Bool) :
    Except Stop Snapshot := do
  checkProfile c
  let o ← openCounter c all present
  let ops ← collect c o all
  checkLinks all present o.op.address ops.nodes
  let summaries ← summarize o ops.nodes
  if summaries.size ≠ ops.nodes.size then
    fault "cyclic escrow dependencies" ops.nodes.keys
  else conclude c o ops

/-- Observe a fact map; `present` tells which identities are accepted at all. -/
def observeFacts (c : CounterRule) (all : Facts) (present : String → Bool) : Outcome :=
  match settle c all present with
  | .ok snapshot => .ready snapshot
  | .error stop => stop.outcome

section Acts

variable (contentHash : Message → String)

/-- File an act under its address, after re-deriving its metadata from its message. -/
def fileAct (all : BTreeMap String Act) (a : Act) : Except Stop (BTreeMap String Act) :=
  match Act.fromMessage contentHash a.message a.signer with
  | .error e => fault e [a.address]
  | .ok rebuilt =>
      if a.address ≠ rebuilt.address ∨ a.verb ≠ rebuilt.verb ∨ a.fields ≠ rebuilt.fields
          ∨ a.predecessors ≠ rebuilt.predecessors ∨ a.recipients ≠ rebuilt.recipients then
        fault "inconsistent act identity" [a.address]
      else if (all[a.address]?).any fun prev =>
          prev.signer ≠ a.signer ∨ prev.simple ≠ a.simple
          ∨ lang prev.message ≠ lang a.message
          ∨ CbclAct.cast prev.message ≠ CbclAct.cast a.message then
        fault "conflicting authenticated identity" [a.address]
      else .ok (all.insert a.address a)

/-- The facts of some filed acts. -/
def factsOf (c : CounterRule) (all : BTreeMap String Act) : Facts :=
  ((valuesOf all).filterMap (projectUnchecked c)).foldl (fun facts f => facts.insert f.address f) ∅

/-- Observe a history of acts. -/
def observe (c : CounterRule) (acts : List Act) : Outcome :=
  match (do checkProfile c; acts.foldlM (fileAct contentHash) ∅) with
  | .error stop => stop.outcome
  | .ok all => observeFacts c (factsOf c all) fun id => all.contains id

/-- Check a candidate against a history. -/
def check (c : CounterRule) (acts : List Act) (candidate : Act) : Outcome :=
  match observe contentHash c acts with
  | .ready _ => observe contentHash c (acts ++ [candidate])
  | other => other

end Acts

end CbclEscrow
