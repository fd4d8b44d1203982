import Cbcl.CodecModel
import Cbcl.StateModel

/-!
# Continuing a bounded counter

`resource_resume.rs` keeps what a bounded counter reads of the acts applied so far: the
projected facts, and which of the identities they refer to are acts the counter does not read.
Every application reruns the native verifier over the facts; the outcome is cached and never
taken from outside.
-/

namespace CbclResourceResume

open CbclMessage CbclAct CbclEscrow CbclState CbclCanonical CbclTypedAddr CbclCodec CbclTreeMap

def MAX : Nat := 16 * 1024 * 1024

def RECORDS : Nat := 65536

def FACT_BYTES : Nat := 256 * 1024

/-- A projected fact with the digest of its identity. -/
structure ResumeFact extends ResourceFact where
  identity : Digest
deriving DecidableEq

/-- The state of a counter between acts. -/
structure Summary where
  rule : Option CounterRule
  facts : BTreeMap String ResumeFact
  known : BTreeSet String
  outcome : Outcome
deriving DecidableEq

/-- Before the first act. -/
def Summary.default : Summary := ⟨none, ∅, ∅, .pending []⟩

/-- The counters the native verifier decides by itself. -/
def settles (c : CounterRule) : Bool :=
  c.ownership ≠ .collective && !c.certification.isQuorum

/-- The addresses among some texts. -/
def addressesIn (xs : List String) : List String := xs.filter fun id => isAddress id

/-- The items of a list field. -/
def itemsOf : Option SExpr → List SExpr
  | some (.list xs) => xs
  | _ => []

/-- The identities one fact refers to. -/
def references (c : CounterRule) (f : ResourceFact) : List String :=
  (if f.verb = c.initial_verb then addressesIn f.predecessors else [])
    ++ (if f.verb ∈ c.operationVerbs then
          addressesIn ((f.fields[PREV]?).bind text).toList
            ++ addressesIn ((itemsOf f.fields[DEPS]?).filterMap text)
        else [])

/-- The identities some facts refer to. -/
def needed (c : CounterRule) (facts : BTreeMap String ResumeFact) : BTreeSet String :=
  (valuesOf facts).foldl (fun out f =>
    (references c f.toResourceFact).foldl (fun out id => out.insert id) out) ∅

/-- Run the native verifier over the facts. -/
def recompute (c : CounterRule) (facts : BTreeMap String ResumeFact) (known : BTreeSet String) :
    Outcome :=
  observeFacts c (facts.map fun _ f => f.toResourceFact) fun id => known.contains id

/-- A string atom. -/
def string (s : String) : SExpr := .atom (.str s)

/-- An optional value: a list of at most one item. -/
def optional (x : Option SExpr) : SExpr := .list x.toList

/-- The record of a fact. -/
def factExpr (f : ResumeFact) : SExpr :=
  .list
    [ string f.address, string f.verb, string f.signer, string (hex32 f.identity)
    , .list (f.predecessors.map string), optional (f.language.map string)
    , optional (f.thread.map string), optional f.from, optional (f.bindings.map .list)
    , .list (f.fields.toList.map fun (k, v) => .list [string k, v]) ]

/-- The links of a fact. -/
def links (f : ResourceFact) : List String :=
  f.predecessors ++ ((f.fields[PREV]?).bind text).toList
    ++ (itemsOf f.fields[DEPS]?).filterMap text

/-- The checks on one fact; the result is the length of its record. -/
def checkFact (c : CounterRule) (id : String) (f : ResumeFact) : Except Error Nat := do
  if id ≠ f.address ∨ ¬ isAddress id ∨ f.address.utf8ByteSize > 128
      ∨ f.signer.utf8ByteSize > 2048 ∨ f.verb.utf8ByteSize > 2048
      ∨ f.predecessors.length > 64 ∨ f.fields.size > 1024 then
    throw (.invalid "resource fact metadata")
  if (links f.toResourceFact).any fun id => resourceStateId id ≠ id then
    throw (.invalid "noncanonical resource link")
  if f.fields.keys.any (· ∉ keptFields c f.verb)
      ∨ (f.verb ∉ c.verbs ∧ f.bindings.isNone) then
    throw (.invalid "resource fact projection")
  let encoded := encode (factExpr f)
  if encoded.length > FACT_BYTES then throw .budget
  let _ ← decodeSexpr encoded FACT_BYTES
  return encoded.length + 4

section Hashing

variable (sha256 : Octets → Digest)

/-- Check an act against its message, then project it. -/
def projectResourceFact (c : CounterRule) (a : Act) : Except Error (Option ResumeFact) :=
  match Act.fromMessage (typedRoot sha256) a.message a.signer with
  | .error _ => .error (.invalid "resource act identity")
  | .ok rebuilt =>
      if rebuilt ≠ a then .error (.invalid "resource act identity")
      else .ok ((projectUnchecked c a).map fun f =>
        { f with identity := sha256 (octets (typedRoot sha256 a.simple)) })

namespace Summary

/-- Whether a summary is bound to another rule. -/
def boundElsewhere (s : Summary) (rule : CounterRule) : Bool := s.rule.any (· ≠ rule)

/-- The checks on a whole summary. -/
def validate (s : Summary) (rule : CounterRule) : Except Error Unit := do
  if s.boundElsewhere rule then throw (.invalid "resource rule mismatch")
  if s.facts.size > RECORDS ∨ s.known.size > RECORDS then throw .budget
  if s.rule.isNone ∧ (¬ s.facts.isEmpty ∨ ¬ s.known.isEmpty) then
    throw (.invalid "unbound resource facts")
  let refs := needed rule s.facts
  if s.known.any fun id => id ∉ refs ∨ id ∈ s.facts ∨ ¬ isAddress id then
    throw (.invalid "resource reference presence")
  let size ← s.facts.toList.foldlM (fun size (id, f) => do
    return size + (← checkFact rule id f)) 0
  let size := size + (s.known.toList.map fun id => id.utf8ByteSize + 4).sum
  if size + 64 > MAX then throw .budget
  if s.rule.isSome ∧ s.outcome ≠ recompute rule s.facts s.known then
    throw (.invalid "resource outcome cache")

/-- The identities an act makes the summary ask for. -/
def queryIds (s : Summary) (rule : CounterRule) (act : Act) : Except Error (List String) := do
  if s.boundElsewhere rule then throw (.invalid "resource rule mismatch")
  let incoming ← projectResourceFact sha256 rule act
  let asked := if settles rule then
      (incoming.map fun f => (references rule f.toResourceFact).filter fun id =>
        id ∉ needed rule s.facts ∧ id ∉ s.facts).getD []
    else []
  return (asked.foldl (fun out id => out.insert id)
    ((∅ : BTreeSet String).insert act.address)).toList

/-- File the incoming fact; a second fact of one identity is refused. -/
def file (facts : BTreeMap String ResumeFact) : Option ResumeFact →
    Except Error (BTreeMap String ResumeFact)
  | none => .ok facts
  | some f =>
      if (facts[f.address]?).any (· ≠ f) then .error (.invalid "conflicting resource identity")
      else .ok (facts.insert f.address f)

/-- Which references are acts the counter does not read: old answers are kept, a reference
    asked for the first time is looked up, and the act at hand answers for itself. -/
def classify (s : Summary) (rule : CounterRule) (facts : BTreeMap String ResumeFact)
    (address : String) (precovered : String → Bool) : BTreeSet String :=
  let refs := needed rule facts
  let kept := s.known.filter fun id => id ∈ refs ∧ id ∉ facts
  refs.toList.foldl (fun known id =>
    if id ∉ facts ∧ (id = address ∨ (id ∉ needed rule s.facts ∧ precovered id)) then
      known.insert id
    else known) kept

/-- Apply an act; `precovered` tells which identities were applied before it. -/
def apply (s : Summary) (rule : CounterRule) (act : Act) (precovered : String → Bool) :
    Except Error Summary := do
  if s.boundElsewhere rule then throw (.invalid "resource rule mismatch")
  let incoming ← projectResourceFact sha256 rule act
  if precovered act.address then
    if (incoming.any fun f => (s.facts[act.address]?).any (f ≠ ·)) then
      throw (.invalid "conflicting resource identity")
    return s
  let facts ← if settles rule then file s.facts incoming else pure s.facts
  let known := if settles rule then s.classify rule facts act.address precovered else s.known
  let next : Summary := ⟨some rule, facts, known, recompute rule facts known⟩
  next.validate rule
  return next

/-- The value of the counter: the cached outcome, once there is one. -/
def render (s : Summary) (rule : CounterRule) : Value :=
  match s.rule with
  | none => outcomeValue (recompute rule s.facts s.known)
  | some old =>
      if old ≠ rule then outcomeValue (.fault "resource rule mismatch" [])
      else outcomeValue s.outcome

/-- The record of a summary: facts and presence; the cached outcome is left out. -/
def encode (ruleHash : CounterRule → Digest) (s : Summary) : Octets :=
  putU32 1 ++ [if s.rule.isSome then 1 else 0] ++ (s.rule.map fun c => (ruleHash c).toList).getD []
    ++ putU32 s.facts.size
    ++ ((valuesOf s.facts).flatMap fun f => putBytes (CbclCanonical.encode (factExpr f)))
    ++ putU32 s.known.size ++ (s.known.toList.flatMap putString)

end Summary

end Hashing

end CbclResourceResume
