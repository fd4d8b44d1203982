import Cbcl.KeyedSortProofs
import Cbcl.RepeatTableProofs
import Cbcl.StateModel

/-!
# What a clause means

The fold walks lists; here is what its fields are, as functions of the *set* of accepted acts.
Selections are subsets, registers are greatest elements, sets and maps are the sorted members
of finite sets, counters are sums.  Nothing below reads an arrival order.

Progress needs the least care with sets and the most with causes: a message inhabits an
occurrence of its verb when its causes inhabit the occurrences that may precede it
(`Inhabits`), by induction over the causal past.
-/

namespace CbclStateMeaning

open CbclMessage CbclProtocol CbclAct CbclEscrow CbclRepeat CbclRepeatTable CbclState
  CbclKeyedSort
open scoped Classical

noncomputable section

-- ── Selections ────

/-- The domains in force: a verb, a key and its allowed values. -/
abbrev Domains := List (String × String × List Value)

/-- The value of a field of an act is one of the allowed ones. -/
def Allowed (a : Act) (key : String) (allowed : List Value) : Prop :=
  ∃ v, fieldOf a key = some v ∧ ∃ x ∈ allowed, x.render = v.render

/-- The acts of a verb that every domain of the verb allows. -/
def selected (domains : Domains) (S : Finset Act) (verb : String) : Finset Act :=
  S.filter fun a => a.verb = verb ∧ ∀ d ∈ domains, d.1 = verb → Allowed a d.2.1 d.2.2

/-- The writes that no replacer of the same scope names. -/
def unreplaced (scope : Act → String) (writes replacers : Finset Act) : Finset Act :=
  writes.filter fun w => ¬ ∃ r ∈ replacers, scope r = scope w ∧ w.address ∈ replacedBy r

/-- The current writes of a verb under a key field and a deleting verb. -/
def currentWrites (domains : Domains) (S : Finset Act) (verb : String)
    (key delete : Option String) : Finset Act :=
  unreplaced (keyOf key) (selected domains S verb)
    (selected domains S verb ∪ (delete.map (selected domains S)).getD ∅)

/-- The current writes of a verb, replaced by their own signer only. -/
def currentOwn (domains : Domains) (S : Finset Act) (verb : String) : Finset Act :=
  unreplaced (·.signer) (selected domains S verb) (selected domains S verb)

-- ── Reductions ────

/-- The values a field takes. -/
def valuesIn (S : Finset Act) (key : String) : Finset Value :=
  S.biUnion fun a => (fieldOf a key).toFinset

/-- A set value: the members sorted by rendering. -/
def setValue (s : Finset Value) : Value := .set (sortBy Value.render s)

/-- A map value: the keys sorted by rendering. -/
def mapValue (keys : Finset Value) (value : Value → Value) : Value :=
  .map ((sortBy Value.render keys).map fun k => (k, value k))

/-- The acts that carry a value in a field. -/
def withKey (S : Finset Act) (key : String) (v : Value) : Finset Act :=
  S.filter fun a => fieldOf a key = some v

/-- An act whose canonical clock, signer and address are greatest. -/
def Latest (S : Finset Act) (clock : String) (a : Act) : Prop :=
  a ∈ S ∧ ∃ t, stampOf clock a = some t ∧
    ∀ b ∈ S, ∀ u, stampOf clock b = some u → u ≤ t

/-- The last-writer-wins value of a set of writes. -/
def lww (S : Finset Act) (key clock : String) : Value :=
  if h : ∃ a, Latest S clock a then (fieldOf h.choose key).getD .absent else .absent

/-- The field of the only act of a set. -/
def sole (S : Finset Act) (key : String) : Value :=
  if h : ∃ a, S = {a} then (fieldOf h.choose key).getD .absent else .absent

/-- The integer an act contributes to a sum. -/
def amountOf (key : String) (a : Act) : Int := ((fieldOf a key).bind Value.asInt).getD 0

/-- The contributions of an event field, sorted by the rendering of their addresses. -/
def eventsOf (S : Finset Act) (key : String) : Value :=
  .map ((sortBy (fun a => (Value.str a.address).render)
    (S.filter fun a => (fieldOf a key).isSome)).map fun a =>
      (.str a.address, .pair a.signer ((fieldOf a key).getD .absent)))

/-- The values a finished map field holds, less the absent ones. -/
def heldValues (entries : List (Value × Value)) : List Value :=
  (entries.map fun e => bare e.2).filter fun v => match v with
    | .absent => false
    | _ => true

/-- How often each rendering occurs among the values of a finished map field. -/
def tally (entries : List (Value × Value)) : Value :=
  .map ((((heldValues entries).map Value.render).toFinset.sort (· ≤ ·)).map fun r =>
    ((((heldValues entries).find? (·.render = r)).getD .absent),
      .int ((heldValues entries).countP (·.render = r))))

-- ── Progress ────

section Positions

variable (contentHash : Message → String) (protocol : CausalProtocol) (S : Finset Act)
  (thread : ThreadId)

/-- A reference names an act of a thread, in either spelling of its address. -/
def Names (h : String) (a : Act) : Prop :=
  a ∈ S ∧ a.simple.thread = some thread ∧ (h = contentHash a.simple ∨ h = a.address)

/-- The root of a thread: of the cast-bearing acts without a predecessor, the one of least
    address. -/
def IsRoot (a : Act) : Prop :=
  let roots := S.filter fun a => a.simple.thread = some thread ∧
    a.message.wrapperType = some .withRoles ∧ a.predecessors = []
  a ∈ roots ∧ ∀ b ∈ roots, a.address ≤ b.address

/-- The native address of the root of a thread. -/
def rootHash : Option ContentHash :=
  if h : ∃ a, IsRoot S thread a then some (contentHash h.choose.simple) else none

/-- A step of the acyclic part of the protocol, other than `begin`. -/
def Occurrence (name : String) (decl : StepDecl) : Prop :=
  name ∈ protocolOrder protocol ∧ name ≠ BEGIN_KEYWORD ∧ protocol.steps[name]? = some decl

/-- Some copy of a base name is declared. -/
def Copied (base : String) : Prop :=
  ∃ s ∈ protocol.steps.keys, isCopyName s = true ∧ repeatBaseName s = base

mutual
/-- A reference inhabits an occurrence: it names an act of the occurrence's verb, and what the
    act names as its cause may precede the occurrence. -/
inductive Inhabits : String → String → Prop where
  | free {h name : String} {a : Act} {decl : StepDecl} (named : Names contentHash S thread h a)
      (verb : a.verb = repeatBaseName name) (occurs : Occurrence protocol name decl)
      (cause : Resolution.rewriteRoot (rootHash contentHash S thread) a.simple.causedBy = none)
      (fits : decl.predecessors = []) : Inhabits h name
  | begins {h name : String} {a : Act} {decl : StepDecl} (named : Names contentHash S thread h a)
      (verb : a.verb = repeatBaseName name) (occurs : Occurrence protocol name decl)
      (cause : Resolution.rewriteRoot (rootHash contentHash S thread) a.simple.causedBy
        = some .begin)
      (fits : BEGIN_KEYWORD ∈ allowedSinglePredecessors decl) : Inhabits h name
  | follows {h name g p : String} {a : Act} {decl : StepDecl}
      (named : Names contentHash S thread h a) (verb : a.verb = repeatBaseName name)
      (occurs : Occurrence protocol name decl)
      (cause : Resolution.rewriteRoot (rootHash contentHash S thread) a.simple.causedBy
        = some (.single g))
      (allowed : p ∈ allowedSinglePredecessors decl) (fits : Fills g p) : Inhabits h name
  | joins {h name : String} {gs : List String} {all : BTreeSet String} {a : Act}
      {decl : StepDecl} (place : String → String) (source : String → String)
      (named : Names contentHash S thread h a) (verb : a.verb = repeatBaseName name)
      (occurs : Occurrence protocol name decl)
      (cause : Resolution.rewriteRoot (rootHash contentHash S thread) a.simple.causedBy
        = some (.multiple gs))
      (declared : firstAll decl = some all)
      (placed : ∀ g ∈ gs, place g ∈ all.toList) (fits : ∀ g ∈ gs, Fills g (place g))
      (found : ∀ p ∈ all.toList, source p ∈ gs) (filled : ∀ p ∈ all.toList, Fills (source p) p) :
      Inhabits h name
/-- A reference fills a predecessor name: by its verb alone where the verb has no copies, else
    by inhabiting that occurrence. -/
inductive Fills : String → String → Prop where
  | ordinary {h p : String} {a : Act} (named : Names contentHash S thread h a)
      (verb : a.verb = repeatBaseName p) (plain : isCopyName p = false)
      (single : ¬ Copied protocol a.verb) : Fills h p
  | copy {h p : String} (inhabits : Inhabits h p) : Fills h p
end

end Positions

/-- An act of a verb establishes a rank of the verb's chain. -/
def Established (contentHash : Message → String) (protocol : CausalProtocol) (S : Finset Act)
    (verb : String) (rank : Nat) : Prop :=
  ∃ chain, positionChain protocol verb = .ok chain ∧ ∃ name index, chain[index]? = some name ∧
    rank = index + 1 ∧ ∃ a ∈ S, a.verb = verb ∧ ∃ thread, a.simple.thread = some thread ∧
      Inhabits contentHash protocol S thread a.address name

/-- The greatest established rank; zero where there is none. -/
def progressOf (contentHash : Message → String) (protocol : Option CausalProtocol)
    (S : Finset Act) (verb : String) : Nat :=
  sSup {rank | ∃ p, protocol = some p ∧ Established contentHash p S verb rank}

-- ── Rules and clauses ────

variable (contentHash : Message → String)

/-- The value of a rule over a set of acts and the fields done so far. -/
def ruleMeaning (domains : Domains) (S : Finset Act) (done : State)
    (protocol : Option CausalProtocol) : Rule → Value
  | .boundedCounter c => outcomeValue (observe contentHash c S.toList)
  | .lwwRegister verb key clock => lww (selected domains S verb) key clock
  | .lwwPerSigner verb key clock =>
      let writes := currentOwn domains S verb
      .map (((writes.image (·.signer)).sort (· ≤ ·)).map fun s =>
        (.str s, lww (writes.filter (·.signer = s)) key clock))
  | .lwwMap verb key value clock delete =>
      let writes := currentWrites domains S verb (some key) delete
      mapValue (valuesIn writes key) fun v => lww (withKey writes key v) value clock
  | .initial verb key => sole (S.filter (·.verb = verb)) key
  | .exists verb => .bool (decide (selected domains S verb).Nonempty)
  | .count verb => .int (selected domains S verb).card
  | .progress verb => .int (progressOf contentHash protocol S verb)
  | .events verb key => eventsOf (selected domains S verb) key
  | .setUnion verb key => setValue (valuesIn (selected domains S verb) key)
  | .values verb key => setValue (valuesIn (currentWrites domains S verb none none) key)
  | .valuesPerKey verb key value delete =>
      let writes := currentWrites domains S verb (some key) delete
      mapValue (valuesIn writes key) fun v => setValue (valuesIn (withKey writes key v) value)
  | .observedSet add remove key =>
      setValue (valuesIn (currentWrites domains S add (some key) (some remove)) key)
  | .counter inc dec key =>
      .int (∑ a ∈ selected domains S inc, amountOf key a
        - ∑ a ∈ selected domains S dec, amountOf key a)
  | .histogram field => tally (entriesOf done field)
  | .sum field => .int ((entriesOf done field).map fun e => (e.2.asInt).getD 0).sum

/-- The domains of a clause, resolved with no domain in force. -/
def domainsOf (clause : StateClause) (S : Finset Act) : Domains :=
  clause.domains.map fun (verb, key, field) =>
    (verb, key, ((clause.ruleOf field).map fun rule =>
      allowedValues (ruleMeaning contentHash [] S [] none rule)).getD [])

/-- The meaning of a clause: its fields in clause order. -/
def clauseMeaning (clause : StateClause) (protocol : Option CausalProtocol) (S : Finset Act) :
    State :=
  clause.fields.foldl (fun done (name, rule) =>
    done ++ [(name, ruleMeaning contentHash (domainsOf contentHash clause S) S done protocol
      rule)]) []

end

end CbclStateMeaning
