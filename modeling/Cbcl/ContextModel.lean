import Cbcl.IntendModel
import Cbcl.QuorumModel

/-!
# Contexts from accepted histories

`Context::from_instance` (`quorum/context.rs`) reads a context off the accepted acts of a thread.
Only the genesis is imported: the root, which carries the cast, and the opener, which allocates the
resources.  What later acts did is never an authority over a budget.  `found` collects the fields of
the context; the proofs that a `Context` carries are supplied for every founding that succeeds.
-/

namespace CbclContext

open CbclMessage CbclProtocol CbclAct CbclCanonical CbclDialectCanonical CbclTypedAddr
open CbclCertification CbclState CbclDialect CbclEscrow CbclExports CbclIntend CbclQuorum
open CbclTreeMap
open CbclRole hiding Dialect PerformativeDef

variable (sha256 : Octets → Digest)

/-- The genesis of a thread: its root and its opener. -/
structure Genesis where
  root : Act
  opener : Act
deriving DecidableEq

/-- The acts of a genesis. -/
def Genesis.acts (g : Genesis) : List Act := [g.root, g.opener]

/-- The root and the opener of an instance, whose acts hold no second opener of the counter. -/
def genesisOf (inst : Instance) (rule : CounterRule) : Except String Genesis :=
  match inst.opener, inst.root with
  | none, _ => .error "missing opener"
  | some _, none => .error "missing root"
  | some opener, some root =>
      if inst.acts.any fun a => a.verb = rule.initial_verb && a.address ≠ opener.address then
        .error "multiple resource openers in accepted history"
      else .ok ⟨root, opener⟩

/-- The metadata of an act is what its message gives, and the host admits it. -/
def authenticGenesis (auth : Authentication) (a : Act) : Except String Unit := do
  let built ← Act.fromMessage (typedRoot sha256) a.message a.signer
  if built ≠ a ∨ auth.authenticateAct a = false then .error "unauthenticated genesis" else .ok ()

/-- The keys that occupy some role of a cast. -/
def castKeys (cast : Cast) : BTreeSet String :=
  (valuesOf cast.singleton ++ (valuesOf cast.indexed).flatMap (·.toList)).foldl
    (fun keys k => keys.insert k) ∅

/-- What a genesis gives out: the resources of each account, and who may operate. -/
structure Endowment where
  initial : BTreeMap String Resources
  actors : BTreeSet String

/-- A natural amount. -/
def naturalAmount (x : SExpr) : Option Int := (number x).filter (0 ≤ ·)

/-- The one pool of a collective counter. -/
def poolOf (b : Resources) : BTreeMap String Resources :=
  (∅ : BTreeMap String Resources).insert COLLECTIVE_POOL b

/-- What the ceiling of a counter leaves over an amount; nothing without a ceiling. -/
def headroomOf (rule : CounterRule) (amount : Int) : Int :=
  match rule.ceiling with
  | some cap => cap.toInt - rule.floor.toInt - amount
  | none => 0

/-- The endowment of a collective counter: one pool, operated by the keys of the cast. -/
def collectiveEndowment (rule : CounterRule) (thread : ThreadId) (g : Genesis)
    (cast_keys : BTreeSet String) : Except String Endowment :=
  if COLLECTIVE_POOL ∈ cast_keys then
    .error "collective resource scope is reserved and cannot be a cast key"
  else if g.root.verb ≠ "hello" ∨ g.root.simple.thread ≠ some thread
      ∨ g.root.predecessors ≠ [] ∨ g.opener.predecessors ≠ [g.root.address] then
    .error "collective genesis root context mismatch"
  else match (g.opener.fields[rule.initial_key]?).bind naturalAmount with
  | none => .error "collective initial rights must be a nonnegative integer"
  | some amount =>
      if headroomOf rule amount < 0 then .error "collective genesis exceeds ceiling"
      else .ok ⟨poolOf ⟨amount, headroomOf rule amount⟩, cast_keys⟩

/-- The rights and the headroom of each account of a snapshot. -/
def allocated (s : Snapshot) : BTreeMap String Resources :=
  s.rights.map fun k n => ⟨n, (s.headroom.bind (·[k]?)).getD 0⟩

/-- The endowment of an account-owned counter: what the genesis alone is observed to allocate, with
    the host standing in for the quorum. -/
def accountEndowment (d : Dialect) (thread : ThreadId) (rule : CounterRule) (g : Genesis) :
    Except String Endowment :=
  match observeIn (typedRoot sha256) d thread { rule with certification := .hostGate } g.acts with
  | .ready s => .ok ⟨allocated s, (allocated s).keys.foldl (fun actors k => actors.insert k) ∅⟩
  | other => .error (outcomeValue other).render

/-- The endowment of a counter. -/
def endow (d : Dialect) (thread : ThreadId) (rule : CounterRule) (g : Genesis) (cast : Cast) :
    Except String Endowment :=
  if rule.ownership = .collective then collectiveEndowment rule thread g (castKeys cast)
  else accountEndowment sha256 d thread rule g

/-- What the identity of a context binds. -/
def contextParts (dialect_hash : String) (thread : ThreadId) (g : Genesis) (field : String)
    (committee : Committee) : List SExpr :=
  [textExpr "cbcl/quorum-context/multi-parent/v1", textExpr dialect_hash, textExpr thread,
    textExpr g.root.address, textExpr g.opener.address, textExpr field,
    .list (committee.validators.map textExpr), textExpr (toString committee.faults.toNat)]

/-- The fields of a context. -/
structure Founding where
  id : String
  field : String
  dialect : Dialect
  thread : ThreadId
  genesis : Genesis
  rule : CounterRule
  committee : Committee
  endowment : Endowment
  issuers : BTreeSet String

/-- The actors the cast admits as issuers. -/
def issuersOf (cast : Cast) (rule : CounterRule) (actors : BTreeSet String) : BTreeSet String :=
  actors.filter (cast.admits rule.issuer)

/-- The bounded counter a field declares. -/
def counterOf (d : Dialect) (field : String) : Except String CounterRule :=
  match d.state.bind (·.ruleOf field) with
  | some (.boundedCounter rule) => .ok rule
  | _ => .error "unknown bounded-counter field"

/-- Read the fields of a context off an instance. -/
def found (auth : Authentication) (inst : Instance) (field : String)
    (validators : Option (List String)) : Except String Founding := do
  let accepted ← Instance.new inst.dialect inst.thread inst.acts
  if CbclR7.r7Violations sha256 inst.dialect ≠ [] then .error "invalid bounded-counter dialect"
  else do
    let rule ← counterOf inst.dialect field
    let committee ← rule.certification.resolve validators
    let g ← genesisOf accepted rule
    g.acts.forM (authenticGenesis sha256 auth)
    let bound ← Instance.new inst.dialect inst.thread g.acts
    match bound.cast with
    | none => .error "missing cast"
    | some keys => do
        let endowment ← endow sha256 inst.dialect inst.thread rule g keys
        return {
          id := digest sha256
            (contextParts (dialectHash sha256 inst.dialect) inst.thread g field committee)
          field, dialect := inst.dialect, thread := inst.thread, genesis := g, rule, committee
          endowment, issuers := issuersOf keys rule endowment.actors }

namespace Founding

variable (f : Founding)

/-- The identities of the genesis versions. -/
def rootIds : BTreeMap String String :=
  f.endowment.initial.map fun account _ => digest sha256 (rootParts f.id account)

/-- The genesis versions under their identities. -/
def rootManifests : BTreeMap String VersionManifest :=
  f.endowment.initial.toList.foldl (fun manifests e =>
    manifests.insert (digest sha256 (rootParts f.id e.1)) (genesisManifest e.1 e.2)) ∅

end Founding

end CbclContext
