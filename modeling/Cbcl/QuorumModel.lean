import Cbcl.StateShapeModel
import Cbcl.TypedAddrModel
import Cbcl.RecogniserModel

/-!
# Quorum budgets: data and contexts

The types of `quorum/types.rs` and the context of `quorum/context.rs`.  A context pins everything
the validators of one counter agree on: dialect, thread, genesis, rule, committee, the initial
resources of each account and the identities of their root versions.  The digest of the `sha2`
crate is a field of the context; what `Context::from_instance` establishes is carried as proofs.
-/

namespace CbclQuorum

open CbclMessage CbclAct CbclCanonical CbclTypedAddr CbclCertification CbclShape CbclState
open CbclDialect CbclStateShape
open CbclRole hiding Dialect PerformativeDef
open CbclEscrow (CounterRule Ownership inI128 checked PREV DEPS)
open CbclDialectParser (NONCE)

-- ── Resources ────

/-- Rights and headroom, in checked 128-bit arithmetic. -/
structure Resources where
  rights : Int
  headroom : Int
deriving DecidableEq

namespace Resources

/-- No resources. -/
def zero : Resources := ⟨0, 0⟩

/-- Rights and headroom, if both fit. -/
def build (rights headroom : Int) : Except String Resources :=
  match checked rights with
  | none => .error "rights overflow"
  | some rights =>
      match checked headroom with
      | none => .error "headroom overflow"
      | some headroom => .ok ⟨rights, headroom⟩

/-- Checked sum. -/
def add (a b : Resources) : Except String Resources :=
  build (a.rights + b.rights) (a.headroom + b.headroom)

/-- Checked difference. -/
def sub (a b : Resources) : Except String Resources :=
  build (a.rights - b.rights) (a.headroom - b.headroom)

/-- Neither component is negative. -/
def nonnegative (a : Resources) : Bool := 0 ≤ a.rights && 0 ≤ a.headroom

end Resources

-- ── Digests ────

/-- Financial scope of a collective pool. -/
def COLLECTIVE_POOL : String := "$collective"

/-- A string expression. -/
def textExpr (s : String) : SExpr := .atom (.str s)

/-- The string expressions of a set, in order. -/
def stringsExpr (xs : BTreeSet String) : SExpr := .list (xs.toList.map textExpr)

/-- The wire spelling of the digest of a list. -/
def digest (sha256 : Octets → Digest) (xs : List SExpr) : String :=
  "sha256-" ++ hex32 (sha256 (encode (.list xs)))

-- ── Votes and certificates ────

/-- What a vote is about. -/
inductive VoteKind where
  | operation
  | effects
  | cancel
  | cancelRequest
  | versionRequest
  | ownedSealRequest
  | ownedSeal
deriving DecidableEq

/-- The position of a kind in the order of its declaration. -/
def VoteKind.index : VoteKind → Nat
  | .operation => 0
  | .effects => 1
  | .cancel => 2
  | .cancelRequest => 3
  | .versionRequest => 4
  | .ownedSealRequest => 5
  | .ownedSeal => 6

/-- The signing domain of a kind. -/
def VoteKind.tag : VoteKind → String
  | .operation => "operation"
  | .effects => "effects"
  | .cancel => "cancel"
  | .cancelRequest => "owner-cancel"
  | .versionRequest => "owner-dag-version"
  | .ownedSealRequest => "owner-permanent-seal"
  | .ownedSeal => "validator-permanent-seal"

/-- A signed vote. -/
structure Vote where
  context : String
  kind : VoteKind
  payload : String
  signer : String
  signature : Octets
deriving DecidableEq

/-- The octets a vote's signature is over. -/
def Vote.preimage (v : Vote) : Octets :=
  encode (.list [textExpr "cbcl/quorum-budget/v1", textExpr v.context, textExpr v.kind.tag,
    textExpr v.payload, textExpr v.signer])

/-- A vote to be signed. -/
structure SigningRequest where
  context : String
  kind : VoteKind
  payload : String
  signer : String
deriving DecidableEq

/-- An untrusted proof of a quorum. -/
structure Certificate where
  kind : VoteKind
  payload : String
  votes : List Vote
deriving DecidableEq

-- ── Versions ────

/-- The lifecycle phase of a version. -/
inductive VersionPhase where
  | concurrent
  | owned
deriving DecidableEq

/-- The signed name of a phase. -/
def VersionPhase.tag : VersionPhase → String
  | .concurrent => "concurrent"
  | .owned => "owned"

/-- A node of an account's version graph. -/
structure VersionManifest where
  phase : VersionPhase
  account : String
  parents : BTreeSet String
  rank : Nat
  held : BTreeSet String
  refunded : BTreeSet String
  credited : BTreeSet String
  allocation : Resources
deriving DecidableEq

/-- What the identity of a version binds. -/
def VersionManifest.parts (m : VersionManifest) (context : String) : List SExpr :=
  [textExpr "cbcl/dag-version/v2", textExpr m.phase.tag, textExpr context, textExpr m.account,
    stringsExpr m.parents, textExpr (toString m.rank), stringsExpr m.held, stringsExpr m.refunded,
    stringsExpr m.credited, textExpr (toString m.allocation.rights),
    textExpr (toString m.allocation.headroom)]

/-- The identity of a version. -/
def VersionManifest.id (m : VersionManifest) (sha256 : Octets → Digest) (context : String) :
    String :=
  digest sha256 (m.parts context)

/-- A version with its owner's authorization. -/
structure DagVersion where
  manifest : VersionManifest
  authorization : Vote
deriving DecidableEq

/-- The owner's authorization of a permanent conversion. -/
structure OwnedSealRequest where
  version : DagVersion
  authorization : Vote
deriving DecidableEq

/-- The genesis version of an account. -/
def genesisManifest (account : String) (allocation : Resources) : VersionManifest :=
  ⟨.concurrent, account, ∅, 0, ∅, ∅, ∅, allocation⟩

/-- What the identity of a genesis version binds. -/
def rootParts (context account : String) : List SExpr :=
  [textExpr "cbcl/root-epoch/v1", textExpr context, textExpr account]

/-- An operation of a counter. -/
structure Operation where
  act : Act
  account : String
  epoch : String
  cost : Resources
  credits : BTreeMap String Resources
deriving DecidableEq

/-- The limits of a host. -/
structure Limits where
  operations : Nat
  versions : Nat
  events : Nat
  object_bytes : Nat
  signature_bytes : Nat
deriving DecidableEq

/-- The host's verification of signatures and of act admission, a fixed function. -/
structure Authentication where
  verify : String → Octets → Octets → Bool
  authenticateAct : Act → Bool

-- ── Contexts ────

/-- What the validators of one counter agree on. -/
structure Context where
  sha256 : Octets → Digest
  id : String
  dialect : Dialect
  thread : ThreadId
  genesis : List Act
  rule : CounterRule
  committee : Committee
  initial : BTreeMap String Resources
  root_ids : BTreeMap String String
  root_manifests : BTreeMap String VersionManifest
  issuers : BTreeSet String
  actors : BTreeSet String
  /-- A committee has `3f + 1` different validators and a quorum of `2f + 1`. -/
  validators_nodup : committee.validators.Nodup
  validators_length : committee.validators.length = 3 * committee.faults.toNat + 1
  quorum_eq : committee.quorum = 2 * committee.faults.toNat + 1
  /-- The accounts of an account-owned counter are its actors. -/
  account_actors : rule.ownership = .account → ∀ a, a ∈ actors ↔ a ∈ initial
  /-- A collective counter has the one pool. -/
  collective_pool : rule.ownership = .collective → ∀ a, a ∈ initial ↔ a = COLLECTIVE_POOL
  /-- No account starts below zero. -/
  initial_nonnegative : ∀ (a : String) (b : Resources), initial[a]? = some b →
    b.nonnegative = true
  /-- Every account has its genesis version, and there is no other. -/
  root_id_iff : ∀ (a id' : String), root_ids[a]? = some id' ↔
    a ∈ initial ∧ id' = digest sha256 (rootParts id a)
  root_known : ∀ (a id' : String), root_ids[a]? = some id' → id' ∈ root_manifests
  root_manifest : ∀ (id' : String) (m : VersionManifest), root_manifests[id']? = some m →
    ∃ (a : String) (b : Resources), initial[a]? = some b ∧ root_ids[a]? = some id' ∧
      m = genesisManifest a b

namespace Context

variable (c : Context)

/-- The content hash of a message. -/
def contentHash (m : Message) : String := typedRoot c.sha256 m

/-- Whether a key is a validator. -/
def isValidator (key : String) : Bool := c.committee.validators.contains key

/-- The identity of a version in this context. -/
def versionId (m : VersionManifest) : String := m.id c.sha256 c.id

/-- The resource scope of an actor. -/
def account (actor : String) : Except String String :=
  if c.rule.ownership = .collective ∧ (actor ∈ c.actors ∨ actor = COLLECTIVE_POOL) then
    .ok COLLECTIVE_POOL
  else if actor ∈ c.initial then .ok actor
  else .error "unknown actor or resource account"

-- ── The cast of the genesis ────

/-- The act that carries the cast. -/
def rootAct (acts : List Act) : Option Act :=
  minByAddress (acts.filter fun a =>
    a.predecessors = [] ∧ a.message.wrapperType = some .withRoles)

/-- The cast of a root message. -/
def castOf (d : Dialect) : Message → Except String Cast
  | .wrapped .withRoles params _ =>
      match parseWrapperCast params d.roles with
      | .ok bound => .ok bound
      | .error e => .error e.display
  | .wrapped _ _ content => castOf d content
  | .dialect _ inner => castOf d inner
  | _ => .error "the root of a role-declaring dialect must carry a with-roles wrapper"

/-- The cast of the genesis acts; none without roles or without a root. -/
def genesisCast : Except String (Option Cast) :=
  if c.dialect.roles = [] then .ok none
  else match rootAct c.genesis with
    | none => .ok none
    | some root => (castOf c.dialect root.message).map some

/-- The role annotation of a verb. -/
def roleOf (verb : String) : Option RoleAnnotation := do (← c.dialect.findPerformative verb).role

/-- Whether an actor may authorize the versions of an account. -/
def versionActor (account actor : String) : Bool :=
  if c.rule.ownership = .account then account = actor && c.initial.contains actor
  else if account ≠ COLLECTIVE_POOL || !c.actors.contains actor then false
  else match c.genesisCast with
    | .ok (some bound) =>
        c.rule.operationVerbs.any fun v => (c.roleOf v).any fun role => bound.admits role.from actor
    | _ => false

-- ── Structural admission ────

/-- The derived metadata of an act is what its message gives. -/
def validateIdentity (a : Act) : Except String Unit :=
  match Act.fromMessage c.contentHash a.message a.signer with
  | .error e => .error e
  | .ok built => if built = a then .ok () else .error "inconsistent act identity"

/-- The parameters are keyword-value pairs, no keyword twice. -/
def checkPairs : List String → List SExpr → Except String Unit
  | _, [] => .ok ()
  | seen, .atom (.keyword k) :: _ :: rest =>
      if seen.contains k then .error "duplicate resource keyword" else checkPairs (k :: seen) rest
  | _, _ => .error "malformed resource parameters"

/-- The first `from` keyword with a symbol behind it. -/
def fromParam : List SExpr → Option String
  | .atom (.keyword k) :: .atom (.symbol v) :: rest =>
      if k = "from" then some v else fromParam (.atom (.symbol v) :: rest)
  | _ :: rest => fromParam rest
  | [] => none

/-- The shapes of the act's verb. -/
def checkActShapes (a : Act) : Except String Unit :=
  (c.dialect.shapes.filter (·.performative = a.verb)).forM fun shape =>
    match shape.check (CbclRecogniser.toSExpr a.simple) with
    | .ok () => .ok ()
    | .error e => .error (violationText e)

/-- The role of the act's verb admits its signer. -/
def checkRole (a : Act) : Except String Unit := do
  let bound ← c.genesisCast
  match c.roleOf a.verb with
  | none => .ok ()
  | some role =>
      if bound.any (·.admits role.from a.signer) then .ok () else .error "owner role not admitted"

/-- What an act must be before its operation is read. -/
def structural (a : Act) : Except String Unit := do
  c.validateIdentity a
  if a.signer ∉ c.actors then .error "owner outside pinned accounts"
  else if a.simple.thread ≠ some c.thread ∨ lang a.message ≠ some c.dialect.name then
    .error "act context mismatch"
  else do
    checkPairs [] (params a.simple)
    match verifyStateShape c.dialect a.message with
    | .error e => .error (violationText e)
    | .ok () => do
        c.checkActShapes a
        c.checkRole a
        if "from" ∈ a.fields then .error "routing field in data"
        else if fromParam (params a.simple) ≠ some a.signer then
          .error "from does not match authenticated owner"
        else .ok ()

/-- A request for a vote. -/
def request (kind : VoteKind) (payload signer : String) : SigningRequest :=
  ⟨c.id, kind, payload, signer⟩

end Context

end CbclQuorum
