import Cbcl.QuorumModel

/-!
# A validator's replica

One validator's state machine (`quorum/engine.rs`).  Every mutation is an event: `prepare` checks
it against the state and says what it changes, the journal takes it, `applyUpdate` changes the
state.  Recovery replays the journal through the same two functions.
-/

namespace CbclQuorum

open CbclMessage CbclAct CbclCanonical CbclTreeMap CbclStateShape
open CbclEscrow (CounterRule Ownership Kind operationKeys checked PREV DEPS)
open CbclDialectParser (NONCE)

instance : Ord VoteKind := ⟨compareOn VoteKind.index⟩

instance : Std.TransOrd VoteKind := inferInstanceAs (Std.TransCmp (compareOn VoteKind.index))

instance : Std.LawfulEqOrd VoteKind where
  eq_of_compare {a b} h := by
    have h : a.index = b.index := Std.LawfulEqOrd.eq_of_compare h
    cases a <;> cases b <;> simp_all [VoteKind.index]

/-- Fail unless a condition holds. -/
def ensure (p : Prop) [Decidable p] (reason : String) : Except String Unit :=
  if p then .ok () else .error reason

/-- A value, or an error where there is none. -/
def orError {α : Type} (reason : String) : Option α → Except String α
  | some a => .ok a
  | none => .error reason

-- ── The size of a message ────

/-- Add to the size of an object. -/
def charge (limit total n : Nat) : Except String Nat :=
  if total + n ≥ 2 ^ 64 then .error "object size overflow"
  else if total + n > limit then .error "operation object limit exceeded"
  else .ok (total + n)

/-- The size of an atom beyond its node. -/
def atomBytes : Atom → Nat
  | .symbol s => s.utf8ByteSize
  | .keyword s => s.utf8ByteSize
  | .str s => s.utf8ByteSize
  | .num _ => 0
  | .bool _ => 0

mutual
/-- Charge an expression; the last item of a list comes first. -/
def boundExpr (limit : Nat) (depth : Nat) : SExpr → Nat → Except String Nat
  | .atom a, total =>
      if depth > 64 then .error "S-expression nesting limit exceeded"
      else do
        let total ← charge limit total 16
        charge limit total (atomBytes a)
  | .list xs, total =>
      if depth > 64 then .error "S-expression nesting limit exceeded"
      else do
        let total ← charge limit total 16
        if xs.length > limit then .error "list limit exceeded"
        else boundItems limit (depth + 1) xs total
/-- Charge the items of a list from the last to the first. -/
def boundItems (limit : Nat) (depth : Nat) : List SExpr → Nat → Except String Nat
  | [], total => .ok total
  | x :: xs, total => do
      let total ← boundItems limit depth xs total
      boundExpr limit depth x total
end

/-- Charge the recipients. -/
def boundRecipients (limit total : Nat) : Option Recipients → Except String Nat
  | none => .ok total
  | some (.one k) => charge limit total k.utf8ByteSize
  | some (.set ks) =>
      if ks.size > limit then .error "recipient limit exceeded"
      else ks.toList.foldlM (fun total k => charge limit total (k.utf8ByteSize + 1)) total

/-- Charge an optional string. -/
def boundOption (limit total : Nat) : Option String → Except String Nat
  | none => .ok total
  | some s => charge limit total s.utf8ByteSize

/-- Charge the causes. -/
def boundCauses (limit total : Nat) : Option CausedBy → Except String Nat
  | some (.single s) => charge limit total s.utf8ByteSize
  | some (.multiple xs) =>
      if xs.length > limit then .error "cause limit exceeded"
      else xs.foldlM (fun total x => charge limit total (x.utf8ByteSize + 1)) total
  | _ => .ok total

/-- Charge a message at a depth, after the wrappers around it and before their parameters. -/
def boundWithin (limit : Nat) : Nat → Message → Nat → Except String Nat
  | depth, .dialect dialect_name inner, total => do
      let total ← charge limit total 16
      let total ← charge limit total dialect_name.utf8ByteSize
      if depth = 64 then .error "message nesting limit exceeded"
      else boundWithin limit (depth + 1) inner total
  | depth, .wrapped _ params content, total => do
      let total ← charge limit total 16
      if params.length > limit then .error "wrapper size limit exceeded"
      else if depth = 64 then .error "message nesting limit exceeded"
      else do
        let total ← boundWithin limit (depth + 1) content total
        boundItems limit (depth + 1) params total
  | depth, .simple performative recipient content params thread sender caused_by, total => do
      let total ← charge limit total 16
      let total ← charge limit total performative.name.utf8ByteSize
      let total ← boundRecipients limit total recipient
      let total ← boundOption limit total thread
      let total ← boundOption limit total sender
      let total ← boundCauses limit total caused_by
      if params.length > limit then .error "parameter limit exceeded"
      else boundItems limit (depth + 1) (content :: params) total
  | _, .metaDef _, total => do
      let _ ← charge limit total 16
      .error "resource candidate cannot be a meta message"

/-- The size of a message is within a limit. -/
def boundedMessage (message : Message) (limit : Nat) : Except String Unit := do
  let _ ← boundWithin limit 0 message 0
  return ()

-- ── Operations ────

/-- The source version an act names. -/
def sourceEpoch (a : Act) : Except String String :=
  match a.fields[PREV]? with
  | some (.atom (.symbol s)) => .ok s
  | _ => .error "missing source epoch"

/-- The dependencies a version gives the operations of its account. -/
def dependenciesExpr (m : VersionManifest) : SExpr :=
  .list (m.credited.toList.map fun s => .atom (.symbol s))

/-- The positive amount of an operation. -/
def amountOf : Option SExpr → Except String Int
  | some (.atom (.num n)) =>
      if 0 < n.toInt then .ok n.toInt else .error "amount must be a positive integer"
  | _ => .error "amount must be a positive integer"

/-- The account an operation credits. -/
def recipientOf (c : Context) (a : Act) (account : String) : Option String → Except String String
  | none => .ok account
  | some k =>
      match (a.fields[k]?).bind CbclEscrow.text with
      | some s => if s ∈ c.initial then .ok s else .error "unknown recipient"
      | none => .error "unknown recipient"

/-- What an operation of a kind costs its account. -/
def costOf (bounded : Bool) (n : Int) : Kind → Resources
  | .increment => ⟨0, if bounded then n else 0⟩
  | .decrement => ⟨n, 0⟩
  | .transfer => ⟨n, 0⟩
  | .headroom => ⟨0, n⟩

/-- What an operation of a kind credits its recipient. -/
def creditOf (bounded : Bool) (n : Int) : Kind → Resources
  | .increment => ⟨n, 0⟩
  | .decrement => ⟨0, if bounded then n else 0⟩
  | .transfer => ⟨n, 0⟩
  | .headroom => ⟨0, n⟩

/-- Read the operation of an act whose source version is known. -/
def Context.readOperation (c : Context) (a : Act) (epoch : String) (m : VersionManifest) :
    Except String Operation := do
  let account ← c.account a.signer
  ensure (m.account = account) "epoch belongs to another account"
  ensure (a.fields[DEPS]? = some (dependenciesExpr m)) "epoch finalized dependencies mismatch"
  ensure (isNonce a.fields[NONCE]?) "missing or invalid transaction nonce"
  let (kind, key, recipient) ← orError "not a counter operation" (operationKeys c.rule a.verb)
  let n ← amountOf a.fields[key]?
  let «to» ← recipientOf c a account recipient
  ensure (¬ (recipient.isSome ∧ «to» = a.signer)) "self transfer is not a resource operation"
  ensure (kind = .increment → a.signer ∈ c.issuers) "mint requires issuer authority"
  ensure (kind = .headroom → c.rule.ceiling.isSome) "headroom requires a ceiling"
  let bounded := c.rule.ceiling.isSome
  return ⟨a, account, epoch, costOf bounded n kind,
    (∅ : BTreeMap String Resources).insert «to» (creditOf bounded n kind)⟩

-- ── Replicas ────

/-- What a replica retains. -/
structure State where
  operations : BTreeMap String Operation
  owned : BTreeMap String OwnedSealRequest
  sealed : BTreeMap String String
  certificates : BTreeMap (VoteKind × String) Certificate
  versions : BTreeMap String DagVersion
  visited : BTreeSet String
  signed : BTreeSet String
  effects : BTreeSet String
  fences : BTreeSet String
  released : BTreeSet String
  active : BTreeMap String String
  charges : BTreeMap String Resources
deriving DecidableEq

/-- One validator's state machine. -/
structure Replica where
  context : Context
  validator : String
  limits : Limits
  sequence : Nat
  state : State

/-- A persisted decision. -/
inductive Event where
  | initialized
  | candidate (a : Act)
  | certificate (c : Certificate)
  | sign (id : String)
  | effect (id : String)
  | fence (v : Vote)
  | release (id : String)
  | version (v : DagVersion)
  | adoptVersion (id : String)
  | ownedProposal (r : OwnedSealRequest)
  | sealOwned (r : OwnedSealRequest)
deriving DecidableEq

/-- A checked change of state. -/
inductive Update where
  | candidate (id : String) (op : Operation)
  | owned (id : String) (request : OwnedSealRequest) (permanent : Bool)
  | certificate (kind : VoteKind) (id : String) (c : Certificate)
  | version (id : String) (v : DagVersion)
  | adopt (account id : String)
  | sign (id epoch : String) (charge : Resources)
  | effect (id : String)
  | fence (id : String)
  | release (id epoch : String) (charge : Resources)
deriving DecidableEq

namespace Replica

variable (r : Replica)

/-- The retained certificate of a kind. -/
def certificate (kind : VoteKind) (id : String) : Option Certificate :=
  r.state.certificates[(kind, id)]?

/-- Whether a certificate of a kind is retained. -/
def has (kind : VoteKind) (id : String) : Bool := r.state.certificates.contains (kind, id)

/-- A registered operation. -/
def op (id : String) : Except String Operation :=
  orError ("missing operation " ++ id) r.state.operations[id]?

/-- The act of a registered operation. -/
def operationAct (id : String) : Option Act := (r.state.operations[id]?).map (·.act)

/-- A retained version. -/
def version (id : String) : Option DagVersion := r.state.versions[id]?

/-- The manifest of a retained or genesis version, if known. -/
def manifest? (id : String) : Option VersionManifest :=
  match r.state.versions[id]? with
  | some v => some v.manifest
  | none => r.context.root_manifests[id]?

/-- The manifest of a known version. -/
def epoch (id : String) : Except String VersionManifest :=
  orError ("missing certified epoch " ++ id) (r.manifest? id)

/-- The version an account's new operations are charged to. -/
def activeEpoch (actor : String) : Except String String := do
  let account ← r.context.account actor
  orError "unknown account" r.state.active[account]?

/-- The certified owned root of an account. -/
def ownedRoot (account : String) : Option String :=
  (r.state.owned.toList.find? fun (id, request) =>
    request.version.manifest.account = account && r.has .ownedSeal id).map (·.1)

/-- Walk to the ancestors of what is on the stack; a step pops one node. -/
def descendLoop (root : String) : Nat → List String → List String → Except String Bool
  | 0, _, _ => .ok false
  | _ + 1, [], _ => .ok false
  | n + 1, id :: todo, seen =>
      if id = root then .ok true
      else if id ∈ seen then descendLoop root n todo seen
      else do
        let m ← r.epoch id
        descendLoop root n (m.parents.toList.reverse ++ todo) (id :: seen)

/-- A bound on the steps of a walk over the version graph. -/
def walkBound : Nat :=
  2 + ((valuesOf r.state.versions).map fun v => v.manifest.parents.size).sum

/-- Whether a version descends from another, or is it. -/
def descends (version root : String) : Except String Bool :=
  r.descendLoop root r.walkBound [version] []

/-- Read the operation of an act. -/
def operation (a : Act) : Except String Operation := do
  boundedMessage a.message r.limits.object_bytes
  r.context.structural a
  ensure ((encode (CbclRecogniser.toSExpr a.message)).length ≤ r.limits.object_bytes)
    "operation too large"
  let epoch ← sourceEpoch a
  let m ← r.epoch epoch
  r.context.readOperation a epoch m

-- ── Signatures ────

/-- A vote of the right domain, kind, payload and signer, with a signature that verifies. -/
def verifyVote (auth : Authentication) (v : Vote) (kind : VoteKind) (payload key : String) :
    Except String Unit :=
  ensure (v.context = r.context.id ∧ v.kind = kind ∧ v.payload = payload ∧ v.signer = key ∧
      v.signature.length ≤ r.limits.signature_bytes ∧ v.signature ≠ [] ∧
      auth.verify key v.preimage v.signature = true)
    "invalid signature, domain, signer or payload"

/-- The votes of a certificate come from different validators and verify. -/
def verifyVotes (auth : Authentication) (kind : VoteKind) (payload : String) :
    List String → List Vote → Except String Unit
  | _, [] => .ok ()
  | keys, v :: votes => do
      ensure (r.context.isValidator v.signer = true ∧ v.signer ∉ keys)
        "nonmember or duplicate validator"
      r.verifyVote auth v kind payload v.signer
      verifyVotes auth kind payload (v.signer :: keys) votes

/-- A certificate is a quorum of verifying votes. -/
def verifyCertificate (auth : Authentication) (c : Certificate) (kind : VoteKind)
    (payload : String) : Except String Unit := do
  ensure (c.kind = kind ∧ c.payload = payload ∧ r.context.committee.quorum ≤ c.votes.length ∧
      c.votes.length ≤ r.context.committee.validators.length)
    "invalid certificate kind, payload or quorum"
  r.verifyVotes auth kind payload [] c.votes

-- ── Versions ────

/-- Add the credit of an operation with an effects certificate. -/
def addCredit (account : String) (b : Resources) (id : String) : Except String Resources := do
  ensure (r.has .effects id) "missing final credit certificate"
  let op ← r.op id
  let credit ← orError "credit belongs to another account" op.credits[account]?
  b.add credit

/-- Subtract the cost of a held operation. -/
def subCost (account : String) (b : Resources) (id : String) : Except String Resources := do
  let op ← r.op id
  ensure (op.account = account) "held operation belongs to another account"
  b.sub op.cost

/-- Add the cost of a held operation with a cancellation certificate. -/
def addRefund (m : VersionManifest) (b : Resources) (id : String) : Except String Resources := do
  ensure (id ∈ m.held ∧ r.has .cancel id) "refund needs held operation and cancellation quorum"
  let op ← r.op id
  b.add op.cost

/-- The allocation of a version: what its account started with, with all credits, costs and refunds
    of the version's books. -/
def allocation (m : VersionManifest) : Except String Resources := do
  let b ← orError "unknown resource scope" r.context.initial[m.account]?
  let b ← m.credited.toList.foldlM (r.addCredit m.account) b
  let b ← m.held.toList.foldlM (r.subCost m.account) b
  let b ← m.refunded.toList.foldlM (r.addRefund m) b
  ensure b.nonnegative "negative version allocation"
  return b

/-- A version follows a parent: same account, higher rank, books that include the parent's. -/
def checkParent (m : VersionManifest) (id : String) : Except String Unit := do
  let parent ← r.epoch id
  ensure ((parent.phase = .owned → m.phase = .owned) ∧ parent.account = m.account ∧
      parent.rank < m.rank ∧ (∀ x ∈ parent.held.toList, x ∈ m.held) ∧
      (∀ x ∈ parent.refunded.toList, x ∈ m.refunded) ∧
      (∀ x ∈ parent.credited.toList, x ∈ m.credited))
    "DAG parent rank or inherited sets mismatch"

/-- A held operation belongs to a version of lower rank. -/
def checkHeld (m : VersionManifest) (id : String) : Except String Unit := do
  let op ← r.op id
  let epoch ← r.epoch op.epoch
  ensure (epoch.rank < m.rank) "held transaction must precede DAG version rank"

/-- The books of a version are right. -/
def checkVersionManifest (m : VersionManifest) : Except String Unit := do
  ensure (¬ (m.phase = .owned ∧ r.context.rule.ownership = .collective) ∧
      m.account ∈ r.context.initial ∧ m.parents.toList ≠ [] ∧
      m.parents.size ≤ r.limits.versions + 1 ∧ m.held.size ≤ r.limits.operations ∧
      m.refunded.size ≤ r.limits.operations ∧ m.credited.size ≤ r.limits.operations)
    "invalid DAG pool, parent set or size limit"
  m.parents.toList.forM (r.checkParent m)
  m.held.toList.forM (r.checkHeld m)
  let allocation ← r.allocation m
  ensure (allocation = m.allocation) "DAG version allocation mismatch"

/-- A version is right and authorized. -/
def checkVersion (auth : Authentication) (v : DagVersion) : Except String Unit := do
  r.checkVersionManifest v.manifest
  ensure (r.context.versionActor v.manifest.account v.authorization.signer = true)
    "unauthorized DAG version actor"
  r.verifyVote auth v.authorization .versionRequest (r.context.versionId v.manifest)
    v.authorization.signer

/-- A seal request: an authorized owned version whose held operations are all settled. -/
def checkOwned (auth : Authentication) (request : OwnedSealRequest) : Except String Unit := do
  let m := request.version.manifest
  ensure (m.phase = .owned ∧ r.context.rule.ownership = .account)
    "collective pools cannot become owned accounts"
  r.checkVersion auth request.version
  r.verifyVote auth request.authorization .ownedSealRequest (r.context.versionId m) m.account
  ensure (∀ id ∈ m.held.toList, r.has .effects id ∨ r.has .cancel id)
    "seal requires completely drained history"

-- ── Budgets ────

/-- The charge of a version so far. -/
def chargeOf (epoch : String) : Resources := (r.state.charges[epoch]?).getD .zero

/-- A charge is within the validator's share of an allocation. -/
def withinShare (used allocation : Resources) (overflow exceeded : String) :
    Except String Unit := do
  let q : Int := r.context.committee.quorum
  let k : Int := r.context.committee.faults.toNat + 1
  let used_rights ← orError overflow (checked (used.rights * q))
  let rights ← orError overflow (checked (allocation.rights * k))
  ensure (used_rights ≤ rights) exceeded
  let used_headroom ← orError overflow (checked (used.headroom * q))
  let headroom ← orError overflow (checked (allocation.headroom * k))
  ensure (used_headroom ≤ headroom) exceeded

/-- The charge of an operation under the certified owned root. -/
def ownedBudget (id : String) (op : Operation) (epoch : VersionManifest) (root : String) :
    Except String Resources := do
  ensure (¬ (id ∈ r.state.fences ∨ r.has .cancel id))
    "owned operation has a preexisting cancellation fence"
  let inside ← r.descends op.epoch root
  ensure (inside = true) "operation outside certified owned continuation"
  ensure (¬ r.state.signed.toList.any fun other =>
      (r.state.operations[other]?).any (·.epoch = op.epoch)) "owned version slot already consumed"
  ensure (op.cost.rights ≤ epoch.allocation.rights ∧ op.cost.headroom ≤ epoch.allocation.headroom)
    "owned allocation exceeded"
  (r.chargeOf op.epoch).add op.cost

/-- The charge of an operation of a concurrent account. -/
def concurrentBudget (op : Operation) (epoch : VersionManifest) : Except String Resources := do
  ensure (epoch.phase ≠ .owned) "owned metadata awaits certified root"
  ensure (op.account ∉ r.state.sealed) "account sealed; awaiting certificate"
  let used ← (r.chargeOf op.epoch).add op.cost
  r.withinShare used epoch.allocation "budget overflow" "local validator budget exceeded"
  return used

/-- The charge of a version after an operation. -/
def budgetOp (id : String) (op : Operation) : Except String Resources := do
  let epoch ← r.epoch op.epoch
  ensure (r.state.active[op.account]? = some op.epoch ∧ id ∉ r.state.released)
    "version inactive or operation released"
  match r.ownedRoot op.account with
  | some root => r.ownedBudget id op epoch root
  | none => r.concurrentBudget op epoch

/-- The charge of a version after a registered operation. -/
def budget (id : String) : Except String Resources := do
  let op ← r.op id
  r.budgetOp id op

end Replica

end CbclQuorum
