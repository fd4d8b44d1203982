import Cbcl.ProtocolModel
import Cbcl.EnvelopeModel

/-!
# Message stores and the evidence they hold about a hash

What the verifiers read of a store (`store.rs`, trait `MessageStore`): the full message of
a hash in a thread, the shelves of redacted and opened envelopes, and an optional cache of
materialised copy positions.  A store is finite: `hashes` lists every hash under which it
holds anything.

`predecessorType` and `metadata` are the two readings of that evidence.  A full message
wins over a redacted envelope, which wins over an opened one.
-/

namespace CbclStore

open CbclMessage CbclProtocol CbclEnvelope

-- ── The cache of materialised positions ────

/-- What a cache is bound to: installation code, thread root and thread. -/
structure PositionContext where
  code : List UInt8
  root : ContentHash
  thread : ThreadId
deriving DecidableEq

/-- Authenticated causal metadata of one covered message. -/
structure PositionMetadata where
  id : String
  verb : String
  cause : Option CausedBy
deriving DecidableEq

/-- A covered message and the copy positions it inhabits. -/
structure PositionFact where
  metadata : PositionMetadata
  steps : BTreeSet String
deriving DecidableEq

/-- The persistent treap of facts, ordered by identity. -/
inductive PositionIndex where
  | nil
  | node (fact : PositionFact) (priority : List UInt8) (size : Nat)
      (left right : PositionIndex)
deriving DecidableEq

/-- Search-tree descent by identity. -/
def PositionIndex.get (id : String) : PositionIndex → Option PositionFact
  | .nil => none
  | .node fact _ _ left right =>
      match compare id fact.metadata.id with
      | .eq => some fact
      | .lt => left.get id
      | .gt => right.get id

/-- A cache of native positions, bound to a protocol and a context. -/
structure MaterializedPositions where
  context : PositionContext
  protocol : Option CausalProtocol
  entries : PositionIndex
deriving DecidableEq

/-- Whether a cache applies to a protocol, thread and root. -/
def MaterializedPositions.matchesContext (p : MaterializedPositions) (protocol : CausalProtocol)
    (thread : ThreadId) (root : Option ContentHash) : Bool :=
  p.protocol = some protocol && p.context.thread = thread
    && root.all (· == p.context.root)

-- ── Stores ────

/-- A finite message store, as the verifiers see it. -/
structure MessageStore where
  lookupInThread : ContentHash → ThreadId → Option Message
  envelopeInThread : ContentHash → ThreadId → Option RedactedEnvelope
  openedInThread : ContentHash → ThreadId → Option OpenedEnvelope
  materializedPositions : Option MaterializedPositions
  hashes : List ContentHash
  finite : ∀ h t, h ∉ hashes →
    lookupInThread h t = none ∧ envelopeInThread h t = none ∧ openedInThread h t = none

/-- The performative a full message types as: its innermost simple's, else the empty name. -/
def fullType (m : Message) : String :=
  ((m.innermostSimple.bind Message.performative).map Performative.name).getD ""

/-- Resolve the performative type of a reference. -/
def predecessorType (store : MessageStore) (hash : ContentHash) (thread : ThreadId) :
    Option String :=
  match store.lookupInThread hash thread with
  | some m => some (fullType m)
  | none =>
    match store.envelopeInThread hash thread with
    | some e => some e.header.performative
    | none => (store.openedInThread hash thread).bind OpenedEnvelope.performative

/-- The causal metadata of a full message. -/
def fullMetadata (m : Message) : Option (String × Option CausedBy) := do
  let simple ← m.innermostSimple
  let p ← simple.performative
  return (p.name, simple.causedBy)

/-- The causal metadata of a reference: what position resolution needs. -/
def metadata (store : MessageStore) (hash : ContentHash) (thread : ThreadId) :
    Option (String × Option CausedBy) :=
  match store.lookupInThread hash thread with
  | some m => fullMetadata m
  | none =>
    match store.envelopeInThread hash thread with
    | some e => some (e.header.performative, e.header.caused_by)
    | none => do
      let opened ← store.openedInThread hash thread
      return (← opened.performative, ← opened.causalReference)

/-- A hash outside the store's support has no metadata. -/
theorem metadata_eq_none_of_not_mem {store : MessageStore} {h : ContentHash}
    (hh : h ∉ store.hashes) (t : ThreadId) : metadata store h t = none := by
  obtain ⟨hl, he, ho⟩ := store.finite h t hh
  simp [metadata, hl, he, ho]

/-- Metadata carries the type of the reference. -/
theorem predecessorType_of_metadata {store : MessageStore} {h : ContentHash} {t : ThreadId}
    {verb : String} {cause : Option CausedBy} (hm : metadata store h t = some (verb, cause)) :
    predecessorType store h t = some verb := by
  unfold metadata at hm
  unfold predecessorType
  cases hl : store.lookupInThread h t with
  | some m =>
      rw [hl] at hm
      simp only [fullMetadata, Option.bind_eq_bind, Option.pure_def, Option.bind_eq_some_iff,
        Option.some.injEq, Prod.mk.injEq] at hm
      obtain ⟨s, hs, p, hp, hname, -⟩ := hm
      simp [fullType, hs, hp, hname]
  | none =>
      rw [hl] at hm
      cases he : store.envelopeInThread h t with
      | some e =>
          rw [he] at hm
          simp only [Option.some.injEq, Prod.mk.injEq] at hm
          simp [hm.1]
      | none =>
          rw [he] at hm
          simp only [Option.bind_eq_bind, Option.pure_def, Option.bind_eq_some_iff,
            Option.some.injEq, Prod.mk.injEq] at hm
          obtain ⟨o, ho, p, hp, c, hc, hverb, -⟩ := hm
          simp [ho, hp, hverb]

end CbclStore
