import Cbcl.BundleModel
import Cbcl.TreeMapProofs
import Cbcl.DialectModel

/-!
# Equivocation

`equivocation.rs`: when one key has sent two messages of a thread that the protocol allows
only one of, and the transferable proof of it.  The predicate reads the messages of a thread
through the frontier and the closures of the store; the proof carries the two signed messages
(or envelopes of them) and pins the dialect by its hash.
-/

namespace CbclEquivocation

open CbclMessage CbclProtocol CbclCanonical CbclTypedAddr CbclStore CbclThreadedStore
open CbclEnvelope CbclBundle CbclDialect

-- ── Key spellings ────

/-- Rejections of a key spelling. -/
inductive KeyIdError where
  | missingSigil
  | emptySuite
  | emptyName
deriving DecidableEq

/-- The suite a marker names. -/
def SignatureSuite.parse (s : String) : SignatureSuite :=
  if s = "ed25519" then .ed25519 else .other s

/-- Split at the first colon, if there is one. -/
def splitColon (s : String) : Option (String × String) :=
  let before := s.toList.takeWhile (· ≠ ':')
  if ':' ∈ s.toList then
    some (String.ofList before, String.ofList (s.toList.drop (before.length + 1)))
  else none

/-- Parse `@[suite:]name`; an omitted suite is `ed25519`. -/
def KeyId.parse (spelling : String) : Except KeyIdError KeyId := do
  let some rest := stripStart "@" spelling | throw .missingSigil
  let (suite, name) ← match splitColon rest with
    | some (s, n) => if s = "" then throw .emptySuite else pure (SignatureSuite.parse s, n)
    | none => pure (SignatureSuite.ed25519, rest)
  if name = "" then throw .emptyName
  return ⟨suite, name⟩

/-- The sender of a simple message. -/
def sender : Message → Option String
  | .simple _ _ _ _ _ sender _ => sender
  | _ => none

-- ── Choice points and obligations ────

/-- The node references of a protocol, step by step. -/
def nodeRefs (cp : CausalProtocol) : List NodeRef :=
  (CbclTreeMap.valuesOf cp.steps).flatMap fun step => step.predecessors ++ step.successors

/-- The choice point of a node reference: an `any` set with at least two names besides
    `begin`. -/
def choicePoint : NodeRef → Option (BTreeSet String)
  | .any set =>
      let named := set.filter (· ≠ BEGIN_KEYWORD)
      if 2 ≤ named.size then some named else none
  | _ => none

local instance : LawfulBEq (BTreeSet String) := inferInstance

/-- The choice points of a protocol, each once. -/
def anyChoiceSets (cp : CausalProtocol) : List (BTreeSet String) :=
  ((nodeRefs cp).filterMap choicePoint).foldl
    (fun sets named => if named ∈ sets then sets else sets ++ [named]) []

/-- Every performative name a protocol constrains, `begin` excepted. -/
def protocolPerformatives (cp : CausalProtocol) : BTreeSet String :=
  cp.steps.foldl (fun names name step =>
    ((step.predecessors ++ step.successors).flatMap NodeRef.performatives).foldl
      (fun names p => if p ≠ BEGIN_KEYWORD then names.insert p else names)
      (if name ≠ BEGIN_KEYWORD then names.insert name else names)) ∅

-- ── The predicate over a store ────

/-- Which clause a conflicting pair satisfies. -/
inductive EquivocationKind where
  | choice (alternatives : BTreeSet String)
  | obligation (performative : String)
deriving DecidableEq

/-- The conflict of two performatives under a protocol, if they conflict. -/
def conflictKind (cp : CausalProtocol) (p₁ p₂ : String) : Option EquivocationKind :=
  if p₁ = p₂ then
    if p₁ ∈ protocolPerformatives cp then some (.obligation p₁) else none
  else
    ((anyChoiceSets cp).find? fun set => p₁ ∈ set ∧ p₂ ∈ set).map .choice

/-- The convicted key, the thread, the clause and the pair as stored. -/
structure EquivocationEvidence where
  key : KeyId
  thread : ThreadId
  kind : EquivocationKind
  first : ContentHash × Message
  second : ContentHash × Message

/-- The messages of a thread in the order of their hashes, read through the closures of the
    frontier. -/
def threadMessages (store : ThreadedMessageStore) (thread : ThreadId) :
    List (ContentHash × Message) :=
  let hashes := ((frontier store thread).flatMap fun leaf =>
    causalClosure store leaf thread).foldl (·.insert ·) (∅ : BTreeSet ContentHash)
  hashes.toList.filterMap fun h => (store.lookupInThread h thread).map fun m => (h, m)

/-- A message of the accused key, with its hash and its performative. -/
structure OwnedMessage where
  hash : ContentHash
  performative : String
  message : Message

/-- A stored message as one of the key's, when its innermost sender is that key. -/
def ownedMessage (key : KeyId) (entry : ContentHash × Message) : Option OwnedMessage := do
  let simple ← entry.2.innermostSimple
  let spelling ← sender simple
  match KeyId.parse spelling with
  | .error _ => none
  | .ok sender_id =>
      if sender_id = key then
        let perf ← simple.performative
        return ⟨entry.1, perf.name, entry.2⟩
      else none

/-- The first pair of a list, in the order of the two nested loops, that a test takes. -/
def firstPair {α κ : Type} (kind : α → α → Option κ) : List α → Option (α × α × κ)
  | [] => none
  | x :: rest =>
      match rest.findSome? fun y => (kind x y).map fun k => (x, y, k) with
      | some found => some found
      | none => firstPair kind rest

/-- Evidence that a key equivocated in a thread, if the store holds some. -/
def equivocation (key : KeyId) (thread : ThreadId) (store : ThreadedMessageStore)
    (dialect : Dialect) : Option EquivocationEvidence := do
  let cp ← dialect.causal_protocol
  let owned := (threadMessages store thread).filterMap (ownedMessage key)
  let (a, b, kind) ← firstPair (fun a b => conflictKind cp a.performative b.performative) owned
  return ⟨key, thread, kind, (a.hash, a.message), (b.hash, b.message)⟩

-- ── The transferable proof ────

/-- One member of a proof: a signed message or an envelope of one. -/
inductive ProofMember where
  | signedMessage (message : Message) (signature : Octets)
  | envelope (e : RedactedEnvelope)
  | openedEnvelope (e : OpenedEnvelope)

/-- The transferable proof object. -/
structure EquivocationProof where
  key : KeyId
  thread : String
  dialect_hash : String
  first : ProofMember
  second : ProofMember

/-- What is wrong with the structure of a member. -/
inductive MemberDefect where
  | notSimple
  | missingSender
  | senderSpelling (e : KeyIdError)
  | missingThread
  | recipientSpelling (e : KeyIdError)
deriving DecidableEq

/-- Rejections of a proof, with the index of the member at fault. -/
inductive EquivocationProofError where
  | dialectUnhashed
  | dialectHashMismatch (pinned installed : String)
  | malformedMember (member : Nat) (defect : MemberDefect)
  | keyMismatch (member : Nat)
  | threadMismatch (member : Nat)
  | identicalMembers
  | signature (member : Nat) (error : AttestError)
  | compatiblePair (first second : String)
deriving DecidableEq

/-- Sign the attestation of a header. -/
def signAttestationV2 (signer : Signer) (header : AttestationHeader) :
    Except AttestError Octets :=
  match header.from.suite with
  | .ed25519 => .ok (signer.sign (attestationPreimage header))
  | .other s => .error (.unknownSuite s)

/-- The keys of some recipients; the first malformed spelling is the error. -/
def recipientKeys : List String → BTreeSet KeyId → Except MemberDefect (BTreeSet KeyId)
  | [], keys => .ok keys
  | r :: rest, keys =>
      match KeyId.parse r with
      | .error e => .error (.recipientSpelling e)
      | .ok k => recipientKeys rest (keys.insert k)

section Digests

variable (sha256 : Octets → Digest)

/-- The attestation header of a full message. -/
def attestationHeaderFor (message : Message) : Except MemberDefect AttestationHeader := do
  match message with
  | .simple performative recipient content params thread sender caused_by =>
      let some sender := sender | throw .missingSender
      let «from» ← match KeyId.parse sender with
        | .ok k => pure k
        | .error e => throw (.senderSpelling e)
      let some thread := thread | throw .missingThread
      let «to» ← recipientKeys (Message.recipientSet message).toList ∅
      return ⟨typedRoot sha256 message, performative.name, «from», «to», thread, caused_by⟩
  | _ => throw .notSimple

/-- A member that passed its checks. -/
structure CheckedMember where
  performative : String
  content_hash : String
deriving DecidableEq

/-- The sender spelling an opened envelope discloses. -/
def fromSpelling (e : OpenedEnvelope) : Option String := do
  match (← e.opening .«from»).value with
  | .list [.atom (.symbol s)] => some s
  | .list [.atom (.str s)] => some s
  | _ => none

/-- The checks of an opened envelope as a member. -/
def checkOpenedMember (env : OpenedEnvelope) (index : Nat) (proof : EquivocationProof)
    (signer : Signer) : Except EquivocationProofError CheckedMember := do
  let some from_spelling := fromSpelling env | throw (.malformedMember index .missingSender)
  let «from» ← match KeyId.parse from_spelling with
    | .ok k => pure k
    | .error e => throw (.malformedMember index (.senderSpelling e))
  if «from» ≠ proof.key then throw (.keyMismatch index)
  let some thread := openedThread env | throw (.malformedMember index .missingThread)
  if thread ≠ proof.thread then throw (.threadMismatch index)
  match verifyOpened sha256 env signer with
  | .ok () => pure ()
  | .error (.attestation a) => throw (.signature index a)
  | .error _ => throw (.signature index .invalidSignature)
  let some performative := env.performative | throw (.malformedMember index .notSimple)
  return ⟨performative, env.root⟩

/-- The checks of a header with its signature: key, thread, then the signature. -/
def checkHeader (header : AttestationHeader) (signature : Octets) (index : Nat)
    (proof : EquivocationProof) (signer : Signer) :
    Except EquivocationProofError CheckedMember :=
  if header.from ≠ proof.key then .error (.keyMismatch index)
  else if header.thread ≠ proof.thread then .error (.threadMismatch index)
  else
    match verifyAttestationV2 signer proof.key header signature with
    | .error error => .error (.signature index error)
    | .ok () => .ok ⟨header.performative, header.content_hash⟩

/-- The checks of a member, by its class. -/
def checkMember (member : ProofMember) (index : Nat) (proof : EquivocationProof)
    (signer : Signer) : Except EquivocationProofError CheckedMember :=
  match member with
  | .signedMessage message signature =>
      match attestationHeaderFor sha256 message with
      | .error defect => .error (.malformedMember index defect)
      | .ok header => checkHeader header signature index proof signer
  | .envelope e => checkHeader e.header e.signature index proof signer
  | .openedEnvelope env => checkOpenedMember sha256 env index proof signer

/-- Whether two performatives conflict under the protocol of a dialect. -/
def conflicting (dialect : Dialect) (p₁ p₂ : String) : Bool :=
  match dialect.causal_protocol with
  | none => false
  | some cp =>
      if p₁ = p₂ then decide (p₁ ∈ protocolPerformatives cp)
      else (anyChoiceSets cp).any fun set => decide (p₁ ∈ set ∧ p₂ ∈ set)

/-- Verify a proof from its pair and the pinned dialect; the convicted key on success. -/
def verifyEquivocationProof (proof : EquivocationProof) (dialect : Dialect) (signer : Signer) :
    Except EquivocationProofError KeyId := do
  let some installed := dialect.hash | throw .dialectUnhashed
  if installed ≠ proof.dialect_hash then
    throw (.dialectHashMismatch proof.dialect_hash installed)
  let a ← checkMember sha256 proof.first 0 proof signer
  let b ← checkMember sha256 proof.second 1 proof signer
  if a.content_hash = b.content_hash then throw .identicalMembers
  if !conflicting dialect a.performative b.performative then
    throw (.compatiblePair a.performative b.performative)
  return proof.key

end Digests

end CbclEquivocation
