import Cbcl.TypedAddrModel

/-!
# Attestations and envelopes

What a key holder signs about a message without sending it (`attest.rs`, `envelope.rs`).  A
redacted envelope carries the header of a message and a signature over the whole header; an
opened envelope carries a typed address, a signature over the address alone, and openings of
single fields against it.  Verification never sees the message.
-/

namespace CbclEnvelope

open CbclMessage CbclCanonical CbclRecogniser CbclTypedAddr

-- ── Keys ────

/-- A signature suite. -/
inductive SignatureSuite where
  | ed25519
  | other (s : String)
deriving DecidableEq

/-- The name of a suite as it stands in attestations. -/
def SignatureSuite.asStr : SignatureSuite → String
  | .ed25519 => "ed25519"
  | .other s => s

/-- The rank of a suite: the default suite, then the others by name. -/
def SignatureSuite.rank : SignatureSuite → Option String
  | .ed25519 => none
  | .other s => some s

/-- A canonical key identity. -/
structure KeyId where
  suite : SignatureSuite
  name : String
deriving DecidableEq

/-- The canonical spelling of a key, with its suite. -/
def KeyId.canonicalSpelling (k : KeyId) : String := "@" ++ k.suite.asStr ++ ":" ++ k.name

/-- Keys are ordered by suite, then by name. -/
instance : Ord KeyId := ⟨compareOn fun k => (k.suite.rank, k.name)⟩

instance : Std.TransOrd KeyId := inferInstanceAs
  (Std.TransCmp (compareOn fun k : KeyId => (k.suite.rank, k.name)))

-- ── Attestations ────

/-- The header a signature commits to. -/
structure AttestationHeader where
  content_hash : String
  performative : String
  «from» : KeyId
  «to» : BTreeSet KeyId
  thread : String
  caused_by : Option CausedBy

/-- The S-expression of a header, headed by the domain tag. -/
def attestationSexpr (h : AttestationHeader) : SExpr :=
  .list ([.atom (.symbol "cbcl-attest-v2"), .atom (.symbol h.from.suite.asStr),
      .atom (.symbol h.content_hash), .atom (.symbol h.performative),
      .atom (.symbol h.from.canonicalSpelling),
      .list (symbols (h.to.toList.map KeyId.canonicalSpelling)), .atom (.str h.thread)]
    ++ (h.caused_by.map causedBySexpr).toList)

/-- The octets signed for a header. -/
def attestationPreimage (h : AttestationHeader) : Octets := encode (attestationSexpr h)

/-- The S-expression of a commitment to a typed root. -/
def attestationV3Sexpr (suite : SignatureSuite) (root : String) : SExpr :=
  .list [.atom (.symbol "cbcl-attest-v3"), .atom (.symbol suite.asStr), .atom (.symbol root)]

/-- The octets signed for a typed root. -/
def attestationV3Preimage (suite : SignatureSuite) (root : String) : Octets :=
  encode (attestationV3Sexpr suite root)

/-- A signer: it signs octets and verifies signatures over them. -/
structure Signer where
  sign : Octets → Octets
  verify : Octets → Octets → Bool

/-- Rejections of the attestation paths. -/
inductive AttestError where
  | unknownSuite (s : String)
  | keyMismatch
  | invalidSignature
deriving DecidableEq

/-- Verify a signature over a header: the suites, the key, then the signature. -/
def verifyAttestationV2 (signer : Signer) (key : KeyId) (header : AttestationHeader)
    (sig : Octets) : Except AttestError Unit :=
  match header.from.suite, key.suite with
  | .other s, _ => .error (.unknownSuite s)
  | .ed25519, .other s => .error (.unknownSuite s)
  | .ed25519, .ed25519 =>
      if key ≠ header.from then .error .keyMismatch
      else if signer.verify (attestationPreimage header) sig then .ok ()
      else .error .invalidSignature

/-- Verify a signature over a typed root. -/
def verifyAttestationV3 (suite : SignatureSuite) (root : String) (sig : Octets)
    (signer : Signer) : Except AttestError Unit :=
  match suite with
  | .other s => .error (.unknownSuite s)
  | .ed25519 =>
      if signer.verify (attestationV3Preimage suite root) sig then .ok ()
      else .error .invalidSignature

-- ── Redacted envelopes ────

/-- A redacted envelope: a header and a signature over it. -/
structure RedactedEnvelope where
  header : AttestationHeader
  signature : Octets

/-- Verify an envelope from its own fields. -/
def RedactedEnvelope.verify (e : RedactedEnvelope) (signer : Signer) : Except AttestError Unit :=
  verifyAttestationV2 signer e.header.from e.header e.signature

/-- A native content address `sha256:<hex64>`. -/
def isContentHash (s : String) : Bool :=
  match stripStart "sha256:" s with
  | some hex => isHex64 hex
  | none => false

/-- The hash an atom of a causal reference spells. -/
def causedRefHash : SExpr → Option String
  | .atom (.symbol s) => if isContentHash s then some s else none
  | .atom (.str s) => if isContentHash s then some s else none
  | _ => none

/-- Recognise the causal reference of an envelope; several hashes are sorted. -/
def parseCausedRef : SExpr → Option CausedBy
  | .atom (.symbol s) =>
      if s = BEGIN_KEYWORD then some .begin
      else (causedRefHash (.atom (.symbol s))).map .single
  | .atom a => (causedRefHash (.atom a)).map .single
  | .list [] => none
  | .list items =>
      (items.mapM causedRefHash).map fun hashes => .multiple (hashes.insertionSort (· ≤ ·))

-- ── Opened envelopes ────

/-- An opened envelope: a typed root, a signature over it, and openings against it. -/
structure OpenedEnvelope where
  root : String
  suite : SignatureSuite
  signature : Octets
  openings : List Opening

namespace OpenedEnvelope

/-- The opening of a field, if the envelope discloses it. -/
def opening (e : OpenedEnvelope) (field : FieldId) : Option Opening :=
  e.openings.find? (·.field = field)

/-- The authenticated performative; `none` when sealed or malformed. -/
def performative (e : OpenedEnvelope) : Option String := do
  match (← e.opening .performative).value with
  | .atom (.symbol s) => some s
  | _ => none

/-- The authenticated causal reference; an authenticated absence is `some none`. -/
def causalReference (e : OpenedEnvelope) : Option (Option CausedBy) := do
  match (← e.opening .causedBy).value with
  | .list [] => some none
  | .list [item] => (parseCausedRef item).map some
  | _ => none

end OpenedEnvelope

/-- Rejections of opened envelopes. -/
inductive OpenedError where
  | attestation (e : AttestError)
  | openingFailed (field : FieldId)
  | missingField (field : FieldId)
deriving DecidableEq

/-- Verify an opened envelope: the signature over the root, then every opening against it. -/
def verifyOpened (sha256 : Octets → Digest) (env : OpenedEnvelope) (signer : Signer) :
    Except OpenedError Unit :=
  match verifyAttestationV3 env.suite env.root env.signature signer with
  | .error e => .error (.attestation e)
  | .ok () =>
      match env.openings.find? fun op => !verifyOpening sha256 env.root op.field op.value op with
      | some op => .error (.openingFailed op.field)
      | none => .ok ()

end CbclEnvelope
