import Cbcl.R7Model
import Cbcl.EnvelopeModel

/-!
# Installing dialects

The registry takes a dialect by one of two routes (`dialect.rs`).  `install` checks R1, R2, the
protocol's expansion budget, R3, R5 against the installed ancestors, R6 and R7, and records the
content hash; `install_with_signer` runs its own list of checks and adds the signature (`r4.rs`).
Under `derive` mode the failures of causal locality become a table of envelope routes (`r6.rs`).
-/

namespace CbclInstall

open CbclMessage CbclProtocol CbclShape CbclDialect CbclDialectCanonical CbclR7 CbclCanonical
  CbclTypedAddr CbclTreeMap
open CbclRole hiding Dialect PerformativeDef

/-- Why an installation is refused. -/
inductive DialectInstallError where
  | r1Violation (dialect_name : String) (recursive : List String)
  | r2Violation (dialect_name : String)
  | r2ProtocolBudgetExceeded (dialect_name : String) (expanded_steps budget : UInt32)
  | r3Violation (dialect_name : String) (redefined : List String)
  | r4Violation (dialect_name : String)
  | r5Violation (dialect_name : String) (shape_errors : List String)
  | r6Violation (dialect_name : String) (violations : List R6Violation)
  | r7Violation (dialect_name : String) (violations : List R7Violation)
deriving DecidableEq

/-- Refuse with an error under a condition. -/
def refuseIf (c : Prop) [Decidable c] (e : DialectInstallError) : Except DialectInstallError Unit :=
  if c then .error e else .ok ()

/-- Bounds are positive and below their limits. -/
def isValid (b : ResourceBounds) : Bool :=
  b.max_depth > 0 && b.max_depth ≤ 64 && b.max_expansion_size > 0 &&
    b.max_expansion_size ≤ 8192 && b.verification_time_ms > 0 && b.verification_time_ms ≤ 1000

/-- The steps of a protocol other than `begin`. -/
def expansionSize (p : CausalProtocol) : UInt32 :=
  let n := (p.steps.keys.filter (· ≠ BEGIN_KEYWORD)).length
  if n < UInt32.size then UInt32.ofNat n else 0xffffffff

/-- The step count of a protocol is within the expansion budget. -/
def checkProtocolExpansionBudget (d : Dialect) : Except DialectInstallError Unit :=
  match d.causal_protocol with
  | none => .ok ()
  | some cp =>
      refuseIf (expansionSize cp ≥ d.resources.max_expansion_size)
        (.r2ProtocolBudgetExceeded d.name (expansionSize cp) d.resources.max_expansion_size)

/-- The installed dialects a dialect extends; `cbcl` stands for the base dialect. -/
def resolveAncestors (r : DialectRegistry) (d : Dialect) : List Dialect :=
  d.extends.filterMap fun name => r.findByName (if name = "cbcl" then "cbcl-base" else name)

-- ── Envelope routes ────

/-- The routes missing under the routes so far: a predecessor and a role that does not see it. -/
def missingRoutes (d : Dialect) (cp : CausalProtocol)
    (routes : BTreeMap String (BTreeSet String)) : List (String × String) :=
  let annotations := d.roleLayer.annotations
  (valuesOf cp.steps).flatMap fun step =>
    if step.performative = BEGIN_KEYWORD then []
    else match annotations[repeatBaseName step.performative]? with
      | none => []
      | some t_ann =>
          let t_endpoints := (((routes[step.performative]?).getD ∅).toList).foldl (·.insert ·)
            (endpoints t_ann)
          (step.predecessors.flatMap NodeRef.performatives).flatMap fun pred =>
            if pred = BEGIN_KEYWORD then []
            else match annotations[repeatBaseName pred]? with
              | none => []
              | some p_ann =>
                  (t_endpoints.toList.filter fun role =>
                    role ∉ endpoints p_ann && role ∉ (routes[pred]?).getD ∅).map (pred, ·)

/-- Passes until no route is missing; each pass but the last adds one. -/
def routePasses (d : Dialect) (cp : CausalProtocol) :
    Nat → BTreeMap String (BTreeSet String) → BTreeMap String (BTreeSet String)
  | 0, routes => routes
  | fuel + 1, routes =>
      match missingRoutes d cp routes with
      | [] => routes
      | frontier => routePasses d cp fuel (frontier.foldl (fun routes (pred, role) =>
          routes.insert pred (((routes[pred]?).getD ∅).insert role)) routes)

/-- The envelope routes that make the predecessors of every step visible to its endpoints.  Each
    added route is a predecessor of the protocol and an endpoint role, which bounds the passes. -/
def deriveEnvelopeRoutes (d : Dialect) : BTreeMap String (BTreeSet String) :=
  match d.causal_protocol with
  | none => ∅
  | some cp =>
      let preds := ((valuesOf cp.steps).flatMap fun s =>
        s.predecessors.flatMap NodeRef.performatives).length
      let roles := ((valuesOf d.roleLayer.annotations).map fun a => (endpoints a).size).sum
      routePasses d cp (preds * roles + 1) ∅

/-- Whether a violation is a failure of causal locality. -/
def isLocality : R6Violation → Bool
  | .notCausallyLocal .. => true
  | _ => false

/-- The R6 gate: every violation refuses, except that in `derive` mode the failures of locality
    become routes. -/
def applyR6 (d : Dialect) : Except DialectInstallError Dialect :=
  let r6 := r6Violations d.roleLayer
  match d.causal_locality with
  | .derive _ =>
      let violations := r6.filter fun v => !isLocality v
      if violations ≠ [] then .error (.r6Violation d.name violations)
      else .ok { d with causal_locality := .derive (deriveEnvelopeRoutes d) }
  | .reject => if r6 ≠ [] then .error (.r6Violation d.name r6) else .ok d

-- ── Signatures ────

/-- The verdict on a signature. -/
inductive R4Result where
  | valid | unsigned | invalid
deriving DecidableEq

/-- Check the signature of a dialect over its signing octets. -/
def checkR4 (d : Dialect) (signer : CbclEnvelope.Signer) : R4Result :=
  match d.signature with
  | none => .unsigned
  | some sig => if signer.verify (dialectCanonicalBytes d) sig then .valid else .invalid

-- ── The two routes ────

section Hashing

variable (sha256 : Octets → Digest)

/-- Record the content hash unless one is declared. -/
def ensureHash (d : Dialect) : Dialect :=
  match d.hash with
  | some _ => d
  | none => { d with hash := some (dialectHash sha256 d) }

/-- Install a dialect after R1, R2, R3, R5, R6 and R7. -/
def install (r : DialectRegistry) (d : Dialect) : Except DialectInstallError DialectRegistry := do
  refuseIf (r1Violations d ≠ []) (.r1Violation d.name (r1Violations d))
  refuseIf (isValid d.resources = false) (.r2Violation d.name)
  checkProtocolExpansionBudget d
  refuseIf (r3Violations d ≠ []) (.r3Violation d.name (r3Violations d))
  let r5 := r5ViolationsWithAncestors d (resolveAncestors r d)
  refuseIf (r5 ≠ []) (.r5Violation d.name r5)
  let d ← applyR6 d
  let r7 := r7Violations sha256 d
  refuseIf (r7 ≠ []) (.r7Violation d.name r7)
  return r.push (ensureHash sha256 d)

/-- Install a dialect after R1 to R6 and its signature; unsigned is accepted. -/
def installWithSigner (r : DialectRegistry) (d : Dialect) (signer : CbclEnvelope.Signer) :
    Except DialectInstallError (R4Result × DialectRegistry) := do
  refuseIf (r1Violations d ≠ []) (.r1Violation d.name (r1Violations d))
  refuseIf (isValid d.resources = false) (.r2Violation d.name)
  checkProtocolExpansionBudget d
  refuseIf (r3Violations d ≠ []) (.r3Violation d.name (r3Violations d))
  let r5 := r5ViolationsWithAncestors d (resolveAncestors r d)
  refuseIf (r5 ≠ []) (.r5Violation d.name r5)
  let d ← applyR6 d
  let r4 := checkR4 d signer
  refuseIf (r4 = .invalid) (.r4Violation d.name)
  return (r4, r.push (ensureHash sha256 d))

/-- A call that installs. -/
inductive Call where
  | install (d : Dialect)
  | installWithSigner (d : Dialect) (signer : CbclEnvelope.Signer)

/-- The dialect a call offers. -/
def Call.dialect : Call → Dialect
  | .install d => d
  | .installWithSigner d _ => d

/-- Perform a call: the error, if any, and the registry after it. -/
def perform (r : DialectRegistry) : Call → Option DialectInstallError × DialectRegistry
  | .install d =>
      match install sha256 r d with
      | .ok r' => (none, r')
      | .error e => (some e, r)
  | .installWithSigner d signer =>
      match installWithSigner sha256 r d signer with
      | .ok (_, r') => (none, r')
      | .error e => (some e, r)

/-- The registry after some calls. -/
def performAll (r : DialectRegistry) (calls : List Call) : DialectRegistry :=
  calls.foldl (fun r call => (perform sha256 r call).2) r

end Hashing

end CbclInstall
