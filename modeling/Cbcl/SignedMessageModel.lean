import Cbcl.CodecModel
import Cbcl.ActModel
import Cbcl.EquivocationModel

/-!
# Signed messages

A host keeps the messages it has authenticated as they were written (`certificate.rs`,
`codec.rs`).  `authenticate` bounds a message before it encodes it: the depth and number of its
parts, and the octets of their texts.  `decode` reads a record back.

What the host knows of signatures is the parameter `verify`; the address of a message is the
parameter `contentHash`, as for acts.  The octet counts of the source saturate; they are plain
numbers here, as both refuse a count above the bound.
-/

namespace CbclSigned

open CbclMessage CbclCanonical CbclTypedAddr CbclCodec CbclRecogniser CbclAct CbclEnvelope
open CbclEquivocation (KeyId.parse sender)

/-- The octets a message and its record may have. -/
def MAX_OCTETS : Nat := 256 * 1024

/-- The nodes a message may have, and the items of one of its lists. -/
def MAX_NODES : Nat := 32768

-- ── Bounds ────

/-- What has been counted of a message, and the expressions to be counted, with their depths; the
    one pushed last is the first to be counted. -/
structure Count where
  expressions : List (SExpr × Nat)
  bytes : Nat
  nodes : Nat

/-- The octets of an optional string. -/
def optionOctets (s : Option String) : Nat := ((s.map fun s => (octets s).length)).getD 0

/-- The octets of some strings. -/
def stringsOctets (ss : List String) : Nat := (ss.map fun s => (octets s).length).sum

/-- The octets of a recipient position. -/
def boundRecipients : Option Recipients → Except Error Nat
  | some (.one s) => .ok (octets s).length
  | some (.set ss) => if ss.size > 512 then .error .budget else .ok (stringsOctets ss.toList)
  | none => .ok 0

/-- The octets of a causal reference. -/
def boundCauses : Option CausedBy → Except Error Nat
  | some (.single s) => .ok (octets s).length
  | some (.multiple ss) =>
      if ss.length > 256 then .error .budget else .ok (stringsOctets ss)
  | _ => .ok 0

/-- Expressions at one depth, on top of others. -/
def pushAt (depth : Nat) (xs : List SExpr) (todo : List (SExpr × Nat)) : List (SExpr × Nat) :=
  (xs.map fun x => (x, depth)).reverse ++ todo

/-- Count the layers of a message, from a depth on. -/
def boundLayers : Message → Nat → Count → Except Error Count
  | .simple _ recipient content params thread sender caused_by, d, c =>
      if d > 64 then .error .budget
      else if params.length > MAX_NODES then .error .budget
      else do
        let recipients ← boundRecipients recipient
        let causes ← boundCauses caused_by
        return ⟨pushAt d (content :: params) c.expressions,
          c.bytes + optionOctets thread + optionOctets sender + recipients + causes, c.nodes + 1⟩
  | .metaDef dialect_def, d, c =>
      if d > 64 then .error .budget
      else .ok ⟨pushAt d [dialect_def] c.expressions, c.bytes, c.nodes + 1⟩
  | .dialect dialect_name inner, d, c =>
      if d > 64 then .error .budget
      else boundLayers inner (d + 1)
        ⟨c.expressions, c.bytes + (octets dialect_name).length, c.nodes + 1⟩
  | .wrapped _ params content, d, c =>
      if d > 64 then .error .budget
      else if params.length > MAX_NODES then .error .budget
      else boundLayers content (d + 1) ⟨pushAt d params c.expressions, c.bytes, c.nodes + 1⟩

/-- The octets counted for an atom. -/
def atomOctets : Atom → Nat
  | .symbol s => (octets s).length
  | .keyword s => (octets s).length
  | .str s => (octets s).length
  | _ => 32

/-- Count the expressions.  Each counts as a node, and the loop ends at the bound on nodes, which
    the first argument is above. -/
def boundExpressions : Nat → Count → Except Error Count
  | 0, _ => .error .budget
  | _ + 1, ⟨[], bytes, nodes⟩ => .ok ⟨[], bytes, nodes⟩
  | bound + 1, ⟨(x, d) :: todo, bytes, nodes⟩ =>
      if d > 64 then .error .budget
      else
        let counted : Except Error Count := match x with
          | .list xs =>
              if xs.length > MAX_NODES then .error .budget
              else .ok ⟨pushAt (d + 1) xs todo, bytes, nodes + 1⟩
          | .atom a => .ok ⟨todo, bytes + atomOctets a, nodes + 1⟩
        match counted with
        | .error e => .error e
        | .ok c =>
            if c.nodes > MAX_NODES ∨ c.bytes > MAX_OCTETS then .error .budget
            else boundExpressions bound c

/-- Refuse a message that is too deep or too large. -/
def boundedMessage (m : Message) : Except Error Unit := do
  let c ← boundLayers m 0 ⟨[], 0, 0⟩
  let c ← boundExpressions (MAX_NODES + 2) c
  if c.bytes > MAX_OCTETS ∨ c.nodes > MAX_NODES then .error .budget else .ok ()

-- ── Records ────

/-- The octets of a message. -/
def messageBytes (m : Message) : Octets := encode (toSExpr m)

/-- Read a message back; anything but its canonical octets is refused. -/
def decodeMessage (os : Octets) : Except Error Message :=
  if os.length > MAX_OCTETS then .error .budget
  else do
    let x ← decodeSexpr os MAX_OCTETS
    match tryFrom x with
    | .error _ => .error (.invalid "native message grammar")
    | .ok m =>
        if messageBytes m ≠ os then .error (.invalid "noncanonical message fields") else .ok m

-- ── Signatures ────

/-- The value of a lower-case hexadecimal digit. -/
def hexDigitValue (c : UInt8) : Except Error UInt8 :=
  if ascii '0' ≤ c ∧ c ≤ ascii '9' then .ok (c - ascii '0')
  else if ascii 'a' ≤ c ∧ c ≤ ascii 'f' then .ok (c - ascii 'a' + 10)
  else .error (.invalid "hex")

/-- The octets of pairs of digits. -/
def unhexPairs : Octets → Except Error Octets
  | a :: b :: rest => do
      let high ← hexDigitValue a
      let low ← hexDigitValue b
      return (high * 16 + low) :: (← unhexPairs rest)
  | _ => .ok []

/-- Octets from their hexadecimal digits. -/
def unhex (s : String) : Except Error Octets :=
  if (octets s).length % 2 ≠ 0 ∨ (octets s).length > 4096 then .error (.invalid "hex")
  else unhexPairs (octets s)

/-- Whether a message is a wrapper. -/
def isWrapped : Message → Bool
  | .wrapped .. => true
  | _ => false

/-- Take the signature out of a message: what was signed, the key and the signature. -/
def signatureParts : Message → Except Error (Message × String × Octets)
  | .wrapped .withRoles params content => do
      let (u, k, s) ← signatureParts content
      return (.wrapped .withRoles params u, k, s)
  | .wrapped .signed [.atom (.symbol key), .atom (.str sig)] content =>
      match KeyId.parse key with
      | .error _ => .error (.invalid "key")
      | .ok kid =>
          if kid.suite ≠ .ed25519 then .error .unsupported
          else if isWrapped content then .error (.invalid "nested signature wrapper")
          else do
            let sig ← unhex sig
            return (.wrapped .signed [.atom (.symbol key)] content, key, sig)
  | .wrapped .signed _ _ => .error (.invalid "native signed wrapper")
  | _ => .error (.invalid "unsigned native message")

/-- The first text that follows the keyword of the sender. -/
def fromText : List SExpr → Option String
  | x :: y :: rest =>
      if x = .atom (.keyword "from") then
        match y with
        | .atom (.symbol s) => some s
        | .atom (.str s) => some s
        | _ => fromText (y :: rest)
      else fromText (y :: rest)
  | _ => none

/-- The signed sender is the key that signed. -/
def checkSender (simple : Message) (key : String) (a : Act) : Except Error Unit :=
  if sender simple ≠ some key ∧ a.fields["from"]? ≠ some (.atom (.symbol key)) then
    match simple with
    | .simple _ _ _ params _ _ _ =>
        if fromText params ≠ some key then .error (.invalid "signed sender mismatch") else .ok ()
    | _ => .error (.invalid "simple")
  else .ok ()

/-- A message as a host keeps it. -/
structure SignedMessage where
  message : Message
deriving DecidableEq

namespace SignedMessage

/-- The record of a message. -/
def encode (m : SignedMessage) : Octets := messageBytes m.message

/-- Read a record back. -/
def decode (os : Octets) : Except Error SignedMessage := do return ⟨← decodeMessage os⟩

/-- Check the signature of a message, and view it as an act of its signer. -/
def signedAct (contentHash : Message → String) (verify : String → Octets → Octets → Bool)
    (m : Message) : Except Error Act := do
  let (unsigned, key, sig) ← signatureParts m
  if !verify key (messageBytes unsigned) sig then .error (.invalid "native signature")
  else match Act.fromMessage contentHash m key with
    | .error _ => .error (.invalid "act")
    | .ok a =>
        match m.innermostSimple with
        | none => .error (.invalid "simple")
        | some simple => do
            checkSender simple key a
            return a

/-- Check the bounds and the signature of a message. -/
def authenticate (contentHash : Message → String) (verify : String → Octets → Octets → Bool)
    (m : SignedMessage) : Except Error Act := do
  boundedMessage m.message
  if m.encode.length > MAX_OCTETS then .error .budget
  else signedAct contentHash verify m.message

end SignedMessage

end CbclSigned
