import Cbcl.CanonicalModel
import Cbcl.RecogniserModel
import Cbcl.MerkleProofs

/-!
# Typed content addresses

`typed_addr.rs` addresses a message by a Merkle root over six fields.  A leaf hashes a zero
octet and the canonical list of the field's tag and value; an inner node hashes a one octet
and two digests.  An opening reveals one field with the digests on its way to the root.

SHA-256 is the parameter `sha256`; its digests are thirty-two octets.
-/

namespace CbclTypedAddr

open CbclMessage CbclCanonical CbclRecogniser CbclMerkle

/-- A digest. -/
abbrev Digest := Vector UInt8 32

def LEAF_PREFIX : UInt8 := 0x00

def NODE_PREFIX : UInt8 := 0x01

/-- The openable fields, in their fixed order. -/
inductive FieldId where
  | performative
  | «from»
  | «to»
  | causedBy
  | thread
  | payload
deriving DecidableEq

/-- The tag of a field. -/
def FieldId.domainTag : FieldId → String
  | .performative => "cbcl-taddr-v1/field-0-performative"
  | .«from» => "cbcl-taddr-v1/field-1-from"
  | .«to» => "cbcl-taddr-v1/field-2-to"
  | .causedBy => "cbcl-taddr-v1/field-3-caused-by"
  | .thread => "cbcl-taddr-v1/field-4-thread"
  | .payload => "cbcl-taddr-v1/field-5-payload"

/-- A field opened: its value and the sibling digests up to the root. -/
structure Opening where
  field : FieldId
  value : SExpr
  path : List (Digest × Side)

/-- An optional field: a list of one item, or the empty list. -/
def opt : Option SExpr → SExpr
  | some v => .list [v]
  | none => .list []

/-- The S-expression of a field of a message. -/
def fieldSexpr : Message → FieldId → SExpr
  | .simple performative recipient content params thread sender caused_by, id =>
      match id with
      | .performative => .atom (.symbol performative.name)
      | .«from» => opt (sender.map fun s => .atom (.str s))
      | .«to» => .list (symbols
          (Message.recipientSet (.simple performative recipient content params thread sender
            caused_by)).toList)
      | .causedBy => opt (caused_by.map causedBySexpr)
      | .thread => opt (thread.map fun t => .atom (.str t))
      | .payload => .list (content :: params)
  | other, id =>
      match id with
      | .payload => .list [toSExpr other]
      | .performative =>
          match other with
          | .metaDef _ => .atom (.symbol "meta")
          | .dialect .. => .atom (.symbol "lang")
          | .wrapped wrapper .. => .atom (.symbol (wrapperName wrapper))
          | .simple .. => .list []
      | _ => .list []

/-- The octets hashed for a leaf. -/
def leafInput (id : FieldId) (value : SExpr) : Octets :=
  [LEAF_PREFIX, ascii '('] ++ encodeSymbol id.domainTag ++ encode value ++ [ascii ')']

/-- The octets hashed for an inner node. -/
def nodeInput (left right : Digest) : Octets := [NODE_PREFIX] ++ left.toList ++ right.toList

section Hashing

variable (sha256 : Octets → Digest)

/-- The digest of a leaf. -/
def leafHash (id : FieldId) (value : SExpr) : Digest := sha256 (leafInput id value)

/-- The digest of an inner node. -/
def nodeHash (left right : Digest) : Digest := sha256 (nodeInput left right)

/-- The digest of a field of a message. -/
def leaf (msg : Message) (id : FieldId) : Digest := leafHash sha256 id (fieldSexpr msg id)

/-- The inner digests of the tree of a message. -/
structure TreeDigests where
  n0 : Digest
  n1 : Digest
  n2 : Digest
  m0 : Digest
  root : Digest

/-- The fixed tree over the six leaves. -/
def buildTree (msg : Message) : TreeDigests :=
  let n0 := nodeHash sha256 (leaf sha256 msg .performative) (leaf sha256 msg .«from»)
  let n1 := nodeHash sha256 (leaf sha256 msg .«to») (leaf sha256 msg .causedBy)
  let n2 := nodeHash sha256 (leaf sha256 msg .thread) (leaf sha256 msg .payload)
  let m0 := nodeHash sha256 n0 n1
  ⟨n0, n1, n2, m0, nodeHash sha256 m0 n2⟩

/-- A hexadecimal digit. -/
def hexDigit (n : Nat) : Char := ("0123456789abcdef".toList[n]?).getD '0'

/-- The hexadecimal digits of some octets. -/
def hexDigits (os : Octets) : List Char :=
  os.flatMap fun b => [hexDigit (b.toNat / 16), hexDigit (b.toNat % 16)]

/-- A digest in hexadecimal. -/
def hex32 (d : Digest) : String := String.ofList (hexDigits d.toList)

/-- The typed content address of a message. -/
def typedRoot (msg : Message) : String := "sha256:" ++ hex32 (buildTree sha256 msg).root

/-- Open a field of a message. -/
def openField (msg : Message) (field : FieldId) : Opening :=
  let t := buildTree sha256 msg
  { field
    value := fieldSexpr msg field
    path := match field with
      | .performative => [(leaf sha256 msg .«from», .right), (t.n1, .right), (t.n2, .right)]
      | .«from» => [(leaf sha256 msg .performative, .left), (t.n1, .right), (t.n2, .right)]
      | .«to» => [(leaf sha256 msg .causedBy, .right), (t.n0, .left), (t.n2, .right)]
      | .causedBy => [(leaf sha256 msg .«to», .left), (t.n0, .left), (t.n2, .right)]
      | .thread => [(leaf sha256 msg .payload, .right), (t.m0, .left)]
      | .payload => [(leaf sha256 msg .thread, .left), (t.m0, .left)] }

/-- One step of the path of an opening. -/
def foldStep (cur : Digest) (step : Digest × Side) : Digest :=
  match step.2 with
  | .left => nodeHash sha256 step.1 cur
  | .right => nodeHash sha256 cur step.1

/-- Verify an opening against a root alone. -/
def verifyOpening (root : String) (field : FieldId) (value : SExpr) (opening : Opening) : Bool :=
  if opening.field ≠ field then false
  else
    let cur := opening.path.foldl (foldStep sha256) (leafHash sha256 field value)
    match stripStart "sha256:" root with
    | none => false
    | some expected => hex32 cur = expected

end Hashing

end CbclTypedAddr
