import Cbcl.CodecModel

/-!
# Coverage sets

`coverage.rs` keeps a set of native identities under one digest: the root of a Merkle tree of depth
256 over the hashes of the identities.  The tree is kept path-compressed.  A node caches the digest
of its subtree at the depth where it branches, and the digest higher up is computed when it is
needed (`lifted`).  A proof lists the 256 siblings on the path of an identity.

An insertion shares what it does not change, and the source compares pointers to see that nothing
has changed; `inserted` returns this answer beside the node.  SHA-256 is the parameter `sha256`.
-/

namespace CbclCoverage

open CbclCanonical CbclTypedAddr CbclCodec

/-- The levels of the tree. -/
def DEPTH : Nat := 256

def KEY : String := "cbcl/checkpoint/coverage/key/v1"
def LEAF : String := "cbcl/checkpoint/coverage/leaf/v1"
def NODE : String := "cbcl/checkpoint/coverage/node/v1"
def EMPTY : String := "cbcl/checkpoint/coverage/empty/v1"

-- ── Keys ────

/-- An octet of a key. -/
def octetAt (k : Digest) (i : Nat) : UInt8 := (k.toList[i]?).getD 0

/-- A bit of an octet, the most significant first. -/
def octetBit (b : UInt8) (i : Nat) : Bool := b &&& (0x80 >>> i.toUInt8) ≠ 0

/-- A bit of a key: octet zero first, the most significant bit of an octet first. -/
def bit (k : Digest) (depth : Nat) : Bool := octetBit (octetAt k (depth / 8)) (depth % 8)

/-- The zero bits in front of the first one bit of an octet. -/
def leadingZeros (b : UInt8) : Nat := ((List.range 8).find? (octetBit b)).getD 8

/-- The first bit in which two keys differ, or the depth of the tree. -/
def common (a b : Digest) : Nat :=
  match (List.range 32).find? fun i => octetAt a i ^^^ octetAt b i ≠ 0 with
  | some i => i * 8 + leadingZeros (octetAt a i ^^^ octetAt b i)
  | none => DEPTH

section Hashing

variable (sha256 : Octets → Digest)

/-- The key of a native identity. -/
def key (id : String) : Digest := hash sha256 KEY (octets id)

/-- The digest of a present leaf. -/
def leaf (k : Digest) : Digest := hash sha256 LEAF (bigEndian 2 0 ++ k.toList)

/-- The digest of an empty leaf. -/
def emptyLeaf : Digest := hash sha256 EMPTY (bigEndian 2 0)

/-- The digest of a node at a depth; the octets name its height. -/
def branch (depth : Nat) (left right : Digest) : Digest :=
  hash sha256 NODE (bigEndian 2 (DEPTH - depth) ++ left.toList ++ right.toList)

/-- The digest of an empty subtree of some height. -/
def emptyOf : Nat → Digest
  | 0 => emptyLeaf sha256
  | h + 1 => branch sha256 (DEPTH - (h + 1)) (emptyOf h) (emptyOf h)

/-- The digests of the empty subtrees, by depth. -/
def empties (depth : Nat) : Digest := emptyOf sha256 (DEPTH - depth)

-- ── Proofs ────

/-- A proof of presence or absence: the siblings from the root to the leaf. -/
structure Proof where
  present : Bool
  siblings : List Digest
deriving DecidableEq

namespace Proof

/-- The sibling below a depth. -/
def siblingAt (p : Proof) (d : Nat) : Digest := (p.siblings[d]?).getD (Vector.replicate 32 0)

/-- One step up the path of a key. -/
def climbed (p : Proof) (k : Digest) (d : Nat) (h : Digest) : Digest :=
  if bit k d then branch sha256 d (p.siblingAt d) h else branch sha256 d h (p.siblingAt d)

/-- The root the siblings lead to, from a present or an empty leaf. -/
def rootFor (p : Proof) (id : String) (present : Bool) : Except Error Digest :=
  if p.siblings.length ≠ DEPTH then .error (.invalid "coverage proof length")
  else
    let k := key sha256 id
    .ok ((List.range DEPTH).foldr (p.climbed sha256 k)
      (if present then leaf sha256 k else emptyLeaf sha256))

/-- Check presence or absence against a root. -/
def verify (p : Proof) (root : Digest) (id : String) : Except Error Unit := do
  let h ← p.rootFor sha256 id p.present
  if h ≠ root then .error (.invalid "coverage proof root") else .ok ()

/-- Check against a root, then insert with this path alone. -/
def updatedRoot (p : Proof) (root : Digest) (id : String) : Except Error Digest := do
  p.verify sha256 root id
  if p.present then return root else p.rootFor sha256 id true

end Proof

-- ── Nodes ────

/-- A node: a leaf, or a branching of the keys below it at their first different bit.  The key is
    that of a leaf below it. -/
inductive Node where
  | tip (key hash : Digest)
  | fork (key : Digest) (depth : Nat) (hash : Digest) (left right : Node)

namespace Node

/-- A key below the node. -/
def key : Node → Digest
  | .tip key _ => key
  | .fork key _ _ _ _ => key

/-- The first branching bit, or the depth of the tree. -/
def depth : Node → Nat
  | .tip _ _ => DEPTH
  | .fork _ depth _ _ _ => depth

/-- The digest of the subtree at the depth of the node. -/
def hash : Node → Digest
  | .tip _ hash => hash
  | .fork _ _ hash _ _ => hash

end Node

/-- One level up from a subtree whose sibling is empty. -/
def liftStep (k : Digest) (d : Nat) (h : Digest) : Digest :=
  if bit k d then branch sha256 d (empties sha256 (d + 1)) h
  else branch sha256 d h (empties sha256 (d + 1))

/-- The digest of the subtree of a node at a depth above it. -/
def lifted (n : Node) (depth : Nat) : Digest :=
  (List.range' depth (n.depth - depth)).foldr (liftStep sha256 n.key) n.hash

/-- A leaf. -/
def newLeaf (k : Digest) : Node := .tip k (leaf sha256 k)

/-- A node over two nodes that differ first at a depth. -/
def joined (depth : Nat) (left right : Node) : Node :=
  .fork left.key depth
    (branch sha256 depth (lifted sha256 left (depth + 1)) (lifted sha256 right (depth + 1))) left right

/-- Split a compressed edge for a key that leaves it. -/
def splitAt (split : Nat) (n : Node) (k : Digest) : Node :=
  if bit k split then joined sha256 split n (newLeaf sha256 k)
  else joined sha256 split (newLeaf sha256 k) n

/-- Insert a key, and tell whether the node is the one it was. -/
def inserted : Node → Digest → Node × Bool
  | .tip nk h, k =>
      if common nk k < DEPTH then (splitAt sha256 (common nk k) (.tip nk h) k, false)
      else (.tip nk h, true)
  | .fork nk depth h left right, k =>
      if common nk k < depth then
        (splitAt sha256 (common nk k) (.fork nk depth h left right) k, false)
      else if bit k depth then
        match inserted right k with
        | (_, true) => (.fork nk depth h left right, true)
        | (next, false) => (joined sha256 depth left next, false)
      else
        match inserted left k with
        | (_, true) => (.fork nk depth h left right, true)
        | (next, false) => (joined sha256 depth next right, false)

/-- Whether a key is below a node. -/
def holds : Node → Digest → Bool
  | .tip nk _, k => !(common nk k < DEPTH)
  | .fork nk depth _ left right, k =>
      if common nk k < depth then false
      else if bit k depth then holds right k else holds left k

/-- The siblings on the path of a key below a node, over the empty ones. -/
def walk (k : Digest) : Node → List Digest → Proof
  | .tip nk h, siblings =>
      if common nk k < DEPTH then
        ⟨false, siblings.set (common nk k) (lifted sha256 (.tip nk h) (common nk k + 1))⟩
      else ⟨true, siblings⟩
  | .fork nk depth h left right, siblings =>
      if common nk k < depth then
        ⟨false, siblings.set (common nk k)
          (lifted sha256 (.fork nk depth h left right) (common nk k + 1))⟩
      else if bit k depth then walk k right (siblings.set depth (lifted sha256 left (depth + 1)))
      else walk k left (siblings.set depth (lifted sha256 right (depth + 1)))

end Hashing

-- ── The set ────

/-- A coverage set: its tree and the root of it. -/
structure Coverage where
  tree : Option Node
  root : Digest

namespace Coverage

variable (sha256 : Octets → Digest)

/-- The empty set. -/
def default : Coverage := ⟨none, empties sha256 0⟩

/-- Whether an identity is covered. -/
def contains (c : Coverage) (id : String) : Bool := c.tree.any fun n => holds n (key sha256 id)

/-- The proof of presence or absence of an identity. -/
def proof (c : Coverage) (id : String) : Proof :=
  let siblings := (List.range DEPTH).map fun d => empties sha256 (d + 1)
  match c.tree with
  | none => ⟨false, siblings⟩
  | some n => walk sha256 (key sha256 id) n siblings

/-- Insert an identity; the root is computed again if the tree has changed. -/
def insert (c : Coverage) (id : String) : Coverage :=
  let k := key sha256 id
  match c.tree with
  | none =>
      let tree := newLeaf sha256 k
      ⟨some tree, lifted sha256 tree 0⟩
  | some n =>
      match inserted sha256 n k with
      | (_, true) => c
      | (tree, false) => ⟨some tree, lifted sha256 tree 0⟩

end Coverage

end CbclCoverage
