import Cbcl.ReaderModel
import Cbcl.SignedMessageModel

/-!
# The evidence tree of a checkpoint

`evidence.rs` keeps the signed messages a checkpoint was reached by in a persistent AVL tree,
ordered by content address and hash of the record.  A node holds what its subtree adds up to and
the octets of its own record, in which the children appear by hash.  Nodes are built by `make`
only, and never changed: an insertion copies the path it takes and shares the rest, and says so by
`Arc::ptr_eq`, which appears here as a flag beside the tree.

`persist` saves the records of a tree bottom-up, and stops at a subtree whose root is in the archive
already; `recover` reads a tree back top-down, against bounds on depth, nodes and octets, and builds
every node again.

The archive is a map from hash to octets, as the directory of the source is when nothing but the
process writes to it; its errors of input and output are left out, other than a missing entry.
SHA-256 is the parameter `sha256`, and `verify` is what the host knows of signatures.
-/

namespace CbclEvidence

open CbclMessage CbclCanonical CbclTypedAddr CbclCodec CbclSigned

def BLOB : String := "cbcl/checkpoint/blob/v1"
def WIRE : String := "cbcl/checkpoint/evidence/v1"
def MAGIC : String := "cbcl/checkpoint/evidence-node/v2"

def MAX_NODES : Nat := 1000000
def MAX_DEPTH : Nat := 64
def MAX_NODE_BYTES : Nat := 1024
def MAX_MESSAGE_BYTES : Nat := 256 * 1024
def MAX_RECOVERY_BYTES : Nat := 256 * 1024 * 1024

/-- How many octets an archive entry may have. -/
def MAX_BLOB_BYTES : Nat := 16 * 1024 * 1024

/-- A content address and the hash of a record. -/
abbrev Key := String × Digest

/-- The order of keys: by address, then by the octets of the hash. -/
def keyRank (k : Key) : String ×ₗ List Nat := toLex (k.1, k.2.toList.map UInt8.toNat)

/-- A message under its key, with what is known of its record. -/
structure Entry where
  key : Key
  value : SignedMessage
  blob : Digest
  encoded_len : Nat
  key_valid : Bool
deriving DecidableEq

/-- A tree: each node has its entry, its children, their sums and its record. -/
inductive Link where
  | nil
  | node (entry : Entry) (left right : Link) (height size recovery_bytes : Nat)
      (recoverable : Bool) (bytes : Octets) (blob : Digest)
deriving DecidableEq

/-- The levels of a tree. -/
def height : Link → Nat
  | .nil => 0
  | .node _ _ _ height _ _ _ _ _ => height

/-- The entries of a tree. -/
def size : Link → Nat
  | .nil => 0
  | .node _ _ _ _ size _ _ _ _ => size

/-- The octets a recovery of a tree reads. -/
def recoveryBytes : Link → Nat
  | .nil => 0
  | .node _ _ _ _ _ recovery_bytes _ _ _ => recovery_bytes

/-- Whether a recovery of a tree stays within the bounds of one node. -/
def recoverable : Link → Bool
  | .nil => true
  | .node _ _ _ _ _ _ recoverable _ _ => recoverable

/-- The hash of the root. -/
def nodeHash : Link → Option Digest
  | .nil => none
  | .node _ _ _ _ _ _ _ _ blob => some blob

/-- Addition of 64-bit counts, which stops at the greatest. -/
def saturatingAdd (a b : Nat) : Nat := min (a + b) (2 ^ 64 - 1)

/-- A child in a record: a tag, and the hash of the child if there is one. -/
def putLink : Option Digest → Octets
  | none => [0]
  | some h => 1 :: h.toList

/-- The record of a node up to the count of octets. -/
def recordBody (entry : Entry) (left right : Option Digest) (height size : Nat) : Octets :=
  octets MAGIC ++ putString entry.key.1 ++ entry.key.2.toList ++ entry.blob.toList
    ++ putLink left ++ putLink right ++ putU32 height ++ putU32 size

section Hashing

variable (sha256 : Octets → Digest)

/-- A node over two subtrees. -/
def make (entry : Entry) (left right : Link) : Link :=
  let height' := 1 + max (height left) (height right)
  let size' := saturatingAdd (saturatingAdd 1 (size left)) (size right)
  let body := recordBody entry (nodeHash left) (nodeHash right) height' size'
  let recovery_bytes := saturatingAdd (saturatingAdd (saturatingAdd
    (saturatingAdd body.length 8) entry.encoded_len) (recoveryBytes left)) (recoveryBytes right)
  let bytes := body ++ bigEndian 8 recovery_bytes
  let recoverable' := entry.key_valid
    && decide ((octets entry.key.1).length ≤ 128)
    && decide (entry.encoded_len ≤ MAX_MESSAGE_BYTES)
    && decide (bytes.length ≤ MAX_NODE_BYTES)
    && decide (height' ≤ MAX_DEPTH)
    && recoverable left && recoverable right
  .node entry left right height' size' recovery_bytes recoverable' bytes (hash sha256 BLOB bytes)

/-- The right child becomes the root. -/
def rotateLeft : Link → Link
  | .node entry left (.node r rl rr _ _ _ _ _ _) _ _ _ _ _ _ =>
      make sha256 r (make sha256 entry left rl) rr
  | n => n

/-- The left child becomes the root. -/
def rotateRight : Link → Link
  | .node entry (.node l ll lr _ _ _ _ _ _) right _ _ _ _ _ _ =>
      make sha256 l ll (make sha256 entry lr right)
  | n => n

/-- The children of a node. -/
def children : Link → Link × Link
  | .nil => (.nil, .nil)
  | .node _ left right _ _ _ _ _ _ => (left, right)

/-- Restore the balance of a node one of whose sides has grown. -/
def balance (n : Link) : Link :=
  match n with
  | .nil => .nil
  | .node entry left right _ _ _ _ _ _ =>
      if height left > height right + 1 then
        rotateRight sha256
          (if height (children left).2 > height (children left).1 then
            make sha256 entry (rotateLeft sha256 left) right
          else n)
      else if height right > height left + 1 then
        rotateLeft sha256
          (if height (children right).1 > height (children right).2 then
            make sha256 entry left (rotateRight sha256 right)
          else n)
      else n

/-- The result of an insertion: the tree, whether it is the very tree there was, and the entry there
    was under the key. -/
structure Inserted where
  tree : Link
  shared : Bool
  old : Option Entry

/-- Insert an entry.  An entry whose record hashes like the one that is there changes nothing. -/
def insertEntry (entry : Entry) : Link → Inserted
  | .nil => ⟨make sha256 entry .nil .nil, false, none⟩
  | .node held left right h s b rec bytes blob =>
      if keyRank entry.key < keyRank held.key then
        let l := insertEntry entry left
        if l.shared then ⟨.node held left right h s b rec bytes blob, true, l.old⟩
        else ⟨balance sha256 (make sha256 held l.tree right), false, l.old⟩
      else if keyRank held.key < keyRank entry.key then
        let r := insertEntry entry right
        if r.shared then ⟨.node held left right h s b rec bytes blob, true, r.old⟩
        else ⟨balance sha256 (make sha256 held left r.tree), false, r.old⟩
      else if entry.blob = held.blob then
        ⟨.node held left right h s b rec bytes blob, true, some held⟩
      else ⟨make sha256 entry left right, false, some held⟩

end Hashing

/-- The content address of a message. -/
def idOf (sha256 : Octets → Digest) (value : SignedMessage) : Except Error String :=
  match value.message.innermostSimple with
  | none => .error (.invalid "missing simple message")
  | some simple => .ok (typedRoot sha256 simple)

/-- Whether a key is that of a message with a record. -/
def keyValid (sha256 : Octets → Digest) (key : Key) (value : SignedMessage) : Bool :=
  (match idOf sha256 value with
    | .ok id => decide (id = key.1)
    | .error _ => false)
  && decide (hash sha256 WIRE value.encode = key.2)

/-- The entry of a message under a key. -/
def entryOf (sha256 : Octets → Digest) (key : Key) (value : SignedMessage) : Entry where
  key := key
  value := value
  blob := hash sha256 BLOB value.encode
  encoded_len := value.encode.length
  key_valid := keyValid sha256 key value

/-- Messages under keys, in the order of the keys. -/
structure Evidence where
  root : Link
deriving DecidableEq

-- ── Iteration ────

/-- The stack of an iteration: nodes whose left subtrees are done. -/
abbrev Entries := List Link

/-- Push a tree and the left sides below it. -/
def pushLeft : Link → Entries → Entries
  | .nil, stack => stack
  | .node e left right h s b rec bytes blob, stack =>
      pushLeft left (.node e left right h s b rec bytes blob :: stack)

/-- The next entry of an iteration. -/
def next : Entries → Option (Entry × Entries)
  | [] => none
  | .nil :: stack => next stack
  | .node entry _ right _ _ _ _ _ _ :: stack => some (entry, pushLeft right stack)

/-- The nodes of a tree. -/
def nodeCount : Link → Nat
  | .nil => 0
  | .node _ left right _ _ _ _ _ _ => 1 + nodeCount left + nodeCount right

/-- The entries an iteration yields, at most as many as told. -/
def drain : Nat → Entries → List Entry
  | 0, _ => []
  | n + 1, stack =>
      match next stack with
      | none => []
      | some (entry, stack) => entry :: drain n stack

/-- The entries of a tree as its iterator yields them. -/
def entries (root : Link) : List Entry := drain (nodeCount root) (pushLeft root [])

namespace Evidence

def new : Evidence := ⟨.nil⟩

def len (e : Evidence) : Nat := size e.root

/-- The entry of a key. -/
def search (key : Key) : Link → Option Entry
  | .nil => none
  | .node entry left right _ _ _ _ _ _ =>
      if keyRank key < keyRank entry.key then search key left
      else if keyRank entry.key < keyRank key then search key right
      else some entry

/-- The message of a key. -/
def get (e : Evidence) (key : Key) : Option SignedMessage := (search key e.root).map Entry.value

/-- The keys and messages in order. -/
def iter (e : Evidence) : List (Key × SignedMessage) :=
  (entries e.root).map fun entry => (entry.key, entry.value)

/-- Equal lengths and equal iterations. -/
def eq (e e' : Evidence) : Bool := e.len = e'.len && e.iter = e'.iter

variable (sha256 : Octets → Digest)

/-- Insert a message; the message there was comes back. -/
def insert (e : Evidence) (key : Key) (value : SignedMessage) : Evidence × Option SignedMessage :=
  let inserted := insertEntry sha256 (entryOf sha256 key value) e.root
  (⟨inserted.tree⟩, inserted.old.map Entry.value)

/-- Insert messages in turn. -/
def extend (e : Evidence) (rows : List (Key × SignedMessage)) : Evidence :=
  rows.foldl (fun e row => (e.insert sha256 row.1 row.2).1) e

/-- The entries of this tree over those of a previous one. -/
def retaining (e previous : Evidence) : Evidence :=
  (entries e.root).foldl (fun out entry => ⟨(insertEntry sha256 entry out.root).tree⟩) previous

end Evidence

-- ── The archive ────

/-- Octets by their hash. -/
structure Cache where
  files : List (Digest × Octets)

namespace Cache

def empty : Cache := ⟨[]⟩

/-- The octets under a hash. -/
def lookup (c : Cache) (id : Digest) : Option Octets := c.files.lookup id

/-- Whether there is an entry; its octets are not read. -/
def containsTrusted (c : Cache) (id : Digest) : Bool := (c.lookup id).isSome

variable (sha256 : Octets → Digest)

/-- Archive octets under their hash. -/
def put (c : Cache) (bytes : Octets) : Cache × Except Error Digest :=
  if bytes.length > MAX_BLOB_BYTES then (c, .error .budget)
  else match c.lookup (hash sha256 BLOB bytes) with
    | some old =>
        if old ≠ bytes then (c, .error (.invalid "immutable cache collision"))
        else (c, .ok (hash sha256 BLOB bytes))
    | none => (⟨(hash sha256 BLOB bytes, bytes) :: c.files⟩, .ok (hash sha256 BLOB bytes))

/-- Read octets by their hash, at most so many. -/
def readOnce (c : Cache) (id : Digest) (max : Nat) : Except Error Octets :=
  match c.lookup id with
  | none => .error (.io "not found")
  | some bytes =>
      if bytes.length > max then .error .budget
      else if hash sha256 BLOB bytes ≠ id then .error (.invalid "archive address")
      else .ok bytes

end Cache

-- ── Persistence ────

section Persistence

variable (sha256 : Octets → Digest)

/-- Archive octets that are expected to have a hash. -/
def putAs (reason : String) (bytes : Octets) (blob : Digest) (c : Cache) :
    Cache × Except Error Unit :=
  match c.put sha256 bytes with
  | (c, .error e) => (c, .error e)
  | (c, .ok id) => if id ≠ blob then (c, .error (.invalid reason)) else (c, .ok ())

/-- Archive the record of an entry unless it is there. -/
def saveValue (entry : Entry) (c : Cache) : Cache × Except Error Unit :=
  if c.containsTrusted entry.blob then (c, .ok ())
  else if entry.value.encode.length > MAX_MESSAGE_BYTES then (c, .error .budget)
  else putAs sha256 "evidence value hash" entry.value.encode entry.blob c

/-- Archive the records of a tree from the leaves up; a subtree whose root is there is skipped. -/
def save : Link → Cache → Cache × Except Error Unit
  | .nil, c => (c, .ok ())
  | .node entry left right _ _ _ _ bytes blob, c =>
      if c.containsTrusted blob then (c, .ok ())
      else match save left c with
        | (c, .error e) => (c, .error e)
        | (c, .ok _) => match save right c with
          | (c, .error e) => (c, .error e)
          | (c, .ok _) => match saveValue sha256 entry c with
            | (c, .error e) => (c, .error e)
            | (c, .ok _) =>
                if bytes.length > MAX_NODE_BYTES then (c, .error .budget)
                else putAs sha256 "evidence node hash" bytes blob c

/-- Whether a tree is beyond the bounds of a recovery. -/
def overBudget : Link → Bool
  | .nil => false
  | .node _ _ _ _ size recovery_bytes recoverable _ _ =>
      decide (size > MAX_NODES) || decide (recovery_bytes > MAX_RECOVERY_BYTES) || !recoverable

/-- Archive a tree within the bounds; its root hash comes back. -/
def Evidence.persist (e : Evidence) (c : Cache) : Cache × Except Error (Option Digest) :=
  if overBudget e.root then (c, .error .budget)
  else match save sha256 e.root c with
    | (c, .error reason) => (c, .error reason)
    | (c, .ok _) => (c, .ok (nodeHash e.root))

end Persistence

-- ── Recovery ────

/-- A child in a record. -/
def readLink (os : Octets) : Except Error (Option Digest × Octets) := do
  let (tag, os) ← take 1 os
  if tag = [0] then .ok (none, os)
  else if tag = [1] then do
    let (h, os) ← readHash os
    return (some h, os)
  else .error (.invalid "evidence child tag")

/-- The front of a record: the version and the key. -/
def readKey (os : Octets) : Except Error (Key × Octets) := do
  let os ← newReader os MAX_NODE_BYTES
  let (magic, os) ← take (octets MAGIC).length os
  if magic ≠ octets MAGIC then .error (.invalid "evidence node version")
  else do
    let (id, os) ← readString 128 os
    let (wire, os) ← readHash os
    return ((id, wire), os)

/-- What a record says of its node beside the key. -/
structure NodeRecord where
  value_blob : Digest
  left : Option Digest
  right : Option Digest
  height : Nat
  size : Nat
  recovery_bytes : Nat

/-- The rest of a record. -/
def readRest (os : Octets) : Except Error NodeRecord := do
  let (value_blob, os) ← readHash os
  let (left, os) ← readLink os
  let (right, os) ← readLink os
  let (height, os) ← readCount MAX_DEPTH os
  let (size, os) ← readCount MAX_NODES os
  let (total, os) ← take 8 os
  if fromBigEndian total > MAX_RECOVERY_BYTES then .error .budget
  else do
    finish os
    return ⟨value_blob, left, right, height, size, fromBigEndian total⟩

/-- What a recovery has read so far. -/
structure Budget where
  nodes : Nat
  bytes : Nat
deriving DecidableEq

section Recovery

variable (sha256 : Octets → Digest) (verify : String → Octets → Octets → Bool)

/-- Whether a key lies outside its bounds. -/
def outside (low high : Option Key) (key : Key) : Bool :=
  low.any (fun l => decide (keyRank key ≤ keyRank l))
    || high.any (fun h => decide (keyRank h ≤ keyRank key))

/-- The entry of a record in the archive, authenticated. -/
def loadValue (c : Cache) (key : Key) (value_blob : Digest) (b : Budget) :
    Except Error (Entry × Budget) := do
  if b.bytes > MAX_RECOVERY_BYTES then .error .budget
  else do
    let body ← c.readOnce sha256 value_blob
      (min MAX_MESSAGE_BYTES (MAX_RECOVERY_BYTES - b.bytes))
    if b.bytes + body.length > MAX_RECOVERY_BYTES then .error .budget
    else if hash sha256 BLOB body ≠ value_blob ∨ hash sha256 WIRE body ≠ key.2 then
      .error (.invalid "evidence wire blob")
    else do
      let value ← SignedMessage.decode body
      let _ ← value.authenticate (typedRoot sha256) verify
      let id ← idOf sha256 value
      if id ≠ key.1 then .error (.invalid "evidence native identity")
      else .ok (⟨key, value, value_blob, body.length, true⟩,
        ⟨b.nodes, b.bytes + body.length⟩)

/-- A child of a node that is loaded. -/
def loadChild (load : Digest → Budget → Except Error (Link × Budget)) (child : Option Digest)
    (b : Budget) : Except Error (Link × Budget) :=
  match child with
  | none => .ok (.nil, b)
  | some id => load id b

/-- Load a node and what is below it.  `room` is how far the depth is from its bound. -/
def load (c : Cache) : Nat → Option Key → Option Key → Digest → Budget →
    Except Error (Link × Budget)
  | 0, _, _, _, _ => .error .budget
  | room + 1, low, high, id, b => do
      if b.nodes ≥ MAX_NODES then .error .budget
      else do
        let bytes ← c.readOnce sha256 id MAX_NODE_BYTES
        let b : Budget := ⟨b.nodes + 1, b.bytes + bytes.length⟩
        if b.bytes > MAX_RECOVERY_BYTES then .error .budget
        else if hash sha256 BLOB bytes ≠ id then .error (.invalid "evidence node blob")
        else do
          let (key, os) ← readKey bytes
          if outside low high key then .error (.invalid "evidence tree ordering")
          else do
            let r ← readRest os
            let (left, b) ← loadChild (load c room low (some key)) r.left b
            let (right, b) ← loadChild (load c room (some key) high) r.right b
            if height left > height right + 1 ∨ height right > height left + 1
                ∨ r.height ≠ 1 + max (height left) (height right)
                ∨ r.size ≠ 1 + size left + size right then
              .error (.invalid "evidence AVL metadata")
            else do
              let (entry, b) ← loadValue sha256 verify c key r.value_blob b
              let node := make sha256 entry left right
              if recoveryBytes node ≠ r.recovery_bytes ∨ recoverable node = false
                  ∨ node ≠ .node entry left right (height node) (size node) (recoveryBytes node)
                      true bytes id then
                .error (.invalid "noncanonical evidence node")
              else .ok (node, b)

/-- Recover the tree of a root hash. -/
def recover (c : Cache) (root : Option Digest) : Except Error Evidence :=
  match root with
  | none => .ok .new
  | some id => do
      let (node, _) ← load sha256 verify c MAX_DEPTH none none id ⟨0, 0⟩
      return ⟨node⟩

end Recovery

end CbclEvidence
