import Cbcl.AvlProofs
import Cbcl.EvidenceModel

/-!
# The evidence tree as a balanced search tree

A tree that `make` has built is a height-balanced search tree with sums beside it.  Its shape is
the tree of entries alone; every operation of the program does to the shape what the operation of
that name does to search trees, and the sums follow from the shape.  An insertion that reports the
old tree has not changed the shape either, so sharing and copying mean the same.
-/

namespace CbclEvidence

open CbclCanonical CbclCodec CbclTypedAddr CbclSigned
open CbclAvl (SearchTree)

/-- The rank of an entry. -/
abbrev rank (e : Entry) : String ×ₗ List Nat := keyRank e.key

theorem keyRank_inj {k k' : Key} : keyRank k = keyRank k' ↔ k = k' := by
  constructor
  · intro h
    obtain ⟨hid, hwire⟩ := Prod.mk.inj (toLex.injective h)
    refine Prod.ext hid (Vector.toList_inj.mp ?_)
    exact List.map_injective_iff.mpr (fun a b => UInt8.toNat_inj.mp) hwire
  · rintro rfl
    rfl

section Entries

variable (sha256 : Octets → Digest) (key : Key) (value : SignedMessage)

@[simp] theorem entryOf_key : (entryOf sha256 key value).key = key := rfl

@[simp] theorem entryOf_encoded_len :
    (entryOf sha256 key value).encoded_len = value.encode.length := rfl

@[simp] theorem entryOf_key_valid :
    (entryOf sha256 key value).key_valid = keyValid sha256 key value := rfl

end Entries

/-- The entries of a tree, without the sums. -/
def shape : Link → SearchTree Entry
  | .nil => .nil
  | .node entry left right _ _ _ _ _ _ => .node (shape left) entry (shape right)

section Shape

variable (sha256 : Octets → Digest)

/-- Every node is what `make` makes of its parts, and every entry what is known of its message. -/
def Built : Link → Prop
  | .nil => True
  | .node entry left right h s b rec bytes blob =>
      Built left ∧ Built right ∧ entryOf sha256 entry.key entry.value = entry ∧
        make sha256 entry left right = .node entry left right h s b rec bytes blob

variable {sha256}

@[simp] theorem shape_make (entry : Entry) (left right : Link) :
    shape (make sha256 entry left right) = .node (shape left) entry (shape right) := rfl

@[simp] theorem height_make (entry : Entry) (left right : Link) :
    height (make sha256 entry left right) = 1 + max (height left) (height right) := rfl

@[simp] theorem children_make (entry : Entry) (left right : Link) :
    children (make sha256 entry left right) = (left, right) := rfl

theorem built_make {entry : Entry} {left right : Link}
    (hentry : entryOf sha256 entry.key entry.value = entry) (hl : Built sha256 left)
    (hr : Built sha256 right) : Built sha256 (make sha256 entry left right) :=
  ⟨hl, hr, hentry, rfl⟩

/-- A built tree is empty or made of an entry and two built trees. -/
theorem Built.cases {n : Link} (h : Built sha256 n) : n = .nil ∨ ∃ entry left right,
    n = make sha256 entry left right ∧ entryOf sha256 entry.key entry.value = entry ∧
      Built sha256 left ∧ Built sha256 right := by
  match n, h with
  | .nil, _ => exact Or.inl rfl
  | .node entry left right .., ⟨hl, hr, hentry, hmake⟩ =>
      exact Or.inr ⟨entry, left, right, hmake.symm, hentry, hl, hr⟩

/-- Induction on how a tree was built. -/
theorem Built.rules {P : Link → Prop} (hnil : P .nil)
    (hmake : ∀ entry left right, entryOf sha256 entry.key entry.value = entry →
      Built sha256 left → Built sha256 right → P left → P right →
        P (make sha256 entry left right)) : ∀ {n}, Built sha256 n → P n
  | .nil, _ => hnil
  | .node entry left right .., ⟨hl, hr, hentry, hnode⟩ =>
      hnode ▸ hmake entry left right hentry hl hr (hl.rules hnil hmake) (hr.rules hnil hmake)

/-- The cached height is the height of the shape. -/
theorem height_shape {n : Link} (h : Built sha256 n) : (shape n).height = height n := by
  refine h.rules (P := fun n => (shape n).height = height n) rfl ?_
  intro entry left right _ _ _ ihl ihr
  rw [shape_make, SearchTree.height, ihl, ihr, height_make]

-- ── Balancing ────

theorem shape_rotateLeft (n : Link) : shape (rotateLeft sha256 n) = (shape n).rotateLeft := by
  match n with
  | .nil => rfl
  | .node _ _ .nil .. => rfl
  | .node _ _ (.node ..) .. => rfl

theorem shape_rotateRight (n : Link) : shape (rotateRight sha256 n) = (shape n).rotateRight := by
  match n with
  | .nil => rfl
  | .node _ .nil _ .. => rfl
  | .node _ (.node ..) _ .. => rfl

theorem Built.rotateLeft {n : Link} (h : Built sha256 n) : Built sha256 (rotateLeft sha256 n) := by
  match n, h with
  | .nil, h => exact h
  | .node _ _ .nil .., h => exact h
  | .node _ _ (.node ..) .., ⟨hl, ⟨hrl, hrr, hr, _⟩, he, _⟩ =>
      exact built_make hr (built_make he hl hrl) hrr

theorem Built.rotateRight {n : Link} (h : Built sha256 n) :
    Built sha256 (rotateRight sha256 n) := by
  match n, h with
  | .nil, h => exact h
  | .node _ .nil _ .., h => exact h
  | .node _ (.node ..) _ .., ⟨⟨hll, hlr, hl, _⟩, hr, he, _⟩ =>
      exact built_make hl hll (built_make he hlr hr)

theorem tallRight_shape {n : Link} (h : Built sha256 n) :
    (shape n).tallRight = decide (height (children n).2 > height (children n).1) := by
  rcases h.cases with rfl | ⟨entry, left, right, rfl, -, hl, hr⟩
  · rfl
  · rw [shape_make, SearchTree.tallRight, height_shape hl, height_shape hr, children_make]

theorem tallLeft_shape {n : Link} (h : Built sha256 n) :
    (shape n).tallLeft = decide (height (children n).1 > height (children n).2) := by
  rcases h.cases with rfl | ⟨entry, left, right, rfl, -, hl, hr⟩
  · rfl
  · rw [shape_make, SearchTree.tallLeft, height_shape hl, height_shape hr, children_make]

theorem balance_make (entry : Entry) (left right : Link) :
    balance sha256 (make sha256 entry left right) =
      if height left > height right + 1 then
        rotateRight sha256
          (if height (children left).2 > height (children left).1 then
            make sha256 entry (rotateLeft sha256 left) right
          else make sha256 entry left right)
      else if height right > height left + 1 then
        rotateLeft sha256
          (if height (children right).1 > height (children right).2 then
            make sha256 entry left (rotateRight sha256 right)
          else make sha256 entry left right)
      else make sha256 entry left right := rfl

/-- **Balancing a tree balances its shape**, and leaves it built. -/
theorem balance_spec {entry : Entry} {left right : Link}
    (hentry : entryOf sha256 entry.key entry.value = entry) (hl : Built sha256 left)
    (hr : Built sha256 right) :
    Built sha256 (balance sha256 (make sha256 entry left right)) ∧
      shape (balance sha256 (make sha256 entry left right))
        = (SearchTree.node (shape left) entry (shape right)).balance := by
  have hmake := built_make hentry hl hr
  rw [balance_make, SearchTree.balance_node, height_shape hl, height_shape hr, tallRight_shape hl,
    tallLeft_shape hr]
  by_cases htall : height left > height right + 1
  · rw [if_pos htall, if_pos htall]
    by_cases hinner : height (children left).2 > height (children left).1
    · rw [if_pos hinner, if_pos (decide_eq_true hinner), shape_rotateRight, shape_make,
        shape_rotateLeft]
      exact ⟨(built_make hentry hl.rotateLeft hr).rotateRight, rfl⟩
    · rw [if_neg hinner, if_neg (by simpa using hinner), shape_rotateRight, shape_make]
      exact ⟨hmake.rotateRight, rfl⟩
  · rw [if_neg htall, if_neg htall]
    by_cases htall' : height right > height left + 1
    · rw [if_pos htall', if_pos htall']
      by_cases hinner : height (children right).1 > height (children right).2
      · rw [if_pos hinner, if_pos (decide_eq_true hinner), shape_rotateLeft, shape_make,
          shape_rotateRight]
        exact ⟨(built_make hentry hl hr.rotateRight).rotateLeft, rfl⟩
      · rw [if_neg hinner, if_neg (by simpa using hinner), shape_rotateLeft, shape_make]
        exact ⟨hmake.rotateLeft, rfl⟩
    · rw [if_neg htall', if_neg htall', shape_make]
      exact ⟨hmake, rfl⟩

-- ── Insertion ────

/-- An entry stays where another of its record is inserted. -/
def keep (new old : Entry) : Bool := new.blob = old.blob

/-- **Insertion into a built tree** is insertion into its shape; a tree it reports as shared is the
    one there was, and the entry that comes back is the one there was. -/
theorem insertEntry_spec {entry : Entry} (hentry : entryOf sha256 entry.key entry.value = entry)
    {n : Link} (hn : Built sha256 n) (hbal : (shape n).Balanced) :
    Built sha256 (insertEntry sha256 entry n).tree ∧
      shape (insertEntry sha256 entry n).tree = (shape n).insert rank keep entry ∧
      ((insertEntry sha256 entry n).shared = true → (insertEntry sha256 entry n).tree = n) ∧
      (insertEntry sha256 entry n).old = (shape n).find rank (rank entry) := by
  induction n with
  | nil => exact ⟨built_make hentry trivial trivial, rfl, by rintro ⟨⟩, rfl⟩
  | node held left right h s b rec bytes blob ihl ihr =>
      obtain ⟨hl, hr, hheld, hmake⟩ := hn
      obtain ⟨hlr, hrl, hlbal, hrbal⟩ := hbal
      have hself : Built sha256 (.node held left right h s b rec bytes blob) :=
        ⟨hl, hr, hheld, hmake⟩
      obtain ⟨hl', hlshape, hlshared, hlold⟩ := ihl hl hlbal
      obtain ⟨hr', hrshape, hrshared, hrold⟩ := ihr hr hrbal
      unfold insertEntry
      simp only [shape, SearchTree.insert, SearchTree.find]
      by_cases hlt : keyRank entry.key < keyRank held.key
      · rw [if_pos hlt, if_pos hlt, if_pos hlt]
        by_cases hshared : (insertEntry sha256 entry left).shared = true
        · -- nothing has changed below, so nothing is to balance
          rw [if_pos hshared]
          rw [hlshared hshared] at hlshape
          refine ⟨hself, ?_, fun _ => rfl, hlold⟩
          rw [← hlshape, SearchTree.balance_eq_self ⟨hlr, hrl, hlbal, hrbal⟩, shape]
        · rw [if_neg hshared]
          obtain ⟨hbuilt, hshape⟩ := balance_spec hheld hl' hr
          exact ⟨hbuilt, by rw [hshape, hlshape], by rintro ⟨⟩, hlold⟩
      · rw [if_neg hlt, if_neg hlt, if_neg hlt]
        by_cases hgt : keyRank held.key < keyRank entry.key
        · rw [if_pos hgt, if_pos hgt, if_pos hgt]
          by_cases hshared : (insertEntry sha256 entry right).shared = true
          · rw [if_pos hshared]
            rw [hrshared hshared] at hrshape
            refine ⟨hself, ?_, fun _ => rfl, hrold⟩
            rw [← hrshape, SearchTree.balance_eq_self ⟨hlr, hrl, hlbal, hrbal⟩, shape]
          · rw [if_neg hshared]
            obtain ⟨hbuilt, hshape⟩ := balance_spec hheld hl hr'
            exact ⟨hbuilt, by rw [hshape, hrshape], by rintro ⟨⟩, hrold⟩
        · rw [if_neg hgt, if_neg hgt, if_neg hgt]
          by_cases hblob : entry.blob = held.blob
          · rw [if_pos hblob, if_pos (show keep entry held = true from decide_eq_true hblob)]
            exact ⟨hself, rfl, fun _ => rfl, rfl⟩
          · rw [if_neg hblob, if_neg (by simpa [keep] using hblob)]
            exact ⟨built_make hentry hl hr, rfl, by rintro ⟨⟩, rfl⟩

-- ── Search and iteration ────

theorem search_eq (key : Key) (n : Link) :
    Evidence.search key n = (shape n).find rank (keyRank key) := by
  induction n with
  | nil => rfl
  | node entry left right h s b rec bytes blob ihl ihr =>
      unfold Evidence.search
      rw [ihl, ihr]
      rfl

/-- The entries a stack of nodes has still to yield. -/
def pending : Entries → List Entry
  | [] => []
  | .nil :: stack => pending stack
  | .node entry _ right _ _ _ _ _ _ :: stack => entry :: (shape right).toList ++ pending stack

theorem pending_pushLeft (n : Link) (stack : Entries) :
    pending (pushLeft n stack) = (shape n).toList ++ pending stack := by
  induction n generalizing stack with
  | nil => rfl
  | node entry left right h s b rec bytes blob ihl ihr =>
      rw [pushLeft, ihl, pending, shape, SearchTree.toList]
      simp

/-- The next entry is the first that is pending. -/
theorem pending_next (stack : Entries) : pending stack =
    match next stack with
    | none => []
    | some (entry, stack') => entry :: pending stack' := by
  induction stack with
  | nil => rfl
  | cons n stack ih =>
      match n with
      | .nil =>
          rw [pending, next]
          exact ih
      | .node entry left right h s b rec bytes blob =>
          rw [next, pending]
          dsimp only
          rw [pending_pushLeft]
          rfl

theorem drain_eq (count : Nat) (stack : Entries) :
    drain count stack = (pending stack).take count := by
  induction count generalizing stack with
  | zero => rfl
  | succ count ih =>
      rw [drain, pending_next]
      match next stack with
      | none => rfl
      | some (entry, stack') =>
          dsimp only
          rw [ih, List.take_succ_cons]

theorem length_toList_shape (n : Link) : (shape n).toList.length = nodeCount n := by
  induction n with
  | nil => rfl
  | node entry left right h s b rec bytes blob ihl ihr =>
      rw [shape, SearchTree.toList, List.length_append, List.length_cons, ihl, ihr, nodeCount]
      omega

/-- **The iterator yields the entries from left to right.** -/
theorem entries_eq (n : Link) : entries n = (shape n).toList := by
  unfold entries
  rw [drain_eq, pending_pushLeft, pending, List.append_nil, ← length_toList_shape, List.take_length]

-- ── Sums ────

/-- The levels of a tree, counted. -/
def levels : Link → Nat
  | .nil => 0
  | .node _ left right _ _ _ _ _ _ => 1 + max (levels left) (levels right)

/-- The octets of the records of a tree and of its messages. -/
def recordOctets : Link → Nat
  | .nil => 0
  | .node entry left right _ _ _ _ bytes _ =>
      bytes.length + entry.value.encode.length + recordOctets left + recordOctets right

/-- The sums a tree has at its root are those of its nodes; counts stop at the greatest of 64
    bits. -/
structure Summed (n : Link) : Prop where
  height_eq : height n = levels n
  size_eq : size n = min (nodeCount n) (2 ^ 64 - 1)
  bytes_eq : recoveryBytes n = min (recordOctets n) (2 ^ 64 - 1)

/-- The record of the root. -/
def nodeBytes : Link → Octets
  | .nil => []
  | .node _ _ _ _ _ _ _ bytes _ => bytes

/-- The record of a made node up to the count of octets. -/
def madeBody (entry : Entry) (left right : Link) : Octets :=
  recordBody entry (nodeHash left) (nodeHash right) (1 + max (height left) (height right))
    (saturatingAdd (saturatingAdd 1 (size left)) (size right))

theorem size_make (entry : Entry) (left right : Link) : size (make sha256 entry left right)
    = saturatingAdd (saturatingAdd 1 (size left)) (size right) := rfl

theorem recoveryBytes_make (entry : Entry) (left right : Link) :
    recoveryBytes (make sha256 entry left right)
      = saturatingAdd (saturatingAdd (saturatingAdd (saturatingAdd
          (madeBody entry left right).length 8) entry.encoded_len) (recoveryBytes left))
          (recoveryBytes right) := rfl

theorem nodeBytes_make (entry : Entry) (left right : Link) :
    nodeBytes (make sha256 entry left right) = madeBody entry left right
      ++ bigEndian 8 (recoveryBytes (make sha256 entry left right)) := rfl

theorem length_nodeBytes_make (entry : Entry) (left right : Link) :
    (nodeBytes (make sha256 entry left right)).length = (madeBody entry left right).length + 8 := by
  rw [nodeBytes_make, List.length_append, length_bigEndian]

theorem saturatingAdd_eq (a b : Nat) : saturatingAdd a b = min (a + b) (2 ^ 64 - 1) := rfl

theorem saturatingAdd_min (a b : Nat) : saturatingAdd a (min b (2 ^ 64 - 1)) = saturatingAdd a b := by
  unfold saturatingAdd
  omega

theorem saturatingAdd_saturatingAdd (a b c : Nat) :
    saturatingAdd (saturatingAdd a b) c = saturatingAdd (a + b) c := by
  unfold saturatingAdd
  omega

/-- **The sums of a built tree.** -/
theorem Built.summed {n : Link} (h : Built sha256 n) : Summed n := by
  refine h.rules ⟨rfl, rfl, rfl⟩ ?_
  intro entry left right hentry _ _ ⟨hlh, hls, hlb⟩ ⟨hrh, hrs, hrb⟩
  refine ⟨?_, ?_, ?_⟩
  · have hlevels : levels (make sha256 entry left right) = 1 + max (levels left) (levels right) := rfl
    rw [height_make, hlevels, hlh, hrh]
  · have hcount : nodeCount (make sha256 entry left right)
        = 1 + nodeCount left + nodeCount right := rfl
    rw [size_make, hcount, hls, hrs, saturatingAdd_min, saturatingAdd_min,
      saturatingAdd_saturatingAdd, saturatingAdd_eq]
  · have hoctets : recordOctets (make sha256 entry left right)
        = (nodeBytes (make sha256 entry left right)).length + entry.value.encode.length
          + recordOctets left + recordOctets right := rfl
    have hmessage : entry.encoded_len = entry.value.encode.length :=
      (congrArg Entry.encoded_len hentry).symm
    rw [recoveryBytes_make, hoctets, length_nodeBytes_make, hlb, hrb, hmessage]
    simp only [saturatingAdd_min, saturatingAdd_saturatingAdd]
    rw [saturatingAdd_eq]

end Shape

end CbclEvidence
