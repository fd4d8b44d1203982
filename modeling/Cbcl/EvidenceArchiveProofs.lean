import Cbcl.EvidenceTreeProofs
import Cbcl.MessageTextProofs

/-!
# Saving and recovering evidence

The records of a tree are put in the archive from the leaves up, and a subtree is skipped when its
root is there already.  That is sound as long as the archive is closed: a record of a node stands in
it only with the records of the children and of the message.  Every write of the program keeps it
so, also one that fails half-way, if no other octets look like the record of a node and no two
octets share a hash.

A recovery spends, on nodes and octets, what the sums of the root say; a tree that was saved is
within the bounds, so nothing is refused, and what is rebuilt is the tree itself.
-/

namespace CbclEvidence

open CbclMessage CbclCanonical CbclCodec CbclTypedAddr CbclSigned
open CbclAvl (SearchTree)

-- ── Records ────

theorem readLink_putLink (h : Option Digest) (r : Octets) :
    readLink (putLink h ++ r) = .ok (h, r) := by
  unfold readLink
  cases h with
  | none => exact CbclExcept.bind_ok_iff.mpr ⟨([0], r), take_ok_iff.mpr ⟨rfl, rfl⟩, rfl⟩
  | some d =>
      refine CbclExcept.bind_ok_iff.mpr ⟨([1], d.toList ++ r), take_ok_iff.mpr ⟨rfl, rfl⟩, ?_⟩
      exact CbclExcept.bind_ok_iff.mpr ⟨(d, r), readHash_ok_iff.mpr rfl, rfl⟩

/-- Some octets are the record of a node. -/
def IsRecord (os : Octets) (key : Key) (r : NodeRecord) : Prop :=
  ∃ rest, readKey os = .ok (key, rest) ∧ readRest rest = .ok r

/-- Octets that are not the record of a node. -/
def Plain (os : Octets) : Prop := ∀ key r, ¬ IsRecord os key r

/-- What starts otherwise than a record is none. -/
theorem plain_of_head {b : UInt8} {os : Octets} (h : b ≠ 99) : Plain (b :: os) := by
  rintro key r ⟨rest, hkey, -⟩
  unfold readKey at hkey
  obtain ⟨os', hnew, hkey⟩ := CbclExcept.bind_ok_iff.mp hkey
  obtain ⟨-, rfl⟩ := newReader_ok_iff.mp hnew
  obtain ⟨⟨magic, os''⟩, htake, hkey⟩ := CbclExcept.bind_ok_iff.mp hkey
  obtain ⟨hos, -⟩ := take_ok_iff.mp htake
  by_cases hmagic : magic = octets MAGIC
  · have hhead : (octets MAGIC).head? = some 99 := rfl
    have hcons : (octets MAGIC ++ os'').head? = some b := by rw [← hmagic, ← hos]; rfl
    rw [List.head?_append, hhead] at hcons
    exact h (Option.some.inj hcons).symm
  · dsimp only at hkey
    rw [if_pos hmagic] at hkey
    exact nomatch hkey

/-- The record of a message is not the record of a node. -/
theorem plain_encode (m : SignedMessage) : Plain m.encode := by
  obtain ⟨items, hitems⟩ := CbclMessageText.toSExpr_list m.message
  have hencode : m.encode = ascii '(' :: (encodeItems items ++ [ascii ')']) := by
    unfold SignedMessage.encode messageBytes
    rw [hitems]
    rfl
  rw [hencode]
  exact plain_of_head (by decide)

-- ── Bounds ────

/-- A tree a recovery does not refuse for its size. -/
structure WithinBounds (n : Link) : Prop where
  recoverable : recoverable n = true
  size_le : size n ≤ MAX_NODES
  bytes_le : recoveryBytes n ≤ MAX_RECOVERY_BYTES

theorem overBudget_eq_false_iff {n : Link} : overBudget n = false ↔ WithinBounds n := by
  cases n with
  | nil => exact iff_of_true rfl ⟨rfl, Nat.zero_le _, Nat.zero_le _⟩
  | node entry left right h s b rec bytes blob =>
      have heq : overBudget (.node entry left right h s b rec bytes blob)
        = (decide (s > MAX_NODES) || decide (b > MAX_RECOVERY_BYTES) || !rec) := rfl
      rw [heq, Bool.or_eq_false_iff, Bool.or_eq_false_iff, decide_eq_false_iff_not,
        decide_eq_false_iff_not, Bool.not_eq_false']
      constructor
      · rintro ⟨⟨hs, hb⟩, hrec⟩
        exact ⟨hrec, Nat.not_lt.mp hs, Nat.not_lt.mp hb⟩
      · rintro ⟨hrec, hs, hb⟩
        exact ⟨⟨Nat.not_lt.mpr hs, Nat.not_lt.mpr hb⟩, hrec⟩

variable {sha256 : Octets → Digest}

/-- What a made node within the bounds is known to satisfy. -/
structure NodeBounds (sha256 : Octets → Digest) (entry : Entry) (left right : Link) : Prop where
  key_valid : entry.key_valid = true
  id_le : (octets entry.key.1).length ≤ 128
  message_le : entry.encoded_len ≤ MAX_MESSAGE_BYTES
  record_le : (nodeBytes (make sha256 entry left right)).length ≤ MAX_NODE_BYTES
  height_le : height (make sha256 entry left right) ≤ MAX_DEPTH
  left_within : WithinBounds left
  right_within : WithinBounds right
  size_eq : size (make sha256 entry left right) = 1 + size left + size right
  bytes_eq : recoveryBytes (make sha256 entry left right)
    = (nodeBytes (make sha256 entry left right)).length + entry.encoded_len + recoveryBytes left
      + recoveryBytes right

theorem recoverable_make (entry : Entry) (left right : Link) :
    recoverable (make sha256 entry left right) = (entry.key_valid
      && decide ((octets entry.key.1).length ≤ 128)
      && decide (entry.encoded_len ≤ MAX_MESSAGE_BYTES)
      && decide ((nodeBytes (make sha256 entry left right)).length ≤ MAX_NODE_BYTES)
      && decide (height (make sha256 entry left right) ≤ MAX_DEPTH)
      && recoverable left && recoverable right) := rfl

/-- A sum below the greatest count has not stopped at it. -/
theorem saturatingAdd_of_le {a b bound : Nat} (h : saturatingAdd a b ≤ bound)
    (hbound : bound < 2 ^ 64 - 1) : saturatingAdd a b = a + b := by
  unfold saturatingAdd at h ⊢
  omega

/-- Sums within a bound far below 64 bits have not saturated. -/
theorem WithinBounds.node {entry : Entry} {left right : Link}
    (h : WithinBounds (make sha256 entry left right)) : NodeBounds sha256 entry left right := by
  obtain ⟨hrec, hsize, hbytes⟩ := h
  have hnodes : MAX_NODES < 2 ^ 64 - 1 := by decide
  have hmax : MAX_RECOVERY_BYTES < 2 ^ 64 - 1 := by decide
  have hsizes : size (make sha256 entry left right) = 1 + size left + size right := by
    rw [size_make, saturatingAdd_saturatingAdd] at hsize ⊢
    exact saturatingAdd_of_le hsize hnodes
  have htotal : recoveryBytes (make sha256 entry left right)
      = (nodeBytes (make sha256 entry left right)).length + entry.encoded_len + recoveryBytes left
        + recoveryBytes right := by
    rw [recoveryBytes_make] at hbytes ⊢
    simp only [saturatingAdd_saturatingAdd] at hbytes ⊢
    rw [saturatingAdd_of_le hbytes hmax, length_nodeBytes_make]
  rw [recoverable_make] at hrec
  simp only [Bool.and_eq_true, decide_eq_true_eq] at hrec
  obtain ⟨⟨⟨⟨⟨⟨hvalid, hid⟩, hmessage⟩, hrecord⟩, hheight⟩, hl⟩, hr⟩ := hrec
  exact ⟨hvalid, hid, hmessage, hrecord, hheight, ⟨hl, by omega, by omega⟩,
    ⟨hr, by omega, by omega⟩, hsizes, htotal⟩

/-- **The record of a node within the bounds is read back.** -/
theorem isRecord_make {entry : Entry} {left right : Link}
    (h : WithinBounds (make sha256 entry left right)) :
    IsRecord (nodeBytes (make sha256 entry left right)) entry.key
      ⟨entry.blob, nodeHash left, nodeHash right, height (make sha256 entry left right),
        size (make sha256 entry left right), recoveryBytes (make sha256 entry left right)⟩ := by
  have hnode := h.node
  have hnodes : MAX_NODES < 2 ^ 32 := by decide
  have hdepth : MAX_DEPTH < 2 ^ 32 := by decide
  have hmax : MAX_RECOVERY_BYTES < 256 ^ 8 := by decide
  have hid := hnode.id_le
  have hheight := hnode.height_le
  have hsize := h.size_le
  have hbytes := h.bytes_le
  generalize htotal : recoveryBytes (make sha256 entry left right) = total at hbytes ⊢
  have hrecord : nodeBytes (make sha256 entry left right) = octets MAGIC ++ (putString entry.key.1
      ++ (entry.key.2.toList ++ (entry.blob.toList ++ (putLink (nodeHash left)
        ++ (putLink (nodeHash right) ++ (putU32 (height (make sha256 entry left right))
          ++ (putU32 (size (make sha256 entry left right)) ++ bigEndian 8 total))))))) := by
    rw [nodeBytes_make, htotal]
    show recordBody entry (nodeHash left) (nodeHash right) (height (make sha256 entry left right))
      (size (make sha256 entry left right)) ++ _ = _
    unfold recordBody
    simp only [List.append_assoc]
  refine ⟨entry.blob.toList ++ (putLink (nodeHash left) ++ (putLink (nodeHash right)
    ++ (putU32 (height (make sha256 entry left right))
      ++ (putU32 (size (make sha256 entry left right)) ++ bigEndian 8 total)))), ?_, ?_⟩
  · unfold readKey
    refine CbclExcept.bind_ok_iff.mpr ⟨_, newReader_ok_iff.mpr ⟨hnode.record_le, rfl⟩, ?_⟩
    refine CbclExcept.bind_ok_iff.mpr ⟨(octets MAGIC, _), take_ok_iff.mpr ⟨hrecord, rfl⟩, ?_⟩
    dsimp only
    rw [if_neg (not_not_intro rfl)]
    refine CbclExcept.bind_ok_iff.mpr ⟨(entry.key.1, _),
      readString_ok_iff.mpr ⟨hid, by omega, rfl⟩, ?_⟩
    exact CbclExcept.bind_ok_iff.mpr ⟨(entry.key.2, _), readHash_ok_iff.mpr rfl, rfl⟩
  · unfold readRest
    refine CbclExcept.bind_ok_iff.mpr ⟨(entry.blob, _), readHash_ok_iff.mpr rfl, ?_⟩
    refine CbclExcept.bind_ok_iff.mpr ⟨_, readLink_putLink _ _, ?_⟩
    refine CbclExcept.bind_ok_iff.mpr ⟨_, readLink_putLink _ _, ?_⟩
    refine CbclExcept.bind_ok_iff.mpr ⟨(height (make sha256 entry left right), _),
      readCount_ok_iff.mpr ⟨hheight, by omega, rfl⟩, ?_⟩
    refine CbclExcept.bind_ok_iff.mpr ⟨(size (make sha256 entry left right), _),
      readCount_ok_iff.mpr ⟨hsize, by omega, rfl⟩, ?_⟩
    refine CbclExcept.bind_ok_iff.mpr ⟨(bigEndian 8 total, []),
      take_ok_iff.mpr ⟨(List.append_nil _).symm, length_bigEndian _ _⟩, ?_⟩
    have hback : fromBigEndian (bigEndian 8 total) = total := by
      rw [fromBigEndian_bigEndian]
      exact Nat.mod_eq_of_lt (Nat.lt_of_le_of_lt hbytes hmax)
    dsimp only
    rw [hback, if_neg (Nat.not_lt.mpr hbytes)]
    exact CbclExcept.bind_ok_iff.mpr ⟨⟨⟩, finish_ok_iff.mpr rfl, rfl⟩

/-- A record says one thing. -/
theorem IsRecord.unique {os : Octets} {key key' : Key} {r r' : NodeRecord}
    (h : IsRecord os key r) (h' : IsRecord os key' r') : r = r' := by
  obtain ⟨rest, hkey, hrest⟩ := h
  obtain ⟨rest', hkey', hrest'⟩ := h'
  obtain ⟨-, rfl⟩ := Prod.mk.inj (Except.ok.inj (hkey.symm.trans hkey'))
  exact Except.ok.inj (hrest.symm.trans hrest')

-- ── The archive ────

/-- What is in one archive is in the other. -/
def Grows (c c' : Cache) : Prop := ∀ id bytes, c.lookup id = some bytes → c'.lookup id = some bytes

theorem Grows.refl (c : Cache) : Grows c c := fun _ _ h => h

theorem Grows.trans {a b c : Cache} (h : Grows a b) (h' : Grows b c) : Grows a c :=
  fun id bytes hid => h' id bytes (h id bytes hid)

/-- Whether a hash that a record has is in the archive. -/
def Held (c : Cache) (id : Option Digest) : Prop := ∀ d ∈ id, (c.lookup d).isSome = true

theorem Held.mono {c c' : Cache} (h : Grows c c') {id : Option Digest} (hid : Held c id) :
    Held c' id := by
  intro d hd
  obtain ⟨bytes, hbytes⟩ := Option.isSome_iff_exists.mp (hid d hd)
  exact Option.isSome_of_mem (h d bytes hbytes)

/-- An archive of known octets, under their hashes, in which the record of a node stands with the
    records of its children and of its message. -/
structure Closed (sha256 : Octets → Digest) (S : Set Octets) (c : Cache) : Prop where
  hashed : ∀ id bytes, c.lookup id = some bytes → hash sha256 BLOB bytes = id ∧ bytes ∈ S
  followed : ∀ id bytes key r, c.lookup id = some bytes → IsRecord bytes key r →
    Held c (some r.value_blob) ∧ Held c r.left ∧ Held c r.right

variable {S : Set Octets}

theorem closed_empty : Closed sha256 S Cache.empty :=
  ⟨(fun _ _ h => nomatch h), (fun _ _ _ _ h => nomatch h)⟩

theorem lookup_insert (c : Cache) (id id' : Digest) (bytes : Octets) :
    Cache.lookup ⟨(id, bytes) :: c.files⟩ id' = if id' = id then some bytes else c.lookup id' := by
  unfold Cache.lookup
  rw [List.lookup_cons]
  by_cases h : id' = id
  · rw [if_pos h, h]
    simp
  · rw [if_neg h, beq_false_of_ne h]

/-- What one write does to the archive. -/
theorem put_cases (c : Cache) (bytes : Octets) :
    ((c.put sha256 bytes).1 = c ∧ ∀ id, (c.put sha256 bytes).2 = .ok id →
      id = hash sha256 BLOB bytes ∧ c.lookup id = some bytes) ∨
    ((c.put sha256 bytes).1 = ⟨(hash sha256 BLOB bytes, bytes) :: c.files⟩ ∧
      c.lookup (hash sha256 BLOB bytes) = none ∧
      (c.put sha256 bytes).2 = .ok (hash sha256 BLOB bytes)) := by
  unfold Cache.put
  by_cases hlong : bytes.length > MAX_BLOB_BYTES
  · rw [if_pos hlong]
    exact Or.inl ⟨rfl, (nomatch ·, ·)⟩
  · rw [if_neg hlong]
    cases hold : c.lookup (hash sha256 BLOB bytes) with
    | none => exact Or.inr ⟨rfl, rfl, rfl⟩
    | some old =>
        dsimp only
        by_cases hne : old ≠ bytes
        · rw [if_pos hne]
          exact Or.inl ⟨rfl, (nomatch ·, ·)⟩
        · rw [if_neg hne]
          refine Or.inl ⟨rfl, fun id hid => ?_⟩
          injection hid with hid
          rw [← hid, hold, not_not.mp hne]
          exact ⟨rfl, rfl⟩

/-- **A write keeps what there is**, and after a successful one the octets are there. -/
theorem put_grows (c : Cache) (bytes : Octets) : Grows c (c.put sha256 bytes).1 ∧
    ∀ id, (c.put sha256 bytes).2 = .ok id → id = hash sha256 BLOB bytes ∧
      (c.put sha256 bytes).1.lookup (hash sha256 BLOB bytes) = some bytes := by
  rcases @put_cases sha256 c bytes with ⟨hsame, hok⟩ | ⟨hnew, hnone, hok⟩
  · rw [hsame]
    refine ⟨Grows.refl c, fun id hid => ?_⟩
    obtain ⟨rfl, hlookup⟩ := hok id hid
    exact ⟨rfl, hlookup⟩
  · rw [hnew, hok]
    refine ⟨fun id old hold => ?_, fun id hid => ⟨(Except.ok.inj hid).symm, ?_⟩⟩
    · rw [lookup_insert, if_neg (fun heq => by rw [heq, hnone] at hold; exact nomatch hold)]
      exact hold
    · rw [lookup_insert, if_pos rfl]

/-- **A write keeps a closed archive closed** if what its octets refer to is there. -/
theorem Closed.put {c : Cache} (h : Closed sha256 S c) {bytes : Octets} (hS : bytes ∈ S)
    (hrefs : ∀ key r, IsRecord bytes key r →
      Held c (some r.value_blob) ∧ Held c r.left ∧ Held c r.right) :
    Closed sha256 S (c.put sha256 bytes).1 := by
  have hgrows := (@put_grows sha256 c bytes).1
  rcases @put_cases sha256 c bytes with ⟨hsame, -⟩ | ⟨hnew, -, -⟩
  · rw [hsame]
    exact h
  · rw [hnew] at hgrows ⊢
    have hold : ∀ id found, Cache.lookup ⟨(hash sha256 BLOB bytes, bytes) :: c.files⟩ id = some found →
        (id = hash sha256 BLOB bytes ∧ found = bytes) ∨ c.lookup id = some found := by
      intro id found hfound
      rw [lookup_insert] at hfound
      split at hfound
      · rename_i heq
        exact Or.inl ⟨heq, (Option.some.inj hfound).symm⟩
      · exact Or.inr hfound
    constructor
    · intro id found hfound
      rcases hold id found hfound with ⟨rfl, rfl⟩ | hfound
      · exact ⟨rfl, hS⟩
      · exact h.hashed id found hfound
    · intro id found key r hfound hrecord
      have hheld : Held c (some r.value_blob) ∧ Held c r.left ∧ Held c r.right := by
        rcases hold id found hfound with ⟨rfl, rfl⟩ | hfound
        · exact hrefs key r hrecord
        · exact h.followed id found key r hfound hrecord
      exact ⟨hheld.1.mono hgrows, hheld.2.1.mono hgrows, hheld.2.2.mono hgrows⟩

-- ── Saving ────

/-- The records of a tree and of its messages are in the archive. -/
def Saved (c : Cache) : Link → Prop
  | .nil => True
  | .node entry left right _ _ _ _ bytes blob =>
      c.lookup blob = some bytes ∧ c.lookup entry.blob = some entry.value.encode ∧
        Saved c left ∧ Saved c right

theorem Saved.mono {c c' : Cache} (h : Grows c c') {n : Link} (hn : Saved c n) : Saved c' n := by
  induction n with
  | nil => trivial
  | node entry left right height size b rec bytes blob ihl ihr =>
      obtain ⟨hbytes, hvalue, hl, hr⟩ := hn
      exact ⟨h _ _ hbytes, h _ _ hvalue, ihl hl, ihr hr⟩

theorem Saved.held {c : Cache} {n : Link} (h : Saved c n) : Held c (nodeHash n) := by
  cases n with
  | nil => exact fun d hd => nomatch hd
  | node entry left right height size b rec bytes blob =>
      intro d hd
      obtain rfl := Option.some.inj hd
      exact Option.isSome_of_mem h.1

/-- The octets of the records of a tree and of its messages. -/
def octetsOf : Link → List Octets
  | .nil => []
  | .node entry left right _ _ _ _ bytes _ =>
      bytes :: entry.value.encode :: (octetsOf left ++ octetsOf right)

theorem octetsOf_make (entry : Entry) (left right : Link) : octetsOf (make sha256 entry left right)
    = nodeBytes (make sha256 entry left right) :: entry.value.encode
      :: (octetsOf left ++ octetsOf right) := rfl

theorem nodeHash_make (entry : Entry) (left right : Link) : nodeHash (make sha256 entry left right)
    = some (hash sha256 BLOB (nodeBytes (make sha256 entry left right))) := rfl

theorem saved_make {c : Cache} {entry : Entry} {left right : Link} :
    Saved c (make sha256 entry left right) ↔
      c.lookup (hash sha256 BLOB (nodeBytes (make sha256 entry left right)))
          = some (nodeBytes (make sha256 entry left right)) ∧
        c.lookup entry.blob = some entry.value.encode ∧ Saved c left ∧ Saved c right := Iff.rfl

/-- In a closed archive, what has a hash is what was hashed. -/
theorem Closed.lookup_eq {c : Cache} (h : Closed sha256 S c)
    (hinj : Set.InjOn (hash sha256 BLOB) S) {bytes : Octets} (hS : bytes ∈ S)
    (hheld : (c.lookup (hash sha256 BLOB bytes)).isSome = true) :
    c.lookup (hash sha256 BLOB bytes) = some bytes := by
  obtain ⟨found, hfound⟩ := Option.isSome_iff_exists.mp hheld
  obtain ⟨hhash, hmem⟩ := h.hashed _ _ hfound
  rw [hfound, hinj hmem hS hhash]

/-- A write of octets that may be in the archive succeeds. -/
theorem Closed.put_ok {c : Cache} (h : Closed sha256 S c) (hinj : Set.InjOn (hash sha256 BLOB) S)
    {bytes : Octets} (hS : bytes ∈ S) (hlen : bytes.length ≤ MAX_BLOB_BYTES) :
    (c.put sha256 bytes).2 = .ok (hash sha256 BLOB bytes) := by
  unfold Cache.put
  rw [if_neg (Nat.not_lt.mpr hlen)]
  cases hold : c.lookup (hash sha256 BLOB bytes) with
  | none => rfl
  | some old =>
      have hsame := h.lookup_eq hinj hS (Option.isSome_of_mem hold)
      obtain rfl := Option.some.inj (hold.symm.trans hsame)
      exact congrArg Prod.snd (if_neg (not_not_intro rfl))

/-- **The shortcut is sound**: a tree whose root is in a closed archive is saved. -/
theorem Closed.saved {c : Cache} (h : Closed sha256 S c) (hinj : Set.InjOn (hash sha256 BLOB) S)
    {n : Link} (hn : Built sha256 n) (hwithin : WithinBounds n) (hS : ∀ os ∈ octetsOf n, os ∈ S)
    (hheld : Held c (nodeHash n)) : Saved c n := by
  revert hwithin hS hheld
  refine hn.rules (P := fun n => WithinBounds n → (∀ os ∈ octetsOf n, os ∈ S) →
    Held c (nodeHash n) → Saved c n) (fun _ _ _ => trivial) ?_
  intro entry left right hentry _ _ ihl ihr hwithin hS hheld
  have hnode := hwithin.node
  have hblob : entry.blob = hash sha256 BLOB entry.value.encode :=
    (congrArg Entry.blob hentry).symm
  rw [octetsOf_make] at hS
  simp only [List.mem_cons, List.mem_append, forall_eq_or_imp] at hS
  obtain ⟨hrecord, hvalue, hrest⟩ := hS
  have hbytes := h.lookup_eq hinj hrecord (hheld _ (nodeHash_make entry left right))
  obtain ⟨hbody, hleft, hright⟩ := h.followed _ _ _ _ hbytes (isRecord_make hwithin)
  refine saved_make.mpr ⟨hbytes, ?_, ?_, ?_⟩
  · rw [hblob]
    exact h.lookup_eq hinj hvalue (hblob ▸ hbody _ rfl)
  · exact ihl hnode.left_within (fun os hos => hrest os (Or.inl hos)) hleft
  · exact ihr hnode.right_within (fun os hos => hrest os (Or.inr hos)) hright

/-- A write under the hash of the octets succeeds, and leaves them in a closed archive. -/
theorem putAs_spec {reason : String} {bytes : Octets} {c : Cache} (h : Closed sha256 S c)
    (hinj : Set.InjOn (hash sha256 BLOB) S) (hS : bytes ∈ S) (hlen : bytes.length ≤ MAX_BLOB_BYTES)
    (hrefs : ∀ key r, IsRecord bytes key r →
      Held c (some r.value_blob) ∧ Held c r.left ∧ Held c r.right) :
    ∃ c', putAs sha256 reason bytes (hash sha256 BLOB bytes) c = (c', .ok ()) ∧
      Closed sha256 S c' ∧ Grows c c' ∧ c'.lookup (hash sha256 BLOB bytes) = some bytes := by
  obtain ⟨hgrows, hheld⟩ := @put_grows sha256 c bytes
  have hok := h.put_ok hinj hS hlen
  refine ⟨(c.put sha256 bytes).1, ?_, h.put hS hrefs, hgrows, (hheld _ hok).2⟩
  unfold putAs
  cases hput : c.put sha256 bytes with
  | mk c' result =>
      rw [hput] at hok
      rw [show result = .ok (hash sha256 BLOB bytes) from hok]
      exact if_neg (not_not_intro rfl)

theorem saveValue_spec {entry : Entry} {c : Cache}
    (hentry : entryOf sha256 entry.key entry.value = entry)
    (hlen : entry.encoded_len ≤ MAX_MESSAGE_BYTES) (h : Closed sha256 S c)
    (hinj : Set.InjOn (hash sha256 BLOB) S) (hS : entry.value.encode ∈ S) :
    ∃ c', saveValue sha256 entry c = (c', .ok ()) ∧ Closed sha256 S c' ∧ Grows c c' ∧
      c'.lookup entry.blob = some entry.value.encode := by
  have hblob : entry.blob = hash sha256 BLOB entry.value.encode :=
    (congrArg Entry.blob hentry).symm
  have hlength : entry.value.encode.length ≤ MAX_MESSAGE_BYTES :=
    (congrArg Entry.encoded_len hentry).trans_le hlen
  unfold saveValue Cache.containsTrusted
  by_cases hheld : (c.lookup entry.blob).isSome = true
  · rw [if_pos hheld]
    refine ⟨c, rfl, h, Grows.refl c, ?_⟩
    rw [hblob]
    exact h.lookup_eq hinj hS (hblob ▸ hheld)
  · rw [if_neg hheld, if_neg (Nat.not_lt.mpr hlength), hblob]
    exact putAs_spec h hinj hS (hlength.trans (by decide))
      fun key r hrecord => absurd hrecord (plain_encode _ key r)

theorem save_make (entry : Entry) (left right : Link) (c : Cache) :
    save sha256 (make sha256 entry left right) c =
      if c.containsTrusted (hash sha256 BLOB (nodeBytes (make sha256 entry left right))) then
        (c, .ok ())
      else match save sha256 left c with
        | (c, .error e) => (c, .error e)
        | (c, .ok _) => match save sha256 right c with
          | (c, .error e) => (c, .error e)
          | (c, .ok _) => match saveValue sha256 entry c with
            | (c, .error e) => (c, .error e)
            | (c, .ok _) =>
                if (nodeBytes (make sha256 entry left right)).length > MAX_NODE_BYTES then
                  (c, .error .budget)
                else putAs sha256 "evidence node hash" (nodeBytes (make sha256 entry left right))
                  (hash sha256 BLOB (nodeBytes (make sha256 entry left right))) c := rfl

/-- **Saving succeeds**: a tree within the bounds is in the archive afterwards, which stays closed. -/
theorem save_spec (hinj : Set.InjOn (hash sha256 BLOB) S) {n : Link} (hn : Built sha256 n)
    (hwithin : WithinBounds n) (hS : ∀ os ∈ octetsOf n, os ∈ S) {c : Cache}
    (h : Closed sha256 S c) :
    ∃ c', save sha256 n c = (c', .ok ()) ∧ Closed sha256 S c' ∧ Grows c c' ∧ Saved c' n := by
  revert hwithin hS c
  refine hn.rules (P := fun n => WithinBounds n → (∀ os ∈ octetsOf n, os ∈ S) →
    ∀ {c : Cache}, Closed sha256 S c → ∃ c', save sha256 n c = (c', .ok ()) ∧
      Closed sha256 S c' ∧ Grows c c' ∧ Saved c' n)
    (fun _ _ c h => ⟨c, rfl, h, Grows.refl c, trivial⟩) ?_
  intro entry left right hentry hl hr ihl ihr hwithin hS c h
  have hnode := hwithin.node
  have hmake := built_make hentry hl hr
  have hall := hS
  rw [octetsOf_make] at hS
  simp only [List.mem_cons, List.mem_append, forall_eq_or_imp] at hS
  obtain ⟨hrecord, hvalue, hrest⟩ := hS
  rw [save_make]
  unfold Cache.containsTrusted
  by_cases hheld :
      (c.lookup (hash sha256 BLOB (nodeBytes (make sha256 entry left right)))).isSome = true
  · rw [if_pos hheld]
    refine ⟨c, rfl, h, Grows.refl c, h.saved hinj hmake hwithin hall ?_⟩
    intro d hd
    rw [nodeHash_make] at hd
    exact Option.some.inj hd ▸ hheld
  rw [if_neg hheld]
  obtain ⟨c₁, hleft, hclosed₁, hgrows₁, hsaved₁⟩ :=
    ihl hnode.left_within (fun os hos => hrest os (Or.inl hos)) h
  obtain ⟨c₂, hright, hclosed₂, hgrows₂, hsaved₂⟩ :=
    ihr hnode.right_within (fun os hos => hrest os (Or.inr hos)) hclosed₁
  obtain ⟨c₃, hbody, hclosed₃, hgrows₃, hlookup₃⟩ :=
    saveValue_spec hentry hnode.message_le hclosed₂ hinj hvalue
  rw [hleft]
  dsimp only
  rw [hright]
  dsimp only
  rw [hbody]
  dsimp only
  rw [if_neg (Nat.not_lt.mpr hnode.record_le)]
  -- everything the record refers to has been saved before it
  have hsavedLeft : Saved c₃ left := hsaved₁.mono (hgrows₂.trans hgrows₃)
  have hsavedRight : Saved c₃ right := hsaved₂.mono hgrows₃
  obtain ⟨c₄, hput, hclosed₄, hgrows₄, hlookup₄⟩ := @putAs_spec sha256 S "evidence node hash" _ _
    hclosed₃ hinj hrecord (hnode.record_le.trans (by decide)) (by
      intro key r hread
      obtain rfl := (isRecord_make hwithin).unique hread
      refine ⟨?_, hsavedLeft.held, hsavedRight.held⟩
      intro d hd
      obtain rfl := Option.some.inj hd
      exact Option.isSome_of_mem hlookup₃)
  refine ⟨c₄, hput, hclosed₄, ((hgrows₁.trans hgrows₂).trans hgrows₃).trans hgrows₄,
    saved_make.mpr ⟨hlookup₄, hgrows₄ _ _ hlookup₃, ?_, ?_⟩⟩
  · exact hsavedLeft.mono hgrows₄
  · exact hsavedRight.mono hgrows₄

/-- **A tree within the bounds is persisted** under the hash of its root. -/
theorem persist_spec (hinj : Set.InjOn (hash sha256 BLOB) S) {e : Evidence} (hn : Built sha256 e.root)
    (hwithin : WithinBounds e.root) (hS : ∀ os ∈ octetsOf e.root, os ∈ S) {c : Cache}
    (h : Closed sha256 S c) :
    ∃ c', e.persist sha256 c = (c', .ok (nodeHash e.root)) ∧ Closed sha256 S c' ∧
      Saved c' e.root := by
  obtain ⟨c', hsave, hclosed, -, hsaved⟩ := save_spec hinj hn hwithin hS h
  refine ⟨c', ?_, hclosed, hsaved⟩
  unfold Evidence.persist
  rw [overBudget_eq_false_iff.mpr hwithin, if_neg Bool.false_ne_true, hsave]

-- ── Recovering ────

section Recovery

variable {verify : String → Octets → Octets → Bool}

/-- A message that its own record is read back as, and that authenticates. -/
def Readable (sha256 : Octets → Digest) (verify : String → Octets → Octets → Bool)
    (value : SignedMessage) : Prop :=
  SignedMessage.decode value.encode = .ok value ∧
    ∃ a, value.authenticate (typedRoot sha256) verify = .ok a

/-- A key lies between two bounds. -/
def Between (low high : Option Key) (key : Key) : Prop :=
  (∀ l ∈ low, keyRank l < keyRank key) ∧ ∀ h ∈ high, keyRank key < keyRank h

theorem outside_eq_false {low high : Option Key} {key : Key} (h : Between low high key) :
    outside low high key = false := by
  unfold outside
  rw [Bool.or_eq_false_iff]
  constructor
  · cases low with
    | none => rfl
    | some l => exact decide_eq_false (not_le_of_gt (h.1 l rfl))
  · cases high with
    | none => rfl
    | some u => exact decide_eq_false (not_le_of_gt (h.2 u rfl))

theorem readOnce_ok {c : Cache} {bytes : Octets} {max : Nat}
    (h : c.lookup (hash sha256 BLOB bytes) = some bytes) (hmax : bytes.length ≤ max) :
    c.readOnce sha256 (hash sha256 BLOB bytes) max = .ok bytes := by
  unfold Cache.readOnce
  rw [h]
  dsimp only
  rw [if_neg (Nat.not_lt.mpr hmax), if_neg (not_not_intro rfl)]

/-- A message of a valid key is read from the archive, at the price of its octets. -/
theorem loadValue_ok {c : Cache} {entry : Entry} {b : Budget}
    (hentry : entryOf sha256 entry.key entry.value = entry) (hvalid : entry.key_valid = true)
    (hlookup : c.lookup entry.blob = some entry.value.encode)
    (hread : Readable sha256 verify entry.value) (hmessage : entry.encoded_len ≤ MAX_MESSAGE_BYTES)
    (hbytes : b.bytes + entry.encoded_len ≤ MAX_RECOVERY_BYTES) :
    loadValue sha256 verify c entry.key entry.blob b
      = .ok (entry, ⟨b.nodes, b.bytes + entry.encoded_len⟩) := by
  have hblob : entry.blob = hash sha256 BLOB entry.value.encode :=
    (congrArg Entry.blob hentry).symm
  have hlen : entry.encoded_len = entry.value.encode.length :=
    (congrArg Entry.encoded_len hentry).symm
  have hkey : keyValid sha256 entry.key entry.value = true :=
    (congrArg Entry.key_valid hentry).trans hvalid
  obtain ⟨hdecode, act, hauth⟩ := hread
  unfold keyValid at hkey
  rw [Bool.and_eq_true, decide_eq_true_eq] at hkey
  obtain ⟨hid, hwire⟩ := hkey
  have hidOf : idOf sha256 entry.value = .ok entry.key.1 := by
    cases hcase : idOf sha256 entry.value with
    | error e => rw [hcase] at hid; exact nomatch hid
    | ok id => rw [hcase] at hid; rw [of_decide_eq_true hid]
  unfold loadValue
  rw [if_neg (by omega)]
  refine CbclExcept.bind_ok_iff.mpr ⟨entry.value.encode, ?_, ?_⟩
  · rw [hblob]
    exact readOnce_ok (hblob ▸ hlookup) (by omega)
  rw [if_neg (by omega), if_neg (by rw [← hblob, hwire]; simp)]
  refine CbclExcept.bind_ok_iff.mpr ⟨entry.value, hdecode, ?_⟩
  refine CbclExcept.bind_ok_iff.mpr ⟨act, hauth, ?_⟩
  refine CbclExcept.bind_ok_iff.mpr ⟨entry.key.1, hidOf, ?_⟩
  rw [if_neg (not_not_intro rfl), ← hlen, ← hvalid]

/-- **A recovery reads a saved tree back**, and spends what its sums say. -/
theorem load_spec {c : Cache} {n : Link} (hn : Built sha256 n) (hwithin : WithinBounds n)
    (hsaved : Saved c n) (hbal : (shape n).Balanced) (hord : (shape n).Ordered rank)
    (hread : ∀ e ∈ (shape n).toList, Readable sha256 verify e.value)
    {room : Nat} {low high : Option Key} {b : Budget} (hroom : height n ≤ room)
    (hbetween : ∀ e ∈ (shape n).toList, Between low high e.key)
    (hnodes : b.nodes + size n ≤ MAX_NODES)
    (hbytes : b.bytes + recoveryBytes n ≤ MAX_RECOVERY_BYTES) :
    loadChild (load sha256 verify c room low high) (nodeHash n) b
      = .ok (n, ⟨b.nodes + size n, b.bytes + recoveryBytes n⟩) := by
  revert hwithin hsaved hbal hord hread room low high b
  refine hn.rules (P := fun n => WithinBounds n → Saved c n → (shape n).Balanced →
    (shape n).Ordered rank → (∀ e ∈ (shape n).toList, Readable sha256 verify e.value) →
    ∀ {room : Nat} {low high : Option Key} {b : Budget}, height n ≤ room →
      (∀ e ∈ (shape n).toList, Between low high e.key) → b.nodes + size n ≤ MAX_NODES →
      b.bytes + recoveryBytes n ≤ MAX_RECOVERY_BYTES →
      loadChild (load sha256 verify c room low high) (nodeHash n) b
        = .ok (n, ⟨b.nodes + size n, b.bytes + recoveryBytes n⟩))
    (fun _ _ _ _ _ _ _ _ _ _ _ _ _ => rfl) ?_
  intro entry left right hentry hl hr ihl ihr hwithin hsaved hbal hord hread room low high b hroom
    hbetween hnodes hbytes
  have hnode := hwithin.node
  obtain ⟨hrecord, hvalue, hsavedLeft, hsavedRight⟩ := saved_make.mp hsaved
  obtain ⟨hlr, hrl, hballeft, hbalright⟩ := hbal
  obtain ⟨hordleft, hordright, hbelow, habove⟩ := SearchTree.ordered_node.mp hord
  obtain ⟨rest, hkey, hrest⟩ := isRecord_make hwithin
  have hself : Between low high entry.key := hbetween entry (by simp [SearchTree.toList])
  have hsizes := hnode.size_eq
  have htotal := hnode.bytes_eq
  have hrecordLe := hnode.record_le
  rw [height_shape hl, height_shape hr] at hlr hrl
  rw [height_make] at hroom
  obtain ⟨room, rfl⟩ : ∃ k, room = k + 1 := ⟨room - 1, by omega⟩
  show load sha256 verify c (room + 1) low high
    (hash sha256 BLOB (nodeBytes (make sha256 entry left right))) b = _
  unfold load
  rw [if_neg (by omega)]
  refine CbclExcept.bind_ok_iff.mpr ⟨_, readOnce_ok hrecord hrecordLe, ?_⟩
  dsimp only
  rw [if_neg (by omega), if_neg (not_not_intro rfl)]
  refine CbclExcept.bind_ok_iff.mpr ⟨_, hkey, ?_⟩
  dsimp only
  rw [outside_eq_false hself, if_neg Bool.false_ne_true]
  refine CbclExcept.bind_ok_iff.mpr ⟨_, hrest, ?_⟩
  dsimp only
  -- the left side lies below the key, the right side above it
  refine CbclExcept.bind_ok_iff.mpr ⟨_, ihl hnode.left_within hsavedLeft hballeft hordleft
    (fun e he => hread e (by simp [SearchTree.toList, he])) (by omega) (fun e he => ?_)
    (by dsimp only; omega) (by dsimp only; omega), ?_⟩
  · refine ⟨(hbetween e (by simp [SearchTree.toList, he])).1, fun u hu => ?_⟩
    obtain rfl := Option.some.inj hu
    exact hbelow e he
  dsimp only
  refine CbclExcept.bind_ok_iff.mpr ⟨_, ihr hnode.right_within hsavedRight hbalright hordright
    (fun e he => hread e (by simp [SearchTree.toList, he])) (by omega) (fun e he => ?_)
    (by dsimp only; omega) (by dsimp only; omega), ?_⟩
  · refine ⟨fun l hl => ?_, (hbetween e (by simp [SearchTree.toList, he])).2⟩
    obtain rfl := Option.some.inj hl
    exact habove e he
  dsimp only
  rw [if_neg (by rw [height_make, hsizes]; omega)]
  refine CbclExcept.bind_ok_iff.mpr ⟨_, loadValue_ok hentry hnode.key_valid hvalue
    (hread entry (by simp [SearchTree.toList])) hnode.message_le (by dsimp only; omega), ?_⟩
  dsimp only
  rw [if_neg]
  · refine congrArg Except.ok (Prod.ext rfl ?_)
    show (⟨_, _⟩ : Budget) = ⟨_, _⟩
    rw [hsizes, htotal]
    rw [Budget.mk.injEq]
    constructor <;> omega
  · have hrec := hwithin.recoverable
    rintro (hne | hne | hne)
    · exact hne rfl
    · exact Bool.false_ne_true (hne.symm.trans hrec)
    · refine hne ?_
      show make sha256 entry left right = _
      rw [← hrec]
      rfl

/-- **What was saved is recovered.** -/
theorem recover_saved {c : Cache} {e : Evidence} (hn : Built sha256 e.root)
    (hwithin : WithinBounds e.root) (hsaved : Saved c e.root) (hbal : (shape e.root).Balanced)
    (hord : (shape e.root).Ordered rank)
    (hread : ∀ entry ∈ (shape e.root).toList, Readable sha256 verify entry.value) :
    recover sha256 verify c (nodeHash e.root) = .ok e := by
  have hload := @load_spec sha256 verify c e.root hn hwithin hsaved hbal hord hread MAX_DEPTH
    none none ⟨0, 0⟩ ?_ (fun _ _ => ⟨(nomatch ·, ·), (nomatch ·, ·)⟩)
    (by simpa using hwithin.size_le) (by simpa using hwithin.bytes_le)
  · cases e with
    | mk root =>
    cases hroot : nodeHash root with
    | none =>
        cases root with
        | nil => rfl
        | node => exact nomatch hroot
    | some id =>
        dsimp only at hload
        rw [hroot] at hload
        exact CbclExcept.bind_ok_iff.mpr ⟨_, hload, rfl⟩
  · rcases hn.cases with hroot | ⟨entry, left, right, hroot, -⟩
    · rw [hroot]
      exact Nat.zero_le _
    · rw [hroot] at hwithin ⊢
      exact hwithin.node.height_le

end Recovery

end CbclEvidence
