import Cbcl.CoverageModel
import Cbcl.ReaderModel
import Cbcl.SparseMerkleProofs
import Cbcl.TypedAddrProofs
import Cbcl.ExceptProofs

/-!
# The coverage tree is an authenticated set

The compressed tree of `coverage.rs` is measured against the sparse Merkle tree of its keys.  A
node is `Sound` if its keys part where it says they do and its digest is the one a `joined` node
would get; then `lifted` is the subtree of the reference tree at every depth above the node, and
insertion, lookup and proofs are facts about lists of keys.
-/

namespace CbclCoverage

open CbclCanonical CbclTypedAddr CbclCodec CbclSparseMerkle CbclSparseMerkle.Scheme

-- ── Bits ────

theorem octetBit_eq (b : UInt8) {i : Nat} (hi : i < 8) :
    octetBit b i = b.toBitVec.getLsbD (7 - i) := by
  have hall : ∀ (b : Fin 256) (i : Fin 8),
      octetBit (UInt8.ofFin b) i.val = (UInt8.ofFin b).toBitVec.getLsbD (7 - i.val) := by
    decide +kernel
  exact hall b.toFin ⟨i, hi⟩

theorem octetBit_xor (a b : UInt8) {i : Nat} (hi : i < 8) :
    octetBit (a ^^^ b) i = (octetBit a i ^^ octetBit b i) := by
  rw [octetBit_eq _ hi, octetBit_eq _ hi, octetBit_eq _ hi, UInt8.toBitVec_xor, BitVec.getLsbD_xor]

/-- Octets with the same bits are the same. -/
theorem octet_ext {a b : UInt8} (h : ∀ i < 8, octetBit a i = octetBit b i) : a = b := by
  refine UInt8.eq_of_toBitVec_eq (BitVec.eq_of_getLsbD_eq fun i hi => ?_)
  have hbit := h (7 - i) (by omega)
  rw [octetBit_eq _ (by omega), octetBit_eq _ (by omega)] at hbit
  rwa [show 7 - (7 - i) = i by omega] at hbit

/-- Keys with the same octets are the same. -/
theorem key_ext {a b : Digest} (h : ∀ i < 32, octetAt a i = octetAt b i) : a = b := by
  refine Vector.ext fun i hi => ?_
  have hat := h i hi
  unfold octetAt at hat
  rwa [List.getElem?_eq_getElem (by simpa using hi), List.getElem?_eq_getElem (by simpa using hi),
    Option.getD_some, Option.getD_some, Vector.getElem_toList, Vector.getElem_toList] at hat

theorem bit_at (k : Digest) {i j : Nat} (hj : j < 8) :
    bit k (i * 8 + j) = octetBit (octetAt k i) j := by
  show octetBit (octetAt k ((i * 8 + j) / 8)) ((i * 8 + j) % 8) = _
  rw [show (i * 8 + j) / 8 = i by omega, show (i * 8 + j) % 8 = j by omega]

/-- **A key is its bits.** -/
theorem bits_ext {a b : Digest} (h : ∀ i < DEPTH, bit a i = bit b i) : a = b := by
  refine key_ext fun i hi => octet_ext fun j hj => ?_
  have hbit := h (i * 8 + j) (by show _ < 256; omega)
  rwa [bit_at a hj, bit_at b hj] at hbit

/-- The leading zeros of an octet end at its first bit. -/
theorem leadingZeros_spec {b : UInt8} (hb : b ≠ 0) :
    leadingZeros b < 8 ∧ octetBit b (leadingZeros b) = true ∧
      ∀ i < leadingZeros b, octetBit b i = false := by
  have hall : ∀ b : Fin 256, UInt8.ofFin b ≠ 0 →
      leadingZeros (UInt8.ofFin b) < 8 ∧
        octetBit (UInt8.ofFin b) (leadingZeros (UInt8.ofFin b)) = true ∧
        ∀ i < leadingZeros (UInt8.ofFin b), octetBit (UInt8.ofFin b) i = false := by
    decide +kernel
  exact hall b.toFin hb

/-- **The first different bit**: keys agree below it, and differ at it unless they are the same. -/
theorem common_spec (a b : Digest) :
    common a b ≤ DEPTH ∧ (∀ i < common a b, bit a i = bit b i) ∧
      (common a b < DEPTH → bit a (common a b) ≠ bit b (common a b)) := by
  unfold common
  cases hfind : (List.range 32).find? fun i => octetAt a i ^^^ octetAt b i ≠ 0 with
  | none =>
      have hsame : a = b := key_ext fun i hi => by
        have hno := List.find?_eq_none.mp hfind i (List.mem_range.mpr hi)
        simpa [UInt8.xor_eq_zero_iff] using hno
      refine ⟨Nat.le_refl _, fun i _ => by rw [hsame], fun hlt => ?_⟩
      exact absurd hlt (Nat.lt_irrefl _)
  | some j =>
      obtain ⟨hne, hj, hbefore⟩ := List.find?_range_eq_some.mp hfind
      have hj32 : j < 32 := List.mem_range.mp hj
      have hxor : octetAt a j ^^^ octetAt b j ≠ 0 := by simpa using hne
      obtain ⟨hlt, hone, hzero⟩ := leadingZeros_spec hxor
      have hsame : ∀ i < j, octetAt a i = octetAt b i := by
        intro i hi
        simpa [UInt8.xor_eq_zero_iff] using hbefore i hi
      refine ⟨by show _ ≤ 256; dsimp only; omega, fun i hi => ?_, fun _ => ?_⟩
      · show octetBit (octetAt a (i / 8)) (i % 8) = octetBit (octetAt b (i / 8)) (i % 8)
        dsimp only at hi
        rcases Nat.lt_or_ge (i / 8) j with hij | hij
        · rw [hsame _ hij]
        · have hzi := hzero (i % 8) (by omega)
          rw [octetBit_xor _ _ (by omega)] at hzi
          rw [show i / 8 = j by omega]
          simpa using hzi
      · dsimp only
        rw [bit_at a hlt, bit_at b hlt]
        rw [octetBit_xor _ _ hlt] at hone
        simpa using hone

/-- Keys part somewhere unless they are the same. -/
theorem common_lt {a b : Digest} (h : a ≠ b) : common a b < DEPTH := by
  refine lt_of_le_of_ne (common_spec a b).1 fun heq => h (bits_ext fun i hi => ?_)
  exact (common_spec a b).2.1 i (by rw [heq]; exact hi)

/-- Keys that agree above a depth part no earlier. -/
theorem le_common {a b : Digest} {d : Nat} (hd : d ≤ DEPTH) (h : ∀ i < d, bit a i = bit b i) :
    d ≤ common a b := by
  by_contra hlt
  exact (common_spec a b).2.2 (by omega) (h _ (by omega))

-- ── The reference tree ────

section Hashing

variable (sha256 : Octets → Digest)

/-- What the coverage tree hashes, as octets. -/
def hashedOctets : Preimage Digest Digest → Octets
  | .leaf k => putBytes (octets LEAF) ++ putBytes (bigEndian 2 0 ++ k.toList)
  | .empty => putBytes (octets EMPTY) ++ putBytes (bigEndian 2 0)
  | .node d l r => putBytes (octets NODE) ++
      putBytes (bigEndian 2 (DEPTH - d) ++ l.toList ++ r.toList)

/-- The reference tree: a full binary tree with 256 levels. -/
def reference : Scheme Digest Digest where
  depth := DEPTH
  bit := bit
  hash := fun p => sha256 (hashedOctets p)
  ext := bits_ext

/-- The keys below a node. -/
def Node.keys : Node → List Digest
  | .tip k _ => [k]
  | .fork _ _ _ l r => l.keys ++ r.keys

/-- A node whose keys part where it says and whose digest is that of its children. -/
def Sound : Node → Prop
  | .tip k h => h = leaf sha256 k
  | .fork k d h l r =>
      Sound l ∧ Sound r ∧ d < DEPTH ∧ k = l.key ∧
        h = branch sha256 d (lifted sha256 l (d + 1)) (lifted sha256 r (d + 1)) ∧
        (reference sha256).Agree d (l.keys ++ r.keys) ∧
        (∀ x ∈ l.keys, bit x d = false) ∧ ∀ x ∈ r.keys, bit x d = true

variable {sha256}

theorem key_mem : ∀ {n : Node}, Sound sha256 n → n.key ∈ n.keys
  | .tip _ _, _ => List.mem_singleton_self _
  | .fork _ _ _ l _, h => by
      obtain ⟨hl, -, -, hk, -⟩ := h
      show _ ∈ l.keys ++ _
      rw [show (Node.fork _ _ _ _ _).key = l.key from hk]
      exact List.mem_append_left _ (key_mem hl)

theorem Sound.depth_le {n : Node} (h : Sound sha256 n) : n.depth ≤ DEPTH := by
  cases n with
  | tip k hash => exact Nat.le_refl _
  | fork k d hash l r => exact Nat.le_of_lt h.2.2.1

/-- The keys below a node agree above its depth. -/
theorem Sound.agree {n : Node} (h : Sound sha256 n) : (reference sha256).Agree n.depth n.keys := by
  cases n with
  | tip k hash =>
      intro a ha b hb i _
      rw [List.mem_singleton.mp ha, List.mem_singleton.mp hb]
  | fork k d hash l r => exact h.2.2.2.2.2.1

/-- A node branches below what its keys have in common. -/
theorem Sound.le_depth {n : Node} (h : Sound sha256 n) {d : Nat} (hd : d ≤ DEPTH)
    (hagree : (reference sha256).Agree d n.keys) : d ≤ n.depth := by
  cases n with
  | tip k hash => exact hd
  | fork k e hash l r =>
      obtain ⟨hl, hr, -, -, -, -, hleft, hright⟩ := h
      by_contra hlt
      have hsame := hagree l.key (List.mem_append_left _ (key_mem hl)) r.key
        (List.mem_append_right _ (key_mem hr)) e (by simpa [Node.depth] using hlt)
      have hbits : bit l.key e = bit r.key e := hsame
      rw [hleft _ (key_mem hl), hright _ (key_mem hr)] at hbits
      exact nomatch hbits

/-- An empty subtree of the reference tree has the digest of the table. -/
theorem empties_eq {d : Nat} (hd : d ≤ DEPTH) :
    empties sha256 d = (reference sha256).subtree d [] := by
  have hgen : ∀ h d, d + h = DEPTH → emptyOf sha256 h = (reference sha256).subtree d [] := by
    intro h
    induction h with
    | zero =>
        intro d hd
        rw [show d = (reference sha256).depth from hd, subtree_bottom]
        rfl
    | succ h ih =>
        intro d hd
        have hlt : d < (reference sha256).depth := by show d < DEPTH; omega
        rw [subtree_lt _ hlt, List.filter_nil, List.filter_nil, ← ih (d + 1) (by omega), emptyOf,
          show DEPTH - (h + 1) = d by omega]
        rfl
  exact hgen (DEPTH - d) d (by omega)

/-- One step of `lifted` climbs beside an empty subtree. -/
theorem lifted_step {n : Node} {d : Nat} (hd : d < n.depth) :
    lifted sha256 n d = liftStep sha256 n.key d (lifted sha256 n (d + 1)) := by
  unfold lifted
  rw [show n.depth - d = (n.depth - (d + 1)) + 1 by omega, List.range'_succ, List.foldr_cons]

/-- **Lifting**: above a node nothing branches, so its digest climbs to the reference subtree. -/
theorem lifted_of_hash {n : Node} (h : Sound sha256 n)
    (hhash : n.hash = (reference sha256).subtree n.depth n.keys) :
    ∀ {d : Nat}, d ≤ n.depth → lifted sha256 n d = (reference sha256).subtree d n.keys := by
  intro d hd
  obtain ⟨m, hm⟩ : ∃ m, d + m = n.depth := ⟨n.depth - d, by omega⟩
  induction m generalizing d with
  | zero =>
      have hdn : d = n.depth := hm
      subst hdn
      unfold lifted
      rw [Nat.sub_self]
      exact hhash
  | succ m ih =>
      have hlt : d < n.depth := by omega
      have hD : d < DEPTH := Nat.lt_of_lt_of_le hlt h.depth_le
      have hside : ∀ k ∈ n.keys, (reference sha256).bit k d = bit n.key d := fun k hk =>
        h.agree k hk n.key (key_mem h) d hlt
      have hagree : (reference sha256).Agree d n.keys := fun a ha b hb i hi =>
        h.agree a ha b hb i (by omega)
      rw [lifted_step hlt, ih (d := d + 1) (by omega) (by omega), subtree_side hD hagree hside, liftStep,
        empties_eq (by omega)]
      split <;> rfl

/-- **The digest of a node** is the reference subtree at its depth. -/
theorem hash_eq : ∀ {n : Node}, Sound sha256 n →
    n.hash = (reference sha256).subtree n.depth n.keys
  | .tip k g, h => by
      show g = (reference sha256).subtree (reference sha256).depth [k]
      rw [subtree_bottom, show g = leaf sha256 k from h]
      rfl
  | .fork k d g l r, h => by
      obtain ⟨hl, hr, hd, -, hhash, hall, hleft, hright⟩ := h
      have hdl : d + 1 ≤ l.depth :=
        hl.le_depth hd ((hall.sub (List.subset_append_left _ _)).side hleft)
      have hdr : d + 1 ≤ r.depth :=
        hr.le_depth hd ((hall.sub (List.subset_append_right _ _)).side hright)
      show g = (reference sha256).subtree d (l.keys ++ r.keys)
      rw [hhash, lifted_of_hash hl (hash_eq hl) hdl, lifted_of_hash hr (hash_eq hr) hdr,
        subtree_split hd hall (fun _ => List.mem_append) hleft hright]
      rfl

theorem lifted_eq {n : Node} (h : Sound sha256 n) {d : Nat} (hd : d ≤ n.depth) :
    lifted sha256 n d = (reference sha256).subtree d n.keys := lifted_of_hash h (hash_eq h) hd

-- ── Insertion and lookup ────

/-- Two sound nodes whose keys part at a depth join to a sound node. -/
theorem joined_sound {d : Nat} {l r : Node} (hl : Sound sha256 l) (hr : Sound sha256 r)
    (hd : d < DEPTH) (hagree : (reference sha256).Agree d (l.keys ++ r.keys))
    (hleft : ∀ x ∈ l.keys, bit x d = false) (hright : ∀ x ∈ r.keys, bit x d = true) :
    Sound sha256 (joined sha256 d l r) := ⟨hl, hr, hd, rfl, rfl, hagree, hleft, hright⟩

/-- The keys of a node differ from a key that leaves its edge where its own key does. -/
theorem Sound.leaves {n : Node} (h : Sound sha256 n) {k : Digest} (hlt : common n.key k < n.depth) :
    ∀ x ∈ n.keys, (∀ i < common n.key k, bit x i = bit k i) ∧
      bit x (common n.key k) ≠ bit k (common n.key k) := by
  intro x hx
  have hspec := common_spec n.key k
  have hat : ∀ i < n.depth, bit x i = bit n.key i := h.agree x hx n.key (key_mem h)
  refine ⟨fun i hi => ?_, ?_⟩
  · rw [hat i (by omega), hspec.2.1 i hi]
  · rw [hat _ hlt]
    exact hspec.2.2 (Nat.lt_of_lt_of_le hlt h.depth_le)

/-- The keys of a node agree with a key that stays on its edge. -/
theorem Sound.stays {n : Node} (h : Sound sha256 n) {k : Digest} (hge : ¬ common n.key k < n.depth) :
    ∀ x ∈ n.keys, ∀ i < n.depth, bit x i = bit k i := by
  intro x hx i hi
  have hat : bit x i = bit n.key i := h.agree x hx n.key (key_mem h) i hi
  rw [hat, (common_spec n.key k).2.1 i (by omega)]

theorem not_mem_of_lt {n : Node} (h : Sound sha256 n) {k : Digest}
    (hlt : common n.key k < n.depth) : k ∉ n.keys := fun hk => (h.leaves hlt k hk).2 rfl

theorem tip_stays {k nk g : Digest} (hge : ¬ common nk k < DEPTH) :
    k ∈ (Node.tip nk g).keys := by
  refine List.mem_singleton.mpr ?_
  by_contra hne
  exact hge (common_lt (Ne.symm hne))

/-- Bits that differ from each other are each other's negations. -/
theorem bit_flip {a b c : Bool} (h : a ≠ b) (hb : b = c) : a = !c := by
  cases a <;> cases b <;> cases c <;> simp_all

/-- **Splitting a compressed edge** adds the key that leaves it. -/
theorem splitAt_sound {n : Node} (h : Sound sha256 n) {k : Digest}
    (hlt : common n.key k < n.depth) :
    Sound sha256 (splitAt sha256 (common n.key k) n k) ∧
      ∀ x, x ∈ (splitAt sha256 (common n.key k) n k).keys ↔ x = k ∨ x ∈ n.keys := by
  have hD : common n.key k < DEPTH := Nat.lt_of_lt_of_le hlt h.depth_le
  have hleaf : Sound sha256 (newLeaf sha256 k) := rfl
  have hbelow : ∀ x, x ∈ [k] ∨ x ∈ n.keys → ∀ i < common n.key k, bit x i = bit k i := by
    rintro x (hx | hx) i hi
    · rw [List.mem_singleton.mp hx]
    · exact (h.leaves hlt x hx).1 i hi
  unfold splitAt
  split
  · rename_i hbit
    refine ⟨joined_sound h hleaf hD ?_ (fun x hx => ?_) (fun x hx => ?_), fun x => ?_⟩
    · intro a ha b hb i hi
      show bit a i = bit b i
      rw [hbelow a (List.mem_append.mp ha).symm i hi, hbelow b (List.mem_append.mp hb).symm i hi]
    · exact bit_flip (h.leaves hlt x hx).2 hbit
    · rw [List.mem_singleton.mp hx]
      exact hbit
    · show x ∈ n.keys ++ [k] ↔ _
      rw [List.mem_append, List.mem_singleton, or_comm]
  · rename_i hbit
    have hbit : bit k (common n.key k) = false := by simpa using hbit
    refine ⟨joined_sound hleaf h hD ?_ (fun x hx => ?_) (fun x hx => ?_), fun x => ?_⟩
    · intro a ha b hb i hi
      show bit a i = bit b i
      rw [hbelow a (List.mem_append.mp ha) i hi, hbelow b (List.mem_append.mp hb) i hi]
    · rw [List.mem_singleton.mp hx]
      exact hbit
    · exact bit_flip (h.leaves hlt x hx).2 hbit
    · show x ∈ [k] ++ n.keys ↔ _
      rw [List.mem_append, List.mem_singleton]

/-- **One insertion**: an unchanged node already had the key; a changed one is sound and has the
    keys of the old one and the new key. -/
theorem inserted_sound : ∀ {n : Node}, Sound sha256 n → ∀ k,
    ((inserted sha256 n k).2 = true → k ∈ n.keys) ∧
      ((inserted sha256 n k).2 = false → Sound sha256 (inserted sha256 n k).1 ∧
        ∀ x, x ∈ (inserted sha256 n k).1.keys ↔ x = k ∨ x ∈ n.keys)
  | .tip nk g, h, k => by
      rw [inserted]
      by_cases hlt : common nk k < DEPTH
      · rw [if_pos hlt]
        exact ⟨(fun hno => nomatch hno), fun _ => splitAt_sound h hlt⟩
      · rw [if_neg hlt]
        exact ⟨fun _ => tip_stays hlt, fun hno => nomatch hno⟩
  | .fork nk d g l r, h, k => by
      rw [inserted]
      by_cases hlt : common nk k < d
      · rw [if_pos hlt]
        exact ⟨(fun hno => nomatch hno), fun _ => splitAt_sound h hlt⟩
      · rw [if_neg hlt]
        have hstays := h.stays (k := k) hlt
        obtain ⟨hl, hr, hd, hkey, -, hall, hleft, hright⟩ := h
        -- adding a key that stays on the edge keeps the agreement above the node
        have hagree : ∀ ks, (∀ x ∈ ks, x = k ∨ x ∈ l.keys ++ r.keys) →
            (reference sha256).Agree d ks := by
          intro ks hks
          have hto : ∀ x ∈ ks, ∀ i < d, bit x i = bit k i := by
            intro x hx i hi
            rcases hks x hx with rfl | hx
            · rfl
            · exact hstays x hx i hi
          intro a ha b hb i hi
          show bit a i = bit b i
          rw [hto a ha i hi, hto b hb i hi]
        by_cases hbit : bit k d = true
        · rw [if_pos hbit]
          obtain ⟨hsame, hnext⟩ := inserted_sound hr k
          generalize inserted sha256 r k = out at hsame hnext ⊢
          obtain ⟨next, same⟩ := out
          cases same with
          | true => exact ⟨fun _ => List.mem_append_right _ (hsame rfl), fun hno => nomatch hno⟩
          | false =>
              obtain ⟨hsound, hmem⟩ := hnext rfl
              have hkeys : ∀ x, x ∈ l.keys ++ next.keys ↔ x = k ∨ x ∈ l.keys ++ r.keys := by
                intro x
                rw [List.mem_append, hmem, List.mem_append, or_left_comm]
              refine ⟨(fun hno => nomatch hno), fun _ => ⟨?_, hkeys⟩⟩
              refine joined_sound hl hsound hd (hagree _ fun x hx => (hkeys x).mp hx) hleft ?_
              intro x hx
              rcases (hmem x).mp hx with rfl | hx
              · exact hbit
              · exact hright x hx
        · rw [if_neg hbit]
          obtain ⟨hsame, hnext⟩ := inserted_sound hl k
          generalize inserted sha256 l k = out at hsame hnext ⊢
          obtain ⟨next, same⟩ := out
          cases same with
          | true => exact ⟨fun _ => List.mem_append_left _ (hsame rfl), fun hno => nomatch hno⟩
          | false =>
              obtain ⟨hsound, hmem⟩ := hnext rfl
              have hkeys : ∀ x, x ∈ next.keys ++ r.keys ↔ x = k ∨ x ∈ l.keys ++ r.keys := by
                intro x
                rw [List.mem_append, hmem, List.mem_append, or_assoc]
              refine ⟨(fun hno => nomatch hno), fun _ => ⟨?_, hkeys⟩⟩
              refine joined_sound hsound hr hd (hagree _ fun x hx => (hkeys x).mp hx) ?_ hright
              intro x hx
              rcases (hmem x).mp hx with rfl | hx
              · simpa using hbit
              · exact hleft x hx

/-- The side of a node a key is on, when it is below the node. -/
theorem mem_fork {nk g k : Digest} {d : Nat} {l r : Node} (h : Sound sha256 (.fork nk d g l r)) :
    k ∈ (Node.fork nk d g l r).keys ↔ if bit k d then k ∈ r.keys else k ∈ l.keys := by
  obtain ⟨-, -, -, -, -, -, hleft, hright⟩ := h
  show k ∈ l.keys ++ r.keys ↔ _
  rw [List.mem_append]
  split
  · rename_i hbit
    refine or_iff_right fun hk => ?_
    rw [hleft k hk] at hbit
    exact nomatch hbit
  · rename_i hbit
    exact or_iff_left fun hk => hbit (hright k hk)

/-- **Lookup is membership.** -/
theorem holds_iff {k : Digest} : ∀ {n : Node}, Sound sha256 n → (holds n k = true ↔ k ∈ n.keys)
  | .tip nk g, h => by
      rw [holds]
      by_cases hlt : common nk k < DEPTH
      · exact iff_of_false (by simp [hlt]) (not_mem_of_lt h hlt)
      · exact iff_of_true (by simp [hlt]) (tip_stays hlt)
  | .fork nk d g l r, h => by
      rw [holds]
      by_cases hlt : common nk k < d
      · rw [if_pos hlt]
        exact iff_of_false Bool.false_ne_true (not_mem_of_lt h hlt)
      · rw [if_neg hlt, mem_fork h]
        split
        · exact holds_iff h.2.1
        · exact holds_iff h.1

-- ── Proofs of membership ────

/-- Keys none of which leaves a path at a depth have there the sibling of no keys. -/
theorem sibling_none {k : Digest} {keys : List Digest} {d : Nat} (hd : d < DEPTH)
    (h : ∀ x ∈ keys, (∀ i < d, bit x i = bit k i) → bit x d = bit k d) :
    (reference sha256).sibling k keys d = (reference sha256).sibling k [] d := by
  refine sibling_congr hd fun x => ?_
  rw [mem_leaving, mem_leaving]
  refine iff_of_false (fun hx => ?_) fun hx => nomatch hx.1
  exact hx.2.2 (h x hx.1 hx.2.1)

theorem sibling_nil {k : Digest} {d : Nat} (hd : d < DEPTH) :
    (reference sha256).sibling k [] d = empties sha256 (d + 1) := by
  rw [empties_eq hd]
  rfl

/-- The digest of a node that holds the keys leaving a path is the sibling there. -/
theorem sibling_node {k : Digest} {keys : List Digest} {d : Nat} {n : Node} (hn : Sound sha256 n)
    (hd : d < n.depth) (h : ∀ x, x ∈ n.keys ↔ x ∈ keys ∧ (∀ i < d, bit x i = bit k i) ∧
      bit x d ≠ bit k d) :
    (reference sha256).sibling k keys d = lifted sha256 n (d + 1) := by
  rw [lifted_eq hn hd]
  refine subtree_same (Nat.lt_of_lt_of_le hd hn.depth_le) (agree_leaving k d keys) fun x => ?_
  rw [h]
  exact mem_leaving

/-- Siblings that are those of a key among some keys, from some depth on. -/
def Siblings (sha256 : Octets → Digest) (k : Digest) (keys : List Digest) (lo : Nat)
    (siblings : List Digest) : Prop :=
  siblings.length = DEPTH ∧
    ∀ d, lo ≤ d → d < DEPTH → siblings[d]? = some ((reference sha256).sibling k keys d)

/-- A step of the walk sets the sibling where the path meets the keys; none of them leaves it
    further up. -/
theorem Siblings.set {k : Digest} {keys : List Digest} {lo c : Nat} {siblings : List Digest}
    (h : Siblings sha256 k [] lo siblings) (hlo : lo ≤ c) (hc : c < DEPTH)
    (habove : ∀ x ∈ keys, ∀ i < c, bit x i = bit k i) {g : Digest}
    (hg : (reference sha256).sibling k keys c = g) :
    Siblings sha256 k [] (c + 1) (siblings.set c g) ∧
      (∀ d, lo ≤ d → d < c + 1 →
        (siblings.set c g)[d]? = some ((reference sha256).sibling k keys d)) ∧
      ∀ d < lo, (siblings.set c g)[d]? = siblings[d]? := by
  obtain ⟨hlen, hat⟩ := h
  refine ⟨⟨by rw [List.length_set, hlen], fun d hd hD => ?_⟩, fun d hd hdc => ?_, fun d hd => ?_⟩
  · rw [List.getElem?_set_ne (by omega), hat d (by omega) hD]
  · rcases Nat.lt_succ_iff_lt_or_eq.mp hdc with hlt | rfl
    · rw [List.getElem?_set_ne (by omega), hat d hd (by omega),
        sibling_none (by omega) fun x hx _ => habove x hx d hlt]
    · rw [List.getElem?_set_self (by omega), hg]
  · rw [List.getElem?_set_ne (by omega)]

/-- A walk that stops where the key leaves an edge has all the siblings. -/
theorem Siblings.stop {k : Digest} {n : Node} {lo : Nat} {siblings : List Digest}
    (h : Siblings sha256 k [] lo siblings) (hn : Sound sha256 n)
    (hlt : common n.key k < n.depth) (hlo : lo ≤ common n.key k) :
    Siblings sha256 k n.keys lo
        (siblings.set (common n.key k) (lifted sha256 n (common n.key k + 1))) ∧
      ∀ d < lo, (siblings.set (common n.key k) (lifted sha256 n (common n.key k + 1)))[d]?
        = siblings[d]? := by
  have hleaves := hn.leaves hlt
  have hc : common n.key k < DEPTH := Nat.lt_of_lt_of_le hlt hn.depth_le
  have hnode : (reference sha256).sibling k n.keys (common n.key k)
      = lifted sha256 n (common n.key k + 1) :=
    sibling_node hn hlt fun x => ⟨fun hx => ⟨hx, hleaves x hx⟩, fun hx => hx.1⟩
  obtain ⟨hbelow, habove, hsame⟩ := h.set hlo hc (fun x hx => (hleaves x hx).1) hnode
  refine ⟨⟨hbelow.1, fun d hd hD => ?_⟩, hsame⟩
  rcases Nat.lt_or_ge d (common n.key k + 1) with hdc | hdc
  · exact habove d hd hdc
  · have hnone : (reference sha256).sibling k n.keys d = (reference sha256).sibling k [] d :=
      sibling_none hD fun x hx hbits => absurd (hbits _ hdc) (hleaves x hx).2
    rw [hbelow.2 d hdc hD, hnone]

/-- A walk that goes on to one child has the siblings down to it. -/
theorem Siblings.go {k : Digest} {keys here there : List Digest} {lo c : Nat}
    {siblings out : List Digest} {g : Digest} (h : Siblings sha256 k [] lo siblings) (hlo : lo ≤ c)
    (hc : c < DEPTH) (habove : ∀ x ∈ keys, ∀ i < c, bit x i = bit k i)
    (hg : (reference sha256).sibling k keys c = g)
    (hkeys : ∀ x, x ∈ keys ↔ x ∈ here ∨ x ∈ there) (hthere : ∀ x ∈ there, bit x c ≠ bit k c)
    (hout : Siblings sha256 k here (c + 1) out)
    (hkept : ∀ d < c + 1, out[d]? = (siblings.set c g)[d]?) :
    Siblings sha256 k keys lo out ∧ ∀ d < lo, out[d]? = siblings[d]? := by
  obtain ⟨-, hset, hsame⟩ := h.set hlo hc habove hg
  refine ⟨⟨hout.1, fun d hd hD => ?_⟩, fun d hd => ?_⟩
  · rcases Nat.lt_or_ge d (c + 1) with hdc | hdc
    · rw [hkept d hdc, hset d hd hdc]
    · rw [hout.2 d hdc hD]
      refine congrArg some (sibling_congr hD fun x => ?_)
      rw [mem_leaving, mem_leaving, hkeys]
      constructor
      · rintro ⟨hx, hrest⟩
        exact ⟨Or.inl hx, hrest⟩
      · rintro ⟨hx | hx, hbits, hne⟩
        · exact ⟨hx, hbits, hne⟩
        · exact absurd (hbits c hdc) (hthere x hx)
  · rw [hkept d (by omega), hsame d hd]

/-- **The walk fills in the siblings of the key**, and finds out whether it is there. -/
theorem walk_siblings {k : Digest} : ∀ {n : Node}, Sound sha256 n → ∀ {lo : Nat}
    {siblings : List Digest}, (∀ x ∈ n.keys, ∀ i < lo, bit x i = bit k i) → lo ≤ DEPTH →
    Siblings sha256 k [] lo siblings →
    ((walk sha256 k n siblings).present = true ↔ k ∈ n.keys) ∧
      Siblings sha256 k n.keys lo (walk sha256 k n siblings).siblings ∧
      ∀ d < lo, (walk sha256 k n siblings).siblings[d]? = siblings[d]?
  | .tip nk g, h, lo, siblings, hlo, hD, hs => by
      have hkey : lo ≤ common nk k := le_common hD (hlo nk (List.mem_singleton_self _))
      rw [walk]
      by_cases hlt : common nk k < DEPTH
      · rw [if_pos hlt]
        exact ⟨iff_of_false Bool.false_ne_true (not_mem_of_lt h hlt), hs.stop h hlt hkey⟩
      · rw [if_neg hlt]
        have hmem := @tip_stays k nk g hlt
        refine ⟨iff_of_true rfl hmem, ⟨hs.1, fun d hd hd' => ?_⟩, fun _ _ => rfl⟩
        rw [hs.2 d hd hd', show (Node.tip nk g).keys = [k] by rw [List.mem_singleton.mp hmem]; rfl]
        exact congrArg some (sibling_insert hd').symm
  | .fork nk c g l r, h, lo, siblings, hlo, hD, hs => by
      have hstop := hs.stop (n := .fork nk c g l r) h
      have hmem := mem_fork (k := k) h
      have hkey : lo ≤ common nk k := le_common hD (hlo nk (key_mem h))
      have hdepth : lo ≤ c := h.le_depth hD fun a ha b hb i hi => by
        show bit a i = bit b i
        rw [hlo a ha i hi, hlo b hb i hi]
      rw [walk]
      by_cases hlt : common nk k < c
      · rw [if_pos hlt]
        exact ⟨iff_of_false Bool.false_ne_true (not_mem_of_lt h hlt), hstop hlt hkey⟩
      · rw [if_neg hlt]
        have habove := h.stays (k := k) hlt
        obtain ⟨hl, hr, hc, -, -, hall, hleft, hright⟩ := h
        have hdl : c < l.depth := hl.le_depth hc ((hall.sub (List.subset_append_left _ _)).side hleft)
        have hdr : c < r.depth :=
          hr.le_depth hc ((hall.sub (List.subset_append_right _ _)).side hright)
        by_cases hbit : bit k c = true
        · rw [if_pos hbit] at hmem ⊢
          have hleave : ∀ x ∈ l.keys, bit x c ≠ bit k c := fun x hx => by
            rw [hleft x hx, hbit]
            exact Bool.false_ne_true
          have hto : ∀ x ∈ r.keys, ∀ i < c + 1, bit x i = bit k i := fun x hx i hi => by
            rcases Nat.lt_succ_iff_lt_or_eq.mp hi with hi | rfl
            · exact habove x (List.mem_append_right _ hx) i hi
            · rw [hright x hx, hbit]
          have hnode : (reference sha256).sibling k (l.keys ++ r.keys) c
              = lifted sha256 l (c + 1) := by
            refine sibling_node hl hdl fun x => ⟨fun hx => ?_, fun hx => ?_⟩
            · exact ⟨List.mem_append_left _ hx, habove x (List.mem_append_left _ hx), hleave x hx⟩
            · exact (List.mem_append.mp hx.1).resolve_right fun hx' =>
                hx.2.2 (hto x hx' c (Nat.lt_succ_self c))
          have hbelow := (hs.set hdepth hc habove hnode).1
          obtain ⟨hpresent, hout, hkept⟩ := walk_siblings hr hto hc hbelow
          exact ⟨hpresent.trans hmem.symm, hs.go hdepth hc habove hnode
            (fun x => by rw [show (Node.fork nk c g l r).keys = l.keys ++ r.keys from rfl,
              List.mem_append, or_comm]) hleave hout hkept⟩
        · rw [if_neg hbit] at hmem ⊢
          have hbit : bit k c = false := by simpa using hbit
          have hleave : ∀ x ∈ r.keys, bit x c ≠ bit k c := fun x hx => by
            rw [hright x hx, hbit]
            exact Bool.false_ne_true.symm
          have hto : ∀ x ∈ l.keys, ∀ i < c + 1, bit x i = bit k i := fun x hx i hi => by
            rcases Nat.lt_succ_iff_lt_or_eq.mp hi with hi | rfl
            · exact habove x (List.mem_append_left _ hx) i hi
            · rw [hleft x hx, hbit]
          have hnode : (reference sha256).sibling k (l.keys ++ r.keys) c
              = lifted sha256 r (c + 1) := by
            refine sibling_node hr hdr fun x => ⟨fun hx => ?_, fun hx => ?_⟩
            · exact ⟨List.mem_append_right _ hx, habove x (List.mem_append_right _ hx), hleave x hx⟩
            · exact (List.mem_append.mp hx.1).resolve_left fun hx' =>
                hx.2.2 (hto x hx' c (Nat.lt_succ_self c))
          have hbelow := (hs.set hdepth hc habove hnode).1
          obtain ⟨hpresent, hout, hkept⟩ := walk_siblings hl hto hc hbelow
          exact ⟨hpresent.trans hmem.symm, hs.go hdepth hc habove hnode
            (fun x => List.mem_append) hleave hout hkept⟩

-- ── Runs ────

/-- A coverage set of some keys. -/
structure Covers (sha256 : Octets → Digest) (c : Coverage) (keys : List Digest) : Prop where
  root : c.root = (reference sha256).root keys
  empty : c.tree = none → keys = []
  tree : ∀ n, c.tree = some n → Sound sha256 n ∧ ∀ x, x ∈ n.keys ↔ x ∈ keys

theorem covers_default : Covers sha256 (Coverage.default sha256) [] :=
  ⟨empties_eq (Nat.zero_le _), fun _ => rfl, fun _ h => nomatch h⟩

/-- The root of a tree is the reference root of its keys. -/
theorem lifted_root {n : Node} (h : Sound sha256 n) {keys : List Digest}
    (hmem : ∀ x, x ∈ n.keys ↔ x ∈ keys) : lifted sha256 n 0 = (reference sha256).root keys := by
  rw [lifted_eq h (Nat.zero_le _)]
  exact root_congr hmem

/-- **One insertion adds one key.** -/
theorem Covers.insert {c : Coverage} {keys : List Digest} (h : Covers sha256 c keys) (id : String) :
    Covers sha256 (c.insert sha256 id) (key sha256 id :: keys) := by
  unfold Coverage.insert
  cases htree : c.tree with
  | none =>
      dsimp only
      have hleaf : Sound sha256 (newLeaf sha256 (key sha256 id)) := rfl
      have hmem : ∀ x, x ∈ (newLeaf sha256 (key sha256 id)).keys ↔
          x ∈ key sha256 id :: keys := fun x => by rw [h.empty htree]; rfl
      refine ⟨lifted_root hleaf hmem, fun hno => (nomatch hno), fun n hn => ?_⟩
      obtain rfl := Option.some.inj hn
      exact ⟨hleaf, hmem⟩
  | some n =>
      dsimp only
      obtain ⟨hsound, hkeys⟩ := h.tree n htree
      obtain ⟨hsame, hnext⟩ := inserted_sound hsound (key sha256 id)
      generalize inserted sha256 n (key sha256 id) = out at hsame hnext ⊢
      obtain ⟨next, same⟩ := out
      cases same with
      | true =>
          dsimp only
          have hold := (hkeys _).mp (hsame rfl)
          have hmem : ∀ x, x ∈ keys ↔ x ∈ key sha256 id :: keys := fun x =>
            ⟨List.mem_cons_of_mem _, fun hx => (List.mem_cons.mp hx).elim (fun he => he ▸ hold) fun hx => hx⟩
          refine ⟨h.root.trans (root_congr hmem), fun hno => ?_, fun m hm => ?_⟩
          · rw [htree] at hno
            exact nomatch hno
          · obtain ⟨hs, hm'⟩ := h.tree m hm
            exact ⟨hs, fun x => (hm' x).trans (hmem x)⟩
      | false =>
          dsimp only
          obtain ⟨hs, hout⟩ := hnext rfl
          have hmem : ∀ x, x ∈ next.keys ↔ x ∈ key sha256 id :: keys := fun x => by
            rw [List.mem_cons, ← hkeys]
            exact hout x
          refine ⟨lifted_root hs hmem, fun hno => (nomatch hno), fun m hm => ?_⟩
          obtain rfl := Option.some.inj hm
          exact ⟨hs, hmem⟩

/-- A coverage set after some insertions. -/
def inserts (sha256 : Octets → Digest) (ids : List String) : Coverage :=
  ids.foldl (Coverage.insert sha256) (Coverage.default sha256)

/-- **Every run covers the keys inserted.** -/
theorem covers_inserts (ids : List String) :
    Covers sha256 (inserts sha256 ids) (ids.map (key sha256)).reverse := by
  induction ids using List.reverseRecOn with
  | nil => exact covers_default
  | append_singleton ids id ih =>
      unfold inserts at ih ⊢
      rw [List.foldl_append, List.map_append, List.reverse_append]
      exact ih.insert id

theorem Covers.contains_iff {c : Coverage} {keys : List Digest} (h : Covers sha256 c keys)
    (id : String) : c.contains sha256 id = true ↔ key sha256 id ∈ keys := by
  unfold Coverage.contains
  cases htree : c.tree with
  | none =>
      rw [h.empty htree]
      exact iff_of_false Bool.false_ne_true List.not_mem_nil
  | some n =>
      obtain ⟨hs, hmem⟩ := h.tree n htree
      rw [Option.any_some, holds_iff hs, hmem]

/-- The siblings a proof starts from. -/
theorem siblings_empty (k : Digest) :
    Siblings sha256 k [] 0 ((List.range DEPTH).map fun d => empties sha256 (d + 1)) := by
  refine ⟨by rw [List.length_map, List.length_range], fun d _ hd => ?_⟩
  rw [List.getElem?_map, List.getElem?_range hd, sibling_nil hd]
  rfl

theorem Siblings.congr {k : Digest} {keys keys' : List Digest} {lo : Nat} {siblings : List Digest}
    (h : Siblings sha256 k keys lo siblings) (hmem : ∀ x, x ∈ keys ↔ x ∈ keys') :
    Siblings sha256 k keys' lo siblings := by
  refine ⟨h.1, fun d hd hD => ?_⟩
  rw [h.2 d hd hD]
  refine congrArg some (sibling_congr hD fun x => ?_)
  rw [mem_leaving, mem_leaving, hmem]

/-- **The proof of a key** tells whether it is covered, and holds its siblings. -/
theorem Covers.proof {c : Coverage} {keys : List Digest} (h : Covers sha256 c keys) (id : String) :
    ((c.proof sha256 id).present = true ↔ key sha256 id ∈ keys) ∧
      Siblings sha256 (key sha256 id) keys 0 (c.proof sha256 id).siblings := by
  have hstart := @siblings_empty sha256 (key sha256 id)
  unfold Coverage.proof
  cases htree : c.tree with
  | none =>
      rw [h.empty htree]
      exact ⟨iff_of_false Bool.false_ne_true List.not_mem_nil, hstart⟩
  | some n =>
      obtain ⟨hs, hmem⟩ := h.tree n htree
      obtain ⟨hpresent, hsib, -⟩ := walk_siblings hs
        (fun _ _ _ hi => absurd hi (Nat.not_lt_zero _)) (Nat.zero_le _) hstart
      exact ⟨hpresent.trans (hmem _), hsib.congr hmem⟩

-- ── Roots from proofs ────

/-- The digest a climb starts from. -/
def bottom (sha256 : Octets → Digest) (k : Digest) (present : Bool) : Digest :=
  (reference sha256).hash (start k present)

/-- A proof of full length climbs its siblings. -/
theorem rootFor_eq {p : Proof} (hlen : p.siblings.length = DEPTH) (id : String) (present : Bool) :
    p.rootFor sha256 id present = .ok ((reference sha256).climb (key sha256 id)
      p.siblingAt (bottom sha256 (key sha256 id) present) 0 DEPTH) := by
  have hgen : ∀ (k top : Digest) n d, (List.range' d n).foldr (p.climbed sha256 k) top
      = (reference sha256).climb k p.siblingAt top d n := by
    intro k top n
    induction n with
    | zero => intro d; rfl
    | succ n ih =>
        intro d
        rw [List.range'_succ, List.foldr_cons, ih, climb, Proof.climbed, climbStep]
        show _ = (reference sha256).hash (if bit k d then _ else _)
        split <;> rfl
  unfold Proof.rootFor
  rw [if_neg (not_not.mpr hlen), List.range_eq_range']
  dsimp only
  rw [hgen]
  refine congrArg (fun top => Except.ok ((reference sha256).climb _ _ top 0 DEPTH)) ?_
  cases present <;> rfl

theorem rootFor_length {p : Proof} {id : String} {present : Bool} {root : Digest}
    (h : p.rootFor sha256 id present = .ok root) : p.siblings.length = DEPTH := by
  unfold Proof.rootFor at h
  by_contra hlen
  rw [if_pos hlen] at h
  exact nomatch h

/-- Siblings of the tree climb to its root. -/
theorem Siblings.rootFor {p : Proof} {id : String} {keys : List Digest}
    (h : Siblings sha256 (key sha256 id) keys 0 p.siblings) {present : Bool}
    (hpresent : present = true ↔ key sha256 id ∈ keys) :
    p.rootFor sha256 id present = .ok ((reference sha256).root keys) := by
  rw [rootFor_eq h.1, ← climb_siblings hpresent]
  refine congrArg Except.ok (climb_congr fun d _ hd => ?_)
  unfold Proof.siblingAt
  rw [h.2 d (Nat.zero_le _) (by omega)]
  rfl

theorem Covers.root_for {c : Coverage} {keys : List Digest} (h : Covers sha256 c keys) (id : String) :
    (c.proof sha256 id).rootFor sha256 id (c.proof sha256 id).present = .ok c.root := by
  obtain ⟨hpresent, hsib⟩ := h.proof id
  rw [h.root]
  exact hsib.rootFor hpresent

/-- **Proofs of a covered set verify against its root.** -/
theorem Covers.verify {c : Coverage} {keys : List Digest} (h : Covers sha256 c keys) (id : String) :
    (c.proof sha256 id).verify sha256 c.root id = .ok () := by
  unfold Proof.verify
  rw [h.root_for id]
  exact if_neg (not_not.mpr rfl)

/-- **A path is enough to insert.** -/
theorem Covers.updatedRoot {c : Coverage} {keys : List Digest} (h : Covers sha256 c keys)
    (id : String) :
    (c.proof sha256 id).updatedRoot sha256 c.root id = .ok (c.insert sha256 id).root := by
  obtain ⟨hpresent, hsib⟩ := h.proof id
  have hinsert := (h.insert id).root
  unfold Proof.updatedRoot
  rw [h.verify id, hinsert]
  show (if (c.proof sha256 id).present = true then Except.ok c.root
    else (c.proof sha256 id).rootFor sha256 id true) = _
  split
  · rename_i hp
    have hmem := hpresent.mp hp
    rw [h.root]
    refine congrArg Except.ok (root_congr fun x => ?_)
    exact ⟨List.mem_cons_of_mem _,
      fun hx => (List.mem_cons.mp hx).elim (fun he => he ▸ hmem) fun hx => hx⟩
  · have hsib' : Siblings sha256 (key sha256 id) (key sha256 id :: keys) 0
        (c.proof sha256 id).siblings := by
      refine ⟨hsib.1, fun d hd hD => ?_⟩
      rw [hsib.2 d hd hD, sibling_insert hD]
    exact hsib'.rootFor (iff_of_true rfl (List.mem_cons_self ..))

-- ── What is hashed ────

/-- The octets hashed for the key of an identity. -/
def keyOctets (id : String) : Octets := putBytes (octets KEY) ++ putBytes (octets id)

/-- The octets hashed by a proof on its way to a root. -/
def Proof.hashedOctets (sha256 : Octets → Digest) (p : Proof) (id : String) : List Octets :=
  CbclCoverage.hashedOctets (start (key sha256 id) p.present) ::
    ((reference sha256).climbed (key sha256 id) p.siblingAt
      (bottom sha256 (key sha256 id) p.present) 0 DEPTH).map CbclCoverage.hashedOctets

/-- The octets hashed by insertions, and by a proof and the proof of the tree for one identity. -/
def hashedBy (sha256 : Octets → Digest) (ids : List String) (id : String) (p : Proof) :
    Set Octets :=
  {os | os ∈ (id :: ids).map keyOctets ∨ os ∈ p.hashedOctets sha256 id ∨
    os ∈ ((inserts sha256 ids).proof sha256 id).hashedOctets sha256 id}

/-- A written number is read back within its width. -/
theorem bigEndian_injective {w n m : Nat} (hn : n < 256 ^ w) (hm : m < 256 ^ w)
    (h : bigEndian w n = bigEndian w m) : n = m := by
  have hread := congrArg fromBigEndian h
  rwa [fromBigEndian_bigEndian, fromBigEndian_bigEndian, Nat.mod_eq_of_lt hn,
    Nat.mod_eq_of_lt hm] at hread

/-- Counted payloads after one domain are read back. -/
theorem putBytes_injective {domain xs ys : Octets}
    (h : putBytes domain ++ putBytes xs = putBytes domain ++ putBytes ys) : xs = ys := by
  have hpay := List.append_cancel_left h
  exact (List.append_inj hpay (by rw [putU32, putU32, length_bigEndian, length_bigEndian])).2

theorem keyOctets_injective {id id' : String} (h : keyOctets id = keyOctets id') : id = id' :=
  octets_injective (putBytes_injective h)

/-- A node of the tree, or a leaf. -/
def InTree : Preimage Digest Digest → Prop
  | .node d _ _ => d < DEPTH
  | _ => True

theorem hashedOctets_length (p : Preimage Digest Digest) :
    (hashedOctets p).length = match p with | .leaf _ => 74 | .empty => 43 | .node .. => 106 := by
  have hleaf : (octets LEAF).length = 32 := rfl
  have hempty : (octets EMPTY).length = 33 := rfl
  have hnode : (octets NODE).length = 32 := rfl
  cases p <;> simp [hashedOctets, putBytes, putU32, length_bigEndian, hleaf, hempty, hnode]

/-- **The octets of a leaf or a node tell what it is.** -/
theorem hashedOctets_injective {p q : Preimage Digest Digest} (hp : InTree p) (hq : InTree q)
    (h : hashedOctets p = hashedOctets q) : p = q := by
  have hlen := congrArg List.length h
  rw [hashedOctets_length, hashedOctets_length] at hlen
  cases p with
  | leaf k =>
      cases q with
      | leaf k' =>
          have hk := List.append_cancel_left (putBytes_injective h)
          rw [Vector.toList_inj.mp hk]
      | empty => exact nomatch hlen
      | node d l r => exact nomatch hlen
  | empty =>
      cases q with
      | leaf k' => exact nomatch hlen
      | empty => rfl
      | node d l r => exact nomatch hlen
  | node d l r =>
      cases q with
      | leaf k' => exact nomatch hlen
      | empty => exact nomatch hlen
      | node d' l' r' =>
          obtain ⟨hdl, hr⟩ := List.append_inj (putBytes_injective h)
            (by simp)
          obtain ⟨hd₀, hl⟩ := List.append_inj hdl (by simp)
          have hd : d < 256 := hp
          have hd' : d' < 256 := hq
          have hdepth : DEPTH - d = DEPTH - d' :=
            bigEndian_injective (w := 2) (by show 256 - d < 65536; omega)
              (by show 256 - d' < 65536; omega) hd₀
          have hdd : d = d' := by
            have : 256 - d = 256 - d' := hdepth
            omega
          rw [hdd, Vector.toList_inj.mp hl, Vector.toList_inj.mp hr]

/-- A climb stays in the tree. -/
theorem climbed_inTree {k top : Digest} {siblings : Nat → Digest} : ∀ {n d : Nat}, d + n ≤ DEPTH →
    ∀ p ∈ (reference sha256).climbed k siblings top d n, InTree p := by
  intro n
  induction n with
  | zero => intro d _ p hp; exact nomatch hp
  | succ n ih =>
      intro d hd p hp
      rcases List.mem_cons.mp hp with rfl | hp
      · unfold climbStep
        split
        · exact (by omega : d < DEPTH)
        · exact (by omega : d < DEPTH)
      · exact ih (d := d + 1) (by omega) p hp

/-- **No proof of the wrong answer**: two proofs for one identity that lead to one root agree, if
    the hash tells apart what they hash. -/
theorem present_unique {H : Set Octets} (hinj : Set.InjOn sha256 H) {id : String} {p q : Proof}
    (hp : ∀ os ∈ p.hashedOctets sha256 id, os ∈ H) (hq : ∀ os ∈ q.hashedOctets sha256 id, os ∈ H)
    {root : Digest} (hproot : p.rootFor sha256 id p.present = .ok root)
    (hqroot : q.rootFor sha256 id q.present = .ok root) : p.present = q.present := by
  have hinj' : Set.InjOn (reference sha256).hash {x | hashedOctets x ∈ H ∧ InTree x} :=
    fun x hx y hy hxy => hashedOctets_injective hx.2 hy.2 (hinj hx.1 hy.1 hxy)
  have hin : ∀ {p : Proof}, (∀ os ∈ p.hashedOctets sha256 id, os ∈ H) →
      ∀ x ∈ (reference sha256).climbed (key sha256 id) p.siblingAt
        (bottom sha256 (key sha256 id) p.present) 0 DEPTH,
        x ∈ {x | hashedOctets x ∈ H ∧ InTree x} := fun hp x hx =>
    ⟨hp _ (List.mem_cons_of_mem _ (List.mem_map_of_mem hx)),
      climbed_inTree (Nat.le_of_eq (Nat.zero_add _)) x hx⟩
  rw [rootFor_eq (rootFor_length hproot)] at hproot
  rw [rootFor_eq (rootFor_length hqroot)] at hqroot
  have hclimb := climb_injective hinj' (hin hp) (hin hq)
    ((Except.ok.inj hproot).trans (Except.ok.inj hqroot).symm)
  have hbottom := hinj (hp _ (List.mem_cons_self ..)) (hq _ (List.mem_cons_self ..)) hclimb
  have hstart : ∀ b, InTree (start (key sha256 id) b) := fun b => by cases b <;> trivial
  have hsame := hashedOctets_injective (hstart _) (hstart _) hbottom
  revert hsame
  cases p.present <;> cases q.present <;> simp [start]

theorem verify_rootFor {p : Proof} {root : Digest} {id : String}
    (h : p.verify sha256 root id = .ok ()) : p.rootFor sha256 id p.present = .ok root := by
  unfold Proof.verify at h
  obtain ⟨r, hr, hcheck⟩ := CbclExcept.bind_ok_iff.mp h
  by_cases hne : r ≠ root
  · rw [if_pos hne] at hcheck
    exact nomatch hcheck
  · rw [hr, not_not.mp hne]

variable (sha256) in
/-- **The coverage tree is an exact authenticated set**: after any insertions its root is the
    reference root of the keys inserted, in whatever order and however often; lookup is membership
    of the key; the proof of any identity verifies, tells whether it is covered and leads to the
    root after its insertion.  Where the hash tells apart what is hashed, lookup is membership of
    the identity, and no proof whatsoever verifies with the wrong answer. -/
theorem coverage_exact (ids : List String) (id : String) :
    let c := inserts sha256 ids
    c.root = (reference sha256).root (ids.map (key sha256)) ∧
      (∀ ids', (∀ x, x ∈ ids' ↔ x ∈ ids) → (inserts sha256 ids').root = c.root) ∧
      (c.contains sha256 id = true ↔ key sha256 id ∈ ids.map (key sha256)) ∧
      (c.proof sha256 id).verify sha256 c.root id = .ok () ∧
      (c.proof sha256 id).present = c.contains sha256 id ∧
      (c.proof sha256 id).updatedRoot sha256 c.root id = .ok (c.insert sha256 id).root ∧
      (Set.InjOn sha256 {os | os ∈ (id :: ids).map keyOctets} →
        (c.contains sha256 id = true ↔ id ∈ ids)) ∧
      ∀ p : Proof, Set.InjOn sha256 (hashedBy sha256 ids id p) →
        p.verify sha256 c.root id = .ok () → (p.present = true ↔ id ∈ ids) := by
  have hroot : ∀ ids, (inserts sha256 ids).root = (reference sha256).root (ids.map (key sha256)) :=
    fun ids => (covers_inserts ids).root.trans (root_congr fun x => List.mem_reverse)
  have hcovers := @covers_inserts sha256 ids
  have hcontains : (inserts sha256 ids).contains sha256 id = true ↔
      key sha256 id ∈ ids.map (key sha256) := (hcovers.contains_iff id).trans List.mem_reverse
  have hpresent := (hcovers.proof id).1.trans (hcovers.contains_iff id).symm
  have hmember : Set.InjOn sha256 {os | os ∈ (id :: ids).map keyOctets} →
      (key sha256 id ∈ ids.map (key sha256) ↔ id ∈ ids) := by
    intro hinj
    refine ⟨fun hmem => ?_, List.mem_map_of_mem⟩
    obtain ⟨id', hid', heq⟩ := List.mem_map.mp hmem
    have hsame := hinj (List.mem_map_of_mem (List.mem_cons_of_mem _ hid'))
      (List.mem_map_of_mem (List.mem_cons_self ..)) heq
    exact keyOctets_injective hsame ▸ hid'
  refine ⟨hroot ids, fun ids' hsame => ?_, hcontains, hcovers.verify id, Bool.eq_iff_iff.mpr hpresent,
    hcovers.updatedRoot id, fun hinj => hcontains.trans (hmember hinj), fun p hinj hverify => ?_⟩
  · rw [hroot, hroot]
    refine root_congr fun x => ?_
    simp only [List.mem_map, hsame]
  · have hkeys := hmember (hinj.mono fun os hos => Or.inl hos)
    have hagree := present_unique hinj (fun os hos => Or.inr (Or.inl hos))
      (fun os hos => Or.inr (Or.inr hos)) (verify_rootFor hverify) (hcovers.root_for id)
    rw [hagree]
    exact hpresent.trans (hcontains.trans hkeys)

end Hashing

-- ── Coverage of one identity ────

/-- A climb hashes one node at each depth. -/
theorem climbed_once {sha256 : Octets → Digest} {k top : Digest} {siblings : Nat → Digest} :
    ∀ {n d : Nat}, ∀ p ∈ (reference sha256).climbed k siblings top d n, ∃ e l r,
      p = .node e l r ∧ d ≤ e ∧ e < d + n ∧
        ∀ l' r', .node e l' r' ∈ (reference sha256).climbed k siblings top d n →
          l' = l ∧ r' = r := by
  intro n
  induction n with
  | zero => intro d p hp; exact nomatch hp
  | succ n ih =>
      intro d p hp
      have hstep : ∃ l r, (reference sha256).climbStep k siblings d
          ((reference sha256).climb k siblings top (d + 1) n) = .node d l r := by
        unfold climbStep
        split
        · exact ⟨_, _, rfl⟩
        · exact ⟨_, _, rfl⟩
      obtain ⟨l₀, r₀, hstep⟩ := hstep
      rw [climbed, hstep] at hp ⊢
      rcases List.mem_cons.mp hp with rfl | hp
      · -- what comes below is deeper
        refine ⟨d, l₀, r₀, rfl, Nat.le_refl d, by omega, fun l' r' hmem => ?_⟩
        rcases List.mem_cons.mp hmem with heq | hmem
        · injection heq with _ hl hr
          exact ⟨hl, hr⟩
        · obtain ⟨e, l, r, heq, hle, -⟩ := ih _ hmem
          injection heq with hde
          omega
      · obtain ⟨e, l, r, rfl, hle, hlt, honce⟩ := ih _ hp
        refine ⟨e, l, r, rfl, by omega, by omega, fun l' r' hmem => ?_⟩
        rcases List.mem_cons.mp hmem with heq | hmem
        · injection heq with hed
          omega
        · exact honce l' r' hmem

/-- How many octets were hashed, and the octets at which keys and heights differ. -/
def placeHash (os : Octets) : Digest :=
  Vector.ofFn fun i =>
    if i = 0 then os.length.toUInt8 else if i = 1 then os.getD 39 0 else os.getD 41 0

theorem of_placeHash_eq {os os' : Octets} (h : placeHash os = placeHash os') :
    os.length.toUInt8 = os'.length.toUInt8 ∧ os.getD 39 0 = os'.getD 39 0 ∧
      os.getD 41 0 = os'.getD 41 0 := by
  have hall : ∀ i (hi : i < 32), (placeHash os)[i] = (placeHash os')[i] := fun i hi => by rw [h]
  simp only [placeHash, Vector.getElem_ofFn] at hall
  exact ⟨hall 0 (by decide), hall 1 (by decide), hall 2 (by decide)⟩

/-- The octet of a node that tells its height. -/
theorem getD_node (d : Nat) (l r : Digest) :
    (hashedOctets (.node d l r)).getD 41 0 = ((DEPTH - d) % 256).toUInt8 := by
  have hnode : (octets NODE).length = 32 := rfl
  have hfront : (putBytes (octets NODE)).length = 36 := by
    rw [putBytes, List.length_append, length_putU32, hnode]
  unfold hashedOctets
  rw [List.getD_append_right _ _ _ _ (by omega), hfront, putBytes,
    List.getD_append_right _ _ _ _ (by rw [length_putU32]; decide), length_putU32, List.append_assoc]
  rfl

/-- A proof hashes a leaf, present or empty, and nodes. -/
theorem length_of_proof {p : Proof} {id : String} :
    ((hashedOctets (start (key placeHash id) p.present)).length = 74 ∨
      (hashedOctets (start (key placeHash id) p.present)).length = 43) ∧
    ∀ q ∈ (reference placeHash).climbed (key placeHash id) p.siblingAt
      (bottom placeHash (key placeHash id) p.present) 0 DEPTH, (hashedOctets q).length = 106 := by
  refine ⟨?_, fun q hq => ?_⟩
  · rw [hashedOctets_length]
    cases p.present with
    | true => exact .inl rfl
    | false => exact .inr rfl
  · obtain ⟨e, l, r, rfl, -⟩ := climbed_once q hq
    exact hashedOctets_length _

/-- What a proof hashes is told apart. -/
theorem injOn_proof (p : Proof) (id : String) :
    Set.InjOn placeHash {os | os ∈ p.hashedOctets placeHash id} := by
  obtain ⟨hstart, hnode⟩ := @length_of_proof p id
  intro os hos os' hos' heq
  obtain ⟨hlen, -, hplace⟩ := of_placeHash_eq heq
  rcases List.mem_cons.mp hos with rfl | hos
  · rcases List.mem_cons.mp hos' with rfl | hos'
    · rfl
    · obtain ⟨q, hq, rfl⟩ := List.mem_map.mp hos'
      rw [hnode q hq] at hlen
      rcases hstart with h | h
      · rw [h] at hlen
        exact absurd hlen (by decide)
      · rw [h] at hlen
        exact absurd hlen (by decide)
  · obtain ⟨q, hq, rfl⟩ := List.mem_map.mp hos
    rcases List.mem_cons.mp hos' with rfl | hos'
    · rw [hnode q hq] at hlen
      rcases hstart with h | h
      · rw [h] at hlen
        exact absurd hlen (by decide)
      · rw [h] at hlen
        exact absurd hlen (by decide)
    · -- two nodes of one height are one node
      obtain ⟨q', hq', rfl⟩ := List.mem_map.mp hos'
      obtain ⟨e, l, r, rfl, -, he, honce⟩ := climbed_once q hq
      obtain ⟨e', l', r', rfl, -, he', -⟩ := climbed_once q' hq'
      rw [getD_node, getD_node] at hplace
      have hheight : (DEPTH - e) % 256 = (DEPTH - e') % 256 := by
        have htoNat := congrArg UInt8.toNat hplace
        rwa [Nat.toUInt8_eq, Nat.toUInt8_eq, UInt8.toNat_ofNat', UInt8.toNat_ofNat', Nat.mod_mod,
          Nat.mod_mod] at htoNat
      have hdepth : e = e' := by
        unfold DEPTH at he he' hheight
        omega
      subst hdepth
      obtain ⟨rfl, rfl⟩ := honce l' r' hq'
      rfl

/-- The proof for one identity in the tree of another. -/
def singleProof : Proof := (inserts placeHash ["a"]).proof placeHash "b"

/-- What is hashed for it is told apart, the keys included. -/
theorem injOn_singleProof : Set.InjOn placeHash (hashedBy placeHash ["a"] "b" singleProof) := by
  have hkeys : ∀ os ∈ ["b", "a"].map keyOctets, os.length = 40 ∧
      ∀ os' ∈ ["b", "a"].map keyOctets, os.getD 39 0 = os'.getD 39 0 → os = os' := by
    decide
  obtain ⟨hstart, hnode⟩ := @length_of_proof singleProof "b"
  -- a key has another length than what a proof hashes
  have hapart : ∀ os ∈ ["b", "a"].map keyOctets, ∀ os' ∈ singleProof.hashedOctets placeHash "b",
      os.length.toUInt8 ≠ os'.length.toUInt8 := by
    intro os hos os' hos'
    rw [(hkeys os hos).1]
    rcases List.mem_cons.mp hos' with rfl | hos'
    · rcases hstart with h | h
      · rw [h]
        decide
      · rw [h]
        decide
    · obtain ⟨q, hq, rfl⟩ := List.mem_map.mp hos'
      rw [hnode q hq]
      decide
  intro os hos os' hos' heq
  obtain ⟨hlen, hname, -⟩ := of_placeHash_eq heq
  rcases hos with hos | hos
  · rcases hos' with hos' | hos'
    · exact (hkeys os hos).2 os' hos' hname
    · exact absurd hlen (hapart os hos os' (hos'.elim id id))
  · rcases hos' with hos' | hos'
    · exact absurd hlen.symm (hapart os' hos' os (hos.elim id id))
    · exact injOn_proof singleProof "b" (hos.elim id id) (hos'.elim id id) heq

/-- The proof of one identity in the tree of another says that it is not covered. -/
theorem coverage_exact_single :
    ((inserts placeHash ["a"]).contains placeHash "b" = true ↔ "b" ∈ ["a"]) ∧
    (singleProof.present = true ↔ "b" ∈ ["a"]) := by
  obtain ⟨-, -, -, hverify, -, -, hmember, hsound⟩ := coverage_exact placeHash ["a"] "b"
  exact ⟨hmember (injOn_singleProof.mono fun os hos => .inl hos),
    hsound singleProof injOn_singleProof hverify⟩

end CbclCoverage
