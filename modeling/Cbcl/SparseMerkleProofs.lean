import Mathlib.Data.List.Basic
import Mathlib.Data.Set.Function
import Mathlib.Tactic.Tauto

/-!
# Sparse Merkle trees

A full binary tree with a leaf for every bit string of one length commits to a set of keys: the
leaf of a member is hashed from the key, every other leaf is empty, and a node is hashed from its
depth and its two subtrees.  Such a tree is never built.  `subtree` is its root over a list of
keys, computed by splitting the list bit by bit; only membership in the list counts.

A path of siblings climbs from the leaf of a key to a root.  The siblings of the tree climb to its
root, from a member as from a missing key, and do not change when the key is added; and if the hash
tells apart what it is applied to, no other path climbs to the root from the wrong leaf.
-/

namespace CbclSparseMerkle

variable {κ δ : Type}

/-- What is hashed: the leaf of a key, an empty leaf, or the two subtrees of a node at a depth. -/
inductive Preimage (κ δ : Type) where
  | leaf (key : κ)
  | empty
  | node (depth : Nat) (left right : δ)

/-- Keys as bit strings of one length, and a hash. -/
structure Scheme (κ δ : Type) where
  depth : Nat
  bit : κ → Nat → Bool
  hash : Preimage κ δ → δ
  ext : ∀ {a b : κ}, (∀ i < depth, bit a i = bit b i) → a = b

namespace Scheme

variable (s : Scheme κ δ)

-- ── The tree ────

/-- The root of a subtree of some height at some depth, over the keys below it. -/
def subtreeOf : Nat → Nat → List κ → δ
  | 0, _, [] => s.hash .empty
  | 0, _, k :: _ => s.hash (.leaf k)
  | h + 1, d, keys =>
      s.hash (.node d (subtreeOf h (d + 1) (keys.filter fun k => !s.bit k d))
        (subtreeOf h (d + 1) (keys.filter fun k => s.bit k d)))

/-- The root of a subtree at a depth. -/
def subtree (d : Nat) (keys : List κ) : δ := s.subtreeOf (s.depth - d) d keys

/-- The root of the tree over some keys. -/
def root (keys : List κ) : δ := s.subtree 0 keys

/-- Keys that have the bits above a depth in common. -/
def Agree (d : Nat) (keys : List κ) : Prop :=
  ∀ a ∈ keys, ∀ b ∈ keys, ∀ i < d, s.bit a i = s.bit b i

theorem subtree_lt {d : Nat} (hd : d < s.depth) (keys : List κ) :
    s.subtree d keys = s.hash (.node d (s.subtree (d + 1) (keys.filter fun k => !s.bit k d))
      (s.subtree (d + 1) (keys.filter fun k => s.bit k d))) := by
  unfold subtree
  rw [show s.depth - d = (s.depth - (d + 1)) + 1 by omega, subtreeOf]

theorem subtree_bottom (keys : List κ) :
    s.subtree s.depth keys = s.hash (match keys with | [] => .empty | k :: _ => .leaf k) := by
  unfold subtree
  rw [Nat.sub_self]
  cases keys with
  | nil => rfl
  | cons k keys => rfl

variable {s}

theorem Agree.sub {d : Nat} {keys keys' : List κ} (h : s.Agree d keys) (hsub : keys' ⊆ keys) :
    s.Agree d keys' := fun a ha b hb => h a (hsub ha) b (hsub hb)

/-- Keys on one side of a node agree on one bit more. -/
theorem Agree.side {d : Nat} {keys : List κ} (h : s.Agree d keys) {c : Bool}
    (hside : ∀ k ∈ keys, s.bit k d = c) : s.Agree (d + 1) keys := by
  intro a ha b hb i hi
  rcases Nat.lt_succ_iff_lt_or_eq.mp hi with hi | rfl
  · exact h a ha b hb i hi
  · rw [hside a ha, hside b hb]

theorem agree_zero (keys : List κ) : s.Agree 0 keys := fun _ _ _ _ i hi => absurd hi (Nat.not_lt_zero i)

/-- **Only membership counts**: lists with the same keys have one subtree. -/
theorem subtree_congr : ∀ (h d : Nat) {keys keys' : List κ}, d + h = s.depth → s.Agree d keys →
    (∀ k, k ∈ keys ↔ k ∈ keys') → s.subtree d keys = s.subtree d keys' := by
  intro h
  induction h with
  | zero =>
      intro d keys keys' hd hagree hmem
      rw [Nat.add_zero] at hd
      subst hd
      rw [subtree_bottom, subtree_bottom]
      cases keys with
      | nil =>
          cases keys' with
          | nil => rfl
          | cons k keys' => exact absurd ((hmem k).mpr (List.mem_cons_self ..)) List.not_mem_nil
      | cons k keys =>
          cases keys' with
          | nil => exact absurd ((hmem k).mp (List.mem_cons_self ..)) List.not_mem_nil
          | cons k' keys' =>
              have hk' : k' ∈ k :: keys := (hmem k').mpr (List.mem_cons_self ..)
              rw [s.ext (hagree k (List.mem_cons_self ..) k' hk')]
  | succ h ih =>
      intro d keys keys' hd hagree hmem
      have hfilter : ∀ p : κ → Bool, ∀ k, k ∈ keys.filter p ↔ k ∈ keys'.filter p := by
        intro p k
        rw [List.mem_filter, List.mem_filter, hmem]
      have hside : ∀ (p : κ → Bool) (c : Bool), (∀ k, p k = true → s.bit k d = c) →
          s.Agree (d + 1) (keys.filter p) := fun p c hp =>
        (hagree.sub (List.filter_subset_self keys)).side fun k hk => hp k (List.mem_filter.mp hk).2
      have hlt : d < s.depth := by omega
      rw [subtree_lt _ hlt keys, subtree_lt _ hlt keys',
        ih (d + 1) (by omega) (hside _ false fun k hk => by simpa using hk) (hfilter _),
        ih (d + 1) (by omega) (hside _ true fun k hk => hk) (hfilter _)]

theorem subtree_same {d : Nat} (hd : d ≤ s.depth) {keys keys' : List κ} (hagree : s.Agree d keys)
    (hmem : ∀ k, k ∈ keys ↔ k ∈ keys') : s.subtree d keys = s.subtree d keys' :=
  subtree_congr (s.depth - d) d (by omega) hagree hmem

/-- **The root is a function of the set of keys.** -/
theorem root_congr {keys keys' : List κ} (hmem : ∀ k, k ∈ keys ↔ k ∈ keys') :
    s.root keys = s.root keys' := subtree_same (Nat.zero_le _) (agree_zero keys) hmem

/-- A node whose keys are those of two sides. -/
theorem subtree_split {d : Nat} (hd : d < s.depth) {keys left right : List κ}
    (hagree : s.Agree d keys) (hmem : ∀ k, k ∈ keys ↔ k ∈ left ∨ k ∈ right)
    (hleft : ∀ k ∈ left, s.bit k d = false) (hright : ∀ k ∈ right, s.bit k d = true) :
    s.subtree d keys = s.hash (.node d (s.subtree (d + 1) left) (s.subtree (d + 1) right)) := by
  have hl : ∀ k, k ∈ left ↔ k ∈ keys.filter fun k => !s.bit k d := by
    intro k
    rw [List.mem_filter, hmem]
    constructor
    · intro hk
      exact ⟨Or.inl hk, by rw [hleft k hk]; rfl⟩
    · rintro ⟨hk | hk, hbit⟩
      · exact hk
      · rw [hright k hk] at hbit
        exact nomatch hbit
  have hr : ∀ k, k ∈ right ↔ k ∈ keys.filter fun k => s.bit k d := by
    intro k
    rw [List.mem_filter, hmem]
    constructor
    · intro hk
      exact ⟨Or.inr hk, hright k hk⟩
    · rintro ⟨hk | hk, hbit⟩
      · rw [hleft k hk] at hbit
        exact nomatch hbit
      · exact hk
  have hsubl : left ⊆ keys := fun k hk => (hmem k).mpr (Or.inl hk)
  have hsubr : right ⊆ keys := fun k hk => (hmem k).mpr (Or.inr hk)
  rw [subtree_lt _ hd, subtree_same hd ((hagree.sub hsubl).side hleft) hl,
    subtree_same hd ((hagree.sub hsubr).side hright) hr]

/-- A node with all its keys on one side has an empty subtree on the other. -/
theorem subtree_side {d : Nat} (hd : d < s.depth) {keys : List κ} (hagree : s.Agree d keys)
    {c : Bool} (hside : ∀ k ∈ keys, s.bit k d = c) :
    s.subtree d keys = s.hash (if c then .node d (s.subtree (d + 1) []) (s.subtree (d + 1) keys)
      else .node d (s.subtree (d + 1) keys) (s.subtree (d + 1) [])) := by
  cases c with
  | false =>
      exact subtree_split hd hagree (fun k => by simp) hside (fun k hk => nomatch hk)
  | true =>
      exact subtree_split hd hagree (fun k => by simp) (fun k hk => nomatch hk) hside

-- ── Paths ────

variable (s) in
/-- One step up the path of a key. -/
def climbStep (k : κ) (siblings : Nat → δ) (d : Nat) (h : δ) : Preimage κ δ :=
  if s.bit k d then .node d (siblings d) h else .node d h (siblings d)

variable (s) in
/-- Climb the path of a key from a number of levels below some depth. -/
def climb (k : κ) (siblings : Nat → δ) (start : δ) : Nat → Nat → δ
  | _, 0 => start
  | d, n + 1 => s.hash (s.climbStep k siblings d (climb k siblings start (d + 1) n))

variable (s) in
/-- What is hashed while climbing. -/
def climbed (k : κ) (siblings : Nat → δ) (start : δ) : Nat → Nat → List (Preimage κ δ)
  | _, 0 => []
  | d, n + 1 => s.climbStep k siblings d (s.climb k siblings start (d + 1) n)
      :: climbed k siblings start (d + 1) n

variable (s) in
/-- The keys that have the first bits of a key. -/
def along (k : κ) (d : Nat) (keys : List κ) : List κ :=
  keys.filter fun x => (List.range d).all fun i => s.bit x i = s.bit k i

variable (s) in
/-- The keys that leave the path of a key at a depth. -/
def leaving (k : κ) (d : Nat) (keys : List κ) : List κ :=
  (s.along k d keys).filter fun x => s.bit x d ≠ s.bit k d

variable (s) in
/-- The sibling of the path of a key below a depth. -/
def sibling (k : κ) (keys : List κ) (d : Nat) : δ := s.subtree (d + 1) (s.leaving k d keys)

theorem mem_along {k x : κ} {d : Nat} {keys : List κ} :
    x ∈ s.along k d keys ↔ x ∈ keys ∧ ∀ i < d, s.bit x i = s.bit k i := by
  unfold along
  rw [List.mem_filter, List.all_eq_true]
  simp only [List.mem_range, decide_eq_true_eq]

theorem mem_leaving {k x : κ} {d : Nat} {keys : List κ} :
    x ∈ s.leaving k d keys ↔
      x ∈ keys ∧ (∀ i < d, s.bit x i = s.bit k i) ∧ s.bit x d ≠ s.bit k d := by
  unfold leaving
  rw [List.mem_filter, mem_along, decide_eq_true_eq, and_assoc]

theorem agree_along (k : κ) (d : Nat) (keys : List κ) : s.Agree d (s.along k d keys) := by
  intro a ha b hb i hi
  rw [(mem_along.mp ha).2 i hi, (mem_along.mp hb).2 i hi]

theorem agree_leaving (k : κ) (d : Nat) (keys : List κ) :
    s.Agree (d + 1) (s.leaving k d keys) := by
  refine ((agree_along k d keys).sub (List.filter_subset_self _)).side (c := !s.bit k d) ?_
  intro x hx
  have hne := (mem_leaving.mp hx).2.2
  revert hne
  cases s.bit x d <;> cases s.bit k d <;> simp

/-- Lists that agree on what leaves the path have the same sibling. -/
theorem sibling_congr {k : κ} {d : Nat} (hd : d < s.depth) {keys keys' : List κ}
    (hmem : ∀ x, x ∈ s.leaving k d keys ↔ x ∈ s.leaving k d keys') :
    s.sibling k keys d = s.sibling k keys' d :=
  subtree_same hd (agree_leaving k d keys) hmem

/-- A subtree on the path of a key is a step up from the next one. -/
theorem subtree_along {k : κ} {d : Nat} (hd : d < s.depth) (keys : List κ) :
    s.subtree d (s.along k d keys)
      = s.hash (s.climbStep k (s.sibling k keys) d (s.subtree (d + 1) (s.along k (d + 1) keys))) := by
  have hnext : ∀ x, x ∈ s.along k (d + 1) keys ↔
      x ∈ s.along k d keys ∧ s.bit x d = s.bit k d := by
    intro x
    rw [mem_along, mem_along]
    constructor
    · rintro ⟨hx, hbits⟩
      exact ⟨⟨hx, fun i hi => hbits i (by omega)⟩, hbits d (by omega)⟩
    · rintro ⟨⟨hx, hbits⟩, hbit⟩
      refine ⟨hx, fun i hi => ?_⟩
      rcases Nat.lt_succ_iff_lt_or_eq.mp hi with hi | rfl
      · exact hbits i hi
      · exact hbit
  have hleave : ∀ x, x ∈ s.leaving k d keys ↔
      x ∈ s.along k d keys ∧ s.bit x d ≠ s.bit k d := by
    intro x
    rw [mem_leaving, mem_along, and_assoc]
  unfold climbStep sibling
  cases hk : s.bit k d with
  | false =>
      refine subtree_split hd (agree_along k d keys) (fun x => ?_) (fun x hx => ?_) fun x hx => ?_
      · rw [hnext, hleave]
        tauto
      · rw [((hnext x).mp hx).2, hk]
      · have hne := ((hleave x).mp hx).2
        rw [hk] at hne
        simpa using hne
  | true =>
      refine subtree_split hd (agree_along k d keys) (fun x => ?_) (fun x hx => ?_) fun x hx => ?_
      · rw [hnext, hleave]
        tauto
      · have hne := ((hleave x).mp hx).2
        rw [hk] at hne
        simpa using hne
      · rw [((hnext x).mp hx).2, hk]

variable (s) in
/-- The leaf of a key, present or not. -/
def start (k : κ) (present : Bool) : Preimage κ δ := if present then .leaf k else .empty

/-- At the bottom of its path a key meets its own leaf. -/
theorem subtree_start {k : κ} {keys : List κ} {present : Bool} (h : present = true ↔ k ∈ keys) :
    s.subtree s.depth (s.along k s.depth keys) = s.hash (start k present) := by
  rw [subtree_bottom]
  cases hal : s.along k s.depth keys with
  | nil =>
      have hno : ¬ present = true := fun hp => by
        have hk : k ∈ s.along k s.depth keys := mem_along.mpr ⟨h.mp hp, fun _ _ => rfl⟩
        rw [hal] at hk
        exact nomatch hk
      rw [start, if_neg hno]
  | cons x rest =>
      have hx := mem_along.mp (hal ▸ List.mem_cons_self .. : x ∈ s.along k s.depth keys)
      have hxk : x = k := s.ext hx.2
      rw [start, if_pos (h.mpr (hxk ▸ hx.1)), hxk]

/-- **The siblings of the tree climb to its root**, from the leaf of a member as from the empty leaf
    of a missing key. -/
theorem climb_siblings {k : κ} {keys : List κ} {present : Bool} (h : present = true ↔ k ∈ keys) :
    s.climb k (s.sibling k keys) (s.hash (start k present)) 0 s.depth = s.root keys := by
  have hgen : ∀ n d, d + n = s.depth →
      s.climb k (s.sibling k keys) (s.hash (start k present)) d n
        = s.subtree d (s.along k d keys) := by
    intro n
    induction n with
    | zero =>
        intro d hd
        rw [Nat.add_zero] at hd
        subst hd
        exact (subtree_start h).symm
    | succ n ih =>
        intro d hd
        have hlt : d < s.depth := by omega
        rw [climb, ih (d + 1) (by omega), subtree_along hlt keys]
  rw [hgen s.depth 0 (Nat.zero_add _)]
  exact root_congr fun x => by simp [mem_along]

theorem climb_congr {k : κ} {siblings siblings' : Nat → δ} {top : δ} : ∀ {n d : Nat},
    (∀ i, d ≤ i → i < d + n → siblings i = siblings' i) →
      s.climb k siblings top d n = s.climb k siblings' top d n := by
  intro n
  induction n with
  | zero => intro d _; rfl
  | succ n ih =>
      intro d h
      rw [climb, climb, ih fun i hi hlt => h i (by omega) (by omega)]
      unfold climbStep
      rw [h d (Nat.le_refl d) (by omega)]

/-- **Adding a key does not touch its siblings.** -/
theorem sibling_insert {k : κ} {keys : List κ} {d : Nat} (hd : d < s.depth) :
    s.sibling k (k :: keys) d = s.sibling k keys d := by
  refine sibling_congr hd fun x => ?_
  rw [mem_leaving, mem_leaving, List.mem_cons]
  constructor
  · rintro ⟨rfl | hx, hbits, hne⟩
    · exact absurd rfl hne
    · exact ⟨hx, hbits, hne⟩
  · rintro ⟨hx, hrest⟩
    exact ⟨Or.inr hx, hrest⟩

/-- **Two climbs of one key to one root start at one leaf**, if the hash tells apart what is hashed
    on the way. -/
theorem climb_injective {P : Set (Preimage κ δ)} (hinj : Set.InjOn s.hash P) {k : κ}
    {siblings siblings' : Nat → δ} {top top' : δ} : ∀ {n d : Nat},
    (∀ p ∈ s.climbed k siblings top d n, p ∈ P) →
      (∀ p ∈ s.climbed k siblings' top' d n, p ∈ P) →
        s.climb k siblings top d n = s.climb k siblings' top' d n → top = top' := by
  intro n
  induction n with
  | zero => intro d _ _ h; exact h
  | succ n ih =>
      intro d hP hP' h
      rw [climb, climb] at h
      have heq := hinj (hP _ (List.mem_cons_self ..)) (hP' _ (List.mem_cons_self ..)) h
      refine ih (fun p hp => hP p (List.mem_cons_of_mem _ hp))
        (fun p hp => hP' p (List.mem_cons_of_mem _ hp)) ?_
      unfold climbStep at heq
      split at heq
      · injection heq
      · injection heq

end Scheme

end CbclSparseMerkle
