import Mathlib

/-!
# Merkle trees

A commitment to labelled leaves: leaves and inner nodes are hashed from *preimages*, and the
root of a tree is the digest at its top.  The hash is only assumed to tell apart the
preimages that come up, so the results speak about real digests of fixed length.

Two trees with one root are one tree, and a path of digests that climbs from a leaf to the
root of a tree starts at one of its leaves — whatever its length, sides and digests are.
-/

namespace CbclMerkle

variable {α δ : Type}

/-- What is hashed: a labelled leaf, or two digests. -/
inductive Preimage (α δ : Type) where
  | leaf (a : α)
  | node (left right : δ)

/-- A tree over labels. -/
inductive HashTree (α : Type) where
  | leaf (a : α)
  | node (left right : HashTree α)

/-- The side a sibling stands on. -/
inductive Side where
  | left
  | right
deriving DecidableEq

section Hashing

variable (hash : Preimage α δ → δ)

/-- The digest at the top of a tree. -/
def HashTree.root : HashTree α → δ
  | .leaf a => hash (.leaf a)
  | .node l r => hash (.node l.root r.root)

/-- All preimages hashed for a tree. -/
def HashTree.preimages : HashTree α → List (Preimage α δ)
  | .leaf a => [.leaf a]
  | .node l r => .node (l.root hash) (r.root hash) :: (l.preimages ++ r.preimages)

/-- The labels of a tree. -/
def HashTree.labels : HashTree α → List α
  | .leaf a => [a]
  | .node l r => l.labels ++ r.labels

/-- The preimage of one step up. -/
def joined (cur : δ) (step : δ × Side) : Preimage α δ :=
  match step.2 with
  | .left => .node step.1 cur
  | .right => .node cur step.1

/-- Climb a path of siblings. -/
def climb (cur : δ) (path : List (δ × Side)) : δ :=
  path.foldl (fun cur step => hash (joined cur step)) cur

/-- All preimages hashed while climbing. -/
def climbPreimages : δ → List (δ × Side) → List (Preimage α δ)
  | _, [] => []
  | cur, step :: path => joined cur step :: climbPreimages (hash (joined cur step)) path

variable {hash}

/-- **A root determines its tree**, if the hash tells their preimages apart. -/
theorem HashTree.root_injective {S : Set (Preimage α δ)} (hinj : Set.InjOn hash S) :
    ∀ (t u : HashTree α), (∀ p ∈ t.preimages hash, p ∈ S) → (∀ p ∈ u.preimages hash, p ∈ S) →
      t.root hash = u.root hash → t = u := by
  intro t
  induction t with
  | leaf a =>
      intro u ht hu h
      cases u with
      | leaf b =>
          have heq := hinj (ht _ (List.mem_cons_self ..)) (hu _ (List.mem_cons_self ..)) h
          injection heq with heq
          rw [heq]
      | node l r =>
          exact nomatch hinj (ht _ (List.mem_cons_self ..)) (hu _ (List.mem_cons_self ..)) h
  | node l r ihl ihr =>
      intro u ht hu h
      cases u with
      | leaf b =>
          exact nomatch hinj (ht _ (List.mem_cons_self ..)) (hu _ (List.mem_cons_self ..)) h
      | node l' r' =>
          have heq := hinj (ht _ (List.mem_cons_self ..)) (hu _ (List.mem_cons_self ..)) h
          injection heq with hl hr
          have hmem : ∀ {x y : HashTree α} {p : Preimage α δ},
              (p ∈ x.preimages hash ∨ p ∈ y.preimages hash) →
                p ∈ (HashTree.node x y).preimages hash :=
            fun hp => List.mem_cons_of_mem _ (List.mem_append.mpr hp)
          rw [ihl l' (fun p hp => ht p (hmem (Or.inl hp))) (fun p hp => hu p (hmem (Or.inl hp))) hl,
            ihr r' (fun p hp => ht p (hmem (Or.inr hp))) (fun p hp => hu p (hmem (Or.inr hp))) hr]

/-- One tree is a subtree of another. -/
inductive HashTree.Within (s : HashTree α) : HashTree α → Prop
  | self : Within s s
  | left {l r : HashTree α} : Within s l → Within s (.node l r)
  | right {l r : HashTree α} : Within s r → Within s (.node l r)

theorem HashTree.Within.preimages {s t : HashTree α} (h : s.Within t) :
    ∀ p ∈ s.preimages hash, p ∈ t.preimages hash := by
  induction h with
  | self => exact fun p hp => hp
  | left _ ih => exact fun p hp => List.mem_cons_of_mem _ (List.mem_append_left _ (ih p hp))
  | right _ ih => exact fun p hp => List.mem_cons_of_mem _ (List.mem_append_right _ (ih p hp))

theorem HashTree.Within.label {a : α} {t : HashTree α} (h : (HashTree.leaf a).Within t) : a ∈ t.labels := by
  induction h with
  | self => exact List.mem_singleton_self a
  | left _ ih => exact List.mem_append_left _ ih
  | right _ ih => exact List.mem_append_right _ ih

theorem HashTree.Within.children {x y t : HashTree α} (h : (HashTree.node x y).Within t) :
    x.Within t ∧ y.Within t := by
  induction h with
  | self => exact ⟨.left .self, .right .self⟩
  | left _ ih => exact ⟨.left ih.1, .left ih.2⟩
  | right _ ih => exact ⟨.right ih.1, .right ih.2⟩

/-- A climb that ends at the root of a tree has started at the root of a subtree. -/
theorem climb_within {S : Set (Preimage α δ)} (hinj : Set.InjOn hash S) {t : HashTree α}
    (ht : ∀ p ∈ t.preimages hash, p ∈ S) : ∀ (path : List (δ × Side)) (cur : δ),
      (∀ p ∈ climbPreimages hash cur path, p ∈ S) → climb hash cur path = t.root hash →
        ∃ s : HashTree α, s.Within t ∧ cur = s.root hash := by
  intro path
  induction path with
  | nil =>
      intro cur _ h
      exact ⟨t, .self, h⟩
  | cons step path ih =>
      intro cur hS h
      obtain ⟨s, hs, heq⟩ := ih (hash (joined cur step))
        (fun p hp => hS p (List.mem_cons_of_mem _ hp)) h
      have hjoin : joined cur step ∈ S := hS _ (List.mem_cons_self ..)
      -- a subtree with the digest of two joined digests is a node with these children
      cases s with
      | leaf a =>
          have hleaf := hinj hjoin (ht _ (hs.preimages _ (List.mem_cons_self ..))) heq
          unfold joined at hleaf
          split at hleaf
          · exact nomatch hleaf
          · exact nomatch hleaf
      | node l r =>
          have hnode := hinj hjoin (ht _ (hs.preimages _ (List.mem_cons_self ..))) heq
          unfold joined at hnode
          split at hnode
          · injection hnode with _ hcur
            exact ⟨r, hs.children.2, hcur⟩
          · injection hnode with hcur _
            exact ⟨l, hs.children.1, hcur⟩

/-- **Openings are binding**: a label that climbs to the root of a tree is one of its labels. -/
theorem climb_label {S : Set (Preimage α δ)} (hinj : Set.InjOn hash S) {t : HashTree α}
    (ht : ∀ p ∈ t.preimages hash, p ∈ S) {a : α} {path : List (δ × Side)}
    (ha : .leaf a ∈ S) (hS : ∀ p ∈ climbPreimages hash (hash (.leaf a)) path, p ∈ S)
    (h : climb hash (hash (.leaf a)) path = t.root hash) : a ∈ t.labels := by
  obtain ⟨s, hs, heq⟩ := climb_within hinj ht path _ hS h
  cases s with
  | leaf b =>
      have hleaf := hinj ha (ht _ (hs.preimages _ (List.mem_cons_self ..))) heq
      injection hleaf with hleaf
      rw [hleaf]
      exact hs.label
  | node l r =>
      exact nomatch hinj ha (ht _ (hs.preimages _ (List.mem_cons_self ..))) heq

end Hashing

end CbclMerkle
