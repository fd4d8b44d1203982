import Mathlib.Data.List.Basic
import Mathlib.Order.Basic
import Mathlib.Order.Lattice
import Mathlib.Tactic.Common

/-!
# Height-balanced search trees

Items are kept in the order of their keys; the heights of the two sides of a node differ by at most
one.  `balance` restores this after one side has grown by one level: a rotation, or two when the
inner side is the taller one.  Balancing changes the shape and keeps the items in their order, so
what an insertion means is said on the list of items, and on what a search finds.

An insertion meets an item of its own key under a policy: `keep new old` says that the item which is
there already stays.
-/

namespace CbclAvl

/-- A binary tree of items. -/
inductive SearchTree (α : Type*) where
  | nil
  | node (left : SearchTree α) (item : α) (right : SearchTree α)

namespace SearchTree

variable {α κ : Type*}

/-- The levels of a tree. -/
def height : SearchTree α → Nat
  | .nil => 0
  | .node l _ r => 1 + max (height l) (height r)

/-- The items, from left to right. -/
def toList : SearchTree α → List α
  | .nil => []
  | .node l a r => toList l ++ a :: toList r

/-- The sides of every node differ by at most one level. -/
def Balanced : SearchTree α → Prop
  | .nil => True
  | .node l _ r => height l ≤ height r + 1 ∧ height r ≤ height l + 1 ∧ Balanced l ∧ Balanced r

-- ── Rotations ────

/-- The right child becomes the root. -/
def rotateLeft : SearchTree α → SearchTree α
  | .node l a (.node rl b rr) => .node (.node l a rl) b rr
  | t => t

/-- The left child becomes the root. -/
def rotateRight : SearchTree α → SearchTree α
  | .node (.node ll b lr) a r => .node ll b (.node lr a r)
  | t => t

/-- Whether the right side is the taller one. -/
def tallRight : SearchTree α → Bool
  | .nil => false
  | .node l _ r => height l < height r

/-- Whether the left side is the taller one. -/
def tallLeft : SearchTree α → Bool
  | .nil => false
  | .node l _ r => height r < height l

/-- Restore the balance of a root whose sides are balanced. -/
def balance : SearchTree α → SearchTree α
  | .nil => .nil
  | .node l a r =>
      if height l > height r + 1 then
        rotateRight (.node (if tallRight l then rotateLeft l else l) a r)
      else if height r > height l + 1 then
        rotateLeft (.node l a (if tallLeft r then rotateRight r else r))
      else .node l a r

@[simp] theorem toList_rotateLeft (t : SearchTree α) : toList (rotateLeft t) = toList t := by
  match t with
  | .nil => rfl
  | .node l a .nil => rfl
  | .node l a (.node rl b rr) => simp [rotateLeft, toList]

@[simp] theorem toList_rotateRight (t : SearchTree α) : toList (rotateRight t) = toList t := by
  match t with
  | .nil => rfl
  | .node .nil a r => rfl
  | .node (.node ll b lr) a r => simp [rotateRight, toList]

theorem balance_node (l r : SearchTree α) (a : α) : balance (.node l a r) =
    if height l > height r + 1 then
      rotateRight (.node (if tallRight l then rotateLeft l else l) a r)
    else if height r > height l + 1 then
      rotateLeft (.node l a (if tallLeft r then rotateRight r else r))
    else .node l a r := rfl

/-- **Balancing keeps the items in their order.** -/
@[simp] theorem toList_balance (t : SearchTree α) : toList (balance t) = toList t := by
  match t with
  | .nil => rfl
  | .node l a r =>
      rw [balance_node]
      split
      · rw [toList_rotateRight]
        split
        · simp [toList]
        · rfl
      · split
        · rw [toList_rotateLeft]
          split
          · simp [toList]
          · rfl
        · rfl

/-- A balanced root is left alone. -/
theorem balance_eq_self {l r : SearchTree α} {a : α} (h : Balanced (.node l a r)) :
    balance (.node l a r) = .node l a r := by
  obtain ⟨h1, h2, -, -⟩ := h
  rw [balance_node, if_neg (by omega), if_neg (by omega)]

/-- **Balancing restores the balance** of a root whose sides are balanced and differ by at most two
    levels; the tree loses at most the level it had gained. -/
theorem balanced_balance {l r : SearchTree α} {a : α} (hl : Balanced l) (hr : Balanced r)
    (hlr : height l ≤ height r + 2) (hrl : height r ≤ height l + 2) :
    Balanced (balance (.node l a r)) ∧
      max (height l) (height r) ≤ height (balance (.node l a r)) ∧
      height (balance (.node l a r)) ≤ 1 + max (height l) (height r) := by
  rw [balance_node]
  by_cases htall : height l > height r + 1
  · -- the left side is two levels taller
    rw [if_pos htall]
    match l, hl with
    | .nil, _ => simp [height] at htall
    | .node ll b lr, ⟨h1, h2, hll, hlr'⟩ =>
        simp only [height] at htall hlr hrl ⊢
        by_cases hinner : height ll < height lr
        · rw [if_pos (by simpa [tallRight] using hinner)]
          match lr, hlr' with
          | .nil, _ => simp [height] at hinner
          | .node lrl c lrr, ⟨h3, h4, hlrl, hlrr⟩ =>
              simp only [height] at htall hlr hrl hinner h1 h2
              simp only [rotateLeft, rotateRight, Balanced, height]
              exact ⟨⟨by omega, by omega, ⟨by omega, by omega, hll, hlrl⟩, by omega, by omega, hlrr,
                hr⟩, by omega, by omega⟩
        · rw [if_neg (by simpa [tallRight] using hinner)]
          simp only [rotateRight, Balanced, height]
          exact ⟨⟨by omega, by omega, hll, by omega, by omega, hlr', hr⟩, by omega, by omega⟩
  · rw [if_neg htall]
    by_cases htall' : height r > height l + 1
    · rw [if_pos htall']
      match r, hr with
      | .nil, _ => simp [height] at htall'
      | .node rl b rr, ⟨h1, h2, hrl', hrr⟩ =>
          simp only [height] at htall' hlr hrl ⊢
          by_cases hinner : height rr < height rl
          · rw [if_pos (by simpa [tallLeft] using hinner)]
            match rl, hrl' with
            | .nil, _ => simp [height] at hinner
            | .node rll c rlr, ⟨h3, h4, hrll, hrlr⟩ =>
                simp only [height] at htall' hlr hrl hinner h1 h2
                simp only [rotateLeft, rotateRight, Balanced, height]
                exact ⟨⟨by omega, by omega, ⟨by omega, by omega, hl, hrll⟩, by omega, by omega, hrlr,
                  hrr⟩, by omega, by omega⟩
          · rw [if_neg (by simpa [tallLeft] using hinner)]
            simp only [rotateLeft, Balanced, height]
            exact ⟨⟨by omega, by omega, ⟨by omega, by omega, hl, hrl'⟩, hrr⟩, by omega, by omega⟩
    · rw [if_neg htall']
      simp only [Balanced, height]
      exact ⟨⟨by omega, by omega, hl, hr⟩, by omega, by omega⟩

-- ── Search ────

section Search

variable [LinearOrder κ] (key : α → κ)

/-- The items stand in the strict order of their keys. -/
def Ordered (t : SearchTree α) : Prop := t.toList.Pairwise fun a b => key a < key b

/-- Search for the item of a key. -/
def find (k : κ) : SearchTree α → Option α
  | .nil => none
  | .node l a r => if k < key a then find k l else if key a < k then find k r else some a

/-- Insert an item.  Where an item of its key is, `keep` decides between the two. -/
def insert (keep : α → α → Bool) (x : α) : SearchTree α → SearchTree α
  | .nil => .node .nil x .nil
  | .node l a r =>
      if key x < key a then balance (.node (insert keep x l) a r)
      else if key a < key x then balance (.node l a (insert keep x r))
      else if keep x a then .node l a r
      else .node l x r

variable {key}

theorem ordered_node {l r : SearchTree α} {a : α} : Ordered key (.node l a r) ↔
    Ordered key l ∧ Ordered key r ∧ (∀ b ∈ toList l, key b < key a) ∧
      ∀ b ∈ toList r, key a < key b := by
  unfold Ordered
  rw [toList, List.pairwise_append, List.pairwise_cons]
  constructor
  · rintro ⟨hl, ⟨hra, hr⟩, hcross⟩
    exact ⟨hl, hr, fun b hb => hcross b hb a (List.mem_cons_self ..), hra⟩
  · rintro ⟨hl, hr, hla, hra⟩
    refine ⟨hl, ⟨hra, hr⟩, fun b hb c hc => ?_⟩
    rcases List.mem_cons.mp hc with rfl | hc
    · exact hla b hb
    · exact (hla b hb).trans (hra c hc)

/-- Search finds the item of a key. -/
theorem find_eq_some_iff {t : SearchTree α} (h : Ordered key t) {k : κ} {a : α} :
    find key k t = some a ↔ a ∈ toList t ∧ key a = k := by
  induction t with
  | nil => simp [find, toList]
  | node l b r ihl ihr =>
      obtain ⟨hl, hr, hlb, hrb⟩ := ordered_node.mp h
      unfold find
      simp only [toList, List.mem_append, List.mem_cons]
      rcases lt_trichotomy k (key b) with hlt | heq | hgt
      · rw [if_pos hlt, ihl hl]
        refine and_congr_left fun hk => ⟨Or.inl, ?_⟩
        rintro (ha | rfl | ha)
        · exact ha
        · exact absurd (hk ▸ hlt) (lt_irrefl _)
        · exact absurd ((hrb a ha).trans (hk ▸ hlt)) (lt_irrefl _)
      · rw [if_neg (heq ▸ lt_irrefl _), if_neg (heq ▸ lt_irrefl _), Option.some_inj]
        constructor
        · rintro rfl
          exact ⟨Or.inr (Or.inl rfl), heq.symm⟩
        · rintro ⟨ha | rfl | ha, hk⟩
          · exact absurd (hlb a ha) (by rw [hk, heq]; exact lt_irrefl _)
          · rfl
          · exact absurd (hrb a ha) (by rw [hk, heq]; exact lt_irrefl _)
      · rw [if_neg hgt.not_gt, if_pos hgt, ihr hr]
        refine and_congr_left fun hk => ⟨fun ha => Or.inr (Or.inr ha), ?_⟩
        rintro (ha | rfl | ha)
        · exact absurd ((hlb a ha).trans (hk ▸ hgt)) (lt_irrefl _)
        · exact absurd (hk ▸ hgt) (lt_irrefl _)
        · exact ha

-- ── Insertion ────

variable {keep : α → α → Bool} {x : α}

/-- An insertion keeps a tree balanced and adds at most one level. -/
theorem balanced_insert {t : SearchTree α} (h : Balanced t) :
    Balanced (insert key keep x t) ∧ height t ≤ height (insert key keep x t) ∧
      height (insert key keep x t) ≤ height t + 1 := by
  induction t with
  | nil => exact ⟨⟨by simp, by simp, trivial, trivial⟩, by simp [height], by simp [insert, height]⟩
  | node l a r ihl ihr =>
      obtain ⟨h1, h2, hl, hr⟩ := h
      unfold insert
      split
      · obtain ⟨hb, hlow, hhigh⟩ := ihl hl
        obtain ⟨hbal, hge, hle⟩ := balanced_balance (a := a) hb hr (by omega) (by omega)
        refine ⟨hbal, ?_, ?_⟩
        · by_cases hgrow : height (insert key keep x l) > height r + 1
          · simp only [height]
            omega
          · rw [balance_eq_self ⟨by omega, by omega, hb, hr⟩]
            simp only [height]
            omega
        · simp only [height]
          omega
      · split
        · obtain ⟨hb, hlow, hhigh⟩ := ihr hr
          obtain ⟨hbal, hge, hle⟩ := balanced_balance (a := a) hl hb (by omega) (by omega)
          refine ⟨hbal, ?_, ?_⟩
          · by_cases hgrow : height (insert key keep x r) > height l + 1
            · simp only [height]
              omega
            · rw [balance_eq_self ⟨by omega, by omega, hl, hb⟩]
              simp only [height]
              omega
          · simp only [height]
            omega
        · split
          · exact ⟨⟨h1, h2, hl, hr⟩, Nat.le_refl _, Nat.le_succ _⟩
          · exact ⟨⟨h1, h2, hl, hr⟩, Nat.le_refl _, Nat.le_succ _⟩

/-- The item an insertion leaves at its key. -/
def chosen (keep : α → α → Bool) (x : α) : Option α → α
  | none => x
  | some old => if keep x old then old else x

/-- **The items after an insertion**: those of smaller keys, the chosen one, those of greater
    keys. -/
theorem toList_insert {t : SearchTree α} (h : Ordered key t) :
    toList (insert key keep x t) = (toList t).filter (fun a => key a < key x)
      ++ chosen keep x (find key (key x) t) :: (toList t).filter fun a => key x < key a := by
  have hall : ∀ {p : α → Prop} [DecidablePred p] (xs : List α), (∀ a ∈ xs, p a) →
      xs.filter (fun a => p a) = xs := fun xs hp =>
    List.filter_eq_self.mpr fun a ha => decide_eq_true (hp a ha)
  have hnone : ∀ {p : α → Prop} [DecidablePred p] (xs : List α), (∀ a ∈ xs, ¬ p a) →
      xs.filter (fun a => p a) = [] := fun xs hp =>
    List.filter_eq_nil_iff.mpr fun a ha => by simpa using hp a ha
  induction t with
  | nil => rfl
  | node l a r ihl ihr =>
      obtain ⟨hl, hr, hla, hra⟩ := ordered_node.mp h
      unfold insert find
      simp only [toList, List.filter_append]
      rcases lt_trichotomy (key x) (key a) with hlt | heq | hgt
      · rw [if_pos hlt, if_pos hlt, toList_balance, toList, ihl hl]
        have hsmall : (a :: toList r).filter (fun b => key b < key x) = [] := by
          refine hnone _ fun b hb => ?_
          rcases List.mem_cons.mp hb with rfl | hb
          · exact hlt.not_gt
          · exact (hlt.trans (hra b hb)).not_gt
        have hgreat : (a :: toList r).filter (fun b => key x < key b) = a :: toList r := by
          refine hall _ fun b hb => ?_
          rcases List.mem_cons.mp hb with rfl | hb
          · exact hlt
          · exact hlt.trans (hra b hb)
        rw [hsmall, hgreat]
        simp
      · have hirrefl : ¬ key x < key a := heq ▸ lt_irrefl _
        have hirrefl' : ¬ key a < key x := heq ▸ lt_irrefl _
        rw [if_neg hirrefl, if_neg hirrefl', if_neg hirrefl, if_neg hirrefl']
        have hl1 : (toList l).filter (fun b => key b < key x) = toList l :=
          hall _ fun b hb => heq ▸ hla b hb
        have hl2 : (toList l).filter (fun b => key x < key b) = [] :=
          hnone _ fun b hb => (heq ▸ hla b hb : key b < key x).not_gt
        have hr1 : (a :: toList r).filter (fun b => key b < key x) = [] := by
          refine hnone _ fun b hb => ?_
          rcases List.mem_cons.mp hb with rfl | hb
          · exact hirrefl'
          · exact (heq ▸ hra b hb : key x < key b).not_gt
        have hr2 : (a :: toList r).filter (fun b => key x < key b) = toList r := by
          rw [List.filter_cons, if_neg (by simpa using hirrefl)]
          exact hall _ fun b hb => heq ▸ hra b hb
        rw [hl1, hl2, hr1, hr2, List.append_nil, List.nil_append]
        show toList (if keep x a then SearchTree.node l a r else SearchTree.node l x r)
          = toList l ++ (if keep x a then a else x) :: toList r
        split
        · rfl
        · rfl
      · rw [if_neg hgt.not_gt, if_pos hgt, if_neg hgt.not_gt, if_pos hgt, toList_balance, toList,
          ihr hr]
        have hsmall : (toList l).filter (fun b => key b < key x) = toList l :=
          hall _ fun b hb => (hla b hb).trans hgt
        have hgreat : (toList l).filter (fun b => key x < key b) = [] :=
          hnone _ fun b hb => ((hla b hb).trans hgt).not_gt
        rw [hsmall, hgreat, List.filter_cons, if_pos (by simpa using hgt), List.filter_cons,
          if_neg (by simpa using hgt.not_gt)]
        simp

theorem key_chosen {t : SearchTree α} (h : Ordered key t) :
    key (chosen keep x (find key (key x) t)) = key x := by
  unfold chosen
  split
  · rfl
  · rename_i old hold
    split
    · exact ((find_eq_some_iff h).mp hold).2
    · rfl

/-- An insertion keeps the items in order. -/
theorem ordered_insert {t : SearchTree α} (h : Ordered key t) : Ordered key (insert key keep x t) := by
  have hkey : key (chosen keep x (find key (key x) t)) = key x := key_chosen h
  unfold Ordered
  rw [toList_insert h, List.pairwise_append, List.pairwise_cons]
  refine ⟨h.filter _, ⟨fun b hb => ?_, h.filter _⟩, fun b hb c hc => ?_⟩
  · rw [hkey]
    exact of_decide_eq_true (List.mem_filter.mp hb).2
  · have hbx : key b < key x := of_decide_eq_true (List.mem_filter.mp hb).2
    rcases List.mem_cons.mp hc with rfl | hc
    · rw [hkey]
      exact hbx
    · exact hbx.trans (of_decide_eq_true (List.mem_filter.mp hc).2)

/-- **What a search finds after an insertion.** -/
theorem find_insert {t : SearchTree α} (h : Ordered key t) (k : κ) :
    find key k (insert key keep x t)
      = if k = key x then some (chosen keep x (find key (key x) t)) else find key k t := by
  have hkey : key (chosen keep x (find key (key x) t)) = key x := key_chosen h
  refine Option.ext fun a => ?_
  rw [find_eq_some_iff (ordered_insert h), toList_insert h]
  simp only [List.mem_append, List.mem_cons, List.mem_filter, decide_eq_true_eq]
  by_cases hk : k = key x
  · subst hk
    rw [if_pos rfl, Option.some_inj]
    constructor
    · rintro ⟨⟨-, hlt⟩ | rfl | ⟨-, hgt⟩, heq⟩
      · exact absurd hlt (heq ▸ lt_irrefl _)
      · rfl
      · exact absurd hgt (heq ▸ lt_irrefl _)
    · rintro rfl
      exact ⟨Or.inr (Or.inl rfl), hkey⟩
  · rw [if_neg hk, find_eq_some_iff h]
    constructor
    · rintro ⟨⟨ha, -⟩ | rfl | ⟨ha, -⟩, heq⟩
      · exact ⟨ha, heq⟩
      · exact absurd (heq.symm.trans hkey) hk
      · exact ⟨ha, heq⟩
    · rintro ⟨ha, rfl⟩
      rcases lt_or_gt_of_ne hk with hlt | hgt
      · exact ⟨Or.inl ⟨ha, hlt⟩, rfl⟩
      · exact ⟨Or.inr (Or.inr ⟨ha, hgt⟩), rfl⟩

end Search

end SearchTree

end CbclAvl
