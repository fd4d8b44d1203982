import Mathlib

/-!
# Ledgers with local authorisation

Operations belong to accounts and move amounts between them; nobody but the owner of an
operation can lose by it.  An owner that has all its own operations in view, and any part of
the others', computes a lower bound of its balance (`visible_le_balance`): what it has not
seen can only be income.  So an operation covered by what its owner can see is covered by
what the owner has, and balances stay nonnegative (`solvent_insert`).
-/

namespace CbclLedger

open Finset

variable {Op Account : Type} [DecidableEq Op] [DecidableEq Account]

/-- Operations with an owner and an effect on every account. -/
structure Ledger (Op Account : Type) where
  owner : Op → Account
  delta : Op → Account → ℤ

/-- Nobody but its owner loses by an operation. -/
def Ledger.Giving (L : Ledger Op Account) (ops : Finset Op) : Prop :=
  ∀ a ∈ ops, ∀ x, x ≠ L.owner a → 0 ≤ L.delta a x

/-- The balance of an account after some operations. -/
def Ledger.balance (L : Ledger Op Account) (initial : Account → ℤ) (ops : Finset Op)
    (x : Account) : ℤ :=
  initial x + ∑ a ∈ ops, L.delta a x

/-- No account is in debt. -/
def Ledger.Solvent (L : Ledger Op Account) (initial : Account → ℤ) (ops : Finset Op) : Prop :=
  ∀ x, 0 ≤ L.balance initial ops x

/-- **What an owner can see of its balance is at most its balance.** -/
theorem Ledger.visible_le_balance {L : Ledger Op Account} (initial : Account → ℤ)
    {past : Finset Op} (hgive : L.Giving past) (x : Account) (others : Finset Account)
    (seen : Account → Finset Op) (hothers : ∀ p ∈ others, p ≠ x)
    (hseen : ∀ p ∈ others, ∀ a ∈ seen p, a ∈ past ∧ L.owner a = p) :
    initial x + ∑ a ∈ past with L.owner a = x, L.delta a x
      + ∑ p ∈ others, ∑ a ∈ seen p, L.delta a x ≤ L.balance initial past x := by
  have hdisjoint : (others : Set Account).PairwiseDisjoint seen := by
    intro p hp q hq hpq
    refine Finset.disjoint_left.mpr fun a ha hb => hpq ?_
    rw [← (hseen p hp a ha).2, ← (hseen q hq a hb).2]
  have hincome : ∑ p ∈ others, ∑ a ∈ seen p, L.delta a x
      ≤ ∑ a ∈ past with ¬ L.owner a = x, L.delta a x := by
    rw [← Finset.sum_biUnion hdisjoint]
    refine Finset.sum_le_sum_of_subset_of_nonneg (fun a ha => ?_) fun a ha _ => ?_
    · obtain ⟨p, hp, hap⟩ := Finset.mem_biUnion.mp ha
      obtain ⟨hpast, howner⟩ := hseen p hp a hap
      refine Finset.mem_filter.mpr ⟨hpast, ?_⟩
      rw [howner]
      exact hothers p hp
    · obtain ⟨hpast, hne⟩ := Finset.mem_filter.mp ha
      exact hgive a hpast x (Ne.symm hne)
  have hsplit := Finset.sum_filter_add_sum_filter_not past (fun a => L.owner a = x)
    fun a => L.delta a x
  unfold Ledger.balance
  linarith

omit [DecidableEq Op] in
/-- What an owner sees of its balance is its balance if it sees all operations of everybody. -/
theorem Ledger.balance_eq_visible (L : Ledger Op Account) (initial : Account → ℤ)
    (past : Finset Op) {x : Account} {others : Finset Account} (hx : x ∉ others)
    (hall : ∀ a ∈ past, L.owner a ≠ x → L.owner a ∈ others) :
    L.balance initial past x = initial x + ∑ a ∈ past with L.owner a = x, L.delta a x
      + ∑ p ∈ others, ∑ a ∈ past with L.owner a = p, L.delta a x := by
  have hsplit := Finset.sum_filter_add_sum_filter_not past (fun a => L.owner a = x)
    fun a => L.delta a x
  have hfibers := Finset.sum_fiberwise_of_maps_to (s := {a ∈ past | ¬ L.owner a = x})
    (t := others) (g := L.owner) (fun a ha => by
      obtain ⟨hpast, hne⟩ := Finset.mem_filter.mp ha
      exact hall a hpast hne) fun a => L.delta a x
  have hincome : ∑ p ∈ others, ∑ a ∈ past with L.owner a = p, L.delta a x
      = ∑ a ∈ past with ¬ L.owner a = x, L.delta a x := by
    rw [← hfibers]
    refine Finset.sum_congr rfl fun p hp => ?_
    rw [Finset.filter_filter]
    refine Finset.sum_congr (Finset.filter_congr fun a _ => ?_) fun _ _ => rfl
    have hne : p ≠ x := fun h => hx (h ▸ hp)
    constructor
    · intro h
      exact ⟨fun hax => hne (h.symm.trans hax), h⟩
    · exact And.right
  unfold Ledger.balance
  linarith

/-- **An operation its owner can afford keeps every account solvent.** -/
theorem Ledger.solvent_insert {L : Ledger Op Account} {initial : Account → ℤ} {past : Finset Op}
    (hsolvent : L.Solvent initial past) {a : Op} (hfresh : a ∉ past)
    (hgive : ∀ x, x ≠ L.owner a → 0 ≤ L.delta a x)
    (hafford : 0 ≤ L.balance initial past (L.owner a) + L.delta a (L.owner a)) :
    L.Solvent initial (insert a past) := by
  intro x
  have hbalance : L.balance initial (insert a past) x
      = L.balance initial past x + L.delta a x := by
    unfold Ledger.balance
    rw [Finset.sum_insert hfresh]
    ring
  rw [hbalance]
  by_cases hx : x = L.owner a
  · rw [hx]
    exact hafford
  · exact add_nonneg (hsolvent x) (hgive x hx)

omit [DecidableEq Op] [DecidableEq Account] in
/-- Nobody is in debt at the start. -/
theorem Ledger.solvent_empty (L : Ledger Op Account) {initial : Account → ℤ}
    (h : ∀ x, 0 ≤ initial x) : L.Solvent initial ∅ := by
  intro x
  unfold Ledger.balance
  rw [Finset.sum_empty, add_zero]
  exact h x

omit [DecidableEq Op] [DecidableEq Account] in
/-- The total over all accounts moves by what the operations create or destroy. -/
theorem Ledger.sum_balance (L : Ledger Op Account) (initial : Account → ℤ) (ops : Finset Op)
    (accounts : Finset Account) :
    ∑ x ∈ accounts, L.balance initial ops x
      = ∑ x ∈ accounts, initial x + ∑ a ∈ ops, ∑ x ∈ accounts, L.delta a x := by
  unfold Ledger.balance
  rw [Finset.sum_add_distrib, Finset.sum_comm]

end CbclLedger
