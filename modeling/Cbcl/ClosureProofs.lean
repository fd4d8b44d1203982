import Mathlib.Data.Set.Card
import Mathlib.Order.Bounds.Basic

/-!
# Least closed sets, pass by pass

A clause says that its premises, taken together, force one more fact.  The facts derived from given
ones by some clauses are the least set that contains the given ones and is closed under the clauses.
A table of facts that is extended pass by pass, until a pass finds nothing to add, ends with these
facts, and a number of passes that covers the facts still missing is enough.

Several sets of clauses may be closed under one after another.  The result lies in every set that is
closed under all of them; it is closed under all of them when no set of clauses adds what an earlier
one asks for.
-/

namespace CbclClosure

variable {G : Type}

-- ── Derived facts ────

/-- Whenever a set has all premises of a clause it has the conclusion. -/
def ClosedUnder (C : Set (Set G × G)) (X : Set G) : Prop := ∀ c ∈ C, c.1 ⊆ X → c.2 ∈ X

/-- What follows from some facts by some clauses. -/
inductive Derived (C : Set (Set G × G)) (X : Set G) : G → Prop where
  | given {g : G} : g ∈ X → Derived C X g
  | clause {c : Set G × G} : c ∈ C → (∀ p ∈ c.1, Derived C X p) → Derived C X c.2

/-- What follows lies in every closed set that has the given facts. -/
theorem Derived.mem {C : Set (Set G × G)} {X Y : Set G} (hX : X ⊆ Y) (hY : ClosedUnder C Y) {g : G}
    (h : Derived C X g) : g ∈ Y := by
  induction h with
  | given hg => exact hX hg
  | clause hc _ ih => exact hY _ hc ih

/-- **What follows is the least closed set.** -/
theorem isLeast_derived (C : Set (Set G × G)) (X : Set G) :
    IsLeast {Y | X ⊆ Y ∧ ClosedUnder C Y} {g | Derived C X g} :=
  ⟨⟨fun _ hg => .given hg, fun _ hc hpremises => .clause hc hpremises⟩,
    fun _ hY _ hg => hg.mem hY.1 hY.2⟩

-- ── Passes ────

variable {T : Type}

/-- Passes until there is nothing to add. -/
def repeatPass (pass : T → Option T) : Nat → T → T
  | 0, t => t
  | fuel + 1, t =>
      match pass t with
      | none => t
      | some t' => repeatPass pass fuel t'

/-- A pass over a table adds facts that clauses force, and finds something unless the table is
    closed. -/
structure Passes (facts : T → Set G) (pass : T → Option T) (C : Set (Set G × G)) : Prop where
  done : ∀ {t}, pass t = none → ClosedUnder C (facts t)
  keeps : ∀ {t t'}, pass t = some t' → facts t ⊆ facts t'
  adds : ∀ {t t'}, pass t = some t' → ∃ g ∈ facts t', g ∉ facts t
  forced : ∀ {t t'}, pass t = some t' →
    ∀ g ∈ facts t', g ∉ facts t → ∃ c ∈ C, c.1 ⊆ facts t ∧ c.2 = g

section Enough

variable {facts : T → Set G} {pass : T → Option T} {C : Set (Set G × G)} {U W : Set G}

/-- A pass keeps to what follows. -/
theorem Passes.subset_derived (h : Passes facts pass C) {t t' : T} (hpass : pass t = some t')
    {X : Set G} (ht : ∀ g ∈ facts t, Derived C X g) : ∀ g ∈ facts t', Derived C X g := by
  intro g hg
  by_cases hold : g ∈ facts t
  · exact ht g hold
  · obtain ⟨c, hc, hpremises, rfl⟩ := h.forced hpass g hg hold
    exact .clause hc fun p hp => ht p (hpremises hp)

/-- Every pass leaves fewer facts to add. -/
theorem Passes.ncard_lt (h : Passes facts pass C) (hU : U.Finite)
    (hC : ∀ c ∈ C, c.1 ⊆ W → c.2 ∈ U) {t t' : T} (ht : facts t ⊆ W) (hpass : pass t = some t') :
    (U \ facts t').ncard < (U \ facts t).ncard := by
  obtain ⟨g, hg, hnew⟩ := h.adds hpass
  obtain ⟨c, hc, hpremises, rfl⟩ := h.forced hpass g hg hnew
  refine Set.ncard_lt_ncard ⟨Set.sdiff_subset_sdiff_right (h.keeps hpass), fun hsub => ?_⟩
    (hU.subset Set.sdiff_subset)
  exact (hsub ⟨hC c hc (hpremises.trans ht), hnew⟩).2 hg

/-- A pass stays within what is possible. -/
theorem Passes.subset_possible (h : Passes facts pass C) (hUW : U ⊆ W)
    (hC : ∀ c ∈ C, c.1 ⊆ W → c.2 ∈ U) {t t' : T} (ht : facts t ⊆ W) (hpass : pass t = some t') :
    facts t' ⊆ W := by
  intro g hg
  by_cases hold : g ∈ facts t
  · exact ht hold
  · obtain ⟨c, hc, hpremises, rfl⟩ := h.forced hpass g hg hold
    exact hUW (hC c hc (hpremises.trans ht))

/-- Enough passes come to an end. -/
theorem Passes.ends (h : Passes facts pass C) (hU : U.Finite) (hUW : U ⊆ W)
    (hC : ∀ c ∈ C, c.1 ⊆ W → c.2 ∈ U) : ∀ (fuel : Nat) (t : T), facts t ⊆ W →
    (U \ facts t).ncard < fuel → pass (repeatPass pass fuel t) = none := by
  intro fuel
  induction fuel with
  | zero => exact fun _ _ hfuel => absurd hfuel (Nat.not_lt_zero _)
  | succ fuel ih =>
      intro t ht hfuel
      unfold repeatPass
      cases hpass : pass t with
      | none => exact hpass
      | some t' =>
          refine ih t' (h.subset_possible hUW hC ht hpass) ?_
          have hless := h.ncard_lt hU hC ht hpass
          omega

/-- Passes keep what there is and keep to what follows. -/
theorem Passes.between (h : Passes facts pass C) : ∀ (fuel : Nat) (t : T) (X : Set G),
    (∀ g ∈ facts t, Derived C X g) → facts t ⊆ facts (repeatPass pass fuel t) ∧
      ∀ g ∈ facts (repeatPass pass fuel t), Derived C X g := by
  intro fuel
  induction fuel with
  | zero => exact fun t X ht => ⟨subset_rfl, ht⟩
  | succ fuel ih =>
      intro t X ht
      unfold repeatPass
      cases hpass : pass t with
      | none => exact ⟨subset_rfl, ht⟩
      | some t' =>
          obtain ⟨hkeeps, hderived⟩ := ih t' X (h.subset_derived hpass ht)
          exact ⟨(h.keeps hpass).trans hkeeps, hderived⟩

/-- **Enough passes end with what follows from the first table.** -/
theorem Passes.facts_eq (h : Passes facts pass C) (hU : U.Finite) (hUW : U ⊆ W)
    (hC : ∀ c ∈ C, c.1 ⊆ W → c.2 ∈ U) {fuel : Nat} {t : T} (ht : facts t ⊆ W)
    (hfuel : (U \ facts t).ncard < fuel) :
    facts (repeatPass pass fuel t) = {g | Derived C (facts t) g} := by
  obtain ⟨hkeeps, hderived⟩ := h.between fuel t (facts t) fun _ hg => .given hg
  refine Set.Subset.antisymm hderived fun g hg => ?_
  exact hg.mem hkeeps (h.done (h.ends hU hUW hC fuel t ht hfuel))

end Enough

-- ── One set of clauses after another ────

/-- What follows by some sets of clauses, taken in turn. -/
def inOrder (Cs : List (Set (Set G × G))) (X : Set G) : Set G :=
  Cs.foldl (fun X C => {g | Derived C X g}) X

/-- What follows by some sets of clauses, in any order. -/
def inAnyOrder (Cs : List (Set (Set G × G))) (X : Set G) : Set G :=
  {g | Derived {c | ∃ C ∈ Cs, c ∈ C} X g}

/-- Taking the clauses in turn keeps to every set that is closed under all of them. -/
theorem inOrder_subset {Y : Set G} : ∀ {Cs : List (Set (Set G × G))} {X : Set G}, X ⊆ Y →
    (∀ C ∈ Cs, ClosedUnder C Y) → inOrder Cs X ⊆ Y := by
  intro Cs
  induction Cs with
  | nil => exact fun hX _ => hX
  | cons C Cs ih =>
      intro X hX hY
      exact ih (fun g hg => hg.mem hX (hY C (List.mem_cons_self ..)))
        fun D hD => hY D (List.mem_cons_of_mem C hD)

/-- Taking the clauses in turn keeps what there is. -/
theorem subset_inOrder : ∀ (Cs : List (Set (Set G × G))) (X : Set G), X ⊆ inOrder Cs X := by
  intro Cs
  induction Cs with
  | nil => exact fun X => subset_rfl
  | cons C Cs ih => exact fun X g hg => ih _ (.given hg)

/-- What follows in any order is the least set closed under all clauses. -/
theorem isLeast_inAnyOrder (Cs : List (Set (Set G × G))) (X : Set G) :
    IsLeast {Y | X ⊆ Y ∧ ∀ C ∈ Cs, ClosedUnder C Y} (inAnyOrder Cs X) := by
  obtain ⟨⟨hX, hclosed⟩, hleast⟩ := isLeast_derived {c | ∃ C ∈ Cs, c ∈ C} X
  exact ⟨⟨hX, fun C hC c hc => hclosed c ⟨C, hC, hc⟩⟩, fun Y hY => hleast
    ⟨hY.1, fun c ⟨C, hC, hc⟩ => hY.2 C hC c hc⟩⟩

/-- **Taking the clauses in turn gives the least set closed under all of them exactly if nothing
    more follows in another order.** -/
theorem isLeast_inOrder_iff (Cs : List (Set (Set G × G))) (X : Set G) :
    IsLeast {Y | X ⊆ Y ∧ ∀ C ∈ Cs, ClosedUnder C Y} (inOrder Cs X) ↔
      inAnyOrder Cs X ⊆ inOrder Cs X := by
  have hleast := isLeast_inAnyOrder Cs X
  constructor
  · exact fun h => hleast.2 h.1
  · intro hsub
    have heq : inOrder Cs X = inAnyOrder Cs X :=
      Set.Subset.antisymm (inOrder_subset hleast.1.1 hleast.1.2) hsub
    rw [heq]
    exact hleast

/-- A set stays closed under clauses when others add nothing these ask for. -/
theorem closedUnder_derived {C D : Set (Set G × G)} {X : Set G} (hX : ClosedUnder C X)
    (hapart : ∀ c ∈ C, ∀ d ∈ D, d.2 ∉ c.1) : ClosedUnder C {g | Derived D X g} := by
  intro c hc hpremises
  refine .given (hX c hc fun p hp => ?_)
  cases hpremises hp with
  | given hgiven => exact hgiven
  | clause hd _ => exact absurd hp (hapart c hc _ hd)

/-- A set stays closed under clauses when others, taken in turn, add nothing these ask for. -/
theorem closedUnder_inOrder {C : Set (Set G × G)} : ∀ {Cs : List (Set (Set G × G))} {X : Set G},
    ClosedUnder C X → (∀ D ∈ Cs, ∀ c ∈ C, ∀ d ∈ D, d.2 ∉ c.1) →
    ClosedUnder C (inOrder Cs X) := by
  intro Cs
  induction Cs with
  | nil => exact fun hX _ => hX
  | cons D Cs ih =>
      intro X hX hapart
      exact ih (closedUnder_derived hX (hapart D (List.mem_cons_self ..)))
        fun E hE => hapart E (List.mem_cons_of_mem D hE)

/-- **Clauses that add nothing earlier ones ask for are closed under in one turn.** -/
theorem isLeast_inOrder {Cs : List (Set (Set G × G))} (X : Set G)
    (hapart : Cs.Pairwise fun C D => ∀ c ∈ C, ∀ d ∈ D, d.2 ∉ c.1) :
    IsLeast {Y | X ⊆ Y ∧ ∀ C ∈ Cs, ClosedUnder C Y} (inOrder Cs X) := by
  refine ⟨⟨subset_inOrder Cs X, ?_⟩, fun Y hY => inOrder_subset hY.1 hY.2⟩
  induction Cs generalizing X with
  | nil => exact fun C hC => absurd hC List.not_mem_nil
  | cons C Cs ih =>
      obtain ⟨hfirst, hrest⟩ := List.pairwise_cons.mp hapart
      intro D hD
      rcases List.mem_cons.mp hD with heq | hD
      · have hclosed : ClosedUnder C {g | Derived C X g} := (isLeast_derived C X).1.2
        have hstays : ClosedUnder C (inOrder Cs {g | Derived C X g}) :=
          closedUnder_inOrder hclosed hfirst
        rw [heq]
        exact hstays
      · exact ih {g | Derived C X g} hrest D hD

end CbclClosure
