import Mathlib.Data.Finset.Card
import Mathlib.Logic.Relation

/-!
# Spreading in rounds

Something starts at one place and is passed on round by round: in round `n` whoever has it may pass
it to others, and nobody loses it.  Who passes it to whom may change from round to round, so a
place is reached along a chain of passes whose rounds increase.  Where every link passes it in
every round, it is everywhere after as many rounds as there are other places.
-/

namespace CbclSpread

variable {α : Type} {passes : Nat → α → α → Prop} {source : α}

/-- Who has it after `n` rounds. -/
inductive Reached (passes : Nat → α → α → Prop) (source : α) : Nat → α → Prop where
  | start : Reached passes source 0 source
  | keep {n : Nat} {a : α} : Reached passes source n a → Reached passes source (n + 1) a
  | pass {n : Nat} {a b : α} :
      Reached passes source n a → passes n a b → Reached passes source (n + 1) b

@[simp] theorem reached_zero_iff {a : α} : Reached passes source 0 a ↔ a = source := by
  constructor
  · intro h
    cases h
    rfl
  · rintro rfl
    exact .start

/-- One more round. -/
theorem reached_succ_iff {n : Nat} {b : α} :
    Reached passes source (n + 1) b ↔
      Reached passes source n b ∨ ∃ a, Reached passes source n a ∧ passes n a b := by
  constructor
  · intro h
    cases h with
    | keep hb => exact .inl hb
    | pass ha hpass => exact .inr ⟨_, ha, hpass⟩
  · rintro (hb | ⟨a, ha, hpass⟩)
    · exact .keep hb
    · exact .pass ha hpass

/-- Nobody loses it. -/
theorem Reached.mono {n m : Nat} {a : α} (h : Reached passes source n a) (hle : n ≤ m) :
    Reached passes source m a := by
  induction hle with
  | refl => exact h
  | step _ ih => exact .keep ih

/-- The source has it all along. -/
theorem reached_source (n : Nat) : Reached passes source n source :=
  Reached.start.mono (Nat.zero_le n)

/-- Only who is linked to the source has it. -/
theorem Reached.linked {links : α → α → Prop} (hlinks : ∀ n a b, passes n a b → links a b)
    {n : Nat} {a : α} (h : Reached passes source n a) : Relation.ReflTransGen links source a := by
  induction h with
  | start => exact .refl
  | keep _ ih => exact ih
  | pass _ hpass ih => exact ih.tail (hlinks _ _ _ hpass)

/-- What is linked to the source but not reached lies behind a link that leaves the reached. -/
theorem exists_frontier {links : α → α → Prop} {n : Nat} {b : α}
    (hlinked : Relation.ReflTransGen links source b) (hb : ¬ Reached passes source n b) :
    ∃ x y, Reached passes source n x ∧ links x y ∧ ¬ Reached passes source n y := by
  by_contra hnone
  apply hb
  clear hb
  induction hlinked with
  | refl => exact reached_source n
  | tail _ hlink ih => exact not_not.mp fun hy => hnone ⟨_, _, ih, hlink, hy⟩

section Always

variable {links : α → α → Prop} (halways : ∀ n a b, links a b → passes n a b)
include halways

/-- After `n` rounds everything linked to the source is reached, or at least `n` places besides
    the source are. -/
theorem all_or_many (n : Nat) :
    (∀ b, Relation.ReflTransGen links source b → Reached passes source n b) ∨
      ∃ reached : Finset α, n + 1 ≤ reached.card ∧ ∀ a ∈ reached, Reached passes source n a := by
  classical
  induction n with
  | zero =>
      refine .inr ⟨{source}, le_of_eq (Finset.card_singleton source).symm, fun a ha => ?_⟩
      exact reached_zero_iff.mpr (Finset.mem_singleton.mp ha)
  | succ n ih =>
      rcases ih with hall | ⟨reached, hcard, hreached⟩
      · exact .inl fun b hb => (hall b hb).keep
      by_cases hall : ∀ b, Relation.ReflTransGen links source b → Reached passes source n b
      · exact .inl fun b hb => (hall b hb).keep
      -- A link that leaves the reached places adds one of them in this round.
      push Not at hall
      obtain ⟨b, hlinked, hb⟩ := hall
      obtain ⟨x, y, hx, hlink, hy⟩ := exists_frontier hlinked hb
      have hnew : y ∉ reached := fun hmem => hy (hreached y hmem)
      refine .inr ⟨insert y reached, ?_, fun a ha => ?_⟩
      · rw [Finset.card_insert_of_notMem hnew]
        omega
      · rcases Finset.mem_insert.mp ha with rfl | ha
        · exact hx.pass (halways n x a hlink)
        · exact (hreached a ha).keep

/-- Some round reaches what is linked to the source. -/
theorem exists_reached {b : α} (hlinked : Relation.ReflTransGen links source b) :
    ∃ n, Reached passes source n b := by
  induction hlinked with
  | refl => exact ⟨0, .start⟩
  | tail _ hlink ih =>
      obtain ⟨n, ha⟩ := ih
      exact ⟨n + 1, ha.pass (halways n _ _ hlink)⟩

/-- **One round for every other place is enough** where every link passes it on in every round. -/
theorem reached_of_linked {places : Finset α}
    (hplaces : ∀ n a, Reached passes source n a → a ∈ places) {n : Nat}
    (hn : places.card ≤ n + 1) {b : α} (hlinked : Relation.ReflTransGen links source b) :
    Reached passes source n b := by
  rcases all_or_many halways n with hall | ⟨reached, hcard, hreached⟩
  · exact hall b hlinked
  have hsub : reached ⊆ places := fun a ha => hplaces n a (hreached a ha)
  obtain ⟨m, hb⟩ := exists_reached halways hlinked
  have heq : reached = places := Finset.eq_of_subset_of_card_le hsub (hn.trans hcard)
  exact hreached b (heq ▸ hplaces m b hb)

end Always

end CbclSpread
