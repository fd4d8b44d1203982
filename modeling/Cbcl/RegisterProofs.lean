import Cbcl.GraphSearchProofs
import Mathlib.Data.Set.Finite.Basic
import Mathlib.Order.WellFounded

/-!
# Multi-value registers

Writes have an address and a scope, and name the addresses they replace.  A write is live among
some acts unless one of them, of its scope, names it.  Where no act names itself through others,
every act of a scope is reached from one that is not named, so a new write that names all of these
is the one live write of its scope; the other scopes keep theirs.
-/

namespace CbclRegister

open CbclGraphSearch

variable {α β σ : Type} (address : α → β) (replaces : α → List β) (scope : α → σ)

/-- Whether an act of its scope names a write. -/
def Named (R : Set α) (w : α) : Prop := ∃ r ∈ R, scope r = scope w ∧ address w ∈ replaces r

/-- The writes no act of their scope names. -/
def live (W R : Set α) : Set α := {w | w ∈ W ∧ ¬ Named address replaces scope R w}

/-- Whether an act of one address names another. -/
def Names (R : Set α) (h h' : β) : Prop := ∃ r ∈ R, address r = h ∧ h' ∈ replaces r

variable {address replaces scope} {W W' R : Set α} {n : α}

theorem Names.mono {R' : Set α} (hsub : R ⊆ R') {h h' : β} (hn : Names address replaces R h h') :
    Names address replaces R' h h' := by
  obtain ⟨r, hr, heq⟩ := hn
  exact ⟨r, hsub hr, heq⟩

variable (scope) in
/-- An act of a scope is reached from one of the scope that is not named. -/
theorem exists_live_above (hfin : R.Finite) (hacyclic : Acyclic (Names address replaces R)) {r : α}
    (hr : r ∈ R) : ∃ y ∈ live address replaces scope R R, scope y = scope r ∧
      Relation.ReflTransGen (Names address replaces R) (address y) (address r) := by
  let above : R → R → Prop := fun a b =>
    Relation.TransGen (Names address replaces R) (address a) (address b)
  have hwf : WellFounded above := by
    have := hfin.to_subtype
    have : IsTrans R above := ⟨fun _ _ _ hab hbc => hab.trans hbc⟩
    have : Std.Irrefl above := ⟨fun a h => hacyclic _ h⟩
    exact Finite.wellFounded_of_trans_of_irrefl above
  obtain ⟨y, ⟨hscope, hpath⟩, hmin⟩ := hwf.has_min
    {y : R | scope y = scope r ∧
      Relation.ReflTransGen (Names address replaces R) (address y) (address r)}
    ⟨⟨r, hr⟩, rfl, .refl⟩
  refine ⟨y, ⟨y.2, ?_⟩, hscope, hpath⟩
  rintro ⟨z, hz, hsame, hnames⟩
  have hstep : Names address replaces R (address z) (address y) := ⟨z, hz, rfl, hnames⟩
  exact hmin ⟨z, hz⟩ ⟨hsame.trans hscope, .head hstep hpath⟩ (.single hstep)

/-- The live writes of another scope stay as they are. -/
theorem live_other {a : α} (hscope : scope a ≠ scope n) (hW : a ∈ W' ↔ a ∈ W) :
    a ∈ live address replaces scope W' (insert n R) ↔ a ∈ live address replaces scope W R := by
  refine and_congr hW (not_congr ⟨?_, ?_⟩)
  · rintro ⟨r, hr, hsame, hnames⟩
    rcases Set.mem_insert_iff.mp hr with rfl | hr
    · exact absurd hsame.symm hscope
    · exact ⟨r, hr, hsame, hnames⟩
  · rintro ⟨r, hr, hsame, hnames⟩
    exact ⟨r, Set.mem_insert_of_mem n hr, hsame, hnames⟩

/-- An act that names the live writes of its scope leaves none of them. -/
theorem live_deleted (hnames : ∀ w ∈ live address replaces scope W R, scope w = scope n →
      address w ∈ replaces n) {a : α} (hscope : scope a = scope n) :
    a ∉ live address replaces scope W (insert n R) := by
  rintro ⟨ha, hunnamed⟩
  have hold : a ∈ live address replaces scope W R := ⟨ha, fun ⟨r, hr, hsame, hnamed⟩ =>
    hunnamed ⟨r, Set.mem_insert_of_mem n hr, hsame, hnamed⟩⟩
  exact hunnamed ⟨n, Set.mem_insert .., hscope.symm, hnames a hold hscope⟩

section Writes

variable (hfin : R.Finite) (hnames : ∀ y ∈ live address replaces scope R R, scope y = scope n →
  address y ∈ replaces n)
include hfin hnames

/-- An act that names what is not named in its scope is new. -/
theorem fresh_of_names (hacyclic : Acyclic (Names address replaces R)) : n ∉ R := by
  intro hn
  obtain ⟨y, ⟨hy, hunnamed⟩, hscope, -⟩ := exists_live_above scope hfin hacyclic hn
  exact hunnamed ⟨n, hn, hscope.symm, hnames y ⟨hy, hunnamed⟩ hscope⟩

/-- A write that names what is not named in its scope is the one live write of the scope. -/
theorem live_written (hacyclic : Acyclic (Names address replaces (insert n R))) (hsub : W ⊆ R)
    {a : α} (hscope : scope a = scope n) :
    a ∈ live address replaces scope (insert n W) (insert n R) ↔ a = n := by
  refine ⟨fun ha => ?_, ?_⟩
  · rcases Set.mem_insert_iff.mp ha.1 with heq | hW
    · exact heq
    · refine absurd ⟨hW, ha.2⟩ (live_deleted (fun w hw hsame => ?_) hscope)
      exact hnames w ⟨hsub hw.1, hw.2⟩ hsame
  · rintro rfl
    refine ⟨Set.mem_insert .., ?_⟩
    have hmono : ∀ {h h' : β}, Names address replaces R h h' →
        Names address replaces (insert a R) h h' := Names.mono (Set.subset_insert a R)
    rintro ⟨r, hr, hsame, hnamed⟩
    rcases Set.mem_insert_iff.mp hr with rfl | hr
    · exact hacyclic _ (.single ⟨r, Set.mem_insert .., rfl, hnamed⟩)
    · -- what names the new write is reached from an act that the new write names
      obtain ⟨y, hy, hscope, hpath⟩ := exists_live_above scope hfin
        (fun x hx => hacyclic x (Relation.TransGen.mono (fun _ _ => hmono) _ _ hx)) hr
      have hback : Names address replaces (insert a R) (address a) (address y) :=
        ⟨a, Set.mem_insert .., rfl, hnames y hy (hscope.trans hsame)⟩
      have hforth : Relation.TransGen (Names address replaces (insert a R)) (address y)
          (address a) :=
        Relation.TransGen.tail' (Relation.ReflTransGen.mono (fun _ _ => hmono) _ _ hpath)
          ⟨r, Set.mem_insert_of_mem a hr, rfl, hnamed⟩
      exact hacyclic _ (hforth.tail hback)

end Writes

end CbclRegister
