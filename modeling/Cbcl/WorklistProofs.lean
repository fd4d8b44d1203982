import Mathlib

/-!
# Worklist exploration — a stack, a visited set, and exactly enough fuel

Several traversals of the runtime share one shape: pop a node, skip it when it was seen,
otherwise mark it and push its successors.  Over a finite *support* (outside of which a
node has no successor) the loop makes at most `potential` steps: every step pops one
node, and pushing the successors of a node spends what the node contributed to the sum.
Run with that fuel, the visited set is the set of nodes reachable from the start.
-/

namespace CbclWorklist

variable {α : Type} [DecidableEq α]

/-- Pop, mark, push.  The head of `todo` is the top of the stack. -/
def explore (succ : α → List α) : Nat → List α → List α → List α
  | 0, _, seen => seen
  | _ + 1, [], seen => seen
  | n + 1, x :: todo, seen =>
      if x ∈ seen then explore succ n todo seen
      else explore succ n ((succ x).reverse ++ todo) (x :: seen)

/-- The stack's length plus everything the unvisited support may still push. -/
def potential (succ : α → List α) (support todo seen : List α) : Nat :=
  todo.length + ((support.filter (· ∉ seen)).map fun x => (succ x).length).sum

/-- Reachability along successors. -/
def Reaches (succ : α → List α) : α → α → Prop :=
  Relation.ReflTransGen fun a b => b ∈ succ a

omit [DecidableEq α] in
/-- The loop with its own way of pushing: what is pushed may depend on what was seen. -/
def exploreWith (push : List α → α → List α) : Nat → List α → List α → List α
  | 0, _, seen => seen
  | _ + 1, [], seen => seen
  | n + 1, x :: todo, seen =>
      if x ∈ seen then exploreWith push n todo seen
      else exploreWith push n (push (x :: seen) x ++ todo) (x :: seen)

/-- Pushing the successors, leaving out at most what was seen. -/
structure Pushes (succ : α → List α) (push : List α → α → List α) : Prop where
  sound : ∀ seen x, ∀ y ∈ push seen x, y ∈ succ x
  complete : ∀ seen x, ∀ y ∈ succ x, y ∈ seen ∨ y ∈ push seen x
  length_le : ∀ seen x, (push seen x).length ≤ (succ x).length

/-- Push all successors, the last one on top. -/
def pushAll (succ : α → List α) (_ : List α) (x : α) : List α := (succ x).reverse

/-- Push the successors not seen yet, the last one on top. -/
def pushUnseen (succ : α → List α) (seen : List α) (x : α) : List α :=
  ((succ x).filter (· ∉ seen)).reverse

omit [DecidableEq α] in
theorem pushes_pushAll (succ : α → List α) : Pushes succ (pushAll succ) where
  sound := fun _ _ _ hy => List.mem_reverse.mp hy
  complete := fun _ _ _ hy => Or.inr (List.mem_reverse.mpr hy)
  length_le := fun _ x => by rw [pushAll, List.length_reverse]

theorem pushes_pushUnseen (succ : α → List α) : Pushes succ (pushUnseen succ) where
  sound := by
    intro seen x y hy
    exact (List.mem_filter.mp (List.mem_reverse.mp hy)).1
  complete := by
    intro seen x y hy
    by_cases hseen : y ∈ seen
    · exact Or.inl hseen
    · exact Or.inr (List.mem_reverse.mpr (List.mem_filter.mpr ⟨hy, by simpa using hseen⟩))
  length_le := by
    intro seen x
    rw [pushUnseen, List.length_reverse]
    exact List.length_filter_le _ _

theorem explore_eq_exploreWith (succ : α → List α) : ∀ (n : Nat) (todo seen : List α),
    explore succ n todo seen = exploreWith (pushAll succ) n todo seen := by
  intro n
  induction n with
  | zero => intro todo seen; rfl
  | succ n ih =>
      intro todo seen
      cases todo with
      | nil => rfl
      | cons x todo =>
          rw [explore, exploreWith, ih, ih]
          rfl

/-- The worklist of a whole run: nothing seen, fuel equal to the potential. -/
def closure (succ : α → List α) (support start : List α) : List α :=
  explore succ (potential succ support start []) start []

/-- Marking a node of the support removes its share of the sum. -/
theorem sum_unseen_cons (f : α → Nat) (support seen : List α) {x : α}
    (hx : x ∈ support) (hnew : x ∉ seen) :
    ((support.filter (· ∉ x :: seen)).map f).sum + f x
      ≤ ((support.filter (· ∉ seen)).map f).sum := by
  induction support with
  | nil => exact nomatch hx
  | cons y rest ih =>
      have hmono : ((rest.filter (· ∉ x :: seen)).map f).sum
          ≤ ((rest.filter (· ∉ seen)).map f).sum := by
        refine List.Sublist.sum_le_sum (List.Sublist.map f ?_) (by simp)
        refine List.monotone_filter_right rest ?_
        intro a ha
        simp only [List.mem_cons, not_or, Bool.decide_and, Bool.and_eq_true] at ha ⊢
        exact ha.2
      by_cases hyx : y = x
      · subst hyx
        rw [List.filter_cons_of_neg (by simp), List.filter_cons_of_pos (by simpa using hnew)]
        simp only [List.map_cons, List.sum_cons]
        omega
      · have hx' : x ∈ rest := by
          rcases List.mem_cons.mp hx with h | h
          · exact absurd h.symm hyx
          · exact h
        have := ih hx'
        by_cases hys : y ∈ seen
        · rw [List.filter_cons_of_neg (by simp [hys]), List.filter_cons_of_neg (by simp [hys])]
          exact this
        · rw [List.filter_cons_of_pos (by simp [hyx, hys]),
            List.filter_cons_of_pos (by simpa using hys)]
          simp only [List.map_cons, List.sum_cons]
          omega

section Fuel

variable {succ : α → List α} {push : List α → α → List α} {support : List α}
  (hpush : Pushes succ push) (hsup : ∀ x, x ∉ support → succ x = [])
include hpush hsup

/-- Visiting an unseen node lowers the potential by at least one. -/
theorem potential_visit {x : α} (todo : List α) {seen : List α} (hnew : x ∉ seen) :
    potential succ support (push (x :: seen) x ++ todo) (x :: seen) + 1
      ≤ potential succ support (x :: todo) seen := by
  unfold potential
  have hlen := hpush.length_le (x :: seen) x
  by_cases hx : x ∈ support
  · have := sum_unseen_cons (fun y => (succ y).length) support seen hx hnew
    simp only [List.length_append, List.length_cons]
    omega
  · have hsame : support.filter (· ∉ x :: seen) = support.filter (· ∉ seen) := by
      refine List.filter_congr ?_
      intro y hy
      have hyx : y ≠ x := fun h => hx (h ▸ hy)
      simp [hyx]
    rw [hsup x hx, List.length_nil] at hlen
    rw [hsame]
    simp only [List.length_append, List.length_cons]
    omega

/-- **Closedness.**  With fuel at least the potential, and every successor of a seen node
    seen or queued, the result is closed under successors. -/
theorem exploreWith_closed :
    ∀ (n : Nat) (todo seen : List α), potential succ support todo seen ≤ n →
      (∀ x ∈ seen, ∀ y ∈ succ x, y ∈ seen ∨ y ∈ todo) →
      ∀ x ∈ exploreWith push n todo seen, ∀ y ∈ succ x, y ∈ exploreWith push n todo seen := by
  intro n
  induction n with
  | zero =>
      intro todo seen hpot hinv x hx y hy
      have htodo : todo = [] := by
        unfold potential at hpot
        exact List.eq_nil_of_length_eq_zero (by omega)
      rcases hinv x hx y hy with h | h
      · exact h
      · rw [htodo] at h
        exact nomatch h
  | succ n ih =>
      intro todo seen hpot hinv
      cases todo with
      | nil =>
          intro x hx y hy
          rcases hinv x hx y hy with h | h
          · exact h
          · exact nomatch h
      | cons z todo =>
          rw [exploreWith]
          by_cases hz : z ∈ seen
          · rw [if_pos hz]
            refine ih todo seen ?_ ?_
            · unfold potential at hpot ⊢
              simp only [List.length_cons] at hpot
              omega
            · intro x hx y hy
              rcases hinv x hx y hy with h | h
              · exact Or.inl h
              · rcases List.mem_cons.mp h with heq | hmem
                · exact Or.inl (heq ▸ hz)
                · exact Or.inr hmem
          · rw [if_neg hz]
            refine ih _ (z :: seen) ?_ ?_
            · have := potential_visit hpush hsup todo hz
              omega
            · intro x hx y hy
              rcases List.mem_cons.mp hx with heq | hmem
              · subst heq
                rcases hpush.complete (x :: seen) x y hy with h | h
                · exact Or.inl h
                · exact Or.inr (List.mem_append_left _ h)
              · rcases hinv x hmem y hy with h | h
                · exact Or.inl (List.mem_cons_of_mem _ h)
                · rcases List.mem_cons.mp h with heq | hmem'
                  · exact Or.inl (heq ▸ List.mem_cons_self ..)
                  · exact Or.inr (List.mem_append_right _ hmem')

/-- Everything seen or queued ends in the result. -/
theorem exploreWith_start :
    ∀ (n : Nat) (todo seen : List α), potential succ support todo seen ≤ n →
      ∀ x, x ∈ seen ∨ x ∈ todo → x ∈ exploreWith push n todo seen := by
  intro n
  induction n with
  | zero =>
      intro todo seen hpot x hx
      have htodo : todo = [] := by
        unfold potential at hpot
        exact List.eq_nil_of_length_eq_zero (by omega)
      subst htodo
      rcases hx with h | h
      · exact h
      · exact nomatch h
  | succ n ih =>
      intro todo seen hpot x hx
      cases todo with
      | nil =>
          rcases hx with h | h
          · exact h
          · exact nomatch h
      | cons z todo =>
          rw [exploreWith]
          by_cases hz : z ∈ seen
          · rw [if_pos hz]
            refine ih todo seen ?_ x ?_
            · unfold potential at hpot ⊢
              simp only [List.length_cons] at hpot
              omega
            · rcases hx with h | h
              · exact Or.inl h
              · rcases List.mem_cons.mp h with heq | hmem
                · exact Or.inl (heq ▸ hz)
                · exact Or.inr hmem
          · rw [if_neg hz]
            refine ih _ (z :: seen) ?_ x ?_
            · have := potential_visit hpush hsup todo hz
              omega
            · rcases hx with h | h
              · exact Or.inl (List.mem_cons_of_mem _ h)
              · rcases List.mem_cons.mp h with heq | hmem
                · exact Or.inl (heq ▸ List.mem_cons_self ..)
                · exact Or.inr (List.mem_append_right _ hmem)

end Fuel

/-- Nothing unreachable is visited. -/
theorem exploreWith_sound {succ : α → List α} {push : List α → α → List α}
    (hpush : Pushes succ push) :
    ∀ (n : Nat) (todo seen : List α), ∀ y ∈ exploreWith push n todo seen,
      y ∈ seen ∨ ∃ x ∈ todo, Reaches succ x y := by
  intro n
  induction n with
  | zero => intro todo seen y hy; exact Or.inl hy
  | succ n ih =>
      intro todo seen y hy
      cases todo with
      | nil => exact Or.inl hy
      | cons z todo =>
          rw [exploreWith] at hy
          by_cases hz : z ∈ seen
          · rw [if_pos hz] at hy
            rcases ih todo seen y hy with h | ⟨x, hx, hr⟩
            · exact Or.inl h
            · exact Or.inr ⟨x, List.mem_cons_of_mem _ hx, hr⟩
          · rw [if_neg hz] at hy
            rcases ih _ _ y hy with h | ⟨x, hx, hr⟩
            · rcases List.mem_cons.mp h with heq | hmem
              · exact Or.inr ⟨z, List.mem_cons_self .., heq ▸ Relation.ReflTransGen.refl⟩
              · exact Or.inl hmem
            · rcases List.mem_append.mp hx with hx' | hx'
              · refine Or.inr ⟨z, List.mem_cons_self .., ?_⟩
                exact Relation.ReflTransGen.head (hpush.sound _ z x hx') hr
              · exact Or.inr ⟨x, List.mem_cons_of_mem _ hx', hr⟩

/-- **A whole run visits the reachable nodes**: nothing seen, fuel equal to the potential. -/
theorem mem_exploreWith_iff {succ : α → List α} {push : List α → α → List α} {support : List α}
    (hpush : Pushes succ push) (hsup : ∀ x, x ∉ support → succ x = []) {start : List α} {y : α} :
    y ∈ exploreWith push (potential succ support start []) start [] ↔
      ∃ x ∈ start, Reaches succ x y := by
  constructor
  · intro hy
    rcases exploreWith_sound hpush _ start [] y hy with h | h
    · exact nomatch h
    · exact h
  · rintro ⟨x, hx, hr⟩
    induction hr with
    | refl => exact exploreWith_start hpush hsup _ start [] (Nat.le_refl _) x (Or.inr hx)
    | tail _ hstep ih =>
        exact exploreWith_closed hpush hsup _ start [] (Nat.le_refl _) (fun _ h => nomatch h)
          _ ih _ hstep

omit [DecidableEq α] in
/-- In a finite part of an acyclic graph, everything is reached from a vertex that nothing there
    leads to. -/
theorem exists_source_reaches {succ : α → List α} {support : List α}
    (hacyclic : ∀ x, ¬ Relation.TransGen (fun a b => b ∈ succ a) x x) {x : α}
    (hx : x ∈ support) :
    ∃ y ∈ support, (∀ z ∈ support, y ∉ succ z) ∧ Reaches succ y x := by
  let above : { a // a ∈ support } → { a // a ∈ support } → Prop :=
    fun a b => Relation.TransGen (fun a b => b ∈ succ a) a.1 b.1
  have : IsTrans _ above := ⟨fun _ _ _ hab hbc => hab.trans hbc⟩
  have : Std.Irrefl above := ⟨fun a => hacyclic a.1⟩
  have : Finite { a // a ∈ support } := List.finite_toSet support
  have hwf : WellFounded above := Finite.wellFounded_of_trans_of_irrefl above
  -- induction upwards: a vertex is a source, or one of its predecessors is below one
  have hall : ∀ a : { a // a ∈ support },
      ∃ y ∈ support, (∀ z ∈ support, y ∉ succ z) ∧ Reaches succ y a.1 := by
    intro a
    induction a using hwf.induction with
    | _ a ih =>
        by_cases hsource : ∀ z ∈ support, a.1 ∉ succ z
        · exact ⟨a.1, a.2, hsource, Relation.ReflTransGen.refl⟩
        · push Not at hsource
          obtain ⟨z, hz, hza⟩ := hsource
          obtain ⟨y, hy, hyfree, hyz⟩ := ih ⟨z, hz⟩ (Relation.TransGen.single hza)
          exact ⟨y, hy, hyfree, hyz.tail hza⟩
  exact hall ⟨x, hx⟩

section Closure

variable {succ : α → List α} {support : List α} (hsup : ∀ x, x ∉ support → succ x = [])
include hsup

/-- **The closure is the set of reachable nodes.** -/
theorem mem_closure_iff {start : List α} {y : α} :
    y ∈ closure succ support start ↔ ∃ x ∈ start, Reaches succ x y := by
  unfold closure
  rw [explore_eq_exploreWith]
  exact mem_exploreWith_iff (pushes_pushAll succ) hsup

/-- The closure is closed under successors. -/
theorem closure_closed {start : List α} {x y : α} (hx : x ∈ closure succ support start)
    (hy : y ∈ succ x) : y ∈ closure succ support start := by
  obtain ⟨z, hz, hr⟩ := (mem_closure_iff hsup).mp hx
  exact (mem_closure_iff hsup).mpr ⟨z, hz, hr.tail hy⟩

/-- The closure holds its starting nodes. -/
theorem closure_start {start : List α} {x : α} (hx : x ∈ start) :
    x ∈ closure succ support start :=
  (mem_closure_iff hsup).mpr ⟨x, hx, Relation.ReflTransGen.refl⟩

end Closure

end CbclWorklist
