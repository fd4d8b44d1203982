import Mathlib

/-!
# Peeling successful computations apart

Fallible code is written in `Except ε`.  A successful run of `x >>= f` is a successful run
of `x` followed by one of `f`; these lemmas let a proof take a `do` block apart one line at
a time.
-/

namespace CbclExcept

variable {ε α β : Type}

/-- A sequence succeeds when both parts do. -/
theorem bind_ok_iff {x : Except ε α} {f : α → Except ε β} {b : β} :
    (x >>= f) = .ok b ↔ ∃ a, x = .ok a ∧ f a = .ok b := by
  cases x with
  | error e =>
      constructor
      · intro h
        exact nomatch h
      · rintro ⟨a, ha, -⟩
        exact nomatch ha
  | ok a =>
      constructor
      · intro h
        exact ⟨a, rfl, h⟩
      · rintro ⟨a', ha, hf⟩
        injection ha with ha
        subst ha
        exact hf

/-- A sequence fails when its first part does, or its second after the first. -/
theorem bind_error_iff {x : Except ε α} {f : α → Except ε β} {e : ε} :
    (x >>= f) = .error e ↔ x = .error e ∨ ∃ a, x = .ok a ∧ f a = .error e := by
  cases x with
  | error e' =>
      constructor
      · intro h
        injection h with h
        exact Or.inl (by rw [h])
      · rintro (h | ⟨a, ha, -⟩)
        · injection h with h
          rw [h]
          rfl
        · exact nomatch ha
  | ok a =>
      constructor
      · intro h
        exact Or.inr ⟨a, rfl, h⟩
      · rintro (h | ⟨a', ha, hf⟩)
        · exact nomatch h
        · injection ha with ha
          subst ha
          exact hf

/-- What a run yields, it returned. -/
theorem toOption_eq_some_iff {x : Except ε α} {a : α} : x.toOption = some a ↔ x = .ok a := by
  cases x with
  | error e => exact ⟨(nomatch ·), (nomatch ·)⟩
  | ok b => exact ⟨fun h => congrArg _ (Option.some.inj h), fun h => by rw [h]; rfl⟩

/-- A mapped result comes from a result. -/
theorem map_ok_iff {x : Except ε α} {f : α → β} {b : β} :
    x.map f = .ok b ↔ ∃ a, x = .ok a ∧ f a = b := by
  cases x with
  | error e =>
      constructor
      · intro h
        exact nomatch h
      · rintro ⟨a, ha, -⟩
        exact nomatch ha
  | ok a =>
      constructor
      · intro h
        injection h with h
        exact ⟨a, rfl, h⟩
      · rintro ⟨a', ha, rfl⟩
        injection ha with ha
        subst ha
        rfl

/-- A loop of checks passes exactly when every check does. -/
theorem forM_ok_iff {f : α → Except ε Unit} {xs : List α} {u : Unit} :
    xs.forM f = .ok u ↔ ∀ x ∈ xs, f x = .ok () := by
  induction xs with
  | nil =>
      constructor
      · intro _ x hx
        exact nomatch hx
      · intro _
        rfl
  | cons x xs ih =>
      show (f x >>= fun _ => xs.forM f) = .ok u ↔ _
      rw [bind_ok_iff, List.forall_mem_cons]
      constructor
      · rintro ⟨a, hx, hxs⟩
        exact ⟨hx, ih.mp hxs⟩
      · rintro ⟨hx, hxs⟩
        exact ⟨⟨⟩, hx, ih.mpr hxs⟩

/-- A loop that fails fails in one of its rounds. -/
theorem foldlM_error {f : β → α → Except ε β} {xs : List α} {e : ε} : ∀ {b : β},
    xs.foldlM f b = .error e → ∃ b', ∃ x ∈ xs, f b' x = .error e := by
  induction xs with
  | nil => intro b h; exact nomatch h
  | cons x xs ih =>
      intro b h
      rw [List.foldlM_cons] at h
      rcases bind_error_iff.mp h with h | ⟨b', -, h⟩
      · exact ⟨b, x, List.mem_cons_self .., h⟩
      · obtain ⟨b'', y, hy, hf⟩ := ih h
        exact ⟨b'', y, List.mem_cons_of_mem _ hy, hf⟩

/-- **The rule of a fallible loop**: what one round keeps holds after the last one; the
    invariant may mention the elements done so far. -/
theorem foldlM_inv {f : β → α → Except ε β} {I : List α → β → Prop} {xs : List α}
    (hstep : ∀ done x b b', x ∈ xs → I done b → f b x = .ok b' → I (done ++ [x]) b')
    {b r : β} (h0 : I [] b) (h : xs.foldlM f b = .ok r) : I xs r := by
  have hgen : ∀ (rest done : List α) (b : β), done ++ rest = xs → I done b →
      rest.foldlM f b = .ok r → I xs r := by
    intro rest
    induction rest with
    | nil =>
        intro done b heq hI hrun
        injection hrun with hrun
        rw [← hrun, ← heq, List.append_nil]
        exact hI
    | cons x rest ih =>
        intro done b heq hI hrun
        rw [List.foldlM_cons] at hrun
        obtain ⟨b', hb', hrest⟩ := bind_ok_iff.mp hrun
        refine ih (done ++ [x]) b' (by rw [← heq]; simp) (hstep done x b b' ?_ hI hb') hrest
        rw [← heq]
        exact List.mem_append_right _ (List.mem_cons_self ..)
  exact hgen xs [] b rfl h0 h

/-- A loop whose rounds all succeed succeeds. -/
theorem foldlM_total {f : β → α → Except ε β} {I : List α → β → Prop} {xs : List α}
    (hstep : ∀ done x b, (∃ rest, done ++ x :: rest = xs) → I done b →
      ∃ b', f b x = .ok b' ∧ I (done ++ [x]) b')
    {b : β} (h0 : I [] b) : ∃ r, xs.foldlM f b = .ok r ∧ I xs r := by
  have hgen : ∀ (rest done : List α) (b : β), done ++ rest = xs → I done b →
      ∃ r, rest.foldlM f b = .ok r ∧ I xs r := by
    intro rest
    induction rest with
    | nil =>
        intro done b heq hI
        rw [List.append_nil] at heq
        exact ⟨b, rfl, heq ▸ hI⟩
    | cons x rest ih =>
        intro done b heq hI
        obtain ⟨b', hb', hI'⟩ := hstep done x b ⟨rest, heq⟩ hI
        obtain ⟨r, hr, hIr⟩ := ih (done ++ [x]) b' (by rw [← heq]; simp) hI'
        refine ⟨r, ?_, hIr⟩
        rw [List.foldlM_cons, hb']
        exact hr
  exact hgen xs [] b rfl h0

end CbclExcept
