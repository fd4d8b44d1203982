import Mathlib.Data.List.Nodup
import Mathlib.Data.List.Perm.Subperm

/-!
# Shuffling by exchanges

Every place of an array, from the last one down, is exchanged with a place at or before it that is
drawn.  The elements stay the same, whatever is drawn; and of distinct elements every order can be
drawn, since a place is never touched again.
-/

namespace CbclShuffle

variable {α : Type}

/-- Exchange the places from `i` down with drawn ones. -/
def shuffle (draw : Nat → Nat) : Nat → Array α → Array α
  | 0, xs => xs
  | i + 1, xs => shuffle draw i (xs.swapIfInBounds (i + 1) (min (draw (i + 1)) (i + 1)))

/-- An exchange loses nothing. -/
theorem swapIfInBounds_perm (xs : Array α) (i j : Nat) : (xs.swapIfInBounds i j).Perm xs := by
  rw [Array.swapIfInBounds_def]
  split
  · split
    · exact Array.swap_perm _ _
    · exact Array.Perm.refl xs
  · exact Array.Perm.refl xs

/-- **A shuffle loses nothing.** -/
theorem shuffle_perm (draw : Nat → Nat) : ∀ (i : Nat) (xs : Array α),
    (shuffle draw i xs).Perm xs := by
  intro i
  induction i with
  | zero => exact Array.Perm.refl
  | succ i ih => exact fun xs => (ih _).trans (swapIfInBounds_perm xs _ _)

/-- The draws for the places above do not matter. -/
theorem shuffle_congr {draw draw' : Nat → Nat} : ∀ (i : Nat) (xs : Array α),
    (∀ m ≤ i, draw m = draw' m) → shuffle draw i xs = shuffle draw' i xs := by
  intro i
  induction i with
  | zero => exact fun _ _ => rfl
  | succ i ih =>
      intro xs hsame
      rw [shuffle, shuffle, hsame (i + 1) (Nat.le_refl _)]
      exact ih _ fun m hm => hsame m (Nat.le_succ_of_le hm)

/-- The place of an element that two orders of the same distinct elements do not agree on yet. -/
theorem exists_place {xs ys : Array α} (hperm : xs.Perm ys) (hdistinct : ys.toList.Nodup) {i : Nat}
    (hi : i < ys.size) (habove : ∀ k, i < k → xs[k]? = ys[k]?) :
    ∃ j ≤ i, xs[j]? = ys[i]? := by
  have hmem : ys[i] ∈ xs := hperm.mem_iff.mpr (Array.getElem_mem hi)
  obtain ⟨j, hj, heq⟩ := Array.getElem_of_mem hmem
  have hfound : xs[j]? = ys[i]? := by
    rw [Array.getElem?_eq_getElem hj, Array.getElem?_eq_getElem hi, heq]
  refine ⟨j, ?_, hfound⟩
  by_contra hlt
  have hsame : ys.toList[j]? = ys.toList[i]? := by
    rw [Array.getElem?_toList, Array.getElem?_toList, ← habove j (Nat.lt_of_not_le hlt), hfound]
  have hjs : j < ys.toList.length := by
    rw [Array.length_toList, ← hperm.size_eq]
    exact hj
  exact hlt (Nat.le_of_eq ((List.getElem?_inj hjs hdistinct).mp hsame))

/-- What an exchange leaves at a place. -/
theorem getElem?_swapIfInBounds {xs : Array α} {i j : Nat} (hi : i < xs.size) (hj : j ≤ i)
    (k : Nat) (hk : i ≤ k) :
    (xs.swapIfInBounds i j)[k]? = if k = i then xs[j]? else xs[k]? := by
  have hjs : j < xs.size := Nat.lt_of_le_of_lt hj hi
  rw [Array.swapIfInBounds_def, dif_pos hi, dif_pos hjs, Array.getElem?_swap]
  grind

/-- **Every order of distinct elements can be drawn**, place by place from the last one. -/
theorem exists_shuffle : ∀ (i : Nat) (xs ys : Array α), xs.Perm ys → ys.toList.Nodup →
    i < ys.size → (∀ k, i < k → xs[k]? = ys[k]?) → ∃ draw, shuffle draw i xs = ys := by
  intro i
  induction i with
  | zero =>
      intro xs ys hperm hdistinct hi habove
      obtain ⟨j, hj, hfound⟩ := exists_place hperm hdistinct hi habove
      refine ⟨id, Array.ext_getElem? fun k => ?_⟩
      rcases Nat.eq_zero_or_pos k with rfl | hk
      · rw [← hfound, Nat.le_zero.mp hj]
        rfl
      · exact habove k hk
  | succ i ih =>
      intro xs ys hperm hdistinct hi habove
      obtain ⟨j, hj, hfound⟩ := exists_place hperm hdistinct hi habove
      have his : i + 1 < xs.size := hperm.size_eq ▸ hi
      obtain ⟨draw, hdraw⟩ := ih (xs.swapIfInBounds (i + 1) j) ys
        ((swapIfInBounds_perm xs _ _).trans hperm) hdistinct (Nat.lt_of_succ_lt hi) fun k hk => by
          rw [getElem?_swapIfInBounds his hj k hk]
          split
          · next heq => rw [hfound, heq]
          · next hne => exact habove k (Nat.lt_of_le_of_ne hk (Ne.symm hne))
      -- Draw `j` for this place and the rest for those below it.
      refine ⟨fun m => if m = i + 1 then j else draw m, ?_⟩
      rw [shuffle, if_pos rfl, Nat.min_eq_left hj, ← hdraw]
      exact shuffle_congr i _ fun m hm => if_neg fun heq : m = i + 1 => by omega

end CbclShuffle
