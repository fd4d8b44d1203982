import Cbcl.TreeMapProofs

/-!
# Sorting by a key

Lists sorted strictly by a key are determined by their members.  So a list that was built by a
stable sort, by dropping runs of one key, or by walking an ordered map is `sortBy` of its set
of members, whatever order the members arrived in.
-/

namespace CbclKeyedSort

variable {α κ : Type} [LinearOrder κ] {f : α → κ}

/-- The members of a finite set, sorted by a key. -/
noncomputable def sortBy (f : α → κ) (s : Finset α) : List α :=
  s.toList.insertionSort fun a b => f a ≤ f b

/-- Strictly sorted by a key. -/
def Strict (f : α → κ) (xs : List α) : Prop := xs.Pairwise fun a b => f a < f b

theorem Strict.nodup {xs : List α} (h : Strict f xs) : xs.Nodup :=
  h.imp fun hlt heq => absurd hlt (by rw [heq]; exact lt_irrefl _)

/-- In a strictly sorted list a key belongs to one member. -/
theorem Strict.injective {xs : List α} (h : Strict f xs) {a b : α} (ha : a ∈ xs) (hb : b ∈ xs)
    (hab : f a = f b) : a = b := by
  have hnodup : (xs.map f).Nodup := List.pairwise_map.mpr (h.imp fun hlt => ne_of_lt hlt)
  exact (List.nodup_map_iff_inj_on h.nodup).mp hnodup a ha b hb hab

/-- **Strictly sorted lists with the same members are equal.** -/
theorem Strict.eq {xs ys : List α} (hx : Strict f xs) (hy : Strict f ys)
    (hmem : ∀ a, a ∈ xs ↔ a ∈ ys) : xs = ys := by
  have hanti : ∀ a b, a ∈ xs → b ∈ ys → f a < f b → f b < f a → a = b := by
    intro a b _ _ hab hba
    exact absurd (hab.trans hba) (lt_irrefl _)
  exact List.Perm.eq_of_pairwise hanti hx hy
    ((List.perm_ext_iff_of_nodup hx.nodup hy.nodup).mpr hmem)

/-- Sorting a list with distinct keys sorts it strictly. -/
theorem strict_insertionSort {xs : List α} (hnodup : (xs.map f).Nodup) :
    Strict f (xs.insertionSort fun a b => f a ≤ f b) := by
  have : Std.Total fun a b : α => f a ≤ f b := ⟨fun a b => le_total (f a) (f b)⟩
  have : IsTrans α fun a b => f a ≤ f b := ⟨fun _ _ _ hab hbc => hab.trans hbc⟩
  have hle := List.pairwise_insertionSort (fun a b : α => f a ≤ f b) xs
  have hne : (xs.insertionSort fun a b => f a ≤ f b).Pairwise fun a b => f a ≠ f b := by
    have hperm := (List.perm_insertionSort (fun a b : α => f a ≤ f b) xs).map f
    exact List.pairwise_map.mp (hperm.nodup_iff.mpr hnodup)
  exact hle.imp₂ (fun _ _ hab hne => lt_of_le_of_ne hab hne) hne

theorem mem_sortBy {s : Finset α} {a : α} : a ∈ sortBy f s ↔ a ∈ s := by
  unfold sortBy
  rw [List.mem_insertionSort, Finset.mem_toList]

/-- Where a key belongs to one member, the sorted set is strictly sorted. -/
theorem strict_sortBy {s : Finset α} (hinj : ∀ a ∈ s, ∀ b ∈ s, f a = f b → a = b) :
    Strict f (sortBy f s) := by
  refine strict_insertionSort ((List.nodup_map_iff_inj_on s.nodup_toList).mpr ?_)
  intro a ha b hb hab
  exact hinj a (Finset.mem_toList.mp ha) b (Finset.mem_toList.mp hb) hab

/-- **A strictly sorted list is the sorted set of its members.** -/
theorem Strict.eq_sortBy {xs : List α} {s : Finset α} (hx : Strict f xs)
    (hmem : ∀ a, a ∈ xs ↔ a ∈ s) : xs = sortBy f s := by
  refine hx.eq (strict_sortBy fun a ha b hb hab => ?_) fun a => ?_
  · exact hx.injective ((hmem a).mpr ha) ((hmem b).mpr hb) hab
  · rw [hmem, mem_sortBy]

/-- Dropping the runs of one key leaves a sorted list strictly sorted. -/
theorem strict_destutter {xs : List α} (hx : xs.Pairwise fun a b => f a ≤ f b) :
    Strict f (xs.destutter fun a b => f a ≠ f b) := by
  have hle := hx.sublist (List.destutter_sublist (fun a b : α => f a ≠ f b) xs)
  have hchain := List.isChain_destutter (fun a b : α => f a ≠ f b) xs
  have : IsTrans α fun a b => f a < f b := ⟨fun _ _ _ hab hbc => hab.trans hbc⟩
  refine List.isChain_iff_pairwise.mp (List.isChain_iff_getElem.mpr fun i hi => ?_)
  exact lt_of_le_of_ne (List.isChain_iff_getElem.mp hle.isChain i hi)
    (List.isChain_iff_getElem.mp hchain i hi)

/-- Dropping runs keeps a member of every key. -/
theorem exists_mem_destutter (xs : List α) :
    ∀ x ∈ xs, ∃ y ∈ xs.destutter fun a b => f a ≠ f b, f y = f x := by
  have hrun : ∀ (l : List α) (b : α), ∀ x ∈ b :: l,
      ∃ y ∈ l.destutter' (fun a b => f a ≠ f b) b, f y = f x := by
    intro l
    induction l with
    | nil =>
        intro b x hx
        rw [List.mem_singleton.mp hx]
        exact ⟨b, List.mem_singleton.mpr rfl, rfl⟩
    | cons c l ih =>
        intro b x hx
        rw [List.destutter'_cons]
        split
        · rcases List.mem_cons.mp hx with rfl | hx
          · exact ⟨x, List.mem_cons_self .., rfl⟩
          · obtain ⟨y, hy, hyx⟩ := ih c x hx
            exact ⟨y, List.mem_cons_of_mem _ hy, hyx⟩
        · rename_i hbc
          rw [not_not] at hbc
          rcases List.mem_cons.mp hx with rfl | hx
          · exact ih x x (List.mem_cons_self ..)
          · rcases List.mem_cons.mp hx with rfl | hx
            · obtain ⟨y, hy, hyx⟩ := ih b b (List.mem_cons_self ..)
              exact ⟨y, hy, hyx.trans hbc⟩
            · exact ih b x (List.mem_cons_of_mem _ hx)
  intro x hx
  cases xs with
  | nil => exact nomatch hx
  | cons b l => exact hrun l b x hx

/-- **Sort and drop runs.**  Where a key belongs to one value, the outcome is the sorted set
    of the values. -/
theorem destutter_insertionSort [DecidableEq α] {xs : List α}
    (hinj : ∀ a ∈ xs, ∀ b ∈ xs, f a = f b → a = b) :
    (xs.insertionSort fun a b => f a ≤ f b).destutter (fun a b => f a ≠ f b)
      = sortBy f xs.toFinset := by
  have : Std.Total fun a b : α => f a ≤ f b := ⟨fun a b => le_total (f a) (f b)⟩
  have : IsTrans α fun a b => f a ≤ f b := ⟨fun _ _ _ hab hbc => hab.trans hbc⟩
  refine (strict_destutter (List.pairwise_insertionSort _ xs)).eq_sortBy fun a => ?_
  have hsub := List.destutter_sublist (fun a b : α => f a ≠ f b)
    (xs.insertionSort fun a b => f a ≤ f b)
  rw [List.mem_toFinset]
  constructor
  · intro ha
    exact (List.mem_insertionSort _).mp (hsub.subset ha)
  · intro ha
    obtain ⟨b, hb, hba⟩ := exists_mem_destutter (f := f) (xs.insertionSort fun a b => f a ≤ f b) a
      ((List.mem_insertionSort _).mpr ha)
    rw [← hinj b ((List.mem_insertionSort _).mp (hsub.subset hb)) a ha hba]
    exact hb

-- ── Ordered maps ────

section Maps

variable {ν : Type}

/-- The keys of an ordered map of texts are strictly sorted. -/
theorem strict_keys (m : Std.ExtTreeMap String ν compare) : Strict id m.keys :=
  m.ordered_keys.imp fun h => compare_lt_iff_lt.mp h

/-- The keys of an ordered map of texts are the sorted set of its keys. -/
theorem keys_eq_sort (m : Std.ExtTreeMap String ν compare) (s : Finset String)
    (hmem : ∀ k : String, (∃ v, m[k]? = some v) ↔ k ∈ s) : m.keys = s.sort (· ≤ ·) := by
  refine (strict_keys m).eq (f := id) ?_ fun k => ?_
  · exact s.sortedLT_sort.pairwise
  · rw [CbclTreeMap.mem_keys_iff, hmem, Finset.mem_sort]

/-- **Walking an ordered map**: values that carry their key come out strictly sorted. -/
theorem strict_valuesOf (m : Std.ExtTreeMap String ν compare) {f : ν → String}
    (keyed : ∀ (k : String) (v : ν), m[k]? = some v → f v = k) :
    Strict f (CbclTreeMap.valuesOf m) := by
  have hmap : (CbclTreeMap.valuesOf m).map f = m.keys := by
    unfold CbclTreeMap.valuesOf
    rw [← Std.ExtTreeMap.map_fst_toList_eq_keys, List.map_map]
    refine List.map_congr_left fun e he => ?_
    exact keyed e.1 e.2 (Std.ExtTreeMap.mem_toList_iff_getElem?_eq_some.mp he)
  refine List.pairwise_map.mp ?_
  rw [hmap]
  exact strict_keys m

end Maps

end CbclKeyedSort
