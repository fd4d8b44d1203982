import Mathlib

/-!
# Reading ordered maps and sets

Keys of the ordered maps and sets used here have a lawful comparison, so what a map holds
after an update is a plain case split on equality of keys.
-/

namespace CbclTreeMap

variable {κ ν : Type} [Ord κ] [Std.TransOrd κ] [Std.LawfulEqOrd κ] [DecidableEq κ]

/-- The values of a map, in key order. -/
def valuesOf (m : Std.ExtTreeMap κ ν compare) : List ν := m.toList.map Prod.snd

/-- Reading after an insertion. -/
theorem getElem?_insert_eq (m : Std.ExtTreeMap κ ν compare) (k a : κ) (v : ν) :
    (m.insert k v)[a]? = if a = k then some v else m[a]? := by
  rw [Std.ExtTreeMap.getElem?_insert]
  by_cases h : a = k
  · rw [if_pos (by rw [h]; exact Std.ReflCmp.compare_self), if_pos h]
  · rw [if_neg (by rw [Std.LawfulEqCmp.compare_eq_iff_eq]; exact Ne.symm h), if_neg h]

/-- Reading after a removal. -/
theorem getElem?_erase_eq (m : Std.ExtTreeMap κ ν compare) (k a : κ) :
    (m.erase k)[a]? = if a = k then none else m[a]? := by
  rw [Std.ExtTreeMap.getElem?_erase]
  by_cases h : a = k
  · rw [if_pos (by rw [h]; exact Std.ReflCmp.compare_self), if_pos h]
  · rw [if_neg (by rw [Std.LawfulEqCmp.compare_eq_iff_eq]; exact Ne.symm h), if_neg h]

omit [DecidableEq κ] in
/-- The members of a set after an insertion. -/
theorem mem_insert_iff (s : Std.ExtTreeSet κ compare) (k a : κ) :
    a ∈ s.insert k ↔ a = k ∨ a ∈ s := by
  rw [Std.ExtTreeSet.mem_insert, Std.LawfulEqCmp.compare_eq_iff_eq, eq_comm]

omit [DecidableEq κ] in
/-- The members of a set after some insertions. -/
theorem mem_foldl_insert {a : κ} : ∀ (ks : List κ) (s : Std.ExtTreeSet κ compare),
    a ∈ ks.foldl (·.insert ·) s ↔ a ∈ ks ∨ a ∈ s := by
  intro ks
  induction ks with
  | nil => intro s; simp
  | cons k ks ih =>
      intro s
      rw [List.foldl_cons, ih, mem_insert_iff, List.mem_cons]
      tauto

omit [DecidableEq κ] in
/-- The members of a set after a removal. -/
theorem mem_erase_iff (s : Std.ExtTreeSet κ compare) (k a : κ) :
    a ∈ s.erase k ↔ a ≠ k ∧ a ∈ s := by
  rw [Std.ExtTreeSet.mem_erase, Ne, Std.LawfulEqCmp.compare_eq_iff_eq, ne_comm]

omit [DecidableEq κ] in
/-- The members of a set, listed in order, are distinct. -/
theorem nodup_toList (s : Std.ExtTreeSet κ compare) : s.toList.Nodup := by
  refine s.distinct_toList.imp fun h heq => h ?_
  rw [heq]
  exact Std.ReflCmp.compare_self

omit [Std.LawfulEqOrd κ] [DecidableEq κ] in
/-- The keys of a map are distinct. -/
theorem nodup_keys (m : Std.ExtTreeMap κ ν compare) : m.keys.Nodup := by
  refine m.distinct_keys.imp fun h heq => h ?_
  rw [heq]
  exact Std.ReflCmp.compare_self

omit [DecidableEq κ] in
/-- A key of a map is one it holds a value at. -/
theorem mem_keys_iff (m : Std.ExtTreeMap κ ν compare) (a : κ) :
    a ∈ m.keys ↔ ∃ v, m[a]? = some v := by
  rw [Std.ExtTreeMap.mem_keys, Std.ExtTreeMap.mem_iff_isSome_getElem?,
    Option.isSome_iff_exists]

omit [DecidableEq κ] in
/-- A value of a map is one it holds at some key. -/
theorem mem_valuesOf_iff (m : Std.ExtTreeMap κ ν compare) (v : ν) :
    v ∈ valuesOf m ↔ ∃ a : κ, m[a]? = some v := by
  unfold valuesOf
  rw [List.mem_map]
  constructor
  · rintro ⟨⟨a, w⟩, h, rfl⟩
    exact ⟨a, Std.ExtTreeMap.mem_toList_iff_getElem?_eq_some.mp h⟩
  · rintro ⟨a, h⟩
    exact ⟨(a, v), Std.ExtTreeMap.mem_toList_iff_getElem?_eq_some.mpr h, rfl⟩

omit [DecidableEq κ] in
/-- Listing the values is reading the map along its keys. -/
theorem valuesOf_map {α : Type} (m : Std.ExtTreeMap κ ν compare) (f : ν → α) (d : α) :
    (valuesOf m).map f = m.keys.map fun a : κ => ((m[a]?).map f).getD d := by
  unfold valuesOf
  rw [← Std.ExtTreeMap.map_fst_toList_eq_keys, List.map_map, List.map_map]
  refine List.map_congr_left fun e he => ?_
  have hget : m[e.1]? = some e.2 := Std.ExtTreeMap.mem_toList_iff_getElem?_eq_some.mp he
  show f e.2 = ((m[e.1]?).map f).getD d
  rw [hget]
  rfl

omit [DecidableEq κ] in
/-- Values filed under their own keys have distinct keys. -/
theorem nodup_valuesOf_map (m : Std.ExtTreeMap κ ν compare) (key : ν → κ)
    (keyed : ∀ (k : κ) (v : ν), m[k]? = some v → key v = k) : ((valuesOf m).map key).Nodup := by
  have hkeys : (valuesOf m).map key = m.keys := by
    unfold valuesOf
    rw [← Std.ExtTreeMap.map_fst_toList_eq_keys, List.map_map]
    refine List.map_congr_left fun e he => ?_
    exact keyed e.1 e.2 (Std.ExtTreeMap.mem_toList_iff_getElem?_eq_some.mp he)
  rw [hkeys]
  exact nodup_keys m

/-- Summing over the values of a map is summing over its keys. -/
theorem sum_valuesOf (m : Std.ExtTreeMap κ ν compare) (f : ν → ℤ) :
    ((valuesOf m).map f).sum = ∑ a ∈ m.keys.toFinset, ((m[a]?).map f).getD 0 := by
  rw [valuesOf_map m f 0, List.sum_toFinset _ (nodup_keys m)]

/-- Filing values under distinct keys: a value is read at its own key. -/
theorem getElem?_foldl_insert (key : ν → κ) (k : κ) (v : ν) : ∀ (xs : List ν)
    (m : Std.ExtTreeMap κ ν compare), (xs.map key).Nodup →
    ((xs.foldl (fun m x => m.insert (key x) x) m)[k]? = some v ↔
      (v ∈ xs ∧ key v = k) ∨ (k ∉ xs.map key ∧ m[k]? = some v)) := by
  intro xs
  induction xs with
  | nil =>
      intro m _
      simp
  | cons x xs ih =>
      intro m hnodup
      rw [List.map_cons, List.nodup_cons] at hnodup
      rw [List.foldl_cons, ih _ hnodup.2, getElem?_insert_eq, List.map_cons]
      by_cases hk : k = key x
      · rw [if_pos hk]
        constructor
        · rintro (⟨hv, hkv⟩ | ⟨-, hv⟩)
          · exact Or.inl ⟨List.mem_cons_of_mem _ hv, hkv⟩
          · injection hv with hv
            rw [← hv]
            exact Or.inl ⟨List.mem_cons_self .., hk.symm⟩
        · rintro (⟨hv, hkv⟩ | ⟨hv, -⟩)
          · rcases List.mem_cons.mp hv with rfl | hv
            · exact Or.inr ⟨by rw [hk]; exact hnodup.1, rfl⟩
            · exact Or.inl ⟨hv, hkv⟩
          · exact absurd (by rw [hk]; exact List.mem_cons_self ..) hv
      · rw [if_neg hk]
        constructor
        · rintro (⟨hv, hkv⟩ | ⟨hnone, hv⟩)
          · exact Or.inl ⟨List.mem_cons_of_mem _ hv, hkv⟩
          · refine Or.inr ⟨fun hmem => ?_, hv⟩
            rcases List.mem_cons.mp hmem with h | h
            · exact hk h
            · exact hnone h
        · rintro (⟨hv, hkv⟩ | ⟨hnone, hv⟩)
          · rcases List.mem_cons.mp hv with rfl | hv
            · exact absurd hkv.symm hk
            · exact Or.inl ⟨hv, hkv⟩
          · exact Or.inr ⟨fun hmem => hnone (List.mem_cons_of_mem _ hmem), hv⟩

/-- Filing under other keys leaves a key alone. -/
theorem getElem?_foldl_insert_of_notMem {α : Type} (key : α → κ) (value : α → ν) {k : κ} :
    ∀ (xs : List α) (m : Std.ExtTreeMap κ ν compare), k ∉ xs.map key →
      (xs.foldl (fun m x => m.insert (key x) (value x)) m)[k]? = m[k]? := by
  intro xs
  induction xs with
  | nil => intro m _; rfl
  | cons x xs ih =>
      intro m hk
      rw [List.map_cons, List.mem_cons, not_or] at hk
      rw [List.foldl_cons, ih _ hk.2, getElem?_insert_eq, if_neg hk.1]

/-- Filing under distinct keys: the value of an item is read at its key. -/
theorem getElem?_foldl_insert_of_mem {α : Type} (key : α → κ) (value : α → ν) {a : α} :
    ∀ (xs : List α) (m : Std.ExtTreeMap κ ν compare), (xs.map key).Nodup → a ∈ xs →
      (xs.foldl (fun m x => m.insert (key x) (value x)) m)[key a]? = some (value a) := by
  intro xs
  induction xs with
  | nil => intro m _ ha; exact nomatch ha
  | cons x xs ih =>
      intro m hnodup ha
      rw [List.map_cons, List.nodup_cons] at hnodup
      rw [List.foldl_cons]
      rcases List.mem_cons.mp ha with rfl | ha
      · rw [getElem?_foldl_insert_of_notMem key value xs _ hnodup.1, getElem?_insert_eq,
          if_pos rfl]
      · exact ih _ hnodup.2 ha

omit [DecidableEq κ] in
/-- The entries of a map, key by key. -/
theorem toList_eq (m : Std.ExtTreeMap κ ν compare) (d : ν) :
    m.toList = m.keys.map fun k => (k, (m[k]?).getD d) := by
  rw [← Std.ExtTreeMap.map_fst_toList_eq_keys, List.map_map]
  conv_lhs => rw [← List.map_id m.toList]
  refine List.map_congr_left fun e he => ?_
  have hget : m[e.1]? = some e.2 := Std.ExtTreeMap.mem_toList_iff_getElem?_eq_some.mp he
  simp [hget]

-- ── Grouping ────

section Grouping

variable {α : Type}

/-- Put an item at the end of the group of its key, if it has one. -/
def fileUnder (key : α → Option κ) (out : Std.ExtTreeMap κ (List α) compare) (a : α) :
    Std.ExtTreeMap κ (List α) compare :=
  match key a with
  | none => out
  | some k => out.insert k ((out[k]?).getD [] ++ [a])

/-- **Groups are filters**: a group holds the items of its key, in the order they came. -/
theorem getElem?_fileUnder (key : α → Option κ) (xs : List α) (k : κ) :
    (xs.foldl (fileUnder key) ∅)[k]?
      = if xs.filter (key · = some k) = [] then none else some (xs.filter (key · = some k)) := by
  induction xs using List.reverseRecOn with
  | nil => simp
  | append_singleton xs a ih =>
      rw [List.foldl_append, List.foldl_cons, List.foldl_nil, List.filter_append]
      generalize xs.foldl (fileUnder key) ∅ = out at ih ⊢
      unfold fileUnder
      cases hk : key a with
      | none => simpa [hk] using ih
      | some k' =>
          rw [getElem?_insert_eq]
          by_cases h : k = k'
          · subst h
            rw [if_pos rfl, if_neg (by simp [hk]), ih]
            congr 1
            split
            · rename_i hnil
              rw [hnil]
              simp [hk]
            · simp [hk]
          · rw [if_neg h, ih]
            simp [hk, Ne.symm h]

end Grouping

end CbclTreeMap
