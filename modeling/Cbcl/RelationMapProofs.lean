import Cbcl.TreeMapProofs

/-!
# Maps of sets as relations

A map from keys to sets relates a key to the members of its set.  What an update does to the map is
said on the relation: a value added to the set of a key, a key that is new or gone, a value removed
from all sets.
-/

namespace CbclRelationMap

open CbclTreeMap

variable {κ : Type} [Ord κ] [Std.TransOrd κ] [Std.LawfulEqOrd κ] [DecidableEq κ]

-- ── Keys ────

section Keys

variable {ν : Type}

omit [DecidableEq κ] [Std.LawfulEqOrd κ] in
/-- The keys of a map are those that have a value. -/
theorem mem_iff_exists {m : Std.ExtTreeMap κ ν compare} {a : κ} : a ∈ m ↔ ∃ v, m[a]? = some v :=
  Std.ExtTreeMap.mem_iff_isSome_getElem?.trans Option.isSome_iff_exists

/-- What a map holds after a value has been modified. -/
theorem getElem?_modify_eq (m : Std.ExtTreeMap κ ν compare) (k a : κ) (f : ν → ν) :
    (m.modify k f)[a]? = if a = k then m[k]?.map f else m[a]? := by
  rw [Std.ExtTreeMap.getElem?_modify]
  by_cases h : a = k
  · rw [if_pos (by rw [h]; exact Std.ReflCmp.compare_self), if_pos h]
  · rw [if_neg (by rw [Std.LawfulEqCmp.compare_eq_iff_eq]; exact Ne.symm h), if_neg h]

omit [DecidableEq κ] in
/-- The keys after an insertion. -/
theorem mem_insert_key (m : Std.ExtTreeMap κ ν compare) (k a : κ) (v : ν) :
    a ∈ m.insert k v ↔ a = k ∨ a ∈ m := by
  rw [Std.ExtTreeMap.mem_insert, Std.LawfulEqCmp.compare_eq_iff_eq, eq_comm]

omit [DecidableEq κ] in
/-- The keys after a removal. -/
theorem mem_erase_key (m : Std.ExtTreeMap κ ν compare) (k a : κ) :
    a ∈ m.erase k ↔ a ≠ k ∧ a ∈ m := by
  rw [Std.ExtTreeMap.mem_erase, Ne, Std.LawfulEqCmp.compare_eq_iff_eq, ne_comm]

omit [DecidableEq κ] in
/-- The members of a set after some removals. -/
theorem mem_foldl_erase {a : κ} : ∀ (ks : List κ) (s : Std.ExtTreeSet κ compare),
    a ∈ ks.foldl (·.erase ·) s ↔ a ∉ ks ∧ a ∈ s := by
  intro ks
  induction ks with
  | nil => intro s; simp
  | cons k ks ih =>
      intro s
      rw [List.foldl_cons, ih, mem_erase_iff, List.mem_cons]
      tauto

end Keys

-- ── The relation ────

variable {ν : Type} [Ord ν] [Std.TransOrd ν] [Std.LawfulEqOrd ν]

/-- `b` is in the set of `a`. -/
def Related (m : Std.ExtTreeMap κ (Std.ExtTreeSet ν compare) compare) (a : κ) (b : ν) : Prop :=
  ∃ bs, m[a]? = some bs ∧ b ∈ bs

variable {m : Std.ExtTreeMap κ (Std.ExtTreeSet ν compare) compare}

omit [DecidableEq κ] [Std.LawfulEqOrd κ] [Std.LawfulEqOrd ν] in
/-- Who has a set is a key. -/
theorem mem_of_related {a : κ} {b : ν} (h : Related m a b) : a ∈ m := by
  obtain ⟨bs, hbs, -⟩ := h
  exact mem_iff_exists.mpr ⟨bs, hbs⟩

omit [DecidableEq κ] [Std.LawfulEqOrd κ] [Std.LawfulEqOrd ν] in
/-- Reading a set, an absent one as empty. -/
theorem related_iff_getD {a : κ} {b : ν} : Related m a b ↔ b ∈ (m[a]?).getD ∅ := by
  unfold Related
  cases m[a]? with
  | none => exact iff_of_false (fun ⟨_, hbs, _⟩ => nomatch hbs) Std.ExtTreeSet.not_mem_empty
  | some bs =>
      refine ⟨?_, fun hb => ⟨bs, rfl, hb⟩⟩
      rintro ⟨cs, hcs, hb⟩
      exact Option.some.inj hcs ▸ hb

variable (m)

/-- One more member of the set of a key. -/
theorem related_modify (k : κ) (v : ν) (a : κ) (b : ν) :
    Related (m.modify k (·.insert v)) a b ↔ Related m a b ∨ (a = k ∧ b = v ∧ k ∈ m) := by
  unfold Related
  rw [getElem?_modify_eq]
  by_cases h : a = k
  · subst h
    rw [if_pos rfl]
    constructor
    · rintro ⟨bs, hbs, hb⟩
      obtain ⟨cs, hcs, rfl⟩ := Option.map_eq_some_iff.mp hbs
      rcases (mem_insert_iff cs v b).mp hb with rfl | hb
      · exact .inr ⟨rfl, rfl, mem_iff_exists.mpr ⟨cs, hcs⟩⟩
      · exact .inl ⟨cs, hcs, hb⟩
    · rintro (⟨cs, hcs, hb⟩ | ⟨-, rfl, hk⟩)
      · exact ⟨_, Option.map_eq_some_iff.mpr ⟨cs, hcs, rfl⟩, (mem_insert_iff cs v b).mpr (.inr hb)⟩
      · obtain ⟨cs, hcs⟩ := mem_iff_exists.mp hk
        exact ⟨_, Option.map_eq_some_iff.mpr ⟨cs, hcs, rfl⟩, (mem_insert_iff cs b b).mpr (.inl rfl)⟩
  · rw [if_neg h]
    exact (or_iff_left fun hk => h hk.1).symm

omit [Std.LawfulEqOrd ν] in
/-- The set of a key is replaced. -/
theorem related_insert (k : κ) (bs : Std.ExtTreeSet ν compare) (a : κ) (b : ν) :
    Related (m.insert k bs) a b ↔ if a = k then b ∈ bs else Related m a b := by
  unfold Related
  rw [getElem?_insert_eq]
  by_cases h : a = k
  · rw [if_pos h, if_pos h]
    refine ⟨?_, fun hb => ⟨bs, rfl, hb⟩⟩
    rintro ⟨cs, hcs, hb⟩
    exact Option.some.inj hcs ▸ hb
  · rw [if_neg h, if_neg h]

omit [Std.LawfulEqOrd ν] in
/-- A new key relates to nothing. -/
theorem related_insert_empty {k : κ} (hk : k ∉ m) (a : κ) (b : ν) :
    Related (m.insert k ∅) a b ↔ Related m a b := by
  rw [related_insert]
  by_cases h : a = k
  · rw [if_pos h]
    exact iff_of_false Std.ExtTreeSet.not_mem_empty fun hr => hk (h ▸ mem_of_related hr)
  · rw [if_neg h]

/-- Some more members of the set of a key, which may be new. -/
theorem related_insert_foldl (k : κ) (vs : List ν) (a : κ) (b : ν) :
    Related (m.insert k (vs.foldl (·.insert ·) ((m[k]?).getD ∅))) a b ↔
      Related m a b ∨ (a = k ∧ b ∈ vs) := by
  rw [related_insert]
  by_cases h : a = k
  · subst h
    rw [if_pos rfl, mem_foldl_insert, ← related_iff_getD, or_comm, and_iff_right rfl]
  · rw [if_neg h]
    exact (or_iff_left fun hk => h hk.1).symm

omit [Std.LawfulEqOrd ν] in
/-- A key that is gone relates to nothing. -/
theorem related_erase (k a : κ) (b : ν) : Related (m.erase k) a b ↔ a ≠ k ∧ Related m a b := by
  unfold Related
  rw [getElem?_erase_eq]
  by_cases h : a = k
  · rw [if_pos h]
    exact iff_of_false (fun ⟨_, hbs, _⟩ => nomatch hbs) fun hr => hr.1 h
  · rw [if_neg h]
    exact (and_iff_right h).symm

omit [DecidableEq κ] in
/-- A value that is gone from all sets. -/
theorem related_map_erase (k : ν) (a : κ) (b : ν) :
    Related (m.map fun _ bs => bs.erase k) a b ↔ b ≠ k ∧ Related m a b := by
  unfold Related
  rw [Std.ExtTreeMap.getElem?_map]
  constructor
  · rintro ⟨bs, hbs, hb⟩
    obtain ⟨cs, hcs, rfl⟩ := Option.map_eq_some_iff.mp hbs
    obtain ⟨hne, hmem⟩ := (mem_erase_iff cs k b).mp hb
    exact ⟨hne, cs, hcs, hmem⟩
  · rintro ⟨hne, cs, hcs, hmem⟩
    exact ⟨_, Option.map_eq_some_iff.mpr ⟨cs, hcs, rfl⟩, (mem_erase_iff cs k b).mpr ⟨hne, hmem⟩⟩

end CbclRelationMap
