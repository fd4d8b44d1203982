import Cbcl.StateMeaningModel
import Cbcl.StateRenderProofs

/-!
# Selections and reductions of the fold

A list with distinct addresses *enumerates* a set of acts.  Each selection of the kernel turns
an enumeration into an enumeration of the subset it means, and each reduction of an
enumeration is the reduction of the set.  Ties, runs and first representatives never show:
addresses are distinct and a rendering stands for one field value.
-/

namespace CbclStateSelection

open CbclMessage CbclAct CbclState CbclStateMeaning CbclKeyedSort CbclStateRender CbclTreeMap
open scoped Classical

-- ── Enumerations ────

/-- A list with one act per address enumerates a set. -/
structure Enumerates (xs : List Act) (S : Finset Act) : Prop where
  mem : ∀ a, a ∈ xs ↔ a ∈ S
  nodup : (xs.map (·.address)).Nodup

variable {xs : List Act} {S : Finset Act}

theorem Enumerates.filter (h : Enumerates xs S) {p : Act → Bool} {T : Finset Act}
    (hT : ∀ a, a ∈ T ↔ a ∈ S ∧ p a = true) : Enumerates (xs.filter p) T := by
  refine ⟨fun a => ?_, h.nodup.sublist (List.filter_sublist.map _)⟩
  rw [List.mem_filter, hT, h.mem]

theorem Enumerates.nodup_self (h : Enumerates xs S) : xs.Nodup := h.nodup.of_map

theorem Enumerates.same (h : Enumerates xs S) {a b : Act} (ha : a ∈ xs) (hb : b ∈ xs)
    (hab : a.address = b.address) : a = b :=
  (List.nodup_map_iff_inj_on h.nodup_self).mp h.nodup a ha b hb hab

/-- One step of the deduplication. -/
def keepFirst (acc : BTreeSet String × List Act) (a : Act) : BTreeSet String × List Act :=
  if a.address ∈ acc.1 then acc else (acc.1.insert a.address, acc.2 ++ [a])

/-- **Deduplication**: every address is kept once, with an act of the list. -/
theorem dedupByAddress_spec (acts : List Act) :
    ((dedupByAddress acts).map (·.address)).Nodup ∧ (∀ a ∈ dedupByAddress acts, a ∈ acts) ∧
      ∀ a ∈ acts, ∃ b ∈ dedupByAddress acts, b.address = a.address := by
  have hfold : ∀ xs : List Act,
      let acc := xs.foldl keepFirst (∅, [])
      (∀ k, k ∈ acc.1 ↔ k ∈ acc.2.map (·.address)) ∧ (acc.2.map (·.address)).Nodup ∧
        (∀ a ∈ acc.2, a ∈ xs) ∧ ∀ a ∈ xs, ∃ b ∈ acc.2, b.address = a.address := by
    intro xs
    induction xs using List.reverseRecOn with
    | nil => exact ⟨by simp, List.nodup_nil, by simp, by simp⟩
    | append_singleton xs a ih =>
        rw [List.foldl_append, List.foldl_cons, List.foldl_nil]
        obtain ⟨hseen, hnodup, hsub, hall⟩ := ih
        generalize xs.foldl keepFirst (∅, []) = acc at hseen hnodup hsub hall ⊢
        unfold keepFirst
        by_cases ha : a.address ∈ acc.1
        · rw [if_pos ha]
          refine ⟨hseen, hnodup, fun b hb => List.mem_append_left _ (hsub b hb), fun b hb => ?_⟩
          rcases List.mem_append.mp hb with hb | hb
          · exact hall b hb
          · rw [List.mem_singleton.mp hb]
            exact List.mem_map.mp ((hseen _).mp ha)
        · rw [if_neg ha]
          refine ⟨fun k => ?_, ?_, fun b hb => ?_, fun b hb => ?_⟩
          · rw [mem_insert_iff, hseen]
            simp [or_comm, eq_comm]
          · rw [List.map_append]
            refine List.nodup_append.mpr ⟨hnodup, by simp, ?_⟩
            intro k hk k' hk' heq
            rw [List.map_singleton, List.mem_singleton] at hk'
            exact ha ((hseen _).mpr (by rw [← hk', ← heq]; exact hk))
          · rcases List.mem_append.mp hb with hb | hb
            · exact List.mem_append_left _ (hsub b hb)
            · exact List.mem_append_right _ hb
          · rcases List.mem_append.mp hb with hb | hb
            · obtain ⟨d, hd, hda⟩ := hall b hb
              exact ⟨d, List.mem_append_left _ hd, hda⟩
            · rw [List.mem_singleton.mp hb]
              exact ⟨a, List.mem_append_right _ (List.mem_singleton.mpr rfl), rfl⟩
  obtain ⟨-, hnodup, hsub, hall⟩ := hfold acts
  exact ⟨hnodup, hsub, hall⟩

/-- Equal addresses carry equal acts. -/
def Keyed (acts : List Act) : Prop :=
  ∀ a ∈ acts, ∀ b ∈ acts, a.address = b.address → a = b

/-- Deduplication enumerates the set of acts. -/
theorem enumerates_dedup {acts : List Act} (h : Keyed acts) :
    Enumerates (dedupByAddress acts) acts.toFinset := by
  obtain ⟨hnodup, hsub, hall⟩ := dedupByAddress_spec acts
  refine ⟨fun a => ?_, hnodup⟩
  rw [List.mem_toFinset]
  refine ⟨hsub a, fun ha => ?_⟩
  obtain ⟨b, hb, hba⟩ := hall a ha
  rw [← h b (hsub b hb) a ha hba]
  exact hb

-- ── Selections ────

theorem admits_iff (d : String × String × List Value) (verb : String) (a : Act) :
    admits d verb a = true ↔ (d.1 = verb → Allowed a d.2.1 d.2.2) := by
  unfold admits Allowed
  by_cases hv : d.1 = verb
  · rw [if_neg (not_not.mpr hv)]
    cases hf : fieldOf a d.2.1 with
    | none => simp [hv]
    | some v => simp [hv]
  · simp [hv]

/-- The acts of a verb. -/
theorem enumerates_acts (h : Enumerates xs S) (domains : Domains) (verb : String) :
    Enumerates ((Kernel.mk xs domains).acts verb) (selected domains S verb) := by
  unfold Kernel.acts
  rw [List.filter_filter]
  refine h.filter fun a => ?_
  unfold selected
  simp only [Finset.mem_filter, Bool.and_eq_true, List.all_eq_true, decide_eq_true_eq,
    admits_iff, and_comm]

/-- The writes of a list that no replacer of a list names in their scope. -/
theorem enumerates_unreplaced {ys : List Act} {R : Finset Act} (scope : Act → String)
    (h : Enumerates xs S) (hr : ∀ a, a ∈ ys ↔ a ∈ R) :
    Enumerates (xs.filter fun w => (scope w, w.address) ∉
      ys.flatMap fun r => (replacedBy r).map fun a => (scope r, a)) (unreplaced scope S R) := by
  refine h.filter fun w => ?_
  unfold unreplaced
  rw [Finset.mem_filter, decide_eq_true_eq]
  refine and_congr_right fun _ => not_congr ?_
  simp only [List.mem_flatMap, List.mem_map, Prod.mk.injEq]
  constructor
  · rintro ⟨r, hr', hscope, ha⟩
    exact ⟨r, (hr r).mpr hr', w.address, ha, hscope, rfl⟩
  · rintro ⟨r, hr', a, ha, hscope, rfl⟩
    exact ⟨r, (hr r).mp hr', hscope, ha⟩

/-- The current writes of a verb. -/
theorem enumerates_current (h : Enumerates xs S) (domains : Domains) (verb : String)
    (key delete : Option String) :
    Enumerates ((Kernel.mk xs domains).current verb key delete)
      (currentWrites domains S verb key delete) := by
  refine enumerates_unreplaced (keyOf key) (enumerates_acts h domains verb) fun a => ?_
  rw [List.mem_append, Finset.mem_union, (enumerates_acts h domains verb).mem]
  refine or_congr_right ?_
  cases delete with
  | none => simp
  | some d => exact (enumerates_acts h domains d).mem a

/-- The current writes of a verb by their own signer. -/
theorem enumerates_currentBySigner (h : Enumerates xs S) (domains : Domains) (verb : String) :
    Enumerates ((Kernel.mk xs domains).currentBySigner verb) (currentOwn domains S verb) :=
  enumerates_unreplaced (·.signer) (enumerates_acts h domains verb)
    (enumerates_acts h domains verb).mem

-- ── Sets and sums ────

/-- A field value comes from an S-expression. -/
theorem fieldOf_from {a : Act} {key : String} {v : Value} (h : fieldOf a key = some v) :
    ∃ x, v = Value.fromSExpr x := by
  obtain ⟨x, -, hx⟩ := Option.map_eq_some_iff.mp h
  exact ⟨x, hx.symm⟩

/-- Field values with one rendering are equal. -/
theorem fieldOf_injective {a b : Act} {key key' : String} {v w : Value}
    (hv : fieldOf a key = some v) (hw : fieldOf b key' = some w) (h : v.render = w.render) :
    v = w := by
  obtain ⟨x, rfl⟩ := fieldOf_from hv
  obtain ⟨y, rfl⟩ := fieldOf_from hw
  exact render_injective h

theorem mem_valuesIn {key : String} {v : Value} :
    v ∈ valuesIn S key ↔ ∃ a ∈ S, fieldOf a key = some v := by
  unfold valuesIn
  simp

/-- **Distinct values.** -/
theorem distinct_eq (h : Enumerates xs S) (key : String) :
    distinct xs key = setValue (valuesIn S key) := by
  unfold distinct sortedDistinct setValue
  rw [destutter_insertionSort (f := Value.render)]
  · refine congrArg (fun s => Value.set (sortBy Value.render s)) (Finset.ext fun v => ?_)
    rw [List.mem_toFinset, List.mem_filterMap, mem_valuesIn]
    simp only [h.mem]
  · intro v hv w hw hvw
    obtain ⟨a, -, ha⟩ := List.mem_filterMap.mp hv
    obtain ⟨b, -, hb⟩ := List.mem_filterMap.mp hw
    exact fieldOf_injective ha hb hvw

/-- **Sums.** -/
theorem sumOf_eq (h : Enumerates xs S) (key : String) :
    sumOf xs key = ∑ a ∈ S, amountOf key a := by
  have hsum : ∀ ys : List Act, (ys.filterMap fun a => (fieldOf a key).bind Value.asInt).sum
      = (ys.map (amountOf key)).sum := by
    intro ys
    induction ys with
    | nil => rfl
    | cons a ys ih =>
        rw [List.map_cons, List.sum_cons, List.filterMap_cons, ← ih]
        unfold amountOf
        cases (fieldOf a key).bind Value.asInt <;> simp
  unfold sumOf
  rw [hsum, ← List.sum_toFinset _ h.nodup_self]
  refine Finset.sum_congr (Finset.ext fun a => ?_) fun _ _ => rfl
  rw [List.mem_toFinset, h.mem]

theorem Enumerates.length (h : Enumerates xs S) : xs.length = S.card := by
  rw [← List.toFinset_card_of_nodup h.nodup_self]
  congr 1
  ext a
  rw [List.mem_toFinset, h.mem]

theorem Enumerates.isEmpty (h : Enumerates xs S) : (!xs.isEmpty) = decide S.Nonempty := by
  have hlen := h.length
  cases xs with
  | nil =>
      have hS : S = ∅ := Finset.card_eq_zero.mp hlen.symm
      simp [hS]
  | cons a xs =>
      have ha : a ∈ S := (h.mem a).mp (List.mem_cons_self ..)
      simp [Finset.Nonempty, Exists.intro a ha]

/-- **The only act.** -/
theorem initialOf_eq (h : Enumerates xs S) (key : String) : initialOf xs key = sole S key := by
  unfold sole
  have hlen := h.length
  match xs, h, hlen with
  | [], h, hlen =>
      rw [dif_neg]
      · rfl
      · rintro ⟨a, rfl⟩
        simp at hlen
  | [a], h, hlen =>
      have hS : S = {a} := by
        ext b
        rw [← h.mem, List.mem_singleton, Finset.mem_singleton]
      have hex : ∃ a, S = {a} := ⟨a, hS⟩
      rw [dif_pos hex]
      have hchoose : hex.choose = a := by
        exact (Finset.singleton_injective (hS.symm.trans hex.choose_spec)).symm
      rw [hchoose]
      rfl
  | a :: b :: rest, h, hlen =>
      rw [dif_neg]
      · rfl
      · rintro ⟨c, rfl⟩
        simp at hlen

-- ── Greatest clocks ────

/-- The pick of `maxBy` is a candidate with the greatest stamp. -/
theorem maxBy_spec (candidates : List (Stamp × Act)) :
    (candidates = [] ∧ maxBy candidates = none) ∨
      ∃ x ∈ candidates, maxBy candidates = some x ∧ ∀ y ∈ candidates, y.1 ≤ x.1 := by
  unfold maxBy
  induction candidates using List.reverseRecOn with
  | nil => exact Or.inl ⟨rfl, rfl⟩
  | append_singleton xs x ih =>
      rw [List.foldl_append, List.foldl_cons, List.foldl_nil]
      right
      rcases ih with ⟨rfl, hnone⟩ | ⟨b, hb, hbest, hmax⟩
      · exact ⟨x, List.mem_singleton.mpr rfl, by rw [hnone], fun y hy => by
          rw [List.mem_singleton.mp hy]⟩
      · rw [hbest]
        by_cases hle : b.1 ≤ x.1
        · refine ⟨x, List.mem_append_right _ (List.mem_singleton.mpr rfl), if_pos hle,
            fun y hy => ?_⟩
          rcases List.mem_append.mp hy with hy | hy
          · exact (hmax y hy).trans hle
          · rw [List.mem_singleton.mp hy]
        · refine ⟨b, List.mem_append_left _ hb, if_neg hle, fun y hy => ?_⟩
          rcases List.mem_append.mp hy with hy | hy
          · exact hmax y hy
          · rw [List.mem_singleton.mp hy]
            exact (not_le.mp hle).le

theorem stampOf_address {clock : String} {a : Act} {t : Stamp} (h : stampOf clock a = some t) :
    (ofLex (ofLex t).2).2 = a.address := by
  unfold stampOf at h
  split at h
  · obtain ⟨_, -, rfl⟩ := Option.map_eq_some_iff.mp h
    rfl
  · exact nomatch h

/-- At most one act is the latest: the stamp ends in the address. -/
theorem Latest.unique (hkeyed : ∀ a ∈ S, ∀ b ∈ S, a.address = b.address → a = b)
    {clock : String} {a b : Act} (ha : Latest S clock a) (hb : Latest S clock b) : a = b := by
  obtain ⟨haS, t, ht, hmax⟩ := ha
  obtain ⟨hbS, u, hu, hmax'⟩ := hb
  have htu : t = u := le_antisymm (hmax' a haS t ht) (hmax b hbS u hu)
  refine hkeyed a haS b hbS ?_
  rw [← stampOf_address ht, ← stampOf_address hu, htu]

/-- **Last writer wins.** -/
theorem pickLww_eq (h : Enumerates xs S) (key clock : String) :
    pickLww xs key clock = lww S key clock := by
  have hkeyed : ∀ a ∈ S, ∀ b ∈ S, a.address = b.address → a = b := fun a ha b hb hab =>
    h.same ((h.mem a).mpr ha) ((h.mem b).mpr hb) hab
  have hcand : ∀ t a, (t, a) ∈ xs.filterMap (fun a => (stampOf clock a).map (·, a)) ↔
      a ∈ S ∧ stampOf clock a = some t := by
    intro t a
    rw [List.mem_filterMap, ← h.mem]
    constructor
    · rintro ⟨b, hb, heq⟩
      obtain ⟨u, hu, heq⟩ := Option.map_eq_some_iff.mp heq
      injection heq with hut hba
      rw [← hut, ← hba]
      exact ⟨hb, hu⟩
    · rintro ⟨ha, ht⟩
      exact ⟨a, ha, by rw [ht]; rfl⟩
  unfold pickLww lww
  rcases maxBy_spec (xs.filterMap fun a => (stampOf clock a).map (·, a)) with
    ⟨hnil, hnone⟩ | ⟨⟨t, a⟩, hmem, hbest, hmax⟩
  · rw [hnone, dif_neg]
    rintro ⟨a, haS, t, ht, -⟩
    have := (hcand t a).mpr ⟨haS, ht⟩
    rw [hnil] at this
    exact nomatch this
  · have hlatest : Latest S clock a := by
      obtain ⟨haS, ht⟩ := (hcand t a).mp hmem
      exact ⟨haS, t, ht, fun b hb u hu => hmax (u, b) ((hcand u b).mpr ⟨hb, hu⟩)⟩
    have hex : ∃ a, Latest S clock a := ⟨a, hlatest⟩
    rw [hbest, dif_pos hex, Latest.unique hkeyed hex.choose_spec hlatest]

-- ── Groups ────

/-- A reduction of lists that is a reduction of the sets they enumerate. -/
def Reduces (g : List Act → Value) (G : Finset Act → Value) : Prop :=
  ∀ ys T, Enumerates ys T → g ys = G T

/-- **Maps by signer.** -/
theorem groupBySigner_eq (h : Enumerates xs S) {g : List Act → Value} {G : Finset Act → Value}
    (hg : Reduces g G) :
    (groupBySigner xs).toList.map (fun (s, t) => (Value.str s, g t))
      = ((S.image (·.signer)).sort (· ≤ ·)).map fun s =>
        (Value.str s, G (S.filter (·.signer = s))) := by
  have hlookup : ∀ s : String, (groupBySigner xs)[s]?
      = if xs.filter (·.signer = s) = [] then none else some (xs.filter (·.signer = s)) := by
    intro s
    have hget := getElem?_fileUnder (fun a : Act => some a.signer) xs s
    simp only [Option.some.injEq] at hget
    exact hget
  have hkeys : (groupBySigner xs).keys = (S.image (·.signer)).sort (· ≤ ·) := by
    refine keys_eq_sort _ _ fun s => ?_
    rw [hlookup, Finset.mem_image]
    constructor
    · rintro ⟨t, ht⟩
      split at ht
      · cases ht
      · rename_i hne
        obtain ⟨a, ha⟩ := List.exists_mem_of_ne_nil _ hne
        rw [List.mem_filter, h.mem] at ha
        exact ⟨a, ha.1, by simpa using ha.2⟩
    · rintro ⟨a, ha, rfl⟩
      have hmem : a ∈ xs.filter (·.signer = a.signer) :=
        List.mem_filter.mpr ⟨(h.mem a).mpr ha, by simp⟩
      exact ⟨_, if_neg (List.ne_nil_of_mem hmem)⟩
  rw [toList_eq _ [], hkeys, List.map_map]
  refine List.map_congr_left fun s _ => ?_
  have hgroup : ((groupBySigner xs)[s]?).getD [] = xs.filter (·.signer = s) := by
    rw [hlookup]
    split
    · rename_i hnil
      rw [hnil]
      rfl
    · rfl
  show (Value.str s, g (((groupBySigner xs)[s]?).getD [])) = _
  rw [hgroup]
  exact congrArg (Value.str s, ·) (hg _ _ (h.filter fun a => by simp))

/-- The rendering of a key field. -/
def keyText (key : String) (a : Act) : Option String := (fieldOf a key).map Value.render

/-- What a group of a key field holds: the acts of one rendering, under the first key. -/
theorem getElem?_addToGroup (key : String) (xs : List Act) (r : String) :
    (xs.foldl (addToGroup key) ∅)[r]? =
      match xs.filter (keyText key · = some r) with
      | [] => none
      | a :: rest => some ((fieldOf a key).getD .absent, a :: rest) := by
  induction xs using List.reverseRecOn with
  | nil => simp
  | append_singleton xs a ih =>
      rw [List.foldl_append, List.foldl_cons, List.foldl_nil, List.filter_append]
      generalize xs.foldl (addToGroup key) ∅ = out at ih ⊢
      unfold addToGroup
      cases hk : fieldOf a key with
      | none =>
          have hnone : [a].filter (keyText key · = some r) = [] := by simp [keyText, hk]
          rw [hnone, List.append_nil]
          exact ih
      | some k =>
          dsimp only
          rw [getElem?_insert_eq]
          by_cases hr : r = k.render
          · subst hr
            have hself : [a].filter (keyText key · = some k.render) = [a] := by
              simp [keyText, hk]
            rw [if_pos rfl, hself, ih]
            cases xs.filter (keyText key · = some k.render) with
            | nil => simp [hk]
            | cons b rest => simp
          · have hnone : [a].filter (keyText key · = some r) = [] := by
              simp [keyText, hk, Ne.symm hr]
            rw [if_neg hr, hnone, List.append_nil]
            exact ih

/-- The groups of a key field: its values, each with the acts that carry it. -/
theorem mem_groupByKey {key : String} {v : Value} {t : List Act} :
    (v, t) ∈ groupByKey xs key ↔
      (∃ a ∈ xs, fieldOf a key = some v) ∧ t = xs.filter (fieldOf · key = some v) := by
  -- within a list, having a rendering and having its value are the same
  have hfilter : ∀ {a : Act} {v : Value}, fieldOf a key = some v →
      xs.filter (keyText key · = some v.render) = xs.filter (fieldOf · key = some v) := by
    intro a v ha
    refine List.filter_congr fun b _ => ?_
    rw [decide_eq_decide]
    unfold keyText
    rw [Option.map_eq_some_iff]
    constructor
    · rintro ⟨w, hw, hwv⟩
      rw [hw, fieldOf_injective hw ha hwv]
    · exact fun hb => ⟨v, hb, rfl⟩
  unfold groupByKey
  rw [mem_valuesOf_iff]
  constructor
  · rintro ⟨r, hr⟩
    rw [getElem?_addToGroup] at hr
    cases hf : xs.filter (keyText key · = some r) with
    | nil => rw [hf] at hr; exact nomatch hr
    | cons a rest =>
        rw [hf] at hr
        injection hr with hr
        injection hr with hv ht
        obtain ⟨ha, har⟩ := List.mem_filter.mp (hf ▸ List.mem_cons_self .. : a ∈ xs.filter _)
        rw [decide_eq_true_eq] at har
        obtain ⟨w, hw, rfl⟩ := Option.map_eq_some_iff.mp har
        rw [hw] at hv
        subst hv
        exact ⟨⟨a, ha, hw⟩, by rw [← ht, ← hf, hfilter hw]; rfl⟩
  · rintro ⟨⟨a, ha, hv⟩, rfl⟩
    refine ⟨v.render, ?_⟩
    rw [getElem?_addToGroup, hfilter hv]
    cases hf : xs.filter (fieldOf · key = some v) with
    | nil =>
        have hmem : a ∈ xs.filter (fieldOf · key = some v) :=
          List.mem_filter.mpr ⟨ha, by simp [hv]⟩
        rw [hf] at hmem
        exact nomatch hmem
    | cons b rest =>
        obtain ⟨-, hb⟩ := List.mem_filter.mp (hf ▸ List.mem_cons_self .. : b ∈ xs.filter _)
        rw [decide_eq_true_eq] at hb
        simp [hb]

/-- The groups of a key field come sorted by rendering. -/
theorem strict_groupByKey (xs : List Act) (key : String) :
    Strict (fun e : Value × List Act => e.1.render) (groupByKey xs key) := by
  refine strict_valuesOf _ fun r e he => ?_
  rw [getElem?_addToGroup] at he
  cases hf : xs.filter (keyText key · = some r) with
  | nil => rw [hf] at he; exact nomatch he
  | cons a rest =>
      rw [hf] at he
      injection he with he
      obtain ⟨-, har⟩ := List.mem_filter.mp (hf ▸ List.mem_cons_self .. : a ∈ xs.filter _)
      rw [decide_eq_true_eq] at har
      obtain ⟨w, hw, rfl⟩ := Option.map_eq_some_iff.mp har
      rw [← he, hw]
      rfl

/-- **Maps by key.** -/
theorem groupByKey_eq (h : Enumerates xs S) (key : String) {g : List Act → Value}
    {G : Finset Act → Value} (hg : Reduces g G) :
    Value.map ((groupByKey xs key).map fun (v, t) => (v, g t))
      = mapValue (valuesIn S key) fun v => G (withKey S key v) := by
  have hkeys : (groupByKey xs key).map Prod.fst = sortBy Value.render (valuesIn S key) := by
    refine Strict.eq_sortBy ?_ fun v => ?_
    · exact List.pairwise_map.mpr (strict_groupByKey xs key)
    · rw [mem_valuesIn, List.mem_map]
      constructor
      · rintro ⟨⟨v', t⟩, he, rfl⟩
        obtain ⟨⟨a, ha, hv⟩, -⟩ := mem_groupByKey.mp he
        exact ⟨a, (h.mem a).mp ha, hv⟩
      · rintro ⟨a, ha, hv⟩
        exact ⟨(v, _), mem_groupByKey.mpr ⟨⟨a, (h.mem a).mpr ha, hv⟩, rfl⟩, rfl⟩
  unfold mapValue
  rw [← hkeys, List.map_map]
  refine congrArg Value.map (List.map_congr_left fun e he => ?_)
  obtain ⟨v, t⟩ := e
  obtain ⟨-, rfl⟩ := mem_groupByKey.mp he
  refine congrArg (v, ·) (hg _ _ (h.filter fun a => ?_))
  unfold withKey
  simp

/-- **Events by address.** -/
theorem events_eq (h : Enumerates xs S) (domains : Domains) (verb key : String) :
    Value.map ((Kernel.mk xs domains).events verb key)
      = eventsOf (selected domains S verb) key := by
  have hacts := enumerates_acts h domains verb
  generalize hys : (Kernel.mk xs domains).acts verb = ys at hacts
  generalize selected domains S verb = T at hacts
  unfold Kernel.events eventsOf
  rw [hys]
  -- both lists are strictly sorted by the rendered address, which determines the act
  have hinj : ∀ {a b : Act}, a ∈ ys → b ∈ ys →
      (Value.str a.address).render = (Value.str b.address).render → a = b :=
    fun ha hb hab => hacts.same ha hb (render_str_injective hab)
  refine congrArg Value.map (Strict.eq (f := fun e : Value × Value => e.1.render) ?_ ?_ ?_)
  · refine strict_insertionSort ?_
    rw [List.map_filterMap]
    have hsub : (ys.filterMap fun a => ((fieldOf a key).map fun v =>
        (Value.str a.address, Value.pair a.signer v)).map fun e => e.1.render).Sublist
          (ys.map fun a => (Value.str a.address).render) := by
      rw [← List.filterMap_eq_map]
      generalize ys = zs
      induction zs with
      | nil => exact List.Sublist.slnil
      | cons a zs ih =>
          rw [List.filterMap_cons, List.filterMap_cons]
          cases fieldOf a key with
          | none => exact ih.cons _
          | some v => exact ih.cons_cons _
    refine List.Nodup.sublist hsub ((List.nodup_map_iff_inj_on hacts.nodup_self).mpr ?_)
    exact fun a ha b hb => hinj ha hb
  · refine List.pairwise_map.mpr (strict_sortBy ?_)
    intro a ha b hb hab
    rw [Finset.mem_filter, ← hacts.mem] at ha hb
    exact hinj ha.1 hb.1 hab
  · intro e
    rw [List.mem_insertionSort, List.mem_filterMap, List.mem_map]
    constructor
    · rintro ⟨a, ha, he⟩
      obtain ⟨v, hv, rfl⟩ := Option.map_eq_some_iff.mp he
      refine ⟨a, mem_sortBy.mpr (Finset.mem_filter.mpr ⟨(hacts.mem a).mp ha, by rw [hv]; rfl⟩), ?_⟩
      rw [hv]
      rfl
    · rintro ⟨a, ha, rfl⟩
      obtain ⟨ha, hsome⟩ := Finset.mem_filter.mp (mem_sortBy.mp ha)
      obtain ⟨v, hv⟩ := Option.isSome_iff_exists.mp hsome
      exact ⟨a, (hacts.mem a).mpr ha, by rw [hv]; rfl⟩

-- ── Histograms ────

/-- What the counts hold under a rendering. -/
theorem getElem?_countValue (vs : List Value) (r : String) :
    (vs.foldl countValue ∅)[r]? =
      let held := vs.filter fun v => match v with
        | .absent => false
        | _ => true
      (held.find? (·.render = r)).map fun v => (v, (held.countP (·.render = r) : Int)) := by
  induction vs using List.reverseRecOn with
  | nil => simp
  | append_singleton vs v ih =>
      rw [List.foldl_append, List.foldl_cons, List.foldl_nil, List.filter_append]
      generalize vs.foldl countValue ∅ = counts at ih ⊢
      by_cases hv : v = .absent
      · subst hv
        simpa [countValue] using ih
      · have hheld : [v].filter (fun v => match v with
            | .absent => false
            | _ => true) = [v] := by
          cases v <;> first | exact absurd rfl hv | rfl
        have hstep : countValue counts v
            = counts.insert v.render (((counts[v.render]?).getD (v, 0)).1,
              ((counts[v.render]?).getD (v, 0)).2 + 1) := by
          cases v <;> first | exact absurd rfl hv | rfl
        rw [hheld, hstep, getElem?_insert_eq]
        dsimp only at ih ⊢
        rw [List.find?_append, List.countP_append]
        by_cases hr : r = v.render
        · subst hr
          rw [if_pos rfl, ih]
          cases hfind : (vs.filter fun v => match v with
              | .absent => false
              | _ => true).find? (·.render = v.render) with
          | none =>
              have hzero : (vs.filter fun v => match v with
                  | .absent => false
                  | _ => true).countP (·.render = v.render) = 0 :=
                List.countP_eq_zero.mpr fun w hw hwr => by
                  simpa using List.find?_eq_none.mp hfind w hw hwr
              simp [hzero]
          | some w => simp
        · rw [if_neg hr, ih]
          simp [Ne.symm hr]

/-- **Histograms.** -/
theorem histogramOf_eq (done : State) (field : String) :
    histogramOf done field = tally (entriesOf done field) := by
  unfold histogramOf tally
  generalize entriesOf done field = entries
  have hfold : entries.foldl (fun counts e => countValue counts (bare e.2)) ∅
      = (entries.map fun e => bare e.2).foldl countValue ∅ := by
    rw [List.foldl_map]
  rw [hfold]
  have hlookup := getElem?_countValue (entries.map fun e => bare e.2)
  generalize (entries.map fun e => bare e.2).foldl countValue ∅ = counts at hlookup
  have hheld : (entries.map fun e => bare e.2).filter (fun v => match v with
      | .absent => false
      | _ => true) = heldValues entries := rfl
  simp only [hheld] at hlookup
  have hkeys : counts.keys = ((heldValues entries).map Value.render).toFinset.sort (· ≤ ·) := by
    refine keys_eq_sort _ _ fun r => ?_
    rw [hlookup, List.mem_toFinset, List.mem_map]
    simp only [Option.map_eq_some_iff, List.find?_eq_some_iff_append]
    constructor
    · rintro ⟨_, v, ⟨hv, pre, post, hsplit, -⟩, -⟩
      exact ⟨v, by rw [hsplit]; simp, by simpa using hv⟩
    · rintro ⟨v, hv, rfl⟩
      have hsome : ((heldValues entries).find? (·.render = v.render)).isSome := by
        rw [List.find?_isSome]
        exact ⟨v, hv, by simp⟩
      obtain ⟨w, hw⟩ := Option.isSome_iff_exists.mp hsome
      exact ⟨_, w, List.find?_eq_some_iff_append.mp hw, rfl⟩
  refine congrArg Value.map ?_
  rw [valuesOf_map counts _ (.absent, .int 0), hkeys]
  refine List.map_congr_left fun r hr => ?_
  rw [← hkeys, mem_keys_iff] at hr
  obtain ⟨e, he⟩ := hr
  rw [he]
  rw [hlookup] at he
  obtain ⟨v, hv, rfl⟩ := Option.map_eq_some_iff.mp he
  rw [hv]
  rfl

end CbclStateSelection
