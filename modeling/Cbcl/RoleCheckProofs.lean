import Cbcl.ProtocolGraphProofs
import Cbcl.RoleModel

/-!
# The role check is exact

`r6_violations` (`r6.rs`) reports nothing exactly when the roles of a dialect are sound: annotations
name declared roles, every step is annotated, the alternatives of a choice have one sender, an
endpoint of a step is an endpoint of every predecessor, and every role is an endpoint of a step that
`begin` leads to.
-/

namespace CbclRoleCheck

open Std CbclMessage CbclProtocol CbclTreeMap CbclGraphSearch CbclProtocolGraph CbclRole

-- ── Soundness of roles ────

/-- The annotation a step inherits from its base name. -/
def inherited (d : Dialect) (name : String) : Option RoleAnnotation :=
  d.annotations[repeatBaseName name]?

/-- The performatives a list of references names. -/
def namesOf (refs : List NodeRef) : List String := refs.flatMap NodeRef.performatives

/-- A step of the protocol under some key. -/
def IsStep (cp : CausalProtocol) (step : StepDecl) : Prop := step ∈ cp.steps.values

/-- One performative comes before another, by either declaration. -/
def Precedes (cp : CausalProtocol) (a b : String) : Prop :=
  ∃ step, IsStep cp step ∧ (step.performative = a ∧ b ∈ namesOf step.successors ∨
    a ∈ namesOf step.predecessors ∧ step.performative = b)

/-- The annotated members of a choice have one sender. -/
def OneSender (d : Dialect) (members : List String) : Prop :=
  ∀ x ∈ members, ∀ y ∈ members, x ≠ BEGIN_KEYWORD → y ≠ BEGIN_KEYWORD →
    ∀ a b, inherited d x = some a → inherited d y = some b → a.from = b.from

/-- The roles of a protocol are sound. -/
structure RolesSound (d : Dialect) (cp : CausalProtocol) : Prop where
  declared : ∀ p ∈ d.performatives, ∀ ann, p.role = some ann →
    ∀ r ∈ endpoints ann, r ∈ d.roles.map (·.name)
  annotated : ∀ name ∈ cp.steps, name ≠ BEGIN_KEYWORD → ∃ ann, inherited d name = some ann
  any_coherent : ∀ step, IsStep cp step → ∀ set, NodeRef.any set ∈ step.predecessors ∨
    NodeRef.any set ∈ step.successors → OneSender d set.toList
  alternatives_coherent : ∀ step, IsStep cp step → 2 ≤ step.predecessors.length →
    OneSender d (namesOf step.predecessors)
  local_endpoints : ∀ step, IsStep cp step → step.performative ≠ BEGIN_KEYWORD →
    ∀ pred ∈ namesOf step.predecessors, pred ≠ BEGIN_KEYWORD →
      ∀ t p, inherited d step.performative = some t → inherited d pred = some p →
        ∀ r ∈ endpoints t, r ∈ endpoints p
  reachable : ∀ role ∈ d.roles, ∃ name, name ≠ BEGIN_KEYWORD ∧
    Relation.ReflTransGen (Precedes cp) BEGIN_KEYWORD name ∧
    ∃ ann, inherited d name = some ann ∧ role.name ∈ endpoints ann

-- ── Clauses ────

section Clauses

variable {d : Dialect} {cp : CausalProtocol}

theorem mem_endpoints {ann : RoleAnnotation} {r : String} :
    r ∈ endpoints ann ↔ r = ann.from ∨ r ∈ ann.to := by
  unfold endpoints
  exact mem_insert_iff ..

theorem undeclaredRoles_eq_nil_iff : undeclaredRoles d = [] ↔
    ∀ p ∈ d.performatives, ∀ ann, p.role = some ann →
      ∀ r ∈ endpoints ann, r ∈ d.roles.map (·.name) := by
  unfold undeclaredRoles
  rw [List.flatMap_eq_nil_iff]
  refine forall_congr' fun p => forall_congr' fun _ => ?_
  cases hrole : p.role with
  | none =>
      refine iff_of_true rfl fun ann h => ?_
      cases h
  | some ann =>
      dsimp only
      rw [List.map_eq_nil_iff, List.filter_eq_nil_iff]
      constructor
      · intro h a ha r hr
        cases ha
        have hmem : r ∈ ann.from :: ann.to.toList := by
          rw [List.mem_cons, ExtTreeSet.mem_toList]
          exact mem_endpoints.mp hr
        simpa using h r hmem
      · intro h r hr
        rw [List.mem_cons, ExtTreeSet.mem_toList] at hr
        simpa using h ann rfl r (mem_endpoints.mpr hr)

theorem missingAnnotations_eq_nil_iff : missingAnnotations d cp = [] ↔
    ∀ name ∈ cp.steps, name ≠ BEGIN_KEYWORD → ∃ ann, inherited d name = some ann := by
  unfold missingAnnotations
  rw [List.map_eq_nil_iff, List.filter_eq_nil_iff]
  constructor
  · intro h name hname hbegin
    have hnot := h name (ExtTreeMap.mem_keys.mpr hname)
    rw [decide_eq_true_eq, not_and_not_right] at hnot
    exact Option.isSome_iff_exists.mp (ExtTreeMap.mem_iff_isSome_getElem?.mp (hnot hbegin))
  · intro h name hname hbad
    obtain ⟨hbegin, hnot⟩ := of_decide_eq_true hbad
    obtain ⟨ann, hann⟩ := h name (ExtTreeMap.mem_keys.mp hname) hbegin
    refine hnot (ExtTreeMap.mem_iff_isSome_getElem?.mpr ?_)
    unfold inherited at hann
    rw [hann]
    rfl

/-- The members of a list of at most one are equal. -/
theorem eq_of_length_le_one {α : Type} {xs : List α} (h : xs.length ≤ 1) {x y : α} (hx : x ∈ xs)
    (hy : y ∈ xs) : x = y := by
  cases xs with
  | nil => exact absurd hx List.not_mem_nil
  | cons a rest =>
      have hrest : rest = [] := List.eq_nil_of_length_eq_zero (by simpa using h)
      rw [hrest, List.mem_singleton] at hx hy
      exact hx.trans hy.symm

/-- A set has at most one member exactly when its members are equal. -/
theorem size_le_one_iff {s : BTreeSet String} :
    s.size ≤ 1 ↔ ∀ x ∈ s, ∀ y ∈ s, x = y := by
  rw [← ExtTreeSet.length_toList]
  have hmem : ∀ x, x ∈ s ↔ x ∈ s.toList := fun x => ExtTreeSet.mem_toList.symm
  have hnodup := nodup_toList s
  simp only [hmem]
  generalize s.toList = xs at hnodup
  constructor
  · intro h x hx y hy
    exact eq_of_length_le_one h hx hy
  · intro h
    cases xs with
    | nil => exact Nat.zero_le _
    | cons a rest =>
        cases rest with
        | nil => exact Nat.le_refl _
        | cons b rest =>
            have hab := h a (List.mem_cons_self ..) b
              (List.mem_cons_of_mem _ (List.mem_cons_self ..))
            exact absurd (hab ▸ List.mem_cons_self ..) (List.nodup_cons.mp hnodup).1

/-- The senders of the annotated members of a choice. -/
def senders (d : Dialect) (named : List String) : BTreeSet String :=
  (named.filterMap fun m => (inherited d m).map (·.from)).foldl (fun s k => s.insert k) ∅

theorem mem_senders {named : List String} {x : String} :
    x ∈ senders d named ↔ ∃ m ∈ named, ∃ ann, inherited d m = some ann ∧ ann.from = x := by
  unfold senders
  rw [mem_foldl_insert, List.mem_filterMap]
  simp

theorem checkChoice_eq_nil_iff {members : List String} :
    checkChoice d members = [] ↔ OneSender d members := by
  have hnamed : ∀ x, x ∈ members.filter (· ≠ BEGIN_KEYWORD) ↔ x ∈ members ∧ x ≠ BEGIN_KEYWORD := by
    intro x
    rw [List.mem_filter, decide_eq_true_eq]
  have hsize : (senders d (members.filter (· ≠ BEGIN_KEYWORD))).size ≤ 1
      ↔ OneSender d members := by
    rw [size_le_one_iff]
    constructor
    · intro h x hx y hy hxb hyb a b ha hb
      exact h _ (mem_senders.mpr ⟨x, (hnamed x).mpr ⟨hx, hxb⟩, a, ha, rfl⟩)
        _ (mem_senders.mpr ⟨y, (hnamed y).mpr ⟨hy, hyb⟩, b, hb, rfl⟩)
    · intro h u hu v hv
      obtain ⟨x, hx, a, ha, rfl⟩ := mem_senders.mp hu
      obtain ⟨y, hy, b, hb, rfl⟩ := mem_senders.mp hv
      exact h x ((hnamed x).mp hx).1 y ((hnamed y).mp hy).1 ((hnamed x).mp hx).2
        ((hnamed y).mp hy).2 a b ha hb
  show (if (members.filter (· ≠ BEGIN_KEYWORD)).length < 2 then []
    else if (senders d (members.filter (· ≠ BEGIN_KEYWORD))).size > 1 then
      [R6Violation.chooserIncoherent (members.filter (· ≠ BEGIN_KEYWORD))] else []) = [] ↔ _
  by_cases hfew : (members.filter (· ≠ BEGIN_KEYWORD)).length < 2
  · rw [if_pos hfew]
    refine iff_of_true rfl fun x hx y hy hxb hyb a b ha hb => ?_
    have hxy : x = y := eq_of_length_le_one (Nat.lt_succ_iff.mp hfew)
      ((hnamed x).mpr ⟨hx, hxb⟩) ((hnamed y).mpr ⟨hy, hyb⟩)
    rw [hxy] at ha
    rw [Option.some.inj (ha.symm.trans hb)]
  · rw [if_neg hfew]
    by_cases hmany : (senders d (members.filter (· ≠ BEGIN_KEYWORD))).size > 1
    · rw [if_pos hmany]
      exact iff_of_false (List.cons_ne_nil _ _) fun h => absurd (hsize.mpr h) (Nat.not_le.mpr hmany)
    · rw [if_neg hmany]
      exact iff_of_true rfl (hsize.mp (Nat.not_lt.mp hmany))

theorem checkChoices_eq_nil_iff {step : StepDecl} : checkChoices d step = [] ↔
    (∀ set, NodeRef.any set ∈ step.predecessors ∨ NodeRef.any set ∈ step.successors →
      OneSender d set.toList) ∧
    (2 ≤ step.predecessors.length → OneSender d (namesOf step.predecessors)) := by
  unfold checkChoices
  rw [List.append_eq_nil_iff, List.flatMap_eq_nil_iff]
  refine and_congr ?_ ?_
  · constructor
    · intro h set hset
      exact checkChoice_eq_nil_iff.mp (h (.any set) (List.mem_append.mpr hset))
    · intro h nr hnr
      cases nr with
      | single s => rfl
      | all set => rfl
      | any set => exact checkChoice_eq_nil_iff.mpr (h set (List.mem_append.mp hnr))
  · by_cases hlen : step.predecessors.length ≥ 2
    · rw [if_pos hlen, checkChoice_eq_nil_iff]
      exact ⟨fun h _ => h, fun h => h hlen⟩
    · rw [if_neg hlen]
      exact iff_of_true rfl fun h => absurd h hlen

theorem checkLocality_eq_nil_iff {step : StepDecl} : checkLocality d step = [] ↔
    (step.performative ≠ BEGIN_KEYWORD → ∀ pred ∈ namesOf step.predecessors,
      pred ≠ BEGIN_KEYWORD → ∀ t p, inherited d step.performative = some t →
        inherited d pred = some p → ∀ r ∈ endpoints t, r ∈ endpoints p) := by
  unfold checkLocality
  by_cases hbegin : step.performative = BEGIN_KEYWORD
  · rw [if_pos hbegin]
    exact iff_of_true rfl fun h => absurd hbegin h
  rw [if_neg hbegin]
  cases ht : d.annotations[repeatBaseName step.performative]? with
  | none =>
      refine iff_of_true rfl fun _ pred _ _ t p h => ?_
      unfold inherited at h
      rw [ht] at h
      cases h
  | some t =>
      dsimp only
      rw [List.flatMap_eq_nil_iff]
      refine Iff.trans (b := ∀ pred ∈ namesOf step.predecessors, pred ≠ BEGIN_KEYWORD →
        ∀ p, inherited d pred = some p → ∀ r ∈ endpoints t, r ∈ endpoints p)
        (forall₂_congr fun pred _ => ?_) ⟨fun h _ pred hmem hb t' p ht' hp r hr => ?_,
          fun h pred hmem hb p hp => h hbegin pred hmem hb t p ht hp⟩
      · by_cases hb : pred = BEGIN_KEYWORD
        · rw [if_pos hb]
          exact iff_of_true rfl fun h => absurd hb h
        rw [if_neg hb]
        unfold inherited
        cases hp : d.annotations[repeatBaseName pred]? with
        | none =>
            refine iff_of_true rfl fun _ p h => ?_
            cases h
        | some p =>
            dsimp only
            rw [List.map_eq_nil_iff, List.filter_eq_nil_iff]
            constructor
            · intro h _ p' hp' r hr
              cases hp'
              simpa using h r (ExtTreeSet.mem_toList.mpr hr)
            · intro h r hr
              simpa using h hb p rfl r (ExtTreeSet.mem_toList.mp hr)
      · have htt : t = t' := Option.some.inj (ht.symm.trans ht')
        exact h pred hmem hb p hp r (htt ▸ hr)

end Clauses

-- ── Reachability ────

section Reach

variable {cp : CausalProtocol}

/-- Record a forward edge. -/
def record (adj : BTreeMap String (BTreeSet String)) (a b : String) :
    BTreeMap String (BTreeSet String) :=
  adj.insert a (((adj[a]?).getD ∅).insert b)

theorem mem_record {adj : BTreeMap String (BTreeSet String)} {a b x y : String} :
    y ∈ successors (record adj a b) x ↔ y ∈ successors adj x ∨ x = a ∧ y = b := by
  rw [mem_successors, mem_successors]
  unfold adjacent record
  rw [getElem?_insert_eq]
  by_cases hx : x = a
  · rw [if_pos hx, Option.getD_some, mem_insert_iff, hx]
    tauto
  · rw [if_neg hx]
    tauto

/-- Recording the edges of one step. -/
theorem mem_recordStep (step : StepDecl) (adj : BTreeMap String (BTreeSet String)) (x y : String) :
    y ∈ successors ((namesOf step.predecessors).foldl
        (fun adj pred => record adj pred step.performative)
        ((namesOf step.successors).foldl (fun adj succ => record adj step.performative succ) adj)) x
      ↔ y ∈ successors adj x ∨ step.performative = x ∧ y ∈ namesOf step.successors ∨
        x ∈ namesOf step.predecessors ∧ step.performative = y := by
  have hsucc : ∀ (names : List String) (adj : BTreeMap String (BTreeSet String)),
      y ∈ successors (names.foldl (fun adj succ => record adj step.performative succ) adj) x ↔
        y ∈ successors adj x ∨ step.performative = x ∧ y ∈ names := by
    intro names
    induction names with
    | nil => intro adj; simp
    | cons n names ih =>
        intro adj
        rw [List.foldl_cons, ih, mem_record, List.mem_cons]
        tauto
  have hpred : ∀ (names : List String) (adj : BTreeMap String (BTreeSet String)),
      y ∈ successors (names.foldl (fun adj pred => record adj pred step.performative) adj) x ↔
        y ∈ successors adj x ∨ x ∈ names ∧ step.performative = y := by
    intro names
    induction names with
    | nil => intro adj; simp
    | cons n names ih =>
        intro adj
        rw [List.foldl_cons, ih, mem_record, List.mem_cons]
        tauto
  rw [hpred, hsucc, or_assoc]

/-- The values of a map in key order. -/
theorem values_eq {κ ν : Type} [Ord κ] [TransOrd κ] (m : ExtTreeMap κ ν compare) :
    m.values = m.toList.map Prod.snd := by
  have hfold : m.values = m.foldr (fun _ v vs => v :: vs) [] := by
    obtain ⟨⟨q⟩⟩ := m
    induction q using Quotient.inductionOn with
    | _ q => rfl
  rw [hfold, ExtTreeMap.foldr_eq_foldr_toList]
  induction m.toList with
  | nil => rfl
  | cons e entries ih => rw [List.foldr_cons, ih, List.map_cons]

/-- The forward edges are the pairs of performatives declared in order. -/
theorem mem_forwardEdges {x y : String} :
    y ∈ successors (forwardEdges cp) x ↔ Precedes cp x y := by
  have hsteps : ∀ (entries : List (String × StepDecl)) (adj : BTreeMap String (BTreeSet String)),
      y ∈ successors (entries.foldl (fun adj e => (namesOf e.2.predecessors).foldl
          (fun adj pred => record adj pred e.2.performative)
          ((namesOf e.2.successors).foldl
            (fun adj succ => record adj e.2.performative succ) adj)) adj) x ↔
        y ∈ successors adj x ∨ ∃ step ∈ entries.map Prod.snd,
          step.performative = x ∧ y ∈ namesOf step.successors ∨
            x ∈ namesOf step.predecessors ∧ step.performative = y := by
    intro entries
    induction entries with
    | nil => intro adj; simp
    | cons e entries ih =>
        intro adj
        rw [List.foldl_cons, ih, mem_recordStep, List.map_cons, List.exists_mem_cons_iff, or_assoc]
  have hempty : y ∉ successors (∅ : BTreeMap String (BTreeSet String)) x := by
    unfold successors
    rw [ExtTreeMap.getElem?_empty]
    exact List.not_mem_nil
  unfold forwardEdges Precedes IsStep
  rw [ExtTreeMap.foldl_eq_foldl_toList, values_eq]
  exact (hsteps cp.steps.toList ∅).trans (or_iff_right hempty)

/-- Push a performative other than `begin` not reached before. -/
def relax (acc : List String × BTreeSet String) (succ : String) : List String × BTreeSet String :=
  if succ ≠ BEGIN_KEYWORD ∧ succ ∉ acc.2 then (succ :: acc.1, acc.2.insert succ) else acc

theorem insert_comm (s : BTreeSet String) (a b : String) :
    (s.insert a).insert b = (s.insert b).insert a := by
  refine ExtTreeSet.ext_mem fun x => ?_
  simp only [mem_insert_iff]
  tauto

/-- Relaxing an edge is pushing its end where `begin` counts as reached. -/
theorem push_relax (acc : List String × BTreeSet String) (succ : String) :
    push (acc.1, acc.2.insert BEGIN_KEYWORD) succ
      = ((relax acc succ).1, (relax acc succ).2.insert BEGIN_KEYWORD) := by
  have hmem : succ ∈ acc.2.insert BEGIN_KEYWORD ↔ ¬ (succ ≠ BEGIN_KEYWORD ∧ succ ∉ acc.2) := by
    rw [mem_insert_iff]
    tauto
  unfold push relax
  by_cases h : succ ≠ BEGIN_KEYWORD ∧ succ ∉ acc.2
  · rw [if_pos h, if_neg (fun hin => hmem.mp hin h), insert_comm]
  · rw [if_neg h, if_pos (hmem.mpr h)]

theorem relax_begin {acc : List String × BTreeSet String} (h : BEGIN_KEYWORD ∉ acc.2)
    (succ : String) : BEGIN_KEYWORD ∉ (relax acc succ).2 := by
  unfold relax
  split
  · rename_i hnew
    rw [mem_insert_iff, not_or]
    exact ⟨fun heq => hnew.1 heq.symm, h⟩
  · exact h

/-- The search of the check is the flood of its edges from `begin`, with `begin` left out. -/
theorem insert_reachFrom (adj : BTreeMap String (BTreeSet String)) :
    ∀ (fuel : Nat) (frontier : List String) (reached : BTreeSet String),
      BEGIN_KEYWORD ∉ reached →
      (reachFrom adj fuel frontier reached).insert BEGIN_KEYWORD
          = flood (successors adj) fuel frontier (reached.insert BEGIN_KEYWORD) ∧
        BEGIN_KEYWORD ∉ reachFrom adj fuel frontier reached := by
  have hloop : ∀ (names : List String) (acc : List String × BTreeSet String),
      BEGIN_KEYWORD ∉ acc.2 →
      names.foldl push (acc.1, acc.2.insert BEGIN_KEYWORD)
          = ((names.foldl relax acc).1, (names.foldl relax acc).2.insert BEGIN_KEYWORD) ∧
        BEGIN_KEYWORD ∉ (names.foldl relax acc).2 := by
    intro names
    induction names with
    | nil => exact fun acc h => ⟨rfl, h⟩
    | cons n names ih =>
        intro acc h
        rw [List.foldl_cons, List.foldl_cons, push_relax]
        exact ih (relax acc n) (relax_begin h n)
  intro fuel
  induction fuel with
  | zero => exact fun _ reached h => ⟨rfl, h⟩
  | succ fuel ih =>
      intro frontier reached h
      cases frontier with
      | nil => exact ⟨rfl, h⟩
      | cons name frontier =>
          obtain ⟨hpush, hbegin⟩ := hloop (successors adj name) (frontier, reached) h
          obtain ⟨hset, hout⟩ := ih ((successors adj name).foldl relax (frontier, reached)).1
            ((successors adj name).foldl relax (frontier, reached)).2 hbegin
          refine ⟨?_, hout⟩
          rw [flood, hpush]
          exact hset

/-- A performative is reached exactly when a path of declarations leads to it from `begin`. -/
theorem mem_reachableFromBegin {name : String} : name ∈ reachableFromBegin cp ↔
    name ≠ BEGIN_KEYWORD ∧ Relation.ReflTransGen (Precedes cp) BEGIN_KEYWORD name := by
  have hempty : BEGIN_KEYWORD ∉ (∅ : BTreeSet String) := ExtTreeSet.not_mem_empty
  obtain ⟨hset, hbegin⟩ := insert_reachFrom (forwardEdges cp)
    (((forwardEdges cp).values.map (·.size)).sum + 1) [BEGIN_KEYWORD] ∅ hempty
  have hedge : Edge (successors (forwardEdges cp)) = Precedes cp := by
    funext x y
    exact propext mem_forwardEdges
  have htarget : ∀ x, ∀ y ∈ successors (forwardEdges cp) x,
      y ∈ ((forwardEdges cp).values.flatMap (·.toList)).toFinset := by
    intro x y hy
    rw [mem_successors] at hy
    unfold adjacent at hy
    rw [List.mem_toFinset, List.mem_flatMap, values_eq]
    cases hx : (forwardEdges cp)[x]? with
    | none =>
        rw [hx] at hy
        exact absurd hy ExtTreeSet.not_mem_empty
    | some set =>
        rw [hx] at hy
        exact ⟨set, List.mem_map.mpr
          ⟨(x, set), ExtTreeMap.mem_toList_iff_getElem?_eq_some.mpr hx, rfl⟩,
          ExtTreeSet.mem_toList.mpr hy⟩
  have hfuel : (insert BEGIN_KEYWORD
      ((forwardEdges cp).values.flatMap (·.toList)).toFinset).card
      ≤ ((forwardEdges cp).values.map (·.size)).sum + 1 := by
    refine (Finset.card_insert_le _ _).trans (Nat.succ_le_succ ?_)
    refine (List.toFinset_card_le _).trans ?_
    rw [List.length_flatMap]
    simp only [ExtTreeSet.length_toList]
    exact Nat.le_refl _
  have hflood := mem_flood_iff
    (fun x y hy => Finset.mem_insert_of_mem (htarget x y hy))
    (Finset.mem_insert_self BEGIN_KEYWORD _) hfuel name
  rw [hedge] at hflood
  rw [← hflood, ← hset, mem_insert_iff]
  show name ∈ reachFrom (forwardEdges cp) _ _ _ ↔ _
  constructor
  · intro h
    exact ⟨fun heq => hbegin (heq ▸ h), Or.inr h⟩
  · rintro ⟨hne, h | h⟩
    · exact absurd h hne
    · exact h

end Reach

-- ── Exactness ────

variable {d : Dialect} {cp : CausalProtocol}

theorem unreachableRoles_eq_nil_iff : unreachableRoles d cp = [] ↔
    ∀ role ∈ d.roles, ∃ name, name ≠ BEGIN_KEYWORD ∧
      Relation.ReflTransGen (Precedes cp) BEGIN_KEYWORD name ∧
      ∃ ann, inherited d name = some ann ∧ role.name ∈ endpoints ann := by
  unfold unreachableRoles
  rw [List.map_eq_nil_iff, List.filter_eq_nil_iff]
  refine forall_congr' fun role => forall_congr' fun _ => ?_
  rw [Bool.not_eq_true, Bool.not_eq_false', List.any_eq_true]
  refine exists_congr fun name => ?_
  rw [ExtTreeSet.mem_toList, mem_reachableFromBegin, and_assoc]
  refine and_congr_right fun _ => and_congr_right fun _ => ?_
  unfold inherited
  rw [Option.any_eq_true]
  simp only [ExtTreeSet.contains_iff_mem]

/-- With roles, the check reports nothing exactly when the roles of the protocol are sound. -/
theorem r6Violations_eq_nil_of_roles {d : Dialect} (hroles : d.roles ≠ []) :
    r6Violations d = [] ↔ ∃ cp, d.causal_protocol = some cp ∧ RolesSound d cp := by
  unfold r6Violations
  rw [report_eq_nil_iff, if_neg hroles, List.append_eq_nil_iff, undeclaredRoles_eq_nil_iff]
  cases hcp : d.causal_protocol with
  | none =>
      dsimp only
      rw [List.map_eq_nil_iff]
      simp [hroles]
  | some cp =>
      dsimp only
      rw [List.append_eq_nil_iff, List.append_eq_nil_iff, List.append_eq_nil_iff,
        missingAnnotations_eq_nil_iff, unreachableRoles_eq_nil_iff, List.flatMap_eq_nil_iff,
        List.flatMap_eq_nil_iff]
      simp only [checkChoices_eq_nil_iff, checkLocality_eq_nil_iff]
      constructor
      · rintro ⟨hdeclared, ⟨⟨hann, hchoice⟩, hlocal⟩, hreach⟩
        exact ⟨cp, rfl, hdeclared, hann, fun step hstep => (hchoice step hstep).1,
          fun step hstep => (hchoice step hstep).2, hlocal, hreach⟩
      · rintro ⟨cp', hcp', h⟩
        cases hcp'
        exact ⟨h.declared, ⟨⟨h.annotated, fun step hstep => ⟨h.any_coherent step hstep,
          h.alternatives_coherent step hstep⟩⟩, h.local_endpoints⟩, h.reachable⟩

/-- **The role check is exact.**  It reports nothing exactly when a dialect without roles has no
    annotation, or the roles of its protocol are sound. -/
theorem r6Violations_eq_nil_iff (d : Dialect) : r6Violations d = [] ↔
    (d.roles = [] ∧ ∀ p ∈ d.performatives, p.role = none) ∨
      d.roles ≠ [] ∧ ∃ cp, d.causal_protocol = some cp ∧ RolesSound d cp := by
  by_cases hroles : d.roles = []
  · unfold r6Violations
    rw [report_eq_nil_iff, if_pos hroles, List.map_eq_nil_iff, List.filter_eq_nil_iff]
    simp [hroles]
  · rw [r6Violations_eq_nil_of_roles hroles]
    simp only [hroles, false_and, false_or, ne_eq, not_false_eq_true, true_and]

end CbclRoleCheck
