import Cbcl.RegistryProofs

/-!
# What the recursion check decides

`r1_violations` (`r1.rs`) searches the graph of template references for a way from each name back
to itself.  The search is exact for the graph it is given.  That graph is a map by name: of several
definitions of a name it has the references of the last one alone, so the check is exact for the
dialect unless only an earlier definition closes a cycle.
-/

namespace CbclRecursion

open CbclMessage CbclProtocol CbclDialect CbclRegistry CbclTreeMap
open CbclRole hiding Dialect PerformativeDef

-- ── The graph ────

/-- The definition of a name the graph keeps. -/
def lastDefinition (d : Dialect) (p : String) : Option PerformativeDef :=
  d.performatives.reverse.find? (·.name = p)

/-- A performative whose last template mentions a performative of the dialect. -/
def LastRefers (d : Dialect) (p q : String) : Prop :=
  ∃ definition, lastDefinition d p = some definition ∧ mentions q definition.template = true ∧
    d.definesPerformative q = true

/-- The graph files every name under the references of its last definition. -/
theorem dependencyGraph_eq (d : Dialect) (p : String) :
    (dependencyGraph d)[p]? = (lastDefinition d p).map fun definition =>
      (collectSymbolReferences definition.template ∅).filter
        fun name => d.definesPerformative name := by
  have hgen : ∀ definitions : List PerformativeDef,
      (definitions.foldl (fun (graph : BTreeMap String (BTreeSet String)) x => graph.insert x.name
        ((collectSymbolReferences x.template ∅).filter fun name => d.definesPerformative name))
          ∅)[p]?
      = (definitions.reverse.find? (·.name = p)).map fun definition =>
          (collectSymbolReferences definition.template ∅).filter
            fun name => d.definesPerformative name := by
    intro definitions
    induction definitions using List.reverseRecOn with
    | nil => exact Std.ExtTreeMap.getElem?_empty
    | append_singleton definitions x ih =>
        rw [List.foldl_append, List.foldl_cons, List.foldl_nil, getElem?_insert_eq,
          List.reverse_append, List.reverse_singleton, List.singleton_append]
        by_cases hp : p = x.name
        · rw [if_pos hp, List.find?_cons_of_pos (by simpa using hp.symm)]
          rfl
        · rw [if_neg hp, List.find?_cons_of_neg (by simpa using Ne.symm hp), ih]
  exact hgen d.performatives

theorem mem_dependencies_iff (d : Dialect) (p q : String) :
    q ∈ dependencies (dependencyGraph d) p ↔ LastRefers d p q := by
  unfold dependencies LastRefers
  rw [dependencyGraph_eq]
  cases lastDefinition d p with
  | none => exact ⟨(nomatch ·), fun ⟨_, h, _⟩ => nomatch h⟩
  | some definition =>
      rw [Option.map_some, Option.map_some, Option.getD_some, Std.ExtTreeSet.mem_toList,
        Std.ExtTreeSet.mem_filter]
      simp only [mem_collectSymbolReferences, Std.ExtTreeSet.not_mem_empty, false_or,
        Std.ExtTreeSet.get_eq, exists_prop, Option.some.injEq, exists_eq_left']

/-- The vertices of the graph are the defined names. -/
theorem mem_keys_iff_defines (d : Dialect) (q : String) :
    q ∈ (dependencyGraph d).keys ↔ d.definesPerformative q = true := by
  rw [mem_keys_iff, dependencyGraph_eq]
  unfold Dialect.definesPerformative
  rw [List.any_eq_true]
  constructor
  · rintro ⟨v, hv⟩
    obtain ⟨definition, hfind, -⟩ := Option.map_eq_some_iff.mp hv
    have hname := List.find?_some hfind
    exact ⟨definition, List.mem_reverse.mp (List.mem_of_find?_eq_some hfind), hname⟩
  · rintro ⟨definition, hmem, hname⟩
    have hsome : (lastDefinition d q).isSome = true :=
      List.find?_isSome.mpr ⟨definition, List.mem_reverse.mpr hmem, hname⟩
    obtain ⟨last, hlast⟩ := Option.isSome_iff_exists.mp hsome
    exact ⟨_, congrArg _ hlast⟩

-- ── The search ────

/-- What the search finds is a way back to the start. -/
theorem transGen_of_reachesCycle {graph : BTreeMap String (BTreeSet String)} {start : String} :
    ∀ (fuel : Nat) (current : String) (visiting : BTreeSet String),
      reachesCycle graph start fuel current visiting = true →
        Relation.TransGen (fun a b => b ∈ dependencies graph a) current start := by
  intro fuel
  induction fuel with
  | zero => exact fun _ _ h => nomatch h
  | succ fuel ih =>
      intro current visiting h
      rw [reachesCycle, List.any_eq_true] at h
      obtain ⟨dependency, hdep, h⟩ := h
      rw [Bool.or_eq_true, Bool.and_eq_true, decide_eq_true_eq] at h
      rcases h with rfl | ⟨-, hrest⟩
      · exact Relation.TransGen.single hdep
      · exact Relation.TransGen.head hdep (ih dependency _ hrest)

/-- **The search is exact**: a name is cyclic exactly if its last references lead back to it. -/
theorem mem_cyclicPerformatives_iff (d : Dialect) (p : String) :
    p ∈ cyclicPerformatives (dependencyGraph d) ↔ Relation.TransGen (LastRefers d) p p := by
  unfold cyclicPerformatives
  rw [List.mem_filter]
  have hedge : ∀ a b, LastRefers d a b →
      b ∈ dependencies (dependencyGraph d) a ∧ b ∈ (dependencyGraph d).keys := by
    intro a b h
    obtain ⟨_, -, -, hdefined⟩ := id h
    exact ⟨(mem_dependencies_iff d a b).mpr h, (mem_keys_iff_defines d b).mpr hdefined⟩
  constructor
  · rintro ⟨-, hfound⟩
    have hway := transGen_of_reachesCycle _ p ∅ hfound
    exact Relation.TransGen.mono (fun a b h => (mem_dependencies_iff d a b).mp h) _ _ hway
  · intro hcycle
    obtain ⟨_, -, hlast⟩ := Relation.TransGen.tail'_iff.mp hcycle
    refine ⟨(hedge _ _ hlast).2, reachesCycle_of_walk hedge p _ p ∅ ?_
      ((walk_of_transGen hcycle).mono fun x hx => absurd hx Std.ExtTreeSet.not_mem_empty)⟩
    refine lt_of_le_of_lt (List.length_filter_le ..) ?_
    rw [Std.ExtTreeMap.length_keys]
    exact Nat.lt_succ_self _

/-- The check passes exactly if the references of the last definitions have no cycle. -/
theorem r1Violations_eq_nil_iff {d : Dialect} (hname : d.name ≠ "cbcl-base") :
    r1Violations d = [] ↔ ∀ p, ¬ Relation.TransGen (LastRefers d) p p := by
  unfold r1Violations
  rw [if_neg hname, List.filter_eq_nil_iff]
  simp only [List.contains_iff_mem, mem_cyclicPerformatives_iff]
  constructor
  · intro hnone p hcycle
    obtain ⟨_, -, _, -, -, hdefined⟩ := Relation.TransGen.tail'_iff.mp hcycle
    obtain ⟨definition, hmem, hp⟩ := List.any_eq_true.mp hdefined
    exact hnone p (List.mem_map.mpr ⟨definition, hmem, of_decide_eq_true hp⟩) hcycle
  · exact fun hnone p _ => hnone p

-- ── Several definitions of a name ────

/-- The references of a last definition are references of the dialect. -/
theorem refers_of_last {d : Dialect} {p q : String} (h : LastRefers d p q) : Refers d p q := by
  obtain ⟨definition, hlast, hmentions, hdefined⟩ := h
  have hname := List.find?_some hlast
  exact ⟨definition, List.mem_reverse.mp (List.mem_of_find?_eq_some hlast),
    of_decide_eq_true hname, hmentions, hdefined⟩

/-- Where no name has two definitions, the last one is the one there is. -/
theorem lastRefers_iff {d : Dialect} (hnodup : d.performativeNames.Nodup) (p q : String) :
    LastRefers d p q ↔ Refers d p q := by
  refine ⟨refers_of_last, ?_⟩
  intro h
  rw [← mem_dependencies_iff]
  exact mem_dependencies_of_refers hnodup h

/-- **What the recursion check decides.**  It is exact for the references of all definitions
    exactly if a cycle of these is never one that the last definitions break. -/
theorem recursion_check_iff {d : Dialect} (hname : d.name ≠ "cbcl-base") :
    (r1Violations d = [] ↔ ∀ p, ¬ Relation.TransGen (Refers d) p p) ↔
      ((∃ p, Relation.TransGen (Refers d) p p) → ∃ p, Relation.TransGen (LastRefers d) p p) := by
  have hmono : ∀ p, Relation.TransGen (LastRefers d) p p → Relation.TransGen (Refers d) p p :=
    fun _ h => Relation.TransGen.mono (fun _ _ => refers_of_last) _ _ h
  rw [r1Violations_eq_nil_iff hname]
  constructor
  · rintro hexact ⟨p, hcycle⟩
    by_contra hnone
    exact hexact.mp (not_exists.mp hnone) p hcycle
  · intro hkept
    constructor
    · intro hlast p hcycle
      obtain ⟨q, hq⟩ := hkept ⟨p, hcycle⟩
      exact hlast q hq
    · exact fun hall p hp => hall p (hmono p hp)

/-- With names defined once the condition holds. -/
theorem recursion_kept_of_nodup {d : Dialect} (hnodup : d.performativeNames.Nodup)
    (h : ∃ p, Relation.TransGen (Refers d) p p) : ∃ p, Relation.TransGen (LastRefers d) p p :=
  h.imp fun _ hp =>
    Relation.TransGen.mono (fun a b => (lastRefers_iff hnodup a b).mpr) _ _ hp

/-- The check of a dialect whose second definition hides the recursion of its first. -/
theorem recursion_check_doubled :
    (r1Violations doubledDialect = [] ↔ ∀ p, ¬ Relation.TransGen (Refers doubledDialect) p p) ↔
      ((∃ p, Relation.TransGen (Refers doubledDialect) p p) →
        ∃ p, Relation.TransGen (LastRefers doubledDialect) p p) :=
  recursion_check_iff (by decide)

/-- The hidden recursion passes the check. -/
theorem recursion_missed :
    ¬ (r1Violations doubledDialect = [] ↔ ∀ p, ¬ Relation.TransGen (Refers doubledDialect) p p) := by
  intro hexact
  have hclean : r1Violations doubledDialect = [] := by decide +kernel
  have hself : Refers doubledDialect "echo" "echo" :=
    ⟨⟨"echo", [], .list [.atom (.symbol "echo")], none⟩, List.mem_cons_self, rfl, by decide,
      by decide⟩
  exact hexact.mp hclean "echo" (Relation.TransGen.single hself)

end CbclRecursion
