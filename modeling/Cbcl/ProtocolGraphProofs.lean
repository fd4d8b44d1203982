import Cbcl.GraphSearchProofs
import Cbcl.ProtocolModel

/-!
# The graph checks of R5 are exact

The successor graph of a protocol has exactly the declared edges (`mem_successors_iff`) and
every edge ends in one of its vertices.  The two traversals of `protocol.rs` are the two
searches of the library at that graph, so

    checkAcyclicity   : empty exactly on an acyclic graph; what it reports are cycles
    checkReachability : exactly the steps that `begin` does not reach
-/

namespace CbclProtocolGraph

open Std CbclMessage CbclProtocol CbclTreeMap CbclGraphSearch

/-- The successor declaration of a step names another. -/
def Successor (p : CausalProtocol) (a b : String) : Prop :=
  ∃ step, p.steps[a]? = some step ∧ b ∈ step.successors.flatMap NodeRef.performatives

-- ── The graph ────

/-- The adjacency set of a vertex, empty outside the graph. -/
def adjacent (graph : BTreeMap String (BTreeSet String)) (a : String) : BTreeSet String :=
  (graph[a]?).getD ∅

/-- The successors of a vertex in key order. -/
def successors (graph : BTreeMap String (BTreeSet String)) (a : String) : List String :=
  (graph[a]?.map (·.toList)).getD []

theorem mem_successors {graph : BTreeMap String (BTreeSet String)} {a b : String} :
    b ∈ successors graph a ↔ b ∈ adjacent graph a := by
  unfold successors adjacent
  cases graph[a]? with
  | none => simp
  | some set => exact ExtTreeSet.mem_toList

/-- Record one edge. -/
def addEdge (graph : BTreeMap String (BTreeSet String)) (name s : String) :
    BTreeMap String (BTreeSet String) :=
  (graph.insert name (((graph[name]?).getD ∅).insert s)).insertIfNew s ∅

/-- Registering a vertex adds no edge. -/
theorem adjacent_insertIfNew (graph : BTreeMap String (BTreeSet String)) (name a : String) :
    adjacent (graph.insertIfNew name ∅) a = adjacent graph a := by
  unfold adjacent
  rw [ExtTreeMap.getElem?_insertIfNew]
  split
  · rename_i h
    have ha : name = a := LawfulEqCmp.eq_of_compare h.1
    rw [← ha, getElem?_neg _ _ h.2]
    rfl
  · rfl

theorem mem_adjacent_addEdge {graph : BTreeMap String (BTreeSet String)} {name s a b : String} :
    b ∈ adjacent (addEdge graph name s) a ↔ b ∈ adjacent graph a ∨ (a = name ∧ b = s) := by
  unfold addEdge
  rw [adjacent_insertIfNew]
  unfold adjacent
  rw [getElem?_insert_eq]
  by_cases h : a = name
  · rw [if_pos h, Option.getD_some, mem_insert_iff, h]
    simp [or_comm]
  · rw [if_neg h]
    simp [h]

theorem mem_addEdge {graph : BTreeMap String (BTreeSet String)} {name s a : String} :
    a ∈ addEdge graph name s ↔ a = s ∨ a = name ∨ a ∈ graph := by
  unfold addEdge
  rw [ExtTreeMap.mem_insertIfNew, ExtTreeMap.mem_insert, LawfulEqCmp.compare_eq_iff_eq,
    LawfulEqCmp.compare_eq_iff_eq, eq_comm, @eq_comm _ name]

/-- Record every edge of a step. -/
theorem addEdges_spec (name : String) : ∀ (ss : List String)
    (graph : BTreeMap String (BTreeSet String)),
    (∀ a b, b ∈ adjacent (ss.foldl (addEdge · name ·) graph) a
        ↔ b ∈ adjacent graph a ∨ (a = name ∧ b ∈ ss)) ∧
      ∀ a, (a ∈ graph ∨ a ∈ ss) → a ∈ ss.foldl (addEdge · name ·) graph := by
  intro ss
  induction ss with
  | nil => exact fun graph => ⟨fun a b => by simp, fun a h => h.elim id fun h => nomatch h⟩
  | cons s ss ih =>
      intro graph
      obtain ⟨hadj, hmem⟩ := ih (addEdge graph name s)
      rw [List.foldl_cons]
      constructor
      · intro a b
        rw [hadj, mem_adjacent_addEdge, List.mem_cons]
        tauto
      · intro a h
        refine hmem a ?_
        rw [List.mem_cons] at h
        rw [mem_addEdge]
        tauto

/-- Every step of a list of entries. -/
theorem addSteps_spec : ∀ (entries : List (String × StepDecl))
    (graph : BTreeMap String (BTreeSet String)),
    let built := entries.foldl (fun graph entry =>
      (entry.2.successors.flatMap NodeRef.performatives).foldl (addEdge · entry.1 ·)
        (graph.insertIfNew entry.1 ∅)) graph
    (∀ a b, b ∈ adjacent built a ↔ b ∈ adjacent graph a ∨
        ∃ step, (a, step) ∈ entries ∧ b ∈ step.successors.flatMap NodeRef.performatives) ∧
      ∀ b, (b ∈ graph ∨ ∃ entry ∈ entries,
        b ∈ entry.2.successors.flatMap NodeRef.performatives) → b ∈ built := by
  intro entries
  induction entries with
  | nil => exact fun graph => ⟨fun a b => by simp, fun b h => h.elim id fun ⟨_, h, _⟩ => nomatch h⟩
  | cons entry entries ih =>
      intro graph
      obtain ⟨name, decl⟩ := entry
      obtain ⟨hadj, hmem⟩ := ih ((decl.successors.flatMap NodeRef.performatives).foldl
        (addEdge · name ·) (graph.insertIfNew name ∅))
      obtain ⟨hadj1, hmem1⟩ := addEdges_spec name
        (decl.successors.flatMap NodeRef.performatives) (graph.insertIfNew name ∅)
      constructor
      · intro a b
        rw [List.foldl_cons, hadj, hadj1, adjacent_insertIfNew]
        constructor
        · rintro ((h | ⟨rfl, h⟩) | ⟨step, h, hb⟩)
          · exact Or.inl h
          · exact Or.inr ⟨decl, List.mem_cons_self, h⟩
          · exact Or.inr ⟨step, List.mem_cons_of_mem _ h, hb⟩
        · rintro (h | ⟨step, h, hb⟩)
          · exact Or.inl (Or.inl h)
          · rcases List.mem_cons.mp h with h | h
            · injection h with ha hs
              exact Or.inl (Or.inr ⟨ha, hs ▸ hb⟩)
            · exact Or.inr ⟨step, h, hb⟩
      · intro b h
        rw [List.foldl_cons]
        refine hmem b ?_
        rcases h with h | ⟨entry, he, hb⟩
        · exact Or.inl (hmem1 b (Or.inl (ExtTreeMap.mem_insertIfNew.mpr (Or.inr h))))
        · rcases List.mem_cons.mp he with rfl | he
          · exact Or.inl (hmem1 b (Or.inr hb))
          · exact Or.inr ⟨entry, he, hb⟩

section Graph

variable {p : CausalProtocol} {a b : String}

theorem successorGraph_eq : p.successorGraph = p.steps.toList.foldl (fun graph entry =>
    (entry.2.successors.flatMap NodeRef.performatives).foldl (addEdge · entry.1 ·)
      (graph.insertIfNew entry.1 ∅)) ∅ :=
  ExtTreeMap.foldl_eq_foldl_toList

/-- **The successor graph has the declared edges.** -/
theorem mem_successors_iff : b ∈ successors p.successorGraph a ↔ Successor p a b := by
  rw [mem_successors, successorGraph_eq, (addSteps_spec _ _).1]
  have hempty : b ∉ adjacent ∅ a := by simp [adjacent]
  constructor
  · rintro (h | ⟨step, h, hb⟩)
    · exact absurd h hempty
    · exact ⟨step, ExtTreeMap.mem_toList_iff_getElem?_eq_some.mp h, hb⟩
  · rintro ⟨step, h, hb⟩
    exact Or.inr ⟨step, ExtTreeMap.mem_toList_iff_getElem?_eq_some.mpr h, hb⟩

theorem edge_successors : Edge (successors p.successorGraph) = Successor p := by
  funext a b
  exact propext mem_successors_iff

/-- Every edge ends in a vertex. -/
theorem mem_keys_of_mem_successors (h : b ∈ successors p.successorGraph a) :
    b ∈ p.successorGraph.keys := by
  obtain ⟨step, hs, hb⟩ := mem_successors_iff.mp h
  rw [ExtTreeMap.mem_keys, successorGraph_eq]
  exact (addSteps_spec _ _).2 b
    (Or.inr ⟨(a, step), ExtTreeMap.mem_toList_iff_getElem?_eq_some.mpr hs, hb⟩)

theorem successors_of_notMem (h : a ∉ p.successorGraph.keys) :
    successors p.successorGraph a = [] := by
  rw [ExtTreeMap.mem_keys] at h
  unfold successors
  rw [getElem?_neg _ _ h]
  rfl

theorem card_keys_le : p.successorGraph.keys.toFinset.card ≤ p.successorGraph.size :=
  (List.toFinset_card_le _).trans ExtTreeMap.length_keys.le

end Graph

-- ── The colouring search ────

/-- A library search as the search of the model. -/
def render (s : Search String) : CycleSearch := ⟨s.color, s.path, s.cycles.map .cycle⟩

/-- Look at one neighbour, in the model's state. -/
def lookAt (graph : BTreeMap String (BTreeSet String)) (fuel : Nat) (s : CycleSearch)
    (next : String) : CycleSearch :=
  match s.color.getD next 0 with
  | 0 => dfsCycle graph fuel next s
  | 1 =>
      if next ∈ s.path then
        { s with violations := s.violations ++ [.cycle (s.path.drop (s.path.idxOf next))] }
      else s
  | _ => s

/-- A call of the model is a loop of looks between entering and leaving. -/
theorem dfsCycle_succ (graph : BTreeMap String (BTreeSet String)) (fuel : Nat) (node : String)
    (s : CycleSearch) : dfsCycle graph (fuel + 1) node s =
      let explored := (successors graph node).foldl (lookAt graph fuel)
        { s with color := s.color.insert node 1, path := s.path ++ [node] }
      { explored with path := explored.path.dropLast, color := explored.color.insert node 2 } :=
  rfl

/-- `dfsCycle` is the colouring search, its cycles told as violations. -/
theorem dfsCycle_eq (graph : BTreeMap String (BTreeSet String)) : ∀ (fuel : Nat) (node : String)
    (s : Search String),
    dfsCycle graph fuel node (render s) = render (visit (successors graph) fuel node s) := by
  intro fuel
  induction fuel with
  | zero => exact fun _ _ => rfl
  | succ fuel ih =>
      intro node s
      have hlook : ∀ (s : Search String) (next : String),
          lookAt graph fuel (render s) next = render (look (successors graph) fuel s next) := by
        intro s next
        unfold lookAt look
        show (match s.at next with
          | 0 => dfsCycle graph fuel next (render s)
          | 1 => _
          | _ => render s) = _
        match s.at next with
        | 0 => exact ih next s
        | 1 =>
            show (if next ∈ s.path then _ else _) = render (if next ∈ s.path then _ else _)
            by_cases hin : next ∈ s.path
            · rw [if_pos hin, if_pos hin]
              simp [render]
            · rw [if_neg hin, if_neg hin]
        | n + 2 => rfl
      have hloop : (successors graph node).foldl (lookAt graph fuel) (render (s.enter node))
          = render ((successors graph node).foldl (look (successors graph) fuel)
              (s.enter node)) :=
        List.foldl_hom render hlook
      rw [visit_succ, dfsCycle_succ]
      exact congrArg (fun explored : CycleSearch =>
        { explored with
          path := explored.path.dropLast, color := explored.color.insert node 2 }) hloop

/-- The acyclicity check is the search over all vertices. -/
theorem checkAcyclicity_eq (p : CausalProtocol) : p.checkAcyclicity
    = (search (successors p.successorGraph) (p.successorGraph.size + 1)
        p.successorGraph.keys).cycles.map .cycle := by
  have hstep : ∀ (s : Search String) (node : String),
      (if (render s).color.getD node 0 = 0 then
        dfsCycle p.successorGraph (p.successorGraph.size + 1) node (render s) else render s)
      = render (if s.color.getD node 0 = 0 then
          visit (successors p.successorGraph) (p.successorGraph.size + 1) node s else s) := by
    intro s node
    show (if s.color.getD node 0 = 0 then _ else _) = _
    by_cases hwhite : s.color.getD node 0 = 0
    · rw [if_pos hwhite, if_pos hwhite, dfsCycle_eq]
    · rw [if_neg hwhite, if_neg hwhite]
  exact congrArg CycleSearch.violations
    (@List.foldl_hom _ _ _ render _ _ p.successorGraph.keys ⟨∅, [], []⟩ hstep)

-- ── Reachability ────

/-- `visitFrom` floods the graph. -/
theorem visitFrom_eq (graph : BTreeMap String (BTreeSet String)) : ∀ (fuel : Nat)
    (queue : List String) (visited : BTreeSet String),
    visitFrom graph fuel queue visited = flood (successors graph) fuel queue visited
  | 0, _, _ => rfl
  | _ + 1, [], _ => rfl
  | fuel + 1, current :: queue, visited => by
      rw [visitFrom, flood]
      exact visitFrom_eq graph fuel _ _

/-- The check reports a step exactly when it is not `begin` and `begin` does not reach it. -/
theorem mem_checkReachability_iff {p : CausalProtocol} {v : ProtocolViolation} :
    v ∈ p.checkReachability ↔ ∃ name, v = .unreachable name ∧ name ∈ p.steps ∧
      name ≠ BEGIN_KEYWORD ∧ ¬ Relation.ReflTransGen (Successor p) BEGIN_KEYWORD name := by
  have hvisited : ∀ name, name ≠ BEGIN_KEYWORD →
      (name ∈ (if BEGIN_KEYWORD ∈ p.successorGraph then
          visitFrom p.successorGraph (p.successorGraph.size + 1) [BEGIN_KEYWORD]
            ((∅ : BTreeSet String).insert BEGIN_KEYWORD)
        else ∅)
        ↔ Relation.ReflTransGen (Successor p) BEGIN_KEYWORD name) := by
    intro name hname
    by_cases hbegin : BEGIN_KEYWORD ∈ p.successorGraph
    · rw [if_pos hbegin, visitFrom_eq, mem_flood_iff
        (fun x y hy => List.mem_toFinset.mpr (mem_keys_of_mem_successors hy))
        (List.mem_toFinset.mpr (ExtTreeMap.mem_keys.mpr hbegin))
        (card_keys_le.trans (Nat.le_succ _)), edge_successors]
    · -- without `begin` in the graph nothing follows it
      rw [if_neg hbegin]
      refine ⟨fun h => by simp at h, fun h => ?_⟩
      rcases Relation.ReflTransGen.cases_head h with h | ⟨y, hy, -⟩
      · exact absurd h.symm hname
      · rw [← edge_successors, Edge, successors_of_notMem (mt ExtTreeMap.mem_keys.mp hbegin)] at hy
        exact nomatch hy
  unfold CausalProtocol.checkReachability
  simp only [List.mem_map, List.mem_filter, decide_eq_true_eq, ExtTreeMap.mem_keys]
  constructor
  · rintro ⟨name, ⟨hin, hne, hnot⟩, rfl⟩
    exact ⟨name, rfl, hin, hne, mt (hvisited name hne).mpr hnot⟩
  · rintro ⟨name, rfl, hin, hne, hnot⟩
    exact ⟨name, ⟨hin, hne, mt (hvisited name hne).mp hnot⟩, rfl⟩

/-- **The graph checks are exact.**  No cycle is reported exactly on an acyclic successor
    graph; every reported cycle is one, its vertices in order; and a step is reported
    unreachable, once, exactly when `begin` does not reach it. -/
theorem graphChecks_exact (p : CausalProtocol) :
    (p.checkAcyclicity = [] ↔ Acyclic (Successor p)) ∧
    (∀ v ∈ p.checkAcyclicity, ∃ participants, v = .cycle participants ∧
      IsCycle (Successor p) participants) ∧
    (∀ v, v ∈ p.checkReachability ↔ ∃ name, v = .unreachable name ∧ name ∈ p.steps ∧
      name ≠ BEGIN_KEYWORD ∧ ¬ Relation.ReflTransGen (Successor p) BEGIN_KEYWORD name) ∧
    p.checkReachability.Nodup := by
  obtain ⟨hempty, hcycles⟩ := search_exact
    (fun x y hy => mem_keys_of_mem_successors (p := p) (a := x) hy)
    (fun x hx => successors_of_notMem hx) (card_keys_le.trans (Nat.le_succ p.successorGraph.size))
  rw [edge_successors] at hempty hcycles
  rw [checkAcyclicity_eq]
  refine ⟨?_, ?_, fun v => mem_checkReachability_iff, ?_⟩
  · rw [List.map_eq_nil_iff]
    exact hempty
  · intro v hv
    obtain ⟨participants, hin, rfl⟩ := List.mem_map.mp hv
    exact ⟨participants, rfl, hcycles participants hin⟩
  · refine List.Nodup.map ?_ ((nodup_keys p.steps).filter _)
    intro a b hab
    injection hab

/-- One back edge, and one step out of reach. -/
example : (⟨Std.ExtTreeMap.ofList
    [("begin", ⟨"begin", [], [.single "a"]⟩), ("a", ⟨"a", [.single "begin"], [.single "b"]⟩),
      ("b", ⟨"b", [.single "a"], [.single "a"]⟩), ("c", ⟨"c", [], []⟩)] compare⟩
    : CausalProtocol).verifyR5Protocol ["a", "b", "c"] = [.cycle ["a", "b"], .unreachable "c"] := by
  decide +kernel

end CbclProtocolGraph
