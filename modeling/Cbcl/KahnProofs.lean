import Cbcl.TreeMapProofs

/-!
# Kahn traversal

A traversal of a finite dependency graph: count the open dependencies of every node, visit
the least node that has none, release its dependents, repeat.  `traverse` threads a state
through a fallible visit.  The bookkeeping is characterised once (`Tracks`); a caller proves
only what one visit keeps (`traverse_ok`, `traverse_total`) and learns that the nodes were
visited in dependency order, each once, and that none whose dependencies were all visited is
left over.
-/

namespace CbclKahn

open CbclTreeMap

variable {κ : Type} [Ord κ] [Std.TransOrd κ] [Std.LawfulEqOrd κ] [DecidableEq κ]

/-- The bookkeeping: nodes ready to visit, open dependencies per node, dependents per node. -/
structure Kahn (κ : Type) [Ord κ] where
  ready : Std.ExtTreeSet κ compare
  remaining : Std.ExtTreeMap κ Nat compare
  waiting : Std.ExtTreeMap κ (List κ) compare

namespace Kahn

/-- File a node as a dependent of one dependency. -/
def await (a : κ) (waiting : Std.ExtTreeMap κ (List κ) compare) (parent : κ) :
    Std.ExtTreeMap κ (List κ) compare :=
  waiting.insert parent ((waiting[parent]?).getD [] ++ [a])

/-- Register a node with its dependencies. -/
def enter (deps : κ → Std.ExtTreeSet κ compare) (k : Kahn κ) (a : κ) : Kahn κ where
  ready := if (deps a).isEmpty then k.ready.insert a else k.ready
  remaining := k.remaining.insert a (deps a).size
  waiting := (deps a).foldl (await a) k.waiting

/-- The bookkeeping of some nodes before any visit. -/
def start (deps : κ → Std.ExtTreeSet κ compare) (nodes : List κ) : Kahn κ :=
  nodes.foldl (enter deps) ⟨∅, ∅, ∅⟩

/-- Take one open dependency off a node. -/
def release (k : Kahn κ) (child : κ) : Kahn κ :=
  let count := (k.remaining[child]?).getD 0 - 1
  { k with
    remaining := k.remaining.insert child count
    ready := if count = 0 then k.ready.insert child else k.ready }

/-- Retire a visited node and release its dependents. -/
def complete (k : Kahn κ) (a : κ) : Kahn κ :=
  ((k.waiting[a]?).getD []).foldl release
    { k with ready := k.ready.erase a, waiting := k.waiting.erase a }

end Kahn

/-- Visit ready nodes, least first, while there are any. -/
def traverse {σ ε : Type} (visit : κ → σ → Except ε σ) : Nat → Kahn κ → σ → Except ε σ
  | 0, _, s => .ok s
  | fuel + 1, k, s =>
      match k.ready.toList.head? with
      | none => .ok s
      | some a =>
          match visit a s with
          | .error e => .error e
          | .ok s' => traverse visit fuel (k.complete a) s'

-- ── What the bookkeeping means ────

/-- The open dependencies of a node. -/
def openDeps (deps : κ → Std.ExtTreeSet κ compare) (visited : List κ) (a : κ) : List κ :=
  (deps a).toList.filter (· ∉ visited)

/-- The bookkeeping matches the visited nodes. -/
structure Tracks (nodes : List κ) (deps : κ → Std.ExtTreeSet κ compare) (visited : List κ)
    (k : Kahn κ) : Prop where
  ready : ∀ a, a ∈ k.ready ↔ a ∈ nodes ∧ a ∉ visited ∧ ∀ d ∈ deps a, d ∈ visited
  remaining : ∀ a ∈ nodes, k.remaining[a]? = some (openDeps deps visited a).length
  closed : ∀ a ∈ visited, ∀ d ∈ deps a, d ∈ visited
  waiting_nodup : ∀ p : κ, ((k.waiting[p]?).getD []).Nodup
  waiting : ∀ p ∉ visited, ∀ a, a ∈ (k.waiting[p]?).getD [] ↔ a ∈ nodes ∧ p ∈ deps a

theorem openDeps_nil (deps : κ → Std.ExtTreeSet κ compare) (a : κ) :
    (openDeps deps [] a).length = (deps a).size := by
  rw [openDeps, List.filter_eq_self.mpr (by simp), Std.ExtTreeSet.length_toList]

theorem openDeps_eq_nil_iff {deps : κ → Std.ExtTreeSet κ compare} {visited : List κ} {a : κ} :
    (openDeps deps visited a).length = 0 ↔ ∀ d ∈ deps a, d ∈ visited := by
  rw [List.length_eq_zero_iff, openDeps, List.filter_eq_nil_iff]
  constructor
  · intro h d hd
    have hd' := h d (Std.ExtTreeSet.mem_toList.mpr hd)
    simpa using hd'
  · intro h d hd
    simpa using h d (Std.ExtTreeSet.mem_toList.mp hd)

/-- Visiting a node closes one dependency of its dependents, and none of the others. -/
theorem openDeps_visit (deps : κ → Std.ExtTreeSet κ compare) {visited : List κ} {a : κ}
    (ha : a ∉ visited) (c : κ) :
    (openDeps deps (visited ++ [a]) c).length =
      if a ∈ deps c then (openDeps deps visited c).length - 1
      else (openDeps deps visited c).length := by
  have hfilter : openDeps deps (visited ++ [a]) c
      = (openDeps deps visited c).filter (· ≠ a) := by
    unfold openDeps
    rw [List.filter_filter]
    refine List.filter_congr fun d _ => ?_
    by_cases hd : d = a <;> simp [hd]
  have hnodup : (openDeps deps visited c).Nodup := (nodup_toList (deps c)).filter _
  rw [hfilter]
  by_cases hin : a ∈ deps c
  · rw [if_pos hin]
    have hmem : a ∈ openDeps deps visited c :=
      List.mem_filter.mpr ⟨Std.ExtTreeSet.mem_toList.mpr hin, by simpa using ha⟩
    rw [← List.length_erase_of_mem hmem, hnodup.erase_eq_filter]
    congr 1
    exact List.filter_congr fun d _ => by by_cases hd : d = a <;> simp [hd]
  · rw [if_neg hin, List.filter_eq_self.mpr]
    intro d hd
    have hd' := Std.ExtTreeSet.mem_toList.mp (List.mem_filter.mp hd).1
    have hne : d ≠ a := by
      rintro rfl
      exact hin hd'
    simpa using hne

-- ── Registration ────

/-- Filing under a list of distinct dependencies. -/
theorem getElem?_await (a : κ) (parents : List κ) (hnodup : parents.Nodup) :
    ∀ (waiting : Std.ExtTreeMap κ (List κ) compare) (p : κ),
      ((parents.foldl (Kahn.await a) waiting)[p]?).getD []
        = (waiting[p]?).getD [] ++ if p ∈ parents then [a] else [] := by
  induction parents with
  | nil => intro waiting p; simp
  | cons q rest ih =>
      intro waiting p
      rw [List.nodup_cons] at hnodup
      rw [List.foldl_cons, ih hnodup.2, Kahn.await, getElem?_insert_eq]
      by_cases hp : p = q
      · subst hp
        rw [if_pos rfl, if_neg hnodup.1, if_pos (List.mem_cons_self ..)]
        simp
      · rw [if_neg hp]
        simp [hp]

theorem Tracks.enter {nodes : List κ} {deps : κ → Std.ExtTreeSet κ compare} {k : Kahn κ}
    (h : Tracks nodes deps [] k) {a : κ} (ha : a ∉ nodes) :
    Tracks (nodes ++ [a]) deps [] (k.enter deps a) := by
  have hwait : ∀ p, (((k.enter deps a).waiting[p]?).getD [])
      = (k.waiting[p]?).getD [] ++ if p ∈ deps a then [a] else [] := by
    intro p
    show (((deps a).foldl (Kahn.await a) k.waiting)[p]?).getD [] = _
    rw [Std.ExtTreeSet.foldl_eq_foldl_toList, getElem?_await a _ (nodup_toList _)]
    simp only [Std.ExtTreeSet.mem_toList]
  refine ⟨fun c => ?_, fun c hc => ?_, (fun c hc => nomatch hc), fun p => ?_, fun p hp c => ?_⟩
  · show c ∈ (if (deps a).isEmpty then k.ready.insert a else k.ready) ↔ _
    have hempty : (deps a).isEmpty = true ↔ ∀ d ∈ deps a, d ∈ ([] : List κ) := by
      rw [← openDeps_eq_nil_iff, openDeps_nil, Std.ExtTreeSet.isEmpty_eq_size_beq_zero,
        beq_iff_eq]
    rw [List.mem_append, List.mem_singleton]
    by_cases hca : c = a
    · subst hca
      by_cases he : (deps c).isEmpty
      · rw [if_pos he, mem_insert_iff]
        exact iff_of_true (Or.inl rfl) ⟨Or.inr rfl, by simp, hempty.mp he⟩
      · rw [if_neg he, h.ready]
        exact iff_of_false (fun hc => ha hc.1) (fun hc => he (hempty.mpr hc.2.2))
    · have hsame : c ∈ (if (deps a).isEmpty then k.ready.insert a else k.ready) ↔ c ∈ k.ready := by
        by_cases he : (deps a).isEmpty
        · rw [if_pos he, mem_insert_iff]
          exact ⟨fun hor => hor.resolve_left hca, Or.inr⟩
        · rw [if_neg he]
      rw [hsame, h.ready]
      simp [hca]
  · show (k.remaining.insert a (deps a).size)[c]? = _
    rw [getElem?_insert_eq]
    by_cases hca : c = a
    · rw [if_pos hca, hca, openDeps_nil]
    · rw [if_neg hca]
      exact h.remaining c ((List.mem_append.mp hc).resolve_right (by simpa using hca))
  · rw [hwait]
    have hfresh : a ∉ (k.waiting[p]?).getD [] := by
      intro hin
      exact ha ((h.waiting p (by simp) a).mp hin).1
    split
    · rw [List.nodup_append]
      refine ⟨h.waiting_nodup p, List.nodup_singleton a, ?_⟩
      intro x hx y hy hxy
      rw [hxy, List.mem_singleton.mp hy] at hx
      exact hfresh hx
    · rw [List.append_nil]
      exact h.waiting_nodup p
  · rw [hwait, List.mem_append, h.waiting p hp c, List.mem_append, List.mem_singleton]
    by_cases hin : p ∈ deps a
    · rw [if_pos hin, List.mem_singleton]
      constructor
      · rintro (⟨hc, hd⟩ | rfl)
        · exact ⟨Or.inl hc, hd⟩
        · exact ⟨Or.inr rfl, hin⟩
      · rintro ⟨hc | hc, hd⟩
        · exact Or.inl ⟨hc, hd⟩
        · exact Or.inr hc
    · rw [if_neg hin]
      constructor
      · rintro (⟨hc, hd⟩ | hc)
        · exact ⟨Or.inl hc, hd⟩
        · exact nomatch hc
      · rintro ⟨hc | rfl, hd⟩
        · exact Or.inl ⟨hc, hd⟩
        · exact absurd hd hin

/-- Registering distinct nodes tracks them. -/
theorem tracks_start (deps : κ → Std.ExtTreeSet κ compare) (nodes : List κ)
    (hnodup : nodes.Nodup) : Tracks nodes deps [] (Kahn.start deps nodes) := by
  induction nodes using List.reverseRecOn with
  | nil =>
      refine ⟨fun a => ?_, (fun a ha => nomatch ha), (fun a ha => nomatch ha), fun p => ?_,
        fun p _ a => ?_⟩
      · exact iff_of_false Std.ExtTreeSet.not_mem_empty (fun h => nomatch h.1)
      · simp [Kahn.start]
      · simp [Kahn.start]
  | append_singleton nodes a ih =>
      rw [List.nodup_append] at hnodup
      have hfresh : a ∉ nodes := fun hin => hnodup.2.2 a hin a (List.mem_singleton_self a) rfl
      have hstart : Kahn.start deps (nodes ++ [a]) = (Kahn.start deps nodes).enter deps a := by
        unfold Kahn.start
        rw [List.foldl_append]
        rfl
      rw [hstart]
      exact (ih hnodup.1).enter hfresh

-- ── One visit ────

/-- Releasing distinct dependents takes one off each count; a count of zero makes ready. -/
theorem foldl_release (children : List κ) (hnodup : children.Nodup) : ∀ k : Kahn κ,
    (∀ c, (children.foldl Kahn.release k).remaining[c]?
      = if c ∈ children then some ((k.remaining[c]?).getD 0 - 1) else k.remaining[c]?) ∧
    (∀ c, c ∈ (children.foldl Kahn.release k).ready ↔
      c ∈ k.ready ∨ c ∈ children ∧ (k.remaining[c]?).getD 0 - 1 = 0) ∧
    (children.foldl Kahn.release k).waiting = k.waiting := by
  induction children with
  | nil => intro k; simp
  | cons b rest ih =>
      intro k
      rw [List.nodup_cons] at hnodup
      obtain ⟨hrem, hready, hwait⟩ := ih hnodup.2 (k.release b)
      rw [List.foldl_cons]
      have hone : ∀ c, (k.release b).remaining[c]?
          = if c = b then some ((k.remaining[b]?).getD 0 - 1) else k.remaining[c]? :=
        fun c => getElem?_insert_eq _ _ _ _
      refine ⟨fun c => ?_, fun c => ?_, hwait⟩
      · rw [hrem, hone]
        by_cases hcb : c = b
        · subst hcb
          rw [if_neg hnodup.1, if_pos rfl, if_pos (List.mem_cons_self ..)]
        · rw [if_neg hcb]
          simp [hcb]
      · rw [hready, hone]
        have hfirst : c ∈ (k.release b).ready ↔
            c ∈ k.ready ∨ c = b ∧ (k.remaining[b]?).getD 0 - 1 = 0 := by
          show c ∈ (if (k.remaining[b]?).getD 0 - 1 = 0 then k.ready.insert b else k.ready) ↔ _
          by_cases hz : (k.remaining[b]?).getD 0 - 1 = 0
          · rw [if_pos hz, mem_insert_iff, or_comm]
            simp [hz]
          · rw [if_neg hz]
            simp [hz]
        rw [hfirst]
        by_cases hcb : c = b
        · subst hcb
          simp [hnodup.1]
        · simp [hcb]

/-- **Retiring a ready node keeps the bookkeeping in step.** -/
theorem Tracks.complete {nodes : List κ} {deps : κ → Std.ExtTreeSet κ compare}
    {visited : List κ} {k : Kahn κ} (h : Tracks nodes deps visited k) {a : κ}
    (ha : a ∈ k.ready) : Tracks nodes deps (visited ++ [a]) (k.complete a) := by
  obtain ⟨hnode, hfresh, hdeps⟩ := (h.ready a).mp ha
  have hself : a ∉ deps a := fun hin => hfresh (hdeps a hin)
  obtain ⟨hrem, hready, hwait⟩ := foldl_release ((k.waiting[a]?).getD []) (h.waiting_nodup a)
    { k with ready := k.ready.erase a, waiting := k.waiting.erase a }
  have hchild : ∀ c, c ∈ (k.waiting[a]?).getD [] ↔ c ∈ nodes ∧ a ∈ deps c :=
    h.waiting a hfresh
  refine ⟨fun c => ?_, fun c hc => ?_, fun c hc d hd => ?_, fun p => ?_, fun p hp c => ?_⟩
  · refine (hready c).trans ?_
    rw [mem_erase_iff, h.ready, hchild, List.mem_append, List.mem_singleton]
    have hclosed : (∀ d ∈ deps c, d ∈ visited ++ [a]) ↔
        (openDeps deps (visited ++ [a]) c).length = 0 := openDeps_eq_nil_iff.symm
    rw [hclosed, openDeps_visit deps hfresh c]
    by_cases hcn : c ∈ nodes
    · rw [show (k.remaining[c]?).getD 0 = (openDeps deps visited c).length by
        rw [h.remaining c hcn]; rfl]
      by_cases hin : a ∈ deps c
      · rw [if_pos hin]
        -- a dependent of `a` was not ready before and is not visited yet
        have hopen : ¬ ∀ d ∈ deps c, d ∈ visited := fun hall => hfresh (hall a hin)
        have hnew : c ∉ visited := fun hv => hfresh (h.closed c hv a hin)
        have hne : c ≠ a := by
          rintro rfl
          exact hself hin
        simp [hcn, hin, hopen, hnew, hne]
      · rw [if_neg hin, openDeps_eq_nil_iff]
        simp only [hcn, hin, and_false, false_and, or_false, true_and, not_or]
        tauto
    · simp [hcn]
  · refine (hrem c).trans ?_
    rw [openDeps_visit deps hfresh c]
    by_cases hin : a ∈ deps c
    · rw [if_pos hin, if_pos ((hchild c).mpr ⟨hc, hin⟩), h.remaining c hc]
      rfl
    · rw [if_neg hin, if_neg fun hm => hin ((hchild c).mp hm).2]
      exact h.remaining c hc
  · rw [List.mem_append, List.mem_singleton] at hc ⊢
    rcases hc with hc | rfl
    · exact Or.inl (h.closed c hc d hd)
    · exact Or.inl (hdeps d hd)
  · rw [show (k.complete a).waiting = k.waiting.erase a from hwait, getElem?_erase_eq]
    split
    · exact List.nodup_nil
    · exact h.waiting_nodup p
  · rw [List.mem_append, List.mem_singleton, not_or] at hp
    rw [show (k.complete a).waiting = k.waiting.erase a from hwait, getElem?_erase_eq,
      if_neg hp.2]
    exact h.waiting p hp.1 c

-- ── Whole traversals ────

/-- A list in dependency order: the dependencies of every entry stand before it. -/
def Ordered (deps : κ → Std.ExtTreeSet κ compare) (visited : List κ) : Prop :=
  ∀ pre a post, visited = pre ++ a :: post → ∀ d ∈ deps a, d ∈ pre

omit [Std.LawfulEqOrd κ] [DecidableEq κ] in
theorem Ordered.nil (deps : κ → Std.ExtTreeSet κ compare) : Ordered deps [] := by
  intro pre a post h
  exact absurd h (by simp)

omit [Std.LawfulEqOrd κ] [DecidableEq κ] in
theorem Ordered.snoc {deps : κ → Std.ExtTreeSet κ compare} {visited : List κ}
    (h : Ordered deps visited) {a : κ} (ha : ∀ d ∈ deps a, d ∈ visited) :
    Ordered deps (visited ++ [a]) := by
  intro pre b post heq
  rcases List.eq_nil_or_concat post with rfl | ⟨post, c, rfl⟩
  · obtain ⟨hpre, hb⟩ := List.append_inj' heq rfl
    injection hb with hb
    rw [← hpre, ← hb]
    exact ha
  · have heq' : visited ++ [a] = (pre ++ b :: post) ++ [c] := by rw [heq]; simp
    exact h pre b post (List.append_inj' heq' rfl).1

omit [Std.LawfulEqOrd κ] [DecidableEq κ] in
/-- The head of an ordered list can be taken off its end. -/
theorem Ordered.of_snoc {deps : κ → Std.ExtTreeSet κ compare} {visited : List κ} {a : κ}
    (h : Ordered deps (visited ++ [a])) : Ordered deps visited ∧ ∀ d ∈ deps a, d ∈ visited := by
  refine ⟨fun pre b post heq => ?_, h visited a [] rfl⟩
  exact h pre b (post ++ [a]) (by rw [heq]; simp)

omit [Std.LawfulEqOrd κ] [DecidableEq κ] in
/-- The order depends on the dependencies of the listed nodes only. -/
theorem Ordered.congr {deps deps' : κ → Std.ExtTreeSet κ compare} {visited : List κ}
    (h : Ordered deps visited) (heq : ∀ a ∈ visited, deps' a = deps a) :
    Ordered deps' visited := by
  intro pre a post hsplit d hd
  rw [heq a (by rw [hsplit]; simp)] at hd
  exact h pre a post hsplit d hd

omit [Std.LawfulEqOrd κ] [DecidableEq κ] in
/-- An ordered list has the dependencies of its nodes. -/
theorem Ordered.closed {deps : κ → Std.ExtTreeSet κ compare} {visited : List κ}
    (h : Ordered deps visited) : ∀ a ∈ visited, ∀ d ∈ deps a, d ∈ visited := by
  intro a ha d hd
  obtain ⟨pre, post, rfl⟩ := List.append_of_mem ha
  exact List.mem_append_left _ (h pre a post rfl d hd)

omit [Std.LawfulEqOrd κ] [DecidableEq κ] in
/-- Leaving nodes out keeps the order, as long as dependencies of kept nodes are kept. -/
theorem Ordered.filter {deps : κ → Std.ExtTreeSet κ compare} {visited : List κ}
    (h : Ordered deps visited) (keep : κ → Bool)
    (hkeep : ∀ a ∈ visited, keep a = true → ∀ d ∈ deps a, keep d = true) :
    Ordered deps (visited.filter keep) := by
  induction visited using List.reverseRecOn with
  | nil => exact Ordered.nil deps
  | append_singleton visited a ih =>
      obtain ⟨hinit, hlast⟩ := h.of_snoc
      have hrest := ih hinit fun b hb => hkeep b (List.mem_append_left _ hb)
      rw [List.filter_append]
      by_cases hka : keep a = true
      · rw [List.filter_cons_of_pos hka, List.filter_nil]
        refine hrest.snoc fun d hd => List.mem_filter.mpr ⟨hlast d hd, ?_⟩
        exact hkeep a (List.mem_append_right _ (List.mem_singleton_self a)) hka d hd
      · rw [List.filter_cons_of_neg hka, List.filter_nil, List.append_nil]
        exact hrest

omit [Std.LawfulEqOrd κ] [DecidableEq κ] in
/-- A set of nodes that takes in every node whose dependencies it has contains every node of
    an ordered list. -/
theorem Ordered.mem_of_closed {deps : κ → Std.ExtTreeSet κ compare} {order : List κ}
    (h : Ordered deps order) {P : κ → Prop} (hP : ∀ a ∈ order, (∀ d ∈ deps a, P d) → P a) :
    ∀ a ∈ order, P a := by
  induction order using List.reverseRecOn with
  | nil => intro a ha; exact nomatch ha
  | append_singleton order b ih =>
      obtain ⟨hinit, hlast⟩ := h.of_snoc
      have hrest := ih hinit fun a ha => hP a (List.mem_append_left _ ha)
      intro a ha
      rcases List.mem_append.mp ha with ha | ha
      · exact hrest a ha
      · rw [List.mem_singleton.mp ha]
        exact hP b (List.mem_append_right _ (List.mem_singleton_self b))
          fun d hd => hrest d (hlast d hd)

/-- What is known between two visits. -/
structure Visited (nodes : List κ) (deps : κ → Std.ExtTreeSet κ compare) (visited : List κ) :
    Prop where
  nodup : visited.Nodup
  mem_nodes : ∀ a ∈ visited, a ∈ nodes
  ordered : Ordered deps visited

omit [Std.LawfulEqOrd κ] [DecidableEq κ] in
theorem Visited.length_le {nodes visited : List κ} {deps : κ → Std.ExtTreeSet κ compare}
    (h : Visited nodes deps visited) : visited.length ≤ nodes.length :=
  (h.nodup.subperm h.mem_nodes).length_le

section Runs

variable {σ ε : Type} {nodes : List κ} {deps : κ → Std.ExtTreeSet κ compare}
  (visit : κ → σ → Except ε σ) (I : List κ → σ → Prop)

/-- The node visited next. -/
theorem Tracks.next {visited : List κ} {k : Kahn κ}
    (h : Tracks nodes deps visited k) (hv : Visited nodes deps visited) {a : κ}
    (ha : k.ready.toList.head? = some a) :
    a ∈ k.ready ∧ a ∈ nodes ∧ a ∉ visited ∧ (∀ d ∈ deps a, d ∈ visited) ∧
      Visited nodes deps (visited ++ [a]) := by
  have hready : a ∈ k.ready := Std.ExtTreeSet.mem_toList.mp (List.mem_of_head? ha)
  obtain ⟨hnode, hfresh, hdeps⟩ := (h.ready a).mp hready
  refine ⟨hready, hnode, hfresh, hdeps, ?_, ?_, hv.ordered.snoc hdeps⟩
  · rw [List.nodup_append]
    refine ⟨hv.nodup, List.nodup_singleton a, ?_⟩
    intro x hx y hy hxy
    rw [hxy, List.mem_singleton.mp hy] at hx
    exact hfresh hx
  · intro b hb
    rcases List.mem_append.mp hb with hb | hb
    · exact hv.mem_nodes b hb
    · rw [List.mem_singleton.mp hb]
      exact hnode

/-- A traversal that has nothing ready has left no node whose dependencies it visited. -/
theorem Tracks.exhausted {visited : List κ} {k : Kahn κ} (h : Tracks nodes deps visited k)
    (hempty : k.ready.toList.head? = none) :
    ∀ a ∈ nodes, (∀ d ∈ deps a, d ∈ visited) → a ∈ visited := by
  intro a ha hdeps
  by_contra hnot
  have hin := (h.ready a).mpr ⟨ha, hnot, hdeps⟩
  rw [← Std.ExtTreeSet.mem_toList, List.head?_eq_none_iff.mp hempty] at hin
  exact nomatch hin

/-- With as much fuel as nodes are left, a traversal ends with nothing ready. -/
theorem Tracks.full {visited : List κ} {k : Kahn κ} (h : Tracks nodes deps visited k)
    (hv : Visited nodes deps visited) (hlen : nodes.length ≤ visited.length) :
    k.ready.toList.head? = none := by
  cases hmin : k.ready.toList.head? with
  | none => rfl
  | some a =>
      obtain ⟨-, -, -, -, hnext⟩ := h.next hv hmin
      have hle := hnext.length_le
      rw [List.length_append, List.length_singleton] at hle
      omega

/-- **The rule of a finished traversal**: what one visit keeps holds at the end, for a list
    of visited nodes in dependency order that leaves no visitable node out. -/
theorem traverse_ok
    (hstep : ∀ visited a s s', Visited nodes deps visited → I visited s → a ∈ nodes →
      a ∉ visited → (∀ d ∈ deps a, d ∈ visited) → visit a s = .ok s' → I (visited ++ [a]) s') :
    ∀ fuel visited k s s', Tracks nodes deps visited k → Visited nodes deps visited →
      nodes.length ≤ visited.length + fuel → I visited s → traverse visit fuel k s = .ok s' →
        ∃ order, I order s' ∧ Visited nodes deps order ∧
          ∀ a ∈ nodes, (∀ d ∈ deps a, d ∈ order) → a ∈ order := by
  intro fuel
  induction fuel with
  | zero =>
      intro visited k s s' htr hv hlen hI hrun
      injection hrun with hrun
      subst hrun
      exact ⟨visited, hI, hv, htr.exhausted (htr.full hv hlen)⟩
  | succ fuel ih =>
      intro visited k s s' htr hv hlen hI hrun
      rw [traverse] at hrun
      cases hmin : k.ready.toList.head? with
      | none =>
          rw [hmin] at hrun
          injection hrun with hrun
          subst hrun
          exact ⟨visited, hI, hv, htr.exhausted hmin⟩
      | some a =>
          rw [hmin] at hrun
          dsimp only at hrun
          obtain ⟨hready, hnode, hfresh, hdeps, hnext⟩ := htr.next hv hmin
          cases hvisit : visit a s with
          | error e => rw [hvisit] at hrun; exact nomatch hrun
          | ok s1 =>
              rw [hvisit] at hrun
              refine ih (visited ++ [a]) (k.complete a) s1 s' (htr.complete hready) hnext ?_
                (hstep visited a s s1 hv hI hnode hfresh hdeps hvisit) hrun
              rw [List.length_append, List.length_singleton]
              omega

/-- **The rule of an unfailing traversal**: if every visit succeeds, so does the traversal. -/
theorem traverse_total
    (hstep : ∀ visited a s, Visited nodes deps visited → I visited s → a ∈ nodes →
      a ∉ visited → (∀ d ∈ deps a, d ∈ visited) →
        ∃ s', visit a s = .ok s' ∧ I (visited ++ [a]) s') :
    ∀ fuel visited k s, Tracks nodes deps visited k → Visited nodes deps visited →
      I visited s → ∃ s', traverse visit fuel k s = .ok s' := by
  intro fuel
  induction fuel with
  | zero => intro visited k s _ _ _; exact ⟨s, rfl⟩
  | succ fuel ih =>
      intro visited k s htr hv hI
      rw [traverse]
      cases hmin : k.ready.toList.head? with
      | none => exact ⟨s, rfl⟩
      | some a =>
          obtain ⟨hready, hnode, hfresh, hdeps, hnext⟩ := htr.next hv hmin
          obtain ⟨s1, hvisit, hI1⟩ := hstep visited a s hv hI hnode hfresh hdeps
          dsimp only
          rw [hvisit]
          exact ih (visited ++ [a]) (k.complete a) s1 (htr.complete hready) hnext hI1

omit [Std.LawfulEqOrd κ] [DecidableEq κ] in
/-- A traversal that fails fails in one of its visits. -/
theorem traverse_error {e : ε} : ∀ (fuel : Nat) (k : Kahn κ) (s : σ),
    traverse visit fuel k s = .error e → ∃ a s', visit a s' = .error e := by
  intro fuel
  induction fuel with
  | zero => intro k s h; exact nomatch h
  | succ fuel ih =>
      intro k s h
      rw [traverse] at h
      split at h
      · exact nomatch h
      · rename_i a _
        split at h
        · rename_i e' he'
          injection h with h
          exact ⟨a, s, by rw [he', h]⟩
        · exact ih _ _ h

end Runs

end CbclKahn
