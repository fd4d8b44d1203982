import Cbcl.WorklistProofs

/-!
# Kahn's algorithm with repeated edges

Vertices are those of a list, `preds i` lists the predecessors of `i` with repetitions.  A
traversal keeps a degree for every vertex and a queue of the vertices without open
predecessors; it takes an entry of the queue, takes one edge off for every entry of its successor
list, and files a vertex whose last edge went at whatever place the caller chooses.

`Tracks` says what the degrees, the queue and the sorted list are at any time, `Tracks.round`
that a round keeps it.  A traversal that ends with an empty queue has sorted everything when the
predecessor relation is acyclic.
-/

namespace CbclMultiKahn

variable {κ : Type} [DecidableEq κ]

/-- Take one edge off a successor; queue it when none is left. -/
def release (place : List κ → κ → Nat) (acc : (κ → Nat) × List κ) (succ : κ) :
    (κ → Nat) × List κ :=
  let degree := Function.update acc.1 succ (acc.1 succ - 1)
  if degree succ = 0 then (degree, acc.2.insertIdx (place acc.2 succ) succ) else (degree, acc.2)

-- ── Taking edges off ────

/-- What taking some edges off leaves: `c` are the degrees before. -/
structure Released (c : κ → Nat) (queue edges : List κ) (acc : (κ → Nat) × List κ) : Prop where
  degree : ∀ i, acc.1 i = c i - edges.count i
  nodup : acc.2.Nodup
  mem_iff : ∀ i, i ∈ acc.2 ↔ i ∈ queue ∨ i ∈ edges ∧ c i = edges.count i

/-- **Taking edges off.**  As long as no vertex loses more edges than it has, exactly the vertices
    that lost their last one join the queue. -/
theorem foldl_release {place : List κ → κ → Nat} (hplace : ∀ q i, place q i ≤ q.length) :
    ∀ (edges : List κ) (c : κ → Nat) (queue : List κ), queue.Nodup →
      (∀ i ∈ edges, i ∉ queue ∧ edges.count i ≤ c i) →
        Released c queue edges (edges.foldl (release place) (c, queue)) := by
  intro edges
  induction edges with
  | nil => exact fun c queue hnodup _ => ⟨fun i => rfl, hnodup, fun i => by simp⟩
  | cons x rest ih =>
      intro c queue hnodup hedges
      obtain ⟨hxq, hxc⟩ := hedges x List.mem_cons_self
      rw [List.count_cons_self] at hxc
      have hupdate : ∀ i, Function.update c x (c x - 1) i = if i = x then c x - 1 else c i := by
        intro i
        rw [Function.update_apply]
      have hcount : ∀ i, (x :: rest).count i = rest.count i + if i = x then 1 else 0 := by
        intro i
        rw [List.count_cons]
        by_cases hix : i = x
        · rw [if_pos hix, if_pos (beq_iff_eq.mpr hix.symm)]
        · rw [if_neg hix, if_neg (by rw [beq_iff_eq]; exact Ne.symm hix)]
      rw [List.foldl_cons]
      by_cases hlast : c x = 1
      · -- the last edge of `x`: it joins the queue and has no further edge here
        have hzero : rest.count x = 0 := by omega
        have hxrest : x ∉ rest := List.count_eq_zero.mp hzero
        have hrel : release place (c, queue) x
            = (Function.update c x (c x - 1), queue.insertIdx (place queue x) x) := by
          unfold release
          dsimp only
          rw [if_pos]
          rw [hupdate, if_pos rfl, hlast]
        have hperm := List.perm_insertIdx x queue (hplace queue x)
        have hnodup' : (queue.insertIdx (place queue x) x).Nodup :=
          hperm.nodup_iff.mpr (List.nodup_cons.mpr ⟨hxq, hnodup⟩)
        have hmem : ∀ i, i ∈ queue.insertIdx (place queue x) x ↔ i = x ∨ i ∈ queue := by
          intro i
          rw [hperm.mem_iff, List.mem_cons]
        rw [hrel]
        have hrest := ih (Function.update c x (c x - 1)) _ hnodup' fun i hi => by
          obtain ⟨hiq, hic⟩ := hedges i (List.mem_cons_of_mem x hi)
          have hix : i ≠ x := fun h => hxrest (h ▸ hi)
          rw [hcount, if_neg hix] at hic
          rw [hmem, hupdate, if_neg hix]
          exact ⟨fun h => h.elim hix hiq, hic⟩
        refine ⟨fun i => ?_, hrest.nodup, fun i => ?_⟩
        · rw [hrest.degree i, hupdate, hcount]
          by_cases hix : i = x
          · rw [if_pos hix, if_pos hix, hix]
            omega
          · rw [if_neg hix, if_neg hix]
            rfl
        · rw [hrest.mem_iff, hmem, hupdate, hcount, List.mem_cons]
          by_cases hix : i = x
          · subst hix
            simp [hlast, hzero]
          · simp [hix]
      · -- `x` keeps an edge
        have hrel : release place (c, queue) x = (Function.update c x (c x - 1), queue) := by
          unfold release
          dsimp only
          rw [if_neg]
          rw [hupdate, if_pos rfl]
          omega
        rw [hrel]
        have hrest := ih (Function.update c x (c x - 1)) _ hnodup fun i hi => by
          obtain ⟨hiq, hic⟩ := hedges i (List.mem_cons_of_mem x hi)
          refine ⟨hiq, ?_⟩
          rw [hcount] at hic
          rw [hupdate]
          by_cases hix : i = x
          · rw [if_pos hix] at hic ⊢
            rw [hix] at hic ⊢
            omega
          · rw [if_neg hix] at hic ⊢
            exact hic
        refine ⟨fun i => ?_, hrest.nodup, fun i => ?_⟩
        · rw [hrest.degree i, hupdate, hcount]
          by_cases hix : i = x
          · rw [if_pos hix, if_pos hix, hix]
            omega
          · rw [if_neg hix, if_neg hix]
            rfl
        · rw [hrest.mem_iff, hupdate, hcount, List.mem_cons]
          by_cases hix : i = x
          · subst hix
            have hmem : i ∈ rest ↔ 0 < rest.count i := List.count_pos_iff.symm
            rw [if_pos rfl, if_pos rfl, hmem]
            constructor
            · rintro (h | ⟨h, hc⟩)
              · exact Or.inl h
              · exact Or.inr ⟨Or.inl rfl, by omega⟩
            · rintro (h | ⟨-, hc⟩)
              · exact Or.inl h
              · exact Or.inr ⟨by omega, by omega⟩
          · simp [hix]

-- ── The traversal ────

section Traversal

variable {V : List κ} {preds : κ → List κ} {place : List κ → κ → Nat}

/-- The predecessors of a vertex that are not sorted yet, with repetitions. -/
def openCount (preds : κ → List κ) (sorted : List κ) (i : κ) : Nat :=
  ((preds i).filter (· ∉ sorted)).length

/-- Before anything is sorted every predecessor is open. -/
theorem openCount_nil (i : κ) : openCount preds [] i = (preds i).length := by
  unfold openCount
  rw [List.filter_eq_self.mpr (by simp)]

/-- Sorting a vertex closes its edges. -/
theorem openCount_concat {sorted : List κ} {node : κ} (hnew : node ∉ sorted) (i : κ) :
    openCount preds (sorted ++ [node]) i + (preds i).count node = openCount preds sorted i := by
  unfold openCount
  induction preds i with
  | nil => rfl
  | cons p ps ih =>
      by_cases hp : p = node
      · subst hp
        rw [List.filter_cons_of_neg (by simp), List.filter_cons_of_pos (by simpa using hnew),
          List.count_cons_self, List.length_cons]
        omega
      · by_cases hs : p ∈ sorted
        · rw [List.filter_cons_of_neg (by simp [hs]), List.filter_cons_of_neg (by simp [hs]),
            List.count_cons_of_ne hp]
          exact ih
        · rw [List.filter_cons_of_pos (by simp [hs, hp]), List.filter_cons_of_pos (by simp [hs]),
            List.count_cons_of_ne hp, List.length_cons, List.length_cons]
          omega

theorem openCount_eq_zero_iff {sorted : List κ} {i : κ} :
    openCount preds sorted i = 0 ↔ ∀ p ∈ preds i, p ∈ sorted := by
  unfold openCount
  rw [List.length_eq_zero_iff, List.filter_eq_nil_iff]
  simp

/-- What the degrees, the queue and the sorted list are. -/
structure Tracks (V : List κ) (preds : κ → List κ) (degree : κ → Nat) (queue sorted : List κ) :
    Prop where
  degree : ∀ i ∈ V, degree i = openCount preds sorted i
  queue_nodup : queue.Nodup
  sorted_nodup : sorted.Nodup
  disjoint : ∀ i ∈ queue, i ∉ sorted
  bound : ∀ i, i ∈ queue ∨ i ∈ sorted → i ∈ V
  ready : ∀ i ∈ V, (i ∈ queue ∨ i ∈ sorted) ↔ openCount preds sorted i = 0
  ordered : ∀ pre i post, sorted = pre ++ i :: post → ∀ p ∈ preds i, p ∈ pre

/-- **The start**: nothing is sorted, and the vertices without predecessors are queued. -/
theorem tracks_start {degree : κ → Nat} {queue : List κ}
    (hdegree : ∀ i ∈ V, degree i = (preds i).length) (hnodup : queue.Nodup)
    (hqueue : ∀ i, i ∈ queue ↔ i ∈ V ∧ preds i = []) : Tracks V preds degree queue [] := by
  refine ⟨fun i hi => ?_, hnodup, List.nodup_nil, fun _ _ => List.not_mem_nil, fun i hi => ?_,
    fun i hi => ?_, fun pre i post h => ?_⟩
  · rw [hdegree i hi, openCount_nil]
  · exact ((hqueue i).mp (hi.resolve_right List.not_mem_nil)).1
  · rw [hqueue, openCount_nil, or_iff_left List.not_mem_nil, and_iff_right hi,
      List.length_eq_zero_iff]
  · simp at h

/-- **One round**: the last entry of the queue is sorted, and its edges are taken off. -/
theorem Tracks.round (place : List κ → κ → Nat) (hplace : ∀ q i, place q i ≤ q.length)
    {degree : κ → Nat} {init sorted edges : List κ} {node : κ}
    (h : Tracks V preds degree (init ++ [node]) sorted)
    (hcount : ∀ i, edges.count i = if i ∈ V then (preds i).count node else 0) :
    Tracks V preds (edges.foldl (release place) (degree, init)).1
      (edges.foldl (release place) (degree, init)).2 (sorted ++ [node]) := by
  obtain ⟨hinit, -, hsep⟩ := List.nodup_append.mp h.queue_nodup
  have hnode : node ∈ init ++ [node] := by simp
  have hnodeinit : node ∉ init := fun hin => hsep node hin node (by simp) rfl
  have hnew : node ∉ sorted := h.disjoint node hnode
  have hnodeV : node ∈ V := h.bound node (Or.inl hnode)
  have hqueue : ∀ i, i ∈ init ++ [node] ↔ i ∈ init ∨ i = node := by
    intro i
    rw [List.mem_append, List.mem_singleton]
  have hedge : ∀ i ∈ edges, i ∈ V ∧ 0 < (preds i).count node := by
    intro i hi
    have hpos := List.count_pos_iff.mpr hi
    rw [hcount i] at hpos
    by_cases hin : i ∈ V
    · rw [if_pos hin] at hpos
      exact ⟨hin, hpos⟩
    · rw [if_neg hin] at hpos
      exact absurd hpos (Nat.lt_irrefl 0)
  have hrel := foldl_release hplace edges degree init hinit fun i hi => by
    obtain ⟨hin, hpos⟩ := hedge i hi
    have hconcat := @openCount_concat _ _ preds _ _ hnew i
    refine ⟨fun hq => ?_, ?_⟩
    · have hzero := (h.ready i hin).mp (Or.inl ((hqueue i).mpr (Or.inl hq)))
      omega
    · rw [hcount i, if_pos hin, h.degree i hin]
      omega
  generalize edges.foldl (release place) (degree, init) = next at hrel ⊢
  -- the queue after the round: what was waiting, and the successors that lost their last edge
  have hmem : ∀ i, i ∈ next.2 ↔ i ∈ init ∨
      i ∈ V ∧ 0 < (preds i).count node ∧ openCount preds (sorted ++ [node]) i = 0 := by
    intro i
    have hconcat := @openCount_concat _ _ preds _ _ hnew i
    rw [hrel.mem_iff]
    refine or_congr_right ⟨fun ⟨hi, hc⟩ => ?_, fun ⟨hin, hpos, hzero⟩ => ?_⟩
    · obtain ⟨hin, hpos⟩ := hedge i hi
      rw [hcount i, if_pos hin, h.degree i hin] at hc
      exact ⟨hin, hpos, by omega⟩
    · have hci : edges.count i = (preds i).count node := by rw [hcount i, if_pos hin]
      exact ⟨List.count_pos_iff.mp (by omega), by rw [h.degree i hin]; omega⟩
  refine ⟨fun i hi => ?_, hrel.nodup, ?_, fun i hi => ?_, fun i hi => ?_, fun i hi => ?_, ?_⟩
  · have hconcat := @openCount_concat _ _ preds _ _ hnew i
    rw [hrel.degree i, hcount i, if_pos hi, h.degree i hi]
    omega
  · refine List.nodup_append.mpr ⟨h.sorted_nodup, List.nodup_singleton node, ?_⟩
    rintro i hi j hj rfl
    rw [List.mem_singleton.mp hj] at hi
    exact hnew hi
  · rw [List.mem_append, List.mem_singleton]
    rcases (hmem i).mp hi with hq | ⟨hin, hpos, -⟩
    · rintro (hs | rfl)
      · exact h.disjoint i ((hqueue i).mpr (Or.inl hq)) hs
      · exact hnodeinit hq
    · -- a successor of the vertex just sorted had an open predecessor
      have hopen : openCount preds sorted i ≠ 0 := by
        have hconcat := @openCount_concat _ _ preds _ _ hnew i
        omega
      rintro (hs | rfl)
      · exact hopen ((h.ready i hin).mp (Or.inr hs))
      · exact hopen ((h.ready i hin).mp (Or.inl hnode))
  · rw [List.mem_append, List.mem_singleton] at hi
    rcases hi with hq | hs | rfl
    · rcases (hmem i).mp hq with hq | ⟨hin, -⟩
      · exact h.bound i (Or.inl ((hqueue i).mpr (Or.inl hq)))
      · exact hin
    · exact h.bound i (Or.inr hs)
    · exact hnodeV
  · have hconcat := @openCount_concat _ _ preds _ _ hnew i
    have hready := h.ready i hi
    rw [List.mem_append, List.mem_singleton, hmem]
    rw [hqueue] at hready
    constructor
    · rintro ((hq | ⟨-, -, hzero⟩) | hs | rfl)
      · have hzero := hready.mp (Or.inl (Or.inl hq))
        omega
      · exact hzero
      · have hzero := hready.mp (Or.inr hs)
        omega
      · have hzero := hready.mp (Or.inl (Or.inr rfl))
        omega
    · intro hzero
      by_cases hpos : 0 < (preds i).count node
      · exact Or.inl (Or.inr ⟨hi, hpos, hzero⟩)
      · rcases hready.mpr (by omega) with (hq | rfl) | hs
        · exact Or.inl (Or.inl hq)
        · exact Or.inr (Or.inr rfl)
        · exact Or.inr (Or.inl hs)
  · intro pre i post heq
    rcases List.eq_nil_or_concat post with rfl | ⟨post', last, rfl⟩
    · -- the vertex just sorted was ready
      have hend := List.append_inj' heq rfl
      have hi : node = i := by simpa using hend.2
      rw [← hend.1, ← hi]
      exact openCount_eq_zero_iff.mp ((h.ready node hnodeV).mp (Or.inl hnode))
    · have hassoc : pre ++ i :: (post' ++ [last]) = (pre ++ i :: post') ++ [last] := by simp
      rw [List.concat_eq_append, hassoc] at heq
      exact h.ordered pre i post' (List.append_inj' heq rfl).1

/-- What is sorted is not longer than the vertices. -/
theorem Tracks.length_le {degree : κ → Nat} {queue sorted : List κ}
    (h : Tracks V preds degree queue sorted) : queue.length + sorted.length ≤ V.length := by
  have hnodup : (queue ++ sorted).Nodup := List.nodup_append.mpr
    ⟨h.queue_nodup, h.sorted_nodup, fun i hi j hj hij => h.disjoint i hi (hij ▸ hj)⟩
  rw [← List.length_append]
  refine (List.subperm_of_subset hnodup fun i hi => ?_).length_le
  exact h.bound i (List.mem_append.mp hi)

/-- **The end.**  On an acyclic predecessor relation an empty queue means that every vertex is
    sorted. -/
theorem Tracks.complete (hclosed : ∀ i ∈ V, ∀ p ∈ preds i, p ∈ V)
    (hacyclic : ∀ i, ¬ Relation.TransGen (fun p i => i ∈ V ∧ p ∈ preds i) i i)
    {degree : κ → Nat} {sorted : List κ} (h : Tracks V preds degree [] sorted) :
    ∀ i ∈ V, i ∈ sorted := by
  intro i hi
  by_contra hmissing
  -- among the unsorted vertices one has no unsorted predecessor
  let unsorted := V.filter (· ∉ sorted)
  let succ : κ → List κ := fun p => V.filter (p ∈ preds ·)
  have hrel : (fun a b => b ∈ succ a) = fun p i => i ∈ V ∧ p ∈ preds i := by
    funext a b
    simp [succ]
  obtain ⟨j, hj, hfree, -⟩ := @CbclWorklist.exists_source_reaches _ succ unsorted
    (by rw [hrel]; exact hacyclic) i (by simp [unsorted, hi, hmissing])
  simp only [unsorted, List.mem_filter, decide_eq_true_eq] at hj hfree
  have hopen : openCount preds sorted j ≠ 0 := fun hzero =>
    hj.2 (((h.ready j hj.1).mpr hzero).resolve_left List.not_mem_nil)
  refine hopen (openCount_eq_zero_iff.mpr fun p hp => by_contra fun hps => ?_)
  refine hfree p ⟨hclosed j hj.1 p hp, hps⟩ ?_
  simp [succ, hj.1, hp]

end Traversal

end CbclMultiKahn
