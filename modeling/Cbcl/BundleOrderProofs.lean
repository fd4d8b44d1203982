import Cbcl.ExceptProofs
import Cbcl.MultiKahnProofs
import Cbcl.StoreUnionProofs

/-!
# Extraction is a complete topological order

The first phase of an extraction collects the closure of the target, each message once
(`collectFrom_spec`); the second phase is the index form of Kahn's algorithm over the cited
messages, repetitions included (`buildEdges_spec`).  Over an acyclic citation relation the bundle
therefore lists exactly the closure, cited messages first.  The first phase depends on nothing but
the lookups of the closure, so a bundle merged into a store is extracted from it again.
-/

namespace CbclBundle

open CbclMessage CbclProtocol CbclStore CbclThreadedStore CbclVerifier CbclWorklist
open CbclMultiKahn ThreadedMessageStore

-- ── The first phase ────

section Collect

variable {t : ThreadId} (store : MessageStore)

/-- What visiting an unvisited hash keeps, the first phase keeps. -/
theorem collect_preserves {P : Collected → Prop}
    (hmissing : ∀ c current, P c → current ∉ c.visited → store.lookupInThread current t = none →
      P { c with visited := current :: c.visited, missing := c.missing ++ [current] })
    (hfound : ∀ c current m, P c → current ∉ c.visited →
      store.lookupInThread current t = some m →
      P { c with
        visited := current :: c.visited, hash_to_msg := c.hash_to_msg ++ [(current, m)] }) :
    ∀ (fuel : Nat) (stack : List ContentHash) (c : Collected), P c →
      P (collect store t fuel stack c) := by
  intro fuel
  induction fuel with
  | zero => exact fun _ _ h => h
  | succ fuel ih =>
      intro stack c h
      cases stack with
      | nil => exact h
      | cons current stack =>
          rw [collect]
          by_cases hseen : current ∈ c.visited
          · rw [if_pos hseen]
            exact ih stack c h
          · rw [if_neg hseen]
            dsimp only
            cases hl : store.lookupInThread current t with
            | none => exact ih _ _ (hmissing c current h hseen hl)
            | some m => exact ih _ _ (hfound c current m h hseen hl)

/-- The messages collected are those of the visited hashes, each once. -/
structure Messages (store : MessageStore) (t : ThreadId) (c : Collected) : Prop where
  nodup : (c.hash_to_msg.map Prod.fst).Nodup
  mem_iff : ∀ h m, (h, m) ∈ c.hash_to_msg ↔ h ∈ c.visited ∧ store.lookupInThread h t = some m

theorem messages_collect (fuel : Nat) (stack : List ContentHash) (c : Collected)
    (h : Messages store t c) : Messages store t (collect store t fuel stack c) := by
  refine collect_preserves store ?_ ?_ fuel stack c h
  · intro c current h hnew hl
    refine ⟨h.nodup, fun g m => ?_⟩
    rw [h.mem_iff, List.mem_cons]
    refine and_congr_left fun hg => (or_iff_right ?_).symm
    rintro rfl
    rw [hl] at hg
    exact nomatch hg
  · intro c current m h hnew hl
    refine ⟨?_, fun g m' => ?_⟩
    · rw [List.map_append, List.map_singleton]
      refine List.nodup_append.mpr ⟨h.nodup, List.nodup_singleton current, ?_⟩
      rintro g hg g' hg' rfl
      rw [List.mem_singleton.mp hg'] at hg
      obtain ⟨⟨k, m'⟩, hin, rfl⟩ := List.mem_map.mp hg
      exact hnew ((h.mem_iff k m').mp hin).1
    · rw [List.mem_append, List.mem_singleton, h.mem_iff, List.mem_cons, Prod.mk.injEq]
      constructor
      · rintro (⟨hv, hg⟩ | ⟨rfl, rfl⟩)
        · exact ⟨Or.inr hv, hg⟩
        · exact ⟨Or.inl rfl, hl⟩
      · rintro ⟨rfl | hv, hg⟩
        · rw [hl] at hg
          exact Or.inr ⟨rfl, (Option.some.inj hg).symm⟩
        · exact Or.inl ⟨hv, hg⟩

/-- **The first phase** collects the messages of the closure, each once. -/
theorem collectFrom_spec (target : ContentHash) :
    ((collectFrom store t target).hash_to_msg.map Prod.fst).Nodup ∧
      ∀ h m, (h, m) ∈ (collectFrom store t target).hash_to_msg ↔
        Reaches (citations store t) target h ∧ store.lookupInThread h t = some m := by
  have hmessages : Messages store t (collectFrom store t target) :=
    messages_collect store _ [target] ⟨[], [], []⟩ ⟨List.nodup_nil, fun h m => by simp⟩
  obtain ⟨hvisited, -⟩ := collect_spec (t := t) store
    (potential (citations store t) store.hashes [target] []) [target] ⟨[], [], []⟩ ⟨by simp⟩
  refine ⟨hmessages.nodup, fun h m => ?_⟩
  rw [hmessages.mem_iff]
  refine and_congr_left fun _ => ?_
  unfold collectFrom
  rw [hvisited, mem_walk_iff]
  simp

end Collect

/-- **The first phase reads nothing but the closure**: two stores that agree on it collect
    alike, whatever else they hold. -/
theorem collect_congr {t : ThreadId} {S S' : MessageStore} {R : ContentHash → Prop}
    (hlookup : ∀ h, R h → S.lookupInThread h t = S'.lookupInThread h t)
    (hclosed : ∀ h, R h → ∀ g ∈ citations S t h, R g) :
    ∀ (fuel fuel' : Nat) (stack : List ContentHash) (c : Collected),
      potential (citations S t) S.hashes stack c.visited ≤ fuel →
      potential (citations S' t) S'.hashes stack c.visited ≤ fuel' →
      (∀ h ∈ stack, R h) → collect S t fuel stack c = collect S' t fuel' stack c := by
  have hcites : ∀ h, R h → citations S t h = citations S' t h := by
    intro h hh
    unfold citations
    rw [hlookup h hh]
  have hnil : ∀ (store : MessageStore) (fuel : Nat) (c : Collected),
      collect store t fuel [] c = c := by
    intro store fuel c
    cases fuel <;> rfl
  intro fuel
  induction fuel with
  | zero =>
      intro fuel' stack c hpot _ _
      have hstack : stack = [] := by
        unfold potential at hpot
        exact List.eq_nil_of_length_eq_zero (by omega)
      rw [hstack, hnil, hnil]
  | succ fuel ih =>
      intro fuel' stack c hpot hpot' hR
      cases stack with
      | nil => rw [hnil, hnil]
      | cons current stack =>
          cases fuel' with
          | zero =>
              unfold potential at hpot'
              rw [List.length_cons] at hpot'
              omega
          | succ fuel' =>
              have hcur := hR current List.mem_cons_self
              have hrest : ∀ h ∈ stack, R h := fun h hh => hR h (List.mem_cons_of_mem _ hh)
              rw [collect, collect]
              by_cases hseen : current ∈ c.visited
              · rw [if_pos hseen, if_pos hseen]
                refine ih fuel' stack c ?_ ?_ hrest
                · unfold potential at hpot ⊢
                  rw [List.length_cons] at hpot
                  omega
                · unfold potential at hpot' ⊢
                  rw [List.length_cons] at hpot'
                  omega
              · rw [if_neg hseen, if_neg hseen]
                dsimp only
                -- a visit spends what the walk over citations spends
                have hv := potential_visit (pushes_pushUnseen (citations S t))
                  (citations_support S t) stack hseen
                have hv' := potential_visit (pushes_pushUnseen (citations S' t))
                  (citations_support S' t) stack hseen
                have hpush : pushUnseen (citations S' t) (current :: c.visited) current
                    = pushUnseen (citations S t) (current :: c.visited) current := by
                  unfold pushUnseen
                  rw [hcites current hcur]
                rw [hpush] at hv'
                have hpushR : ∀ h ∈
                    pushUnseen (citations S t) (current :: c.visited) current ++ stack, R h := by
                  intro h hh
                  rcases List.mem_append.mp hh with hh | hh
                  · exact hclosed current hcur h
                      ((pushes_pushUnseen (citations S t)).sound _ _ h hh)
                  · exact hrest h hh
                rw [← hlookup current hcur]
                cases hl : S.lookupInThread current t with
                | none =>
                    have hempty :
                        pushUnseen (citations S t) (current :: c.visited) current = [] := by
                      unfold pushUnseen citations
                      rw [hl]
                      rfl
                    rw [hempty, List.nil_append] at hv hv'
                    exact ih fuel' stack _ (by dsimp only; omega) (by dsimp only; omega) hrest
                | some m =>
                    have hcited : ((citedHashes m.causedBy).filter
                          (· ∉ current :: c.visited)).reverse
                        = pushUnseen (citations S t) (current :: c.visited) current := by
                      unfold pushUnseen citations
                      rw [hl]
                      rfl
                    dsimp only
                    rw [hcited]
                    exact ih fuel' _ _ (by dsimp only; omega) (by dsimp only; omega) hpushR

-- ── The second phase ────

section Order

variable (M : List (ContentHash × Message))

/-- The indices of the messages a message cites, repetitions included. -/
def predIndices (m : Message) : List Nat :=
  (citedHashes m.causedBy).filterMap fun p => M.findIdx? fun x => x.1 = p

/-- The predecessors of the message at an index. -/
def preds (i : Nat) : List Nat := ((M[i]?).map fun entry => predIndices M entry.2).getD []

variable {M}

theorem mem_predIndices {m : Message} {p : Nat} (hp : p ∈ predIndices M m) :
    ∃ g m', M[p]? = some (g, m') ∧ g ∈ citedHashes m.causedBy := by
  obtain ⟨g, hg, hfind⟩ := List.mem_filterMap.mp hp
  obtain ⟨hlt, heq, -⟩ := List.findIdx?_eq_some_iff_getElem.mp hfind
  exact ⟨g, M[p].2, by rw [List.getElem?_eq_getElem hlt, ← of_decide_eq_true heq], hg⟩

/-- A cited message that was collected is a predecessor. -/
theorem exists_predIndices (hnodup : (M.map Prod.fst).Nodup) {m m' : Message} {g : ContentHash}
    (hg : g ∈ citedHashes m.causedBy) {p : Nat} (hp : M[p]? = some (g, m')) :
    p ∈ predIndices M m := by
  refine List.mem_filterMap.mpr ⟨g, hg, ?_⟩
  obtain ⟨hlt, heq⟩ := List.getElem?_eq_some_iff.mp hp
  refine List.findIdx?_eq_some_iff_getElem.mpr ⟨hlt, ?_, fun j hj => ?_⟩
  · rw [heq]
    exact decide_eq_true rfl
  · -- no earlier entry has the hash
    rw [decide_eq_true_eq]
    intro hjg
    have hget : ∀ k (hk : k < M.length), (M.map Prod.fst)[k]? = some M[k].1 := by
      intro k hk
      rw [List.getElem?_map, List.getElem?_eq_getElem hk]
      rfl
    have hlen : j < M.length := hj.trans hlt
    have hsame : j = p := (List.getElem?_inj (by rw [List.length_map]; exact hlen) hnodup).mp
      (by rw [hget j hlen, hget p hlt, hjg, heq])
    omega

/-- What the edge lists hold: an in-degree for every index, and how often each index occurs in
    each successor list. -/
def Edges.Counts (n : Nat) (deg : Nat → Nat) (cnt : Nat → Nat → Nat) (e : Edges) : Prop :=
  (∀ i < n, e.in_degree[i]? = some (deg i)) ∧
    ∀ p < n, ∃ s, e.successors[p]? = some s ∧ ∀ i, s.count i = cnt p i

theorem Edges.Counts.congr {n : Nat} {deg deg' : Nat → Nat} {cnt cnt' : Nat → Nat → Nat}
    {e : Edges} (h : e.Counts n deg cnt) (hdeg : ∀ i < n, deg i = deg' i)
    (hcnt : ∀ p < n, ∀ i, cnt p i = cnt' p i) : e.Counts n deg' cnt' := by
  refine ⟨fun i hi => hdeg i hi ▸ h.1 i hi, fun p hp => ?_⟩
  obtain ⟨s, hs, hcount⟩ := h.2 p hp
  exact ⟨s, hs, fun i => (hcount i).trans (hcnt p hp i)⟩

/-- One edge. -/
theorem Edges.Counts.add {n : Nat} {deg : Nat → Nat} {cnt : Nat → Nat → Nat} {e : Edges}
    (h : e.Counts n deg cnt) (idx p : Nat) :
    (e.add idx p).Counts n (fun i => deg i + if i = idx then 1 else 0)
      (fun q i => cnt q i + if i = idx ∧ q = p then 1 else 0) := by
  refine ⟨fun i hi => ?_, fun q hq => ?_⟩
  · unfold Edges.add
    dsimp only
    rw [List.getElem?_modify, h.1 i hi]
    show some (if idx = i then deg i + 1 else deg i) = _
    by_cases hix : i = idx
    · rw [if_pos hix.symm, if_pos hix]
    · rw [if_neg (Ne.symm hix), if_neg hix]
      rfl
  · obtain ⟨s, hs, hcount⟩ := h.2 q hq
    unfold Edges.add
    dsimp only
    rw [List.getElem?_modify, hs]
    refine ⟨if p = q then s ++ [idx] else s, rfl, fun i => ?_⟩
    by_cases hpq : p = q
    · rw [if_pos hpq, List.count_append, hcount, List.count_singleton]
      by_cases hix : i = idx
      · rw [if_pos (beq_iff_eq.mpr hix.symm), if_pos ⟨hix, hpq.symm⟩]
      · rw [if_neg (by rw [beq_iff_eq]; exact Ne.symm hix), if_neg (fun h => hix h.1)]
    · rw [if_neg hpq, hcount, if_neg (fun h => hpq h.2.symm)]
      rfl

/-- All edges into one index. -/
theorem Edges.Counts.foldl_add {n : Nat} (idx : Nat) : ∀ (ps : List Nat) {deg : Nat → Nat}
    {cnt : Nat → Nat → Nat} {e : Edges}, e.Counts n deg cnt →
      (ps.foldl (Edges.add idx) e).Counts n (fun i => deg i + if i = idx then ps.length else 0)
        (fun q i => cnt q i + if i = idx then ps.count q else 0) := by
  intro ps
  induction ps with
  | nil =>
      intro deg cnt e h
      simpa using h
  | cons p ps ih =>
      intro deg cnt e h
      refine (ih (h.add idx p)).congr (fun i _ => ?_) (fun q _ i => ?_)
      · by_cases hix : i = idx
        · rw [if_pos hix, if_pos hix, if_pos hix, List.length_cons]
          omega
        · rw [if_neg hix, if_neg hix, if_neg hix]
      · by_cases hix : i = idx
        · rw [if_pos hix, if_pos hix, List.count_cons]
          by_cases hqp : q = p
          · rw [if_pos ⟨hix, hqp⟩, if_pos (beq_iff_eq.mpr hqp.symm)]
            omega
          · rw [if_neg (fun h => hqp h.2), if_neg (by rw [beq_iff_eq]; exact Ne.symm hqp)]
            omega
        · rw [if_neg (fun h => hix h.1), if_neg hix, if_neg hix]

/-- **The edges** of the collected messages, by induction on the messages still to enter. -/
theorem buildEdges_spec :
    (buildEdges M).Counts M.length (fun i => (preds M i).length)
      (fun p i => if i < M.length then (preds M i).count p else 0) := by
  have hrun : ∀ (rest pre : List (ContentHash × Message)) (e : Edges), M = pre ++ rest →
      e.Counts M.length (fun i => if i < pre.length then (preds M i).length else 0)
        (fun p i => if i < pre.length then (preds M i).count p else 0) →
      ((rest.zipIdx pre.length).foldl
        (fun e x => (predIndices M x.1.2).foldl (Edges.add x.2) e) e).Counts M.length
        (fun i => if i < M.length then (preds M i).length else 0)
        (fun p i => if i < M.length then (preds M i).count p else 0) := by
    intro rest
    induction rest with
    | nil =>
        intro pre e hM h
        rw [List.append_nil] at hM
        rw [hM] at h ⊢
        exact h
    | cons entry rest ih =>
        intro pre e hM h
        rw [List.zipIdx_cons, List.foldl_cons]
        have hM' : M = (pre ++ [entry]) ++ rest := by rw [hM]; simp
        have hlen : (pre ++ [entry]).length = pre.length + 1 := by simp
        have hpreds : preds M pre.length = predIndices M entry.2 := by
          have hat : M[pre.length]? = some entry := by rw [hM]; simp
          unfold preds
          rw [hat]
          rfl
        have hnext := ih (pre ++ [entry]) ((predIndices M entry.2).foldl (Edges.add pre.length) e)
          hM'
        rw [hlen] at hnext
        refine hnext ((h.foldl_add pre.length (predIndices M entry.2)).congr (fun i _ => ?_)
          (fun q _ i => ?_))
        · by_cases hix : i = pre.length
          · rw [if_neg (by omega), if_pos hix, if_pos (by omega), hix, hpreds, Nat.zero_add]
          · rw [if_neg hix, Nat.add_zero]
            by_cases hlt : i < pre.length
            · rw [if_pos hlt, if_pos (by omega)]
            · rw [if_neg hlt, if_neg (by omega)]
        · by_cases hix : i = pre.length
          · rw [if_neg (by omega), if_pos hix, if_pos (by omega), hix, hpreds, Nat.zero_add]
          · rw [if_neg hix, Nat.add_zero]
            by_cases hlt : i < pre.length
            · rw [if_pos hlt, if_pos (by omega)]
            · rw [if_neg hlt, if_neg (by omega)]
  have hstart : (⟨List.replicate M.length 0, List.replicate M.length []⟩ : Edges).Counts M.length
      (fun i => if i < ([] : List (ContentHash × Message)).length then (preds M i).length else 0)
      (fun p i => if i < ([] : List (ContentHash × Message)).length then (preds M i).count p
        else 0) := by
    refine ⟨fun i hi => ?_, fun p hp => ⟨[], ?_, fun i => ?_⟩⟩
    · simpa using List.getElem?_replicate_of_lt hi
    · exact List.getElem?_replicate_of_lt hp
    · simp
  exact (hrun M [] _ rfl hstart).congr (fun i hi => if_pos hi) (fun _ _ _ => rfl)

-- ── The queue ────

/-- The bisection stays inside the list. -/
theorem bisect_lt {holds : Nat → Bool} {xs : List Nat} : ∀ (fuel base size : Nat),
    base + size ≤ xs.length → 1 ≤ size → bisect holds xs fuel base size < xs.length := by
  intro fuel
  induction fuel with
  | zero =>
      intro base size hsum hsize
      rw [bisect]
      omega
  | succ fuel ih =>
      intro base size hsum hsize
      rw [bisect]
      by_cases hone : size ≤ 1
      · rw [if_pos hone]
        omega
      · rw [if_neg hone]
        dsimp only
        by_cases hmid : ((xs[base + size / 2]?).map holds).getD false = true
        · rw [if_pos hmid]
          exact ih _ _ (by omega) (by omega)
        · rw [if_neg hmid]
          exact ih _ _ (by omega) (by omega)

theorem partitionPoint_le (holds : Nat → Bool) (xs : List Nat) :
    partitionPoint holds xs ≤ xs.length := by
  unfold partitionPoint
  by_cases hempty : xs.isEmpty = true
  · rw [if_pos hempty]
    exact Nat.zero_le _
  · rw [if_neg hempty]
    dsimp only
    have hpos : 0 < xs.length := by
      rw [List.isEmpty_iff] at hempty
      exact List.length_pos_iff.mpr hempty
    have hlt := @bisect_lt holds xs xs.length 0 xs.length (by omega) hpos
    split <;> omega

/-- Where the loop files a released index. -/
def place (M : List (ContentHash × Message)) (queue : List Nat) (succ : Nat) : Nat :=
  partitionPoint (fun x => decide (hashAt M succ < hashAt M x)) queue

/-- Taking edges off a list of degrees is taking them off the degrees as a function. -/
theorem foldl_releaseSuccessor {n : Nat} : ∀ (edges deg : List Nat) (c : Nat → Nat)
    (queue : List Nat), (∀ i < n, deg[i]? = some (c i)) → (∀ i ∈ edges, i < n) →
      (∀ i < n, (edges.foldl (releaseSuccessor M) (deg, queue)).1[i]?
        = some ((edges.foldl (release (place M)) (c, queue)).1 i)) ∧
      (edges.foldl (releaseSuccessor M) (deg, queue)).2
        = (edges.foldl (release (place M)) (c, queue)).2 := by
  intro edges
  induction edges with
  | nil => exact fun deg c queue hdeg _ => ⟨hdeg, rfl⟩
  | cons succ edges ih =>
      intro deg c queue hdeg hedges
      have hdeg' : ∀ i < n, (deg.modify succ (· - 1))[i]?
          = some (Function.update c succ (c succ - 1) i) := by
        intro i hi
        rw [List.getElem?_modify, hdeg i hi, Function.update_apply]
        show some (if succ = i then c i - 1 else c i) = _
        by_cases hix : i = succ
        · rw [if_pos hix.symm, if_pos hix, hix]
        · rw [if_neg (Ne.symm hix), if_neg hix]
      -- both see the same last edges
      have hlast : (deg.modify succ (· - 1))[succ]? = some 0 ↔
          Function.update c succ (c succ - 1) succ = 0 := by
        rw [hdeg' succ (hedges succ List.mem_cons_self), Option.some.injEq]
      have hfst : (releaseSuccessor M (deg, queue) succ).1 = deg.modify succ (· - 1) := by
        unfold releaseSuccessor
        dsimp only
        split <;> rfl
      have hfst' : (release (place M) (c, queue) succ).1
          = Function.update c succ (c succ - 1) := by
        unfold release
        dsimp only
        split <;> rfl
      have hsnd : (releaseSuccessor M (deg, queue) succ).2
          = (release (place M) (c, queue) succ).2 := by
        unfold releaseSuccessor release
        dsimp only
        by_cases hzero : Function.update c succ (c succ - 1) succ = 0
        · rw [if_pos (hlast.mpr hzero), if_pos hzero]
          rfl
        · rw [if_neg (fun h => hzero (hlast.mp h)), if_neg hzero]
      have hpair : releaseSuccessor M (deg, queue) succ
          = (deg.modify succ (· - 1), (release (place M) (c, queue) succ).2) :=
        Prod.ext hfst hsnd
      have hpair' : release (place M) (c, queue) succ
          = (Function.update c succ (c succ - 1), (release (place M) (c, queue) succ).2) :=
        Prod.ext hfst' rfl
      rw [List.foldl_cons, List.foldl_cons, hpair, hpair']
      exact ih _ _ _ hdeg' fun i hi => hedges i (List.mem_cons_of_mem succ hi)

/-- **The loop** sorts until the queue is empty. -/
theorem kahnLoop_spec {n : Nat} {preds : Nat → List Nat} {successors : List (List Nat)}
    (hmirrors : ∀ p < n, ∃ s, successors[p]? = some s ∧
      ∀ i, s.count i = if i < n then (preds i).count p else 0) :
    ∀ (fuel : Nat) (deg : List Nat) (c : Nat → Nat) (queue sorted : List Nat),
      (∀ i < n, deg[i]? = some (c i)) → Tracks (List.range n) preds c queue sorted →
        n ≤ sorted.length + fuel →
          ∃ c', Tracks (List.range n) preds c' []
            (kahnLoop M successors fuel deg queue sorted) := by
  intro fuel
  induction fuel with
  | zero =>
      intro deg c queue sorted _ h hfuel
      have hlen := h.length_le
      rw [List.length_range] at hlen
      have hempty : queue = [] := List.eq_nil_of_length_eq_zero (by omega)
      exact ⟨c, hempty ▸ h⟩
  | succ fuel ih =>
      intro deg c queue sorted hdeg h hfuel
      rw [kahnLoop]
      cases hlast : queue.getLast? with
      | none => exact ⟨c, List.getLast?_eq_none_iff.mp hlast ▸ h⟩
      | some node =>
          obtain ⟨init, rfl⟩ := List.getLast?_eq_some_iff.mp hlast
          have hnode := List.mem_range.mp (h.bound node (Or.inl (by simp)))
          obtain ⟨edges, hedges, hcount⟩ := hmirrors node hnode
          dsimp only
          rw [hedges, Option.getD_some, List.dropLast_concat]
          have hcount' : ∀ i, edges.count i
              = if i ∈ List.range n then (preds i).count node else 0 := fun i => by
            simp only [hcount, List.mem_range]
          have hround := h.round (place M) (fun q i => partitionPoint_le _ q) hcount'
          obtain ⟨hdeg', hqueue⟩ := foldl_releaseSuccessor (M := M) edges deg c init hdeg
            fun i hi => by
              have hpos := List.count_pos_iff.mpr hi
              rw [hcount] at hpos
              by_contra hlt
              rw [if_neg hlt] at hpos
              exact absurd hpos (Nat.lt_irrefl 0)
          rw [hqueue]
          refine ih _ _ _ _ hdeg' hround ?_
          rw [List.length_append, List.length_singleton]
          omega

/-- **The second phase** sorts the indices, cited messages first. -/
theorem sortedIndices_spec
    (hacyclic : ∀ i, ¬ Relation.TransGen (fun p i => i < M.length ∧ p ∈ preds M i) i i) :
    (sortedIndices M).Nodup ∧ (∀ i, i ∈ sortedIndices M ↔ i < M.length) ∧
      ∀ pre i post, sortedIndices M = pre ++ i :: post → ∀ p ∈ preds M i, p ∈ pre := by
  unfold sortedIndices
  dsimp only
  have hqueue := List.perm_insertionSort (fun a b => hashAt M a ≤ hashAt M b)
    ((List.range M.length).filter fun i => (buildEdges M).in_degree[i]? = some 0)
  have hstart : Tracks (List.range M.length) (preds M) (fun i => (preds M i).length)
      (((List.range M.length).filter fun i =>
        (buildEdges M).in_degree[i]? = some 0).insertionSort
          fun a b => hashAt M a ≤ hashAt M b) [] := by
    refine tracks_start (fun i _ => rfl) (hqueue.nodup_iff.mpr (List.nodup_range.filter _))
      fun i => ?_
    rw [hqueue.mem_iff, List.mem_filter]
    refine and_congr_right fun hi => ?_
    rw [decide_eq_true_eq, buildEdges_spec.1 i (List.mem_range.mp hi), Option.some.injEq,
      List.length_eq_zero_iff]
  obtain ⟨c, hend⟩ := kahnLoop_spec (M := M) buildEdges_spec.2 M.length _ _ _ _
    buildEdges_spec.1 hstart (Nat.le_add_left _ _)
  have hclosed : ∀ i ∈ List.range M.length, ∀ p ∈ preds M i, p ∈ List.range M.length := by
    intro i _ p hp
    unfold preds at hp
    cases he : M[i]? with
    | none => simp [he] at hp
    | some entry =>
        rw [he] at hp
        obtain ⟨g, m', hat, -⟩ := mem_predIndices hp
        exact List.mem_range.mpr (List.getElem?_eq_some_iff.mp hat).1
  have hall := hend.complete hclosed (by simpa only [List.mem_range] using hacyclic)
  exact ⟨hend.sorted_nodup,
    fun i => ⟨fun hi => List.mem_range.mp (hend.bound i (Or.inr hi)),
      fun hi => hall i (List.mem_range.mpr hi)⟩, hend.ordered⟩

end Order

-- ── Extraction ────

/-- The citations of a thread never lead back. -/
def AcyclicCitations (store : MessageStore) (t : ThreadId) : Prop :=
  ∀ h, ¬ Relation.TransGen (fun a b => b ∈ citations store t a) h h

/-- The messages of a bundle are the closure of its target, each once, cited messages first. -/
structure CompleteOrder (store : MessageStore) (target : ContentHash) (t : ThreadId)
    (b : CausalClosureBundle) : Prop where
  targeted : b.target = target
  threaded : b.thread = t
  mem_iff : ∀ h, h ∈ b.messages.map Prod.fst ↔ Reaches (citations store t) target h
  stored : ∀ h m, (h, m) ∈ b.messages → store.lookupInThread h t = some m
  nodup : (b.messages.map Prod.fst).Nodup
  ordered : ∀ pre h m post, b.messages = pre ++ (h, m) :: post →
    ∀ g ∈ citedHashes m.causedBy, g ∈ pre.map Prod.fst

theorem eraseDups_of_nodup {xs : List Nat} (h : xs.Nodup) : xs.eraseDups = xs := by
  induction xs with
  | nil => rfl
  | cons x xs ih =>
      obtain ⟨hx, hxs⟩ := List.nodup_cons.mp h
      rw [List.eraseDups_cons, List.filter_eq_self.mpr, ih hxs]
      intro y hy
      have hne : y ≠ x := fun h => hx (h ▸ hy)
      simpa using hne

section Extract

variable {store : MessageStore} {t : ThreadId} {target : ContentHash}

/-- What an extraction returned. -/
theorem extract_ok_iff {b : CausalClosureBundle} :
    CausalClosureBundle.extract target t store = .ok b ↔
      (store.lookupInThread target t).isSome = true ∧ (collectFrom store t target).missing = [] ∧
        b = ⟨target, t, (sortedIndices (collectFrom store t target).hash_to_msg).eraseDups.filterMap
          fun i => (collectFrom store t target).hash_to_msg[i]?⟩ := by
  unfold CausalClosureBundle.extract
  cases store.lookupInThread target t with
  | none => exact ⟨(nomatch ·), fun h => nomatch h.1⟩
  | some m =>
      dsimp only
      by_cases hmissing : (collectFrom store t target).missing = []
      · rw [if_neg (not_not_intro hmissing)]
        exact ⟨fun h => ⟨rfl, hmissing, (Except.ok.inj h).symm⟩, fun h => congrArg _ h.2.2.symm⟩
      · rw [if_pos hmissing]
        exact ⟨(nomatch ·), fun h => absurd h.2.1 hmissing⟩

/-- Citations of a collected message. -/
theorem citations_of_lookup {h : ContentHash} {m : Message}
    (hl : store.lookupInThread h t = some m) : citations store t h = citedHashes m.causedBy := by
  unfold citations
  rw [hl]
  rfl

/-- Index edges are citations, so an acyclic citation relation has acyclic index edges. -/
theorem preds_acyclic (target : ContentHash) (hacyclic : AcyclicCitations store t) (i : Nat) :
    ¬ Relation.TransGen (fun p i => i < (collectFrom store t target).hash_to_msg.length ∧
      p ∈ preds (collectFrom store t target).hash_to_msg i) i i := by
  obtain ⟨-, hmem⟩ := collectFrom_spec (t := t) store target
  generalize (collectFrom store t target).hash_to_msg = M at hmem ⊢
  intro hcycle
  have hlift : Relation.TransGen (fun a b => a ∈ citations store t b)
      (hashAt M i) (hashAt M i) := by
    refine hcycle.lift (hashAt M) fun p j ⟨hj, hp⟩ => ?_
    unfold preds at hp
    rw [List.getElem?_eq_getElem hj] at hp
    obtain ⟨g, m', hat, hg⟩ := mem_predIndices hp
    have hstored := ((hmem M[j].1 M[j].2).mp (List.getElem_mem hj)).2
    show hashAt M p ∈ citations store t (hashAt M j)
    unfold hashAt
    rw [hat, List.getElem?_eq_getElem hj, Option.map_some, Option.map_some, Option.getD_some,
      Option.getD_some, citations_of_lookup hstored]
    exact hg
  exact hacyclic _ (Relation.transGen_swap.mp hlift)

/-- **An extraction is a complete topological order.** -/
theorem extract_completeOrder (hacyclic : AcyclicCitations store t) {b : CausalClosureBundle}
    (hb : CausalClosureBundle.extract target t store = .ok b) :
    CompleteOrder store target t b := by
  obtain ⟨-, hmissing, rfl⟩ := extract_ok_iff.mp hb
  have hcomplete : ∀ h, Reaches (citations store t) target h →
      ∃ m, store.lookupInThread h t = some m := by
    intro h hh
    refine Option.ne_none_iff_exists'.mp fun hnone => ?_
    have hin := (mem_missing_iff store).mpr ⟨hh, hnone⟩
    rw [hmissing] at hin
    exact nomatch hin
  obtain ⟨hnodup, hmem⟩ := collectFrom_spec (t := t) store target
  obtain ⟨hsorted, hindex, hpreds⟩ :=
    sortedIndices_spec (preds_acyclic target hacyclic)
  rw [eraseDups_of_nodup hsorted]
  generalize (collectFrom store t target).hash_to_msg = M at hmem hnodup hsorted hindex hpreds ⊢
  have hin : ∀ h m, (h, m) ∈ (sortedIndices M).filterMap (fun i => M[i]?) ↔
      Reaches (citations store t) target h ∧ store.lookupInThread h t = some m := by
    intro h m
    rw [← hmem, List.mem_filterMap]
    constructor
    · exact fun ⟨i, _, hi⟩ => List.mem_of_getElem? hi
    · intro h
      obtain ⟨i, hi⟩ := List.mem_iff_getElem?.mp h
      exact ⟨i, (hindex i).mpr (List.getElem?_eq_some_iff.mp hi).1, hi⟩
  refine ⟨rfl, rfl, fun h => ?_, fun h m hhm => ((hin h m).mp hhm).2, ?_, ?_⟩
  · rw [List.mem_map]
    constructor
    · rintro ⟨⟨h', m⟩, hhm, rfl⟩
      exact ((hin h' m).mp hhm).1
    · intro hh
      obtain ⟨m, hm⟩ := hcomplete h hh
      exact ⟨(h, m), (hin h m).mpr ⟨hh, hm⟩, rfl⟩
  · -- distinct indices hold distinct hashes
    rw [List.map_filterMap]
    refine hsorted.filterMap fun i j h hi hj => ?_
    have hat : ∀ k : Nat, (M[k]?).map Prod.fst = (M.map Prod.fst)[k]? := by
      intro k
      rw [List.getElem?_map]
    rw [Option.mem_def, hat] at hi hj
    exact (List.getElem?_inj (List.getElem?_eq_some_iff.mp hi).1 hnodup).mp (hi.trans hj.symm)
  · intro pre h m post heq g hg
    obtain ⟨l₁, l₂, hl, rfl, hl₂⟩ := List.filterMap_eq_append_iff.mp heq
    obtain ⟨l₁', i, l₂', rfl, hnone, hi, -⟩ := List.filterMap_eq_cons_iff.mp hl₂
    -- the cited message was collected, at an index before
    obtain ⟨hreach, hstored⟩ := (hmem h m).mp (List.mem_of_getElem? hi)
    have hcite : g ∈ citations store t h := by
      rw [citations_of_lookup hstored]
      exact hg
    have hgreach : Reaches (citations store t) target g := hreach.tail hcite
    obtain ⟨m', hm'⟩ := hcomplete g hgreach
    obtain ⟨p, hp⟩ := List.mem_iff_getElem?.mp ((hmem g m').mpr ⟨hgreach, hm'⟩)
    have hpred : p ∈ preds M i := by
      unfold preds
      rw [hi]
      exact exists_predIndices hnodup hg hp
    have hbefore := hpreds (l₁ ++ l₁') i l₂' (by rw [hl, List.append_assoc]) p hpred
    rcases List.mem_append.mp hbefore with hfirst | hskip
    · exact List.mem_map.mpr ⟨(g, m'), List.mem_filterMap.mpr ⟨p, hfirst, hp⟩, rfl⟩
    · have hpnone := hnone p hskip
      rw [hp] at hpnone
      exact nomatch hpnone

/-- A bundle that lists cited messages first is complete. -/
theorem CompleteOrder.verifyCompleteness {b : CausalClosureBundle}
    (h : CompleteOrder store target t b) : b.verifyCompleteness = .ok () := by
  unfold CausalClosureBundle.verifyCompleteness
  dsimp only
  rw [if_pos]
  refine List.flatMap_eq_nil_iff.mpr fun entry hentry => ?_
  obtain ⟨pre, post, heq⟩ := List.append_of_mem hentry
  rw [List.map_eq_nil_iff, List.filter_eq_nil_iff]
  intro g hg
  have hpre := h.ordered pre entry.1 entry.2 post heq g hg
  rw [decide_eq_true_eq, not_not, heq, List.map_append]
  exact List.mem_append_left _ hpre

end Extract

-- ── Merging ────

section Merge

variable {t : ThreadId} {target : ContentHash}

/-- **A merge** files each message of the bundle that is not filed yet. -/
theorem filed_merge (b : CausalClosureBundle) (s : ThreadedMessageStore) (h : ContentHash) :
    CbclStoreUnion.filed (b.merge s).2 h = (CbclStoreUnion.filed s h).or
      (b.messages.findSome? fun entry =>
        if entry.1 = h then some (b.thread, entry.2) else none) := by
  have hrun : ∀ (entries : List (ContentHash × Message))
      (acc : CausalClosureBundle.MergeResult × ThreadedMessageStore),
      CbclStoreUnion.filed (entries.foldl (CausalClosureBundle.mergeMessage b.thread) acc).2 h
        = (CbclStoreUnion.filed acc.2 h).or (entries.findSome? fun entry =>
          if entry.1 = h then some (b.thread, entry.2) else none) := by
    intro entries
    induction entries with
    | nil =>
        intro acc
        exact Option.or_none.symm
    | cons entry entries ih =>
        intro acc
        have hstep : (CausalClosureBundle.mergeMessage b.thread acc entry).2
            = (acc.2.append entry.1 b.thread entry.2).2 := by
          unfold CausalClosureBundle.mergeMessage
          dsimp only
          split <;> rfl
        rw [List.foldl_cons, ih, hstep, CbclStoreUnion.filed_append, List.findSome?_cons,
          Option.or_assoc]
        congr 1
        by_cases hh : entry.1 = h
        · rw [if_pos hh]
          rfl
        · rw [if_neg hh]
          rfl
  exact hrun b.messages (⟨0, 0⟩, s)

/-- What is filed under the hashes of a bundle is filed in its thread, as the bundle has it. -/
def HoldsAlike (s : ThreadedMessageStore) (b : CausalClosureBundle) : Prop :=
  ∀ h m t' m', (h, m) ∈ b.messages → CbclStoreUnion.filed s h = some (t', m') →
    t' = b.thread ∧ m' = m

/-- After a merge the store answers for the hashes of the bundle as the bundle does. -/
theorem lookup_merge {b : CausalClosureBundle} (hnodup : (b.messages.map Prod.fst).Nodup)
    {s : ThreadedMessageStore} (hs : HoldsAlike s b) {h : ContentHash} {m : Message}
    (hm : (h, m) ∈ b.messages) : (b.merge s).2.lookupInThread h b.thread = some m := by
  have hfiled : CbclStoreUnion.filed (b.merge s).2 h = some (b.thread, m) := by
    rw [filed_merge]
    cases hf : CbclStoreUnion.filed s h with
    | some f =>
        obtain ⟨t', m'⟩ := f
        obtain ⟨rfl, rfl⟩ := hs h m t' m' hm hf
        rfl
    | none =>
        rw [Option.none_or]
        obtain ⟨pre, post, heq⟩ := List.append_of_mem hm
        rw [heq, List.findSome?_append, List.findSome?_cons, if_pos rfl]
        have hpre : pre.findSome? (fun entry =>
            if entry.1 = h then some (b.thread, entry.2) else none) = none := by
          refine List.findSome?_eq_none_iff.mpr fun entry hentry => if_neg fun hh => ?_
          rw [heq, List.map_append] at hnodup
          exact (List.nodup_append.mp hnodup).2.2 entry.1 (List.mem_map_of_mem hentry) h
            (by simp) hh
        rw [hpre]
        rfl
  rw [CbclStoreUnion.lookupInThread_eq, hfiled, Option.filter_some, if_pos (decide_eq_true rfl)]
  rfl

/-- **Extraction from a store that answers alike** for the closure gives the same bundle. -/
theorem extract_congr {S S' : MessageStore}
    (hlookup : ∀ h, Reaches (citations S t) target h →
      S.lookupInThread h t = S'.lookupInThread h t) :
    CausalClosureBundle.extract target t S = CausalClosureBundle.extract target t S' := by
  have hcollect : collectFrom S t target = collectFrom S' t target := by
    refine collect_congr hlookup (fun h hh g hg => hh.tail hg) _ _ [target] _ le_rfl le_rfl ?_
    intro h hh
    rw [List.mem_singleton.mp hh]
    exact Relation.ReflTransGen.refl
  unfold CausalClosureBundle.extract
  rw [hcollect, hlookup target Relation.ReflTransGen.refl]

/-- **Extraction and merging.**  Over acyclic citations a bundle extracted is a complete
    topological order of the closure and complete, and a store that holds nothing else under its
    hashes gives it back after a merge. -/
theorem extract_merge_extract (store : MessageStore) (t : ThreadId) (target : ContentHash)
    (b : CausalClosureBundle) (hacyclic : AcyclicCitations store t)
    (hb : CausalClosureBundle.extract target t store = .ok b) :
    CompleteOrder store target t b ∧ b.verifyCompleteness = .ok () ∧
      ∀ s : ThreadedMessageStore, HoldsAlike s b →
        CausalClosureBundle.extract target t (b.merge s).2.toStore = .ok b := by
  have hcomplete := extract_completeOrder hacyclic hb
  refine ⟨hcomplete, hcomplete.verifyCompleteness, fun s hs => ?_⟩
  rw [← hb]
  refine (extract_congr fun h hh => ?_).symm
  obtain ⟨⟨h', m⟩, hm, rfl⟩ := List.mem_map.mp ((hcomplete.mem_iff h).mpr hh)
  rw [hcomplete.stored h' m hm]
  have hmerged := lookup_merge hcomplete.nodup hs hm
  rw [hcomplete.threaded] at hmerged
  exact hmerged.symm

/-- Citations of earlier hashes only are acyclic. -/
theorem acyclic_of_descending {store : MessageStore} {t : ThreadId}
    (h : ∀ a ∈ store.hashes, ∀ b ∈ citations store t a, b < a) : AcyclicCitations store t := by
  have hstep : ∀ a b, b ∈ citations store t a → b < a := by
    intro a b hb
    by_cases ha : a ∈ store.hashes
    · exact h a ha b hb
    · rw [citations_support store t a ha] at hb
      exact nomatch hb
  intro a hcycle
  have hlt : ∀ b, Relation.TransGen (fun a b => b ∈ citations store t a) a b → b < a := by
    intro b hb
    induction hb with
    | single hb => exact hstep _ _ hb
    | tail _ hb ih => exact (hstep _ _ hb).trans ih
  exact lt_irrefl a (hlt a hcycle)

/-- A message of the thread `t` with its citations. -/
def cites (caused_by : CausedBy) : Message :=
  .simple (.core .tell) none (.list []) [] (some "t") none (some caused_by)

/-- A diamond, whose tip cites one side twice. -/
def diamond : ThreadedMessageStore :=
  appendAll [("a", "t", cites .begin), ("b", "t", cites (.single "a")),
    ("c", "t", cites (.multiple ["a", "a"])), ("d", "t", cites (.multiple ["b", "c", "b"]))]

/-- The closure of the tip. -/
def diamondBundle : CausalClosureBundle :=
  ⟨"d", "t", [("a", cites .begin), ("b", cites (.single "a")), ("c", cites (.multiple ["a", "a"])),
    ("d", cites (.multiple ["b", "c", "b"]))]⟩

theorem extract_merge_extract_diamond :
    CompleteOrder diamond.toStore "d" "t" diamondBundle ∧
      diamondBundle.verifyCompleteness = .ok () ∧
      ∀ s : ThreadedMessageStore, HoldsAlike s diamondBundle →
        CausalClosureBundle.extract "d" "t" (diamondBundle.merge s).2.toStore
          = .ok diamondBundle :=
  extract_merge_extract diamond.toStore "t" "d" diamondBundle
    (acyclic_of_descending (by decide))
    (CbclExcept.toOption_eq_some_iff.mp (by decide))

/-- A store that already has another message under the hash of a root, in the thread. -/
def heldRoot : ThreadedMessageStore := appendAll [("a", "t", cites (.single "z"))]

/-- The held message stays, and the merged store does not give the bundle back. -/
theorem merge_keeps_held :
    ¬ ∀ (store : MessageStore) (t : ThreadId) (target : ContentHash) (b : CausalClosureBundle),
      AcyclicCitations store t → CausalClosureBundle.extract target t store = .ok b →
        CompleteOrder store target t b ∧ b.verifyCompleteness = .ok () ∧
          ∀ s : ThreadedMessageStore,
            (∀ h ∈ b.messages.map Prod.fst, ∀ t' m,
              CbclStoreUnion.filed s h = some (t', m) → t' = t) →
            CausalClosureBundle.extract target t (b.merge s).2.toStore = .ok b := by
  intro hall
  have hextract : (CausalClosureBundle.extract "d" "t" diamond.toStore).toOption
      = some diamondBundle := by decide
  obtain ⟨-, -, hmerge⟩ := hall diamond.toStore "t" "d" diamondBundle
    (acyclic_of_descending (by decide)) (CbclExcept.toOption_eq_some_iff.mp hextract)
  have hheld : ∀ h ∈ diamondBundle.messages.map Prod.fst,
      ((CbclStoreUnion.filed heldRoot h).map Prod.fst).getD "t" = "t" := by decide
  have hagain := hmerge heldRoot fun h hh t' m hfiled => by
    have hthread := hheld h hh
    rw [hfiled] at hthread
    exact hthread
  have hdiffers : (CausalClosureBundle.extract "d" "t"
      (diamondBundle.merge heldRoot).2.toStore).toOption ≠ some diamondBundle := by decide
  exact hdiffers (CbclExcept.toOption_eq_some_iff.mpr hagain)

/-- The tip of the diamond reaches its root by two ways, which gives no message twice. -/
example : (diamondBundle.messages.map Prod.fst).Nodup := by decide

end Merge

end CbclBundle
