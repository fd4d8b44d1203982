import Cbcl.QuorumIdentityProofs
import Cbcl.ReplicaProofs

/-!
# Descent in the version graph of a replica

`Reached` are the replicas a log leads to.  `descends` walks from a version to its ancestors within
a bound that covers the whole graph, so where the parents of known versions are known it answers
exactly whether a version is reached along parents.
-/

namespace CbclQuorum

open CbclMessage CbclAct CbclTreeMap CbclExcept CbclWorklist
open CbclEscrow (Ownership checked)

-- ── Descent ────

/-- The parents of a version, none where it is unknown. -/
def parentsOf (r : Replica) (id : String) : List String :=
  ((r.manifest? id).map fun m => m.parents.toList).getD []

/-- The parents of known versions are known. -/
def Closed (r : Replica) : Prop :=
  ∀ (id : String) (m : VersionManifest), r.manifest? id = some m →
    ∀ p ∈ m.parents, ∃ m', r.manifest? p = some m'

section Descent

variable {r : Replica}

theorem parentsOf_of_manifest {id : String} {m : VersionManifest} (h : r.manifest? id = some m) :
    parentsOf r id = m.parents.toList := by
  unfold parentsOf
  rw [h]
  rfl

/-- Only retained versions have parents. -/
theorem parentsOf_eq_nil {id : String} (h : id ∉ r.state.versions.keys) : parentsOf r id = [] := by
  have hnone : r.state.versions[id]? = none := by
    rw [mem_keys_iff] at h
    cases hv : r.state.versions[id]? with
    | none => rfl
    | some v => exact absurd ⟨v, hv⟩ h
  unfold parentsOf Replica.manifest?
  rw [hnone]
  cases hroot : r.context.root_manifests[id]? with
  | none => rfl
  | some m =>
      obtain ⟨a, b, -, -, rfl⟩ := r.context.root_manifest id m hroot
      rfl

/-- The walk finds the root exactly when it would be visited. -/
theorem descendLoop_eq (hclosed : Closed r) (root : String) :
    ∀ (n : Nat) (todo seen : List String), root ∉ seen →
      (∀ x ∈ todo, ∃ m, r.manifest? x = some m) →
      potential (parentsOf r) r.state.versions.keys todo seen ≤ n →
      r.descendLoop root n todo seen =
        .ok (decide (root ∈ exploreWith (pushAll (parentsOf r)) n todo seen)) := by
  intro n
  induction n with
  | zero =>
      intro todo seen hseen _ _
      simp [Replica.descendLoop, exploreWith, hseen]
  | succ n ih =>
      intro todo seen hseen hknown hpot
      cases todo with
      | nil => simp [Replica.descendLoop, exploreWith, hseen]
      | cons id todo =>
          rw [Replica.descendLoop]
          by_cases hroot : id = root
          · rw [if_pos hroot]
            have hmem := exploreWith_start (pushes_pushAll (parentsOf r))
              (fun x hx => parentsOf_eq_nil hx) (n + 1) (id :: todo) seen hpot id
              (Or.inr (List.mem_cons_self ..))
            rw [hroot] at hmem ⊢
            simp [hmem]
          · rw [if_neg hroot, exploreWith]
            by_cases hid : id ∈ seen
            · rw [if_pos hid, if_pos hid]
              refine ih todo seen hseen (fun x hx => hknown x (List.mem_cons_of_mem _ hx)) ?_
              unfold potential at hpot ⊢
              simp only [List.length_cons] at hpot
              omega
            · rw [if_neg hid, if_neg hid]
              obtain ⟨m, hm⟩ := hknown id (List.mem_cons_self ..)
              have hpush : pushAll (parentsOf r) (id :: seen) id = m.parents.toList.reverse := by
                rw [pushAll, parentsOf_of_manifest hm]
              rw [epoch_ok_iff.mpr hm, hpush]
              show r.descendLoop root n (m.parents.toList.reverse ++ todo) (id :: seen) = _
              refine ih _ (id :: seen) ?_ ?_ ?_
              · intro hmem
                rcases List.mem_cons.mp hmem with heq | hmem
                · exact hroot heq.symm
                · exact hseen hmem
              · intro x hx
                rcases List.mem_append.mp hx with hx | hx
                · exact hclosed id m hm x
                    (Std.ExtTreeSet.mem_toList.mp (List.mem_reverse.mp hx))
                · exact hknown x (List.mem_cons_of_mem _ hx)
              · have := potential_visit (pushes_pushAll (parentsOf r))
                  (fun x hx => parentsOf_eq_nil hx) todo hid
                rw [hpush] at this
                omega

/-- The bound of a walk covers what it may pop. -/
theorem potential_le_walkBound (version : String) :
    potential (parentsOf r) r.state.versions.keys [version] [] ≤ r.walkBound := by
  unfold potential Replica.walkBound
  have hall : r.state.versions.keys.filter (· ∉ ([] : List String)) = r.state.versions.keys := by
    simp
  rw [hall, List.length_singleton]
  have hsum : (r.state.versions.keys.map fun x => (parentsOf r x).length).sum
      = ((valuesOf r.state.versions).map fun v => v.manifest.parents.size).sum := by
    unfold valuesOf
    rw [← Std.ExtTreeMap.map_fst_toList_eq_keys, List.map_map, List.map_map]
    congr 1
    refine List.map_congr_left ?_
    rintro ⟨id, v⟩ hmem
    have hv : r.state.versions[id]? = some v :=
      Std.ExtTreeMap.mem_toList_iff_getElem?_eq_some.mp hmem
    have hm : r.manifest? id = some v.manifest := by
      unfold Replica.manifest?
      rw [hv]
    simp only [Function.comp_apply, parentsOf_of_manifest hm]
    exact Std.ExtTreeSet.length_toList
  omega

/-- **Descent is reachability along parents.** -/
theorem descends_spec (hclosed : Closed r) {version root : String}
    (hknown : ∃ m, r.manifest? version = some m) :
    ∃ b, r.descends version root = .ok b ∧
      (b = true ↔ Reaches (parentsOf r) version root) := by
  refine ⟨_, descendLoop_eq hclosed root r.walkBound [version] [] (List.not_mem_nil) ?_
    (potential_le_walkBound version), ?_⟩
  · intro x hx
    rw [List.mem_singleton.mp hx]
    exact hknown
  · rw [decide_eq_true_eq]
    constructor
    · intro hmem
      rcases exploreWith_sound (pushes_pushAll (parentsOf r)) _ _ _ root hmem with h | ⟨x, hx, hr⟩
      · exact nomatch h
      · rw [List.mem_singleton.mp hx] at hr
        exact hr
    · intro hr
      induction hr with
      | refl =>
          exact exploreWith_start (pushes_pushAll (parentsOf r))
            (fun x hx => parentsOf_eq_nil hx) _ _ _ (potential_le_walkBound version) version
            (Or.inr (List.mem_singleton_self _))
      | tail _ hstep ih =>
          exact exploreWith_closed (pushes_pushAll (parentsOf r))
            (fun x hx => parentsOf_eq_nil hx) _ _ _ (potential_le_walkBound version)
            (fun _ h => nomatch h) _ ih _ hstep

end Descent

-- ── Replicas of a log ────

/-- The replicas a log leads to.  An event that repeats what a replica has changes nothing but the
    length of the log. -/
inductive Reached (auth : Authentication) (c : Context) (validator : String) (limits : Limits) :
    Replica → List Event → Prop where
  | fresh : Reached auth c validator limits (.fresh c validator limits) [.initialized]
  | step {r : Replica} {log : List Event} {event : Event} {u : Update}
      (prev : Reached auth c validator limits r log)
      (prepared : r.prepare auth event = .ok (some u)) :
      Reached auth c validator limits (r.advance u) (log ++ [event])
  | again {r : Replica} {log : List Event} {event : Event}
      (prev : Reached auth c validator limits r log)
      (prepared : r.prepare auth event = .ok none) :
      Reached auth c validator limits { r with sequence := r.sequence + 1 } (log ++ [event])

section Replicas

variable {auth : Authentication} {c : Context} {validator : String} {limits : Limits}
  {r : Replica} {log : List Event}

/-- What a replica of a log was started with. -/
theorem Reached.start (h : Reached auth c validator limits r log) :
    r.context = c ∧ r.validator = validator ∧ r.limits = limits ∧ r.sequence = log.length := by
  induction h with
  | fresh => exact ⟨rfl, rfl, rfl, rfl⟩
  | step prev prepared ih =>
      obtain ⟨hc, hv, hl, hs⟩ := ih
      refine ⟨hc, hv, hl, ?_⟩
      rw [List.length_append, ← hs]
      rfl
  | again prev prepared ih =>
      obtain ⟨hc, hv, hl, hs⟩ := ih
      refine ⟨hc, hv, hl, ?_⟩
      rw [List.length_append, ← hs]
      rfl

/-- A version's parents are known. -/
theorem parent_known {m : VersionManifest} (h : r.checkVersionManifest m = .ok ()) {p : String}
    (hp : p ∈ m.parents) : ∃ m', r.manifest? p = some m' ∧
      (m'.phase = .owned → m.phase = .owned) ∧ m'.account = m.account ∧ m'.rank < m.rank := by
  unfold Replica.checkVersionManifest at h
  obtain ⟨⟨⟩, -, h⟩ := bind_ok_iff.mp h
  obtain ⟨⟨⟩, hparents, -⟩ := bind_ok_iff.mp h
  have hcheck := forM_ok_iff.mp hparents p (Std.ExtTreeSet.mem_toList.mpr hp)
  unfold Replica.checkParent at hcheck
  obtain ⟨m', hm', hcheck⟩ := bind_ok_iff.mp hcheck
  obtain ⟨hphase, haccount, hrank, -⟩ := ensure_ok_iff.mp hcheck
  exact ⟨m', epoch_ok_iff.mp hm', hphase, haccount, hrank⟩

end Replicas

end CbclQuorum
