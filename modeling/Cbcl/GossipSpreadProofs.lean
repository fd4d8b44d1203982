import Cbcl.GossipProofs
import Cbcl.SpreadProofs

/-!
# How far gossip spreads

The search behind `is_connected` finds the agents that a row of links leads to, so it answers
whether every two agents are joined.  A simulation infects, round by round, whoever the dialect has
been passed to along successful transmissions: it ends with the first round after which everybody
is reached, or with the last one allowed.  Where every transmission succeeds, one round for every
other agent is enough to reach a connected network.  Peers are selected among the neighbours, as
many as asked for and none twice, whatever is drawn.
-/

namespace CbclGossipSpread

open CbclMessage CbclDialect CbclTreeMap CbclRelationMap CbclGossip CbclSpread CbclWorklist

-- ── Connectivity ────

/-- A search finds nothing twice. -/
theorem nodup_exploreWith {push : List String → String → List String} :
    ∀ (n : Nat) (todo seen : List String), seen.Nodup → (exploreWith push n todo seen).Nodup := by
  intro n
  induction n with
  | zero => exact fun _ _ h => h
  | succ n ih =>
      intro todo seen h
      cases todo with
      | nil => exact h
      | cons x todo =>
          rw [exploreWith]
          by_cases hx : x ∈ seen
          · rw [if_pos hx]
            exact ih _ _ h
          · rw [if_neg hx]
            exact ih _ _ (List.nodup_cons.mpr ⟨hx, h⟩)

/-- The search finds what a row of links leads to. -/
theorem mem_visited_iff {net : GossipNetwork} {start id : String} :
    id ∈ visited net start ↔ Reaches (neighbors net) start id := by
  have hsup : ∀ a, a ∉ net.topology.keys → neighbors net a = [] := fun a ha => by
    unfold neighbors
    rw [Std.ExtTreeMap.getElem?_eq_none fun hmem => ha (Std.ExtTreeMap.mem_keys.mpr hmem)]
    rfl
  refine (mem_exploreWith_iff (pushes_pushUnseen _) hsup).trans ⟨?_, fun h => ?_⟩
  · rintro ⟨x, hx, h⟩
    exact List.mem_singleton.mp hx ▸ h
  · exact ⟨start, List.mem_singleton_self _, h⟩

/-- A row of links leads back. -/
theorem reaches_symm {net : GossipNetwork} (h : Wired net) {a b : String}
    (hab : Reaches (neighbors net) a b) : Reaches (neighbors net) b a := by
  induction hab with
  | refl => exact .refl
  | tail _ hlink ih => exact ih.head (h.symmetric _ _ hlink)

/-- A row of links stays among the agents. -/
theorem reaches_within {net : GossipNetwork} (h : Wired net) {a b : String} (ha : a ∈ net.agents)
    (hab : Reaches (neighbors net) a b) : b ∈ net.agents := by
  induction hab with
  | refl => exact ha
  | tail _ hlink _ => exact (h.within _ _ hlink).2

/-- All agents are found from the first one exactly if every two of them are joined. -/
theorem isConnected_iff {net : GossipNetwork} (h : Wired net) :
    isConnected net = true ↔
      ∀ a ∈ net.agents, ∀ b ∈ net.agents, Reaches (neighbors net) a b := by
  unfold isConnected
  cases hkeys : net.agents.keys with
  | nil =>
      refine iff_of_true rfl fun a ha => ?_
      rw [← Std.ExtTreeMap.mem_keys, hkeys] at ha
      exact absurd ha List.not_mem_nil
  | cons start rest =>
      dsimp only [List.head?_cons]
      have hstart : start ∈ net.agents := by
        rw [← Std.ExtTreeMap.mem_keys, hkeys]
        exact List.mem_cons_self ..
      have hnodup : (visited net start).Nodup := nodup_exploreWith _ _ _ List.nodup_nil
      have hsub : visited net start ⊆ net.agents.keys := fun id hid =>
        Std.ExtTreeMap.mem_keys.mpr (reaches_within h hstart (mem_visited_iff.mp hid))
      rw [beq_iff_eq, ← Std.ExtTreeMap.length_keys]
      constructor
      · intro hlength a ha b hb
        have hperm := (hnodup.subperm hsub).perm_of_length_le (Nat.le_of_eq hlength.symm)
        have hall : ∀ id ∈ net.agents, Reaches (neighbors net) start id := fun id hid =>
          mem_visited_iff.mp (hperm.mem_iff.mpr (Std.ExtTreeMap.mem_keys.mpr hid))
        exact (reaches_symm h (hall a ha)).trans (hall b hb)
      · intro hjoined
        refine ((List.perm_ext_iff_of_nodup hnodup (nodup_keys _)).mpr fun id => ?_).length_eq
        refine ⟨fun hid => hsub hid, fun hid => mem_visited_iff.mpr ?_⟩
        exact hjoined start hstart id (Std.ExtTreeMap.mem_keys.mp hid)

/-- **A network is connected exactly if every two of its agents are joined**, whatever was done to
    it before. -/
theorem performAll_isConnected_iff (config : GossipConfig) (ops : List Operation) :
    isConnected (performAll (new config) ops) = true ↔
      ∀ a ∈ (performAll (new config) ops).agents, ∀ b ∈ (performAll (new config) ops).agents,
        Reaches (neighbors (performAll (new config) ops)) a b :=
  isConnected_iff (wired_performAll config ops)

-- ── Peers ────

/-- The neighbours of an agent are distinct. -/
theorem nodup_neighbors (net : GossipNetwork) (id : String) : (neighbors net id).Nodup := by
  unfold neighbors
  cases net.topology[id]? with
  | none => exact List.nodup_nil
  | some ids => exact nodup_toList ids

/-- What is asked of a selection: all neighbours in order if there are no more than asked for, as
    many distinct neighbours as asked for otherwise. -/
def Selects (net : GossipNetwork) (id : String) (k : Nat) (ids : List String) : Prop :=
  if (neighbors net id).length ≤ k then ids = neighbors net id
  else ids.Nodup ∧ ids.length = k ∧ ∀ peer ∈ ids, peer ∈ neighbors net id

/-- A shuffle can bring any distinct neighbours to the front. -/
theorem exists_front {found ids : List String} (hfound : found.Nodup) (hids : ids.Nodup)
    (hsub : ∀ peer ∈ ids, peer ∈ found) (hmore : found ≠ []) :
    ∃ draw, (CbclShuffle.shuffle draw (found.length - 1) found.toArray).toList.take ids.length
      = ids := by
  -- the selection comes first, the neighbours left out come after it
  have hperm : found.Perm (ids ++ found.filter (· ∉ ids)) := by
    refine (List.perm_ext_iff_of_nodup hfound ?_).mpr fun peer => ?_
    · refine List.nodup_append'.mpr ⟨hids, hfound.filter _, fun peer hin hout => ?_⟩
      exact of_decide_eq_true (List.mem_filter.mp hout).2 hin
    · rw [List.mem_append, List.mem_filter, decide_eq_true_iff]
      by_cases hin : peer ∈ ids
      · exact iff_of_true (hsub peer hin) (.inl hin)
      · exact ⟨fun hpeer => .inr ⟨hpeer, hin⟩, fun hor => (hor.resolve_left hin).1⟩
  have hsize : (ids ++ found.filter (· ∉ ids)).toArray.size = found.length := by
    rw [List.size_toArray, ← hperm.length_eq]
  have hpos : 0 < found.length := List.length_pos_iff.mpr hmore
  obtain ⟨draw, hdraw⟩ := CbclShuffle.exists_shuffle (found.length - 1) found.toArray
    (ids ++ found.filter (· ∉ ids)).toArray hperm.toArray (hperm.nodup_iff.mp hfound)
    (by rw [hsize]; omega) fun j hj => by
      have hfar : found.length ≤ j := by omega
      rw [Array.getElem?_eq_none hfar, Array.getElem?_eq_none (by rw [hsize]; exact hfar)]
  refine ⟨draw, ?_⟩
  rw [hdraw]
  exact List.take_left

/-- **What is selected**: whatever the generator draws, all neighbours if there are no more than
    asked for, and as many distinct neighbours as asked for otherwise.  The shuffle itself excludes
    no such list: a generator that may draw anything can draw each. -/
theorem selectPeers_spec (net : GossipNetwork) (id : String) (k : Nat) :
    (∀ draw, Selects net id k (selectPeers net id k draw)) ∧
      ∀ ids, Selects net id k ids → ∃ draw, selectPeers net id k draw = ids := by
  unfold Selects selectPeers
  dsimp only
  have hnodup := nodup_neighbors net id
  by_cases hfew : (neighbors net id).length ≤ k
  · simp only [if_pos hfew]
    exact ⟨fun _ => trivial, fun ids hids => ⟨fun _ => 0, hids.symm⟩⟩
  simp only [if_neg hfew]
  generalize neighbors net id = found at hfew hnodup
  constructor
  · intro draw
    have hperm : (CbclShuffle.shuffle draw (found.length - 1) found.toArray).toList.Perm found :=
      (CbclShuffle.shuffle_perm draw _ found.toArray).toList
    refine ⟨(hperm.nodup_iff.mpr hnodup).sublist (List.take_sublist _ _), ?_, fun peer hpeer => ?_⟩
    · rw [List.length_take, hperm.length_eq]
      omega
    · exact hperm.mem_iff.mp (List.mem_of_mem_take hpeer)
  · rintro ids ⟨hids, rfl, hsub⟩
    refine exists_front hnodup hids hsub fun hnone => hfew ?_
    rw [hnone]
    exact Nat.zero_le _

-- ── One propagation through a round ────

/-- The propagations that stay when some are dropped. -/
theorem getElem?_foldl_dropPropagation {name : String} : ∀ (entries : List (String × Bool))
    (net : GossipNetwork), (entries.foldl dropPropagation net).active_propagations[name]?
      = if name ∈ entries.map Prod.fst then none else net.active_propagations[name]? := by
  intro entries
  induction entries with
  | nil => exact fun _ => rfl
  | cons entry entries ih =>
      intro net
      rw [List.foldl_cons, ih, List.map_cons]
      show (if name ∈ entries.map Prod.fst then none
        else (net.active_propagations.erase entry.1)[name]?) = _
      rw [getElem?_erase_eq]
      by_cases heq : name = entry.1
      · rw [if_pos heq, ite_self, if_pos (List.mem_cons.mpr (.inl heq))]
      · by_cases hin : name ∈ entries.map Prod.fst
        · rw [if_pos hin, if_pos (List.mem_cons_of_mem _ hin)]
        · rw [if_neg heq, if_neg hin, if_neg fun hcons => (List.mem_cons.mp hcons).elim heq hin]

/-- A propagation is dropped when it is over. -/
theorem getElem?_cleanup (net : GossipNetwork) (name : String) :
    (cleanupCompletedPropagations net).active_propagations[name]?
      = net.active_propagations[name]?.filter fun prop =>
          (outcome net.config.max_rounds prop).isNone := by
  unfold cleanupCompletedPropagations
  rw [getElem?_foldl_dropPropagation]
  have hdropped : name ∈ (net.active_propagations.toList.filterMap fun entry =>
        (outcome net.config.max_rounds entry.2).map (entry.1, ·)).map Prod.fst ↔
      ∃ prop, net.active_propagations[name]? = some prop ∧
        (outcome net.config.max_rounds prop).isSome = true := by
    rw [List.mem_map]
    constructor
    · rintro ⟨entry, hentry, rfl⟩
      obtain ⟨⟨key, prop⟩, hmem, hover⟩ := List.mem_filterMap.mp hentry
      obtain ⟨success, hsuccess, rfl⟩ := Option.map_eq_some_iff.mp hover
      exact ⟨prop, Std.ExtTreeMap.mem_toList_iff_getElem?_eq_some.mp hmem,
        Option.isSome_of_eq_some hsuccess⟩
    · rintro ⟨prop, hprop, hover⟩
      obtain ⟨success, hsuccess⟩ := Option.isSome_iff_exists.mp hover
      exact ⟨(name, success), List.mem_filterMap.mpr ⟨(name, prop),
        Std.ExtTreeMap.mem_toList_iff_getElem?_eq_some.mpr hprop, by rw [hsuccess]; rfl⟩, rfl⟩
  simp only [hdropped]
  cases hprop : net.active_propagations[name]? with
  | none => exact ite_self _
  | some prop =>
      rw [Option.filter_some]
      cases hout : outcome net.config.max_rounds prop with
      | none =>
          refine (if_neg ?_).trans (if_pos rfl).symm
          rintro ⟨prop', heq, hsome⟩
          rw [← Option.some.inj heq, hout] at hsome
          cases hsome
      | some success =>
          exact (if_pos ⟨prop, rfl, by rw [hout]; rfl⟩).trans (if_neg Bool.false_ne_true).symm

/-- The configuration of a network does not change in its rounds. -/
theorem stepPropagations_config {hit : String → String → String → Bool} : ∀ (names : List String)
    (net : GossipNetwork), (stepPropagations hit names net).1.config = net.config := by
  intro names
  induction names with
  | nil => exact fun _ => rfl
  | cons name names ih =>
      intro net
      refine (ih _).trans (?_ : (stepPropagation hit net name).1.config = net.config)
      unfold stepPropagation
      cases net.active_propagations[name]? <;> rfl

theorem foldl_dropPropagation_config : ∀ (entries : List (String × Bool)) (net : GossipNetwork),
    (entries.foldl dropPropagation net).config = net.config := by
  intro entries
  induction entries with
  | nil => exact fun _ => rfl
  | cons entry entries ih => exact fun net => ih (dropPropagation net entry)

/-- What a round leaves of a propagation. -/
theorem step_getElem? (net : GossipNetwork) (hit : String → String → String → Bool)
    (name : String) :
    (step net hit).1.active_propagations[name]?
      = (net.active_propagations[name]?.map (infect · (newlyOf net hit name))).filter fun prop =>
          (outcome net.config.max_rounds prop).isNone := by
  have hconfig : (playRounds net hit).1.config = net.config := stepPropagations_config _ net
  rw [← hconfig, ← playRounds_active]
  exact getElem?_cleanup _ name

theorem step_config (net : GossipNetwork) (hit : String → String → String → Bool) :
    (step net hit).1.config = net.config :=
  (foldl_dropPropagation_config _ _).trans (stepPropagations_config _ net)

theorem step_topology (net : GossipNetwork) (hit : String → String → String → Bool) :
    (step net hit).1.topology = net.topology :=
  (foldl_dropPropagation _ _).2.1.trans (stepPropagations_topology _ net)

-- ── A propagation from its announcement on ────

/-- Who passes a dialect to whom in a round: linked agents whose transmission succeeds. -/
def Passes (net : GossipNetwork) (draws : Nat → String → String → String → Bool) (name : String)
    (n : Nat) (a b : String) : Prop :=
  b ∈ neighbors net a ∧ draws n name a b = true

section Run

variable {start net : GossipNetwork} {draws : Nat → String → String → String → Bool}
  {name source : String} {n : Nat}

/-- What a network has become `n` rounds after the announcement: whoever is reached has the
    dialect. -/
structure After (start : GossipNetwork) (draws : Nat → String → String → String → Bool)
    (name source : String) (n : Nat) (net : GossipNetwork) : Prop where
  config : net.config = start.config
  topology : net.topology = start.topology
  agents : ∀ id, id ∈ net.agents ↔ id ∈ start.agents
  has : ∀ id ∈ start.agents, (agentHasDialect net id name = true ↔
    agentHasDialect start id name = true ∨ Reached (Passes start draws name) source n id)

/-- A propagation still on its way: the infected agents are those reached. -/
structure Running (start : GossipNetwork) (draws : Nat → String → String → String → Bool)
    (name source : String) (n : Nat) (net : GossipNetwork) : Prop
    extends After start draws name source n net where
  running : ∃ prop, net.active_propagations[name]? = some prop ∧ prop.round = n ∧
    (∀ id, id ∈ prop.infected ↔ Reached (Passes start draws name) source n id) ∧
    ∀ id, id ∈ prop.susceptible ↔
      id ∈ start.agents ∧ ¬ Reached (Passes start draws name) source n id

/-- Nothing more is played after a round: everybody is reached, or it is the last one allowed. -/
def Over (start : GossipNetwork) (draws : Nat → String → String → String → Bool)
    (name source : String) (n : Nat) : Prop :=
  start.config.max_rounds ≤ n ∨
    ∀ id ∈ start.agents, Reached (Passes start draws name) source n id

/-- Only agents are reached. -/
theorem reached_within (h : Wired start) (hsource : source ∈ start.agents) {id : String}
    (hid : Reached (Passes start draws name) source n id) : id ∈ start.agents :=
  reaches_within h hsource (hid.linked fun _ _ _ hpass => hpass.1)

/-- The announced dialect is on its way. -/
theorem announced_running {dialect : Dialect} (hsource : source ∈ start.agents)
    (hidle : dialect.name ∉ start.active_propagations) :
    (announceDialect start dialect source).2 = some dialect.name ∧
      Running start draws dialect.name source 0 (announceDialect start dialect source).1 := by
  unfold announceDialect
  rw [if_neg (not_not_intro hsource), if_neg hidle]
  refine ⟨rfl, ⟨rfl, rfl, fun id => mem_foldl_install [source] start.agents, fun id hid => ?_⟩,
    _, (getElem?_insert_eq ..).trans (if_pos rfl), rfl, fun id => ?_, fun id => ?_⟩
  · rw [agentHasDialect_iff, agentHasDialect_iff, reached_zero_iff]
    refine (related_modify start.agents source dialect.name id dialect.name).trans ?_
    exact or_congr_right ⟨fun h => h.1, fun h => ⟨h, rfl, hsource⟩⟩
  · rw [mem_insert_iff, reached_zero_iff]
    exact or_iff_left Std.ExtTreeSet.not_mem_empty
  · rw [mem_foldl_insert, List.mem_filter, Std.ExtTreeMap.mem_keys, decide_eq_true_iff,
      reached_zero_iff]
    exact or_iff_left Std.ExtTreeSet.not_mem_empty

/-- A propagation is over when nobody is susceptible or it took its rounds. -/
theorem outcome_isNone_iff {max_rounds : Nat} {prop : PropagationState} :
    (outcome max_rounds prop).isNone = true ↔
      ¬ (max_rounds ≤ prop.round ∨ ∀ id, id ∉ prop.susceptible) := by
  have hempty : prop.susceptible.isEmpty = true ↔ ∀ id, id ∉ prop.susceptible :=
    Std.ExtTreeSet.isEmpty_iff.trans Std.ExtTreeSet.eq_empty_iff_forall_not_mem
  unfold outcome
  by_cases hnone : prop.susceptible.isEmpty = true
  · rw [if_pos hnone]
    exact iff_of_false Bool.false_ne_true (not_not_intro (.inr (hempty.mp hnone)))
  rw [if_neg hnone, ← hempty, or_iff_left hnone]
  by_cases hround : prop.round ≥ max_rounds
  · rw [if_pos hround]
    exact iff_of_false Bool.false_ne_true (not_not_intro hround)
  · rw [if_neg hround]
    exact iff_of_true rfl hround

/-- **One round** infects whoever is reached by it, and drops the propagation if it is over. -/
theorem Running.step (hwired : Wired start)
    (h : Running start draws name source n net) :
    After start draws name source (n + 1) (step net (draws n)).1 ∧
      (Over start draws name source (n + 1) →
        name ∉ (step net (draws n)).1.active_propagations) ∧
      (¬ Over start draws name source (n + 1) →
        Running start draws name source (n + 1) (step net (draws n)).1) := by
  obtain ⟨prop, hprop, hround, hinfected, hsusceptible⟩ := h.running
  have hneighbors : ∀ a, neighbors net a = neighbors start a := fun a => by
    unfold neighbors
    rw [h.topology]
  -- Whom the round infects: the agents it reaches for the first time.
  have hnewly : newlyOf net (draws n) name = newlyInfected net (draws n name) prop := by
    unfold newlyOf
    rw [hprop]
    rfl
  have hmem : ∀ id, id ∈ newlyOf net (draws n) name ↔
      ¬ Reached (Passes start draws name) source n id ∧
        Reached (Passes start draws name) source (n + 1) id := fun id => by
    rw [hnewly, mem_newlyInfected, hsusceptible, reached_succ_iff]
    constructor
    · rintro ⟨⟨-, hnot⟩, a, ha, hneighbor, hhit⟩
      exact ⟨hnot, .inr ⟨a, (hinfected a).mp ha, hneighbors a ▸ hneighbor, hhit⟩⟩
    · rintro ⟨hnot, hold | ⟨a, ha, hneighbor, hhit⟩⟩
      · exact absurd hold hnot
      · exact ⟨⟨(hwired.within a id hneighbor).2, hnot⟩, a, (hinfected a).mpr ha,
          (hneighbors a).symm ▸ hneighbor, hhit⟩
  have hkeep : ∀ id, Reached (Passes start draws name) source n id →
      Reached (Passes start draws name) source (n + 1) id := fun id hid => hid.keep
  have hafter : After start draws name source (n + 1) (CbclGossip.step net (draws n)).1 := by
    refine ⟨(step_config net _).trans h.config, (step_topology net _).trans h.topology,
      fun id => (step_agents net id id).1.trans (h.agents id), fun id hid => ?_⟩
    rw [agentHasDialect_iff, (step_agents net id name).2, ← agentHasDialect_iff, h.has id hid, hmem]
    have hin : name ∈ net.active_propagations := mem_iff_exists.mpr ⟨prop, hprop⟩
    have hagent := (h.agents id).mpr hid
    have := hkeep id
    tauto
  have hleft : (infect prop (newlyOf net (draws n) name)).round = n + 1 :=
    congrArg (· + 1) hround
  have hreached : ∀ id, id ∈ (infect prop (newlyOf net (draws n) name)).infected ↔
      Reached (Passes start draws name) source (n + 1) id := fun id => by
    refine (mem_foldl_insert _ _).trans ?_
    rw [hmem, hinfected]
    have := hkeep id
    tauto
  have hothers : ∀ id, id ∈ (infect prop (newlyOf net (draws n) name)).susceptible ↔
      id ∈ start.agents ∧ ¬ Reached (Passes start draws name) source (n + 1) id := fun id => by
    refine (mem_foldl_erase _ _).trans ?_
    rw [hmem, hsusceptible]
    have := hkeep id
    tauto
  have hover : (outcome net.config.max_rounds
      (infect prop (newlyOf net (draws n) name))).isNone = true ↔
        ¬ Over start draws name source (n + 1) := by
    rw [outcome_isNone_iff, hleft, h.config]
    refine not_congr (or_congr_right (forall_congr' fun id => ?_))
    rw [hothers]
    tauto
  have hactive := step_getElem? net (draws n) name
  rw [hprop, Option.map_some, Option.filter_some] at hactive
  refine ⟨hafter, fun hyes hin => ?_, fun hno => ⟨hafter, ?_⟩⟩
  · obtain ⟨left, hleft⟩ := mem_iff_exists.mp hin
    rw [hactive, if_neg fun hnone => hover.mp hnone hyes] at hleft
    cases hleft
  · exact ⟨_, hactive.trans (if_pos (hover.mpr hno)), hleft, hreached, hothers⟩

/-- **All rounds**: they stop after the first one that leaves nothing to play. -/
theorem playOut_spec (hwired : Wired start) : ∀ (fuel n : Nat) (net : GossipNetwork),
    Running start draws name source n net → 2 ≤ fuel → start.config.max_rounds + 2 ≤ fuel + n →
    ∃ rounds final, playOut draws name fuel n net = some (final, rounds) ∧
      IsLeast { r | n + 1 ≤ r ∧ Over start draws name source r } rounds ∧
      After start draws name source rounds final := by
  intro fuel
  induction fuel with
  | zero => exact fun _ _ _ hfuel _ => absurd hfuel (by omega)
  | succ fuel ih =>
      intro n net hrunning hfuel hrounds
      obtain ⟨prop, hprop, -⟩ := hrunning.running
      obtain ⟨hafter, hdropped, hgoes⟩ := hrunning.step hwired
      rw [playOut, if_pos (mem_iff_exists.mpr ⟨prop, hprop⟩)]
      by_cases hover : Over start draws name source (n + 1)
      · obtain ⟨fuel, rfl⟩ := Nat.exists_eq_add_of_le' (Nat.le_of_succ_le_succ hfuel)
        refine ⟨n + 1, _, ?_, ⟨⟨Nat.le_refl _, hover⟩, fun r hr => hr.1⟩, hafter⟩
        rw [playOut, if_neg (hdropped hover)]
      · have hmore : ¬ start.config.max_rounds ≤ n + 1 := fun hle => hover (.inl hle)
        obtain ⟨rounds, final, hplayed, ⟨hleast, hlower⟩, hfinal⟩ :=
          ih (n + 1) _ (hgoes hover) (by omega) (by omega)
        refine ⟨rounds, final, hplayed, ⟨⟨Nat.le_of_succ_le hleast.1, hleast.2⟩, fun r hr => ?_⟩,
          hfinal⟩
        rcases Nat.eq_or_lt_of_le hr.1 with rfl | hlt
        · exact absurd hr.2 hover
        · exact hlower ⟨hlt, hr.2⟩

end Run

-- ── Simulation ────

/-- What a simulation reports and leaves: it ends with the first round after which everybody is
    reached or no other is allowed, and then the agents that are reached have the dialect, besides
    those that had it before. -/
structure Spreads (start : GossipNetwork) (draws : Nat → String → String → String → Bool)
    (name source : String) (result : SimulationResult) (final : GossipNetwork) : Prop where
  named : result.dialect_name = name
  rounds : IsLeast { r | 1 ≤ r ∧ Over start draws name source r } result.rounds
  after : After start draws name source result.rounds final
  successful : result.successful = true ↔ ∀ id ∈ start.agents,
    agentHasDialect start id name = true ∨
      Reached (Passes start draws name) source result.rounds id
  coverage : result.final_coverage = if result.successful then 1 else 0

/-- Whether all agents have a dialect. -/
theorem all_contains_iff (net : GossipNetwork) (name : String) :
    net.agents.toList.all (·.2.contains name) = true ↔
      ∀ id ∈ net.agents, agentHasDialect net id name = true := by
  rw [List.all_eq_true]
  constructor
  · intro hall id hid
    obtain ⟨names, hnames⟩ := mem_iff_exists.mp hid
    refine agentHasDialect_iff.mpr ⟨names, hnames, Std.ExtTreeSet.contains_iff_mem.mp ?_⟩
    exact hall (id, names) (Std.ExtTreeMap.mem_toList_iff_getElem?_eq_some.mpr hnames)
  · intro hall entry hentry
    have hnames := Std.ExtTreeMap.mem_toList_iff_getElem?_eq_some.mp hentry
    obtain ⟨names, hnames', hmem⟩ :=
      agentHasDialect_iff.mp (hall entry.1 (mem_iff_exists.mpr ⟨_, hnames⟩))
    rw [hnames] at hnames'
    rw [Option.some.inj hnames']
    exact Std.ExtTreeSet.contains_iff_mem.mpr hmem

/-- A simulation reports exactly when its dialect can be announced, and then as it spreads. -/
theorem simulatePropagation_spec {start : GossipNetwork} (hwired : Wired start)
    (draws : Nat → String → String → String → Bool) (dialect : Dialect) (source : String) :
    ((simulatePropagation start draws dialect source).2.isSome = true ↔
      source ∈ start.agents ∧ dialect.name ∉ start.active_propagations) ∧
    ∀ result, (simulatePropagation start draws dialect source).2 = some result →
      Spreads start draws dialect.name source result
        (simulatePropagation start draws dialect source).1 := by
  by_cases hannounced : source ∈ start.agents ∧ dialect.name ∉ start.active_propagations
  case neg =>
    have hnone : (simulatePropagation start draws dialect source).2 = none := by
      unfold simulatePropagation announceDialect
      by_cases hsource : source ∈ start.agents
      · rw [if_neg (not_not_intro hsource),
          if_pos (not_not.mp fun hidle => hannounced ⟨hsource, hidle⟩)]
      · rw [if_pos hsource]
    rw [hnone]
    refine ⟨iff_of_false Bool.false_ne_true hannounced, fun result hresult => ?_⟩
    cases hresult
  obtain ⟨hname, hrunning⟩ : _ ∧ Running start draws dialect.name source 0 _ :=
    announced_running hannounced.1 hannounced.2
  obtain ⟨rounds, final, hplayed, hleast, hafter⟩ :=
    playOut_spec hwired ((announceDialect start dialect source).1.config.max_rounds + 2) 0 _
      hrunning (Nat.le_add_left 2 _) (by rw [hrunning.config])
  have hrun : simulatePropagation start draws dialect source = (final, some
      { dialect_name := dialect.name
        rounds
        final_coverage := if final.agents.toList.all (·.2.contains dialect.name) then 1 else 0
        successful := final.agents.toList.all (·.2.contains dialect.name) }) := by
    have heq : announceDialect start dialect source
        = ((announceDialect start dialect source).1, some dialect.name) := by rw [← hname]
    unfold simulatePropagation
    rw [heq]
    dsimp only
    rw [hplayed]
  rw [hrun]
  refine ⟨iff_of_true rfl hannounced, fun result hresult => ?_⟩
  obtain rfl := Option.some.inj hresult
  refine ⟨rfl, hleast, hafter, ?_, rfl⟩
  refine (all_contains_iff final dialect.name).trans ⟨fun hall id hid => ?_, fun hall id hid => ?_⟩
  · exact (hafter.has id hid).mp (hall id ((hafter.agents id).mpr hid))
  · have hstart := (hafter.agents id).mp hid
    exact (hafter.has id hstart).mpr (hall id hstart)

/-- **A simulation always ends, and infects exactly whom successful transmissions reach in time**,
    whatever was done to the network before and whatever is drawn. -/
theorem performAll_simulatePropagation (config : GossipConfig) (ops : List Operation)
    (draws : Nat → String → String → String → Bool) (dialect : Dialect) (source : String) :
    ((simulatePropagation (performAll (new config) ops) draws dialect source).2.isSome = true ↔
      source ∈ (performAll (new config) ops).agents ∧
        dialect.name ∉ (performAll (new config) ops).active_propagations) ∧
    ∀ result,
      (simulatePropagation (performAll (new config) ops) draws dialect source).2 = some result →
        Spreads (performAll (new config) ops) draws dialect.name source result
          (simulatePropagation (performAll (new config) ops) draws dialect source).1 :=
  simulatePropagation_spec (wired_performAll config ops) draws dialect source

/-- **Only a connected network is reached as a whole**, and where every transmission succeeds it is,
    after one round for every other agent: `is_connected` tells whether a new dialect can spread. -/
theorem successful_of_isConnected (config : GossipConfig) (ops : List Operation)
    (draws : Nat → String → String → String → Bool) (dialect : Dialect) (source : String)
    (result : SimulationResult)
    (hnew : ∀ id, agentHasDialect (performAll (new config) ops) id dialect.name = false)
    (hresult : (simulatePropagation (performAll (new config) ops) draws dialect source).2
      = some result) :
    (result.successful = true → isConnected (performAll (new config) ops) = true) ∧
      ((∀ n a b, draws n dialect.name a b = true) →
        (performAll (new config) ops).agents.size
          ≤ (performAll (new config) ops).config.max_rounds + 1 →
        isConnected (performAll (new config) ops) = true →
        result.successful = true ∧
          result.rounds ≤ max 1 ((performAll (new config) ops).agents.size - 1)) := by
  have hwired := wired_performAll config ops
  generalize performAll (new config) ops = start at hnew hresult hwired
  obtain ⟨hends, hspreads⟩ := simulatePropagation_spec hwired draws dialect source
  have hsource := (hends.mp (Option.isSome_of_eq_some hresult)).1
  obtain ⟨-, ⟨hrounds, hleast⟩, -, hsuccessful, -⟩ := hspreads result hresult
  have hreached : result.successful = true ↔ ∀ id ∈ start.agents,
      Reached (Passes start draws dialect.name) source result.rounds id := by
    refine hsuccessful.trans (forall₂_congr fun id _ => or_iff_right ?_)
    rw [hnew id]
    exact Bool.false_ne_true
  have hlinked : ∀ n a b, Passes start draws dialect.name n a b → b ∈ neighbors start a :=
    fun _ _ _ hpass => hpass.1
  refine ⟨fun hyes => (isConnected_iff hwired).mpr fun a ha b hb => ?_,
    fun halways hsize hconnected => ?_⟩
  · have hto : ∀ id ∈ start.agents, Reaches (neighbors start) source id := fun id hid =>
      (hreached.mp hyes id hid).linked hlinked
    exact (reaches_symm hwired (hto a ha)).trans (hto b hb)
  have hcard : start.agents.keys.toFinset.card = start.agents.size := by
    rw [List.toFinset_card_of_nodup (nodup_keys _), Std.ExtTreeMap.length_keys]
  have hall : ∀ n, start.agents.size ≤ n + 1 → ∀ id ∈ start.agents,
      Reached (Passes start draws dialect.name) source n id := fun n hn id hid =>
    reached_of_linked (fun m a b hab => ⟨hab, halways m a b⟩)
      (fun m a ha => List.mem_toFinset.mpr (Std.ExtTreeMap.mem_keys.mpr
        (reached_within hwired hsource ha)))
      (hcard.trans_le hn) ((isConnected_iff hwired).mp hconnected source hsource id hid)
  have hbound : result.rounds ≤ max 1 (start.agents.size - 1) :=
    hleast ⟨Nat.le_max_left .., .inr (hall _ (by omega))⟩
  refine ⟨hreached.mpr fun id hid => ?_, hbound⟩
  rcases hrounds.2 with hlast | hdone
  · exact (hall _ (hsize.trans (Nat.succ_le_succ hlast)) id hid)
  · exact hdone id hid

-- ── Three agents in a row ────

/-- Carol and Dora are each linked to Alice and Bob, and Alice leaves. -/
def ringWithout : List Operation :=
  [.addAgent "alice" fun _ => true, .addAgent "bob" fun _ => true,
    .addAgent "carol" fun _ => true, .addAgent "dora" fun _ => true, .removeAgent "alice"]

/-- What is computed of it: from Carol it takes two rounds, by way of Bob. -/
theorem ring_runs :
    (performAll (new ⟨10, .ring⟩) ringWithout).agents.toList.all (·.2.isEmpty) = true ∧
    ((simulatePropagation (performAll (new ⟨10, .ring⟩) ringWithout) (fun _ _ _ _ => true)
      CbclRegistry.greeterDialect "carol").2.map (·.rounds)) = some 2 ∧
    (performAll (new ⟨10, .ring⟩) ringWithout).agents.size = 3 ∧
    (performAll (new ⟨10, .ring⟩) ringWithout).config.max_rounds = 10 ∧
    isConnected (performAll (new ⟨10, .ring⟩) ringWithout) = true := by
  decide +kernel

theorem successful_of_isConnected_ring : ∃ result,
    (simulatePropagation (performAll (new ⟨10, .ring⟩) ringWithout) (fun _ _ _ _ => true)
      CbclRegistry.greeterDialect "carol").2 = some result ∧
    result.rounds = 2 ∧ result.successful = true := by
  obtain ⟨hempty, hrounds, hsize, hmax, hconnected⟩ := ring_runs
  obtain ⟨result, hresult, htwo⟩ := Option.map_eq_some_iff.mp hrounds
  have hnew : ∀ id, agentHasDialect (performAll (new ⟨10, .ring⟩) ringWithout) id
      CbclRegistry.greeterDialect.name = false := fun id => by
    refine Bool.eq_false_iff.mpr fun hhas => ?_
    obtain ⟨names, hnames, hmem⟩ := agentHasDialect_iff.mp hhas
    have hnone : names = ∅ := Std.ExtTreeSet.isEmpty_iff.mp (List.all_eq_true.mp hempty (id, names)
      (Std.ExtTreeMap.mem_toList_iff_getElem?_eq_some.mpr hnames))
    rw [hnone] at hmem
    exact Std.ExtTreeSet.not_mem_empty hmem
  exact ⟨result, hresult, htwo, ((successful_of_isConnected ⟨10, .ring⟩ ringWithout _ _ _ result
    hnew hresult).2 (fun _ _ _ => rfl) (by rw [hsize, hmax]; decide) hconnected).1⟩

end CbclGossipSpread
