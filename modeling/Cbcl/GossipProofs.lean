import Cbcl.GossipModel
import Cbcl.RegistryProofs
import Cbcl.RelationMapProofs

/-!
# Gossip keeps its books

What a gossip network holds after any operations.  The links are those between its agents, in both
directions, whatever happens.  The infected and the susceptible agents of a propagation are the
agents of the network, each on one side: an agent that leaves is taken out of both, but one that
joins is put in neither, and a dialect received for a stranger infects the stranger.  A round
reports an agent once for every infected neighbour whose transmission succeeds.
-/

namespace CbclGossip

open CbclMessage CbclDialect CbclTreeMap CbclRelationMap

-- ── What a network holds ────

/-- The neighbours of an agent are those it is linked to. -/
theorem mem_neighbors_iff {net : GossipNetwork} {a b : String} :
    b ∈ neighbors net a ↔ Related net.topology a b := by
  unfold neighbors Related
  cases h : net.topology[a]? with
  | none => exact iff_of_false List.not_mem_nil fun ⟨_, hbs, _⟩ => nomatch hbs
  | some bs =>
      refine Std.ExtTreeSet.mem_toList.trans ⟨fun hb => ⟨bs, rfl, hb⟩, ?_⟩
      rintro ⟨cs, hcs, hb⟩
      exact Option.some.inj hcs ▸ hb

/-- The dialects an agent has are those in its set. -/
theorem agentHasDialect_iff {net : GossipNetwork} {id name : String} :
    agentHasDialect net id name = true ↔ Related net.agents id name := by
  unfold agentHasDialect Related
  cases h : net.agents[id]? with
  | none => exact iff_of_false (fun hf => nomatch hf) fun ⟨_, hbs, _⟩ => nomatch hbs
  | some bs =>
      refine Std.ExtTreeSet.contains_iff_mem.trans ⟨fun hb => ⟨bs, rfl, hb⟩, ?_⟩
      rintro ⟨cs, hcs, hb⟩
      exact Option.some.inj hcs ▸ hb

-- ── The links ────

/-- The links of a network go both ways, between two of its agents; each agent has its place. -/
structure Wired (net : GossipNetwork) : Prop where
  placed : ∀ id, id ∈ net.topology ↔ id ∈ net.agents
  symmetric : ∀ a b, b ∈ neighbors net a → a ∈ neighbors net b
  irreflexive : ∀ a, a ∉ neighbors net a
  within : ∀ a b, b ∈ neighbors net a → a ∈ net.agents ∧ b ∈ net.agents

/-- The links do not depend on the rest of a network. -/
theorem Wired.of_same {net net' : GossipNetwork} (h : Wired net)
    (htopology : net'.topology = net.topology)
    (hagents : ∀ id, id ∈ net'.agents ↔ id ∈ net.agents) : Wired net' := by
  have hneighbors : ∀ a, neighbors net' a = neighbors net a := fun a => by
    unfold neighbors
    rw [htopology]
  refine ⟨fun id => ?_, fun a b => ?_, fun a => ?_, fun a b hb => ?_⟩
  · rw [htopology, hagents]
    exact h.placed id
  · rw [hneighbors, hneighbors]
    exact h.symmetric a b
  · rw [hneighbors]
    exact h.irreflexive a
  · rw [hneighbors] at hb
    rw [hagents, hagents]
    exact h.within a b hb

theorem wired_new (config : GossipConfig) : Wired (new config) := by
  have hnone : ∀ a b, b ∉ neighbors (new config) a := fun a b hb => by
    obtain ⟨_, hbs, _⟩ := mem_neighbors_iff.mp hb
    exact nomatch hbs.symm.trans Std.ExtTreeMap.getElem?_empty
  exact ⟨fun id => iff_of_false Std.ExtTreeMap.not_mem_empty Std.ExtTreeMap.not_mem_empty,
    fun a b hb => absurd hb (hnone a b), fun a => hnone a a, fun a b hb => absurd hb (hnone a b)⟩

/-- Linking moves no agent. -/
theorem mem_foldl_connect {new id : String} : ∀ (ids : List String)
    (m : BTreeMap String (BTreeSet String)), id ∈ ids.foldl (connect new) m ↔ id ∈ m := by
  intro ids
  induction ids with
  | nil => exact fun m => Iff.rfl
  | cons k ids ih =>
      intro m
      rw [List.foldl_cons, ih]
      unfold connect
      rw [Std.ExtTreeMap.mem_modify, Std.ExtTreeMap.mem_modify]

/-- The links after an agent has been linked to some others. -/
theorem related_foldl_connect {new a b : String} : ∀ (ids : List String)
    (m : BTreeMap String (BTreeSet String)), new ∈ m → (∀ id ∈ ids, id ∈ m) →
    (Related (ids.foldl (connect new) m) a b ↔
      Related m a b ∨ (a = new ∧ b ∈ ids) ∨ (b = new ∧ a ∈ ids)) := by
  intro ids
  induction ids with
  | nil => intro m _ _; simp
  | cons k ids ih =>
      intro m hnew hids
      have hmem : ∀ id, id ∈ connect new m k ↔ id ∈ m := fun id => mem_foldl_connect [k] m
      have hone : Related (connect new m k) a b ↔
          Related m a b ∨ (a = new ∧ b = k) ∨ (b = new ∧ a = k) := by
        unfold connect
        rw [related_modify, related_modify, Std.ExtTreeMap.mem_modify]
        have hk := hids k (List.mem_cons_self ..)
        tauto
      rw [List.foldl_cons, ih _ ((hmem new).mpr hnew) fun id hid =>
        (hmem id).mpr (hids id (List.mem_cons_of_mem k hid)), hone, List.mem_cons, List.mem_cons]
      tauto

/-- A new agent is linked to others only. -/
theorem linkedTo_subset {topology : Topology} {drawn : String → Bool} {others : List String}
    {id : String} (h : id ∈ linkedTo topology drawn others) : id ∈ others := by
  cases topology with
  | fullyConnected => exact h
  | ring => exact List.mem_of_mem_take h
  | random => exact (List.mem_filter.mp h).1

theorem wired_addAgent {net : GossipNetwork} (h : Wired net) (id : String)
    (drawn : String → Bool) : Wired (addAgent net id drawn).1 := by
  unfold addAgent
  by_cases hid : id ∈ net.agents
  · rw [if_pos hid]
    exact h
  rw [if_neg hid]
  have hplace : id ∉ net.topology := fun hmem => hid ((h.placed id).mp hmem)
  dsimp only [updateTopology]
  generalize hothers : linkedTo net.config.topology drawn
    ((net.agents.insert id ∅).keys.filter (· ≠ id)) = others
  have hmem : ∀ {k}, k ∈ others → k ≠ id ∧ k ∈ net.agents := fun {k} hk => by
    have hfilter := List.mem_filter.mp (linkedTo_subset (hothers ▸ hk))
    have hne : k ≠ id := of_decide_eq_true hfilter.2
    have hkeys := (mem_insert_key net.agents id k ∅).mp (Std.ExtTreeMap.mem_keys.mp hfilter.1)
    exact ⟨hne, hkeys.resolve_left hne⟩
  -- The links are the old ones and those of the new agent, which has none of the old.
  have hlinks : ∀ a b, Related (others.foldl (connect id) (net.topology.insert id ∅)) a b ↔
      Related net.topology a b ∨ (a = id ∧ b ∈ others) ∨ (b = id ∧ a ∈ others) := fun a b => by
    rw [related_foldl_connect others _ ((mem_insert_key _ id id ∅).mpr (.inl rfl)) fun k hk =>
      (mem_insert_key _ id k ∅).mpr (.inr ((h.placed k).mpr (hmem hk).2)),
      related_insert_empty _ hplace]
  have hold : ∀ a b, Related net.topology a b → a ∈ net.agents ∧ b ∈ net.agents :=
    fun a b hr => h.within a b (mem_neighbors_iff.mpr hr)
  refine ⟨fun k => ?_, fun a b hb => ?_, fun a ha => ?_, fun a b hb => ?_⟩
  · rw [mem_foldl_connect, mem_insert_key, mem_insert_key, h.placed]
  · rw [mem_neighbors_iff, hlinks] at hb ⊢
    rcases hb with hr | hnew | hnew
    · exact .inl (mem_neighbors_iff.mp (h.symmetric a b (mem_neighbors_iff.mpr hr)))
    · exact .inr (.inr hnew)
    · exact .inr (.inl hnew)
  · rw [mem_neighbors_iff, hlinks] at ha
    rcases ha with hr | ⟨heq, hk⟩ | ⟨heq, hk⟩
    · exact h.irreflexive a (mem_neighbors_iff.mpr hr)
    · exact (hmem hk).1 heq
    · exact (hmem hk).1 heq
  · rw [mem_neighbors_iff, hlinks] at hb
    rw [mem_insert_key, mem_insert_key]
    rcases hb with hr | ⟨rfl, hk⟩ | ⟨rfl, hk⟩
    · exact ⟨.inr (hold a b hr).1, .inr (hold a b hr).2⟩
    · exact ⟨.inl rfl, .inr (hmem hk).2⟩
    · exact ⟨.inr (hmem hk).2, .inl rfl⟩

theorem wired_removeAgent {net : GossipNetwork} (h : Wired net) (id : String) :
    Wired (removeAgent net id).1 := by
  unfold removeAgent
  by_cases hid : id ∈ net.agents
  case neg =>
    rw [if_pos hid]
    exact h
  rw [if_neg (not_not_intro hid)]
  have hlinks : ∀ a b, Related ((net.topology.erase id).map fun _ ids => ids.erase id) a b ↔
      b ≠ id ∧ a ≠ id ∧ Related net.topology a b := fun a b => by
    rw [related_map_erase, related_erase]
  refine ⟨fun k => ?_, fun a b hb => ?_, fun a ha => ?_, fun a b hb => ?_⟩
  · rw [Std.ExtTreeMap.mem_map, mem_erase_key, mem_erase_key, h.placed]
  · rw [mem_neighbors_iff, hlinks] at hb ⊢
    obtain ⟨hbid, haid, hr⟩ := hb
    exact ⟨haid, hbid, mem_neighbors_iff.mp (h.symmetric a b (mem_neighbors_iff.mpr hr))⟩
  · rw [mem_neighbors_iff, hlinks] at ha
    exact h.irreflexive a (mem_neighbors_iff.mpr ha.2.2)
  · rw [mem_neighbors_iff, hlinks] at hb
    obtain ⟨hbid, haid, hr⟩ := hb
    have hwithin := h.within a b (mem_neighbors_iff.mpr hr)
    exact ⟨(mem_erase_key _ id a).mpr ⟨haid, hwithin.1⟩,
      (mem_erase_key _ id b).mpr ⟨hbid, hwithin.2⟩⟩

-- ── What a round does ────

/-- Noting a dialect moves no agent. -/
theorem mem_foldl_install {name id : String} : ∀ (ids : List String)
    (m : BTreeMap String (BTreeSet String)), id ∈ ids.foldl (install name) m ↔ id ∈ m := by
  intro ids
  induction ids with
  | nil => exact fun m => Iff.rfl
  | cons k ids ih =>
      intro m
      rw [List.foldl_cons, ih]
      exact Std.ExtTreeMap.mem_modify

/-- What is installed after a dialect has been noted for some agents. -/
theorem related_foldl_install {name a b : String} : ∀ (ids : List String)
    (m : BTreeMap String (BTreeSet String)),
    Related (ids.foldl (install name) m) a b ↔
      Related m a b ∨ (a ∈ ids ∧ b = name ∧ a ∈ m) := by
  intro ids
  induction ids with
  | nil => intro m; simp
  | cons k ids ih =>
      intro m
      have hkeys : a ∈ install name m k ↔ a ∈ m := mem_foldl_install [k] m
      rw [List.foldl_cons, ih, hkeys, List.mem_cons]
      unfold install
      rw [related_modify]
      constructor
      · rintro ((hr | ⟨rfl, hb, hk⟩) | ⟨ha, hb, hm⟩)
        · exact .inl hr
        · exact .inr ⟨.inl rfl, hb, hk⟩
        · exact .inr ⟨.inr ha, hb, hm⟩
      · rintro (hr | ⟨rfl | ha, hb, hm⟩)
        · exact .inl (.inl hr)
        · exact .inl (.inr ⟨rfl, hb, hm⟩)
        · exact .inr ⟨ha, hb, hm⟩

/-- Whom a round of the propagation of a dialect infects. -/
def newlyOf (net : GossipNetwork) (hit : String → String → String → Bool) (name : String) :
    List String :=
  (net.active_propagations[name]?.map (newlyInfected net (hit name))).getD []

variable {hit : String → String → String → Bool}

/-- The neighbours are those of the links. -/
theorem newlyOf_same {net net' : GossipNetwork} {name : String}
    (htopology : net'.topology = net.topology)
    (hprop : net'.active_propagations[name]? = net.active_propagations[name]?) :
    newlyOf net' hit name = newlyOf net hit name := by
  unfold newlyOf newlyInfected neighbors
  rw [htopology, hprop]

/-- A round changes one propagation. -/
theorem stepPropagation_active (net : GossipNetwork) (name other : String) :
    (stepPropagation hit net name).1.active_propagations[other]?
      = if other = name then net.active_propagations[name]?.map (infect · (newlyOf net hit name))
        else net.active_propagations[other]? := by
  unfold stepPropagation newlyOf
  cases h : net.active_propagations[name]? with
  | none =>
      dsimp only
      split
      · next heq => rw [heq, h]; rfl
      · rfl
  | some prop =>
      dsimp only
      rw [getElem?_insert_eq]
      rfl

theorem stepPropagation_topology (net : GossipNetwork) (name : String) :
    (stepPropagation hit net name).1.topology = net.topology := by
  unfold stepPropagation
  split <;> rfl

/-- A round reports whom it infects. -/
theorem stepPropagation_newly (net : GossipNetwork) (name : String) :
    (stepPropagation hit net name).2 = newlyOf net hit name := by
  unfold stepPropagation newlyOf
  cases net.active_propagations[name]? <;> rfl

/-- A round notes the dialect for whom it infects. -/
theorem stepPropagation_agents (net : GossipNetwork) (name : String) :
    (stepPropagation hit net name).1.agents
      = (newlyOf net hit name).foldl (install name) net.agents := by
  unfold stepPropagation newlyOf
  cases net.active_propagations[name]? <;> rfl

/-- What all rounds report, agent by agent. -/
def reported (results : List (String × List String)) : List (String × String) :=
  results.flatMap fun result => result.2.map (result.1, ·)

theorem stepPropagations_topology : ∀ (names : List String) (net : GossipNetwork),
    (stepPropagations hit names net).1.topology = net.topology := by
  intro names
  induction names with
  | nil => exact fun net => rfl
  | cons name names ih => exact fun net => (ih _).trans (stepPropagation_topology net name)

/-- The propagations after their rounds. -/
theorem stepPropagations_active : ∀ {names : List String}, names.Nodup →
    ∀ (net : GossipNetwork) (other : String),
    (stepPropagations hit names net).1.active_propagations[other]?
      = if other ∈ names then
          net.active_propagations[other]?.map (infect · (newlyOf net hit other))
        else net.active_propagations[other]? := by
  intro names
  induction names with
  | nil => exact fun _ net other => (if_neg List.not_mem_nil).symm
  | cons name names ih =>
      intro hnodup net other
      obtain ⟨hnotin, hrest⟩ := List.nodup_cons.mp hnodup
      have hlater := ih hrest (stepPropagation hit net name).1 other
      refine hlater.trans ?_
      rw [stepPropagation_active]
      by_cases heq : other = name
      · subst heq
        rw [if_neg hnotin, if_pos rfl, if_pos (List.mem_cons_self ..)]
      · have hsame : newlyOf (stepPropagation hit net name).1 hit other = newlyOf net hit other :=
          newlyOf_same (stepPropagation_topology net name)
            ((stepPropagation_active net name other).trans (if_neg heq))
        rw [if_neg heq, hsame]
        by_cases hin : other ∈ names
        · rw [if_pos hin, if_pos (List.mem_cons_of_mem name hin)]
        · rw [if_neg hin, if_neg fun hcons => (List.mem_cons.mp hcons).elim heq hin]

/-- The rounds do not see each other. -/
theorem newlyOf_stepped {names : List String} {name : String} (h : name ∉ names)
    (net : GossipNetwork) :
    ∀ other ∈ names, newlyOf (stepPropagation hit net name).1 hit other = newlyOf net hit other :=
  fun other hother => newlyOf_same (stepPropagation_topology net name)
    ((stepPropagation_active net name other).trans
      (if_neg fun heq : other = name => h (heq ▸ hother)))

/-- A round that infects nobody is not reported. -/
theorem stepPropagations_results (name : String) (names : List String) (net : GossipNetwork) :
    (stepPropagations hit (name :: names) net).2
      = if (newlyOf net hit name).isEmpty then
          (stepPropagations hit names (stepPropagation hit net name).1).2
        else (name, newlyOf net hit name)
          :: (stepPropagations hit names (stepPropagation hit net name).1).2 := by
  rw [← stepPropagation_newly]
  rfl

/-- What the rounds report. -/
theorem stepPropagations_reported : ∀ {names : List String}, names.Nodup →
    ∀ net : GossipNetwork, reported (stepPropagations hit names net).2
      = names.flatMap fun name => (newlyOf net hit name).map (name, ·) := by
  intro names
  induction names with
  | nil => exact fun _ net => rfl
  | cons name names ih =>
      intro hnodup net
      obtain ⟨hnotin, hrest⟩ := List.nodup_cons.mp hnodup
      have hlater : (names.flatMap fun other =>
            (newlyOf (stepPropagation hit net name).1 hit other).map (other, ·))
          = names.flatMap fun other => (newlyOf net hit other).map (other, ·) :=
        List.flatMap_congr fun other hother => by rw [newlyOf_stepped hnotin net other hother]
      rw [List.flatMap_cons, ← hlater, ← ih hrest, stepPropagations_results]
      cases newlyOf net hit name with
      | nil => rfl
      | cons id ids => rfl

/-- What is installed after the rounds. -/
theorem stepPropagations_agents {a b : String} : ∀ {names : List String}, names.Nodup →
    ∀ net : GossipNetwork,
    (a ∈ (stepPropagations hit names net).1.agents ↔ a ∈ net.agents) ∧
    (Related (stepPropagations hit names net).1.agents a b ↔
      Related net.agents a b ∨ (b ∈ names ∧ a ∈ newlyOf net hit b ∧ a ∈ net.agents)) := by
  intro names
  induction names with
  | nil => exact fun _ net => ⟨Iff.rfl, (or_iff_left fun h => List.not_mem_nil h.1).symm⟩
  | cons name names ih =>
      intro hnodup net
      obtain ⟨hnotin, hrest⟩ := List.nodup_cons.mp hnodup
      obtain ⟨hmem, hrelated⟩ := ih hrest (stepPropagation hit net name).1
      rw [stepPropagation_agents, mem_foldl_install] at hmem hrelated
      rw [related_foldl_install] at hrelated
      refine ⟨hmem, hrelated.trans ?_⟩
      rw [List.mem_cons]
      constructor
      · rintro ((hr | ⟨ha, rfl, hm⟩) | ⟨hb, ha, hm⟩)
        · exact .inl hr
        · exact .inr ⟨.inl rfl, ha, hm⟩
        · exact .inr ⟨.inr hb, newlyOf_stepped hnotin net b hb ▸ ha, hm⟩
      · rintro (hr | ⟨rfl | hb, ha, hm⟩)
        · exact .inl (.inl hr)
        · exact .inl (.inr ⟨ha, rfl, hm⟩)
        · exact .inr ⟨hb, (newlyOf_stepped hnotin net b hb).symm ▸ ha, hm⟩

/-- Dropping propagations leaves the agents, the links and the other propagations. -/
theorem foldl_dropPropagation : ∀ (entries : List (String × Bool)) (net : GossipNetwork),
    (entries.foldl dropPropagation net).agents = net.agents ∧
    (entries.foldl dropPropagation net).topology = net.topology ∧
    ∀ (name : String) (prop : PropagationState),
      (entries.foldl dropPropagation net).active_propagations[name]? = some prop →
        net.active_propagations[name]? = some prop := by
  intro entries
  induction entries with
  | nil => exact fun net => ⟨rfl, rfl, fun _ _ h => h⟩
  | cons entry entries ih =>
      intro net
      obtain ⟨hagents, htopology, hactive⟩ := ih (dropPropagation net entry)
      refine ⟨hagents, htopology, fun name prop h => ?_⟩
      have hstep : (net.active_propagations.erase entry.1)[name]? = some prop := hactive name prop h
      rw [getElem?_erase_eq] at hstep
      split at hstep
      · exact nomatch hstep
      · exact hstep

-- ── The two sides of a propagation ────

/-- The agents of a network are on one of the two sides of each propagation, and the infected ones
    have its dialect. -/
structure Partitioned (net : GossipNetwork) : Prop where
  disjoint : ∀ (name : String) (prop : PropagationState),
    net.active_propagations[name]? = some prop → ∀ id ∈ prop.infected, id ∉ prop.susceptible
  covered : ∀ (name : String) (prop : PropagationState),
    net.active_propagations[name]? = some prop →
      ∀ id, id ∈ prop.infected ∨ id ∈ prop.susceptible ↔ id ∈ net.agents
  installed : ∀ (name : String) (prop : PropagationState),
    net.active_propagations[name]? = some prop →
      ∀ id ∈ prop.infected, agentHasDialect net id name = true

theorem partitioned_new (config : GossipConfig) : Partitioned (new config) := by
  have hnone : ∀ (name : String) (prop : PropagationState),
      (new config).active_propagations[name]? ≠ some prop := fun name prop h =>
    nomatch Std.ExtTreeMap.getElem?_empty.symm.trans h
  exact ⟨fun name prop h => absurd h (hnone name prop), fun name prop h =>
    absurd h (hnone name prop), fun name prop h => absurd h (hnone name prop)⟩

/-- Who joins is on no side of a running propagation. -/
theorem partitioned_addAgent {net : GossipNetwork} (h : Partitioned net) (id : String)
    (drawn : String → Bool) :
    Partitioned (addAgent net id drawn).1 ↔
      id ∈ net.agents ∨ ∀ name, name ∉ net.active_propagations := by
  unfold addAgent
  by_cases hid : id ∈ net.agents
  · rw [if_pos hid]
    exact iff_of_true h (.inl hid)
  rw [if_neg hid, or_iff_right hid]
  dsimp only [updateTopology]
  constructor
  · intro hadded name hname
    obtain ⟨prop, hprop⟩ := mem_iff_exists.mp hname
    exact hid ((h.covered name prop hprop id).mp
      ((hadded.covered name prop hprop id).mpr Std.ExtTreeMap.mem_insert_self))
  · intro hidle
    have hnone : ∀ (name : String) (prop : PropagationState),
        net.active_propagations[name]? ≠ some prop := fun name prop hprop =>
      hidle name (mem_iff_exists.mpr ⟨prop, hprop⟩)
    exact ⟨fun name prop hprop => absurd hprop (hnone name prop), fun name prop hprop =>
      absurd hprop (hnone name prop), fun name prop hprop => absurd hprop (hnone name prop)⟩

/-- Who leaves is taken out of both sides. -/
theorem partitioned_removeAgent {net : GossipNetwork} (h : Partitioned net) (id : String) :
    Partitioned (removeAgent net id).1 := by
  unfold removeAgent
  by_cases hid : id ∈ net.agents
  case neg =>
    rw [if_pos hid]
    exact h
  rw [if_neg (not_not_intro hid)]
  have hprop : ∀ {name : String} {prop' : PropagationState},
      (net.active_propagations.map fun _ prop =>
        { prop with
          infected := prop.infected.erase id
          susceptible := prop.susceptible.erase id })[name]? = some prop' →
      ∃ prop, net.active_propagations[name]? = some prop ∧
        (∀ k, k ∈ prop'.infected ↔ k ≠ id ∧ k ∈ prop.infected) ∧
        ∀ k, k ∈ prop'.susceptible ↔ k ≠ id ∧ k ∈ prop.susceptible := by
    intro name prop' hprop'
    rw [Std.ExtTreeMap.getElem?_map] at hprop'
    obtain ⟨prop, hprop, rfl⟩ := Option.map_eq_some_iff.mp hprop'
    exact ⟨prop, hprop, mem_erase_iff _ id, mem_erase_iff _ id⟩
  refine ⟨fun name prop' hactive k hk hsusceptible => ?_, fun name prop' hactive k => ?_,
    fun name prop' hactive k hk => ?_⟩
  · obtain ⟨prop, hold, hinfected, hside⟩ := hprop hactive
    exact h.disjoint name prop hold k ((hinfected k).mp hk).2 ((hside k).mp hsusceptible).2
  · obtain ⟨prop, hold, hinfected, hside⟩ := hprop hactive
    rw [hinfected, hside, ← and_or_left, h.covered name prop hold, mem_erase_key]
  · obtain ⟨prop, hold, hinfected, -⟩ := hprop hactive
    obtain ⟨hne, hk⟩ := (hinfected k).mp hk
    exact agentHasDialect_iff.mpr ((related_erase _ id k name).mpr
      ⟨hne, agentHasDialect_iff.mp (h.installed name prop hold k hk)⟩)

/-- An announced dialect has one agent on one side and the others on the other. -/
theorem partitioned_announceDialect {net : GossipNetwork} (h : Partitioned net) (dialect : Dialect)
    (initial : String) : Partitioned (announceDialect net dialect initial).1 := by
  unfold announceDialect
  by_cases hin : initial ∈ net.agents
  case neg =>
    rw [if_pos hin]
    exact h
  rw [if_neg (not_not_intro hin)]
  by_cases hactive : dialect.name ∈ net.active_propagations
  · rw [if_pos hactive]
    exact h
  rw [if_neg hactive]
  have hkeys : ∀ k, k ∈ install dialect.name net.agents initial ↔ k ∈ net.agents := fun k =>
    mem_foldl_install [initial] net.agents
  have hrelated : ∀ a b, Related (install dialect.name net.agents initial) a b ↔
      Related net.agents a b ∨ (a = initial ∧ b = dialect.name ∧ initial ∈ net.agents) :=
    fun a b => related_modify net.agents initial dialect.name a b
  -- The propagations are the old ones and the new one, whose name is not among theirs.
  have hcases : ∀ {P : String → PropagationState → Prop},
      (∀ prop : PropagationState,
        (∀ k, k ∈ prop.infected ↔ k = initial) →
        (∀ k, k ∈ prop.susceptible ↔ k ∈ net.agents ∧ k ≠ initial) → P dialect.name prop) →
      (∀ (name : String) (prop : PropagationState),
        net.active_propagations[name]? = some prop → P name prop) →
      ∀ (name : String) (prop : PropagationState),
      (net.active_propagations.insert dialect.name
        { dialect
          infected := (∅ : BTreeSet String).insert initial
          susceptible := (net.agents.keys.filter (· ≠ initial)).foldl (·.insert ·) ∅
          round := 0 })[name]? = some prop → P name prop := by
    intro P hnew hold name prop hprop
    rw [getElem?_insert_eq] at hprop
    by_cases heq : name = dialect.name
    case neg =>
      rw [if_neg heq] at hprop
      exact hold name prop hprop
    rw [if_pos heq] at hprop
    obtain rfl := Option.some.inj hprop
    subst heq
    refine hnew _ (fun k => ?_) fun k => ?_
    · rw [mem_insert_iff]
      exact or_iff_left Std.ExtTreeSet.not_mem_empty
    · rw [mem_foldl_insert, List.mem_filter, Std.ExtTreeMap.mem_keys, decide_eq_true_iff]
      exact or_iff_left Std.ExtTreeSet.not_mem_empty
  refine ⟨hcases (fun prop hinfected hside k hk hsusceptible => ?_) h.disjoint,
    hcases (fun prop hinfected hside k => ?_) fun name prop hprop k => ?_,
    hcases (fun prop hinfected hside k hk => ?_) fun name prop hprop k hk => ?_⟩
  · exact ((hside k).mp hsusceptible).2 ((hinfected k).mp hk)
  · rw [hinfected, hside, hkeys]
    by_cases hk : k = initial
    · exact iff_of_true (.inl hk) (hk ▸ hin)
    · exact ⟨fun hor => (hor.resolve_left hk).1, fun hmem => .inr ⟨hmem, hk⟩⟩
  · exact (h.covered name prop hprop k).trans (hkeys k).symm
  · exact agentHasDialect_iff.mpr ((hrelated k _).mpr (.inr ⟨(hinfected k).mp hk, rfl, hin⟩))
  · exact agentHasDialect_iff.mpr ((hrelated k name).mpr
      (.inl (agentHasDialect_iff.mp (h.installed name prop hprop k hk))))

/-- Who receives a dialect changes sides, but a stranger is on no side before. -/
theorem partitioned_receiveGossip {net : GossipNetwork} (h : Partitioned net) (id : String)
    (dialect : Dialect) :
    Partitioned (receiveGossip net id dialect).1 ↔
      violations dialect ≠ [] ∨ id ∈ net.agents ∨ dialect.name ∉ net.active_propagations := by
  unfold receiveGossip
  by_cases hviolated : violations dialect ≠ []
  · rw [if_pos hviolated]
    exact iff_of_true h (.inl hviolated)
  rw [if_neg hviolated, or_iff_right hviolated]
  have hkeys : ∀ k, k ∈ install dialect.name net.agents id ↔ k ∈ net.agents := fun k =>
    mem_foldl_install [id] net.agents
  constructor
  · intro hreceived
    by_contra hno
    obtain ⟨hstranger, hrunning⟩ := not_or.mp hno
    obtain ⟨prop, hprop⟩ := mem_iff_exists.mp (not_not.mp hrunning)
    refine hstranger ((hkeys id).mp ((hreceived.covered dialect.name _
      ((getElem?_modify_eq _ _ _ _).trans ((if_pos rfl).trans (congrArg _ hprop))) id).mp
      (.inl ((mem_insert_iff _ id id).mpr (.inl rfl)))))
  · intro hknown
    have hcases : ∀ {P : String → PropagationState → Prop},
        (∀ prop prop' : PropagationState,
          net.active_propagations[dialect.name]? = some prop →
          (∀ k, k ∈ prop'.infected ↔ k = id ∨ k ∈ prop.infected) →
          (∀ k, k ∈ prop'.susceptible ↔ k ≠ id ∧ k ∈ prop.susceptible) →
          P dialect.name prop') →
        (∀ (name : String) (prop : PropagationState),
          net.active_propagations[name]? = some prop → P name prop) →
        ∀ (name : String) (prop : PropagationState),
        (net.active_propagations.modify dialect.name fun prop =>
          { prop with
            infected := prop.infected.insert id
            susceptible := prop.susceptible.erase id })[name]? = some prop → P name prop := by
      intro P hnew hold name prop' hprop'
      rw [getElem?_modify_eq] at hprop'
      by_cases heq : name = dialect.name
      case neg =>
        rw [if_neg heq] at hprop'
        exact hold name prop' hprop'
      rw [if_pos heq] at hprop'
      obtain ⟨prop, hprop, rfl⟩ := Option.map_eq_some_iff.mp hprop'
      subst heq
      exact hnew prop _ hprop (mem_insert_iff _ id) (mem_erase_iff _ id)
    have hagent : ∀ {prop : PropagationState},
        net.active_propagations[dialect.name]? = some prop → id ∈ net.agents := fun hprop =>
      hknown.resolve_right fun hidle => hidle (mem_iff_exists.mpr ⟨_, hprop⟩)
    have hrelated : ∀ a b, Related (install dialect.name net.agents id) a b ↔
        Related net.agents a b ∨ (a = id ∧ b = dialect.name ∧ id ∈ net.agents) :=
      fun a b => related_modify net.agents id dialect.name a b
    refine ⟨hcases (fun prop prop' hprop hinfected hside k hk hsusceptible => ?_) h.disjoint,
      hcases (fun prop prop' hprop hinfected hside k => ?_) fun name prop hprop k => ?_,
      hcases (fun prop prop' hprop hinfected hside k hk => ?_) fun name prop hprop k hk => ?_⟩
    · obtain ⟨hne, hsusceptible⟩ := (hside k).mp hsusceptible
      exact h.disjoint _ prop hprop k (((hinfected k).mp hk).resolve_left hne) hsusceptible
    · rw [hinfected, hside, hkeys, ← h.covered _ prop hprop]
      by_cases hk : k = id
      · exact iff_of_true (.inl (.inl hk)) ((h.covered _ prop hprop k).mpr (hk ▸ hagent hprop))
      · tauto
    · exact (h.covered name prop hprop k).trans (hkeys k).symm
    · refine agentHasDialect_iff.mpr ((hrelated k _).mpr ?_)
      rcases (hinfected k).mp hk with heq | hk
      · exact .inr ⟨heq, rfl, hagent hprop⟩
      · exact .inl (agentHasDialect_iff.mp (h.installed _ prop hprop k hk))
    · exact agentHasDialect_iff.mpr ((hrelated k name).mpr
        (.inl (agentHasDialect_iff.mp (h.installed name prop hprop k hk))))

-- ── A round ────

/-- Whom a round infects: susceptible neighbours of infected agents that they reach. -/
theorem mem_newlyInfected {net : GossipNetwork} {hit : String → String → Bool}
    {prop : PropagationState} {id : String} :
    id ∈ newlyInfected net hit prop ↔
      id ∈ prop.susceptible ∧ ∃ a ∈ prop.infected, id ∈ neighbors net a ∧ hit a id = true := by
  unfold newlyInfected
  rw [List.mem_flatMap]
  constructor
  · rintro ⟨a, ha, hmem⟩
    obtain ⟨hneighbor, hreached⟩ := List.mem_filter.mp hmem
    obtain ⟨hsusceptible, hhit⟩ := Bool.and_eq_true_iff.mp hreached
    exact ⟨Std.ExtTreeSet.contains_iff_mem.mp hsusceptible, a, Std.ExtTreeSet.mem_toList.mp ha,
      hneighbor, hhit⟩
  · rintro ⟨hsusceptible, a, ha, hneighbor, hhit⟩
    exact ⟨a, Std.ExtTreeSet.mem_toList.mpr ha, List.mem_filter.mpr ⟨hneighbor,
      Bool.and_eq_true_iff.mpr ⟨Std.ExtTreeSet.contains_iff_mem.mpr hsusceptible, hhit⟩⟩⟩

/-- The propagations after all rounds. -/
theorem playRounds_active (net : GossipNetwork) (name : String) :
    (playRounds net hit).1.active_propagations[name]?
      = net.active_propagations[name]?.map (infect · (newlyOf net hit name)) := by
  refine (stepPropagations_active (nodup_keys _) net name).trans ?_
  by_cases h : name ∈ net.active_propagations
  · exact if_pos (Std.ExtTreeMap.mem_keys.mpr h)
  · rw [if_neg fun hkey => h (Std.ExtTreeMap.mem_keys.mp hkey),
      Std.ExtTreeMap.getElem?_eq_none h]
    rfl

/-- A propagation that goes on has played its round. -/
theorem step_active {net : GossipNetwork} {name : String} {prop' : PropagationState}
    (h : (step net hit).1.active_propagations[name]? = some prop') :
    ∃ prop, net.active_propagations[name]? = some prop ∧
      (∀ id, id ∈ prop'.infected ↔ id ∈ newlyInfected net (hit name) prop ∨ id ∈ prop.infected) ∧
      ∀ id, id ∈ prop'.susceptible ↔
        id ∉ newlyInfected net (hit name) prop ∧ id ∈ prop.susceptible := by
  have hplayed := (foldl_dropPropagation _ (playRounds net hit).1).2.2 name prop' h
  rw [playRounds_active] at hplayed
  obtain ⟨prop, hprop, rfl⟩ := Option.map_eq_some_iff.mp hplayed
  have hnewly : newlyOf net hit name = newlyInfected net (hit name) prop := by
    unfold newlyOf
    rw [hprop]
    rfl
  rw [hnewly]
  exact ⟨prop, hprop, fun id => mem_foldl_insert _ _, fun id => mem_foldl_erase _ _⟩

/-- The agents after a round, and their dialects. -/
theorem step_agents (net : GossipNetwork) (a b : String) :
    (a ∈ (step net hit).1.agents ↔ a ∈ net.agents) ∧
    (Related (step net hit).1.agents a b ↔ Related net.agents a b ∨
      (b ∈ net.active_propagations ∧ a ∈ newlyOf net hit b ∧ a ∈ net.agents)) := by
  have hagents : (step net hit).1.agents = (playRounds net hit).1.agents :=
    (foldl_dropPropagation _ _).1
  rw [hagents, ← @Std.ExtTreeMap.mem_keys _ _ _ net.active_propagations]
  exact stepPropagations_agents (nodup_keys _) net

theorem wired_step {net : GossipNetwork} (h : Wired net) : Wired (step net hit).1 :=
  h.of_same ((foldl_dropPropagation _ _).2.1.trans (stepPropagations_topology _ net))
    fun id => (step_agents net id id).1

/-- Whom a round infects changes sides. -/
theorem partitioned_step {net : GossipNetwork} (h : Partitioned net) :
    Partitioned (step net hit).1 := by
  refine ⟨fun name prop' hprop' id hid hsusceptible => ?_, fun name prop' hprop' id => ?_,
    fun name prop' hprop' id hid => ?_⟩
  · obtain ⟨prop, hprop, hinfected, hside⟩ := step_active hprop'
    obtain ⟨hnew, hsusceptible⟩ := (hside id).mp hsusceptible
    exact h.disjoint name prop hprop id (((hinfected id).mp hid).resolve_left hnew) hsusceptible
  · obtain ⟨prop, hprop, hinfected, hside⟩ := step_active hprop'
    rw [hinfected, hside, (step_agents net id id).1, ← h.covered name prop hprop]
    have hnew : id ∈ newlyInfected net (hit name) prop → id ∈ prop.susceptible := fun hmem =>
      (mem_newlyInfected.mp hmem).1
    tauto
  · obtain ⟨prop, hprop, hinfected, -⟩ := step_active hprop'
    refine agentHasDialect_iff.mpr ((step_agents net id name).2.mpr ?_)
    rcases (hinfected id).mp hid with hnew | hold
    · refine .inr ⟨mem_iff_exists.mpr ⟨prop, hprop⟩, ?_,
        (h.covered name prop hprop id).mp (.inr (mem_newlyInfected.mp hnew).1)⟩
      unfold newlyOf
      rw [hprop]
      exact hnew
    · exact .inl (agentHasDialect_iff.mp (h.installed name prop hprop id hold))

/-- A round infects an agent with a dialect. -/
def NewlyInfected (net : GossipNetwork) (hit : String → String → String → Bool)
    (name id : String) : Prop :=
  ∃ before after, net.active_propagations[name]? = some before ∧
    (playRounds net hit).1.active_propagations[name]? = some after ∧
    id ∉ before.infected ∧ id ∈ after.infected

/-- A round reports whom it infects, each agent once for each dialect. -/
def ReportsOnce (net : GossipNetwork) (hit : String → String → String → Bool) : Prop :=
  (reported (step net hit).2).Nodup ∧
    ∀ name id, (name, id) ∈ reported (step net hit).2 ↔ NewlyInfected net hit name id

/-- No susceptible agent is reached by two infected neighbours. -/
def ReachedOnce (net : GossipNetwork) (hit : String → String → String → Bool) : Prop :=
  ∀ (name : String) (prop : PropagationState), net.active_propagations[name]? = some prop →
    ∀ id ∈ prop.susceptible, ∀ a ∈ prop.infected, ∀ b ∈ prop.infected,
      id ∈ neighbors net a → hit name a id = true →
      id ∈ neighbors net b → hit name b id = true → a = b

/-- What a round reports. -/
theorem step_reported (net : GossipNetwork) :
    reported (step net hit).2
      = net.active_propagations.keys.flatMap fun name => (newlyOf net hit name).map (name, ·) :=
  stepPropagations_reported (nodup_keys _) net

theorem mem_reported {net : GossipNetwork} {name id : String} :
    (name, id) ∈ reported (step net hit).2 ↔ ∃ prop, net.active_propagations[name]? = some prop ∧
      id ∈ newlyInfected net (hit name) prop := by
  rw [step_reported, List.mem_flatMap]
  constructor
  · rintro ⟨name', hname, hmem⟩
    obtain ⟨id', hid, heq⟩ := List.mem_map.mp hmem
    cases heq
    obtain ⟨prop, hprop⟩ := mem_iff_exists.mp (Std.ExtTreeMap.mem_keys.mp hname)
    unfold newlyOf at hid
    rw [hprop] at hid
    exact ⟨prop, hprop, hid⟩
  · rintro ⟨prop, hprop, hid⟩
    refine ⟨name, Std.ExtTreeMap.mem_keys.mpr (mem_iff_exists.mpr ⟨prop, hprop⟩),
      List.mem_map_of_mem ?_⟩
    unfold newlyOf
    rw [hprop]
    exact hid

/-- Everyone a round infects is reported, and nobody else. -/
theorem reported_iff_newlyInfected {net : GossipNetwork} (h : Partitioned net) (name id : String) :
    (name, id) ∈ reported (step net hit).2 ↔ NewlyInfected net hit name id := by
  rw [mem_reported]
  unfold NewlyInfected
  constructor
  · rintro ⟨prop, hprop, hid⟩
    refine ⟨prop, _, hprop, (playRounds_active net name).trans (congrArg _ hprop),
      fun hinfected => h.disjoint name prop hprop id hinfected (mem_newlyInfected.mp hid).1, ?_⟩
    unfold newlyOf
    rw [hprop]
    exact (mem_foldl_insert _ _).mpr (.inl hid)
  · rintro ⟨prop, after, hprop, hafter, hnot, hin⟩
    rw [playRounds_active, hprop] at hafter
    obtain rfl := Option.some.inj hafter
    unfold newlyOf at hin
    rw [hprop] at hin
    exact ⟨prop, hprop, ((mem_foldl_insert _ _).mp hin).resolve_right hnot⟩

/-- A propagation reports everyone once if nobody is reached twice. -/
theorem nodup_newlyInfected {net : GossipNetwork} {hit : String → String → Bool}
    {prop : PropagationState} :
    (newlyInfected net hit prop).Nodup ↔
      ∀ id ∈ prop.susceptible, ∀ a ∈ prop.infected, ∀ b ∈ prop.infected,
        id ∈ neighbors net a → hit a id = true →
        id ∈ neighbors net b → hit b id = true → a = b := by
  have hmem : ∀ a id, id ∈ (neighbors net a).filter (fun id =>
      prop.susceptible.contains id && hit a id) ↔
        id ∈ neighbors net a ∧ id ∈ prop.susceptible ∧ hit a id = true := fun a id => by
    rw [List.mem_filter, Bool.and_eq_true, Std.ExtTreeSet.contains_iff_mem]
  have hneighbors : ∀ a, (neighbors net a).Nodup := fun a => by
    unfold neighbors
    cases net.topology[a]? with
    | none => exact List.nodup_nil
    | some bs => exact nodup_toList bs
  unfold newlyInfected
  rw [List.nodup_flatMap]
  constructor
  · rintro ⟨-, hpairs⟩ id hid a ha b hb hna hha hnb hhb
    by_contra hne
    have hsymm : Std.Symm (Function.onFun List.Disjoint fun a => (neighbors net a).filter fun id =>
        prop.susceptible.contains id && hit a id) := ⟨fun _ _ hxy => List.Disjoint.symm hxy⟩
    have hdisjoint := hpairs.forall (Std.ExtTreeSet.mem_toList.mpr ha)
      (Std.ExtTreeSet.mem_toList.mpr hb) hne
    exact hdisjoint ((hmem a id).mpr ⟨hna, hid, hha⟩) ((hmem b id).mpr ⟨hnb, hid, hhb⟩)
  · intro honce
    refine ⟨fun a _ => (hneighbors a).filter _, ?_⟩
    refine (nodup_toList prop.infected).pairwise_of_forall_ne fun a ha b hb hne id hida hidb => ?_
    obtain ⟨hna, hid, hha⟩ := (hmem a id).mp hida
    obtain ⟨hnb, -, hhb⟩ := (hmem b id).mp hidb
    exact hne (honce id hid a (Std.ExtTreeSet.mem_toList.mp ha) b (Std.ExtTreeSet.mem_toList.mp hb)
      hna hha hnb hhb)

/-- A round reports everyone once exactly if it reaches nobody twice. -/
theorem reportsOnce_iff {net : GossipNetwork} (h : Partitioned net) :
    ReportsOnce net hit ↔ ReachedOnce net hit := by
  unfold ReportsOnce
  rw [and_iff_left (reported_iff_newlyInfected h), step_reported, List.nodup_flatMap]
  have hpairs : net.active_propagations.keys.Pairwise fun name name' =>
      List.Disjoint ((newlyOf net hit name).map (name, ·))
        ((newlyOf net hit name').map (name', ·)) := by
    refine (nodup_keys _).pairwise_of_forall_ne fun name _ name' _ hne entry hentry hentry' => ?_
    obtain ⟨_, -, rfl⟩ := List.mem_map.mp hentry
    obtain ⟨_, -, heq⟩ := List.mem_map.mp hentry'
    exact hne (congrArg Prod.fst heq).symm
  rw [and_iff_left hpairs]
  have hone : ∀ (name : String) (prop : PropagationState),
      net.active_propagations[name]? = some prop →
      (((newlyOf net hit name).map (name, ·)).Nodup ↔
        (newlyInfected net (hit name) prop).Nodup) := fun name prop hprop => by
    rw [List.nodup_map_iff (Prod.mk_right_injective name)]
    unfold newlyOf
    rw [hprop]
    rfl
  constructor
  · intro hall name prop hprop
    exact nodup_newlyInfected.mp ((hone name prop hprop).mp
      (hall name (Std.ExtTreeMap.mem_keys.mpr (mem_iff_exists.mpr ⟨prop, hprop⟩))))
  · intro honce name hname
    obtain ⟨prop, hprop⟩ := mem_iff_exists.mp (Std.ExtTreeMap.mem_keys.mp hname)
    exact (hone name prop hprop).mpr (nodup_newlyInfected.mpr (honce name prop hprop))

-- ── Runs ────

/-- The operations that keep the books: no agent joins while a propagation runs, a dialect that is
    on its way is received for agents of the network only, no round reaches an agent twice. -/
def Keeps (net : GossipNetwork) : Operation → Prop
  | .addAgent id _ => id ∈ net.agents ∨ ∀ name, name ∉ net.active_propagations
  | .removeAgent _ => True
  | .announceDialect _ _ => True
  | .receiveGossip id dialect =>
      violations dialect ≠ [] ∨ id ∈ net.agents ∨ dialect.name ∉ net.active_propagations
  | .step hit => ReachedOnce net hit

/-- The links stay links between agents, whatever happens. -/
theorem wired_perform {net : GossipNetwork} (h : Wired net) (op : Operation) :
    Wired (perform net op) := by
  cases op with
  | addAgent id drawn => exact wired_addAgent h id drawn
  | removeAgent id => exact wired_removeAgent h id
  | announceDialect dialect initial =>
      show Wired (announceDialect net dialect initial).1
      unfold announceDialect
      split
      · exact h
      split
      · exact h
      · exact h.of_same rfl fun id => mem_foldl_install [initial] net.agents
  | receiveGossip id dialect =>
      show Wired (receiveGossip net id dialect).1
      unfold receiveGossip
      split
      · exact h
      · exact h.of_same rfl fun k => mem_foldl_install [id] net.agents
  | step hit => exact wired_step h

theorem wired_performAll (config : GossipConfig) (ops : List Operation) :
    Wired (performAll (new config) ops) := by
  induction ops using List.reverseRecOn with
  | nil => exact wired_new config
  | append_singleton ops op ih =>
      unfold performAll
      rw [List.foldl_append]
      exact wired_perform ih op

/-- **An operation keeps the books exactly if it is one of those.** -/
theorem partitioned_perform {net : GossipNetwork} (h : Partitioned net) (op : Operation) :
    Partitioned (perform net op) ∧ (∀ hit, op = .step hit → ReportsOnce net hit) ↔
      Keeps net op := by
  cases op with
  | addAgent id drawn =>
      exact (and_iff_left fun _ hop => nomatch hop).trans (partitioned_addAgent h id drawn)
  | removeAgent id =>
      exact iff_of_true ⟨partitioned_removeAgent h id, fun _ hop => nomatch hop⟩ trivial
  | announceDialect dialect initial =>
      exact iff_of_true ⟨partitioned_announceDialect h dialect initial, fun _ hop => nomatch hop⟩
        trivial
  | receiveGossip id dialect =>
      exact (and_iff_left fun _ hop => nomatch hop).trans (partitioned_receiveGossip h id dialect)
  | step hit =>
      refine (and_iff_right (partitioned_step h)).trans (Iff.trans ?_ (reportsOnce_iff h))
      exact ⟨fun hall => hall hit rfl, fun hone _ hop => Operation.step.inj hop ▸ hone⟩

/-- The books of a run: after every operation the links are those of the agents and both sides of
    every propagation make up the network, and every round reports whom it infects once. -/
structure KeepsBooks (config : GossipConfig) (ops : List Operation) : Prop where
  wired : ∀ pre, pre <+: ops → Wired (performAll (new config) pre)
  partitioned : ∀ pre, pre <+: ops → Partitioned (performAll (new config) pre)
  reports : ∀ pre hit, pre ++ [.step hit] <+: ops → ReportsOnce (performAll (new config) pre) hit

/-- **A run keeps its books exactly if each of its operations does.** -/
theorem keepsBooks_iff (config : GossipConfig) (ops : List Operation) :
    KeepsBooks config ops ↔
      ∀ pre op, pre ++ [op] <+: ops → Keeps (performAll (new config) pre) op := by
  have hlast : ∀ pre op, performAll (new config) (pre ++ [op])
      = perform (performAll (new config) pre) op := fun pre op => List.foldl_append
  constructor
  · intro hbooks pre op hpre
    refine (partitioned_perform (hbooks.partitioned pre ((List.prefix_append _ _).trans hpre))
      op).mp ⟨hlast pre op ▸ hbooks.partitioned _ hpre, ?_⟩
    rintro hit rfl
    exact hbooks.reports pre hit hpre
  · intro hkeeps
    have hall : ∀ pre, pre <+: ops → Partitioned (performAll (new config) pre) := by
      intro pre
      induction pre using List.reverseRecOn with
      | nil => exact fun _ => partitioned_new config
      | append_singleton pre op ih =>
          intro hpre
          rw [hlast]
          exact ((partitioned_perform (ih ((List.prefix_append _ _).trans hpre)) op).mpr
            (hkeeps pre op hpre)).1
    refine ⟨fun pre _ => wired_performAll config pre, hall, fun pre hit hpre => ?_⟩
    exact ((partitioned_perform (hall pre ((List.prefix_append _ _).trans hpre)) _).mpr
      (hkeeps pre _ hpre)).2 hit rfl

-- ── A newcomer, a stranger and a double report ────

/-- Every agent is linked to every other. -/
def fullConfig : GossipConfig := ⟨100, .fullyConnected⟩

/-- Alice has a dialect to pass on. -/
def announced : List Operation :=
  [.addAgent "alice" fun _ => true, .announceDialect CbclRegistry.greeterDialect "alice"]

/-- Alice and Bob have a dialect to pass on to Carol. -/
def twoInfected : List Operation :=
  [.addAgent "alice" fun _ => true, .addAgent "bob" fun _ => true,
    .addAgent "carol" fun _ => true, .announceDialect CbclRegistry.greeterDialect "alice",
    .receiveGossip "bob" CbclRegistry.greeterDialect]

/-- What is computed of these runs. -/
theorem gossip_runs :
    "bob" ∉ (performAll (new fullConfig) announced).agents ∧
    "greeter" ∈ (performAll (new fullConfig) announced).active_propagations ∧
    violations CbclRegistry.greeterDialect = [] ∧
    reported (step (performAll (new fullConfig) twoInfected) fun _ _ _ => true).2
      = [("greeter", "carol"), ("greeter", "carol")] := by
  decide +kernel

/-- **The books are not always kept**: not when an agent joins while a dialect is on its way, not
    when a stranger receives it, and not when two agents reach a third in one round. -/
theorem books_not_kept :
    (¬ ∀ config ops, KeepsBooks config ops) ∧
      ¬ KeepsBooks fullConfig (announced ++ [.addAgent "bob" fun _ => true]) ∧
      ¬ KeepsBooks fullConfig (announced ++ [.receiveGossip "bob" CbclRegistry.greeterDialect]) ∧
      ¬ KeepsBooks fullConfig (twoInfected ++ [.step fun _ _ _ => true]) := by
  obtain ⟨hbob, hrunning, hclean, hdouble⟩ := gossip_runs
  have hnewcomer : ¬ KeepsBooks fullConfig (announced ++ [.addAgent "bob" fun _ => true]) := by
    intro hbooks
    have hjoined := hbooks.partitioned _ (List.prefix_refl _)
    rcases (partitioned_addAgent (hbooks.partitioned announced (List.prefix_append _ _)) "bob"
      fun _ => true).mp hjoined with hold | hidle
    · exact hbob hold
    · exact hidle "greeter" hrunning
  refine ⟨fun hall => hnewcomer (hall _ _), hnewcomer, fun hbooks => ?_, fun hbooks => ?_⟩
  · have hreceived := hbooks.partitioned _ (List.prefix_refl _)
    rcases (partitioned_receiveGossip (hbooks.partitioned announced (List.prefix_append _ _)) "bob"
      CbclRegistry.greeterDialect).mp hreceived with hviolated | hold | hidle
    · exact hviolated hclean
    · exact hbob hold
    · exact hidle hrunning
  · have hnodup := (hbooks.reports twoInfected _ (List.prefix_refl _)).1
    rw [hdouble] at hnodup
    exact (List.nodup_cons.mp hnodup).1 (List.mem_singleton_self _)

end CbclGossip
