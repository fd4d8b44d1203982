import Cbcl.DialectModel
import Cbcl.ShuffleProofs
import Cbcl.WorklistProofs

/-!
# Epidemic gossip

A `GossipNetwork` (`gossip.rs`) keeps the agents with the dialects installed on them, who is linked
to whom, and a propagation for every dialect on its way: the agents it has infected and those still
susceptible.  Agents join and leave, a dialect is announced, received, or passed on round by round.
Every draw of the network's generator is an argument of the operation that makes it.
-/

namespace CbclGossip

open CbclMessage CbclDialect

-- ── The network ────

/-- How new agents are linked; the edges of a random network are drawn. -/
inductive Topology where
  | fullyConnected
  | ring
  | random
deriving DecidableEq

/-- The configuration of a network. -/
structure GossipConfig where
  max_rounds : Nat
  topology : Topology

/-- The propagation of one dialect. -/
structure PropagationState where
  dialect : Dialect
  infected : BTreeSet String
  susceptible : BTreeSet String
  round : Nat

/-- What a network has done so far. -/
structure GossipStats where
  total_rounds : Nat
  successful_propagations : Nat
  failed_propagations : Nat
deriving DecidableEq

/-- A gossip network. -/
structure GossipNetwork where
  agents : BTreeMap String (BTreeSet String)
  topology : BTreeMap String (BTreeSet String)
  active_propagations : BTreeMap String PropagationState
  stats : GossipStats
  config : GossipConfig

/-- A network without agents. -/
def new (config : GossipConfig) : GossipNetwork := ⟨∅, ∅, ∅, ⟨0, 0, 0⟩, config⟩

/-- Whether an agent has a dialect installed. -/
def agentHasDialect (net : GossipNetwork) (agent_id dialect_name : String) : Bool :=
  (net.agents[agent_id]?.map (·.contains dialect_name)).getD false

/-- The neighbours of an agent, in order. -/
def neighbors (net : GossipNetwork) (agent_id : String) : List String :=
  (net.topology[agent_id]?.map (·.toList)).getD []

-- ── Agents ────

/-- The agents a new one is linked to, given the others in order. -/
def linkedTo (topology : Topology) (drawn : String → Bool) (others : List String) : List String :=
  match topology with
  | .fullyConnected => others
  | .ring => others.take 2
  | .random => others.filter drawn

/-- Link the new agent and another one. -/
def connect (new_agent_id : String) (topology : BTreeMap String (BTreeSet String)) (id : String) :
    BTreeMap String (BTreeSet String) :=
  (topology.modify new_agent_id (·.insert id)).modify id (·.insert new_agent_id)

/-- Link a new agent as the configured topology says. -/
def updateTopology (net : GossipNetwork) (new_agent_id : String) (drawn : String → Bool) :
    GossipNetwork :=
  { net with
    topology := (linkedTo net.config.topology drawn
      (net.agents.keys.filter (· ≠ new_agent_id))).foldl (connect new_agent_id) net.topology }

/-- Add an agent, unless it is there; whether it is new. -/
def addAgent (net : GossipNetwork) (id : String) (drawn : String → Bool) : GossipNetwork × Bool :=
  if id ∈ net.agents then (net, false)
  else
    (updateTopology
      { net with agents := net.agents.insert id ∅, topology := net.topology.insert id ∅ } id drawn,
      true)

/-- Remove an agent, from the propagations as well; whether it was there. -/
def removeAgent (net : GossipNetwork) (agent_id : String) : GossipNetwork × Bool :=
  if agent_id ∉ net.agents then (net, false)
  else
    ({ net with
        agents := net.agents.erase agent_id
        topology := (net.topology.erase agent_id).map fun _ neighbors => neighbors.erase agent_id
        active_propagations := net.active_propagations.map fun _ prop =>
          { prop with
            infected := prop.infected.erase agent_id
            susceptible := prop.susceptible.erase agent_id } },
      true)

-- ── Propagation ────

/-- Note a dialect as installed on an agent of the network. -/
def install (dialect_name : String) (agents : BTreeMap String (BTreeSet String)) (id : String) :
    BTreeMap String (BTreeSet String) :=
  agents.modify id (·.insert dialect_name)

/-- Start the propagation of a dialect: one agent has it, the others are susceptible. -/
def announceDialect (net : GossipNetwork) (dialect : Dialect) (initial_agent_id : String) :
    GossipNetwork × Option String :=
  if initial_agent_id ∉ net.agents then (net, none)
  else if dialect.name ∈ net.active_propagations then (net, none)
  else
    ({ net with
        agents := install dialect.name net.agents initial_agent_id
        active_propagations := net.active_propagations.insert dialect.name
          { dialect
            infected := (∅ : BTreeSet String).insert initial_agent_id
            susceptible := (net.agents.keys.filter (· ≠ initial_agent_id)).foldl (·.insert ·) ∅
            round := 0 } },
      some dialect.name)

/-- Whom one round of a propagation infects: every infected agent tries its susceptible
    neighbours in turn. -/
def newlyInfected (net : GossipNetwork) (hit : String → String → Bool) (prop : PropagationState) :
    List String :=
  prop.infected.toList.flatMap fun infected_id =>
    (neighbors net infected_id).filter fun neighbor_id =>
      prop.susceptible.contains neighbor_id && hit infected_id neighbor_id

/-- A propagation after a round. -/
def infect (prop : PropagationState) (ids : List String) : PropagationState :=
  { prop with
    infected := ids.foldl (·.insert ·) prop.infected
    susceptible := ids.foldl (·.erase ·) prop.susceptible
    round := prop.round + 1 }

/-- One round of one propagation; `hit` has the draws, by dialect, infected agent and neighbour. -/
def stepPropagation (hit : String → String → String → Bool) (net : GossipNetwork)
    (dialect_name : String) : GossipNetwork × List String :=
  match net.active_propagations[dialect_name]? with
  | none => (net, [])
  | some prop =>
      let newly_infected := newlyInfected net (hit dialect_name) prop
      ({ net with
          agents := newly_infected.foldl (install dialect_name) net.agents
          active_propagations := net.active_propagations.insert dialect_name
            (infect prop newly_infected) },
        newly_infected)

/-- One round of some propagations in turn, with the report of each that infects someone. -/
def stepPropagations (hit : String → String → String → Bool) :
    List String → GossipNetwork → GossipNetwork × List (String × List String)
  | [], net => (net, [])
  | dialect_name :: names, net =>
      let (net, newly_infected) := stepPropagation hit net dialect_name
      let (net, results) := stepPropagations hit names net
      (net, if newly_infected.isEmpty then results else (dialect_name, newly_infected) :: results)

/-- Whether a propagation is over, and how: nobody is susceptible, or it took too many rounds. -/
def outcome (max_rounds : Nat) (prop : PropagationState) : Option Bool :=
  if prop.susceptible.isEmpty then some true
  else if prop.round ≥ max_rounds then some false
  else none

/-- Drop one propagation that is over. -/
def dropPropagation (net : GossipNetwork) (entry : String × Bool) : GossipNetwork :=
  { net with
    active_propagations := net.active_propagations.erase entry.1
    stats :=
      if entry.2 then
        { net.stats with successful_propagations := net.stats.successful_propagations + 1 }
      else { net.stats with failed_propagations := net.stats.failed_propagations + 1 } }

/-- Drop the propagations that are over. -/
def cleanupCompletedPropagations (net : GossipNetwork) : GossipNetwork :=
  (net.active_propagations.toList.filterMap fun entry =>
    (outcome net.config.max_rounds entry.2).map (entry.1, ·)).foldl dropPropagation net

/-- The rounds of all propagations, before those that are over are dropped. -/
def playRounds (net : GossipNetwork) (hit : String → String → String → Bool) :
    GossipNetwork × List (String × List String) :=
  stepPropagations hit net.active_propagations.keys net

/-- One round of all propagations. -/
def step (net : GossipNetwork) (hit : String → String → String → Bool) :
    GossipNetwork × List (String × List String) :=
  let (net, results) := playRounds net hit
  let net := cleanupCompletedPropagations net
  ({ net with stats := { net.stats with total_rounds := net.stats.total_rounds + 1 } }, results)

-- ── Reception ────

/-- What R1, R2 and R3 hold against a received dialect. -/
def violations (dialect : Dialect) : List String :=
  r1Violations dialect
  ++ (if (invalidResourceBound dialect).isSome then
      ["R2 violation: invalid resource bounds in '" ++ dialect.name ++ "'"] else [])
  ++ (r3Violations dialect).map ("R3 violation: " ++ ·)

/-- Receive a dialect for an agent. -/
def receiveGossip (net : GossipNetwork) (agent_id : String) (dialect : Dialect) :
    GossipNetwork × Except (List String) Unit :=
  if violations dialect ≠ [] then (net, .error (violations dialect))
  else
    ({ net with
        agents := install dialect.name net.agents agent_id
        active_propagations := net.active_propagations.modify dialect.name fun prop =>
          { prop with
            infected := prop.infected.insert agent_id
            susceptible := prop.susceptible.erase agent_id } },
      .ok ())

-- ── Peers and connectivity ────

/-- Select up to `k` neighbours of an agent: all of them, or the first ones of a shuffle.  `draw`
    has the place drawn for each place; the network's generator has `2^31` states, so its draws are
    only some of these functions. -/
def selectPeers (net : GossipNetwork) (agent_id : String) (k : Nat) (draw : Nat → Nat) :
    List String :=
  let found := neighbors net agent_id
  if found.length ≤ k then found
  else (CbclShuffle.shuffle draw (found.length - 1) found.toArray).toList.take k

/-- The agents found from one of them; the fuel is what the links can put on the queue. -/
def visited (net : GossipNetwork) (start : String) : List String :=
  CbclWorklist.exploreWith (CbclWorklist.pushUnseen (neighbors net))
    (CbclWorklist.potential (neighbors net) net.topology.keys [start] []) [start] []

/-- Whether all agents are found from the first one. -/
def isConnected (net : GossipNetwork) : Bool :=
  match net.agents.keys.head? with
  | none => true
  | some start => (visited net start).length == net.agents.size

-- ── Simulation ────

/-- What a simulation reports. -/
structure SimulationResult where
  dialect_name : String
  rounds : Nat
  final_coverage : Rat
  successful : Bool

/-- Play rounds as long as the propagation runs; none when the fuel is used up before. -/
def playOut (draws : Nat → String → String → String → Bool) (dialect_name : String) :
    Nat → Nat → GossipNetwork → Option (GossipNetwork × Nat)
  | 0, _, _ => none
  | fuel + 1, rounds, net =>
      if dialect_name ∈ net.active_propagations then
        playOut draws dialect_name fuel (rounds + 1) (step net (draws rounds)).1
      else some (net, rounds)

/-- Announce a dialect and play rounds until its propagation is over; `draws` has the draws of
    each round. -/
def simulatePropagation (net : GossipNetwork) (draws : Nat → String → String → String → Bool)
    (dialect : Dialect) (initial_agent_id : String) : GossipNetwork × Option SimulationResult :=
  match announceDialect net dialect initial_agent_id with
  | (net, none) => (net, none)
  | (net, some dialect_name) =>
      match playOut draws dialect_name (net.config.max_rounds + 2) 0 net with
      | none => (net, none)
      | some (net, rounds) =>
          let successful := net.agents.toList.all (·.2.contains dialect_name)
          (net, some
            { dialect_name
              rounds
              final_coverage := if successful then 1 else 0
              successful })

-- ── Runs ────

/-- The operations on a network, with their draws. -/
inductive Operation where
  | addAgent (id : String) (drawn : String → Bool)
  | removeAgent (agent_id : String)
  | announceDialect (dialect : Dialect) (initial_agent_id : String)
  | receiveGossip (agent_id : String) (dialect : Dialect)
  | step (hit : String → String → String → Bool)

/-- The network after an operation. -/
def perform (net : GossipNetwork) : Operation → GossipNetwork
  | .addAgent id drawn => (addAgent net id drawn).1
  | .removeAgent agent_id => (removeAgent net agent_id).1
  | .announceDialect dialect initial_agent_id => (announceDialect net dialect initial_agent_id).1
  | .receiveGossip agent_id dialect => (receiveGossip net agent_id dialect).1
  | .step hit => (step net hit).1

/-- The network after some operations. -/
def performAll (net : GossipNetwork) (ops : List Operation) : GossipNetwork :=
  ops.foldl perform net

end CbclGossip
