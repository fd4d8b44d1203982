import Cbcl.PipelineModel

/-!
# An agent's buffered messages

A message that a buffering agent cannot judge yet waits in the queue of its thread (`policy.rs`);
`reevaluate_pending` judges the waiting messages again over the store and the dialects of the
moment (`agent.rs`).  The live path combines the outcomes of the installed protocols and stops
early; the buffered path combines three-valued verdicts and does not.
-/

namespace CbclAgent

open CbclMessage CbclProtocol CbclStore CbclThreadedStore CbclVerifier CbclDialect CbclPipeline

/-- Strong Kleene disjunction: `Valid` absorbs, then `Unknown`; of two violations the left one. -/
def join : VerificationResult → VerificationResult → VerificationResult
  | .valid, _ => .valid
  | _, .valid => .valid
  | .unknown, _ => .unknown
  | _, .unknown => .unknown
  | .violation v, .violation _ => .violation v

-- ── The queue ────

/-- Judge the entries of one queue in turn: a resolved entry leaves, the rest keeps its order. -/
def reEvaluateQueue (decide : PendingEntry → Option VerificationResult) :
    List PendingEntry → List (PendingEntry × PolicyOutcome) × List PendingEntry
  | [] => ([], [])
  | entry :: rest =>
      let later := reEvaluateQueue decide rest
      match decide entry with
      | none => (later.1, entry :: later.2)
      | some .unknown => (later.1, entry :: later.2)
      | some .valid => ((entry, .accept) :: later.1, later.2)
      | some (.violation v) => ((entry, .reject v) :: later.1, later.2)

/-- Drop the entries at the front of a queue that are older than the time to live. -/
def expireQueue (now ttl : Nat) (queue : List PendingEntry) :
    List PendingEntry × List PendingEntry :=
  queue.span fun entry => now - entry.inserted_at ≥ ttl

/-- Judge every entry under the thread of its queue.  Which queue comes first is of no matter. -/
def reEvaluateWith (q : PendingQueue)
    (decide : PendingEntry → ThreadId → Option VerificationResult) :
    List (PendingEntry × PolicyOutcome) × PendingQueue :=
  let visited := q.queues.map fun thread queue => reEvaluateQueue (decide · thread) queue
  (visited.toList.flatMap fun (_, judged) => judged.1,
    { q with queues := visited.map fun _ judged => judged.2 })

/-- Drop the expired entries of every queue. -/
def expire (q : PendingQueue) (now : Nat) : List PendingEntry × PendingQueue :=
  let visited := q.queues.map fun _ queue => expireQueue now q.ttl queue
  (visited.toList.flatMap fun (_, parts) => parts.1,
    { q with queues := visited.map fun _ parts => parts.2 })

-- ── The agent ────

/-- A fresh agent; only a buffering one has room in its queue. -/
def withPolicy (id : String) (policy : UnknownPredecessorPolicy) (merge_policy : MergePolicy) :
    Agent where
  id := id
  beliefs := ∅
  dialect_registry := DialectRegistry.new
  message_queue := []
  conversation_threads := ∅
  message_store := ThreadedMessageStore.new
  policy := policy
  pending_queue := match policy with
    | .buffer max_pending ttl => ⟨max_pending, ttl, ∅⟩
    | .reject => ⟨0, 0, ∅⟩
  merge_policy := merge_policy

/-- Combine two verdicts under the merge policy. -/
def combine (merge : MergePolicy) (prev r : VerificationResult) : VerificationResult :=
  match merge with
  | .conjunction => prev.meet r
  | .disjunction => join prev r

/-- Combine the gated verdicts of the dialects in turn; all of them are asked. -/
def combinedOver (a : Agent) (entry : PendingEntry) (thread : ThreadId) :
    Option VerificationResult → List Dialect → Option VerificationResult
  | combined, [] => combined
  | combined, d :: rest =>
      match participates entry.performative d with
      | none => combinedOver a entry thread combined rest
      | some proto =>
          let r := gateUnresolvedViolation
            (verifyCausal entry.performative entry.caused_by a.message_store.toStore proto thread)
            (causedByResolved entry.caused_by a.message_store thread)
          combinedOver a entry thread
            (some (match combined with
              | none => r
              | some prev => combine a.merge_policy prev r)) rest

/-- Judge the buffered messages again: the resolved entries, and the agent without them. -/
def reevaluatePending (a : Agent) : List (PendingEntry × PolicyOutcome) × Agent :=
  let judged := reEvaluateWith a.pending_queue fun entry thread =>
    combinedOver a entry thread none a.dialect_registry.dialects
  (judged.1, { a with pending_queue := judged.2 })

/-- A step of an agent's life.  The embedder holds a mutable reference to the store and installs
    dialects: whatever it makes of the two is covered. -/
inductive AgentStep : Agent → Agent → Prop where
  | evaluateAndApply (a : Agent) (msg : Message) (now : Nat) :
      AgentStep a (a.evaluateAndApplyAt msg now).2
  | grow (a : Agent) (store : ThreadedMessageStore) (registry : DialectRegistry) :
      AgentStep a { a with message_store := store, dialect_registry := registry }
  | reevaluatePending (a : Agent) : AgentStep a (reevaluatePending a).2
  | expire (a : Agent) (now : Nat) :
      AgentStep a { a with pending_queue := (expire a.pending_queue now).2 }
  | messages (a : Agent) (message_queue : List Message) (beliefs : Finset SExpr)
      (conversation_threads : BTreeMap String (List Message)) :
      AgentStep a { a with
        message_queue := message_queue
        beliefs := beliefs
        conversation_threads := conversation_threads }

/-- The agents that arise from a fresh one. -/
inductive Reachable (policy : UnknownPredecessorPolicy) (merge : MergePolicy) : Agent → Prop where
  | fresh (id : String) : Reachable policy merge (withPolicy id policy merge)
  | step {a a' : Agent} : Reachable policy merge a → AgentStep a a' → Reachable policy merge a'

end CbclAgent
