import Cbcl.AgentModel

/-!
# The pending queue and its calls

A `PendingQueue` (`policy.rs`) holds messages with unknown predecessors, thread by thread.  Three
calls change it: `enqueue` evicts the oldest entry of a full thread, `expire` drains the front of
every thread, `re_evaluate_with` asks a closure about every entry.  A `Run` is a history of such
calls on a fresh queue with everything that went in and everything that was handed back.
-/

namespace CbclPendingQueue

open CbclMessage CbclProtocol CbclStore CbclVerifier CbclPipeline CbclAgent

/-- Why a buffered message is dropped. -/
inductive DropReason where
  | causalTimeout
  | evicted
deriving DecidableEq

/-- An entry a call hands back, with why it left. -/
abbrev Departure := PendingEntry × (DropReason ⊕ PolicyOutcome)

/-- A closure with a state of its own: its answer depends on all it has been asked, the newest
    question first. -/
abbrev Decide := List (PendingEntry × ThreadId) → Option VerificationResult

/-- A fresh queue. -/
def new (max_pending ttl : Nat) : PendingQueue := ⟨max_pending, ttl, ∅⟩

/-- The entries of a thread, oldest first. -/
def queueOf (q : PendingQueue) (thread : ThreadId) : List PendingEntry :=
  (q.queues[thread]?).getD []

/-- The entry an `enqueue` evicts. -/
def evicted (q : PendingQueue) (entry : PendingEntry) : Option PendingEntry :=
  if (queueOf q entry.thread).length ≥ q.max_pending then (queueOf q entry.thread).head? else none

/-- What comes of the visit of a queue: the resolved entries, the others, and all questions. -/
structure Judged where
  resolved : List (PendingEntry × PolicyOutcome)
  kept : List PendingEntry
  asked : List (PendingEntry × ThreadId)

/-- Ask about the entries of one queue in turn. -/
def judgeQueue (decide : Decide) (thread : ThreadId) (asked : List (PendingEntry × ThreadId)) :
    List PendingEntry → Judged
  | [] => ⟨[], [], asked⟩
  | entry :: rest =>
      let asked := (entry, thread) :: asked
      let later := judgeQueue decide thread asked rest
      match decide asked with
      | none => { later with kept := entry :: later.kept }
      | some .unknown => { later with kept := entry :: later.kept }
      | some .valid => { later with resolved := (entry, .accept) :: later.resolved }
      | some (.violation v) => { later with resolved := (entry, .reject v) :: later.resolved }

/-- Visit the queues of some threads in turn. -/
def judgeQueues (decide : Decide) : List (PendingEntry × ThreadId) → List ThreadId →
    PendingQueue → List (PendingEntry × PolicyOutcome) × PendingQueue
  | _, [], q => ([], q)
  | asked, thread :: order, q =>
      match q.queues[thread]? with
      | none => judgeQueues decide asked order q
      | some queue =>
          let judged := judgeQueue decide thread asked queue
          let later := judgeQueues decide judged.asked order
            { q with queues := q.queues.insert thread judged.kept }
          (judged.resolved ++ later.1, later.2)

/-- A call.  The order of a re-evaluation is the one in which the hash map yields its threads. -/
inductive Call where
  | enqueue (entry : PendingEntry)
  | expire (now : Nat)
  | reEvaluateWith (decide : Decide) (order : List ThreadId)

/-- What a call hands back, and the queue after it. -/
def perform (q : PendingQueue) : Call → List Departure × PendingQueue
  | .enqueue entry => ((evicted q entry).toList.map (·, .inl .evicted), q.enqueue entry)
  | .expire now => ((expire q now).1.map (·, .inl .causalTimeout), (expire q now).2)
  | .reEvaluateWith decide order =>
      let judged := judgeQueues decide [] order q
      (judged.1.map fun e => (e.1, .inr e.2), judged.2)

/-- A history of calls: what went in, what was handed back, and the queue. -/
structure Run where
  entered : List PendingEntry
  departed : List Departure
  queue : PendingQueue

/-- One more call. -/
def Run.step (r : Run) (call : Call) : Run where
  entered := r.entered ++ match call with
    | .enqueue entry => [entry]
    | _ => []
  departed := r.departed ++ (perform r.queue call).1
  queue := (perform r.queue call).2

/-- Calls on a fresh queue. -/
def runOf (max_pending ttl : Nat) (calls : List Call) : Run :=
  calls.foldl Run.step ⟨[], [], new max_pending ttl⟩

end CbclPendingQueue
