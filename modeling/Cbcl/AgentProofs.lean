import Cbcl.AgentModel
import Cbcl.PipelineProofs

/-!
# Buffered and live messages are judged alike

The policy maps verdicts to outcomes, and the two ways of combining commute with it
(`applyPolicy_combine`): `meet` becomes the strictest outcome, `join` the most permissive one.
Stopping early loses nothing, because what stops the live walk absorbs whatever follows.  The
entries of a reachable agent carry the data of their messages, so judging an entry is judging its
message.
-/

namespace CbclAgent

open CbclMessage CbclProtocol CbclStore CbclThreadedStore CbclVerifier CbclDialect CbclPipeline
open CbclEvaluator

-- ── Combining verdicts and combining outcomes ────

/-- Combine two outcomes under the merge policy. -/
def mergeOutcomes (merge : MergePolicy) (prev outcome : PolicyOutcome) : PolicyOutcome :=
  match merge with
  | .conjunction => mergePolicyOutcomes prev outcome
  | .disjunction => mergePolicyOutcomesDisjunctive prev outcome

/-- **The policy maps combined verdicts to combined outcomes.** -/
theorem applyPolicy_combine (merge : MergePolicy) (policy : UnknownPredecessorPolicy)
    (prev r : VerificationResult) : applyPolicy (combine merge prev r) policy
      = mergeOutcomes merge (applyPolicy prev policy) (applyPolicy r policy) := by
  cases merge with
  | conjunction =>
      cases prev <;> cases r <;> cases policy <;> rfl
  | disjunction =>
      cases prev <;> cases r <;> cases policy <;> rfl

section Walks

variable (a : Agent) (entry : PendingEntry) (thread : ThreadId)

/-- A verdict that ends the live walk absorbs every later one. -/
theorem combine_decided {prev : VerificationResult}
    (h : a.decided (applyPolicy prev a.policy) = true) (r : VerificationResult) :
    combine a.merge_policy prev r = prev := by
  unfold Agent.decided at h
  cases hmerge : a.merge_policy with
  | conjunction =>
      cases prev with
      | violation v => rfl
      | valid => rw [hmerge] at h; exact nomatch h
      | unknown => rw [hmerge] at h; cases hp : a.policy <;> rw [hp] at h <;> exact nomatch h
  | disjunction =>
      cases prev with
      | valid => rfl
      | violation v => rw [hmerge] at h; exact nomatch h
      | unknown => rw [hmerge] at h; cases hp : a.policy <;> rw [hp] at h <;> exact nomatch h

theorem combinedOver_decided {prev : VerificationResult}
    (h : a.decided (applyPolicy prev a.policy) = true) (ds : List Dialect) :
    combinedOver a entry thread (some prev) ds = some prev := by
  induction ds with
  | nil => rfl
  | cons d rest ih =>
      rw [combinedOver]
      cases participates entry.performative d with
      | none => exact ih
      | some proto =>
          dsimp only
          rw [combine_decided a h]
          exact ih

/-- The decision of the live walk after one more outcome. -/
def nextDecision (a : Agent) (decision : Option PolicyOutcome) (outcome : PolicyOutcome) :
    PolicyOutcome :=
  match decision with
  | none => outcome
  | some prev => mergeOutcomes a.merge_policy prev outcome

/-- The combined verdict after one more verdict. -/
def nextVerdict (a : Agent) (combined : Option VerificationResult) (r : VerificationResult) :
    VerificationResult :=
  match combined with
  | none => r
  | some prev => combine a.merge_policy prev r

/-- The gated verdict of one protocol on an entry. -/
def gatedVerdict (a : Agent) (entry : PendingEntry) (thread : ThreadId) (proto : CausalProtocol) :
    VerificationResult :=
  gateUnresolvedViolation
    (verifyCausal entry.performative entry.caused_by a.message_store.toStore proto thread)
    (causedByResolved entry.caused_by a.message_store thread)

theorem verdictOver_cons (decision : Option PolicyOutcome) (d : Dialect) (rest : List Dialect)
    {proto : CausalProtocol} (h : participates entry.performative d = some proto) :
    a.verdictOver entry.performative entry.caused_by thread decision (d :: rest) =
      if a.decided (nextDecision a decision (applyPolicy (gatedVerdict a entry thread proto)
          a.policy)) then
        some (nextDecision a decision (applyPolicy (gatedVerdict a entry thread proto) a.policy))
      else a.verdictOver entry.performative entry.caused_by thread
        (some (nextDecision a decision (applyPolicy (gatedVerdict a entry thread proto)
          a.policy))) rest := by
  rw [Agent.verdictOver, h]
  cases decision with
  | none => rfl
  | some prev => rfl

theorem combinedOver_cons (combined : Option VerificationResult) (d : Dialect)
    (rest : List Dialect) {proto : CausalProtocol}
    (h : participates entry.performative d = some proto) :
    combinedOver a entry thread combined (d :: rest) = combinedOver a entry thread
      (some (nextVerdict a combined (gatedVerdict a entry thread proto))) rest := by
  rw [combinedOver, h]
  cases combined with
  | none => rfl
  | some prev => rfl

/-- **The two walks agree**: the outcome of the live walk is that of the combined verdict. -/
theorem verdictOver_eq : ∀ (ds : List Dialect) (combined : Option VerificationResult),
    a.verdictOver entry.performative entry.caused_by thread
        (combined.map (applyPolicy · a.policy)) ds
      = (combinedOver a entry thread combined ds).map (applyPolicy · a.policy) := by
  intro ds
  induction ds with
  | nil => exact fun _ => rfl
  | cons d rest ih =>
      intro combined
      cases hpart : participates entry.performative d with
      | none =>
          rw [Agent.verdictOver, combinedOver, hpart]
          exact ih combined
      | some proto =>
          -- the decision after this dialect is the outcome of the verdict after it
          have hnext : nextDecision a (combined.map (applyPolicy · a.policy))
                (applyPolicy (gatedVerdict a entry thread proto) a.policy)
              = applyPolicy (nextVerdict a combined (gatedVerdict a entry thread proto))
                a.policy := by
            cases combined with
            | none => rfl
            | some prev => exact (applyPolicy_combine a.merge_policy a.policy prev _).symm
          rw [verdictOver_cons a entry thread _ d rest hpart,
            combinedOver_cons a entry thread _ d rest hpart, hnext]
          by_cases hdecided : a.decided (applyPolicy
              (nextVerdict a combined (gatedVerdict a entry thread proto)) a.policy) = true
          · rw [if_pos hdecided, combinedOver_decided a entry thread hdecided]
            rfl
          · rw [if_neg hdecided]
            exact ih (some _)

end Walks

-- ── The queue ────

/-- The data of an entry are those of the innermost simple message it buffers. -/
def Describes (entry : PendingEntry) : Prop :=
  ∃ performative recipient content params thread sender,
    entry.message.innermostSimple
        = some (.simple performative recipient content params thread sender entry.caused_by) ∧
      entry.performative = performative.name ∧ entry.thread = threadOrDefault thread

/-- Every entry waits in the queue of its thread and carries the data of its message. -/
def QueueOk (q : PendingQueue) : Prop :=
  ∀ t queue, q.queues[t]? = some queue → ∀ entry ∈ queue, entry.thread = t ∧ Describes entry

/-- Judging an entry is judging its message. -/
theorem causalVerdict_eq (a : Agent) {entry : PendingEntry} (h : Describes entry) :
    a.causalVerdict entry.message
      = (combinedOver a entry entry.thread none a.dialect_registry.dialects).map
          (applyPolicy · a.policy) := by
  obtain ⟨performative, recipient, content, params, thread, sender, hm, hperf, hthread⟩ := h
  rw [← verdictOver_eq]
  unfold Agent.causalVerdict
  rw [hm]
  dsimp only
  rw [hperf, hthread]
  rfl

theorem mem_reEvaluateQueue_iff {decide : PendingEntry → Option VerificationResult} :
    ∀ {queue : List PendingEntry} {entry : PendingEntry},
      (∀ outcome, (entry, outcome) ∈ (reEvaluateQueue decide queue).1 ↔ entry ∈ queue ∧
        ((outcome = .accept ∧ decide entry = some .valid) ∨
          ∃ v, outcome = .reject v ∧ decide entry = some (.violation v))) ∧
      (entry ∈ (reEvaluateQueue decide queue).2 ↔ entry ∈ queue ∧
        decide entry ≠ some .valid ∧ ∀ v, decide entry ≠ some (.violation v)) := by
  intro queue entry
  induction queue with
  | nil => simp [reEvaluateQueue]
  | cons e rest ih =>
      obtain ⟨hres, hkept⟩ := ih
      rw [reEvaluateQueue]
      by_cases he : entry = e
      · subst he
        cases hd : decide entry with
        | none => simp [hres, hkept, hd]
        | some r =>
            cases r with
            | unknown => simp [hres, hkept, hd]
            | valid => simp [hres, hkept, hd]
            | violation v => simp [hres, hkept, hd]
      · cases hd : decide e with
        | none => simp [hres, hkept, he]
        | some r =>
            cases r with
            | unknown => simp [hres, hkept, he]
            | valid => simp [hres, hkept, he]
            | violation v => simp [hres, hkept, he]

/-- Judging a queue keeps a part of it. -/
theorem reEvaluateQueue_subset {decide : PendingEntry → Option VerificationResult}
    {queue : List PendingEntry} {entry : PendingEntry}
    (h : entry ∈ (reEvaluateQueue decide queue).2) : entry ∈ queue :=
  (mem_reEvaluateQueue_iff.2.mp h).1

/-- A queue that only loses entries stays in order. -/
theorem QueueOk.of_map {q : PendingQueue} (h : QueueOk q)
    (f : ThreadId → List PendingEntry → List PendingEntry)
    (hf : ∀ t queue, ∀ entry ∈ f t queue, entry ∈ queue) :
    QueueOk { q with queues := q.queues.map f } := by
  intro t queue ht entry he
  dsimp only at ht
  rw [Std.ExtTreeMap.getElem?_map, Option.map_eq_some_iff] at ht
  obtain ⟨old, hold, rfl⟩ := ht
  exact h t old hold entry (hf t old entry he)

theorem QueueOk.enqueue {q : PendingQueue} (h : QueueOk q) {entry : PendingEntry}
    (hentry : Describes entry) : QueueOk (q.enqueue entry) := by
  intro t queue ht e he
  unfold PendingQueue.enqueue at ht
  dsimp only at ht
  rw [CbclTreeMap.getElem?_insert_eq] at ht
  by_cases hthread : t = entry.thread
  · rw [if_pos hthread] at ht
    rw [← Option.some.inj ht] at he
    rcases List.mem_append.mp he with he | he
    · -- what is kept of the old queue
      have hold : e ∈ (q.queues[entry.thread]?).getD [] := by
        split at he
        · exact List.mem_of_mem_tail he
        · exact he
      cases hq : q.queues[entry.thread]? with
      | none => rw [hq] at hold; exact nomatch hold
      | some old =>
          rw [hq] at hold
          rw [hthread]
          exact h _ old hq e hold
    · rw [List.mem_singleton.mp he]
      exact ⟨hthread.symm, hentry⟩
  · rw [if_neg hthread] at ht
    exact h t queue ht e he

-- ── Runs ────

/-- Applying effects leaves the queue and the policies alone. -/
theorem applyEffect_frame (a : Agent) (effect : Effect) :
    (a.applyEffect effect).pending_queue = a.pending_queue ∧
      (a.applyEffect effect).policy = a.policy ∧
      (a.applyEffect effect).merge_policy = a.merge_policy := by
  cases effect <;> exact ⟨rfl, rfl, rfl⟩

theorem applyEffects_frame (effects : List Effect) : ∀ a : Agent,
    (effects.foldl Agent.applyEffect a).pending_queue = a.pending_queue ∧
      (effects.foldl Agent.applyEffect a).policy = a.policy ∧
      (effects.foldl Agent.applyEffect a).merge_policy = a.merge_policy := by
  induction effects with
  | nil => exact fun a => ⟨rfl, rfl, rfl⟩
  | cons effect effects ih =>
      intro a
      obtain ⟨h1, h2, h3⟩ := applyEffect_frame a effect
      obtain ⟨k1, k2, k3⟩ := ih (a.applyEffect effect)
      rw [List.foldl_cons]
      exact ⟨k1.trans h1, k2.trans h2, k3.trans h3⟩

/-- What an agent keeps to through its life. -/
structure AgentOk (policy : UnknownPredecessorPolicy) (merge : MergePolicy) (a : Agent) : Prop where
  policy : a.policy = policy
  merge : a.merge_policy = merge
  queue : QueueOk a.pending_queue

theorem AgentOk.withPolicy (id : String) (policy : UnknownPredecessorPolicy) (merge : MergePolicy) :
    AgentOk policy merge (withPolicy id policy merge) := by
  refine ⟨rfl, rfl, fun t queue ht => ?_⟩
  cases policy with
  | buffer max_pending ttl => exact nomatch ht.symm.trans Std.ExtTreeMap.getElem?_empty
  | reject => exact nomatch ht.symm.trans Std.ExtTreeMap.getElem?_empty

/-- Buffering a message files an entry that describes it. -/
theorem AgentOk.bufferPending {policy : UnknownPredecessorPolicy} {merge : MergePolicy} {a : Agent}
    (h : AgentOk policy merge a) (msg : Message) (now : Nat) :
    AgentOk policy merge (a.bufferPending msg now) := by
  unfold Agent.bufferPending
  split
  · rename_i performative recipient content params thread sender caused_by hm
    exact ⟨h.policy, h.merge, h.queue.enqueue
      ⟨performative, recipient, content, params, thread, sender, hm, rfl, rfl⟩⟩
  · exact h

/-- **One step** keeps the agent in order. -/
theorem AgentOk.step {policy : UnknownPredecessorPolicy} {merge : MergePolicy} {a a' : Agent}
    (h : AgentOk policy merge a) (hstep : AgentStep a a') : AgentOk policy merge a' := by
  cases hstep with
  | evaluateAndApply msg now =>
      unfold Agent.evaluateAndApplyAt
      split
      · exact h
      · exact h
      · exact h.bufferPending msg now
      · split
        · exact h
        · rename_i result hresult
          obtain ⟨h1, h2, h3⟩ := applyEffects_frame result.effects a
          have hthread : ∀ (b : Agent) (t : Option String), AgentOk policy merge b →
              AgentOk policy merge (b.appendToThread t msg) := by
            intro b t hb
            cases t with
            | none => exact hb
            | some t => exact ⟨hb.policy, hb.merge, hb.queue⟩
          exact hthread _ _ ⟨h2.trans h.policy, h3.trans h.merge, by rw [h1]; exact h.queue⟩
  | grow store registry => exact ⟨h.policy, h.merge, h.queue⟩
  | reevaluatePending =>
      refine ⟨h.policy, h.merge, ?_⟩
      unfold CbclAgent.reevaluatePending reEvaluateWith
      dsimp only
      rw [Std.ExtTreeMap.map_map]
      exact h.queue.of_map _ fun t queue entry he => reEvaluateQueue_subset he
  | expire now =>
      refine ⟨h.policy, h.merge, ?_⟩
      unfold CbclAgent.expire expireQueue
      dsimp only
      rw [Std.ExtTreeMap.map_map]
      exact h.queue.of_map _ fun t queue entry he => by
        rw [List.span_eq_takeWhile_dropWhile] at he
        exact (List.dropWhile_sublist _).subset he
  | messages message_queue beliefs conversation_threads => exact ⟨h.policy, h.merge, h.queue⟩

theorem Reachable.ok {policy : UnknownPredecessorPolicy} {merge : MergePolicy} {a : Agent}
    (h : Reachable policy merge a) : AgentOk policy merge a := by
  induction h with
  | fresh id => exact AgentOk.withPolicy id policy merge
  | step _ hstep ih => exact ih.step hstep

-- ── Judging again ────

/-- What is resolved: some entry of some queue, with the outcome its verdict decides. -/
theorem mem_reevaluatePending_iff {a : Agent} {entry : PendingEntry} {outcome : PolicyOutcome} :
    (entry, outcome) ∈ (reevaluatePending a).1 ↔ ∃ t queue,
      a.pending_queue.queues[t]? = some queue ∧ (entry, outcome) ∈ (reEvaluateQueue
        (fun entry => combinedOver a entry t none a.dialect_registry.dialects) queue).1 := by
  unfold reevaluatePending reEvaluateWith
  simp only [List.mem_flatMap, Prod.exists, Std.ExtTreeMap.mem_toList_iff_getElem?_eq_some,
    Std.ExtTreeMap.getElem?_map, Option.map_eq_some_iff]
  constructor
  · rintro ⟨t, resolved, kept, ⟨queue, hq, hjudged⟩, hin⟩
    exact ⟨t, queue, hq, by rw [hjudged]; exact hin⟩
  · rintro ⟨t, queue, hq, hin⟩
    exact ⟨t, _, _, ⟨queue, hq, rfl⟩, hin⟩

/-- What stays queued. -/
theorem queue_reevaluatePending {a : Agent} {t : ThreadId} {queue : List PendingEntry}
    (hq : a.pending_queue.queues[t]? = some queue) :
    (reevaluatePending a).2.pending_queue.queues[t]? = some (reEvaluateQueue
      (fun entry => combinedOver a entry t none a.dialect_registry.dialects) queue).2 := by
  unfold reevaluatePending reEvaluateWith
  dsimp only
  rw [Std.ExtTreeMap.getElem?_map, Std.ExtTreeMap.getElem?_map, hq]
  rfl

/-- Under a buffering policy an outcome tells its verdict. -/
theorem applyPolicy_buffer {policy : UnknownPredecessorPolicy} {max_pending ttl : Nat}
    (hpolicy : policy = .buffer max_pending ttl) (r : Option VerificationResult) :
    (r.map (applyPolicy · policy) = some .accept ↔ r = some .valid) ∧
      ∀ v, r.map (applyPolicy · policy) = some (.reject v) ↔ r = some (.violation v) := by
  subst hpolicy
  cases r with
  | none => simp
  | some r => cases r <;> simp [applyPolicy]

/-- **Buffered and live messages are judged alike.**  In every reachable state of a buffering
    agent, whatever has become of its store and its dialects, a waiting entry is resolved with
    the outcome that a live verdict on its message has at that moment, if that is acceptance or
    rejection; every other entry stays queued, and nothing else is resolved. -/
theorem reevaluatePending_live {max_pending ttl : Nat} {merge : MergePolicy} {a : Agent}
    (h : Reachable (.buffer max_pending ttl) merge a) :
    (∀ (t : ThreadId) (queue : List PendingEntry), a.pending_queue.queues[t]? = some queue →
      ∀ entry ∈ queue,
      ((entry, .accept) ∈ (reevaluatePending a).1 ↔
        a.causalVerdict entry.message = some .accept) ∧
      (∀ v, (entry, .reject v) ∈ (reevaluatePending a).1 ↔
        a.causalVerdict entry.message = some (.reject v)) ∧
      (entry ∈ ((reevaluatePending a).2.pending_queue.queues[t]?).getD [] ↔
        a.causalVerdict entry.message ≠ some .accept ∧
          ∀ v, a.causalVerdict entry.message ≠ some (.reject v))) ∧
    ∀ r ∈ (reevaluatePending a).1, ∃ (t : ThreadId) (queue : List PendingEntry),
      a.pending_queue.queues[t]? = some queue ∧ r.1 ∈ queue ∧
        a.causalVerdict r.1.message = some r.2 := by
  obtain ⟨hpolicy, -, hqueue⟩ := h.ok
  -- an entry is judged by the verdict on its message
  have hlive : ∀ (t : ThreadId) (queue : List PendingEntry),
      a.pending_queue.queues[t]? = some queue → ∀ entry ∈ queue,
      entry.thread = t ∧ (a.causalVerdict entry.message = some .accept ↔
        combinedOver a entry t none a.dialect_registry.dialects = some .valid) ∧
      ∀ v, a.causalVerdict entry.message = some (.reject v) ↔
        combinedOver a entry t none a.dialect_registry.dialects = some (.violation v) := by
    intro t queue hq entry he
    obtain ⟨ht, hdescribes⟩ := hqueue t queue hq entry he
    rw [causalVerdict_eq a hdescribes, ht]
    exact ⟨rfl, applyPolicy_buffer hpolicy _⟩
  -- an entry resolved anywhere is resolved in its own queue
  have hown : ∀ (t : ThreadId) (queue : List PendingEntry),
      a.pending_queue.queues[t]? = some queue → ∀ entry ∈ queue, ∀ outcome,
      (entry, outcome) ∈ (reevaluatePending a).1 ↔
        ((outcome = .accept ∧ a.causalVerdict entry.message = some .accept) ∨
          ∃ v, outcome = .reject v ∧ a.causalVerdict entry.message = some (.reject v)) := by
    intro t queue hq entry he outcome
    obtain ⟨ht, haccept, hreject⟩ := hlive t queue hq entry he
    simp only [haccept, hreject]
    rw [mem_reevaluatePending_iff]
    constructor
    · rintro ⟨t', queue', hq', hin⟩
      obtain ⟨he', hcases⟩ := (mem_reEvaluateQueue_iff.1 outcome).mp hin
      obtain rfl : t' = t := (hlive t' queue' hq' entry he').1.symm.trans ht
      exact hcases
    · intro hcases
      exact ⟨t, queue, hq, (mem_reEvaluateQueue_iff.1 outcome).mpr ⟨he, hcases⟩⟩
  refine ⟨fun t queue hq entry he => ⟨?_, fun v => ?_, ?_⟩, ?_⟩
  · rw [hown t queue hq entry he]
    simp
  · rw [hown t queue hq entry he]
    simp
  · obtain ⟨-, haccept, hreject⟩ := hlive t queue hq entry he
    rw [queue_reevaluatePending hq, Option.getD_some, mem_reEvaluateQueue_iff.2]
    simp only [he, true_and, ne_eq, haccept, hreject]
  · rintro ⟨entry, outcome⟩ hr
    obtain ⟨t, queue, hq, hin⟩ := mem_reevaluatePending_iff.mp hr
    obtain ⟨he, -⟩ := (mem_reEvaluateQueue_iff.1 outcome).mp hin
    refine ⟨t, queue, hq, he, ?_⟩
    rcases (hown t queue hq entry he outcome).mp hr with ⟨rfl, hv⟩ | ⟨v, rfl, hv⟩
    · exact hv
    · exact hv

/-- A dialect in which a `tick` follows a `tock`. -/
def ticking : Dialect :=
  { baseDialect with
    name := "ticks"
    causal_protocol := some ⟨Std.ExtTreeMap.ofList
      [("tick", ⟨"tick", [.single "tock"], []⟩)] compare⟩ }

/-- A `tick` that cites `h1`. -/
def tickMessage : Message :=
  .simple (.custom "tick") none (.list []) [] (some "t") none (some (.single "h1"))

/-- A buffering agent with the ticking dialect. -/
def ticker : Agent :=
  { withPolicy "clock" (.buffer 4 60) .disjunction with
    dialect_registry := ⟨[baseDialect, ticking], rfl⟩ }

/-- The ticker after the tick and then the `tock` it cites. -/
def tickerLater : Agent :=
  { (ticker.evaluateAndApplyAt tickMessage 0).2 with
    message_store := (ThreadedMessageStore.new.append "h1" "t"
      (.simple (.custom "tock") none (.list []) [] (some "t") none (some .begin))).2 }

/-- The waiting tick is accepted once its predecessor has arrived. -/
theorem reevaluatePending_live_tick :
    ((⟨"", tickMessage, "t", "tick", some (.single "h1"), 0⟩, .accept) :
      PendingEntry × PolicyOutcome) ∈ (reevaluatePending tickerLater).1 := by
  have hreach : Reachable (.buffer 4 60) .disjunction tickerLater :=
    .step (.step (.step (.fresh "clock") (.grow _ _ _)) (.evaluateAndApply ticker tickMessage 0))
      (.grow _ _ (ticker.evaluateAndApplyAt tickMessage 0).2.dialect_registry)
  have hverdict : ticker.causalVerdict tickMessage = some .buffered := by decide +kernel
  have hbuffered : (ticker.evaluateAndApplyAt tickMessage 0).2
      = ticker.bufferPending tickMessage 0 := by
    unfold Agent.evaluateAndApplyAt
    rw [hverdict]
  have hqueue : tickerLater.pending_queue.queues["t"]?
      = some [⟨"", tickMessage, "t", "tick", some (.single "h1"), 0⟩] := by
    unfold tickerLater
    rw [hbuffered]
    exact Std.ExtTreeMap.getElem?_insert_self
  refine ((reevaluatePending_live hreach).1 "t" _ hqueue _ (List.mem_singleton.mpr rfl)).1.mpr ?_
  unfold tickerLater
  rw [hbuffered]
  decide +kernel

end CbclAgent
