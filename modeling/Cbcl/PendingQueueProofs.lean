import Cbcl.PendingQueueModel
import Cbcl.TreeMapProofs

/-!
# Bounds and conservation of the pending queue

Whatever calls are made on a fresh queue, every entry that went in is waiting in the queue of its
thread or was handed back, as often as it went in, and what waits is in the order it came.  The
bound on a thread holds unless no entry is allowed at all: `enqueue` makes room for the new entry
by evicting an old one, of which there is none then.  An expired entry can stay behind one that
has not expired, since `expire` looks at the front only.
-/

namespace CbclPendingQueue

open CbclMessage CbclProtocol CbclStore CbclVerifier CbclPipeline CbclAgent CbclTreeMap
open scoped List

-- ── One call ────

/-- The entries of one thread among some departures. -/
def departedOf (departed : List Departure) (thread : ThreadId) : List PendingEntry :=
  (departed.map Prod.fst).filter (·.thread = thread)

/-- The entries of one thread among those that entered. -/
def enteredOf (entered : List PendingEntry) (thread : ThreadId) : List PendingEntry :=
  entered.filter (·.thread = thread)

/-- An entry is past its time. -/
def Expired (now ttl : Nat) (entry : PendingEntry) : Prop := ttl ≤ now - entry.inserted_at

instance (now ttl : Nat) : DecidablePred (Expired now ttl) := fun _ =>
  inferInstanceAs (Decidable (_ ≤ _))

/-- Every entry waits in the queue of its thread. -/
def Housed (q : PendingQueue) : Prop := ∀ thread, ∀ e ∈ queueOf q thread, e.thread = thread

theorem departedOf_append (xs ys : List Departure) (thread : ThreadId) :
    departedOf (xs ++ ys) thread = departedOf xs thread ++ departedOf ys thread := by
  unfold departedOf
  rw [List.map_append, List.filter_append]

/-- What a visit keeps is a part of the queue in its order, and the rest is resolved. -/
theorem judgeQueue_spec (decide : Decide) (thread : ThreadId) :
    ∀ (queue : List PendingEntry) (asked : List (PendingEntry × ThreadId)),
      (judgeQueue decide thread asked queue).kept.Sublist queue ∧
        queue.Perm ((judgeQueue decide thread asked queue).kept
          ++ (judgeQueue decide thread asked queue).resolved.map Prod.fst) := by
  intro queue
  induction queue with
  | nil => exact fun asked => ⟨List.Sublist.refl _, List.Perm.refl _⟩
  | cons entry rest ih =>
      intro asked
      obtain ⟨hsub, hperm⟩ := ih ((entry, thread) :: asked)
      have hstay : (entry :: (judgeQueue decide thread ((entry, thread) :: asked) rest).kept).Sublist
          (entry :: rest) := hsub.cons_cons entry
      have hkeep := hperm.cons entry
      have hresolve : (entry :: rest).Perm
          ((judgeQueue decide thread ((entry, thread) :: asked) rest).kept
            ++ entry :: (judgeQueue decide thread ((entry, thread) :: asked) rest).resolved.map
              Prod.fst) := hkeep.trans List.perm_middle.symm
      rw [judgeQueue]
      cases decide ((entry, thread) :: asked) with
      | none => exact ⟨hstay, hkeep⟩
      | some verdict =>
          cases verdict with
          | unknown => exact ⟨hstay, hkeep⟩
          | valid => exact ⟨hsub.cons entry, hresolve⟩
          | violation v => exact ⟨hsub.cons entry, hresolve⟩

/-- **A re-evaluation resolves a part of every thread and keeps the rest in order.** -/
theorem judgeQueues_spec (decide : Decide) : ∀ (order : List ThreadId)
    (asked : List (PendingEntry × ThreadId)) (q : PendingQueue), Housed q → ∀ thread,
      (queueOf (judgeQueues decide asked order q).2 thread).Sublist (queueOf q thread) ∧
        (queueOf q thread).Perm (queueOf (judgeQueues decide asked order q).2 thread
          ++ ((judgeQueues decide asked order q).1.map Prod.fst).filter (·.thread = thread)) := by
  intro order
  induction order with
  | nil => exact fun asked q _ thread => ⟨List.Sublist.refl _, by simp [judgeQueues]⟩
  | cons s order ih =>
      intro asked q hq thread
      rw [judgeQueues]
      cases hget : q.queues[s]? with
      | none => exact ih asked q hq thread
      | some queue =>
          dsimp only
          obtain ⟨hsub, hperm⟩ := judgeQueue_spec decide s queue asked
          generalize judgeQueue decide s asked queue = judged at hsub hperm
          have hold : queueOf q s = queue := by
            unfold queueOf
            rw [hget]
            rfl
          have hnew : ∀ t, queueOf { q with queues := q.queues.insert s judged.kept } t
              = if t = s then judged.kept else queueOf q t := by
            intro t
            unfold queueOf
            rw [getElem?_insert_eq]
            split
            · rfl
            · rfl
          have hhoused : Housed { q with queues := q.queues.insert s judged.kept } := by
            intro t e he
            rw [hnew] at he
            split at he
            · rename_i hts
              exact hq t e (by rw [hts, hold]; exact hsub.subset he)
            · exact hq t e he
          obtain ⟨hlater, hrest⟩ := ih judged.asked _ hhoused thread
          rw [hnew] at hlater hrest
          rw [List.map_append, List.filter_append]
          have hresolved : ∀ e ∈ judged.resolved.map Prod.fst, e.thread = s := fun e he =>
            hq s e (hold ▸ hperm.mem_iff.mpr (List.mem_append_right _ he))
          by_cases hts : thread = s
          · subst hts
            rw [if_pos rfl] at hlater hrest
            have hall : (judged.resolved.map Prod.fst).filter (·.thread = thread)
                = judged.resolved.map Prod.fst :=
              List.filter_eq_self.mpr fun e he => decide_eq_true (hresolved e he)
            rw [hold, hall]
            refine ⟨hlater.trans hsub, hperm.trans ((hrest.append_right _).trans ?_)⟩
            rw [List.append_assoc]
            exact List.perm_append_comm.append_left _
          · rw [if_neg hts] at hlater hrest
            have hnone : (judged.resolved.map Prod.fst).filter (·.thread = thread) = [] := by
              refine List.filter_eq_nil_iff.mpr fun e he heq => hts ?_
              exact (of_decide_eq_true heq).symm.trans (hresolved e he)
            rw [hnone, List.nil_append]
            exact ⟨hlater, hrest⟩

/-- The entries of one key among the values of a list of distinct keys. -/
theorem filter_flatMap_of_keys {f : List PendingEntry → List PendingEntry} {thread : ThreadId} :
    ∀ entries : List (ThreadId × List PendingEntry), (entries.map Prod.fst).Nodup →
      (∀ e ∈ entries, ∀ p ∈ f e.2, p.thread = e.1) →
        (entries.flatMap fun e => f e.2).filter (·.thread = thread)
          = ((entries.find? (·.1 = thread)).map fun e => f e.2).getD [] := by
  intro entries
  induction entries with
  | nil => exact fun _ _ => rfl
  | cons e rest ih =>
      intro hnodup hhoused
      rw [List.map_cons, List.nodup_cons] at hnodup
      have hrest := ih hnodup.2 fun x hx => hhoused x (List.mem_cons_of_mem _ hx)
      have hhead := hhoused e List.mem_cons_self
      rw [List.flatMap_cons, List.filter_append, hrest]
      by_cases hkey : e.1 = thread
      · have hnone : rest.find? (·.1 = thread) = none := List.find?_eq_none.mpr fun x hx heq =>
          hnodup.1 (List.mem_map.mpr ⟨x, hx, (of_decide_eq_true heq).trans hkey.symm⟩)
        have hall : (f e.2).filter (·.thread = thread) = f e.2 :=
          List.filter_eq_self.mpr fun p hp => decide_eq_true ((hhead p hp).trans hkey)
        rw [hnone, hall, List.find?_cons_of_pos (by simpa using hkey)]
        exact List.append_nil _
      · have hnone : (f e.2).filter (·.thread = thread) = [] :=
          List.filter_eq_nil_iff.mpr fun p hp heq =>
            hkey ((hhead p hp).symm.trans (of_decide_eq_true heq))
        rw [hnone, List.find?_cons_of_neg (by simpa using hkey)]
        rfl

/-- What `expire` leaves of a queue starts with an entry that has not expired. -/
theorem expireQueue_spec (now ttl : Nat) (queue : List PendingEntry) :
    queue = (expireQueue now ttl queue).1 ++ (expireQueue now ttl queue).2 ∧
      (∀ e ∈ (expireQueue now ttl queue).1, Expired now ttl e) ∧
      ∀ e rest, (expireQueue now ttl queue).2 = e :: rest → ¬ Expired now ttl e := by
  unfold expireQueue
  rw [List.span_eq_takeWhile_dropWhile]
  refine ⟨List.takeWhile_append_dropWhile.symm, fun e he => ?_, fun e rest heq => ?_⟩
  · have htrue := List.mem_takeWhile_imp he
    exact of_decide_eq_true htrue
  · have hhead := List.head?_dropWhile_not (fun e => decide (now - e.inserted_at ≥ ttl)) queue
    dsimp only at heq
    rw [heq] at hhead
    exact of_decide_eq_false hhead

theorem queueOf_expire (q : PendingQueue) (now : Nat) (thread : ThreadId) :
    queueOf (expire q now).2 thread = (expireQueue now q.ttl (queueOf q thread)).2 := by
  unfold queueOf expire
  dsimp only
  rw [Std.ExtTreeMap.getElem?_map, Std.ExtTreeMap.getElem?_map]
  cases q.queues[thread]? with
  | none => rfl
  | some queue => rfl

/-- What `expire` hands back of a thread is the front of its queue. -/
theorem expire_departed {q : PendingQueue} (hq : Housed q) (now : Nat) (thread : ThreadId) :
    (expire q now).1.filter (·.thread = thread)
      = (expireQueue now q.ttl (queueOf q thread)).1 := by
  have hentries : (expire q now).1
      = q.queues.toList.flatMap fun e => (expireQueue now q.ttl e.2).1 := by
    unfold expire
    dsimp only
    rw [Std.ExtTreeMap.toList_map, List.flatMap_map]
  have hnodup : (q.queues.toList.map Prod.fst).Nodup := by
    rw [Std.ExtTreeMap.map_fst_toList_eq_keys]
    exact nodup_keys q.queues
  rw [hentries]
  refine (filter_flatMap_of_keys (f := fun queue => (expireQueue now q.ttl queue).1) _ hnodup
    ?_).trans ?_
  rotate_left
  · cases hget : q.queues[thread]? with
    | none =>
        have hnone : q.queues.toList.find? (·.1 = thread) = none := by
          refine List.find?_eq_none.mpr fun e he heq => ?_
          have hin := Std.ExtTreeMap.mem_toList_iff_getElem?_eq_some.mp he
          rw [of_decide_eq_true heq, hget] at hin
          exact nomatch hin
        unfold queueOf
        rw [hnone, hget]
        rfl
    | some queue =>
        have hin : (thread, queue) ∈ q.queues.toList :=
          Std.ExtTreeMap.mem_toList_iff_getElem?_eq_some.mpr hget
        cases hfind : q.queues.toList.find? (·.1 = thread) with
        | none => exact absurd (decide_eq_true rfl) (List.find?_eq_none.mp hfind _ hin)
        | some e =>
            have hfound := List.find?_some hfind
            have hkey : e.1 = thread := of_decide_eq_true hfound
            have he := Std.ExtTreeMap.mem_toList_iff_getElem?_eq_some.mp
              (List.mem_of_find?_eq_some hfind)
            rw [hkey, hget] at he
            unfold queueOf
            rw [hget, Option.some.inj he]
            rfl
  · intro e he p hp
    have hin := Std.ExtTreeMap.mem_toList_iff_getElem?_eq_some.mp he
    refine hq e.1 p ?_
    unfold queueOf
    rw [hin, (expireQueue_spec now q.ttl e.2).1]
    exact List.mem_append_left _ hp

theorem queueOf_enqueue (q : PendingQueue) (entry : PendingEntry) (thread : ThreadId) :
    queueOf (q.enqueue entry) thread = if thread = entry.thread then
        (if (queueOf q entry.thread).length ≥ q.max_pending then (queueOf q entry.thread).tail
          else queueOf q entry.thread) ++ [entry]
      else queueOf q thread := by
  unfold queueOf PendingQueue.enqueue
  dsimp only
  rw [getElem?_insert_eq]
  split
  · rfl
  · rfl

theorem enteredOf_singleton (entry : PendingEntry) (thread : ThreadId) :
    enteredOf [entry] thread = if thread = entry.thread then [entry] else [] := by
  unfold enteredOf
  by_cases hthread : thread = entry.thread
  · rw [if_pos hthread]
    exact List.filter_cons_of_pos (decide_eq_true hthread.symm)
  · rw [if_neg hthread]
    exact List.filter_cons_of_neg (by simpa using fun heq => hthread heq.symm)

/-- An evicted entry is of the thread that was full. -/
theorem departedOf_evicted {q : PendingQueue} (hq : Housed q) (entry : PendingEntry)
    (thread : ThreadId) :
    departedOf ((evicted q entry).toList.map (·, .inl .evicted)) thread
      = if thread = entry.thread then (evicted q entry).toList else [] := by
  have hhoused : ∀ e ∈ (evicted q entry).toList, e.thread = entry.thread := by
    intro e he
    have he := Option.mem_toList.mp he
    unfold evicted at he
    split at he
    · exact hq entry.thread e (List.mem_of_mem_head? he)
    · exact nomatch he
  have hmap : ((evicted q entry).toList.map
      (·, (Sum.inl DropReason.evicted : DropReason ⊕ PolicyOutcome))).map Prod.fst
      = (evicted q entry).toList := by
    rw [List.map_map]
    exact List.map_id _
  unfold departedOf
  rw [hmap]
  by_cases hthread : thread = entry.thread
  · rw [if_pos hthread]
    exact List.filter_eq_self.mpr fun e he => decide_eq_true ((hhoused e he).trans hthread.symm)
  · rw [if_neg hthread]
    exact List.filter_eq_nil_iff.mpr fun e he heq =>
      hthread ((of_decide_eq_true heq).symm.trans (hhoused e he))

/-- The entries a call brings in. -/
def incoming : Call → List PendingEntry
  | .enqueue entry => [entry]
  | _ => []

/-- **What one call does to a thread.**  The queue afterwards is a part of the old one and the new
    entry, in order, and what is missing is handed back. -/
theorem perform_spec {q : PendingQueue} (hq : Housed q) (call : Call) (thread : ThreadId) :
    (queueOf (perform q call).2 thread).Sublist
        (queueOf q thread ++ enteredOf (incoming call) thread) ∧
      (queueOf q thread ++ enteredOf (incoming call) thread).Perm
        (queueOf (perform q call).2 thread ++ departedOf (perform q call).1 thread) := by
  cases call with
  | enqueue entry =>
      dsimp only [perform, incoming]
      rw [queueOf_enqueue, enteredOf_singleton, departedOf_evicted hq]
      by_cases hthread : thread = entry.thread
      · subst hthread
        rw [if_pos rfl, if_pos rfl, if_pos rfl]
        unfold evicted
        split
        · cases queueOf q entry.thread with
          | nil => exact ⟨List.Sublist.refl _, List.Perm.refl _⟩
          | cons oldest rest =>
              refine ⟨(List.sublist_cons_self oldest rest).append_right _, ?_⟩
              show ([oldest] ++ (rest ++ [entry])).Perm (rest ++ [entry] ++ [oldest])
              exact List.perm_append_comm
        · refine ⟨List.Sublist.refl _, ?_⟩
          rw [Option.toList_none, List.append_nil]
      · rw [if_neg hthread, if_neg hthread, if_neg hthread]
        exact ⟨List.sublist_append_left _ _, List.Perm.refl _⟩
  | expire now =>
      dsimp only [perform]
      obtain ⟨hsplit, -⟩ := expireQueue_spec now q.ttl (queueOf q thread)
      have hdeparted : departedOf ((expire q now).1.map (·, .inl .causalTimeout)) thread
          = (expireQueue now q.ttl (queueOf q thread)).1 := by
        unfold departedOf
        rw [List.map_map, ← expire_departed hq now thread]
        exact congrArg _ (List.map_id _)
      rw [queueOf_expire, hdeparted]
      have hnothing : ∀ xs : List PendingEntry, xs ++ enteredOf [] thread = xs := List.append_nil
      dsimp only [incoming]
      rw [hnothing]
      generalize expireQueue now q.ttl (queueOf q thread) = parts at hsplit
      rw [hsplit]
      exact ⟨List.sublist_append_right _ _, List.perm_append_comm⟩
  | reEvaluateWith decide order =>
      dsimp only [perform]
      have hdeparted : departedOf ((judgeQueues decide [] order q).1.map fun e => (e.1, .inr e.2))
          thread = ((judgeQueues decide [] order q).1.map Prod.fst).filter (·.thread = thread) := by
        unfold departedOf
        rw [List.map_map]
        rfl
      rw [hdeparted]
      have hnothing : ∀ xs : List PendingEntry, xs ++ enteredOf [] thread = xs := List.append_nil
      dsimp only [incoming]
      rw [hnothing]
      exact judgeQueues_spec decide order [] q hq thread

-- ── Runs ────

theorem runOf_snoc (max_pending ttl : Nat) (calls : List Call) (call : Call) :
    runOf max_pending ttl (calls ++ [call]) = (runOf max_pending ttl calls).step call := by
  unfold runOf
  rw [List.foldl_append]
  rfl

/-- What every run keeps up: what waits in a thread came for it in this order, and everything that
    came for it waits there or was handed back. -/
structure Conserved (r : Run) : Prop where
  ordered : ∀ thread, (queueOf r.queue thread).Sublist (enteredOf r.entered thread)
  complete : ∀ thread, (enteredOf r.entered thread).Perm
    (queueOf r.queue thread ++ departedOf r.departed thread)

theorem Conserved.housed {r : Run} (h : Conserved r) : Housed r.queue := fun thread _ he =>
  of_decide_eq_true (List.mem_filter.mp ((h.ordered thread).subset he)).2

theorem Run.step_eq (r : Run) (call : Call) : r.step call =
    ⟨r.entered ++ incoming call, r.departed ++ (perform r.queue call).1,
      (perform r.queue call).2⟩ := by
  cases call with
  | enqueue entry => rfl
  | expire now => rfl
  | reEvaluateWith decide order => rfl

/-- A call conserves the entries. -/
theorem Conserved.step {r : Run} (h : Conserved r) (call : Call) : Conserved (r.step call) := by
  rw [r.step_eq call]
  constructor
  · intro thread
    obtain ⟨hsub, -⟩ := perform_spec h.housed call thread
    show (queueOf (perform r.queue call).2 thread).Sublist
      (enteredOf (r.entered ++ incoming call) thread)
    rw [enteredOf, List.filter_append]
    exact hsub.trans ((h.ordered thread).append_right _)
  · intro thread
    obtain ⟨-, hperm⟩ := perform_spec h.housed call thread
    show (enteredOf (r.entered ++ incoming call) thread).Perm
      (queueOf (perform r.queue call).2 thread
        ++ departedOf (r.departed ++ (perform r.queue call).1) thread)
    rw [departedOf_append, enteredOf, List.filter_append]
    calc enteredOf r.entered thread ++ enteredOf (incoming call) thread
      _ ~ queueOf r.queue thread ++ departedOf r.departed thread
            ++ enteredOf (incoming call) thread := (h.complete thread).append_right _
      _ ~ queueOf r.queue thread ++ enteredOf (incoming call) thread
            ++ departedOf r.departed thread := by
          rw [List.append_assoc, List.append_assoc]
          exact List.perm_append_comm.append_left _
      _ ~ queueOf (perform r.queue call).2 thread ++ departedOf (perform r.queue call).1 thread
            ++ departedOf r.departed thread := hperm.append_right _
      _ ~ queueOf (perform r.queue call).2 thread ++ (departedOf r.departed thread
            ++ departedOf (perform r.queue call).1 thread) := by
          rw [List.append_assoc]
          exact List.perm_append_comm.append_left _

/-- **Nothing is lost, nothing is doubled, nothing overtakes.** -/
theorem conserved_runOf (max_pending ttl : Nat) (calls : List Call) :
    Conserved (runOf max_pending ttl calls) := by
  induction calls using List.reverseRecOn with
  | nil => exact ⟨fun _ => List.Sublist.refl _, fun _ => List.Perm.refl _⟩
  | append_singleton calls call ih =>
      rw [runOf_snoc]
      exact ih.step call

theorem judgeQueues_frame (decide : Decide) : ∀ (order : List ThreadId)
    (asked : List (PendingEntry × ThreadId)) (q : PendingQueue),
      (judgeQueues decide asked order q).2.max_pending = q.max_pending ∧
        (judgeQueues decide asked order q).2.ttl = q.ttl := by
  intro order
  induction order with
  | nil => exact fun _ _ => ⟨rfl, rfl⟩
  | cons thread order ih =>
      intro asked q
      rw [judgeQueues]
      cases q.queues[thread]? with
      | none => exact ih asked q
      | some queue => exact ih _ _

/-- No call changes the bounds. -/
theorem perform_frame (q : PendingQueue) (call : Call) :
    (perform q call).2.max_pending = q.max_pending ∧ (perform q call).2.ttl = q.ttl := by
  cases call with
  | enqueue entry => exact ⟨rfl, rfl⟩
  | expire now => exact ⟨rfl, rfl⟩
  | reEvaluateWith decide order => exact judgeQueues_frame decide order [] q

theorem runOf_frame (max_pending ttl : Nat) (calls : List Call) :
    (runOf max_pending ttl calls).queue.max_pending = max_pending ∧
      (runOf max_pending ttl calls).queue.ttl = ttl := by
  induction calls using List.reverseRecOn with
  | nil => exact ⟨rfl, rfl⟩
  | append_singleton calls call ih =>
      rw [runOf_snoc]
      obtain ⟨hmax, httl⟩ := perform_frame (runOf max_pending ttl calls).queue call
      exact ⟨hmax.trans ih.1, httl.trans ih.2⟩

/-- With room for an entry, a call keeps every thread within its bound. -/
theorem perform_bounded {q : PendingQueue} (hq : Housed q) (hroom : 0 < q.max_pending)
    (h : ∀ thread, (queueOf q thread).length ≤ q.max_pending) (call : Call) (thread : ThreadId) :
    (queueOf (perform q call).2 thread).length ≤ q.max_pending := by
  have hshrinks : incoming call = [] →
      (queueOf (perform q call).2 thread).length ≤ q.max_pending := by
    intro hnone
    have hsub := (perform_spec hq call thread).1
    rw [hnone] at hsub
    exact (hsub.length_le.trans_eq (congrArg _ (List.append_nil _))).trans (h thread)
  cases call with
  | enqueue entry =>
      dsimp only [perform]
      rw [queueOf_enqueue]
      split
      · have hlen := h entry.thread
        rw [List.length_append, List.length_singleton]
        split
        · rw [List.length_tail]
          omega
        · omega
      · exact h thread
  | expire now => exact hshrinks rfl
  | reEvaluateWith decide order => exact hshrinks rfl

theorem runOf_bounded {max_pending : Nat} (ttl : Nat) {calls : List Call}
    (hroom : 0 < max_pending ∨ ∀ entry, .enqueue entry ∉ calls) (thread : ThreadId) :
    (queueOf (runOf max_pending ttl calls).queue thread).length ≤ max_pending := by
  induction calls using List.reverseRecOn generalizing thread with
  | nil => exact Nat.zero_le _
  | append_singleton calls call ih =>
      rw [runOf_snoc]
      have hq := (conserved_runOf max_pending ttl calls).housed
      obtain ⟨hmax, -⟩ := runOf_frame max_pending ttl calls
      have hprev := ih (hroom.imp_right fun hnone entry hin =>
        hnone entry (List.mem_append_left _ hin))
      show (queueOf (perform (runOf max_pending ttl calls).queue call).2 thread).length ≤ _
      rcases hroom with hroom | hnone
      · have hbounded := perform_bounded hq (hmax.symm ▸ hroom) (by rw [hmax]; exact hprev) call
          thread
        rw [hmax] at hbounded
        exact hbounded
      · have hsub := (perform_spec hq call thread).1
        have hincoming : incoming call = [] := by
          cases call with
          | enqueue entry => exact absurd (List.mem_append_right _ List.mem_cons_self) (hnone entry)
          | expire now => rfl
          | reEvaluateWith decide order => rfl
        rw [hincoming] at hsub
        exact (hsub.length_le.trans_eq (congrArg _ (List.append_nil _))).trans (hprev thread)

-- ── The guarantees and when they hold ────

/-- What a queue promises after some calls: no thread is over its bound, everything that came is
    waiting or was handed back, what waits is in order, and what has expired is gone after an
    `expire`. -/
structure Kept (max_pending ttl : Nat) (calls : List Call) : Prop where
  bounded : ∀ thread, (queueOf (runOf max_pending ttl calls).queue thread).length ≤ max_pending
  conserved : Conserved (runOf max_pending ttl calls)
  expired : ∀ done now, calls = done ++ [.expire now] → ∀ thread,
    ∀ e ∈ queueOf (runOf max_pending ttl calls).queue thread, ¬ Expired now ttl e

/-- In a queue no expired entry stands behind one that has not expired. -/
def InTurn (now ttl : Nat) (queue : List PendingEntry) : Prop :=
  queue.Pairwise fun a b => Expired now ttl b → Expired now ttl a

/-- There is room for an entry unless none comes, and entries expire in turn at every `expire`. -/
structure Orderly (max_pending ttl : Nat) (calls : List Call) : Prop where
  room : 0 < max_pending ∨ ∀ entry, .enqueue entry ∉ calls
  in_turn : ∀ done now, done ++ [.expire now] <+: calls → ∀ thread,
    InTurn now ttl (queueOf (runOf max_pending ttl done).queue thread)

/-- `expire` leaves no expired entry exactly if the entries of the queue expire in turn. -/
theorem expireQueue_clean_iff (now ttl : Nat) (queue : List PendingEntry) :
    (∀ e ∈ (expireQueue now ttl queue).2, ¬ Expired now ttl e) ↔ InTurn now ttl queue := by
  obtain ⟨hsplit, hfront, hhead⟩ := expireQueue_spec now ttl queue
  generalize expireQueue now ttl queue = parts at hsplit hfront hhead
  obtain ⟨front, back⟩ := parts
  dsimp only at hsplit hfront hhead ⊢
  subst hsplit
  unfold InTurn
  rw [List.pairwise_append]
  constructor
  · intro hclean
    refine ⟨?_, ?_, fun a ha _ _ _ => hfront a ha⟩
    · exact List.pairwise_of_forall_mem_list fun a ha _ _ _ => hfront a ha
    · exact List.pairwise_of_forall_mem_list fun a _ b hb hexp => absurd hexp (hclean b hb)
  · rintro ⟨-, hback, -⟩ e he
    cases back with
    | nil => exact nomatch he
    | cons x rest =>
        rcases List.mem_cons.mp he with rfl | he
        · exact hhead e rest rfl
        · exact fun hexp => hhead x rest rfl (List.rel_of_pairwise_cons hback he hexp)

/-- **The guarantees of the pending queue.**  They hold after every call of a history exactly if
    there is room and its entries expire in turn. -/
theorem pending_queue_kept_iff (max_pending ttl : Nat) (calls : List Call) :
    (∀ done, done <+: calls → Kept max_pending ttl done) ↔ Orderly max_pending ttl calls := by
  have hexpire : ∀ done now thread,
      (∀ e ∈ queueOf (runOf max_pending ttl (done ++ [.expire now])).queue thread,
        ¬ Expired now ttl e)
      ↔ InTurn now ttl (queueOf (runOf max_pending ttl done).queue thread) := by
    intro done now thread
    rw [runOf_snoc, ← expireQueue_clean_iff]
    show (∀ e ∈ queueOf (expire (runOf max_pending ttl done).queue now).2 thread, _) ↔ _
    rw [queueOf_expire, (runOf_frame max_pending ttl done).2]
  constructor
  · intro hkept
    constructor
    · refine or_iff_not_imp_left.mpr fun hzero entry hin => ?_
      obtain ⟨done, rest, rfl⟩ := List.append_of_mem hin
      have hbounded := (hkept (done ++ [.enqueue entry]) ⟨rest, by simp⟩).bounded entry.thread
      rw [runOf_snoc] at hbounded
      change (queueOf ((runOf max_pending ttl done).queue.enqueue entry) entry.thread).length ≤ _
        at hbounded
      rw [queueOf_enqueue, if_pos rfl, List.length_append, List.length_singleton] at hbounded
      omega
    · intro done now hpre thread
      exact (hexpire done now thread).mp ((hkept _ hpre).expired done now rfl thread)
  · rintro hord done ⟨rest, rfl⟩
    refine ⟨fun thread => runOf_bounded ttl ?_ thread, conserved_runOf max_pending ttl done, ?_⟩
    · exact hord.room.imp_right fun hnone entry hin => hnone entry (List.mem_append_left _ hin)
    · rintro before now rfl thread
      exact (hexpire before now thread).mpr
        (hord.in_turn before now (List.prefix_append _ rest) thread)

/-- Entries of a thread that come with timestamps in order expire in turn. -/
theorem orderly_of_timestamps {max_pending ttl : Nat} {calls : List Call} (hroom : 0 < max_pending)
    (hsorted : ∀ thread, (enteredOf (runOf max_pending ttl calls).entered thread).Pairwise
      fun a b => a.inserted_at ≤ b.inserted_at) : Orderly max_pending ttl calls := by
  refine ⟨Or.inl hroom, fun done now hpre thread => ?_⟩
  have hentered : ∀ rest, (runOf max_pending ttl done).entered
      <+: (runOf max_pending ttl (done ++ rest)).entered := by
    intro rest
    induction rest using List.reverseRecOn with
    | nil => rw [List.append_nil]
    | append_singleton rest call ih =>
        rw [← List.append_assoc, runOf_snoc]
        exact ih.trans (List.prefix_append _ _)
  obtain ⟨rest, rfl⟩ := hpre
  rw [List.append_assoc] at hsorted
  have hsub := (conserved_runOf max_pending ttl done).ordered thread
  have hall : (queueOf (runOf max_pending ttl done).queue thread).Sublist
      (enteredOf (runOf max_pending ttl (done ++ ([.expire now] ++ rest))).entered thread) := by
    have hlater := (hentered ([.expire now] ++ rest)).sublist.filter
      fun e => decide (e.thread = thread)
    exact hsub.trans hlater
  refine ((hsorted thread).sublist hall).imp fun {a b} hle hexp => ?_
  unfold Expired at hexp ⊢
  omega

-- ── Two queues that fail ────

/-- An entry of one thread with a timestamp. -/
def waiting (inserted_at : Nat) : PendingEntry :=
  ⟨"h", .simple (.core .tell) none (.list []) [] (some "t") none (some (.single "p")), "t", "tell",
    some (.single "p"), inserted_at⟩

/-- An entry stamped by no clock, then one with a time. -/
def stuckCalls : List Call := [.enqueue (waiting 18446744073709551615), .enqueue (waiting 0),
  .expire 100]

/-- A queue without room holds an entry, and an expired entry stays behind one without a clock. -/
theorem pending_queue_fails :
    ¬ Kept 0 300 [.enqueue (waiting 0)] ∧ ¬ Kept 64 10 stuckCalls := by
  constructor
  · intro hkept
    have hbounded := hkept.bounded "t"
    have hlength : (queueOf (runOf 0 300 [.enqueue (waiting 0)]).queue "t").length = 1 := rfl
    rw [hlength] at hbounded
    exact absurd hbounded (by decide)
  · intro hkept
    have hstuck : (queueOf (runOf 64 10 stuckCalls).queue "t").map (·.inserted_at)
        = [18446744073709551615, 0] := rfl
    have hin : 0 ∈ (queueOf (runOf 64 10 stuckCalls).queue "t").map (·.inserted_at) := by
      rw [hstuck]
      exact List.mem_cons_of_mem _ List.mem_cons_self
    obtain ⟨e, he, hzero⟩ := List.mem_map.mp hin
    refine hkept.expired [.enqueue (waiting 18446744073709551615), .enqueue (waiting 0)] 100 rfl
      "t" e he ?_
    unfold Expired
    omega

end CbclPendingQueue
