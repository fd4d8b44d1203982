import Cbcl.AdmissionModel
import Cbcl.ExceptProofs

/-!
# Admission safety over whole runs

Every call on a monitor is a sequence of elementary changes (`Change`): a candidate is
queued, requeued, accepted or rejected.  One invariant (`Safe`) ties the received map, the
queue and the accepted history together; each change keeps it, so every run does:

    (a) accepted store     = hashes whose state is Accepted
    (b) queue              = hashes whose state is Pending, each once
    (c) accepted history   = the root first, then messages whose citations precede them
    (d) decided candidates never change again (`Change.decided`)
    (e) a failed receipt changes nothing (`receive_error`)
-/

namespace CbclAdmissionSafety

open CbclMessage CbclProtocol CbclStore CbclRole CbclVerifier CbclThreadedStore CbclAdmission

-- ── Elementary changes ────

/-- The elementary changes of a monitor. -/
inductive Change (m : AdmissionMonitor) : AdmissionMonitor → Prop where
  | enqueue {hash : ContentHash} {message : Message} (hgate : m.gate message = .ok hash)
      (hnew : m.received[hash]? = none) (hcheck : m.checkMessage hash message = .ok ()) :
      Change m { m with
        received := m.received.insert hash ⟨message, .pending⟩
        pending := m.pending ++ [hash] }
  | requeue {hash : ContentHash} {rest : List ContentHash} {c : Candidate}
      (hqueue : m.pending = hash :: rest) (hc : m.received[hash]? = some c)
      (hvisit : m.visit hash c.message = .pending) :
      Change m { m with
        received := m.received.insert hash ⟨c.message, .pending⟩
        pending := rest ++ [hash] }
  | accept {hash : ContentHash} {rest : List ContentHash} {c : Candidate}
      (hqueue : m.pending = hash :: rest) (hc : m.received[hash]? = some c)
      (hvisit : m.visit hash c.message = .accepted) :
      Change m { m with
        received := m.received.insert hash ⟨c.message, .accepted⟩
        pending := rest
        accepted := (m.accepted.append hash m.thread c.message).2 }
  | reject {hash : ContentHash} {rest : List ContentHash} {c : Candidate} {v : CausalViolation}
      (hqueue : m.pending = hash :: rest) (hc : m.received[hash]? = some c)
      (hvisit : m.visit hash c.message = .rejected v) :
      Change m { m with
        received := m.received.insert hash ⟨c.message, .rejected v⟩
        pending := rest }

/-- Sequences of elementary changes. -/
def Changes : AdmissionMonitor → AdmissionMonitor → Prop := Relation.ReflTransGen Change

/-- A receipt is one change or none. -/
theorem receive_changes (m : AdmissionMonitor) (message : Message) :
    Changes m (m.receive message).2 := by
  unfold AdmissionMonitor.receive
  cases hgate : m.gate message with
  | error reason => exact Relation.ReflTransGen.refl
  | ok hash =>
      dsimp only
      cases hnew : m.received[hash]? with
      | some existing =>
          dsimp only
          split
          · exact Relation.ReflTransGen.refl
          · exact Relation.ReflTransGen.refl
      | none =>
          dsimp only
          cases hcheck : m.checkMessage hash message with
          | error e => exact Relation.ReflTransGen.refl
          | ok u => exact Relation.ReflTransGen.single (Change.enqueue hgate hnew hcheck)

/-- **A failed receipt changes nothing.** -/
theorem receive_error {m m' : AdmissionMonitor} {message : Message} {e : AdmissionError}
    (h : m.receive message = (.error e, m')) : m' = m := by
  unfold AdmissionMonitor.receive at h
  cases hgate : m.gate message with
  | error reason => rw [hgate] at h; exact (congrArg Prod.snd h).symm
  | ok hash =>
      rw [hgate] at h
      dsimp only at h
      cases hnew : m.received[hash]? with
      | some existing =>
          rw [hnew] at h
          dsimp only at h
          split at h
          · exact nomatch congrArg Prod.fst h
          · exact (congrArg Prod.snd h).symm
      | none =>
          rw [hnew] at h
          dsimp only at h
          cases hcheck : m.checkMessage hash message with
          | error e' => rw [hcheck] at h; exact (congrArg Prod.snd h).symm
          | ok u => rw [hcheck] at h; exact nomatch congrArg Prod.fst h

/-- A visit is one change or none. -/
theorem step_changes (m : AdmissionMonitor) : Changes m m.step.2 := by
  unfold AdmissionMonitor.step
  cases hqueue : m.pending with
  | nil => exact Relation.ReflTransGen.refl
  | cons hash rest =>
      dsimp only
      cases hc : m.received[hash]? with
      | none => exact Relation.ReflTransGen.refl
      | some c =>
          refine Relation.ReflTransGen.single ?_
          dsimp only
          cases hvisit : m.visit hash c.message with
          | pending => exact Change.requeue hqueue hc hvisit
          | accepted => exact Change.accept hqueue hc hvisit
          | rejected v => exact Change.reject hqueue hc hvisit

theorem visits_changes (n : Nat) :
    ∀ m : AdmissionMonitor, Changes m (AdmissionMonitor.visits n m).2 := by
  induction n with
  | zero => intro m; exact Relation.ReflTransGen.refl
  | succ n ih => intro m; exact (step_changes m).trans (ih _)

theorem drainRounds_changes (fuel : Nat) :
    ∀ m : AdmissionMonitor, Changes m (AdmissionMonitor.drainRounds fuel m).2 := by
  induction fuel with
  | zero => intro m; exact Relation.ReflTransGen.refl
  | succ fuel ih =>
      intro m
      rw [AdmissionMonitor.drainRounds]
      dsimp only
      split
      · exact visits_changes _ m
      · exact (visits_changes _ m).trans (ih _)

/-- Every call is a sequence of changes. -/
theorem call_changes (call : Call) (m : AdmissionMonitor) : Changes m (call.apply m) := by
  cases call with
  | receive message => exact receive_changes m message
  | step => exact step_changes m
  | drainReady => exact drainRounds_changes _ m

/-- Every run is a sequence of changes. -/
theorem run_changes (calls : List Call) : ∀ m : AdmissionMonitor, Changes m (run m calls) := by
  induction calls with
  | nil => intro m; exact Relation.ReflTransGen.refl
  | cons call rest ih => intro m; exact (call_changes call m).trans (ih _)

-- ── The invariant ────

/-- The hashes a message cites. -/
def cited (message : Message) : List ContentHash :=
  citedHashes (message.innermostSimple.bind Message.causedBy)

/-- An accepted history: the root comes first, and the citations of every other message
    precede it. -/
inductive History (root : ContentHash) : List (ContentHash × Message) → Prop where
  | nil : History root []
  | root (message : Message) : History root [(root, message)]
  | snoc {past : List (ContentHash × Message)} {hash : ContentHash} {message : Message}
      (h : History root past) (hne : hash ≠ root) (hroot : root ∈ past.map Prod.fst)
      (hcited : ∀ k ∈ cited message, k ∈ past.map Prod.fst) :
      History root (past ++ [(hash, message)])

/-- **The admission invariant.** -/
structure Safe (m : AdmissionMonitor) : Prop where
  /-- the accepted store is the set of accepted candidates -/
  accepted_iff : ∀ h, m.accepted.contains h m.thread = true ↔ m.state h = some .accepted
  /-- the queue is the set of pending candidates -/
  queue_iff : ∀ h, h ∈ m.pending ↔ m.state h = some .pending
  queue_nodup : m.pending.Nodup
  /-- accepted messages are the received ones, all filed under the pinned thread -/
  stored : ∀ h message, m.accepted.lookupInThread h m.thread = some message →
    m.receivedMessage h = some message
  pinned : ∀ h ∈ m.accepted.index, m.accepted.contains h m.thread = true
  /-- the accepted history is causally ordered -/
  history : History m.root (m.accepted.messages m.thread)
  /-- received messages passed the gate and the checks of receipt -/
  checked : ∀ h message, m.receivedMessage h = some message →
    m.gate message = .ok h ∧ m.checkMessage h message = .ok ()

/-- Reading a candidate map after setting one candidate. -/
theorem map_insert {α : Type} (received : BTreeMap ContentHash Candidate) (hash h : ContentHash)
    (c : Candidate) (f : Candidate → α) :
    ((received.insert hash c)[h]?).map f
      = if h = hash then some (f c) else (received[h]?).map f := by
  rw [Std.ExtTreeMap.getElem?_insert]
  by_cases hh : h = hash
  · subst hh
    rw [if_pos Std.ReflCmp.compare_self, if_pos rfl]
    rfl
  · rw [if_neg (by rw [Std.LawfulEqCmp.compare_eq_iff_eq]; exact Ne.symm hh), if_neg hh]

/-- The hashes of a history are those the store files under the thread. -/
theorem mem_messages_iff {s : ThreadedMessageStore} {h : ContentHash} {t : ThreadId} :
    h ∈ (s.messages t).map Prod.fst ↔ s.contains h t = true := by
  rw [ThreadedMessageStore.contains_iff, Option.isSome_iff_exists, List.mem_map]
  constructor
  · rintro ⟨⟨h', message⟩, hmem, rfl⟩
    exact ⟨message, ThreadedMessageStore.lookupInThread_iff.mpr hmem⟩
  · rintro ⟨message, hm⟩
    exact ⟨(h, message), ThreadedMessageStore.lookupInThread_iff.mp hm, rfl⟩

/-- What an accepting visit has checked. -/
theorem resolved_of_accepted {m : AdmissionMonitor} {hash : ContentHash} {message : Message}
    (h : m.visit hash message = .accepted) :
    m.resolved hash message = true ∧ m.verify message = .valid := by
  unfold AdmissionMonitor.visit at h
  cases hr : m.resolved hash message with
  | false => rw [hr] at h; exact nomatch h
  | true =>
      rw [hr] at h
      refine ⟨rfl, ?_⟩
      cases hv : m.verify message with
      | valid => rfl
      | unknown => rw [hv] at h; exact nomatch h
      | violation e => rw [hv] at h; exact nomatch h

/-- A resolved candidate is the root, or the root and all its citations are accepted. -/
theorem resolved_cases {m : AdmissionMonitor} {hash : ContentHash} {message : Message}
    (h : m.resolved hash message = true) :
    hash = m.root ∨ (hash ≠ m.root ∧ m.accepted.contains m.root m.thread = true ∧
      ∀ k ∈ cited message, m.accepted.contains k m.thread = true) := by
  unfold AdmissionMonitor.resolved at h
  by_cases hroot : hash = m.root
  · exact Or.inl hroot
  · rw [if_neg hroot] at h
    refine Or.inr ⟨hroot, ?_⟩
    cases hacc : m.accepted.contains m.root m.thread with
    | false => rw [hacc] at h; exact nomatch h
    | true =>
        rw [hacc] at h
        refine ⟨rfl, ?_⟩
        unfold cited
        rcases hcause : message.innermostSimple.bind Message.causedBy with _ | (_ | k | ks)
        · exact fun k hk => nomatch hk
        · exact fun k hk => nomatch hk
        · rw [hcause] at h
          intro k' hk'
          rw [List.mem_singleton.mp hk']
          exact h
        · rw [hcause] at h
          intro k' hk'
          exact List.all_eq_true.mp h k' hk'

/-- A history is empty or starts with the root. -/
theorem History.root_mem {root : ContentHash} {past : List (ContentHash × Message)}
    (h : History root past) : past = [] ∨ root ∈ past.map Prod.fst := by
  cases h with
  | nil => exact Or.inl rfl
  | root message => exact Or.inr (by simp)
  | snoc _ _ hroot _ =>
      rw [List.map_append]
      exact Or.inr (List.mem_append_left _ hroot)

-- ── One change ────

section Preservation

variable {m : AdmissionMonitor} {hash : ContentHash} {rest : List ContentHash} {c : Candidate}

/-- The head of the queue is a pending candidate. -/
theorem Safe.head_pending (safe : Safe m) (hqueue : m.pending = hash :: rest) :
    m.state hash = some .pending :=
  (safe.queue_iff hash).mp (by rw [hqueue]; exact List.mem_cons_self ..)

/-- The head of the queue is not filed yet. -/
theorem Safe.head_fresh (safe : Safe m) (hqueue : m.pending = hash :: rest) :
    hash ∉ m.accepted.index := by
  intro hmem
  have hacc := (safe.accepted_iff hash).mp (safe.pinned hash hmem)
  rw [safe.head_pending hqueue] at hacc
  exact nomatch hacc

/-- The rest of the queue: pending candidates other than the head. -/
theorem Safe.mem_rest (safe : Safe m) (hqueue : m.pending = hash :: rest) (h : ContentHash) :
    h ∈ rest ↔ h ≠ hash ∧ m.state h = some .pending := by
  have hnodup := safe.queue_nodup
  rw [hqueue, List.nodup_cons] at hnodup
  rw [← safe.queue_iff h, hqueue, List.mem_cons]
  constructor
  · intro hin
    refine ⟨?_, Or.inr hin⟩
    rintro rfl
    exact hnodup.1 hin
  · rintro ⟨hne, hin⟩
    exact hin.resolve_left hne

/-- Setting the state of a received candidate keeps every received message. -/
theorem receivedMessage_insert (hc : m.received[hash]? = some c) (st : AdmissionState)
    (h : ContentHash) :
    ((m.received.insert hash ⟨c.message, st⟩)[h]?).map (·.message) = m.receivedMessage h := by
  rw [map_insert]
  by_cases hh : h = hash
  · subst hh
    rw [if_pos rfl, AdmissionMonitor.receivedMessage, hc]
    rfl
  · rw [if_neg hh]
    rfl

theorem Safe.enqueue (safe : Safe m) {message : Message} (hgate : m.gate message = .ok hash)
    (hnew : m.received[hash]? = none) (hcheck : m.checkMessage hash message = .ok ()) :
    Safe { m with
      received := m.received.insert hash ⟨message, .pending⟩
      pending := m.pending ++ [hash] } := by
  have hnone : m.state hash = none := by rw [AdmissionMonitor.state, hnew]; rfl
  refine ⟨?_, ?_, ?_, ?_, safe.pinned, safe.history, ?_⟩
  · intro h
    show m.accepted.contains h m.thread = true ↔ ((m.received.insert hash _)[h]?).map _ = _
    rw [map_insert, safe.accepted_iff h]
    by_cases hh : h = hash
    · subst hh
      rw [if_pos rfl, hnone]
      exact iff_of_false (fun h => nomatch h) (fun h => nomatch h)
    · rw [if_neg hh]
      rfl
  · intro h
    show h ∈ m.pending ++ [hash] ↔ ((m.received.insert hash _)[h]?).map _ = _
    rw [map_insert, List.mem_append, List.mem_singleton, safe.queue_iff h]
    by_cases hh : h = hash
    · subst hh
      rw [if_pos rfl]
      exact iff_of_true (Or.inr rfl) rfl
    · rw [if_neg hh]
      exact ⟨fun hor => hor.resolve_right hh, Or.inl⟩
  · show (m.pending ++ [hash]).Nodup
    rw [List.nodup_append]
    refine ⟨safe.queue_nodup, List.nodup_singleton hash, ?_⟩
    intro h hin k hk hhk
    have hpend := (safe.queue_iff h).mp hin
    rw [hhk, List.mem_singleton.mp hk, hnone] at hpend
    exact nomatch hpend
  · intro h message' hm
    show ((m.received.insert hash _)[h]?).map _ = some message'
    have hold := safe.stored h message' hm
    rw [map_insert, if_neg]
    · exact hold
    · rintro rfl
      rw [AdmissionMonitor.receivedMessage, hnew] at hold
      exact nomatch hold
  · intro h message' hm
    change ((m.received.insert hash ⟨message, .pending⟩)[h]?).map (·.message) = some message' at hm
    rw [map_insert] at hm
    by_cases hh : h = hash
    · subst hh
      rw [if_pos rfl] at hm
      injection hm with hm
      subst hm
      exact ⟨hgate, hcheck⟩
    · rw [if_neg hh] at hm
      exact safe.checked h message' hm

theorem Safe.requeue (safe : Safe m) (hqueue : m.pending = hash :: rest)
    (hc : m.received[hash]? = some c) :
    Safe { m with
      received := m.received.insert hash ⟨c.message, .pending⟩
      pending := rest ++ [hash] } := by
  -- the candidate was pending before, so no state changes
  have hstate : ∀ h, ((m.received.insert hash ⟨c.message, .pending⟩)[h]?).map (·.state)
      = m.state h := by
    intro h
    rw [map_insert]
    by_cases hh : h = hash
    · subst hh
      rw [if_pos rfl, safe.head_pending hqueue]
    · rw [if_neg hh]
      rfl
  refine ⟨fun h => ?_, fun h => ?_, ?_, fun h message hm => ?_, safe.pinned, safe.history,
    fun h message hm => ?_⟩
  · show _ ↔ ((m.received.insert hash _)[h]?).map _ = _
    rw [hstate]
    exact safe.accepted_iff h
  · show h ∈ rest ++ [hash] ↔ ((m.received.insert hash _)[h]?).map _ = _
    rw [hstate, ← safe.queue_iff h, hqueue, List.mem_append, List.mem_singleton, List.mem_cons,
      or_comm]
  · show (rest ++ [hash]).Nodup
    have hnodup := safe.queue_nodup
    rw [hqueue] at hnodup
    exact (List.perm_append_singleton hash rest).nodup_iff.mpr hnodup
  · show ((m.received.insert hash _)[h]?).map _ = some message
    rw [receivedMessage_insert hc]
    exact safe.stored h message hm
  · change ((m.received.insert hash _)[h]?).map _ = some message at hm
    rw [receivedMessage_insert hc] at hm
    exact safe.checked h message hm

theorem Safe.reject (safe : Safe m) {v : CausalViolation} (hqueue : m.pending = hash :: rest)
    (hc : m.received[hash]? = some c) :
    Safe { m with
      received := m.received.insert hash ⟨c.message, .rejected v⟩
      pending := rest } := by
  refine ⟨fun h => ?_, fun h => ?_, ?_, fun h message hm => ?_, safe.pinned, safe.history,
    fun h message hm => ?_⟩
  · show _ ↔ ((m.received.insert hash _)[h]?).map _ = _
    rw [map_insert, safe.accepted_iff h]
    by_cases hh : h = hash
    · subst hh
      rw [if_pos rfl, safe.head_pending hqueue]
      exact iff_of_false (fun h => nomatch h) (fun h => nomatch h)
    · rw [if_neg hh]
      rfl
  · show h ∈ rest ↔ ((m.received.insert hash _)[h]?).map _ = _
    rw [map_insert, safe.mem_rest hqueue h]
    by_cases hh : h = hash
    · rw [if_pos hh]
      exact iff_of_false (fun hc => hc.1 hh) (fun h => nomatch h)
    · rw [if_neg hh]
      exact ⟨fun hc => hc.2, fun hc => ⟨hh, hc⟩⟩
  · show rest.Nodup
    have hnodup := safe.queue_nodup
    rw [hqueue] at hnodup
    exact hnodup.of_cons
  · show ((m.received.insert hash _)[h]?).map _ = some message
    rw [receivedMessage_insert hc]
    exact safe.stored h message hm
  · change ((m.received.insert hash _)[h]?).map _ = some message at hm
    rw [receivedMessage_insert hc] at hm
    exact safe.checked h message hm

theorem Safe.accept (safe : Safe m) (hqueue : m.pending = hash :: rest)
    (hc : m.received[hash]? = some c) (hvisit : m.visit hash c.message = .accepted) :
    Safe { m with
      received := m.received.insert hash ⟨c.message, .accepted⟩
      pending := rest
      accepted := (m.accepted.append hash m.thread c.message).2 } := by
  have hfresh := safe.head_fresh hqueue
  have hlookup : ∀ h t, (m.accepted.append hash m.thread c.message).2.lookupInThread h t =
      if h = hash then (if t = m.thread then some c.message else none)
      else m.accepted.lookupInThread h t :=
    ThreadedMessageStore.lookupInThread_append hfresh
  have hcontains : ∀ h, (m.accepted.append hash m.thread c.message).2.contains h m.thread = true ↔
      h = hash ∨ m.accepted.contains h m.thread = true := by
    intro h
    rw [ThreadedMessageStore.contains_iff, hlookup, ThreadedMessageStore.contains_iff]
    by_cases hh : h = hash
    · rw [if_pos hh, if_pos rfl]
      exact iff_of_true rfl (Or.inl hh)
    · rw [if_neg hh]
      exact ⟨Or.inr, fun hor => hor.resolve_left hh⟩
  refine ⟨fun h => ?_, fun h => ?_, ?_, fun h message hm => ?_, fun h hmem => ?_, ?_,
    fun h message hm => ?_⟩
  · show (m.accepted.append hash m.thread c.message).2.contains h m.thread = true ↔
      ((m.received.insert hash _)[h]?).map _ = _
    rw [map_insert, hcontains, safe.accepted_iff h]
    by_cases hh : h = hash
    · rw [if_pos hh]
      exact iff_of_true (Or.inl hh) rfl
    · rw [if_neg hh]
      exact ⟨fun hor => hor.resolve_left hh, Or.inr⟩
  · show h ∈ rest ↔ ((m.received.insert hash _)[h]?).map _ = _
    rw [map_insert, safe.mem_rest hqueue h]
    by_cases hh : h = hash
    · rw [if_pos hh]
      exact iff_of_false (fun hc => hc.1 hh) (fun h => nomatch h)
    · rw [if_neg hh]
      exact ⟨fun hc => hc.2, fun hc => ⟨hh, hc⟩⟩
  · show rest.Nodup
    have hnodup := safe.queue_nodup
    rw [hqueue] at hnodup
    exact hnodup.of_cons
  · show ((m.received.insert hash _)[h]?).map _ = some message
    change (m.accepted.append hash m.thread c.message).2.lookupInThread h m.thread = _ at hm
    rw [receivedMessage_insert hc]
    rw [hlookup] at hm
    by_cases hh : h = hash
    · rw [if_pos hh, if_pos rfl] at hm
      rw [hh, AdmissionMonitor.receivedMessage, hc]
      exact hm
    · rw [if_neg hh] at hm
      exact safe.stored h message hm
  · show (m.accepted.append hash m.thread c.message).2.contains h m.thread = true
    rw [hcontains]
    exact ((ThreadedMessageStore.mem_index_append hfresh h).mp hmem).imp id (safe.pinned h)
  · show History m.root ((m.accepted.append hash m.thread c.message).2.messages m.thread)
    rw [ThreadedMessageStore.messages_append hfresh]
    rcases resolved_cases (resolved_of_accepted hvisit).1 with hroot | ⟨hne, hroot, hcited⟩
    · -- the root itself: nothing can have been accepted before it
      rcases safe.history.root_mem with hnil | hmem
      · rw [hnil, hroot]
        exact History.root c.message
      · have hacc := (safe.accepted_iff m.root).mp (mem_messages_iff.mp hmem)
        rw [← hroot, safe.head_pending hqueue] at hacc
        exact nomatch hacc
    · exact History.snoc safe.history hne (mem_messages_iff.mpr hroot)
        fun k hk => mem_messages_iff.mpr (hcited k hk)
  · change ((m.received.insert hash _)[h]?).map _ = some message at hm
    rw [receivedMessage_insert hc] at hm
    exact safe.checked h message hm

/-- **Every change keeps the invariant.** -/
theorem Change.safe {m' : AdmissionMonitor} (h : Change m m') (safe : Safe m) : Safe m' := by
  cases h with
  | enqueue hgate hnew hcheck => exact safe.enqueue hgate hnew hcheck
  | requeue hqueue hc _ => exact safe.requeue hqueue hc
  | accept hqueue hc hvisit => exact safe.accept hqueue hc hvisit
  | reject hqueue hc _ => exact safe.reject hqueue hc

end Preservation

-- ── Whole runs ────

/-- Changes keep the invariant. -/
theorem Changes.safe {m m' : AdmissionMonitor} (h : Changes m m') (safe : Safe m) : Safe m' := by
  induction h with
  | refl => exact safe
  | tail _ hchange ih => exact hchange.safe ih

/-- Changes keep the context. -/
theorem Changes.context {m m' : AdmissionMonitor} (h : Changes m m') :
    m'.toAdmissionContext = m.toAdmissionContext := by
  induction h with
  | refl => rfl
  | tail _ hchange ih =>
      rw [← ih]
      cases hchange with
      | enqueue => rfl
      | requeue => rfl
      | accept => rfl
      | reject => rfl

/-- What later changes keep of a decided candidate and of the accepted history. -/
structure Keeps (m m' : AdmissionMonitor) : Prop where
  state : ∀ h st, m.state h = some st → st ≠ .pending → m'.state h = some st
  message : ∀ h message, m.receivedMessage h = some message →
    m'.receivedMessage h = some message
  messages : m.accepted.messages m.thread <+: m'.accepted.messages m.thread
  lookup : ∀ h st, m.state h = some st → st ≠ .pending →
    m'.accepted.lookupInThread h m.thread = m.accepted.lookupInThread h m.thread

/-- **Decided candidates are kept** by one change. -/
theorem Change.keeps {m m' : AdmissionMonitor} (h : Change m m') (safe : Safe m) :
    Keeps m m' := by
  -- the visited head is pending, so a decided hash is another one
  have hother : ∀ {hash rest}, m.pending = hash :: rest → ∀ h st, m.state h = some st →
      st ≠ .pending → h ≠ hash := by
    rintro hash rest hqueue h st hst hne rfl
    rw [safe.head_pending hqueue] at hst
    exact hne (Option.some.inj hst).symm
  cases h with
  | @enqueue hash message hgate hnew hcheck =>
      have hfresh : ∀ {α : Type} (f : Candidate → α) (h : ContentHash) (a : α),
          (m.received[h]?).map f = some a →
            ((m.received.insert hash ⟨message, .pending⟩)[h]?).map f = some a := by
        intro α f h a ha
        rw [map_insert, if_neg]
        · exact ha
        · rintro rfl
          rw [hnew] at ha
          exact nomatch ha
      exact ⟨fun h st hst _ => hfresh _ h st hst, fun h msg hm => hfresh _ h msg hm,
        List.prefix_rfl, fun _ _ _ _ => rfl⟩
  | @requeue hash rest c hqueue hc _ =>
      refine ⟨fun h st hst hne => ?_, fun h message hm => ?_, List.prefix_rfl, fun _ _ _ _ => rfl⟩
      · show ((m.received.insert hash _)[h]?).map _ = some st
        rw [map_insert, if_neg (hother hqueue h st hst hne)]
        exact hst
      · show ((m.received.insert hash _)[h]?).map _ = some message
        rw [receivedMessage_insert hc]
        exact hm
  | @reject hash rest c v hqueue hc _ =>
      refine ⟨fun h st hst hne => ?_, fun h message hm => ?_, List.prefix_rfl, fun _ _ _ _ => rfl⟩
      · show ((m.received.insert hash _)[h]?).map _ = some st
        rw [map_insert, if_neg (hother hqueue h st hst hne)]
        exact hst
      · show ((m.received.insert hash _)[h]?).map _ = some message
        rw [receivedMessage_insert hc]
        exact hm
  | @accept hash rest c hqueue hc _ =>
      refine ⟨fun h st hst hne => ?_, fun h message hm => ?_, ?_, fun h st hst hne => ?_⟩
      · show ((m.received.insert hash _)[h]?).map _ = some st
        rw [map_insert, if_neg (hother hqueue h st hst hne)]
        exact hst
      · show ((m.received.insert hash _)[h]?).map _ = some message
        rw [receivedMessage_insert hc]
        exact hm
      · show _ <+: (m.accepted.append hash m.thread c.message).2.messages m.thread
        rw [ThreadedMessageStore.messages_append (safe.head_fresh hqueue)]
        exact List.prefix_append ..
      · show (m.accepted.append hash m.thread c.message).2.lookupInThread h m.thread = _
        rw [ThreadedMessageStore.lookupInThread_append (safe.head_fresh hqueue),
          if_neg (hother hqueue h st hst hne)]

/-- Decided candidates are kept by any number of changes. -/
theorem Changes.keeps {m m' : AdmissionMonitor} (h : Changes m m') (safe : Safe m) :
    Keeps m m' := by
  induction h with
  | refl =>
      exact ⟨fun _ _ hst _ => hst, fun _ _ hm => hm, List.prefix_rfl, fun _ _ _ _ => rfl⟩
  | @tail m1 m2 hpre hchange ih =>
      have hthread : m1.thread = m.thread :=
        congrArg AdmissionContext.thread (Changes.context hpre)
      obtain ⟨hstate, hmessage, hmessages, hlookup⟩ := hchange.keeps (Changes.safe hpre safe)
      rw [hthread] at hmessages hlookup
      refine ⟨fun h st hst hne => ?_, fun h message hm => ?_, ?_, fun h st hst hne => ?_⟩
      · exact hstate h st (ih.state h st hst hne) hne
      · exact hmessage h message (ih.message h message hm)
      · exact ih.messages.trans hmessages
      · rw [hlookup h st (ih.state h st hst hne) hne]
        exact ih.lookup h st hst hne

/-- A fresh monitor: nothing accepted, the root queued. -/
theorem new_spec {dialectHash : Dialect → String} {dialect : Dialect} {endpoint : Endpoint}
    {rootMessage : Message} {gate : AdmissionGate} {m : AdmissionMonitor}
    (h : AdmissionMonitor.new dialectHash dialect endpoint rootMessage gate = .ok m) :
    m.received = (∅ : BTreeMap ContentHash Candidate).insert m.root ⟨rootMessage, .pending⟩ ∧
      m.pending = [m.root] ∧ m.accepted = ThreadedMessageStore.new ∧
      m.gate rootMessage = .ok m.root ∧ m.checkMessage m.root rootMessage = .ok () ∧
      m.gate = gate ∧ m.dialect = dialect ∧ m.endpoint = endpoint ∧
      checkDialect dialect = .ok () ∧ checkRoot dialectHash dialect rootMessage = .ok m.cast ∧
      m.verify rootMessage = .valid ∧
      rootMessage.innermostSimple.bind Message.thread = some m.thread ∧
      endpointKey endpoint m.cast = some m.endpoint_key := by
  unfold AdmissionMonitor.new at h
  obtain ⟨_, hdialect, h⟩ := CbclExcept.bind_ok_iff.mp h
  obtain ⟨cast, hcast, h⟩ := CbclExcept.bind_ok_iff.mp h
  cases hkey : endpointKey endpoint cast with
  | none => rw [hkey] at h; exact nomatch h
  | some key =>
      rw [hkey] at h
      dsimp only at h
      cases hthread : rootMessage.innermostSimple.bind Message.thread with
      | none => rw [hthread] at h; exact nomatch h
      | some thread =>
          rw [hthread] at h
          dsimp only at h
          cases hgate : gate rootMessage with
          | error reason => rw [hgate] at h; exact nomatch h
          | ok rootHash =>
              rw [hgate] at h
              dsimp only at h
              obtain ⟨_, hcheck, h⟩ := CbclExcept.bind_ok_iff.mp h
              split at h
              · exact nomatch h
              · rename_i hverify
                injection h with h
                subst h
                exact ⟨rfl, rfl, rfl, hgate, hcheck, rfl, rfl, rfl, hdialect, hcast,
                  not_not.mp hverify, rfl, hkey⟩

/-- **A fresh monitor is safe.** -/
theorem new_safe {dialectHash : Dialect → String} {dialect : Dialect} {endpoint : Endpoint}
    {rootMessage : Message} {gate : AdmissionGate} {m : AdmissionMonitor}
    (h : AdmissionMonitor.new dialectHash dialect endpoint rootMessage gate = .ok m) : Safe m := by
  obtain ⟨hrec, hpend, hacc, hgate, hcheck, -⟩ := new_spec h
  have hstate : ∀ k, m.state k = if k = m.root then some .pending else none := by
    intro k
    rw [AdmissionMonitor.state, hrec, map_insert, Std.ExtTreeMap.getElem?_empty]
    rfl
  have hnone : ∀ k t, ThreadedMessageStore.new.lookupInThread k t = none := fun k t => by
    simp [ThreadedMessageStore.lookupInThread, ThreadedMessageStore.indexLookup,
      ThreadedMessageStore.new]
  refine ⟨fun k => ?_, fun k => ?_, ?_, fun k message hm => ?_, fun k hk => ?_, ?_,
    fun k message hm => ?_⟩
  · rw [hacc, ThreadedMessageStore.contains_iff, hnone, hstate]
    split
    · exact iff_of_false (by rintro ⟨⟩) (by rintro ⟨⟩)
    · exact iff_of_false (by rintro ⟨⟩) (by rintro ⟨⟩)
  · rw [hpend, List.mem_singleton, hstate]
    by_cases hk : k = m.root
    · rw [if_pos hk]
      exact iff_of_true hk rfl
    · rw [if_neg hk]
      exact iff_of_false hk (by rintro ⟨⟩)
  · rw [hpend]
    exact List.nodup_singleton m.root
  · rw [hacc, hnone] at hm
    cases hm
  · rw [hacc] at hk
    exact absurd hk (Std.ExtTreeMap.not_mem_empty)
  · rw [hacc]
    exact History.nil
  · rw [AdmissionMonitor.receivedMessage, hrec, map_insert, Std.ExtTreeMap.getElem?_empty] at hm
    split at hm
    · rename_i hk
      injection hm with hm
      subst hk hm
      exact ⟨hgate, hcheck⟩
    · cases hm

/-- Every monitor of a run is safe. -/
theorem run_safe {dialectHash : Dialect → String} {dialect : Dialect} {endpoint : Endpoint}
    {rootMessage : Message} {gate : AdmissionGate} {m : AdmissionMonitor}
    (h : AdmissionMonitor.new dialectHash dialect endpoint rootMessage gate = .ok m)
    (calls : List Call) : Safe (run m calls) :=
  Changes.safe (run_changes calls m) (new_safe h)

-- ── The accepted history ────

/-- An accepted hash cites another one. -/
def Cites (m : AdmissionMonitor) (a b : ContentHash) : Prop :=
  ∃ message, m.accepted.lookupInThread a m.thread = some message ∧ b ∈ cited message

/-- The first entry of a history is the root. -/
theorem History.first {root : ContentHash} {past : List (ContentHash × Message)}
    (h : History root past) : ∀ e, past[0]? = some e → e.1 = root := by
  induction h with
  | nil => intro e he; exact nomatch he
  | root message =>
      intro e he
      injection he with he
      rw [← he]
  | @snoc past hash message _ _ hroot _ ih =>
      intro e he
      cases past with
      | nil => exact nomatch hroot
      | cons first rest => exact ih e he

/-- The citations of every other entry of a history precede it. -/
theorem History.precedes {root : ContentHash} {past : List (ContentHash × Message)}
    (h : History root past) : ∀ (i : Nat) hash message, past[i]? = some (hash, message) →
      hash ≠ root → ∀ k ∈ cited message,
        ∃ (j : Nat) (message' : Message), j < i ∧ past[j]? = some (k, message') := by
  induction h with
  | nil => intro i hash message hi; exact nomatch hi
  | root message =>
      intro i hash message' hi hne
      cases i with
      | zero =>
          injection hi with hi
          injection hi with hi _
          exact absurd hi.symm hne
      | succ i => exact nomatch hi
  | @snoc past hash0 message0 _ _ _ hcited ih =>
      intro i hash message hi hne k hk
      by_cases hlt : i < past.length
      · rw [List.getElem?_append_left hlt] at hi
        obtain ⟨j, message', hj, hget⟩ := ih i hash message hi hne k hk
        exact ⟨j, message', hj, by rw [List.getElem?_append_left (hj.trans hlt)]; exact hget⟩
      · -- the appended entry: its citations are among the past
        have hin : (hash, message) = (hash0, message0) := by
          rw [List.getElem?_append_right (Nat.not_lt.mp hlt)] at hi
          simpa using List.mem_of_getElem? hi
        injection hin with _ hmsg
        subst hmsg
        obtain ⟨⟨k', message'⟩, hmem, rfl⟩ := List.mem_map.mp (hcited k hk)
        obtain ⟨j, hj, hget⟩ := List.getElem_of_mem hmem
        refine ⟨j, message', by omega, ?_⟩
        rw [List.getElem?_append_left hj, List.getElem?_eq_getElem hj, hget]

/-- **What the checks of receipt establish.** -/
theorem checkMessage_ok {ctx : AdmissionContext} {hash : ContentHash} {message : Message}
    (h : ctx.checkMessage hash message = .ok ()) :
    ∃ simple signer, message.innermostSimple = some simple ∧
      simple.thread = some ctx.thread ∧
      scanWrappers ctx.dialect.name (hash = ctx.root) true none message = .ok (some signer) ∧
      (hash = ctx.root → message.wrapperType = some .withRoles ∧
        simple.causedBy = some .begin) ∧
      (hash ≠ ctx.root → ctx.checkStep simple signer = .ok ()) := by
  unfold AdmissionContext.checkMessage at h
  cases hs : message.innermostSimple with
  | none => rw [hs] at h; exact nomatch h
  | some simple =>
      rw [hs] at h
      dsimp only at h
      by_cases hthread : simple.thread = some ctx.thread
      · rw [if_neg (not_not.mpr hthread)] at h
        obtain ⟨signer, hscan, h⟩ := CbclExcept.bind_ok_iff.mp h
        cases signer with
        | none => exact nomatch h
        | some signer =>
            dsimp only at h
            refine ⟨simple, signer, rfl, hthread, hscan, ?_, ?_⟩
            · intro hroot
              rw [if_pos hroot] at h
              by_cases hbad : message.wrapperType ≠ some .withRoles ∨ simple.causedBy ≠ some .begin
              · rw [if_pos hbad] at h
                exact nomatch h
              · rw [not_or, not_not, not_not] at hbad
                exact hbad
            · intro hroot
              rw [if_neg hroot] at h
              exact h
      · rw [if_pos hthread] at h
        exact nomatch h

/-- The root cites nothing. -/
theorem Safe.cited_root {m : AdmissionMonitor} (safe : Safe m) {message : Message}
    (h : m.receivedMessage m.root = some message) : cited message = [] := by
  obtain ⟨simple, -, hs, -, -, hroot, -⟩ := checkMessage_ok (safe.checked m.root message h).2
  unfold cited
  rw [hs, Option.bind_some, (hroot rfl).2]
  rfl

/-- Along citations the position in the accepted history decreases. -/
theorem Safe.cites_decreases {m : AdmissionMonitor} (safe : Safe m) {a b : ContentHash}
    (h : Relation.TransGen (Cites m) a b) :
    ∀ (i : Nat) message, (m.accepted.messages m.thread)[i]? = some (a, message) →
      ∃ (j : Nat) (message' : Message), j < i ∧
        (m.accepted.messages m.thread)[j]? = some (b, message') := by
  have hone : ∀ {a b}, Cites m a b → ∀ (i : Nat) message,
      (m.accepted.messages m.thread)[i]? = some (a, message) →
        ∃ (j : Nat) (message' : Message), j < i ∧
          (m.accepted.messages m.thread)[j]? = some (b, message') := by
    rintro a b ⟨stored, hstored, hb⟩ i message hi
    have hsame : stored = message := by
      have hin := ThreadedMessageStore.lookupInThread_iff.mpr (List.mem_of_getElem? hi)
      rw [hstored] at hin
      exact Option.some.inj hin
    subst hsame
    refine safe.history.precedes i a stored hi ?_ b hb
    rintro rfl
    rw [safe.cited_root (safe.stored _ _ hstored)] at hb
    exact nomatch hb
  induction h with
  | single hc => exact hone hc
  | tail _ hc ih =>
      intro i message hi
      obtain ⟨j, message', hj, hget⟩ := ih i message hi
      obtain ⟨k, message'', hk, hget'⟩ := hone hc j message' hget
      exact ⟨k, message'', hk.trans hj, hget'⟩

/-- Citations inside an accepted history are acyclic. -/
theorem Safe.acyclic {m : AdmissionMonitor} (safe : Safe m) (h : ContentHash) :
    ¬ Relation.TransGen (Cites m) h h := by
  intro hcycle
  -- the first citation of the cycle starts at an accepted message
  have hstart : ∃ message, m.accepted.lookupInThread h m.thread = some message := by
    obtain ⟨c, ⟨message, hm, -⟩, -⟩ := Relation.TransGen.head'_iff.mp hcycle
    exact ⟨message, hm⟩
  obtain ⟨message, hm⟩ := hstart
  obtain ⟨i, hi⟩ := List.mem_iff_getElem?.mp (ThreadedMessageStore.lookupInThread_iff.mp hm)
  obtain ⟨j, message', hj, hget⟩ := safe.cites_decreases hcycle i message hi
  -- a hash is filed at one position only
  have hi' := m.accepted.indexed h m.thread i message hi
  have hj' := m.accepted.indexed h m.thread j message' hget
  rw [hi'] at hj'
  injection hj' with hpair
  injection hpair with _ hij
  omega

/-- **Admission safety.**  For every monitor returned by `new` and every sequence of calls. -/
theorem admission_safe {dialectHash : Dialect → String} {dialect : Dialect}
    {endpoint : Endpoint} {rootMessage : Message} {gate : AdmissionGate} {m₀ : AdmissionMonitor}
    (hnew : AdmissionMonitor.new dialectHash dialect endpoint rootMessage gate = .ok m₀)
    (calls : List Call) :
    let m := run m₀ calls
    (∀ h, m.accepted.contains h m.thread = true ↔ m.state h = some .accepted) ∧
    (m.pending.Nodup ∧ ∀ h, h ∈ m.pending ↔ m.state h = some .pending) ∧
    ((∀ e, (m.accepted.messages m.thread)[0]? = some e → e.1 = m.root) ∧
      (∀ (i : Nat) h message, (m.accepted.messages m.thread)[i]? = some (h, message) →
        h ≠ m.root → ∀ k ∈ cited message, ∃ (j : Nat) (message' : Message), j < i ∧
          (m.accepted.messages m.thread)[j]? = some (k, message')) ∧
      ∀ h, ¬ Relation.TransGen (Cites m) h h) ∧
    (∀ later : List Call,
      m.accepted.messages m.thread <+: (run m later).accepted.messages m.thread ∧
      ∀ h st, m.state h = some st → st ≠ .pending →
        (run m later).state h = some st ∧
        (run m later).receivedMessage h = m.receivedMessage h ∧
        (run m later).accepted.lookupInThread h m.thread
          = m.accepted.lookupInThread h m.thread ∧
        h ∉ (run m later).pending) ∧
    (∀ message e m', m.receive message = (.error e, m') → m' = m) := by
  intro m
  have safe : Safe m := run_safe hnew calls
  refine ⟨safe.accepted_iff, ⟨safe.queue_nodup, safe.queue_iff⟩,
    ⟨safe.history.first, safe.history.precedes, safe.acyclic⟩, fun later => ?_,
    fun _ _ _ h => receive_error h⟩
  have hchanges := run_changes later m
  have hkeeps := Changes.keeps hchanges safe
  refine ⟨hkeeps.messages, fun h st hst hne => ?_⟩
  have hstate := hkeeps.state h st hst hne
  have hmessage : ∃ message, m.receivedMessage h = some message := by
    unfold AdmissionMonitor.state at hst
    obtain ⟨c, hc, -⟩ := Option.map_eq_some_iff.mp hst
    exact ⟨c.message, by rw [AdmissionMonitor.receivedMessage, hc]; rfl⟩
  obtain ⟨message, hm⟩ := hmessage
  refine ⟨hstate, by rw [hm, hkeeps.message h message hm], hkeeps.lookup h st hst hne, ?_⟩
  intro hin
  have hpend := ((Changes.safe hchanges safe).queue_iff h).mp hin
  rw [hstate] at hpend
  exact hne (Option.some.inj hpend)

-- ── The ticking thread ────

/-- A pin of the right shape. -/
def tickPin : String := "sha256:0000000000000000000000000000000000000000000000000000000000000000"

/-- The ticking dialect as installed under that pin. -/
def pinnedTicks : Dialect := { tickDialect with hash := some tickPin }

/-- The root of a ticking thread: it casts `@clock`. -/
def tickRoot : Message :=
  .wrapped .withRoles
    [.list [.list [.atom (.symbol "clock"), .atom (.symbol "@clock")]],
     .atom (.keyword "dialect"), .atom (.symbol tickPin)]
    (.wrapped .signed [.atom (.symbol "@clock")]
      (.simple (.core .hello) none (.list []) [] (some "t") none (some .begin)))

/-- A gate that names the root `r`, the first tick `h1` and the second `h2`. -/
def tickGate : AdmissionGate := fun message =>
  if message = tickRoot then .ok "r"
  else if message = tick (.single "r") then .ok "h1"
  else if message = tick (.single "h1") then .ok "h2"
  else .error "unknown message"

/-- A monitor of the ticking thread that has received the second tick before the first. -/
theorem admission_safe_ticks :
    ∃ m₀, AdmissionMonitor.new (fun _ => tickPin) pinnedTicks ⟨"clock", none⟩ tickRoot tickGate
        = .ok m₀ ∧
      (run m₀ [.receive (tick (.single "h1")), .receive (tick (.single "r"))]).pending.Nodup := by
  cases hnew : AdmissionMonitor.new (fun _ => tickPin) pinnedTicks ⟨"clock", none⟩ tickRoot
      tickGate with
  | error e =>
      have hok : (AdmissionMonitor.new (fun _ => tickPin) pinnedTicks ⟨"clock", none⟩ tickRoot
          tickGate).isOk = true := by decide
      rw [hnew] at hok
      exact nomatch hok
  | ok m₀ =>
      exact ⟨m₀, rfl, (admission_safe hnew
        [.receive (tick (.single "h1")), .receive (tick (.single "r"))]).2.1.1⟩

end CbclAdmissionSafety
