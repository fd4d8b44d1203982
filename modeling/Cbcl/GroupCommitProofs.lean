import Cbcl.ReplicaProofs

/-!
# Group commit is serial commit

A group is staged on the live state, taken back entry by entry, and performed again once it is
written.  Every staged change is new where it is made, so taking it back restores the state; and
staging checks an event against the state serial commits would have reached.
-/

namespace CbclQuorum

open CbclMessage CbclTreeMap CbclExcept

-- ── Serial commits ────

namespace Host

/-- Commit one event by the operation that serves it. -/
def commitOne (auth : Authentication) (h : Host) :
    Event → Host × Except String (Option SigningRequest)
  | .sign id => ((h.prepareOperation auth id).1, (h.prepareOperation auth id).2.map some)
  | .effect id => ((h.prepareEffects auth id).1, (h.prepareEffects auth id).2.map some)
  | event => ((h.commit auth event).1, (h.commit auth event).2.map fun _ => none)

/-- Commit events one at a time, up to the first that fails. -/
def commitEach (auth : Authentication) (h : Host) :
    List Event → Host × Except String (List (Option SigningRequest))
  | [] => (h, .ok [])
  | event :: rest =>
      match h.commitOne auth event with
      | (h', .error reason) => (h', .error reason)
      | (h', .ok request) =>
          ((commitEach auth h' rest).1, (commitEach auth h' rest).2.map (request :: ·))

/-- A committed event answers as an event of a group does. -/
theorem commitOne_ok {auth : Authentication} {h h' : Host} {event : Event}
    (hc : h.commit auth event = (h', .ok ())) :
    h.commitOne auth event = (h', .ok (h'.replica.groupRequest event)) := by
  have hrequest : ∀ kind payload, h.commitRequest auth event kind payload
      = (h', .ok (h'.replica.context.request kind payload h'.replica.validator)) := by
    intro kind payload
    unfold commitRequest
    rw [hc]
  cases event with
  | sign id =>
      show ((h.commitRequest auth (.sign id) .operation id).1,
        (h.commitRequest auth (.sign id) .operation id).2.map some) = _
      rw [hrequest]
      rfl
  | effect id =>
      show ((h.commitRequest auth (.effect id) .effects id).1,
        (h.commitRequest auth (.effect id) .effects id).2.map some) = _
      rw [hrequest]
      rfl
  | _ =>
      show ((h.commit auth _).1, (h.commit auth _).2.map fun _ => none) = _
      rw [hc]
      rfl

end Host

-- ── Journals ────

/-- A journal that will refuse nothing. -/
def Journal.Open {ε : Type} (j : Journal ε) : Prop := ∀ a ∈ j.answers, a = none

/-- An open journal appends at its length. -/
theorem Journal.Open.append {ε : Type} {j : Journal ε} (h : j.Open) {log : List ε}
    (hlog : j.log = some log) (events : List ε) :
    ∃ j' : Journal ε, j.append (some log.length) events = (j', .ok ()) ∧
      j'.log = some (log ++ events) ∧ j'.Open := by
  have hanswer : j.answers.head?.join = none := by
    cases hans : j.answers with
    | nil => rfl
    | cons a rest => rw [h a (hans ▸ List.mem_cons_self ..)]; rfl
  refine ⟨⟨some (log ++ events), j.answers.tail⟩, ?_, rfl,
    fun a ha => h a (List.mem_of_mem_tail ha)⟩
  unfold Journal.append
  rw [hanswer, hlog]
  exact if_pos rfl

/-- What an append does to the log. -/
theorem Journal.append_log {ε : Type} {j j' : Journal ε} {n : Nat} {events : List ε}
    {out : Except String Unit} (h : j.append (some n) events = (j', out)) :
    (∃ reason, out = .error reason ∧ j'.log = j.log) ∨
      ∃ log, out = .ok () ∧ j.log = some log ∧ log.length = n ∧ j'.log = some (log ++ events) := by
  unfold Journal.append at h
  cases hanswer : j.answers.head?.join with
  | some reason =>
      rw [hanswer] at h
      obtain ⟨rfl, rfl⟩ := Prod.mk.inj h
      exact Or.inl ⟨reason, rfl, rfl⟩
  | none =>
      rw [hanswer] at h
      cases hlog : j.log with
      | none =>
          rw [hlog] at h
          obtain ⟨rfl, rfl⟩ := Prod.mk.inj h
          exact Or.inl ⟨_, rfl, rfl⟩
      | some log =>
          rw [hlog] at h
          dsimp only at h
          by_cases hlen : log.length = n
          · rw [if_pos hlen] at h
            obtain ⟨rfl, rfl⟩ := Prod.mk.inj h
            exact Or.inr ⟨log, rfl, rfl, hlen, rfl⟩
          · rw [if_neg hlen] at h
            obtain ⟨rfl, rfl⟩ := Prod.mk.inj h
            exact Or.inl ⟨_, rfl, rfl⟩

-- ── Taking back ────

section Undo

variable {κ ν : Type} [Ord κ] [Std.TransOrd κ] [Std.LawfulEqOrd κ] [DecidableEq κ]

theorem erase_insert_map {m : BTreeMap κ ν} {k : κ} (h : m[k]? = none) (v : ν) :
    (m.insert k v).erase k = m := by
  refine Std.ExtTreeMap.ext_getElem? fun {a} => ?_
  rw [getElem?_erase_eq, getElem?_insert_eq]
  split
  · rename_i hak
    rw [hak, h]
  · rfl

theorem insert_insert_map {m : BTreeMap κ ν} {k : κ} {old : ν} (h : m[k]? = some old) (v : ν) :
    (m.insert k v).insert k old = m := by
  refine Std.ExtTreeMap.ext_getElem? fun {a} => ?_
  rw [getElem?_insert_eq, getElem?_insert_eq]
  split
  · rename_i hak
    rw [hak, h]
  · rfl

omit [DecidableEq κ] in
theorem erase_insert_set {s : BTreeSet κ} {k : κ} (h : k ∉ s) : (s.insert k).erase k = s := by
  refine Std.ExtTreeSet.ext_mem fun {a} => ?_
  rw [mem_erase_iff, mem_insert_iff]
  constructor
  · rintro ⟨hne, rfl | ha⟩
    · exact absurd rfl hne
    · exact ha
  · intro ha
    exact ⟨fun heq => h (heq ▸ ha), Or.inr ha⟩

end Undo

/-- **A staged change is taken back**: it was new where it was made, and the charge it replaced is
    kept. -/
theorem undo_applyUpdate {auth : Authentication} {r : Replica} {event : Event} {u : Update}
    (hgroup : event.groupable = true) (h : Admits auth r event u) :
    ∃ undo, r.state.undoOf u = some undo ∧ (r.state.applyUpdate u).undo undo = r.state := by
  cases h with
  | @candidate a op read authentic fresh room =>
      refine ⟨.candidate a.address, rfl, ?_⟩
      show ({ r.state with
        operations := (r.state.operations.insert a.address op).erase a.address } : State) = r.state
      rw [erase_insert_map fresh]
  | @certificate c kind subject verified exclusion fresh =>
      refine ⟨.certificate c.kind c.payload, rfl, ?_⟩
      have habsent : r.state.certificates[(c.kind, c.payload)]? = none := by
        cases hcert : r.state.certificates[(c.kind, c.payload)]? with
        | none => rfl
        | some old =>
            rw [has_iff.mpr ⟨old, hcert⟩] at fresh
            cases fresh
      show ({ r.state with
        certificates := (r.state.certificates.insert (c.kind, c.payload) c).erase
          (c.kind, c.payload) } : State) = r.state
      rw [erase_insert_map habsent]
  | @sign id op charge fresh known budget =>
      refine ⟨.sign id op.epoch r.state.charges[op.epoch]?, rfl, ?_⟩
      cases hcharge : r.state.charges[op.epoch]? with
      | none =>
          show ({ r.state with
            signed := (r.state.signed.insert id).erase id
            charges := (r.state.charges.insert op.epoch charge).erase op.epoch } : State) = r.state
          rw [erase_insert_set fresh, erase_insert_map hcharge]
      | some old =>
          show ({ r.state with
            signed := (r.state.signed.insert id).erase id
            charges := (r.state.charges.insert op.epoch charge).insert op.epoch old } : State)
              = r.state
          rw [erase_insert_set fresh, insert_insert_map hcharge]
  | @effect id op fresh known unfenced certified =>
      refine ⟨.effect id, rfl, ?_⟩
      show ({ r.state with effects := (r.state.effects.insert id).erase id } : State) = r.state
      rw [erase_insert_set fresh]
  | _ => cases hgroup

-- ── Staging ────

namespace GroupPreparation

/-- **A staged event** was done already, or is new and can be taken back; an event that is refused
    leaves the group as it was. -/
theorem stage_cases {auth : Authentication} {plan plan' : GroupPreparation} {event : Event}
    {out : Except String Unit} (h : plan.stage auth event = (plan', out)) :
    (∃ reason, out = .error reason ∧ plan' = plan) ∨
      (out = .ok () ∧ plan' = plan ∧ plan.replica.prepare auth event = .ok none) ∨
      ∃ u undo, out = .ok () ∧ plan.replica.prepare auth event = .ok (some u) ∧
        plan.replica.sequence < plan.replica.limits.events ∧
        (plan.replica.state.applyUpdate u).undo undo = plan.replica.state ∧
        plan' = ⟨plan.replica.advance u, undo :: plan.undo, plan.durable ++ [event],
          plan.updates ++ [u]⟩ := by
  unfold stage at h
  by_cases hgroup : event.groupable = true
  · rw [hgroup, if_neg (by decide)] at h
    cases hprepare : plan.replica.prepare auth event with
    | error reason =>
        rw [hprepare] at h
        obtain ⟨rfl, rfl⟩ := Prod.mk.inj h
        exact Or.inl ⟨reason, rfl, rfl⟩
    | ok update =>
        rw [hprepare] at h
        cases update with
        | none =>
            obtain ⟨rfl, rfl⟩ := Prod.mk.inj h
            exact Or.inr (Or.inl ⟨rfl, rfl, rfl⟩)
        | some u =>
            dsimp only at h
            by_cases hfull : plan.replica.sequence ≥ plan.replica.limits.events
            · rw [if_pos hfull] at h
              obtain ⟨rfl, rfl⟩ := Prod.mk.inj h
              exact Or.inl ⟨_, rfl, rfl⟩
            · rw [if_neg hfull] at h
              obtain ⟨rfl, rfl⟩ := Prod.mk.inj h
              obtain ⟨undo, hundo, hback⟩ := undo_applyUpdate hgroup (admits_of_prepare hprepare)
              refine Or.inr (Or.inr ⟨u, undo, rfl, rfl, Nat.lt_of_not_le hfull, hback, ?_⟩)
              rw [hundo]
              rfl
  · rw [Bool.not_eq_true] at hgroup
    rw [hgroup, if_pos (by decide)] at h
    obtain ⟨rfl, rfl⟩ := Prod.mk.inj h
    exact Or.inl ⟨_, rfl, rfl⟩

/-- One staged event more is taken back with the others. -/
theorem stage_rollback {auth : Authentication} {plan plan' : GroupPreparation} {event : Event}
    {out : Except String Unit} (h : plan.stage auth event = (plan', out)) (sequence : Nat) :
    plan'.rollback sequence = plan.rollback sequence := by
  rcases stage_cases h with ⟨reason, -, rfl⟩ | ⟨-, rfl, -⟩ | ⟨u, undo, -, -, -, hback, rfl⟩
  · rfl
  · rfl
  · show ({ plan.replica with
      state := plan.undo.foldl State.undo ((plan.replica.state.applyUpdate u).undo undo)
      sequence } : Replica) = _
    rw [hback]
    rfl

/-- **Staging is taken back**, wherever it stops. -/
theorem stageAll_rollback {auth : Authentication} (sequence : Nat) :
    ∀ (events : List Event) (plan : GroupPreparation),
      (plan.stageAll auth events).1.rollback sequence = plan.rollback sequence := by
  intro events
  induction events with
  | nil => intro plan; rfl
  | cons event rest ih =>
      intro plan
      rw [stageAll]
      cases hstage : plan.stage auth event with
      | mk plan' out =>
          have hback := stage_rollback hstage sequence
          cases out with
          | ok done => exact (ih plan').trans hback
          | error reason => exact hback

end GroupPreparation

-- ── Serial commits reach the staged state ────

/-- What staging adds: changes, the events that make them, and the same from serial commits on an
    open journal. -/
structure Serial (auth : Authentication) (plan plan' : GroupPreparation) (events : List Event)
    (durable : List Event) (updates : List Update) : Prop where
  durable_eq : plan'.durable = plan.durable ++ durable
  updates_eq : plan'.updates = plan.updates ++ updates
  length_eq : updates.length = durable.length
  replica_eq : plan'.replica = updates.foldl Replica.advance plan.replica
  commits : ∀ j : Journal Event, j.Open →
    (durable = [] ∨ ∃ log, j.log = some log ∧ log.length = plan.replica.sequence) →
    ∃ j' : Journal Event, Host.commitEach auth ⟨plan.replica, j⟩ events
        = (⟨plan'.replica, j'⟩, .ok (events.map plan.replica.groupRequest)) ∧
      j'.log = j.log.map (· ++ durable) ∧ j'.Open

theorem groupRequest_advance (r : Replica) (u : Update) (event : Event) :
    (r.advance u).groupRequest event = r.groupRequest event := by
  cases event <;> rfl

theorem foldl_groupRequest (us : List Update) : ∀ r : Replica,
    (us.foldl Replica.advance r).groupRequest = r.groupRequest := by
  induction us with
  | nil => intro r; rfl
  | cons u us ih =>
      intro r
      rw [List.foldl_cons, ih]
      exact funext fun e => groupRequest_advance r u e

/-- An event that was done already is committed without a trace. -/
theorem commit_done {auth : Authentication} {h : Host} {event : Event}
    (hprepare : h.replica.prepare auth event = .ok none) : h.commit auth event = (h, .ok ()) := by
  unfold Host.commit
  rw [hprepare]

/-- A new event is committed on an open journal of the right length. -/
theorem commit_new {auth : Authentication} {r : Replica} {j : Journal Event} {event : Event}
    {u : Update} (hprepare : r.prepare auth event = .ok (some u))
    (hroom : r.sequence < r.limits.events) (hopen : j.Open) {log : List Event}
    (hlog : j.log = some log) (hlen : log.length = r.sequence) :
    ∃ j' : Journal Event, Host.commit auth ⟨r, j⟩ event = (⟨r.advance u, j'⟩, .ok ()) ∧
      j'.log = some (log ++ [event]) ∧ j'.Open := by
  obtain ⟨j', happend, hlog', hopen'⟩ := hopen.append hlog [event]
  rw [hlen] at happend
  refine ⟨j', ?_, hlog', hopen'⟩
  unfold Host.commit
  dsimp only
  rw [hprepare]
  dsimp only
  rw [if_neg (Nat.not_le.mpr hroom), happend]

/-- **Staging and serial commits agree**: a group that stages reaches the replica that commits one
    at a time reach, with the same answers, and writes the same events. -/
theorem stageAll_serial {auth : Authentication} : ∀ (events : List Event)
    (plan plan' : GroupPreparation), plan.stageAll auth events = (plan', .ok ()) →
      ∃ durable updates, Serial auth plan plan' events durable updates := by
  intro events
  induction events with
  | nil =>
      intro plan plan' h
      obtain ⟨rfl, -⟩ := Prod.mk.inj h
      exact ⟨[], [], (List.append_nil _).symm, (List.append_nil _).symm, rfl, rfl, fun j hopen _ =>
        ⟨j, rfl, by cases j.log <;> simp, hopen⟩⟩
  | cons event rest ih =>
      intro plan plan' h
      rw [GroupPreparation.stageAll] at h
      cases hstage : plan.stage auth event with
      | mk plan₁ out =>
          rw [hstage] at h
          cases out with
          | error reason => exact nomatch (Prod.mk.inj h).2
          | ok done =>
              obtain ⟨ds, us, hrest⟩ := ih plan₁ plan' h
              rcases GroupPreparation.stage_cases hstage with
                ⟨reason, hno, -⟩ | ⟨-, rfl, hdone⟩ | ⟨u, undo, -, hnew, hroom, -, rfl⟩
              · exact nomatch hno
              · refine ⟨ds, us, hrest.durable_eq, hrest.updates_eq, hrest.length_eq, hrest.replica_eq,
                  fun j hopen hlog => ?_⟩
                obtain ⟨j', hcommits, hlog', hopen'⟩ := hrest.commits j hopen hlog
                refine ⟨j', ?_, hlog', hopen'⟩
                have hone := Host.commitOne_ok
                  (commit_done (h := ⟨plan₁.replica, j⟩) hdone)
                rw [Host.commitEach, hone]
                dsimp only
                rw [hcommits]
                rfl
              · refine ⟨event :: ds, u :: us, ?_, ?_, congrArg (· + 1) hrest.length_eq,
                  hrest.replica_eq, fun j hopen hlog => ?_⟩
                · rw [hrest.durable_eq, List.append_assoc]
                  rfl
                · rw [hrest.updates_eq, List.append_assoc]
                  rfl
                obtain ⟨log, hlog, hlen⟩ := hlog.resolve_left (List.cons_ne_nil _ _)
                obtain ⟨j₁, hcommit, hlog₁, hopen₁⟩ := commit_new hnew hroom hopen hlog hlen
                obtain ⟨j', hcommits, hlog', hopen'⟩ := hrest.commits j₁ hopen₁
                  (Or.inr ⟨_, hlog₁, by rw [List.length_append, hlen]; rfl⟩)
                refine ⟨j', ?_, ?_, hopen'⟩
                · have hone := Host.commitOne_ok hcommit
                  have hsame : (plan.replica.advance u).groupRequest = plan.replica.groupRequest :=
                    funext fun e => groupRequest_advance plan.replica u e
                  rw [Host.commitEach, hone]
                  dsimp only at hcommits ⊢
                  rw [hcommits, hsame]
                  rfl
                · rw [hlog', hlog₁, hlog]
                  show some (log ++ [event] ++ ds) = some (log ++ event :: ds)
                  rw [List.append_assoc]
                  rfl

/-- **Group commit equals serial commits, and is all or nothing**: a group that is accepted leaves
    the replica, the log and the requests of its events committed one at a time in order, on any
    open journal with the same log; a group that is refused, wherever and for whatever reason,
    leaves the replica and the log as they were. -/
theorem group_commit_serial (auth : Authentication) (h : Host) (events : List Event) :
    (∀ (h' : Host) (requests : List (Option SigningRequest)),
      h.commitGroup auth events = (h', .ok requests) →
        ∀ j : Journal Event, j.log = h.journal.log → j.Open →
          ∃ j' : Journal Event,
            Host.commitEach auth ⟨h.replica, j⟩ events = (⟨h'.replica, j'⟩, .ok requests) ∧
              j'.log = h'.journal.log) ∧
      ∀ (h' : Host) (reason : String), h.commitGroup auth events = (h', .error reason) →
        h'.replica = h.replica ∧ h'.journal.log = h.journal.log := by
  have hback := @GroupPreparation.stageAll_rollback auth h.replica.sequence events
    ⟨h.replica, [], [], []⟩
  have hback : ((GroupPreparation.mk h.replica [] [] []).stageAll auth events).1.rollback
      h.replica.sequence = h.replica := hback
  unfold Host.commitGroup
  by_cases hlong : events.length > 256
  · rw [if_pos hlong]
    refine ⟨fun h' requests hout => (nomatch (Prod.mk.inj hout).2), fun h' reason hout => ?_⟩
    obtain ⟨rfl, -⟩ := Prod.mk.inj hout
    exact ⟨rfl, rfl⟩
  rw [if_neg hlong]
  dsimp only
  rw [hback]
  cases hstage : (GroupPreparation.mk h.replica [] [] []).stageAll auth events with
  | mk plan out =>
      cases out with
      | error reason =>
          refine ⟨fun h' requests hout => (nomatch (Prod.mk.inj hout).2), fun h' reason hout => ?_⟩
          obtain ⟨rfl, -⟩ := Prod.mk.inj hout
          exact ⟨rfl, rfl⟩
      | ok done =>
          obtain ⟨durable, updates, hserial⟩ := stageAll_serial events _ plan hstage
          have hdurable : plan.durable = durable := hserial.durable_eq
          have hupdates : plan.updates = updates := hserial.updates_eq
          have hreplica : plan.replica = updates.foldl Replica.advance h.replica := hserial.replica_eq
          dsimp only
          by_cases hempty : plan.durable = []
          · rw [if_pos hempty]
            have hnone : updates = [] := List.eq_nil_of_length_eq_zero (by
              rw [hserial.length_eq, ← hdurable, hempty]
              rfl)
            rw [hnone] at hreplica
            refine ⟨fun h' requests hout j hlog hopen => ?_, fun h' reason hout => ?_⟩
            · obtain ⟨rfl, hreq⟩ := Prod.mk.inj hout
              obtain ⟨j', hcommits, hlog', -⟩ := hserial.commits j hopen (Or.inl (hdurable ▸ hempty))
              refine ⟨j', ?_, ?_⟩
              · rw [← hreq]
                refine hcommits.trans ?_
                rw [hreplica]
                rfl
              · rw [hlog', ← hdurable, hempty, ← hlog]
                cases j.log <;> simp
            · exact nomatch (Prod.mk.inj hout).2
          · rw [if_neg hempty]
            cases happend : h.journal.append (some h.replica.sequence) plan.durable with
            | mk journal answer =>
                rcases Journal.append_log happend with
                  ⟨why, rfl, hkept⟩ | ⟨log, rfl, hlog₀, hlen, hwritten⟩
                · refine ⟨fun h' requests hout => (nomatch (Prod.mk.inj hout).2),
                    fun h' reason hout => ?_⟩
                  obtain ⟨rfl, -⟩ := Prod.mk.inj hout
                  exact ⟨rfl, hkept⟩
                · refine ⟨fun h' requests hout j hlog hopen => ?_,
                    fun h' reason hout => (nomatch (Prod.mk.inj hout).2)⟩
                  obtain ⟨rfl, hreq⟩ := Prod.mk.inj hout
                  obtain ⟨j', hcommits, hlog', -⟩ :=
                    hserial.commits j hopen (Or.inr ⟨log, hlog.trans hlog₀, hlen⟩)
                  have hrequests : (updates.foldl Replica.advance h.replica).groupRequest
                      = h.replica.groupRequest := foldl_groupRequest updates h.replica
                  refine ⟨j', ?_, ?_⟩
                  · rw [← hreq, hupdates, hrequests, ← hreplica]
                    exact hcommits
                  · rw [hlog', hlog, hlog₀, ← hdurable]
                    exact hwritten.symm

end CbclQuorum
