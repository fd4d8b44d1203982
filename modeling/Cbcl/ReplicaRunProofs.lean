import Cbcl.GroupCommitProofs

/-!
# Runs of a replica

A host starts a replica by creating its log or by recovering it, and then calls the operations of
the replica in any order, with whatever its journal answers.  Whatever an operation does, and
wherever it stops, the replica it leaves comes from the one before by checked events; so an
invariant of `fresh` that every checked event preserves holds throughout every run.
-/

namespace CbclQuorum

open CbclMessage CbclAct CbclExcept

-- ── Checked events in turn ────

/-- A replica that comes from another by checked events. -/
inductive Steps (auth : Authentication) (r : Replica) : Replica → Prop where
  | refl : Steps auth r r
  | step {r' : Replica} {event : Event} {u : Update} (prev : Steps auth r r')
      (prepared : r'.prepare auth event = .ok (some u))
      (room : r'.sequence < r'.limits.events) : Steps auth r (r'.advance u)

section Operations

variable {auth : Authentication}

theorem Steps.trans {r r' r'' : Replica} (h : Steps auth r r') (h' : Steps auth r' r'') :
    Steps auth r r'' := by
  induction h' with
  | refl => exact h
  | step _ prepared room ih => exact .step ih prepared room

/-- A commit performs at most one event. -/
theorem commit_steps (h : Host) (event : Event) :
    Steps auth h.replica (h.commit auth event).1.replica := by
  unfold Host.commit
  cases hprepare : h.replica.prepare auth event with
  | error reason => exact .refl
  | ok update =>
      cases update with
      | none => exact .refl
      | some u =>
          dsimp only
          by_cases hfull : h.replica.sequence ≥ h.replica.limits.events
          · rw [if_pos hfull]
            exact .refl
          · rw [if_neg hfull]
            cases h.journal.append (some h.replica.sequence) [event] with
            | mk journal answer =>
                cases answer with
                | error reason => exact .refl
                | ok done => exact .step .refl hprepare (Nat.lt_of_not_le hfull)

theorem commitRequest_steps (h : Host) (event : Event) (kind : VoteKind) (payload : String) :
    Steps auth h.replica (h.commitRequest auth event kind payload).1.replica := by
  have hcommit := @commit_steps auth h event
  unfold Host.commitRequest
  cases hout : h.commit auth event with
  | mk h' answer =>
      rw [hout] at hcommit
      cases answer with
      | error reason => exact hcommit
      | ok done => exact hcommit

theorem adoptAll_steps : ∀ (path : List String) (h : Host),
    Steps auth h.replica (h.adoptAll auth path).1.replica := by
  intro path
  induction path with
  | nil => intro h; exact .refl
  | cons id rest ih =>
      intro h
      have hcommit := @commit_steps auth h (.adoptVersion id)
      rw [Host.adoptAll]
      cases hout : h.adoptVersion auth id with
      | mk h' answer =>
          rw [show h.commit auth (.adoptVersion id) = (h', answer) from hout] at hcommit
          cases answer with
          | error reason => exact hcommit
          | ok done => exact hcommit.trans (ih h')

/-- A group performs its staged events or none. -/
theorem stageAll_steps : ∀ (events : List Event) (plan : GroupPreparation),
    Steps auth plan.replica (plan.stageAll auth events).1.replica := by
  intro events
  induction events with
  | nil => intro plan; exact .refl
  | cons event rest ih =>
      intro plan
      rw [GroupPreparation.stageAll]
      cases hstage : plan.stage auth event with
      | mk plan' out =>
          rcases GroupPreparation.stage_cases hstage with
            ⟨reason, rfl, rfl⟩ | ⟨rfl, rfl, -⟩ | ⟨u, undo, rfl, hprepare, hroom, -, rfl⟩
          · exact .refl
          · exact ih plan'
          · exact (Steps.step .refl hprepare hroom).trans
              (ih ⟨plan.replica.advance u, undo :: plan.undo, plan.durable ++ [event],
                plan.updates ++ [u]⟩)

theorem commitGroup_steps (h : Host) (events : List Event) :
    Steps auth h.replica (h.commitGroup auth events).1.replica := by
  have hback : ((GroupPreparation.mk h.replica [] [] []).stageAll auth events).1.rollback
      h.replica.sequence = h.replica :=
    @GroupPreparation.stageAll_rollback auth h.replica.sequence events _
  have hsteps := @stageAll_steps auth events ⟨h.replica, [], [], []⟩
  unfold Host.commitGroup
  by_cases hlong : events.length > 256
  · rw [if_pos hlong]
    exact .refl
  rw [if_neg hlong]
  dsimp only
  rw [hback]
  cases hstage : (GroupPreparation.mk h.replica [] [] []).stageAll auth events with
  | mk plan out =>
      rw [hstage] at hsteps
      cases out with
      | error reason => exact .refl
      | ok done =>
          obtain ⟨durable, updates, hserial⟩ := stageAll_serial events _ plan hstage
          have hreplica : plan.replica = plan.updates.foldl Replica.advance h.replica := by
            rw [show plan.updates = updates from hserial.updates_eq]
            exact hserial.replica_eq
          dsimp only
          by_cases hempty : plan.durable = []
          · rw [if_pos hempty]
            exact .refl
          · rw [if_neg hempty]
            cases h.journal.append (some h.replica.sequence) plan.durable with
            | mk journal answer =>
                cases answer with
                | error reason => exact .refl
                | ok done =>
                    show Steps auth h.replica (plan.updates.foldl Replica.advance h.replica)
                    rw [← hreplica]
                    exact hsteps

-- ── Imports ────

theorem importRound_steps : ∀ (items : List RelayItem) (round : ImportRound),
    Steps auth round.host.replica (round.run auth items).1.host.replica := by
  intro items
  induction items with
  | nil => intro round; exact .refl
  | cons item rest ih =>
      intro round
      rw [ImportRound.run]
      cases hprepare : round.host.replica.prepare auth item.event with
      | error reason =>
          exact ih ⟨round.host, round.deferred ++ [item], round.reasons ++ [reason]⟩
      | ok update =>
          have hcommit := @commit_steps auth round.host item.event
          dsimp only
          cases hout : round.host.commit auth item.event with
          | mk h' answer =>
              rw [hout] at hcommit
              cases answer with
              | error reason => exact hcommit
              | ok done => exact hcommit.trans (ih ⟨h', round.deferred, round.reasons⟩)

theorem importLoop_steps : ∀ (n : Nat) (h : Host) (pending : List RelayItem),
    Steps auth h.replica (Host.importLoop auth n h pending).1.replica := by
  intro n
  induction n with
  | zero => intro h pending; exact .refl
  | succ n ih =>
      intro h pending
      have hround := @importRound_steps auth pending ⟨h, [], []⟩
      rw [Host.importLoop]
      cases hrun : ImportRound.run auth ⟨h, [], []⟩ pending with
      | mk round out =>
          rw [hrun] at hround
          cases out with
          | error reason => exact hround
          | ok done =>
              dsimp only
              split
              · exact hround
              · exact hround.trans (ih round.host round.deferred)

theorem importRelayItems_steps (h : Host) (items : List RelayItem) :
    Steps auth h.replica (h.importRelayItems auth items).1.replica := by
  unfold Host.importRelayItems
  split
  · exact .refl
  · cases items.forM h.replica.boundRelayItem with
    | error reason => exact .refl
    | ok done => exact importLoop_steps _ h items

-- ── Catching up and publishing ────

theorem catchUpOwned_steps (h : Host) (target : String) :
    Steps auth h.replica (h.catchUpOwned auth target).1.replica := by
  unfold Host.catchUpOwned
  cases h.replica.ownedAdoptionPath target with
  | error reason => exact .refl
  | ok path => exact adoptAll_steps path h

theorem answerWith_host (answer : Host × Except String SigningRequest)
    (result : SigningRequest → PublicationResult) :
    (Host.answerWith answer result).1 = answer.1 := by
  obtain ⟨h, out⟩ := answer
  cases out <;> rfl

theorem signPublication_steps (h : Host) (a : Act) :
    Steps auth h.replica (h.signPublication auth a).1.replica := by
  unfold Host.signPublication
  cases h.replica.op a.address with
  | error reason => exact .refl
  | ok op =>
      dsimp only
      cases h.replica.ownedAdoptionPath op.epoch with
      | error reason => exact .refl
      | ok path =>
          have hadopt := @adoptAll_steps auth path h
          dsimp only
          cases hout : h.adoptAll auth path with
          | mk h' answer =>
              rw [hout] at hadopt
              cases answer with
              | error reason => exact hadopt
              | ok done =>
                  dsimp only
                  cases h'.replica.prepare auth (.sign a.address) with
                  | error reason => exact hadopt
                  | ok update =>
                      show Steps auth h.replica (Host.answerWith _ _).1.replica
                      rw [answerWith_host]
                      exact hadopt.trans (commitRequest_steps h' _ _ _)

theorem settlePublication_steps (h : Host) (a : Act) (pending : List RelayItem)
    (reasons : List String) :
    Steps auth h.replica (h.settlePublication auth a pending reasons).1.replica := by
  unfold Host.settlePublication
  cases h.replica.certificate .effects a.address with
  | some certificate =>
      dsimp only
      cases h.replica.publication a with
      | error reason => exact .refl
      | ok p => exact .refl
  | none =>
      dsimp only
      by_cases hpending : pending ≠ []
      · rw [if_pos hpending]
        exact .refl
      · rw [if_neg hpending]
        cases h.replica.certificate .operation a.address with
        | some operation =>
            show Steps auth h.replica (Host.answerWith _ _).1.replica
            rw [answerWith_host]
            exact commitRequest_steps h _ _ _
        | none => exact signPublication_steps h a

theorem preparePublication_steps (h : Host) (p : Publication) :
    Steps auth h.replica (h.preparePublication auth p).1.replica := by
  unfold Host.preparePublication
  cases h.replica.boundRelayAct p.act with
  | error reason => exact .refl
  | ok done =>
      dsimp only
      split
      · exact .refl
      split
      · exact .refl
      cases p.evidence.forM h.replica.boundRelayItem with
      | error reason => exact .refl
      | ok done =>
          have himport := @importRelayItems_steps auth h (p.evidence ++ [.act p.act])
          dsimp only
          cases hout : h.importRelayItems auth (p.evidence ++ [.act p.act]) with
          | mk h' answer =>
              rw [hout] at himport
              cases answer with
              | error reason => exact himport
              | ok pending => exact himport.trans (settlePublication_steps h' _ _ _)

theorem catchUpParent_steps (h : Host) (m : VersionManifest) :
    Steps auth h.replica (h.catchUpParent auth m).1.replica := by
  unfold Host.catchUpParent
  cases h.replica.activeEpoch m.account with
  | error reason => exact .refl
  | ok current =>
      dsimp only
      split
      · exact .refl
      · split
        · exact .refl
        · rename_i path _
          have hadopt := @adoptAll_steps auth path h
          cases hout : h.adoptAll auth path with
          | mk h' answer =>
              rw [hout] at hadopt
              cases answer with
              | error reason => exact hadopt
              | ok done => exact hadopt

theorem signSeal_steps (h : Host) (request : OwnedSealRequest) :
    Steps auth h.replica (h.signSeal auth request).1.replica := by
  unfold Host.signSeal
  cases h.replica.checkOwned auth request with
  | error reason => exact .refl
  | ok done =>
      have hcatch := @catchUpParent_steps auth h request.version.manifest
      dsimp only
      cases hout : h.catchUpParent auth request.version.manifest with
      | mk h' answer =>
          rw [hout] at hcatch
          cases answer with
          | error reason => exact hcatch
          | ok waits =>
              cases waits with
              | some reason => exact hcatch
              | none =>
                  dsimp only
                  cases h'.replica.prepare auth (.sealOwned request) with
                  | error reason => exact hcatch
                  | ok update =>
                      show Steps auth h.replica (Host.answerWith _ _).1.replica
                      rw [answerWith_host]
                      exact hcatch.trans (commitRequest_steps h' _ _ _)

theorem settleSeal_steps (h : Host) (request : OwnedSealRequest) (pending : List RelayItem)
    (reasons : List String) :
    Steps auth h.replica (h.settleSeal auth request pending reasons).1.replica := by
  unfold Host.settleSeal
  cases h.replica.certificate .ownedSeal
      (h.replica.context.versionId request.version.manifest) with
  | some certificate =>
      dsimp only
      cases h.replica.checkOwned auth request with
      | error reason => exact .refl
      | ok done =>
          dsimp only
          cases h.replica.sealEvidence request.version.manifest with
          | error reason => exact .refl
          | ok evidence => exact .refl
  | none =>
      dsimp only
      by_cases hpending : pending ≠ []
      · rw [if_pos hpending]
        exact .refl
      · rw [if_neg hpending]
        exact signSeal_steps h request

theorem prepareSealPublication_steps (h : Host) (p : SealPublication) :
    Steps auth h.replica (h.prepareSealPublication auth p).1.replica := by
  unfold Host.prepareSealPublication
  cases h.replica.boundSealRequest p.request with
  | error reason => exact .refl
  | ok done =>
      dsimp only
      split
      · exact .refl
      · have himport := @importRelayItems_steps auth h p.evidence
        cases hout : h.importRelayItems auth p.evidence with
        | mk h' answer =>
            rw [hout] at himport
            cases answer with
            | error reason => exact himport
            | ok pending => exact himport.trans (settleSeal_steps h' _ _ _)

end Operations

-- ── Runs ────

/-- How a host comes by its replica. -/
inductive Boot where
  | create (journal : Journal Event)
  | recover (journal : Journal Event)

/-- The host after starting, if it starts. -/
def Boot.host (auth : Authentication) (c : Context) (validator : String) (limits : Limits) :
    Boot → Except String Host
  | .create journal => (Host.initializeReplica c validator limits journal).2
  | .recover journal =>
      (Replica.recover auth c validator limits journal).map fun r => ⟨r, journal⟩

/-- Recover the replica of a host from a journal; the old one stays where that fails. -/
def Host.restart (auth : Authentication) (h : Host) (journal : Journal Event) : Host :=
  match Replica.recover auth h.replica.context h.replica.validator h.replica.limits journal with
  | .ok r => ⟨r, journal⟩
  | .error _ => h

/-- An operation of a host on its replica, or a restart from a journal. -/
inductive HostCall where
  | register (a : Act)
  | receive (c : Certificate)
  | receiveVersion (v : DagVersion)
  | adoptVersion (id : String)
  | recordOwnedProposal (request : OwnedSealRequest)
  | prepareOwnedSeal (request : OwnedSealRequest)
  | prepareOperation (id : String)
  | prepareEffects (id : String)
  | prepareCancel (request : Vote)
  | release (id : String)
  | commitGroup (events : List Event)
  | receiveEvidence (items : List RelayItem)
  | catchUpOwned (target : String)
  | preparePublication (p : Publication)
  | prepareSealPublication (p : SealPublication)
  | restart (journal : Journal Event)

/-- The host after an operation, whatever it answered. -/
def HostCall.perform (auth : Authentication) (h : Host) : HostCall → Host
  | .register a => (h.register auth a).1
  | .receive c => (h.receive auth c).1
  | .receiveVersion v => (h.receiveVersion auth v).1
  | .adoptVersion id => (h.adoptVersion auth id).1
  | .recordOwnedProposal request => (h.recordOwnedProposal auth request).1
  | .prepareOwnedSeal request => (h.prepareOwnedSeal auth request).1
  | .prepareOperation id => (h.prepareOperation auth id).1
  | .prepareEffects id => (h.prepareEffects auth id).1
  | .prepareCancel request => (h.prepareCancel auth request).1
  | .release id => (h.release auth id).1
  | .commitGroup events => (h.commitGroup auth events).1
  | .receiveEvidence items => (h.receiveEvidence auth items).1
  | .catchUpOwned target => (h.catchUpOwned auth target).1
  | .preparePublication p => (h.preparePublication auth p).1
  | .prepareSealPublication p => (h.prepareSealPublication auth p).1
  | .restart journal => h.restart auth journal

section Runs

variable {auth : Authentication}

/-- A call between restarts performs checked events. -/
theorem perform_steps (h : Host) (call : HostCall)
    (noRestart : ∀ journal, call ≠ .restart journal) :
    Steps auth h.replica (call.perform auth h).replica := by
  cases call with
  | register a => exact commit_steps h _
  | receive c => exact commit_steps h _
  | receiveVersion v => exact commit_steps h _
  | adoptVersion id => exact commit_steps h _
  | recordOwnedProposal request => exact commit_steps h _
  | prepareOwnedSeal request => exact commitRequest_steps h _ _ _
  | prepareOperation id => exact commitRequest_steps h _ _ _
  | prepareEffects id => exact commitRequest_steps h _ _ _
  | prepareCancel request => exact commitRequest_steps h _ _ _
  | release id => exact commit_steps h _
  | commitGroup events => exact commitGroup_steps h events
  | receiveEvidence items =>
      have himport := @importRelayItems_steps auth h items
      show Steps auth h.replica (h.receiveEvidence auth items).1.replica
      unfold Host.receiveEvidence
      cases hout : h.importRelayItems auth items with
      | mk h' answer =>
          rw [hout] at himport
          cases answer with
          | error reason => exact himport
          | ok done => exact himport
  | catchUpOwned target => exact catchUpOwned_steps h target
  | preparePublication p => exact preparePublication_steps h p
  | prepareSealPublication p => exact prepareSealPublication_steps h p
  | restart journal => exact absurd rfl (noRestart journal)

variable {c : Context} {validator : String} {limits : Limits}

/-- What holds of a fresh replica of the given context, validator and limits, survives the checked
    events, those that repeat what a replica has included. -/
structure Invariant (auth : Authentication) (c : Context) (validator : String) (limits : Limits)
    (P : Replica → Prop) : Prop where
  fresh : P (.fresh c validator limits)
  step : ∀ {r : Replica} {event : Event} {u : Update}, P r → r.prepare auth event = .ok (some u) →
    P (r.advance u)
  skip : ∀ {r : Replica} {event : Event}, P r → r.prepare auth event = .ok none →
    P { r with sequence := r.sequence + 1 }

variable {P : Replica → Prop}

theorem Invariant.steps (inv : Invariant auth c validator limits P) {r r' : Replica}
    (h : Steps auth r r') (hr : P r) : P r' := by
  induction h with
  | refl => exact hr
  | step _ prepared _ ih => exact inv.step ih prepared

theorem Invariant.replay (inv : Invariant auth c validator limits P) :
    ∀ (events : List Event) {r r' : Replica}, P r → r.replay auth events = .ok r' → P r' := by
  intro events
  induction events with
  | nil =>
      intro r r' hr h
      rw [← Except.ok.inj h]
      exact hr
  | cons event rest ih =>
      intro r r' hr h
      rw [Replica.replay] at h
      obtain ⟨update, hprepare, h⟩ := bind_ok_iff.mp h
      cases update with
      | none => exact ih (inv.skip hr hprepare) h
      | some u => exact ih (inv.step hr hprepare) h

theorem Invariant.recover (inv : Invariant auth c validator limits P) {journal : Journal Event}
    {r : Replica} (h : Replica.recover auth c validator limits journal = .ok r) : P r := by
  unfold Replica.recover at h
  split at h
  · exact nomatch h
  split at h
  · exact nomatch h
  split at h
  · exact nomatch h
  exact inv.replay _ inv.fresh h

theorem Invariant.boot (inv : Invariant auth c validator limits P) {boot : Boot} {h : Host}
    (hboot : boot.host auth c validator limits = .ok h) : P h.replica := by
  cases boot with
  | create journal =>
      have hinit : (Host.initializeReplica c validator limits journal).2 = .ok h := hboot
      unfold Host.initializeReplica at hinit
      split at hinit
      · exact nomatch hinit
      split at hinit
      · exact nomatch hinit
      split at hinit
      · exact nomatch hinit
      split at hinit
      · exact nomatch hinit
      rw [← Except.ok.inj hinit]
      exact inv.fresh
  | recover journal =>
      obtain ⟨r, hr, rfl⟩ := map_ok_iff.mp hboot
      exact inv.recover hr

/-- What a replica was started with stays. -/
theorem starts_invariant (auth : Authentication) (c : Context) (validator : String)
    (limits : Limits) : Invariant auth c validator limits fun r =>
      r.context = c ∧ r.validator = validator ∧ r.limits = limits where
  fresh := ⟨rfl, rfl, rfl⟩
  step := fun h _ => h
  skip := fun h _ => h

/-- An invariant holds after every call, restarts included. -/
theorem Invariant.perform (inv : Invariant auth c validator limits P) {h : Host} (call : HostCall)
    (hstart : h.replica.context = c ∧ h.replica.validator = validator ∧ h.replica.limits = limits)
    (hr : P h.replica) : P (call.perform auth h).replica := by
  by_cases hrestart : ∃ journal, call = .restart journal
  · obtain ⟨journal, rfl⟩ := hrestart
    obtain ⟨hc, hv, hl⟩ := hstart
    show P (h.restart auth journal).replica
    unfold Host.restart
    rw [hc, hv, hl]
    cases hrecover : Replica.recover auth c validator limits journal with
    | error reason => exact hr
    | ok r => exact inv.recover hrecover
  · exact inv.steps (perform_steps h call fun journal hj => hrestart ⟨journal, hj⟩) hr

/-- **Runs**: an invariant holds throughout every run of a host, however it started and whatever
    its journal answered. -/
theorem Invariant.run (inv : Invariant auth c validator limits P) {boot : Boot} {h : Host}
    (hboot : boot.host auth c validator limits = .ok h) (calls : List HostCall) :
    P (calls.foldl (HostCall.perform auth) h).replica := by
  have hstarts := starts_invariant auth c validator limits
  have hboth : ∀ (calls : List HostCall) (h : Host),
      (h.replica.context = c ∧ h.replica.validator = validator ∧ h.replica.limits = limits) →
      P h.replica → P (calls.foldl (HostCall.perform auth) h).replica := by
    intro calls
    induction calls with
    | nil => intro h _ hr; exact hr
    | cons call rest ih =>
        intro h hstart hr
        exact ih _ (hstarts.perform call hstart hstart) (inv.perform call hstart hr)
  exact hboth calls h (hstarts.boot hboot) (inv.boot hboot)

end Runs

end CbclQuorum
