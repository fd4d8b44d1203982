import Cbcl.IntendProofs

/-!
# The verbs a signer may send

`may_send` lists the verbs a signer may emit, without an intent; `intend` makes the same checks
before anything else.  So it refuses a verb as unknown, as the opener or for its role exactly if
the verb is not listed: none of its later steps rejects for one of these reasons.
-/

namespace CbclMaySend

open CbclMessage CbclProtocol CbclStore CbclAct CbclShape CbclStateShape CbclDialect CbclState
open CbclEscrow CbclExports CbclIntend
open CbclExcept
open CbclRole hiding Dialect PerformativeDef

-- ── The listing ────

/-- The verbs a signer may emit here, in order. -/
def maySend (inst : Instance) (signer : AgentKey) : List String :=
  match inst.dialect.causal_protocol with
  | none => []
  | some protocol =>
      ((inst.dialect.performatives.filter fun p =>
        !(CbclR7.openerVerb protocol = some p.name && !isRepeated protocol p.name)
          && (roleGate inst signer p.name).isOk).map (·.name)).insertionSort (· ≤ ·)

/-- A verb that only opens. -/
def OnlyOpens (protocol : CausalProtocol) (verb : String) : Prop :=
  CbclR7.openerVerb protocol = some verb ∧ isRepeated protocol verb = false

theorem mem_maySend {inst : Instance} {signer : AgentKey} {verb : String}
    {protocol : CausalProtocol} (hprotocol : inst.dialect.causal_protocol = some protocol) :
    verb ∈ maySend inst signer ↔ inst.dialect.roleLayer.findPerformative verb ≠ none ∧
      ¬ OnlyOpens protocol verb ∧ roleGate inst signer verb = .ok () := by
  have hdefined : inst.dialect.roleLayer.findPerformative verb ≠ none ↔
      ∃ p ∈ inst.dialect.performatives, p.name = verb := by
    unfold CbclRole.Dialect.findPerformative Dialect.roleLayer
    rw [ne_eq, List.find?_eq_none]
    simp
  have hgate : (roleGate inst signer verb).isOk = true ↔ roleGate inst signer verb = .ok () := by
    cases roleGate inst signer verb with
    | error e => exact iff_of_false Bool.false_ne_true fun h => by cases h
    | ok u => exact iff_of_true rfl rfl
  unfold maySend
  rw [hprotocol]
  dsimp only
  rw [List.mem_insertionSort, List.mem_map, hdefined, ← hgate]
  unfold OnlyOpens
  constructor
  · rintro ⟨p, hp, rfl⟩
    obtain ⟨hmem, hchecks⟩ := List.mem_filter.mp hp
    obtain ⟨hopens, hrole⟩ := Bool.and_eq_true_iff.mp hchecks
    refine ⟨⟨p, hmem, rfl⟩, fun hopener => ?_, hrole⟩
    rw [hopener.1, hopener.2] at hopens
    simp at hopens
  · rintro ⟨⟨p, hmem, rfl⟩, hopens, hrole⟩
    refine ⟨p, List.mem_filter.mpr ⟨hmem, Bool.and_eq_true_iff.mpr ⟨?_, hrole⟩⟩, rfl⟩
    simpa [imp_iff_not_or] using hopens

-- ── The later steps of the binder ────

/-- The reasons of the first step. -/
def Early : Reject → Prop
  | .unknownVerb => True
  | .role _ => True
  | _ => False

/-- A computation that rejects for other reasons only. -/
def Late {α : Type} (x : Except Reject α) : Prop := ∀ reject, x = .error reject → ¬ Early reject

theorem late_ok {α : Type} (a : α) : Late (.ok a : Except Reject α) := fun _ h => by cases h

theorem late_error {α : Type} {reject : Reject} (h : ¬ Early reject) :
    Late (.error reject : Except Reject α) := fun _ heq => Except.error.inj heq ▸ h

theorem late_bind {α β : Type} {x : Except Reject α} {f : α → Except Reject β} (hx : Late x)
    (hf : ∀ a, Late (f a)) : Late (x >>= f) := by
  intro reject h
  rcases bind_error_iff.mp h with hfirst | ⟨a, -, hsecond⟩
  · exact hx reject hfirst
  · exact hf a reject hsecond

theorem late_forM {α : Type} {f : α → Except Reject Unit} (hf : ∀ a, Late (f a)) :
    ∀ xs : List α, Late (xs.forM f) := by
  intro xs
  induction xs with
  | nil => exact late_ok ()
  | cons x xs ih =>
      show Late (f x >>= fun _ => xs.forM f)
      exact late_bind (hf x) fun _ => ih

theorem late_foldlM {α β : Type} {f : β → α → Except Reject β} (hf : ∀ b a, Late (f b a)) :
    ∀ (xs : List α) (b : β), Late (xs.foldlM f b) := by
  intro xs
  induction xs with
  | nil => exact fun b => late_ok b
  | cons x xs ih =>
      intro b
      rw [List.foldlM_cons]
      exact late_bind (hf b x) ih

theorem late_rejectIf {c : Prop} [Decidable c] {reject : Reject} (h : ¬ Early reject) :
    Late (rejectIf c reject) := by
  unfold rejectIf
  split
  · exact late_error h
  · exact late_ok ()

theorem late_orReject {ε α : Type} {reject : ε → Reject} (h : ∀ e, ¬ Early (reject e))
    (x : Except ε α) : Late (orReject reject x) := by
  cases x with
  | error e => exact late_error (h e)
  | ok a => exact late_ok a

section Steps

variable {contentHash : Message → String} {inst : Instance} {signer verb : String}
  {fields : BTreeMap String SExpr}

theorem late_domainGate (clause : StateClause) (state : State) :
    Late (domainGate clause state verb fields) := by
  refine late_forM (fun entry => ?_) _
  dsimp only
  split
  · exact late_ok ()
  · exact late_error id

theorem late_recipientsOf : Late (recipientsOf inst verb) := by
  unfold recipientsOf
  split
  · exact late_ok _
  · split
    · exact late_ok _
    · exact late_error id

theorem late_replacedBy (clause : StateClause) (acts : List Act) (bound : UInt32) :
    Late (replacedBy contentHash clause acts bound signer verb fields) := by
  refine late_foldlM (fun replaces rule => ?_) _ _
  unfold replacedUnder
  split
  · split
    · exact late_ok _
    · exact late_ok _
  · split
    · exact late_ok _
    · dsimp only
      split
      · exact late_error id
      · split
        · exact late_ok _
        · exact late_ok _

theorem late_chooseNodes : ∀ (nodes : List NodeRef) (fan_in : Bool),
    Late (chooseNodes inst signer fan_in nodes) := by
  intro nodes
  induction nodes with
  | nil => exact fun fan_in => late_ok _
  | cons node nodes ih =>
      intro fan_in
      cases node with
      | single s =>
          rw [chooseNodes]
          split
          · exact late_ok _
          · split
            · exact late_error id
            · exact ih _
      | any set =>
          rw [chooseNodes]
          split
          · exact late_ok _
          · exact ih _
      | all set =>
          rw [chooseNodes]
          split
          · exact late_ok _
          · exact ih _

theorem late_causeOf (protocol : CausalProtocol) : Late (causeOf inst protocol signer verb) := by
  unfold causeOf
  split
  · unfold repeatCause
    split
    · exact late_error id
    · dsimp only
      split
      · exact late_ok _
      · exact late_error id
  · split
    · exact late_error id
    · exact late_error id
    · next steps _ _ =>
        have hnodes : Late (chooseNodes inst signer false steps) := late_chooseNodes steps false
        split
        · next e herror => exact late_error (hnodes e herror)
        · exact late_error id
        · split
          · exact late_ok _
          · exact late_ok _

theorem late_checkDeclared (d : Dialect) : Late (checkDeclared d verb fields) := by
  refine late_forM (fun k => ?_) _
  split
  · exact late_ok ()
  · exact late_error id

theorem late_checkShapes (d : Dialect) (simple : Message) : Late (checkShapes d verb simple) := by
  refine late_forM (fun shape => ?_) _
  split
  · exact late_ok ()
  · exact late_error id

theorem late_resourceGate (message : Message) :
    Late (resourceGate contentHash inst signer verb message) := by
  unfold resourceGate
  split
  · exact late_ok ()
  · split
    · exact late_error id
    · split
      · exact late_error id
      · split
        · split
          · exact late_ok ()
          · exact late_error id
        · exact late_error id

-- ── The first step ────

/-- An intent refused at its first step: the verb is unknown, not the signer's, or only opens. -/
def RefusedAtOnce (contentHash : Message → String) (inst : Instance) (signer : AgentKey)
    (verb : String) (fields : BTreeMap String SExpr) : Prop :=
  (∃ reject, intend contentHash inst signer verb fields = .error reject ∧ Early reject) ∨
    ∃ protocol, inst.dialect.causal_protocol = some protocol ∧ OnlyOpens protocol verb ∧
      intend contentHash inst signer verb fields = .error .openerVerb

/-- **A verb is listed exactly if no intent for it is refused at its first step**, whatever the
    data are and whatever was accepted before. -/
theorem mem_maySend_iff (contentHash : Message → String) (inst : Instance) (signer : AgentKey)
    (verb : String) (fields : BTreeMap String SExpr) (hstate : inst.dialect.state ≠ none)
    (hfields : ∀ k ∈ fields.keys, isForged k = false) :
    verb ∈ maySend inst signer ↔ ¬ RefusedAtOnce contentHash inst signer verb fields := by
  obtain ⟨clause, hclause⟩ := Option.ne_none_iff_exists'.mp hstate
  cases hprotocol : inst.dialect.causal_protocol with
  | none =>
      refine iff_of_false ?_ (not_not_intro (.inl ⟨.unknownVerb, ?_, trivial⟩))
      · unfold maySend
        rw [hprotocol]
        exact List.not_mem_nil
      · unfold intend
        simp only [hclause, hprotocol]
  | some protocol =>
      have hforged : (fields.keys.forM fun k => rejectIf (isForged k = true) (.forge k))
          = .ok () := forM_ok_iff.mpr fun k hk => rejectIf_ok_iff.mpr (by
        rw [hfields k hk]
        exact Bool.false_ne_true)
      rw [mem_maySend hprotocol]
      -- the three conditions of the listing are the first three guards of an intent
      by_cases hunknown : inst.dialect.roleLayer.findPerformative verb = none
      · have hfirst : rejectIf (inst.dialect.roleLayer.findPerformative verb = none) .unknownVerb
            = .error .unknownVerb := if_pos hunknown
        refine iff_of_false (fun h => h.1 hunknown)
          (not_not_intro (.inl ⟨.unknownVerb, ?_, trivial⟩))
        unfold intend
        simp only [hclause, hprotocol]
        rw [hfirst]
        rfl
      have hknown : rejectIf (inst.dialect.roleLayer.findPerformative verb = none) .unknownVerb
          = .ok () := if_neg hunknown
      by_cases hopens : OnlyOpens protocol verb
      · have hsecond : rejectIf (CbclR7.openerVerb protocol = some verb ∧
            isRepeated protocol verb = false) .openerVerb = .error .openerVerb := if_pos hopens
        refine iff_of_false (fun h => h.2.1 hopens)
          (not_not_intro (.inr ⟨protocol, hprotocol, hopens, ?_⟩))
        unfold intend
        simp only [hclause, hprotocol]
        rw [hknown, hsecond]
        rfl
      have hlater : rejectIf (CbclR7.openerVerb protocol = some verb ∧
          isRepeated protocol verb = false) .openerVerb = .ok () := if_neg hopens
      cases hgate : roleGate inst signer verb with
      | error reject =>
          refine iff_of_false (fun h => by cases h.2.2)
            (not_not_intro (.inl ⟨reject, ?_, ?_⟩))
          · unfold intend
            simp only [hclause, hprotocol]
            rw [hknown, hlater, hforged, hgate]
            rfl
          · unfold roleGate at hgate
            split at hgate
            · split at hgate
              · cases hgate
              · cases hgate
                trivial
            · cases hgate
      | ok u =>
          have hlate : Late (intend contentHash inst signer verb fields) := by
            unfold intend
            simp only [hclause, hprotocol]
            rw [hknown, hlater, hforged, hgate]
            refine late_bind (late_ok _) fun _ => late_bind (late_ok _) fun _ =>
              late_bind (late_ok _) fun _ => late_bind (late_ok _) fun _ =>
              late_bind (late_domainGate _ _) fun _ => late_bind late_recipientsOf fun _ =>
              late_bind (late_replacedBy _ _ _) fun _ => late_bind (late_causeOf _) fun _ =>
              late_bind (late_checkDeclared _) fun _ =>
              late_bind (late_orReject (fun _ => id) _) fun _ =>
              late_bind (late_orReject (fun _ => id) _) fun _ =>
              late_bind (late_checkShapes _ _) fun _ =>
              late_bind (late_rejectIf id) fun _ =>
              late_bind (late_resourceGate _) fun _ => late_ok _
          refine iff_of_true ⟨hunknown, hopens, rfl⟩ ?_
          rintro (⟨reject, hrun, hearly⟩ | ⟨protocol', hprotocol', hopens', -⟩)
          · exact hlate reject hrun hearly
          · cases hprotocol.symm.trans hprotocol'
            exact hopens hopens'

end Steps

-- ── An auction ────

/-- The acts of an auction that Alice has opened with an offer. -/
def offeredActs : List Act := [openMessage, offerMessage].filterMap fun message =>
  (Act.fromMessage auctionHash message "@alice").toOption

/-- The data of a bid. -/
def bidFields : BTreeMap String SExpr :=
  (∅ : BTreeMap String SExpr).insert "amount" (.atom (.num 5))

/-- What is computed of the auction: its cast is read, and only Bob may send. -/
theorem bid_runs :
    (Instance.new auction "t" offeredActs).toOption.any (fun inst =>
      inst.acts.length = 2 ∧ inst.cast.isSome ∧ inst.dialect.state.isSome ∧
        maySend inst "@bob" = ["bid"] ∧ maySend inst "@alice" = []) ∧
    ∀ k ∈ bidFields.keys, isForged k = false := by
  decide

/-- Bob, who is cast as the buyer, may answer the offer of Alice with a bid. -/
theorem mem_maySend_iff_bid :
    ∃ inst, Instance.new auction "t" offeredActs = .ok inst ∧ inst.cast.isSome ∧
      inst.acts.length = 2 ∧ maySend inst "@alice" = [] ∧
      ¬ RefusedAtOnce auctionHash inst "@bob" "bid" bidFields := by
  obtain ⟨hruns, hfields⟩ := bid_runs
  obtain ⟨inst, hinst, hall⟩ := (Option.any_eq_true _ _).mp hruns
  obtain ⟨hacts, hcast, hstate, hbob, halice⟩ := of_decide_eq_true hall
  refine ⟨inst, toOption_eq_some_iff.mp hinst, hcast, hacts, halice, ?_⟩
  refine (mem_maySend_iff auctionHash inst "@bob" "bid" bidFields
    (Option.isSome_iff_ne_none.mp hstate) hfields).mp ?_
  rw [hbob]
  exact List.mem_singleton_self _

end CbclMaySend
