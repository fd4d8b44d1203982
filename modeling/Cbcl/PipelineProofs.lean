import Cbcl.PipelineModel

/-!
# What the pipelines let through

Two promises of `pipeline.rs` are compared with what it does.  A taught dialect definition should
have passed its checks, whatever it is wrapped in; validation looks at the outermost message only,
and at one definition of it.  A verb should be verified against every installed protocol it takes
part in; the filter asks for a step of the verb's own name, where `repeat` has left only copies.
-/

namespace CbclPipeline

open CbclMessage CbclProtocol CbclStore CbclThreadedStore CbclVerifier CbclShape
open CbclDialect CbclDialectParser CbclEvaluator CbclText

-- ── The checks of a definition ────

/-- A form that reads as a dialect with no R1, R2-bound, R3 or R5 violation. -/
def SoundDefinition (registry : Option DialectRegistry) (form : SExpr) : Prop :=
  ∃ d, parseDialect form = .ok d ∧ r1Violations d = [] ∧ invalidResourceBound d = none ∧
    r3Violations d = [] ∧ r5ViolationsWithAncestors d (definitionAncestors d registry) = []

/-- `validateDefineDialect` accepts exactly the sound definitions. -/
theorem validateDefineDialect_ok_iff (form : SExpr) (registry : Option DialectRegistry) :
    validateDefineDialect form registry = .ok () ↔ SoundDefinition registry form := by
  unfold validateDefineDialect SoundDefinition
  cases hd : parseDialect form with
  | error reason =>
      constructor
      · intro h
        exact nomatch h
      · rintro ⟨d, hd', -⟩
        exact nomatch hd'
  | ok d =>
      simp only [Except.ok.injEq, exists_eq_left']
      by_cases h1 : r1Violations d = []
      · rw [if_neg (not_not_intro h1)]
        cases h2 : invalidResourceBound d with
        | some bound => simp
        | none =>
            by_cases h3 : r3Violations d = []
            · rw [if_neg (not_not_intro h3)]
              by_cases h5 : r5ViolationsWithAncestors d (definitionAncestors d registry) = []
              · simp [h1, h3, h5]
              · simp [h5]
            · simp [h3]
      · simp [h1]

-- ── The definitions a message carries ────

/-- The operation of the innermost meta message, through wrappers and scopes. -/
def innermostMeta : Message → Option SExpr
  | .metaDef operation => some operation
  | .wrapped _ _ content => innermostMeta content
  | .dialect _ inner => innermostMeta inner
  | .simple .. => none

/-- The definitions of an operation: a define form is its own, a teach form carries every define
    form among its items. -/
def carriedDefinitions : SExpr → List SExpr
  | .list (head :: items) =>
      if isSymbol "define" head then [.list (head :: items)]
      else if isSymbol "teach" head then items.filter isDefineForm
      else []
  | _ => []

/-- The definitions of a message. -/
def taughtDefinitions (message : Message) : List SExpr :=
  (innermostMeta message).elim [] carriedDefinitions

/-- The definition validation looks at: the first one of a bare meta message. -/
def lookedAt : Message → Option SExpr
  | .metaDef operation => (carriedDefinitions operation).head?
  | _ => none

/-- The definitions validation does not look at: all of them under a wrapper or a scope, all but the
    first of a bare meta message. -/
def overlooked : Message → List SExpr
  | .metaDef operation => (carriedDefinitions operation).tail
  | message => taughtDefinitions message

/-- Every definition is looked at or overlooked. -/
theorem mem_taughtDefinitions {message : Message} {form : SExpr} :
    form ∈ taughtDefinitions message ↔ lookedAt message = some form ∨ form ∈ overlooked message := by
  cases message with
  | metaDef operation =>
      show form ∈ carriedDefinitions operation ↔
        (carriedDefinitions operation).head? = some form ∨ form ∈ (carriedDefinitions operation).tail
      cases carriedDefinitions operation with
      | nil => simp
      | cons first rest => simp [eq_comm]
  | simple => simp [lookedAt, overlooked]
  | dialect name inner => simp [lookedAt, overlooked]
  | wrapped wrapper params content => simp [lookedAt, overlooked]

/-- Validation is the check of the one definition looked at. -/
theorem validateMetaDialect_ok_iff (message : Message) (registry : Option DialectRegistry) :
    validateMetaDialect message registry = .ok () ↔
      ∀ form, lookedAt message = some form → SoundDefinition registry form := by
  cases message with
  | metaDef operation =>
      show validateMetaDialect (.metaDef operation) registry = .ok () ↔
        ∀ form, (carriedDefinitions operation).head? = some form → SoundDefinition registry form
      cases operation with
      | atom a => simp [validateMetaDialect, carriedDefinitions]
      | list items =>
          cases items with
          | nil => simp [validateMetaDialect, carriedDefinitions]
          | cons head rest =>
              simp only [validateMetaDialect, carriedDefinitions]
              by_cases hdef : isSymbol "define" head
              · simp only [hdef, if_true, List.head?_cons, Option.some.injEq, forall_eq']
                exact validateDefineDialect_ok_iff _ registry
              · by_cases hteach : isSymbol "teach" head
                · simp only [hdef, hteach, if_true, Bool.false_eq_true, if_false,
                    List.head?_filter]
                  cases rest.find? isDefineForm with
                  | none => simp
                  | some form => simp [validateDefineDialect_ok_iff]
                · simp [hdef, hteach]
  | simple => simp [validateMetaDialect, lookedAt]
  | dialect name inner => simp [validateMetaDialect, lookedAt]
  | wrapped wrapper params content => simp [validateMetaDialect, lookedAt]

-- ── Reading ────

/-- The message a text is recognised as. -/
def recognise (input : String) : Option Message :=
  match parse input with
  | .error _ => none
  | .ok sexpr =>
      match CbclRecogniser.tryFrom sexpr with
      | .error _ => none
      | .ok message => some message

/-- The light pipeline succeeds on the recognised message whose definition, if it looks at one, is
    sound. -/
theorem runPipeline_success_iff {input : String} {m : Message} :
    runPipeline input = .success m ↔
      recognise input = some m ∧ ∀ form, lookedAt m = some form → SoundDefinition none form := by
  rw [← validateMetaDialect_ok_iff]
  unfold runPipeline recognise
  cases parse input with
  | error e => simp
  | ok sexpr =>
      dsimp only
      cases CbclRecogniser.tryFrom sexpr with
      | error reason => simp
      | ok message =>
          dsimp only
          cases hv : validateMetaDialect message none with
          | error e =>
              constructor
              · intro h
                exact nomatch h
              · rintro ⟨hm, hok⟩
                rw [Option.some.inj hm] at hv
                exact nomatch hv.symm.trans hok
          | ok u =>
              constructor
              · intro h
                injection h with h
                subst h
                exact ⟨rfl, hv⟩
              · rintro ⟨hm, -⟩
                exact congrArg PipelineResult.success (Option.some.inj hm)

/-- The full pipeline goes on to its other checks under the same condition. -/
theorem runPipelineFull_success_iff {input : String} {ctx : PipelineContext} {m : Message} :
    runPipelineFull input ctx = .success m ↔
      ∃ message, recognise input = some message ∧
        (∀ form, lookedAt message = some form → SoundDefinition (some ctx.registry) form) ∧
        runChecks ctx message = .success m := by
  simp only [← validateMetaDialect_ok_iff]
  unfold runPipelineFull recognise
  cases parse input with
  | error e => simp
  | ok sexpr =>
      dsimp only
      cases CbclRecogniser.tryFrom sexpr with
      | error reason => simp
      | ok message =>
          simp only [Option.some.injEq, exists_eq_left']
          cases hv : validateMetaDialect message (some ctx.registry) with
          | error e => simp
          | ok u => simp

/-- A meta message, however wrapped, has no innermost simple message. -/
theorem innermostSimple_of_innermostMeta {m : Message} {operation : SExpr}
    (h : innermostMeta m = some operation) : m.innermostSimple = none := by
  induction m with
  | simple => exact nomatch h
  | metaDef => rfl
  | dialect name inner ih => exact ih h
  | wrapped wrapper params content ih => exact ih h

/-- The other checks pass a message without an innermost simple message. -/
theorem runChecks_of_no_simple {ctx : PipelineContext} {m : Message}
    (h : m.innermostSimple = none) : runChecks ctx m = .success m := by
  unfold runChecks
  rw [h]

-- ── Causal verification over the dialects ────

/-- A policy accepts the valid verdicts only. -/
theorem applyPolicy_accept_iff {result : VerificationResult} {policy : UnknownPredecessorPolicy} :
    applyPolicy result policy = .accept ↔ result = .valid := by
  cases result with
  | valid => simp [applyPolicy]
  | violation v => simp [applyPolicy]
  | unknown => cases policy <;> simp [applyPolicy]

/-- The verdicts a selection of the installed protocols gives the innermost simple message are all
    valid. -/
def Verified (select : String → Dialect → Option CausalProtocol) (store : MessageStore)
    (dialects : List Dialect) (m : Message) : Prop :=
  ∀ performative recipient content params thread sender caused_by,
    m.innermostSimple =
        some (.simple performative recipient content params thread sender caused_by) →
    ∀ d ∈ dialects, ∀ proto, select performative.name d = some proto →
      verifyCausal performative.name caused_by store proto (threadOrDefault thread) = .valid

/-- The protocol of a dialect, if one of its steps is the verb or a copy of it. -/
def constraining (perf : String) (d : Dialect) : Option CausalProtocol :=
  d.causal_protocol.filter fun proto => proto.steps.keys.any fun name => repeatBaseName name = perf

/-- The protocol of a dialect, if it holds the verb under the names of copies only. -/
def copiesOnly (perf : String) (d : Dialect) : Option CausalProtocol :=
  (constraining perf d).filter fun proto => !proto.steps.contains perf

/-- A protocol that constrains a verb takes part in its verification, or holds copies only. -/
theorem participates_or_copiesOnly {perf : String} {d : Dialect} {proto : CausalProtocol}
    (h : constraining perf d = some proto) :
    participates perf d = some proto ∨ copiesOnly perf d = some proto := by
  by_cases hstep : proto.steps.contains perf
  · left
    have hd : d.causal_protocol = some proto := (Option.filter_eq_some_iff.mp h).1
    exact Option.filter_eq_some_iff.mpr ⟨hd, hstep⟩
  · right
    exact Option.filter_eq_some_iff.mpr ⟨h, by rw [Bool.not_eq_true] at hstep; rw [hstep]; rfl⟩

/-- Where the protocols with a step of the verb's name have passed, all constraining protocols pass
    exactly when those with copies only do. -/
theorem verified_constraining_iff {store : MessageStore} {dialects : List Dialect} {m : Message}
    (hnamed : Verified participates store dialects m) :
    Verified constraining store dialects m ↔ Verified copiesOnly store dialects m := by
  constructor
  · intro h performative recipient content params thread sender caused_by hm d hd proto hproto
    exact h performative recipient content params thread sender caused_by hm d hd proto
      (Option.filter_eq_some_iff.mp hproto).1
  · intro h performative recipient content params thread sender caused_by hm d hd proto hproto
    rcases participates_or_copiesOnly hproto with hpart | hcopies
    · exact hnamed performative recipient content params thread sender caused_by hm d hd proto hpart
    · exact h performative recipient content params thread sender caused_by hm d hd proto hcopies

section Pipeline

variable {ctx : PipelineContext} {message : Message} {perf : String}
  {caused_by : Option CausedBy} {thread : Option String}

/-- The walk over the dialects ends without an outcome exactly when every protocol that takes part
    gives a valid verdict. -/
theorem verifyDialects_eq_none_iff (ds : List Dialect) :
    verifyDialects ctx message perf caused_by thread ds = none ↔
      ∀ d ∈ ds, ∀ proto, participates perf d = some proto →
        verifyCausal perf caused_by ctx.store proto (threadOrDefault thread) = .valid := by
  induction ds with
  | nil => simp [verifyDialects]
  | cons d rest ih =>
      rw [verifyDialects, List.forall_mem_cons]
      cases hpart : participates perf d with
      | none => simp only [reduceCtorEq, false_implies, implies_true, true_and, ih]
      | some proto =>
          simp only [Option.some.injEq, forall_eq']
          rw [← @applyPolicy_accept_iff _ ctx.policy]
          cases applyPolicy (verifyCausal perf caused_by ctx.store proto (threadOrDefault thread))
              ctx.policy with
          | accept => simp only [true_and, ih]
          | reject v => simp
          | pending reason => simp
          | buffered => simp

/-- The walk never ends in success. -/
theorem verifyDialects_ne_success (ds : List Dialect) (m : Message) :
    verifyDialects ctx message perf caused_by thread ds ≠ some (.success m) := by
  induction ds with
  | nil => simp [verifyDialects]
  | cons d rest ih =>
      rw [verifyDialects]
      cases participates perf d with
      | none => exact ih
      | some proto =>
          dsimp only
          cases applyPolicy (verifyCausal perf caused_by ctx.store proto (threadOrDefault thread))
              ctx.policy with
          | accept => exact ih
          | reject v => simp
          | pending reason => simp
          | buffered => simp

/-- What the checks of the full pipeline pass: the message is verified by every protocol with a step
    of its verb's name, and it evaluates to a form of the right shape. -/
theorem runChecks_success {m : Message} (h : runChecks ctx message = .success m) :
    message = m ∧ Verified participates ctx.store ctx.registry.dialects message := by
  unfold runChecks at h
  split at h
  · rename_i performative recipient content params thread sender caused_by hsimple
    split at h
    · rename_i result hwalk
      rw [h] at hwalk
      exact absurd hwalk (verifyDialects_ne_success _ m)
    · rename_i hwalk
      have hverified := (verifyDialects_eq_none_iff _).mp hwalk
      refine ⟨?_, ?_⟩
      · split at h
        · exact nomatch h
        · split at h
          · exact nomatch h
          · injection h
      · intro performative' recipient' content' params' thread' sender' caused_by' hm
        rw [hsimple] at hm
        injection hm with hm
        injection hm with hp _ _ _ ht _ hc
        subst hp ht hc
        exact hverified
  · rename_i hsimple
    refine ⟨by injection h, ?_⟩
    intro performative recipient content params thread sender caused_by hm
    exact absurd hm (hsimple performative recipient content params thread sender caused_by)

end Pipeline

-- ── Causal verification at an agent ────

/-- The gate on unresolved violations keeps the valid verdicts. -/
theorem gateUnresolvedViolation_valid_iff {result : VerificationResult} {resolved : Bool} :
    gateUnresolvedViolation result resolved = .valid ↔ result = .valid := by
  cases result with
  | valid => simp [gateUnresolvedViolation]
  | unknown => simp [gateUnresolvedViolation]
  | violation v => cases resolved <;> simp [gateUnresolvedViolation]

/-- The strictest of two outcomes is acceptance only if both are. -/
theorem mergePolicyOutcomes_accept_iff {left right : PolicyOutcome} :
    mergePolicyOutcomes left right = .accept ↔ left = .accept ∧ right = .accept := by
  cases left <;> cases right <;> simp [mergePolicyOutcomes]

/-- No protocol constrains the message, or all that do accept it. -/
def Passed (decision : Option PolicyOutcome) : Prop :=
  decision = none ∨ decision = some .accept

namespace Agent

variable {a : Agent} {perf : String} {caused_by : Option CausedBy} {thread : ThreadId}

/-- The outcome of a protocol is acceptance exactly when its verdict is valid. -/
theorem protocolOutcome_accept_iff {proto : CausalProtocol} :
    a.protocolOutcome perf caused_by thread proto = .accept ↔
      verifyCausal perf caused_by a.message_store.toStore proto thread = .valid := by
  unfold protocolOutcome
  rw [applyPolicy_accept_iff, gateUnresolvedViolation_valid_iff]

/-- Under conjunction a decided outcome is a rejection, so a walk that passes goes on. -/
theorem passed_of_undecided (hmerge : a.merge_policy = .conjunction) {next : PolicyOutcome}
    {decision : Option PolicyOutcome}
    (h : Passed (if a.decided next then some next else decision)) : Passed decision := by
  split at h
  · rename_i hdecided
    have hnext : next = .accept := Option.some.inj (h.resolve_left (Option.some_ne_none next))
    rw [hnext] at hdecided
    simp [decided, hmerge] at hdecided
  · exact h

/-- Under conjunction a walk that passes started from a passing decision, and every protocol that
    took part gave a valid verdict. -/
theorem passed_of_verdictOver (hmerge : a.merge_policy = .conjunction) (ds : List Dialect)
    (decision : Option PolicyOutcome)
    (h : Passed (a.verdictOver perf caused_by thread decision ds)) :
    Passed decision ∧ ∀ d ∈ ds, ∀ proto, participates perf d = some proto →
      verifyCausal perf caused_by a.message_store.toStore proto thread = .valid := by
  induction ds generalizing decision with
  | nil => exact ⟨h, by simp⟩
  | cons d rest ih =>
      rw [verdictOver] at h
      rw [List.forall_mem_cons]
      cases hpart : participates perf d with
      | none =>
          rw [hpart] at h
          obtain ⟨hdecision, hrest⟩ := ih decision h
          exact ⟨hdecision, by simp, hrest⟩
      | some proto =>
          rw [hpart] at h
          simp only [Option.some.injEq, forall_eq']
          rw [← protocolOutcome_accept_iff]
          cases decision with
          | none =>
              obtain ⟨hnext, hrest⟩ := ih _ (passed_of_undecided hmerge h)
              have hnext := hnext.resolve_left (Option.some_ne_none _)
              exact ⟨.inl rfl, Option.some.inj hnext, hrest⟩
          | some prev =>
              simp only [hmerge] at h
              obtain ⟨hnext, hrest⟩ := ih _ (passed_of_undecided hmerge h)
              have hnext := hnext.resolve_left (Option.some_ne_none _)
              obtain ⟨hprev, houtcome⟩ := mergePolicyOutcomes_accept_iff.mp (Option.some.inj hnext)
              exact ⟨.inr (congrArg some hprev), houtcome, hrest⟩

/-- An applied message has passed. -/
theorem passed_of_applied {msg : Message} {now : Nat} {result : EvalResult}
    (h : (a.evaluateAndApplyAt msg now).1 = .applied result) : Passed (a.causalVerdict msg) := by
  unfold evaluateAndApplyAt at h
  cases hv : a.causalVerdict msg with
  | none => exact .inl rfl
  | some outcome =>
      rw [hv] at h
      cases outcome with
      | accept => exact .inr rfl
      | reject v => exact nomatch h
      | pending reason => exact nomatch h
      | buffered => exact nomatch h

/-- An applied message is verified by every protocol with a step of its verb's name. -/
theorem verified_of_applied (hmerge : a.merge_policy = .conjunction) {msg : Message} {now : Nat}
    {result : EvalResult} (h : (a.evaluateAndApplyAt msg now).1 = .applied result) :
    Verified participates a.message_store.toStore a.dialect_registry.dialects msg := by
  intro performative recipient content params thread sender caused_by hm
  have hpassed := passed_of_applied h
  unfold causalVerdict at hpassed
  rw [hm] at hpassed
  exact (passed_of_verdictOver hmerge _ none hpassed).2

end Agent

-- ── Taught definitions ────

/-- A pipeline that succeeds on the recognised message whenever the definition it looks at is sound
    keeps to the sound definitions exactly where soundness of that one extends to the others. -/
theorem taught_sound_iff {registry : Option DialectRegistry} {read : Option Message}
    {succeeds : Message → Prop}
    (hsound : ∀ m, succeeds m →
      read = some m ∧ ∀ form, lookedAt m = some form → SoundDefinition registry form)
    (htaught : ∀ m, taughtDefinitions m ≠ [] → read = some m →
      (∀ form, lookedAt m = some form → SoundDefinition registry form) → succeeds m) :
    (∀ m, succeeds m → ∀ form ∈ taughtDefinitions m, SoundDefinition registry form) ↔
      ∀ m, read = some m → (∀ form, lookedAt m = some form → SoundDefinition registry form) →
        ∀ form ∈ overlooked m, SoundDefinition registry form := by
  constructor
  · intro h m hm hlooked form hform
    have hmem : form ∈ taughtDefinitions m := mem_taughtDefinitions.mpr (.inr hform)
    exact h m (htaught m (List.ne_nil_of_mem hmem) hm hlooked) form hmem
  · intro h m hm form hform
    obtain ⟨hread, hlooked⟩ := hsound m hm
    rcases mem_taughtDefinitions.mp hform with hfirst | hother
    · exact hlooked form hfirst
    · exact h m hread hlooked form hother

/-- A message that teaches a definition is a meta message within. -/
theorem innermostSimple_of_taught {m : Message} (h : taughtDefinitions m ≠ []) :
    m.innermostSimple = none := by
  unfold taughtDefinitions at h
  cases hmeta : innermostMeta m with
  | none =>
      rw [hmeta] at h
      exact absurd rfl h
  | some operation => exact innermostSimple_of_innermostMeta hmeta

/-- The definitions of a message that either pipeline lets through are all sound exactly when, given
    that the one validation looks at is sound, the overlooked ones are. -/
theorem taught_definitions_sound_iff (input : String) (ctx : PipelineContext) :
    ((∀ m, runPipeline input = .success m →
        ∀ form ∈ taughtDefinitions m, SoundDefinition none form) ↔
      ∀ m, recognise input = some m →
        (∀ form, lookedAt m = some form → SoundDefinition none form) →
        ∀ form ∈ overlooked m, SoundDefinition none form) ∧
    ((∀ m, runPipelineFull input ctx = .success m →
        ∀ form ∈ taughtDefinitions m, SoundDefinition (some ctx.registry) form) ↔
      ∀ m, recognise input = some m →
        (∀ form, lookedAt m = some form → SoundDefinition (some ctx.registry) form) →
        ∀ form ∈ overlooked m, SoundDefinition (some ctx.registry) form) := by
  constructor
  · apply taught_sound_iff
    · intro m hm
      exact runPipeline_success_iff.mp hm
    · intro m _ hread hlooked
      exact runPipeline_success_iff.mpr ⟨hread, hlooked⟩
  · apply taught_sound_iff
    · intro m hm
      obtain ⟨message, hread, hlooked, hchecks⟩ := runPipelineFull_success_iff.mp hm
      obtain ⟨rfl, -⟩ := runChecks_success hchecks
      exact ⟨hread, hlooked⟩
    · intro m htaught hread hlooked
      have hsimple := innermostSimple_of_taught htaught
      exact runPipelineFull_success_iff.mpr ⟨m, hread, hlooked, runChecks_of_no_simple hsimple⟩

/-- A check that ends in no error. -/
theorem eq_ok_of_isOk {x : Except ValidationError Unit} (h : x.isOk = true) : x = .ok () := by
  cases x with
  | error e => exact nomatch h
  | ok u => rfl

/-- The form `(define d)`. -/
def partlessForm : SExpr := .list [.atom (.symbol "define"), .atom (.symbol "d")]

/-- The form `(define d)` is no definition. -/
theorem not_sound_partlessForm (registry : Option DialectRegistry) :
    ¬ SoundDefinition registry partlessForm := by
  rintro ⟨d, hd, -⟩
  have hparse : parseDialect partlessForm =
      .error "dialect definition requires at least: define, name, extends, author" := rfl
  exact nomatch hparse.symm.trans hd

/-- The form `(teach @b (define e (cbcl) @a) (define d))`. -/
def teachForm : SExpr :=
  .list [.atom (.symbol "teach"), .atom (.symbol "@b"),
    .list [.atom (.symbol "define"), .atom (.symbol "e"), .list [.atom (.symbol "cbcl")],
      .atom (.symbol "@a")],
    partlessForm]

/-- A definition without its parts is refused bare, and let through in an envelope or behind another
    definition. -/
theorem overlooked_definition_succeeds :
    (∀ m, runPipeline "(meta (define d))" ≠ .success m) ∧
    (∃ m, runPipeline "(envelope (meta (define d)))" = .success m ∧
      ¬ ∀ form ∈ taughtDefinitions m, SoundDefinition none form) ∧
    (∃ m, runPipeline "(meta (teach @b (define e (cbcl) @a) (define d)))" = .success m ∧
      ¬ ∀ form ∈ taughtDefinitions m, SoundDefinition none form) := by
  refine ⟨?_, ⟨.wrapped .envelope [] (.metaDef partlessForm), ?_, ?_⟩,
    ⟨.metaDef teachForm, ?_, ?_⟩⟩
  · intro m h
    obtain ⟨hread, hlooked⟩ := runPipeline_success_iff.mp h
    have hbare : recognise "(meta (define d))" = some (.metaDef partlessForm) := rfl
    rw [← Option.some.inj (hbare.symm.trans hread)] at hlooked
    exact not_sound_partlessForm none (hlooked partlessForm rfl)
  · exact runPipeline_success_iff.mpr ⟨rfl, fun form hform => nomatch hform⟩
  · intro h
    exact not_sound_partlessForm none (h partlessForm (by decide))
  · refine runPipeline_success_iff.mpr ⟨by decide +kernel, fun form hform => ?_⟩
    rw [← Option.some.inj hform, ← validateDefineDialect_ok_iff]
    exact eq_ok_of_isOk (by decide +kernel)
  · intro h
    exact not_sound_partlessForm none (h partlessForm (by decide))

-- ── Verbs held under copies ────

/-- A message the full pipeline or an agent accepts is verified by every protocol that constrains
    its verb exactly when it is by those that hold the verb under the names of copies only. -/
theorem accepted_verified_iff (input : String) (ctx : PipelineContext) (a : Agent) (msg : Message)
    (now : Nat) :
    (∀ m, runPipelineFull input ctx = .success m →
      (Verified constraining ctx.store ctx.registry.dialects m ↔
        Verified copiesOnly ctx.store ctx.registry.dialects m)) ∧
    (∀ result, a.merge_policy = .conjunction → (a.evaluateAndApplyAt msg now).1 = .applied result →
      (Verified constraining a.message_store.toStore a.dialect_registry.dialects msg ↔
        Verified copiesOnly a.message_store.toStore a.dialect_registry.dialects msg)) := by
  constructor
  · intro m hm
    obtain ⟨message, -, -, hchecks⟩ := runPipelineFull_success_iff.mp hm
    obtain ⟨rfl, hnamed⟩ := runChecks_success hchecks
    exact verified_constraining_iff hnamed
  · intro result hmerge happlied
    exact verified_constraining_iff (Agent.verified_of_applied hmerge happlied)

/-- Whether a pipeline succeeds. -/
def PipelineResult.isSuccess : PipelineResult → Bool
  | .success _ => true
  | _ => false

/-- The message of a success. -/
theorem PipelineResult.exists_success {r : PipelineResult} (h : r.isSuccess = true) :
    ∃ m, r = .success m := by
  cases r with
  | success m => exact ⟨m, rfl⟩
  | parseError e => exact nomatch h
  | validationError e => exact nomatch h
  | pending m reason => exact nomatch h
  | buffered m => exact nomatch h

/-- Whether an agent has applied a message. -/
def AgentOutcome.isApplied : AgentOutcome → Bool
  | .applied _ => true
  | _ => false

/-- The result of an application. -/
theorem AgentOutcome.exists_applied {r : AgentOutcome} (h : r.isApplied = true) :
    ∃ result, r = .applied result := by
  cases r with
  | applied result => exact ⟨result, rfl⟩
  | causalReject v => exact nomatch h
  | pending reason => exact nomatch h
  | buffered => exact nomatch h
  | evalError e => exact nomatch h

/-- A dialect with the verbs `x`, sent twice in turn, and `y`. -/
def repeatText : String :=
  "(define d (cbcl) @a (extend x (m) (effect acknowledge)) (extend y (m) (effect acknowledge)) "
    ++ "(protocol (then begin (repeat 2 x)) (then begin y)))"

/-- The dialect of `repeatText`, as read. -/
def repeatDialect : Dialect :=
  match parse repeatText with
  | .error _ => baseDialect
  | .ok form => (parseDialect form).toOption.getD baseDialect

/-- An empty store and the base dialect with `repeatDialect`. -/
def repeatContext : PipelineContext where
  registry := DialectRegistry.new.push repeatDialect
  store := ThreadedMessageStore.new.toStore
  policy := .reject

/-- An agent of the same store and dialects. -/
def repeatAgent : Agent where
  id := "@b"
  beliefs := ∅
  dialect_registry := repeatContext.registry
  message_queue := []
  conversation_threads := ∅
  message_store := ThreadedMessageStore.new
  policy := .reject
  pending_queue := ⟨0, 0, ∅⟩
  merge_policy := .conjunction

/-- The message `(lang d (y "hi" :caused-by begin))`. -/
def yMessage : Message :=
  .dialect "d" (.simple (.custom "y") none (.atom (.str "hi")) [] none none (some .begin))

/-- The message `(lang d (x "hi"))`. -/
def xMessage : Message :=
  .dialect "d" (.simple (.custom "x") none (.atom (.str "hi")) [] none none none)

/-- The message `(lang d (x "hi" :caused-by begin))`. -/
def xRootMessage : Message :=
  .dialect "d" (.simple (.custom "x") none (.atom (.str "hi")) [] none none (some .begin))

/-- What is computed of the messages: `y` and `x` are accepted, `x` against its protocol; and so is
    `x` at the root, to which the protocol that holds it under the names of its copies alone gives a
    valid verdict. -/
theorem repeat_runs :
    ((runPipelineFull "(lang d (y \"hi\" :caused-by begin))" repeatContext).isSuccess = true ∧
      (repeatAgent.evaluateAndApplyAt yMessage 0).1.isApplied = true ∧
      (runPipelineFull "(lang d (x \"hi\"))" repeatContext).isSuccess = true ∧
      (repeatAgent.evaluateAndApplyAt xMessage 0).1.isApplied = true ∧
      recognise "(lang d (x \"hi\"))" = some xMessage ∧
      (constraining "x" repeatDialect).any (fun proto =>
        verifyCausal "x" none repeatContext.store proto "default" ≠ .valid) = true) ∧
    (runPipelineFull "(lang d (x \"hi\" :caused-by begin))" repeatContext).isSuccess = true ∧
      (repeatAgent.evaluateAndApplyAt xRootMessage 0).1.isApplied = true ∧
      recognise "(lang d (x \"hi\" :caused-by begin))" = some xRootMessage ∧
      (copiesOnly "x" baseDialect).isNone = true ∧
      (copiesOnly "x" repeatDialect).any (fun proto =>
        verifyCausal "x" (some .begin) repeatContext.store proto "default" = .valid) = true := by
  constructor <;> decide +kernel

/-- The protocol that holds `x` only as copies verifies `x` at the root. -/
theorem verified_copies_root :
    Verified copiesOnly repeatContext.store repeatContext.registry.dialects xRootMessage := by
  obtain ⟨-, -, -, -, hbase, hrepeat⟩ := repeat_runs
  intro performative recipient content params thread sender caused_by hinner d hd proto hproto
  cases hinner
  change copiesOnly "x" d = some proto at hproto
  rcases List.mem_append.mp hd with hd | hd
  · -- the base dialect has no protocol
    rw [List.mem_singleton.mp hd, Option.isNone_iff_eq_none.mp hbase] at hproto
    exact nomatch hproto
  · rw [List.mem_singleton.mp hd] at hproto
    rw [hproto, Option.any_some, decide_eq_true_eq] at hrepeat
    exact hrepeat

/-- The pipeline and the agent accept `y` as the answer to the root, where no protocol holds `y` as
    copies, and `x` at the root, which the one protocol that holds it as copies verifies. -/
theorem accepted_verified_y :
    (∃ m, runPipelineFull "(lang d (y \"hi\" :caused-by begin))" repeatContext = .success m ∧
      (Verified constraining repeatContext.store repeatContext.registry.dialects m ↔
        Verified copiesOnly repeatContext.store repeatContext.registry.dialects m)) ∧
    (∃ result, (repeatAgent.evaluateAndApplyAt yMessage 0).1 = .applied result ∧
      (Verified constraining repeatAgent.message_store.toStore
          repeatAgent.dialect_registry.dialects yMessage ↔
        Verified copiesOnly repeatAgent.message_store.toStore
          repeatAgent.dialect_registry.dialects yMessage)) ∧
    (copiesOnly "x" repeatDialect).isSome = true ∧
    (runPipelineFull "(lang d (x \"hi\" :caused-by begin))" repeatContext = .success xRootMessage ∧
      Verified constraining repeatContext.store repeatContext.registry.dialects xRootMessage) ∧
    (∃ result, (repeatAgent.evaluateAndApplyAt xRootMessage 0).1 = .applied result ∧
      Verified constraining repeatAgent.message_store.toStore
        repeatAgent.dialect_registry.dialects xRootMessage) := by
  obtain ⟨m, hm⟩ : ∃ m, runPipelineFull "(lang d (y \"hi\" :caused-by begin))" repeatContext =
      .success m := PipelineResult.exists_success repeat_runs.1.1
  obtain ⟨result, hresult⟩ : ∃ result, (repeatAgent.evaluateAndApplyAt yMessage 0).1 =
      .applied result := AgentOutcome.exists_applied repeat_runs.1.2.1
  have hiff := accepted_verified_iff "(lang d (y \"hi\" :caused-by begin))" repeatContext repeatAgent
    yMessage 0
  -- the repeated verb at the root: the right side of the equivalence is computed
  obtain ⟨-, hpipeline, hagent, hread, -, hcopies⟩ := repeat_runs
  obtain ⟨x, hx⟩ : ∃ x, runPipelineFull "(lang d (x \"hi\" :caused-by begin))" repeatContext =
      .success x := PipelineResult.exists_success hpipeline
  obtain ⟨applied, happlied⟩ : ∃ applied, (repeatAgent.evaluateAndApplyAt xRootMessage 0).1 =
      .applied applied := AgentOutcome.exists_applied hagent
  have hxiff := accepted_verified_iff "(lang d (x \"hi\" :caused-by begin))" repeatContext repeatAgent
    xRootMessage 0
  obtain ⟨message, hmessage, -, hchecks⟩ := runPipelineFull_success_iff.mp hx
  obtain ⟨rfl, -⟩ := runChecks_success hchecks
  obtain rfl := Option.some.inj (hread.symm.trans hmessage)
  exact ⟨⟨m, hm, hiff.1 m hm⟩, ⟨result, hresult, hiff.2 result rfl hresult⟩,
    Option.isSome_of_any hcopies,
    ⟨hx, (hxiff.1 _ hx).mpr verified_copies_root⟩,
    ⟨applied, happlied, (hxiff.2 applied rfl happlied).mpr verified_copies_root⟩⟩

/-- A protocol of `repeatContext` constrains `x` and does not give it a valid verdict. -/
theorem not_verified_x :
    ¬ Verified constraining repeatContext.store repeatContext.registry.dialects xMessage := by
  intro h
  obtain ⟨⟨-, -, -, -, -, hbad⟩, -⟩ := repeat_runs
  cases hproto : constraining "x" repeatDialect with
  | none =>
      rw [hproto] at hbad
      exact nomatch hbad
  | some proto =>
      rw [hproto, Option.any_some, decide_eq_true_eq] at hbad
      have hinstalled : repeatDialect ∈ repeatContext.registry.dialects :=
        List.mem_append_right _ (List.mem_singleton_self _)
      exact hbad (h (.custom "x") none (.atom (.str "hi")) [] none none none rfl repeatDialect
        hinstalled proto hproto)

/-- The pipeline and the agent accept `x` without a predecessor, which the one protocol that
    constrains it forbids. -/
theorem copies_unverified :
    (∃ m, runPipelineFull "(lang d (x \"hi\"))" repeatContext = .success m ∧
      ¬ Verified constraining repeatContext.store repeatContext.registry.dialects m) ∧
    (∃ result, (repeatAgent.evaluateAndApplyAt xMessage 0).1 = .applied result ∧
      ¬ Verified constraining repeatAgent.message_store.toStore
        repeatAgent.dialect_registry.dialects xMessage) := by
  obtain ⟨⟨-, -, hpipeline, hagent, hx, -⟩, -⟩ := repeat_runs
  obtain ⟨m, hm⟩ : ∃ m, runPipelineFull "(lang d (x \"hi\"))" repeatContext = .success m :=
    PipelineResult.exists_success hpipeline
  obtain ⟨result, hresult⟩ : ∃ result, (repeatAgent.evaluateAndApplyAt xMessage 0).1 =
      .applied result := AgentOutcome.exists_applied hagent
  obtain ⟨message, hread, -, hchecks⟩ := runPipelineFull_success_iff.mp hm
  obtain ⟨rfl, -⟩ := runChecks_success hchecks
  rw [← Option.some.inj (hx.symm.trans hread)] at hm
  exact ⟨⟨xMessage, hm, not_verified_x⟩, ⟨result, hresult, not_verified_x⟩⟩

end CbclPipeline
