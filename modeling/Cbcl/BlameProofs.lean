import Cbcl.ExceptProofs
import Cbcl.PipelineProofs

/-!
# Blame that anybody can check

A violation is reported as an error message (`blame.rs`).  Its form spells every field but the
thread, so errors of one form differ in nothing that a third party would look at, and
`verify_blame` answers the same for all of them.  The full pipeline puts the expansion it checked
into the report of a broken shape: whoever receives it finds the dialect and the performative
named, and a shape of theirs that the evidence breaks.
-/

namespace CbclBlame

open CbclMessage CbclShape CbclDialect CbclEvaluator CbclText CbclPipeline

-- ── The form of an error ────

/-- The name of a party. -/
def asStr : BlameParty → String
  | .sender => "sender"
  | .dialectAuthor => "dialect-author"
  | .installer => "installer"

/-- The name of a kind of violation. -/
def asViolationType : ViolationKind → String
  | .shape => "shape-violation"
  | .causal => "causal-violation"
  | .r5 => "r5-violation"

/-- A field under its keyword, if it is set. -/
def keyed (key : String) (value : Option SExpr) : List SExpr :=
  match value with
  | none => []
  | some v => [.atom (.keyword key), v]

/-- The form of a blame entry. -/
def entryToSexpr (entry : BlameEntry) : SExpr :=
  .list ([.atom (.symbol "blame"),
    .atom (.keyword "party"), .atom (.symbol (asStr entry.party)),
    .atom (.keyword "reason"), .atom (.str entry.reason)] ++ keyed "evidence" entry.evidence)

/-- A field name without its colon. -/
def stripColon (field : String) : String :=
  match field.toList with
  | ':' :: rest => String.ofList rest
  | _ => field

/-- The keyword fields of an error, in order. -/
def fieldsOf (e : ViolationError) : List (String × Option SExpr) :=
  [("dialect", e.dialect.map fun v => .atom (.str v)),
    ("dialect-author", e.dialect_author.map fun v => .atom (.str v)),
    ("dialect-hash", e.dialect_hash.map fun v => .atom (.str v)),
    ("performative", e.performative.map fun v => .atom (.str v)),
    ("rule", e.rule.map fun v => .atom (.str v)),
    ("field", e.field.map fun v => .atom (.keyword (stripColon v))),
    ("expected", e.expected.map fun v => .atom (.str v)),
    ("found", e.found.map fun v => .atom (.str v)),
    ("detail", some (.atom (.str e.detail))),
    ("blamed", e.blame_chain.head?.map fun first => .atom (.symbol (asStr first.party))),
    ("verifier", e.verifier.map fun v => .atom (.str v)),
    ("message-hash", e.message_hash.map fun v => .atom (.str v)),
    ("caused-by", e.caused_by.map fun v => .atom (.str v)),
    ("blame-chain", some (.list (e.blame_chain.map entryToSexpr)))]

/-- Some fields as they are spelled. -/
def spell (fields : List (String × Option SExpr)) : List SExpr :=
  fields.flatMap fun field => keyed field.1 field.2

/-- The error message of a violation. -/
def toSexpr (e : ViolationError) : SExpr :=
  .list ([.atom (.symbol "error"), .atom (.symbol (e.recipient.getD "@unknown")),
    .atom (.str (asViolationType e.kind))] ++ spell (fieldsOf e))

-- ── Checking blame ────

/-- Whether some evidence breaks the shape. -/
def verifyShapeBlame (e : ViolationError) (shape_constraint : Option ShapeConstraint) : Bool :=
  match shape_constraint with
  | none => false
  | some constraint => e.blame_chain.any fun entry =>
      entry.evidence.any fun evidence => !(constraint.check evidence).isOk

/-- Whether the blame of an error is justified, as far as a third party can tell. -/
def verifyBlame (e : ViolationError) (shape_constraint : Option ShapeConstraint) : Bool :=
  match e.kind with
  | .shape => verifyShapeBlame e shape_constraint
  | .causal => e.blame_chain.any fun entry => entry.party = .sender
  | .r5 => e.blame_chain.any fun entry => entry.party = .dialectAuthor

-- ── What the form tells ────

/-- Fields start with one of their keywords, if any is set. -/
theorem spell_head : ∀ {fields : List (String × Option SExpr)} {x : SExpr} {rest : List SExpr},
    spell fields = x :: rest → ∃ key ∈ fields.map Prod.fst, x = .atom (.keyword key) := by
  intro fields
  induction fields with
  | nil => exact fun h => by cases h
  | cons field fields ih =>
      obtain ⟨key, value⟩ := field
      intro x rest h
      cases value with
      | none =>
          obtain ⟨key', hmem, hx⟩ := ih h
          exact ⟨key', List.mem_cons_of_mem _ hmem, hx⟩
      | some v => exact ⟨key, List.mem_cons_self .., (List.cons.inj h).1.symm⟩

/-- **Fields under different keywords are read back** from how they are spelled. -/
theorem spell_injective : ∀ {fs gs : List (String × Option SExpr)},
    fs.map Prod.fst = gs.map Prod.fst → (fs.map Prod.fst).Nodup → spell fs = spell gs →
      fs = gs := by
  intro fs
  induction fs with
  | nil => exact fun hkeys _ _ => (List.map_eq_nil_iff.mp hkeys.symm).symm
  | cons f fs ih =>
      intro gs hkeys hnodup h
      cases gs with
      | nil => cases hkeys
      | cons g gs =>
          obtain ⟨key, v⟩ := f
          obtain ⟨key', w⟩ := g
          obtain ⟨rfl, hrest⟩ : key = key' ∧ fs.map Prod.fst = gs.map Prod.fst :=
            List.cons.inj hkeys
          obtain ⟨hnew, hlater⟩ := List.nodup_cons.mp hnodup
          cases v with
          | none =>
              cases w with
              | none => rw [ih hrest hlater h]
              | some w =>
                  have hstart : spell fs = .atom (.keyword key) :: w :: spell gs := h
                  obtain ⟨other, hmem, heq⟩ := spell_head hstart
                  cases heq
                  exact absurd hmem hnew
          | some v =>
              cases w with
              | none =>
                  have hstart : spell gs = .atom (.keyword key) :: v :: spell fs := h.symm
                  obtain ⟨other, hmem, heq⟩ := spell_head hstart
                  cases heq
                  exact absurd (hrest ▸ hmem) hnew
              | some w =>
                  obtain ⟨-, hvalues⟩ := List.cons.inj h
                  obtain ⟨rfl, hspelled⟩ := List.cons.inj hvalues
                  rw [ih hrest hlater hspelled]

theorem asStr_injective : Function.Injective asStr := by
  intro p q h
  cases p <;> cases q <;> first | rfl | exact absurd h (by decide)

theorem asViolationType_injective : Function.Injective asViolationType := by
  intro k l h
  cases k <;> cases l <;> first | rfl | exact absurd h (by decide)

theorem keyed_injective (key : String) : Function.Injective (keyed key) := by
  intro v w h
  cases v with
  | none =>
      cases w with
      | none => rfl
      | some w => cases h
  | some v =>
      cases w with
      | none => cases h
      | some w => rw [(List.cons.inj (List.cons.inj h).2).1]

theorem entryToSexpr_injective : Function.Injective entryToSexpr := by
  intro a b h
  obtain ⟨party, reason, evidence⟩ := a
  obtain ⟨party', reason', evidence'⟩ := b
  simp only [entryToSexpr, SExpr.list.injEq, List.cons_append, List.nil_append, List.cons.injEq,
    SExpr.atom.injEq, Atom.symbol.injEq, Atom.str.injEq, true_and] at h
  obtain ⟨hparty, hreason, hevidence⟩ := h
  rw [asStr_injective hparty, hreason, keyed_injective _ hevidence]

/-- What the form of an error spells: the thread is left out, a missing recipient has a
    placeholder, and a field name loses its colon. -/
def spelled (e : ViolationError) : ViolationError :=
  { e with
    recipient := some (e.recipient.getD "@unknown")
    field := e.field.map stripColon
    thread_id := none }

/-- **The form of an error tells all it spells.** -/
theorem toSexpr_eq_iff (e e' : ViolationError) :
    toSexpr e = toSexpr e' ↔ spelled e = spelled e' := by
  have htext : Function.Injective fun v : String => SExpr.atom (.str v) := fun v w h => by
    cases h
    rfl
  have hname : Function.Injective fun v : String => SExpr.atom (.keyword v) := fun v w h => by
    cases h
    rfl
  constructor
  · intro h
    simp only [toSexpr, SExpr.list.injEq, List.cons_append, List.nil_append, List.cons.injEq,
      SExpr.atom.injEq, Atom.symbol.injEq, Atom.str.injEq, true_and] at h
    obtain ⟨hrecipient, hkind, hspelled⟩ := h
    have hfields : fieldsOf e = fieldsOf e' := spell_injective rfl (by
      simp only [fieldsOf, List.map_cons, List.map_nil]
      decide) hspelled
    simp only [fieldsOf, List.cons.injEq, Prod.mk.injEq, true_and, and_true, Option.some.injEq,
      SExpr.atom.injEq, Atom.str.injEq, SExpr.list.injEq] at hfields
    obtain ⟨hdialect, hauthor, hhash, hperformative, hrule, hfield, hexpected, hfound, hdetail,
      -, hverifier, hmessage, hcaused, hchain⟩ := hfields
    have hfield' : e.field.map stripColon = e'.field.map stripColon :=
      Option.map_injective hname (by rw [Option.map_map, Option.map_map]; exact hfield)
    simp only [spelled, ViolationError.mk.injEq]
    exact ⟨asViolationType_injective hkind,
      List.map_injective_iff.mpr entryToSexpr_injective hchain, hdetail, congrArg some hrecipient,
      Option.map_injective htext hdialect, Option.map_injective htext hauthor,
      Option.map_injective htext hhash,
      Option.map_injective htext hperformative, Option.map_injective htext hverifier,
      Option.map_injective htext hmessage, Option.map_injective htext hcaused,
      Option.map_injective htext hrule, hfield', Option.map_injective htext hexpected,
      Option.map_injective htext hfound, trivial⟩
  · intro h
    simp only [spelled, ViolationError.mk.injEq, Option.some.injEq] at h
    obtain ⟨hkind, hchain, hdetail, hrecipient, hdialect, hauthor, hhash, hperformative, hverifier,
      hmessage, hcaused, hrule, hfield, hexpected, hfound, -⟩ := h
    have hfield' : (e.field.map fun v => SExpr.atom (.keyword (stripColon v)))
        = e'.field.map fun v => SExpr.atom (.keyword (stripColon v)) := by
      have hmapped := congrArg (Option.map fun v => SExpr.atom (.keyword v)) hfield
      rw [Option.map_map, Option.map_map] at hmapped
      exact hmapped
    simp only [toSexpr, fieldsOf, hkind, hchain, hdetail, hrecipient, hdialect, hauthor, hhash,
      hperformative, hverifier, hmessage, hcaused, hrule, hfield', hexpected, hfound]

/-- Errors of one form are checked alike. -/
theorem verifyBlame_congr {e e' : ViolationError} (h : toSexpr e = toSexpr e')
    (shape_constraint : Option ShapeConstraint) :
    verifyBlame e shape_constraint = verifyBlame e' shape_constraint := by
  have hspelled := (toSexpr_eq_iff e e').mp h
  have hkind : (spelled e).kind = (spelled e').kind := congrArg _ hspelled
  have hchain : (spelled e).blame_chain = (spelled e').blame_chain := congrArg _ hspelled
  change e.kind = e'.kind at hkind
  change e.blame_chain = e'.blame_chain at hchain
  unfold verifyBlame verifyShapeBlame
  rw [hkind, hchain]

-- ── The shapes the pipeline checks ────

/-- Evaluation without the shape check finds no shape broken. -/
theorem evaluateWithScope_error (registry : DialectRegistry) (v : ShapeViolation) :
    ∀ (message : Message) (scope : Option Dialect),
      evaluateWithScope registry false scope message ≠ .error (.shapeViolation v) := by
  intro message
  induction message with
  | simple performative recipient content params thread sender caused_by =>
      intro scope h
      rw [evaluateWithScope] at h
      rcases CbclExcept.bind_error_iff.mp h with hresolve | ⟨d, -, h⟩
      · unfold resolvePerformativeDialect at hresolve
        split at hresolve
        · split at hresolve <;> cases hresolve
        · split at hresolve
          · cases hresolve
          · split at hresolve <;> cases hresolve
      · split at h
        · cases h
        · split at h
          · cases h
          · cases h
  | metaDef operation => exact fun scope h => by cases h
  | dialect name inner ih =>
      intro scope h
      rw [evaluateWithScope] at h
      split at h
      · cases h
      · exact ih _ h
  | wrapped wrapper params content ih => exact fun scope h => ih scope h

theorem exists_of_forM_error {α ε : Type} {f : α → Except ε Unit} {e : ε} : ∀ {xs : List α},
    xs.forM f = .error e → ∃ x ∈ xs, f x = .error e := by
  intro xs
  induction xs with
  | nil => exact fun h => by cases h
  | cons x xs ih =>
      intro h
      rcases CbclExcept.bind_error_iff.mp (h : (f x >>= fun _ => xs.forM f) = .error e) with
        hfirst | ⟨-, -, hlater⟩
      · exact ⟨x, List.mem_cons_self .., hfirst⟩
      · obtain ⟨y, hy, heq⟩ := ih hlater
        exact ⟨y, List.mem_cons_of_mem x hy, heq⟩

/-- A reported shape is one of the performative's that the expansion breaks. -/
theorem checkDialectShapes_error {perf : String} {expanded : SExpr} {thread : Option String}
    {err : ValidationError} : ∀ {dialects : List Dialect},
    checkDialectShapes perf expanded thread dialects = .error err →
      ∃ d ∈ dialects, ∃ shape ∈ d.shapes, shape.performative = perf ∧
        ∃ sv, shape.check expanded = .error sv ∧ err = .shapeViolation sv
          ((ViolationError.fromShapeViolation sv none thread (some expanded)).withDialectContext
            d perf) := by
  intro dialects
  induction dialects with
  | nil => exact fun h => by cases h
  | cons d dialects ih =>
      intro h
      rw [checkDialectShapes] at h
      rcases CbclExcept.bind_error_iff.mp h with hfirst | ⟨-, -, hlater⟩
      · obtain ⟨shape, hshape, hbroken⟩ := exists_of_forM_error hfirst
        split at hbroken
        · next hperf =>
            split at hbroken
            · cases hbroken
            · next sv hcheck =>
                exact ⟨d, List.mem_cons_self .., shape, hshape, hperf, sv, hcheck,
                  (Except.error.inj hbroken).symm⟩
        · cases hbroken
      · obtain ⟨d', hd', hrest⟩ := ih hlater
        exact ⟨d', List.mem_cons_of_mem d hd', hrest⟩

/-- The verification of the causes reports no broken shape. -/
theorem verifyDialects_error {ctx : PipelineContext} {message : Message} {perf : String}
    {caused_by : Option CausedBy} {thread : Option String} {v : ShapeViolation}
    {blame : ViolationError} : ∀ dialects : List Dialect,
    verifyDialects ctx message perf caused_by thread dialects
      ≠ some (.validationError (.shapeViolation v blame)) := by
  intro dialects
  induction dialects with
  | nil => exact fun h => by cases h
  | cons d dialects ih =>
      intro h
      rw [verifyDialects] at h
      split at h
      · exact ih h
      · split at h
        · exact ih h
        · cases h
        · cases h
        · cases h

/-- Nor does the validation of definitions. -/
theorem validateMetaDialect_error {message : Message} {registry : Option DialectRegistry}
    {v : ShapeViolation} {blame : ViolationError} :
    validateMetaDialect message registry ≠ .error (.shapeViolation v blame) := by
  have hdefine : ∀ form, validateDefineDialect form registry
      ≠ .error (.shapeViolation v blame) := fun form h => by
    unfold validateDefineDialect at h
    split at h
    · cases h
    · dsimp only at h
      split at h
      · cases h
      · split at h
        · cases h
        · split at h
          · cases h
          · split at h <;> cases h
  intro h
  unfold validateMetaDialect at h
  split at h
  · split at h
    · exact hdefine _ h
    · split at h
      · split at h
        · exact hdefine _ h
        · cases h
      · cases h
  · cases h

/-- The checks of the pipeline report a shape that the expansion of the message breaks. -/
theorem runChecks_error {ctx : PipelineContext} {message : Message} {v : ShapeViolation}
    {blame : ViolationError}
    (h : runChecks ctx message = .validationError (.shapeViolation v blame)) :
    ∃ result d shape, evaluateWithoutShapeCheck message ctx.registry = .ok result ∧
      d ∈ ctx.registry.dialects ∧ shape ∈ d.shapes ∧ shape.check result.expanded = .error v ∧
      ∃ thread, blame = (ViolationError.fromShapeViolation v none thread
        (some result.expanded)).withDialectContext d shape.performative := by
  unfold runChecks at h
  split at h
  · next performative recipient content params thread sender caused_by hsimple =>
      split at h
      · next outcome houtcome =>
          subst h
          exact absurd houtcome (verifyDialects_error _)
      · cases heval : evaluateWithoutShapeCheck message ctx.registry with
        | error e =>
            rw [heval] at h
            injection h with h
            unfold evalErrorToValidation at h
            split at h <;> try cases h
            exact absurd heval (evaluateWithScope_error _ _ message none)
        | ok result =>
            rw [heval] at h
            dsimp only at h
            split at h
            · next err hshapes =>
                injection h with h
                subst h
                obtain ⟨d, hd, shape, hshape, hperf, sv, hcheck, heq⟩ :=
                  checkDialectShapes_error hshapes
                injection heq with hsv hblame
                subst hsv
                exact ⟨result, d, shape, rfl, hd, hshape, hcheck, thread, hperf ▸ hblame⟩
            · cases h
  · cases h

/-- **Who receives the report of a broken shape can check it**: the dialect and the performative
    that it names have a shape which the evidence breaks, the evidence is the expansion of the
    message, and re-checking it against any shape answers what the pipeline's check answers. -/
theorem shape_report_verifiable {input : String} {ctx : PipelineContext} {v : ShapeViolation}
    {blame received : ViolationError}
    (hreport : runPipelineFull input ctx = .validationError (.shapeViolation v blame))
    (hreceived : toSexpr received = toSexpr blame) :
    ∃ message result d shape, recognise input = some message ∧
      evaluateWithoutShapeCheck message ctx.registry = .ok result ∧
      d ∈ ctx.registry.dialects ∧ shape ∈ d.shapes ∧ received.dialect = some d.name ∧
      received.performative = some shape.performative ∧ shape.check result.expanded = .error v ∧
      verifyBlame received (some shape) = true ∧
      ∀ constraint, verifyBlame received (some constraint)
        = !(constraint.check result.expanded).isOk := by
  unfold runPipelineFull at hreport
  cases hparse : parse input with
  | error e =>
      rw [hparse] at hreport
      cases hreport
  | ok sexpr =>
      rw [hparse] at hreport
      dsimp only at hreport
      cases hread : CbclRecogniser.tryFrom sexpr with
      | error reason =>
          rw [hread] at hreport
          cases hreport
      | ok message =>
          rw [hread] at hreport
          dsimp only at hreport
          have hrecognised : recognise input = some message := by
            unfold recognise
            rw [hparse]
            dsimp only
            rw [hread]
          cases hmeta : validateMetaDialect message (some ctx.registry) with
          | error err =>
              rw [hmeta] at hreport
              injection hreport with herr
              exact absurd (herr ▸ hmeta) validateMetaDialect_error
          | ok u =>
              rw [hmeta] at hreport
              obtain ⟨result, d, shape, heval, hd, hshape, hcheck, thread, rfl⟩ :=
                runChecks_error hreport
              have hchecked : ∀ constraint, verifyBlame received (some constraint)
                  = !(constraint.check result.expanded).isOk := fun constraint => by
                rw [verifyBlame_congr hreceived]
                exact Bool.or_false _
              have hspelled := (toSexpr_eq_iff _ _).mp hreceived
              have hdialect : (spelled received).dialect = some d.name := hspelled ▸ rfl
              have hperformative : (spelled received).performative = some shape.performative :=
                hspelled ▸ rfl
              refine ⟨message, result, d, shape, hrecognised, heval, hd, hshape, hdialect,
                hperformative, hcheck, ?_, hchecked⟩
              rw [hchecked, hcheck]
              rfl

-- ── A message without its tag ────

/-- A dialect whose one performative expands to what has no tag. -/
def taggedDialect : Dialect :=
  { baseDialect with
    name := "d"
    author := none
    performatives := [⟨"y", [], effectTemplate "acknowledge", none⟩]
    shapes := [⟨"y", [.require "tag" none []]⟩] }

/-- An empty store, the base dialect and that one. -/
def taggedContext : PipelineContext where
  registry := DialectRegistry.new.push taggedDialect
  store := CbclThreadedStore.ThreadedMessageStore.new.toStore
  policy := .reject

/-- The blame for a broken shape. -/
def shapeBlame : PipelineResult → Option (ShapeViolation × ViolationError)
  | .validationError (.shapeViolation v blame) => some (v, blame)
  | _ => none

theorem shape_report_verifiable_tag : ∃ v blame,
    runPipelineFull "(lang d (y \"hi\"))" taggedContext
      = .validationError (.shapeViolation v blame) ∧
    ∃ d ∈ taggedContext.registry.dialects, ∃ shape ∈ d.shapes, blame.dialect = some d.name ∧
      verifyBlame blame (some shape) = true := by
  have hrun : (shapeBlame (runPipelineFull "(lang d (y \"hi\"))" taggedContext)).isSome
      = true := by
    decide +kernel
  obtain ⟨⟨v, blame⟩, hsome⟩ := Option.isSome_iff_exists.mp hrun
  have hreport : runPipelineFull "(lang d (y \"hi\"))" taggedContext
      = .validationError (.shapeViolation v blame) := by
    unfold shapeBlame at hsome
    split at hsome
    · next hresult =>
        rw [hresult]
        cases hsome
        rfl
    · cases hsome
  obtain ⟨-, -, d, shape, -, -, hd, hshape, hname, -, -, hverified, -⟩ :=
    shape_report_verifiable hreport rfl
  exact ⟨v, blame, hreport, d, hd, shape, hshape, hname, hverified⟩

end CbclBlame
