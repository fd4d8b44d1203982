import Cbcl.EvaluatorModel
import Cbcl.RegistryProofs

/-!
# Evaluation in a growing registry

A dialect performative is resolved and expanded by the dialect its `lang` wrapper names, so other
dialects have no say in what it means.  They do have a say in its shape: the shapes of a
performative are checked over all installed dialects, in installation order, and those of a later
dialect are added at the end.  Two runs over a registry and a larger one differ in these last
checks only.
-/

namespace CbclScoping

open CbclMessage CbclShape CbclDialect CbclEvaluator CbclInstall CbclRegistry CbclCanonical
  CbclTypedAddr CbclExcept

-- ── Scopes ────

/-- The dialect named by the innermost `lang` around a simple message. -/
def innermostLang : Option String → Message → Option String
  | scope, .simple .. => scope
  | _, .metaDef _ => none
  | _, .dialect name inner => innermostLang (some name) inner
  | scope, .wrapped _ _ content => innermostLang scope content

/-- The dialects named by the `lang` wrappers of a message, the outermost first. -/
def langs : Message → List String
  | .dialect name inner => name :: langs inner
  | .wrapped _ _ content => langs content
  | _ => []

/-- The name of the innermost performative. -/
def performativeName (m : Message) : Option String :=
  (m.innermostSimple.bind Message.performative).map Performative.name

/-- A message whose innermost performative is custom and scoped by a dialect. -/
def ScopedBy (name : String) (m : Message) : Prop :=
  innermostLang none m = some name ∧
    ∃ p, m.innermostSimple.bind Message.performative = some (.custom p)

-- ── Growing registries ────

/-- A registry after further successful installations, of dialects other than one. -/
inductive Grows (sha256 : Octets → Digest) (name : String) :
    DialectRegistry → DialectRegistry → Prop where
  | refl (r : DialectRegistry) : Grows sha256 name r r
  | install {r r' r'' : DialectRegistry} {call : Call} : Grows sha256 name r r' →
      call.dialect.name ≠ name → perform sha256 r' call = (none, r'') → Grows sha256 name r r''

/-- A successful call adds its dialect at the end. -/
theorem perform_dialects {sha256 : Octets → Digest} {r r' : DialectRegistry} {call : Call}
    (h : perform sha256 r call = (none, r')) :
    r'.dialects = r.dialects ++ [installed sha256 call.dialect] := by
  cases call with
  | install d =>
      rw [perform_install] at h
      cases hrun : install sha256 r d with
      | error e => rw [hrun] at h; exact nomatch h
      | ok r₁ =>
          rw [hrun] at h
          obtain ⟨-, -, rfl⟩ := install_ok_iff.mp hrun
          injection h with _ h
          rw [← h]
          rfl
  | installWithSigner d signer =>
      rw [perform_signed] at h
      cases hrun : installWithSigner sha256 r d signer with
      | error e => rw [hrun] at h; exact nomatch h
      | ok result =>
          obtain ⟨r4, r₁⟩ := result
          rw [hrun] at h
          obtain ⟨-, -, -, rfl⟩ := installWithSigner_ok_iff.mp hrun
          injection h with _ h
          rw [← h]
          rfl

/-- The dialects a registry has more than another. -/
def added (r r' : DialectRegistry) : List Dialect := r'.dialects.drop r.dialects.length

theorem Grows.dialects {sha256 : Octets → Digest} {name : String} {r r' : DialectRegistry}
    (h : Grows sha256 name r r') : r'.dialects = r.dialects ++ added r r' := by
  have hsome : ∃ more, r'.dialects = r.dialects ++ more := by
    induction h with
    | refl => exact ⟨[], by simp⟩
    | install _ _ hcall ih =>
        obtain ⟨more, hmore⟩ := ih
        exact ⟨more ++ [_], by rw [perform_dialects hcall, hmore, List.append_assoc]⟩
  obtain ⟨more, hmore⟩ := hsome
  unfold added
  rw [hmore, List.drop_left]

-- ── Two runs ────

/-- The shapes some dialects declare for a performative, checked in order. -/
def checkShapesIn (dialects : List Dialect) (performative : String) (expanded : SExpr) :
    Except EvalError Unit :=
  dialects.forM fun d => d.shapes.forM fun shape =>
    if shape.performative = performative then
      match shape.check expanded with
      | .ok () => .ok ()
      | .error v => .error (.shapeViolation v)
    else .ok ()

/-- A result, unless some dialects declare a shape that refuses it. -/
def keepIf (dialects : List Dialect) (performative : Option String) (result : EvalResult) :
    Except EvalError EvalResult :=
  match performative with
  | none => .ok result
  | some name => checkShapesIn dialects name result.expanded >>= fun _ => .ok result

section Runs

variable {r r' : DialectRegistry} {more : List Dialect}

theorem checkShapes_append (h : r'.dialects = r.dialects ++ more) (name : String)
    (expanded : SExpr) : checkShapes name expanded r' =
      checkShapes name expanded r >>= fun _ => checkShapesIn more name expanded := by
  unfold checkShapes checkShapesIn
  rw [h]
  exact List.forM_append

/-- Every registry has the base dialect first. -/
theorem baseDefinerOf_eq (r r' : DialectRegistry) (name : String) :
    r'.baseDefinerOf name = r.baseDefinerOf name := by
  unfold DialectRegistry.baseDefinerOf
  rw [r'.base_first, r.base_first]

/-- Resolution reads the scope and the base dialect. -/
theorem resolve_eq (r r' : DialectRegistry) (performative : Performative)
    (scope : Option Dialect) : resolvePerformativeDialect performative r' scope =
      resolvePerformativeDialect performative r scope := by
  cases performative with
  | core c =>
      unfold resolvePerformativeDialect
      simp only [baseDefinerOf_eq r r']
  | custom name => rfl

/-- A dialect found in a registry is found in a larger one; one that is not is new there. -/
theorem findByName_append (h : r'.dialects = r.dialects ++ more) {name : String}
    (hname : (r.findByName name).isSome = true ∨ r'.findByName name = none) :
    r'.findByName name = r.findByName name := by
  have heq : r'.findByName name = (r.findByName name).or (more.find? (·.name = name)) := by
    unfold DialectRegistry.findByName
    rw [h, List.find?_append]
  cases hfind : r.findByName name with
  | some d => rw [heq, hfind]; rfl
  | none =>
      rw [hfind] at hname
      rcases hname with hname | hname
      · exact nomatch hname
      · exact hname

/-- **Two runs**: over a larger registry, a message gives what it gave before, then passes the
    shapes of the added dialects. -/
theorem evaluateWithScope_append (h : r'.dialects = r.dialects ++ more) :
    ∀ (m : Message) (scope : Option Dialect),
      (∀ name ∈ langs m, (r.findByName name).isSome = true ∨ r'.findByName name = none) →
      evaluateWithScope r' true scope m =
        evaluateWithScope r true scope m >>= keepIf more (performativeName m) := by
  intro m
  induction m with
  | simple performative recipient content params thread sender caused_by =>
      intro scope _
      simp only [evaluateWithScope, resolve_eq r r']
      cases resolvePerformativeDialect performative r scope with
      | error e => rfl
      | ok d =>
          simp only [bind, Except.bind]
          cases d.findPerformative performative.name with
          | none => rfl
          | some p =>
              dsimp only
              cases expandTemplate p (content :: params) (.initial d.resources) with
              | none => rfl
              | some result =>
                  obtain ⟨expanded, rs⟩ := result
                  simp only [if_true, checkShapes_append h]
                  show _ = (_ >>= keepIf more (some performative.name))
                  cases checkShapes performative.name expanded r with
                  | error e => rfl
                  | ok u => rfl
  | metaDef dialect_def => intro scope _; rfl
  | dialect name inner ih =>
      intro scope hlangs
      have hname := hlangs name (List.mem_cons_self ..)
      simp only [evaluateWithScope, findByName_append h hname]
      cases r.findByName name with
      | none => rfl
      | some d => exact ih (some d) fun n hn => hlangs n (List.mem_cons_of_mem _ hn)
  | wrapped wrapper params content ih => exact ih

/-- Without the shape check the two runs agree. -/
theorem evaluateUnchecked_append (h : r'.dialects = r.dialects ++ more) :
    ∀ (m : Message) (scope : Option Dialect),
      (∀ name ∈ langs m, (r.findByName name).isSome = true ∨ r'.findByName name = none) →
      evaluateWithScope r' false scope m = evaluateWithScope r false scope m := by
  intro m
  induction m with
  | simple performative recipient content params thread sender caused_by =>
      intro scope _
      simp only [evaluateWithScope, resolve_eq r r']
      rfl
  | metaDef dialect_def => intro scope _; rfl
  | dialect name inner ih =>
      intro scope hlangs
      have hname := hlangs name (List.mem_cons_self ..)
      simp only [evaluateWithScope, findByName_append h hname]
      cases r.findByName name with
      | none => rfl
      | some d => exact ih (some d) fun n hn => hlangs n (List.mem_cons_of_mem _ hn)
  | wrapped wrapper params content ih => exact ih

end Runs

/-- **Other dialects only add shapes**: a message scoped by a dialect, none of whose `lang` wrappers
    names a dialect installed later, is resolved and expanded alike after further installations, and
    evaluates to what it did before unless a shape an added dialect declares for its performative
    refuses the expansion. -/
theorem evaluate_grows (sha256 : Octets → Digest) {name : String} {r r' : DialectRegistry}
    (hgrows : Grows sha256 name r r') {m : Message} (hscoped : ScopedBy name m)
    (hlangs : ∀ n ∈ langs m, (r.findByName n).isSome = true ∨ r'.findByName n = none) :
    evaluateWithoutShapeCheck m r' = evaluateWithoutShapeCheck m r ∧
      ∃ p, performativeName m = some p ∧
        evaluate m r' = (do
          let result ← evaluate m r
          checkShapesIn (added r r') p result.expanded
          return result) := by
  obtain ⟨-, p, hp⟩ := hscoped
  have hname : performativeName m = some p := by
    unfold performativeName
    rw [hp]
    rfl
  refine ⟨evaluateUnchecked_append hgrows.dialects m none hlangs, p, hname, ?_⟩
  have hrun := evaluateWithScope_append hgrows.dialects m none hlangs
  rw [hname] at hrun
  exact hrun

-- ── An added shape ────

/-- A dialect of one performative `offer`, with some shapes. -/
def offerDialect (name : String) (shapes : List ShapeConstraint) : Dialect :=
  { plainDialect name [⟨"offer", [], effectTemplate "record-offer", none⟩] with shapes }

/-- A registry with the dialect `trade`. -/
def tradeRegistry : DialectRegistry :=
  performAll CbclSha256.sha256 .new [.install (offerDialect "trade" [])]

/-- The same registry with another dialect of the performative, which wants a price. -/
def auctionRegistry : DialectRegistry :=
  (perform CbclSha256.sha256 tradeRegistry (.install (offerDialect "auction"
    [⟨"offer", [.require "price" (some .number) []]⟩]))).2

/-- `(offer "lamp")`. -/
def offerMessage : Message :=
  .simple (.custom "offer") none (.atom (.str "lamp")) [] none none none

/-- The error of an evaluation. -/
def errorOf : Except EvalError EvalResult → Option EvalError
  | .ok _ => none
  | .error e => some e

theorem auction_grows : Grows CbclSha256.sha256 "trade" tradeRegistry auctionRegistry := by
  refine .install (.refl _) (by decide : (Call.install (offerDialect "auction"
    [⟨"offer", [.require "price" (some .number) []]⟩])).dialect.name ≠ "trade") (Prod.ext ?_ rfl)
  decide +kernel

/-- The message of `trade` with a wrapper around it: resolved as before. -/
theorem evaluate_grows_offer :
    evaluateWithoutShapeCheck (.wrapped .signed [] (.dialect "trade" offerMessage)) auctionRegistry
      = evaluateWithoutShapeCheck (.wrapped .signed [] (.dialect "trade" offerMessage))
        tradeRegistry := by
  refine (evaluate_grows CbclSha256.sha256 auction_grows ⟨rfl, "offer", rfl⟩ fun n hn => ?_).1
  rw [List.mem_singleton.mp hn]
  exact Or.inl (by decide +kernel)

/-- **An unrelated dialect interferes**: after the second dialect is installed, the message scoped
    by the first is refused for its shape; and a message that names the second dialect outside the
    first is known only now. -/
theorem added_dialect_interferes :
    Grows CbclSha256.sha256 "trade" tradeRegistry auctionRegistry ∧
    ScopedBy "trade" (.dialect "trade" offerMessage) ∧
    errorOf (evaluate (.dialect "trade" offerMessage) tradeRegistry) = none ∧
    errorOf (evaluate (.dialect "trade" offerMessage) auctionRegistry) ≠ none ∧
    ScopedBy "trade" (.dialect "auction" (.dialect "trade" offerMessage)) ∧
    errorOf (evaluate (.dialect "auction" (.dialect "trade" offerMessage)) tradeRegistry) =
      some (.unknownDialect "auction") ∧
    errorOf (evaluate (.dialect "auction" (.dialect "trade" offerMessage)) auctionRegistry) ≠
      some (.unknownDialect "auction") :=
  ⟨auction_grows, ⟨rfl, "offer", rfl⟩, by decide +kernel, by decide +kernel, ⟨rfl, "offer", rfl⟩,
    by decide +kernel, by decide +kernel⟩

end CbclScoping
