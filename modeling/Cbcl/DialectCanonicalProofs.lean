import Cbcl.DialectCanonicalModel
import Cbcl.CanonicalProofs
import Cbcl.TypedAddrProofs

/-!
# A dialect signature binds the whole dialect

The signing form of a dialect is read back section by section: every section is a form with a head
of its own, so the arguments of a head are found whatever optional sections stand around it.  Two
dialects are signed alike exactly when they declare the same; only the routing table of `derive`
mode and the spelling of a committee are left open.
-/

namespace CbclDialectCanonical

open CbclMessage CbclProtocol CbclShape CbclState CbclEscrow CbclCertification CbclCanonical
  CbclTypedAddr CbclDialect CbclTreeMap
open CbclRole hiding Dialect PerformativeDef

-- ── Forms and sections ────

@[simp] theorem sym_inj {s t : String} : sym s = sym t ↔ s = t := by simp [sym]

@[simp] theorem str_inj {s t : String} : str s = str t ↔ s = t := by simp [str]

@[simp] theorem kw_inj {s t : String} : kw s = kw t ↔ s = t := by simp [kw]

@[simp] theorem form_inj {h k : String} {xs ys : List SExpr} :
    form h xs = form k ys ↔ h = k ∧ xs = ys := by simp [form]

theorem str_injective : Function.Injective str := fun _ _ h => str_inj.mp h

theorem sym_injective : Function.Injective sym := fun _ _ h => sym_inj.mp h

/-- A machine integer is read back from its number. -/
@[simp] theorem numU32_inj {m n : UInt32} : numU32 m = numU32 n ↔ m = n := by
  constructor
  · intro h
    simp only [numU32, SExpr.atom.injEq, Atom.num.injEq] at h
    have hm : m.toNat < 2 ^ 63 := lt_trans m.toNat_lt (by norm_num)
    have hn : n.toNat < 2 ^ 63 := lt_trans n.toNat_lt (by norm_num)
    have hint := congrArg Int64.toInt h
    rw [Int64.toInt_ofNat_of_lt hm, Int64.toInt_ofNat_of_lt hn] at hint
    exact UInt32.toNat.inj (by exact_mod_cast hint)
  · rintro rfl
    rfl

/-- The arguments of a form with a given head. -/
def argsOf (head : String) : SExpr → Option (List SExpr)
  | .list (.atom (.symbol s) :: args) => if s = head then some args else none
  | _ => none

@[simp] theorem argsOf_form (head h : String) (args : List SExpr) :
    argsOf head (form h args) = if h = head then some args else none := rfl

/-- The sections of a head, in order. -/
def sections (head : String) (items : List SExpr) : List (List SExpr) :=
  items.filterMap (argsOf head)

@[simp] theorem sections_nil (head : String) : sections head [] = [] := rfl

@[simp] theorem sections_append (head : String) (xs ys : List SExpr) :
    sections head (xs ++ ys) = sections head xs ++ sections head ys := List.filterMap_append ..

@[simp] theorem sections_form (head h : String) (args rest : List SExpr) :
    sections head (form h args :: rest) =
      if h = head then args :: sections head rest else sections head rest := by
  unfold sections
  rw [List.filterMap_cons, argsOf_form]
  by_cases hh : h = head
  · rw [if_pos hh, if_pos hh]
  · rw [if_neg hh, if_neg hh]

@[simp] theorem sections_sym (head s : String) (rest : List SExpr) :
    sections head (sym s :: rest) = sections head rest := rfl

/-- The section of an optional declaration. -/
@[simp] theorem sections_option {α : Type} (head h : String) (args : α → List SExpr)
    (o : Option α) : sections head (o.map fun a => form h (args a)).toList =
      if h = head then (o.map args).toList else [] := by
  cases o with
  | none => simp
  | some a => simp

/-- An optional declaration is read back from its section. -/
theorem option_of_toList {α β : Type} {f : α → β} (hf : Function.Injective f) {o p : Option α}
    (h : (o.map f).toList = (p.map f).toList) : o = p := by
  cases o with
  | none =>
      cases p with
      | none => rfl
      | some b => simp at h
  | some a =>
      cases p with
      | none => simp at h
      | some b =>
          simp only [Option.map_some, Option.toList_some, List.cons.injEq, and_true] at h
          rw [hf h]

-- ── Protocol, shapes and roles ────

theorem map_str_injective {xs ys : List String} (h : xs.map str = ys.map str) : xs = ys :=
  List.map_injective_iff.mpr str_injective h

theorem nodeRefToSexpr_injective : Function.Injective nodeRefToSexpr := by
  intro a b h
  cases a <;> cases b <;> simp only [nodeRefToSexpr, form_inj, String.reduceEq, false_and,
    true_and, List.cons.injEq, str_inj, and_true] at h
  case single.single s t => rw [h]
  case any.any s t => rw [toList_injective (map_str_injective h)]
  case all.all s t => rw [toList_injective (map_str_injective h)]

theorem stepToSexpr_injective : Function.Injective stepToSexpr := by
  rintro ⟨p, ps, ss⟩ ⟨q, qs, ts⟩ h
  simp only [stepToSexpr, form_inj, List.cons.injEq, str_inj, true_and, and_true] at h
  obtain ⟨rfl, hps, hss⟩ := h
  rw [List.map_injective_iff.mpr nodeRefToSexpr_injective hps,
    List.map_injective_iff.mpr nodeRefToSexpr_injective hss]

/-- Every step is filed under its own performative. -/
def StepsKeyed (p : CausalProtocol) : Prop :=
  ∀ (k : String) (s : StepDecl), p.steps[k]? = some s → s.performative = k

/-- The steps of a protocol, listed with the names they are filed under. -/
theorem toList_of_keyed {p : CausalProtocol} (h : StepsKeyed p) :
    p.steps.toList = (valuesOf p.steps).map fun s => (s.performative, s) := by
  unfold valuesOf
  rw [List.map_map]
  conv_lhs => rw [← List.map_id p.steps.toList]
  refine List.map_congr_left fun e he => ?_
  have hkey := h e.1 e.2 (Std.ExtTreeMap.mem_toList_iff_getElem?_eq_some.mp he)
  exact Prod.ext hkey.symm rfl

theorem protocolToSexpr_injective {p q : CausalProtocol} (hp : StepsKeyed p) (hq : StepsKeyed q)
    (h : protocolToSexpr p = protocolToSexpr q) : p = q := by
  obtain ⟨-, h⟩ := form_inj.mp h
  have hvalues := List.map_injective_iff.mpr stepToSexpr_injective h
  have hlist : p.steps.toList = q.steps.toList := by
    rw [toList_of_keyed hp, toList_of_keyed hq, hvalues]
  have hsteps : p.steps = q.steps := by
    refine Std.ExtTreeMap.ext_getElem? fun k => Option.ext fun s => ?_
    rw [← Std.ExtTreeMap.mem_toList_iff_getElem?_eq_some, hlist,
      Std.ExtTreeMap.mem_toList_iff_getElem?_eq_some]
  exact congrArg CausalProtocol.mk hsteps

theorem display_injective : Function.Injective TypeConstraint.display := by
  intro a b h
  cases a <;> cases b <;> first | rfl | (simp [TypeConstraint.display] at h)

theorem typeConstraintToSexpr_injective : Function.Injective typeConstraintToSexpr := by
  intro a b h
  obtain ⟨-, h⟩ := form_inj.mp h
  exact option_of_toList (sym_injective.comp display_injective) h

theorem defaultToSexpr_injective : Function.Injective defaultToSexpr := by
  intro a b h
  obtain ⟨-, h⟩ := form_inj.mp h
  exact option_of_toList (f := id) Function.injective_id (by simpa using h)

mutual
/-- A shape rule is read back from its form. -/
theorem shapeRuleToSexpr_injective : ∀ (r s : ShapeRule),
    shapeRuleToSexpr r = shapeRuleToSexpr s → r = s
  | .require k tc children, s, h => by
      cases s <;> simp only [shapeRuleToSexpr, form_inj, String.reduceEq, false_and, true_and,
        List.cons_append, List.nil_append, List.cons.injEq, str_inj] at h
      case require k' tc' children' =>
        obtain ⟨rfl, htc, hchildren⟩ := h
        rw [typeConstraintToSexpr_injective htc,
          shapeRulesToSexpr_injective children children' hchildren]
  | .optional k tc d children, s, h => by
      cases s <;> simp only [shapeRuleToSexpr, form_inj, String.reduceEq, false_and, true_and,
        List.cons_append, List.nil_append, List.cons.injEq, str_inj] at h
      case optional k' tc' d' children' =>
        obtain ⟨rfl, htc, hd, hchildren⟩ := h
        rw [typeConstraintToSexpr_injective htc, defaultToSexpr_injective hd,
          shapeRulesToSexpr_injective children children' hchildren]
  | .maxDepth n, s, h => by
      cases s <;> simp only [shapeRuleToSexpr, form_inj, String.reduceEq, false_and, true_and,
        List.cons.injEq, numU32_inj, and_true] at h
      case maxDepth m => rw [h]
/-- Shape rules are read back from their forms. -/
theorem shapeRulesToSexpr_injective : ∀ (rs ss : List ShapeRule),
    shapeRulesToSexpr rs = shapeRulesToSexpr ss → rs = ss
  | [], [], _ => rfl
  | [], s :: ss, h => by simp [shapeRulesToSexpr] at h
  | r :: rs, [], h => by simp [shapeRulesToSexpr] at h
  | r :: rs, s :: ss, h => by
      simp only [shapeRulesToSexpr, List.cons.injEq] at h
      rw [shapeRuleToSexpr_injective r s h.1, shapeRulesToSexpr_injective rs ss h.2]
end

theorem shapeToSexpr_injective : Function.Injective shapeToSexpr := by
  rintro ⟨p, rs⟩ ⟨q, ss⟩ h
  simp only [shapeToSexpr, form_inj, List.cons.injEq, str_inj, true_and] at h
  rw [h.1, shapeRulesToSexpr_injective rs ss h.2]

theorem roleDecl_injective : Function.Injective fun r : RoleDecl =>
    form "role-decl" [str r.name, sym (cardinalityName r.cardinality)] := by
  rintro ⟨n, c⟩ ⟨m, e⟩ h
  simp only [form_inj, List.cons.injEq, str_inj, sym_inj, true_and, and_true] at h
  obtain ⟨rfl, hc⟩ := h
  cases c <;> cases e <;> first | rfl | (simp [cardinalityName] at hc)

theorem roleAnnotationToSexpr_injective : Function.Injective roleAnnotationToSexpr := by
  rintro ⟨f, t⟩ ⟨g, u⟩ h
  simp only [roleAnnotationToSexpr, form_inj, List.cons.injEq, str_inj, true_and, and_true] at h
  rw [h.1, toList_injective (map_str_injective h.2)]

theorem performativeToSexpr_injective : Function.Injective performativeToSexpr := by
  rintro ⟨n, ps, t, r⟩ ⟨m, qs, u, s⟩ h
  simp only [performativeToSexpr, form_inj, List.cons_append, List.nil_append, List.cons.injEq,
    str_inj, true_and] at h
  obtain ⟨rfl, rfl, rfl, hr⟩ := h
  rw [option_of_toList roleAnnotationToSexpr_injective hr]

-- ── The state clause ────

/-- What a signature binds of a certification: whether it is a quorum, its validators in order,
    and the fault bound its committee resolves to. -/
structure CertificationForm where
  validators : Option (List String)
  bound : Option UInt32
deriving DecidableEq

/-- The normal form of a certification. -/
def certificationForm : Certification → Option CertificationForm
  | .hostGate => none
  | .quorumBudget validators faults =>
      some ⟨validators.map (·.insertionSort (· ≤ ·)), writtenBound validators faults⟩

/-- The arguments a normal form is written with. -/
def CertificationForm.arguments (c : CertificationForm) : List SExpr :=
  [sym "quorum-budget"]
    ++ (c.validators.map fun keys => form "validators" (keys.map sym)).toList
    ++ (c.bound.map fun f => form "faults" [numU32 f]).toList

theorem certificationOption_eq (c : Certification) : certificationOption c =
    (certificationForm c).map fun f => form "certification" f.arguments := by
  cases c with
  | hostGate => rfl
  | quorumBudget validators faults =>
      cases validators with
      | none => rfl
      | some keys => rfl

theorem certificationArguments_injective : Function.Injective CertificationForm.arguments := by
  rintro ⟨v, b⟩ ⟨w, c⟩ h
  have hv := congrArg (sections "validators") h
  have hb := congrArg (sections "faults") h
  simp only [CertificationForm.arguments, sections_append, sections_sym, sections_nil,
    sections_option, String.reduceEq, if_true, if_false, List.append_nil, List.nil_append] at hv hb
  rw [option_of_toList (List.map_injective_iff.mpr sym_injective) hv,
    option_of_toList (fun a b h => by simpa using h) hb]

/-- A counter without its certification. -/
def uncertified (c : CounterRule) : CounterRule := { c with certification := .hostGate }

/-- The recipient and amount of a transfer, written out. -/
theorem transferArguments_injective : Function.Injective fun t : String × String × String =>
    [sym t.1, kw t.2.1, kw t.2.2] := by
  rintro ⟨a, b, k⟩ ⟨a', b', k'⟩ h
  simpa using h

/-- The options of a counter, the certification taken from its normal form. -/
theorem canonicalOptions_injective {c e : CounterRule}
    (h : canonicalOptions c = canonicalOptions e) :
    uncertified c = uncertified e ∧
      certificationForm c.certification = certificationForm e.certification := by
  have hsec : ∀ head, sections head (canonicalOptions c) = sections head (canonicalOptions e) :=
    fun head => by rw [h]
  simp only [canonicalOptions, certificationOption_eq, sections_append, sections_form,
    sections_nil, sections_option] at hsec
  have hown : c.ownership = e.ownership := by
    have hs := hsec "ownership"
    cases hc : c.ownership <;> cases he : e.ownership <;> simp [hc, he] at hs ⊢
  obtain ⟨o, hc, he⟩ : ∃ o, c.ownership = o ∧ e.ownership = o := ⟨_, rfl, hown.symm⟩
  simp only [hc, he] at hsec
  have hfloor : c.floor = e.floor := by cases o <;> simpa using hsec "floor"
  have hceiling : c.ceiling = e.ceiling :=
    option_of_toList (f := fun n => [SExpr.atom (.num n)]) (fun a b h => by simpa using h)
      (by cases o <;> simpa using hsec "ceiling")
  have hcert : certificationForm c.certification = certificationForm e.certification :=
    option_of_toList certificationArguments_injective
      (by cases o <;> simpa using hsec "certification")
  have hinitial : c.initial_verb = e.initial_verb ∧ c.initial_key = e.initial_key := by
    cases o with
    | account => simpa using hsec "initial-rights"
    | collective => simpa using hsec "initial"
  have hheadroom : c.headroom_key = e.headroom_key := by
    refine option_of_toList (f := fun k => [sym c.initial_verb, kw k])
      (fun a b h => by simpa using h) ?_
    conv_rhs => rw [hinitial.1]
    cases o <;> simpa using hsec "initial-headroom"
  have hissuer : c.issuer = e.issuer := by
    have hs : (if c.issuer = "" then SExpr.list [] else sym c.issuer) =
        if e.issuer = "" then SExpr.list [] else sym e.issuer := by
      cases o <;> simpa using hsec "issuers"
    by_cases hce : c.issuer = "" <;> by_cases hee : e.issuer = "" <;> simp [hce, hee, sym] at hs ⊢
    exact hs
  have hinc : c.increment = e.increment :=
    Prod.ext_iff.mpr (by cases o <;> simpa using hsec "increment")
  have hdec : c.decrement = e.decrement :=
    Prod.ext_iff.mpr (by cases o <;> simpa using hsec "decrement")
  have htransfer : c.transfer = e.transfer :=
    option_of_toList transferArguments_injective (by cases o <;> simpa using hsec "transfer")
  have hspace : c.transfer_headroom = e.transfer_headroom :=
    option_of_toList transferArguments_injective
      (by cases o <;> simpa using hsec "transfer-headroom")
  refine ⟨?_, hcert⟩
  cases c
  cases e
  simp only at *
  simp [uncertified, *]

/-- A counter's options depend on its certification through the normal form alone. -/
theorem canonicalOptions_congr {c e : CounterRule} (h : uncertified c = uncertified e)
    (hcert : certificationForm c.certification = certificationForm e.certification) :
    canonicalOptions c = canonicalOptions e := by
  cases c
  cases e
  simp only [uncertified, CounterRule.mk.injEq, true_and] at h
  simp only at hcert
  obtain ⟨rfl, rfl, rfl, rfl, rfl, rfl, rfl, rfl, rfl, rfl, rfl⟩ := h
  simp only [canonicalOptions, certificationOption_eq, hcert]

/-- What a signature binds of a rule: the rule without its certification, and the normal form. -/
def ruleForm : Rule → Rule × Option CertificationForm
  | .boundedCounter c => (.boundedCounter (uncertified c), certificationForm c.certification)
  | rule => (rule, none)

/-- A rule is read back from its head and arguments. -/
theorem ruleForm_of_written {r s : Rule} (hhead : ruleHead r = ruleHead s)
    (hargs : ruleArguments r = ruleArguments s) : ruleForm r = ruleForm s := by
  cases r <;> cases s <;> simp only [ruleHead, String.reduceEq] at hhead
  case boundedCounter.boundedCounter c e =>
    obtain ⟨hc, hcert⟩ := canonicalOptions_injective hargs
    simp only [ruleForm, hc, hcert]
  case lwwMap.lwwMap =>
    simp only [ruleArguments, List.cons_append, List.nil_append, List.cons.injEq, str_inj] at hargs
    obtain ⟨rfl, rfl, rfl, rfl, hdelete⟩ := hargs
    rw [option_of_toList str_injective hdelete]
  case valuesPerKey.valuesPerKey =>
    simp only [ruleArguments, List.cons_append, List.nil_append, List.cons.injEq, str_inj] at hargs
    obtain ⟨rfl, rfl, rfl, hdelete⟩ := hargs
    rw [option_of_toList str_injective hdelete]
  all_goals
    simp only [ruleArguments, List.cons.injEq, str_inj, and_true] at hargs
    simp only [ruleForm, hargs]

/-- A rule is written from what a signature binds of it. -/
theorem written_of_ruleForm {r s : Rule} (h : ruleForm r = ruleForm s) :
    ruleHead r = ruleHead s ∧ ruleArguments r = ruleArguments s := by
  cases r <;> cases s <;> simp only [ruleForm, Prod.mk.injEq, reduceCtorEq, false_and,
    and_true] at h
  case boundedCounter.boundedCounter c e =>
    obtain ⟨hc, hcert⟩ := h
    injection hc with hc
    exact ⟨rfl, canonicalOptions_congr hc hcert⟩
  all_goals
    rw [h]
    exact ⟨rfl, rfl⟩

/-- What a signature binds of an entry. -/
def entryForm : Entry → Entry × Option CertificationForm
  | .field name rule => (.field name (ruleForm rule).1, (ruleForm rule).2)
  | .domain verb key field => (.domain verb key field, none)

/-- Two entries are written alike exactly when a signature binds the same of them. -/
theorem entryToSexpr_eq_iff {a b : Entry} :
    entryToSexpr a = entryToSexpr b ↔ entryForm a = entryForm b := by
  cases a with
  | domain verb key field =>
      cases b <;> simp [entryToSexpr, entryForm]
  | field name rule =>
      cases b with
      | domain verb key field => simp [entryToSexpr, entryForm]
      | field name' rule' =>
          simp only [entryToSexpr, entryForm, form_inj, List.cons.injEq, str_inj, true_and,
            and_true, Prod.mk.injEq, Entry.field.injEq]
          constructor
          · rintro ⟨rfl, hhead, hargs⟩
            have h := ruleForm_of_written hhead hargs
            exact ⟨⟨rfl, congrArg Prod.fst h⟩, congrArg Prod.snd h⟩
          · rintro ⟨⟨rfl, hrule⟩, hcert⟩
            exact ⟨rfl, written_of_ruleForm (Prod.ext hrule hcert)⟩

/-- What a signature binds of a state clause. -/
def clauseForm (clause : StateClause) : List (Entry × Option CertificationForm) :=
  clause.entries.map entryForm

/-- Mapped lists agree whenever their items do. -/
theorem map_eq_map_iff_of_eq_iff {α β γ : Type} {f : α → β} {g : α → γ}
    (h : ∀ a b, f a = f b ↔ g a = g b) : ∀ {xs ys : List α},
    xs.map f = ys.map f ↔ xs.map g = ys.map g
  | [], [] => by simp
  | [], y :: ys => by simp
  | x :: xs, [] => by simp
  | x :: xs, y :: ys => by
      rw [List.map_cons, List.map_cons, List.map_cons, List.map_cons, List.cons.injEq,
        List.cons.injEq, h x y, map_eq_map_iff_of_eq_iff h]

theorem stateToSexpr_eq_iff {c e : StateClause} :
    stateToSexpr c = stateToSexpr e ↔ clauseForm c = clauseForm e := by
  unfold stateToSexpr clauseForm
  rw [form_inj, map_eq_map_iff_of_eq_iff fun a b => entryToSexpr_eq_iff]
  exact ⟨And.right, fun h => ⟨rfl, h⟩⟩

-- ── Dialects ────

/-- The declared mode of causal locality, without the routes an installation derives. -/
def derives : CausalLocality → Bool
  | .reject => false
  | .derive _ => true

/-- Two dialects that declare the same. -/
structure DeclaredAlike (d e : Dialect) : Prop where
  name : d.name = e.name
  parents : d.extends = e.extends
  author : d.author = e.author
  performatives : d.performatives = e.performatives
  resources : d.resources = e.resources
  examples : d.examples = e.examples
  causal_protocol : d.causal_protocol = e.causal_protocol
  shapes : d.shapes = e.shapes
  roles : d.roles = e.roles
  causal_locality : derives d.causal_locality = derives e.causal_locality
  state : d.state.map clauseForm = e.state.map clauseForm
  state_bounds : d.state_bounds = e.state_bounds

/-- The sections a dialect need not have. -/
def optionalSections (d : Dialect) : List SExpr :=
  (d.causal_protocol.map protocolToSexpr).toList
    ++ (if d.shapes.isEmpty then [] else [shapesToSexpr d.shapes])
    ++ (if d.roles.isEmpty then [] else [rolesToSexpr d.roles])
    ++ localitySection d.causal_locality
    ++ (d.state.map stateToSexpr).toList
    ++ (d.state_bounds.map stateBoundsToSexpr).toList

theorem toSignableSexpr_eq (d : Dialect) : toSignableSexpr d =
    form "dialect" ([str d.name, form "extends" (d.extends.map str),
      form "author" (d.author.map str).toList,
      form "performatives" (d.performatives.map performativeToSexpr),
      resourcesToSexpr d.resources, form "examples" d.examples] ++ optionalSections d) := by
  simp only [toSignableSexpr, optionalSections, List.append_assoc]

section Head

variable (head : String)

theorem sections_protocol (o : Option CausalProtocol) :
    sections head (o.map protocolToSexpr).toList = if "causal-protocol" = head then
      (o.map fun p => (valuesOf p.steps).map stepToSexpr).toList else [] :=
  sections_option head "causal-protocol"
    (fun p : CausalProtocol => (valuesOf p.steps).map stepToSexpr) o

theorem sections_state (o : Option StateClause) :
    sections head (o.map stateToSexpr).toList = if "state" = head then
      (o.map fun c => c.entries.map entryToSexpr).toList else [] :=
  sections_option head "state" (fun c : StateClause => c.entries.map entryToSexpr) o

theorem sections_stateBounds (o : Option StateBounds) :
    sections head (o.map stateBoundsToSexpr).toList = if "state-bounds" = head then
      (o.map fun b => [numU32 b.max_string, numU32 b.max_list, .atom (.num b.max_number),
        numU32 b.max_fields]).toList else [] :=
  sections_option head "state-bounds" _ o

/-- The section of a list that is written when it is not empty. -/
theorem sections_list {α : Type} (h : String) (f : α → SExpr) (xs : List α) :
    sections head (if xs.isEmpty then [] else [form h (xs.map f)]) =
      if h = head ∧ xs ≠ [] then [xs.map f] else [] := by
  cases xs with
  | nil => simp
  | cons x xs => simp

theorem sections_locality (mode : CausalLocality) :
    sections head (localitySection mode) =
      if "causal-locality" = head ∧ derives mode = true then [[sym "derive"]] else [] := by
  cases mode with
  | reject => simp [localitySection, derives]
  | derive routes => simp [localitySection, derives]

/-- The sections of one head among the optional ones. -/
theorem sections_optional (d : Dialect) : sections head (optionalSections d) =
    (if "causal-protocol" = head then
      (d.causal_protocol.map fun p => (valuesOf p.steps).map stepToSexpr).toList else [])
    ++ (if "shapes" = head ∧ d.shapes ≠ [] then [d.shapes.map shapeToSexpr] else [])
    ++ (if "roles" = head ∧ d.roles ≠ [] then [d.roles.map fun r =>
        form "role-decl" [str r.name, sym (cardinalityName r.cardinality)]] else [])
    ++ (if "causal-locality" = head ∧ derives d.causal_locality = true then [[sym "derive"]]
        else [])
    ++ (if "state" = head then
        (d.state.map fun c => c.entries.map entryToSexpr).toList else [])
    ++ (if "state-bounds" = head then
        (d.state_bounds.map fun b => [numU32 b.max_string, numU32 b.max_list,
          .atom (.num b.max_number), numU32 b.max_fields]).toList else []) := by
  unfold optionalSections shapesToSexpr rolesToSexpr
  simp only [sections_append, sections_protocol, sections_state, sections_stateBounds,
    sections_list, sections_locality]

end Head

/-- A list written when it is not empty is read back. -/
theorem list_of_section {α : Type} {f : α → SExpr} (hf : Function.Injective f) {xs ys : List α}
    (h : (if xs ≠ [] then [xs.map f] else []) = if ys ≠ [] then [ys.map f] else []) : xs = ys := by
  by_cases hx : xs = [] <;> by_cases hy : ys = [] <;> simp [hx, hy] at h ⊢
  exact List.map_injective_iff.mpr hf h

theorem resourcesToSexpr_injective : Function.Injective resourcesToSexpr := by
  rintro ⟨a, b, c⟩ ⟨a', b', c'⟩ h
  simpa [resourcesToSexpr] using h

theorem stateBoundsToSexpr_injective : Function.Injective stateBoundsToSexpr := by
  rintro ⟨a, b, c, d⟩ ⟨a', b', c', d'⟩ h
  simpa [stateBoundsToSexpr] using h

/-- What the optional sections of two dialects that are written alike say. -/
theorem declared_of_optional {d e : Dialect}
    (hd : ∀ p, d.causal_protocol = some p → StepsKeyed p)
    (he : ∀ p, e.causal_protocol = some p → StepsKeyed p)
    (h : optionalSections d = optionalSections e) :
    d.causal_protocol = e.causal_protocol ∧ d.shapes = e.shapes ∧ d.roles = e.roles ∧
      derives d.causal_locality = derives e.causal_locality ∧
      d.state.map clauseForm = e.state.map clauseForm ∧ d.state_bounds = e.state_bounds := by
  have hsec : ∀ head, sections head (optionalSections d) = sections head (optionalSections e) :=
    fun head => by rw [h]
  simp only [sections_optional] at hsec
  refine ⟨?_, ?_, ?_, ?_, ?_, ?_⟩
  · have hs := hsec "causal-protocol"
    simp only [if_true, String.reduceEq, false_and, if_false, List.append_nil] at hs
    cases hdp : d.causal_protocol with
    | none => cases hep : e.causal_protocol <;> simp [hdp, hep] at hs ⊢
    | some p =>
        cases hep : e.causal_protocol with
        | none => simp [hdp, hep] at hs
        | some q =>
            rw [hdp, hep] at hs
            simp only [Option.map_some, Option.toList_some, List.cons.injEq, and_true] at hs
            rw [protocolToSexpr_injective (hd p hdp) (he q hep) (form_inj.mpr ⟨rfl, hs⟩)]
  · exact list_of_section shapeToSexpr_injective (by simpa using hsec "shapes")
  · exact list_of_section roleDecl_injective (by simpa using hsec "roles")
  · have hs := hsec "causal-locality"
    cases hdm : derives d.causal_locality <;> cases hem : derives e.causal_locality <;>
      simp [hdm, hem] at hs ⊢
  · have hs := hsec "state"
    cases hdc : d.state <;> cases hec : e.state <;> simp [hdc, hec] at hs ⊢
    exact (map_eq_map_iff_of_eq_iff fun a b => entryToSexpr_eq_iff).mp hs
  · exact option_of_toList (fun a b hab => stateBoundsToSexpr_injective (form_inj.mpr ⟨rfl, hab⟩))
      (by simpa using hsec "state-bounds")

/-- Dialects that declare the same have the same optional sections. -/
theorem optional_of_declared {d e : Dialect} (h : DeclaredAlike d e) :
    optionalSections d = optionalSections e := by
  have hlocality : localitySection d.causal_locality = localitySection e.causal_locality := by
    have hm := h.causal_locality
    cases hd : d.causal_locality <;> cases he : e.causal_locality <;>
      simp [hd, he, derives, localitySection] at hm ⊢
  have hstate : d.state.map stateToSexpr = e.state.map stateToSexpr := by
    have hs := h.state
    cases hd : d.state <;> cases he : e.state <;> simp [hd, he] at hs ⊢
    exact stateToSexpr_eq_iff.mpr hs
  unfold optionalSections
  rw [h.causal_protocol, h.shapes, h.roles, hlocality, hstate, h.state_bounds]

/-- **A dialect signature binds the whole dialect**: two dialects have the same signing octets
    exactly when they declare the same. -/
theorem dialectCanonicalBytes_eq_iff (d e : Dialect)
    (hd : ∀ p, d.causal_protocol = some p → StepsKeyed p)
    (he : ∀ p, e.causal_protocol = some p → StepsKeyed p) :
    dialectCanonicalBytes d = dialectCanonicalBytes e ↔ DeclaredAlike d e := by
  unfold dialectCanonicalBytes
  rw [encode_uniquely_decodable.2.1.eq_iff, toSignableSexpr_eq, toSignableSexpr_eq, form_inj]
  constructor
  · rintro ⟨-, h⟩
    simp only [List.cons_append, List.nil_append, List.cons.injEq, str_inj, form_inj, true_and] at h
    obtain ⟨hname, hparents, hauthor, hperfs, hresources, hexamples, hoptional⟩ := h
    obtain ⟨hprotocol, hshapes, hroles, hlocality, hstate, hbounds⟩ :=
      declared_of_optional hd he hoptional
    exact ⟨hname, map_str_injective hparents, option_of_toList str_injective hauthor,
      List.map_injective_iff.mpr performativeToSexpr_injective hperfs,
      resourcesToSexpr_injective hresources, hexamples, hprotocol, hshapes, hroles, hlocality,
      hstate, hbounds⟩
  · intro h
    refine ⟨rfl, ?_⟩
    rw [h.name, h.parents, h.author, h.performatives, h.resources, h.examples,
      optional_of_declared h]

/-- A dialect of one step. -/
def offerDialect (mode : CausalLocality) : Dialect :=
  { baseDialect with
    name := "trade"
    causal_protocol := some ⟨(∅ : BTreeMap String StepDecl).insert "offer"
      ⟨"offer", [.single BEGIN_KEYWORD], []⟩⟩
    causal_locality := mode }

theorem offerDialect_keyed (mode : CausalLocality) :
    ∀ p, (offerDialect mode).causal_protocol = some p → StepsKeyed p := by
  rintro p hp k s hs
  injection hp with hp
  subst hp
  rw [getElem?_insert_eq] at hs
  by_cases hk : k = "offer"
  · rw [if_pos hk] at hs
    injection hs with hs
    rw [← hs, hk]
  · rw [if_neg hk] at hs
    simp at hs

/-- The declared mode is signed, the routes derived from it are not. -/
theorem dialectCanonicalBytes_offer :
    dialectCanonicalBytes (offerDialect .reject) ≠ dialectCanonicalBytes (offerDialect (.derive ∅))
      ∧ dialectCanonicalBytes (offerDialect (.derive ∅)) = dialectCanonicalBytes
        (offerDialect (.derive ((∅ : BTreeMap String (BTreeSet String)).insert "offer" ∅))) := by
  refine ⟨fun h => ?_, ?_⟩
  · have hmode := ((dialectCanonicalBytes_eq_iff _ _ (offerDialect_keyed _)
      (offerDialect_keyed _)).mp h).causal_locality
    exact nomatch hmode
  · exact (dialectCanonicalBytes_eq_iff _ _ (offerDialect_keyed _) (offerDialect_keyed _)).mpr
      ⟨rfl, rfl, rfl, rfl, rfl, rfl, rfl, rfl, rfl, rfl, rfl, rfl⟩

end CbclDialectCanonical
