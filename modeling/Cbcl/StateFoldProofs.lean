import Cbcl.StateProgressProofs

/-!
# The fold is its set semantics

Field by field the fold computes what the clause means over the set of its acts
(`fold_eq_meaning`), so neither order nor repetition of the acts shows.  Two rules look past
the metadata of an act into its message: a bounded counter re-derives the metadata and stops
at the first act that disagrees with it, and progress files messages under both spellings of
their address.  For these the acts must carry the metadata of their own messages.

Acts built from signed messages always do; what the fold then still needs is that acts which
share an address agree, since deduplication keeps the first (`folds_converge`).
-/

namespace CbclStateFold

open CbclMessage CbclProtocol CbclAct CbclEscrow CbclEscrowObservation CbclState
  CbclStateMeaning CbclStateSelection CbclStateProgress CbclTreeMap
open scoped Classical

variable {contentHash : Message → String}

-- ── Bounded counters ────

/-- Two filed histories with the same acts have the same view. -/
theorem viewOf_congr {c : CounterRule} {acts acts' : List Act} {all all' : BTreeMap String Act}
    (h : FiledActs contentHash acts all) (h' : FiledActs contentHash acts' all')
    (hsame : ∀ a, a ∈ acts ↔ a ∈ acts') :
    (viewOf c h).all = (viewOf c h').all ∧ (viewOf c h).present = (viewOf c h').present := by
  have hpresent : ∀ k, (viewOf c h).present k = (viewOf c h').present k := by
    intro k
    rw [Bool.eq_iff_iff, present_viewOf, present_viewOf]
    simp only [hsame]
  refine ⟨Std.ExtTreeMap.ext_getElem? fun k => ?_, funext hpresent⟩
  by_cases hk : ∃ a ∈ acts, a.address = k
  · obtain ⟨a, ha, rfl⟩ := hk
    rw [fact_viewOf h ha, fact_viewOf h' ((hsame a).mp ha)]
  · have hnone : ∀ {V : CbclEscrowHistory.View}, V.present k ≠ true → V.all[k]? = none := by
      intro V hV
      by_contra hsome
      obtain ⟨f, hf⟩ := Option.ne_none_iff_exists'.mp hsome
      exact hV (V.present_of_fact hf)
    have hno : (viewOf c h).present k ≠ true := fun hp => hk ((present_viewOf h).mp hp)
    rw [hnone hno, hnone (by rw [← hpresent]; exact hno)]

/-- **Observation reads a set of consistent acts.** -/
theorem observe_congr (c : CounterRule) {acts acts' : List Act} (hkeyed : Keyed acts)
    (hcons : ∀ a ∈ acts, Consistent contentHash a) (hsame : ∀ a, a ∈ acts ↔ a ∈ acts') :
    observe contentHash c acts = observe contentHash c acts' := by
  cases hprofile : checkProfile c with
  | error stop =>
      unfold CbclEscrow.observe
      rw [hprofile]
      rfl
  | ok u =>
      have hidentity : ∀ a ∈ acts, ∀ b ∈ acts, a.address = b.address → SameIdentity a b := by
        intro a ha b hb hab
        rw [hkeyed a ha b hb hab]
        exact SameIdentity.refl b
      have hcons' : ∀ a ∈ acts', Consistent contentHash a := fun a ha =>
        hcons a ((hsame a).mpr ha)
      have hidentity' : ∀ a ∈ acts', ∀ b ∈ acts', a.address = b.address → SameIdentity a b :=
        fun a ha b hb => hidentity a ((hsame a).mpr ha) b ((hsame b).mpr hb)
      obtain ⟨all, hf, hobs⟩ := observe_filed (c := c) hprofile hcons hidentity
      obtain ⟨all', hf', hobs'⟩ := observe_filed (c := c) hprofile hcons' hidentity'
      obtain ⟨hall, hpresent⟩ := viewOf_congr (c := c) hf hf' hsame
      rw [hobs, hobs', hall, hpresent]

-- ── Rules ────

/-- The rules that look past an act's metadata into its message. -/
def readsMessages : Rule → Bool
  | .boundedCounter _ => true
  | .progress _ => true
  | _ => false

/-- **One rule.** -/
theorem eval_eq {xs : List Act} {S : Finset Act} (h : Enumerates xs S) (domains : Domains)
    (rule : Rule) (hcons : readsMessages rule = true → ∀ a ∈ xs, Consistent contentHash a)
    (done : State) (protocol : Option CausalProtocol) :
    (Kernel.mk xs domains).eval contentHash rule done protocol
      = ruleMeaning contentHash domains S done protocol rule := by
  cases rule with
  | boundedCounter c =>
      unfold Kernel.eval ruleMeaning
      refine congrArg outcomeValue (observe_congr c ?_ (hcons rfl) fun a => ?_)
      · exact fun a ha b hb hab => h.same ha hb hab
      · rw [Finset.mem_toList]
        exact h.mem a
  | lwwRegister verb key clock => exact pickLww_eq (enumerates_acts h domains verb) key clock
  | lwwPerSigner verb key clock =>
      exact congrArg Value.map (groupBySigner_eq (enumerates_currentBySigner h domains verb)
        (G := fun T => lww T key clock) fun ys T hT => pickLww_eq hT key clock)
  | lwwMap verb key value clock delete =>
      exact groupByKey_eq (enumerates_current h domains verb (some key) delete) key
        (G := fun T => lww T value clock) fun ys T hT => pickLww_eq hT value clock
  | initial verb key =>
      exact initialOf_eq (h.filter fun a => by rw [Finset.mem_filter, decide_eq_true_eq]) key
  | «exists» verb => exact congrArg Value.bool (enumerates_acts h domains verb).isEmpty
  | count verb =>
      exact congrArg (fun n : Nat => Value.int n) (enumerates_acts h domains verb).length
  | progress verb =>
      exact congrArg (fun n : Nat => Value.int n) (progress_eq h (hcons rfl) protocol verb)
  | events verb key => exact events_eq h domains verb key
  | setUnion verb key => exact distinct_eq (enumerates_acts h domains verb) key
  | values verb key => exact distinct_eq (enumerates_current h domains verb none none) key
  | valuesPerKey verb key value delete =>
      exact groupByKey_eq (enumerates_current h domains verb (some key) delete) key
        (G := fun T => setValue (valuesIn T value)) fun ys T hT => distinct_eq hT value
  | observedSet add remove key =>
      exact distinct_eq (enumerates_current h domains add (some key) (some remove)) key
  | counter inc dec key =>
      refine congrArg Value.int ?_
      rw [sumOf_eq (enumerates_acts h domains inc), sumOf_eq (enumerates_acts h domains dec)]
  | histogram field => exact histogramOf_eq done field
  | sum field =>
      refine congrArg Value.int ?_
      induction entriesOf done field with
      | nil => rfl
      | cons e rest ih =>
          rw [List.map_cons, List.sum_cons, ← ih, List.filterMap_cons]
          cases e.2.asInt <;> simp

-- ── Clauses ────

/-- Where a clause has a rule that looks into messages, acts carry their own metadata. -/
def Faithful (contentHash : Message → String) (clause : StateClause) (acts : List Act) : Prop :=
  (∃ f ∈ clause.fields, readsMessages f.2 = true) → ∀ a ∈ acts, Consistent contentHash a

theorem ruleOf_mem {clause : StateClause} {field : String} {rule : Rule}
    (h : clause.ruleOf field = some rule) : ∃ f ∈ clause.fields, f.2 = rule := by
  obtain ⟨f, hf, rfl⟩ := Option.map_eq_some_iff.mp h
  exact ⟨f, List.mem_of_find?_eq_some hf, rfl⟩

section Clause

variable {clause : StateClause} {acts : List Act} (hkeyed : Keyed acts)
  (hfaithful : Faithful contentHash clause acts)
include hkeyed hfaithful

/-- The kernel resolves the domains the clause means. -/
theorem kernelFor_eq : kernelFor contentHash clause acts
    = ⟨dedupByAddress acts, domainsOf contentHash clause acts.toFinset⟩ := by
  have henum := enumerates_dedup hkeyed
  unfold kernelFor domainsOf
  refine congrArg (Kernel.mk _) (List.map_congr_left fun d _ => ?_)
  obtain ⟨verb, key, field⟩ := d
  dsimp only
  cases hrule : clause.ruleOf field with
  | none => rfl
  | some rule =>
      obtain ⟨f, hf, rfl⟩ := ruleOf_mem hrule
      have hcons : readsMessages f.2 = true →
          ∀ a ∈ dedupByAddress acts, Consistent contentHash a := fun hreads a ha =>
        hfaithful ⟨f, hf, hreads⟩ a ((dedupByAddress_spec acts).2.1 a ha)
      show (verb, key, allowedValues _) = (verb, key, allowedValues _)
      rw [eval_eq henum [] f.2 hcons [] none]

/-- The value of one field of a clause. -/
theorem fieldValue_eq {f : String × Rule} (hf : f ∈ clause.fields) (done : State)
    (protocol : Option CausalProtocol) :
    fieldValue contentHash clause protocol acts done f.2
      = ruleMeaning contentHash (domainsOf contentHash clause acts.toFinset) acts.toFinset done
        protocol f.2 := by
  have hmem := (dedupByAddress_spec acts).2.1
  have heval := eval_eq (enumerates_dedup hkeyed) (domainsOf contentHash clause acts.toFinset)
    f.2 (fun hreads a ha => hfaithful ⟨f, hf, hreads⟩ a (hmem a ha)) done protocol
  rw [← kernelFor_eq hkeyed hfaithful] at heval
  unfold fieldValue
  split
  · -- a bounded counter reads the acts as given, repetitions included
    rename_i c hc
    have hcons : ∀ a ∈ acts, Consistent contentHash a :=
      hfaithful ⟨f, hf, by rw [hc]; rfl⟩
    rw [hc]
    refine congrArg outcomeValue (observe_congr c hkeyed hcons fun a => ?_)
    rw [Finset.mem_toList, List.mem_toFinset]
  · exact heval

/-- **The fold is the meaning of its clause.** -/
theorem fold_eq_meaning (protocol : Option CausalProtocol) :
    fold contentHash clause protocol acts
      = clauseMeaning contentHash clause protocol acts.toFinset := by
  unfold fold clauseMeaning
  refine List.foldl_ext _ _ [] fun done f hf => ?_
  exact congrArg (fun v => done ++ [(f.1, v)]) (fieldValue_eq hkeyed hfaithful hf done protocol)

/-- The fold reads a set of acts. -/
theorem fold_congr (protocol : Option CausalProtocol) {acts' : List Act}
    (hsame : ∀ a, a ∈ acts' ↔ a ∈ acts) :
    fold contentHash clause protocol acts' = fold contentHash clause protocol acts := by
  have hkeyed' : Keyed acts' := fun a ha b hb =>
    hkeyed a ((hsame a).mp ha) b ((hsame b).mp hb)
  have hfaithful' : Faithful contentHash clause acts' := fun hreads a ha =>
    hfaithful hreads a ((hsame a).mp ha)
  have hset : acts'.toFinset = acts.toFinset := by
    ext a
    rw [List.mem_toFinset, List.mem_toFinset, hsame]
  rw [fold_eq_meaning hkeyed hfaithful, fold_eq_meaning hkeyed' hfaithful', hset]

end Clause

/-- **The fold equals its set semantics.**  Over acts whose equal addresses carry equal acts,
    and that carry their own metadata where a rule looks into messages, the fold is the meaning
    of the clause over the set of the acts; permuting or repeating acts changes nothing. -/
theorem fold_set_semantics (contentHash : Message → String) (clause : StateClause)
    (protocol : Option CausalProtocol) (acts : List Act) (hkeyed : Keyed acts)
    (hfaithful : Faithful contentHash clause acts) :
    fold contentHash clause protocol acts
        = clauseMeaning contentHash clause protocol acts.toFinset ∧
      ∀ acts' : List Act, (∀ a, a ∈ acts' ↔ a ∈ acts) →
        fold contentHash clause protocol acts' = fold contentHash clause protocol acts :=
  ⟨fold_eq_meaning hkeyed hfaithful protocol, fun _ hsame =>
    fold_congr hkeyed hfaithful protocol hsame⟩

/-- The fields of a small till: a counter of its own and the escrow behind it. -/
def tillClause : StateClause :=
  ⟨[.field "taken" (.counter "take" "put" "n"), .field "till" (.boundedCounter tillRule),
    .field "steps" (.progress "take")]⟩

theorem tillActs_consistent (n : Nat) : ∀ a ∈ tillActs n, Consistent tillHash a := by
  intro a ha
  obtain ⟨m, -, hm⟩ := List.mem_filterMap.mp ha
  cases hr : Act.fromMessage tillHash m "@a" with
  | error e => rw [hr] at hm; exact nomatch hm
  | ok b =>
      rw [hr] at hm
      injection hm with hm
      rw [← hm]
      exact consistent_fromMessage hr

theorem fold_set_semantics_till :
    Keyed (tillActs 3) ∧ Faithful tillHash tillClause (tillActs 3) ∧
      fold tillHash tillClause none (tillActs 3)
        = clauseMeaning tillHash tillClause none (tillActs 3).toFinset := by
  have hnodup : ((tillActs 3).map (·.address)).Nodup := by decide +kernel
  have hkeyed : Keyed (tillActs 3) := fun a ha b hb heq =>
    List.inj_on_of_nodup_map hnodup ha hb heq
  have hfaithful : Faithful tillHash tillClause (tillActs 3) := fun _ =>
    tillActs_consistent 3
  exact ⟨hkeyed, hfaithful,
    (fold_set_semantics tillHash tillClause none (tillActs 3) hkeyed hfaithful).1⟩

-- ── Where order shows ────

/-- A hash that tells verbs apart. -/
def verbHash : Message → String
  | .simple (.custom verb) .. => "sha256:" ++ verb
  | _ => "sha256:"

/-- An act of a verb in one thread, signed and with a cause, and filed under an address of its
    own choosing. -/
def strayAct (verb signer address : String) (cause : CausedBy) : Act where
  address
  verb
  signer
  predecessors := cause.hashes
  recipients := ∅
  fields := ∅
  message := .simple (.custom verb) none (.list []) [] (some "t") none (some cause)

/-- Two acts that are not filed under the addresses of their messages. -/
def strayTill : List Act := [strayAct "put" "@a" "x" .begin, strayAct "take" "@a" "y" .begin]

/-- A protocol of two openers, one of which `last` follows. -/
def strayProtocol : CausalProtocol where
  steps := (((∅ : BTreeMap String StepDecl).insert "begin" ⟨"begin", [], []⟩
    |>.insert "first" ⟨"first", [.single "begin"], []⟩).insert "other"
      ⟨"other", [.single "begin"], []⟩).insert "last" ⟨"last", [.single "first"], []⟩

/-- Three acts, the first of which takes the native address of the second. -/
def straySteps : List Act :=
  [strayAct "first" "@a" "sha256:other" .begin, strayAct "other" "@a" "sha256-other" .begin,
    strayAct "last" "@a" "sha256-last" (.single "sha256:other")]

/-- Ballots of two signers whose names sort one way and their renderings the other. -/
def ballots : List Act :=
  [strayAct "vote" "@a" "sha256-1" .begin, strayAct "vote" "@a!" "sha256-2" .begin]

/-- Acts that misstate their metadata show their order to a bounded counter and to progress,
    and the entries of a per-signer register are not sorted by rendering. -/
theorem fold_order_shows :
    (Keyed strayTill ∧ renderJson (fold verbHash tillClause none strayTill.reverse)
      ≠ renderJson (fold verbHash tillClause none strayTill)) ∧
    (Keyed straySteps ∧
      renderJson (fold verbHash ⟨[.field "steps" (.progress "last")]⟩ (some strayProtocol)
          [straySteps[1], straySteps[0], straySteps[2]])
        ≠ renderJson (fold verbHash ⟨[.field "steps" (.progress "last")]⟩ (some strayProtocol)
          straySteps)) ∧
    (Keyed ballots ∧ ¬ (entriesOf (fold verbHash
      ⟨[.field "votes" (.lwwPerSigner "vote" "choice" "clock")]⟩ none ballots)
        "votes").Pairwise fun a b => a.1.render ≤ b.1.render) := by
  unfold Keyed
  decide +kernel

/-- The ballots name their signers in the order of their addresses. -/
example : ballots.map (·.signer) = ["@a", "@a!"] := by decide

-- ── Signed messages ────

/-- The acts of some signed messages. -/
def actsOf (contentHash : Message → String) (signed : List (Message × String)) : List Act :=
  signed.filterMap fun (m, signer) => (Act.fromMessage contentHash m signer).toOption

theorem actsOf_consistent (signed : List (Message × String)) :
    ∀ a ∈ actsOf contentHash signed, Consistent contentHash a := by
  intro a ha
  obtain ⟨⟨m, signer⟩, -, hm⟩ := List.mem_filterMap.mp ha
  dsimp only at hm
  cases hr : Act.fromMessage contentHash m signer with
  | error e => rw [hr] at hm; exact nomatch hm
  | ok b =>
      rw [hr] at hm
      injection hm with hm
      rw [← hm]
      exact consistent_fromMessage hr

/-- The rules that read verbs, fields and addresses only. -/
def readsContent : Rule → Bool
  | .initial .. => true
  | .exists .. => true
  | .count .. => true
  | .setUnion .. => true
  | .values .. => true
  | .valuesPerKey .. => true
  | .observedSet .. => true
  | .counter .. => true
  | .histogram .. => true
  | .sum .. => true
  | _ => false

theorem not_readsMessages {rule : Rule} (h : readsContent rule = true) :
    readsMessages rule = false := by
  cases rule with
  | boundedCounter c => exact nomatch h
  | progress verb => exact nomatch h
  | _ => rfl

/-- An act without its signer, its wrappers and its causes. -/
def content (a : Act) : Act :=
  { a with
    signer := ""
    predecessors := []
    recipients := ∅
    message := .simple (.core .hello) none (.list []) [] none none none }

section Content

variable {xs : List Act} (domains : Domains)

theorem acts_content (verb : String) : (Kernel.mk (xs.map content) domains).acts verb
    = ((Kernel.mk xs domains).acts verb).map content := by
  unfold Kernel.acts
  rw [List.filter_map, List.filter_map]
  rfl

theorem current_content (verb : String) (key delete : Option String) :
    (Kernel.mk (xs.map content) domains).current verb key delete
      = ((Kernel.mk xs domains).current verb key delete).map content := by
  unfold Kernel.current
  have hdelete : (delete.map (Kernel.mk (xs.map content) domains).acts).getD []
      = ((delete.map (Kernel.mk xs domains).acts).getD []).map content := by
    cases delete with
    | none => rfl
    | some d => exact acts_content domains d
  rw [hdelete, acts_content, ← List.map_append, List.filter_map, List.flatMap_map]
  rfl

theorem distinct_content (key : String) : distinct (xs.map content) key = distinct xs key := by
  unfold distinct
  rw [List.filterMap_map]
  rfl

theorem groupByKey_content (key : String) : groupByKey (xs.map content) key
    = (groupByKey xs key).map fun (v, t) => (v, t.map content) := by
  refine (strict_groupByKey (xs.map content) key).eq ?_ ?_
  · exact List.pairwise_map.mpr (strict_groupByKey xs key)
  · rintro ⟨v, t⟩
    rw [mem_groupByKey, List.mem_map]
    constructor
    · rintro ⟨⟨a, ha, hv⟩, rfl⟩
      obtain ⟨b, hb, rfl⟩ := List.mem_map.mp ha
      refine ⟨(v, xs.filter (fieldOf · key = some v)), mem_groupByKey.mpr ⟨⟨b, hb, hv⟩, rfl⟩, ?_⟩
      rw [List.filter_map]
      rfl
    · rintro ⟨⟨v', t'⟩, he, heq⟩
      obtain ⟨⟨a, ha, hv⟩, rfl⟩ := mem_groupByKey.mp he
      injection heq with hvv htt
      subst hvv htt
      refine ⟨⟨content a, List.mem_map.mpr ⟨a, ha, rfl⟩, hv⟩, ?_⟩
      rw [List.filter_map]
      rfl

/-- A rule that reads content reads the same without the rest. -/
theorem eval_content {rule : Rule} (hreads : readsContent rule = true) (done : State)
    (protocol : Option CausalProtocol) :
    (Kernel.mk (xs.map content) domains).eval contentHash rule done protocol
      = (Kernel.mk xs domains).eval contentHash rule done protocol := by
  have hsum : ∀ (ys : List Act) (key : String), sumOf (ys.map content) key = sumOf ys key := by
    intro ys key
    unfold sumOf
    rw [List.filterMap_map]
    rfl
  cases rule with
  | initial verb key =>
      show initialOf ((xs.map content).filter _) key = initialOf (xs.filter _) key
      rw [List.filter_map]
      show initialOf ((xs.filter (·.verb = verb)).map content) key = _
      generalize xs.filter (·.verb = verb) = ys
      match ys with
      | [] => rfl
      | [a] => rfl
      | a :: b :: rest => rfl
  | «exists» verb =>
      refine congrArg (fun b => Value.bool !b) ?_
      rw [acts_content, List.isEmpty_map]
  | count verb =>
      refine congrArg (fun n : Nat => Value.int n) ?_
      rw [acts_content, List.length_map]
  | setUnion verb key =>
      show distinct _ key = distinct _ key
      rw [acts_content, distinct_content]
  | values verb key =>
      show distinct _ key = distinct _ key
      rw [current_content, distinct_content]
  | valuesPerKey verb key value delete =>
      refine congrArg Value.map ?_
      rw [current_content, groupByKey_content, List.map_map]
      refine List.map_congr_left fun e _ => ?_
      exact congrArg (e.1, ·) (distinct_content value)
  | observedSet add remove key =>
      show distinct _ key = distinct _ key
      rw [current_content, distinct_content]
  | counter inc dec key =>
      refine congrArg Value.int ?_
      rw [acts_content, acts_content, hsum, hsum]
  | histogram field => rfl
  | sum field => rfl
  | _ => exact nomatch hreads

end Content

theorem dedupByAddress_content (acts : List Act) :
    dedupByAddress (acts.map content) = (dedupByAddress acts).map content := by
  have hfold : ∀ xs : List Act, (xs.map content).foldl keepFirst (∅, [])
      = ((xs.foldl keepFirst (∅, [])).1, (xs.foldl keepFirst (∅, [])).2.map content) := by
    intro xs
    induction xs using List.reverseRecOn with
    | nil => rfl
    | append_singleton xs a ih =>
        rw [List.map_append, List.foldl_append, List.foldl_append, ih]
        generalize xs.foldl keepFirst (∅, []) = acc
        show keepFirst (acc.1, acc.2.map content) (content a)
          = ((keepFirst acc a).1, (keepFirst acc a).2.map content)
        unfold keepFirst
        by_cases ha : a.address ∈ acc.1
        · rw [if_pos (show (content a).address ∈ acc.1 from ha), if_pos ha]
        · rw [if_neg (show (content a).address ∉ acc.1 from ha), if_neg ha, List.map_append]
          rfl
  exact congrArg Prod.snd (hfold acts)

/-- A clause whose rules read content folds to the same state without the rest. -/
theorem fold_content {clause : StateClause}
    (hreads : ∀ f ∈ clause.fields, readsContent f.2 = true) (protocol : Option CausalProtocol)
    (acts : List Act) : fold contentHash clause protocol (acts.map content)
      = fold contentHash clause protocol acts := by
  have hkernel : kernelFor contentHash clause (acts.map content)
      = ⟨(dedupByAddress acts).map content, (kernelFor contentHash clause acts).domains⟩ := by
    unfold kernelFor
    rw [dedupByAddress_content]
    refine congrArg (Kernel.mk _) (List.map_congr_left fun d _ => ?_)
    obtain ⟨verb, key, field⟩ := d
    dsimp only
    cases hrule : clause.ruleOf field with
    | none => rfl
    | some rule =>
        obtain ⟨f, hf, rfl⟩ := ruleOf_mem hrule
        show (verb, key, allowedValues _) = (verb, key, allowedValues _)
        rw [eval_content [] (hreads f hf)]
  unfold fold
  refine List.foldl_ext _ _ [] fun done f hf => ?_
  refine congrArg (fun v => done ++ [(f.1, v)]) ?_
  have hrule := hreads f hf
  unfold fieldValue
  split
  · rename_i c hc
    rw [hc] at hrule
    exact nomatch hrule
  · rw [hkernel, eval_content _ hrule]
    rfl

/-- Acts that share an address agree as far as the clause reads them: they are equal, or the
    clause reads content only and they wrap one simple message. -/
def Agree (clause : StateClause) (acts : List Act) : Prop :=
  Keyed acts ∨ ((∀ f ∈ clause.fields, readsContent f.2 = true) ∧
    ∀ a ∈ acts, ∀ b ∈ acts, a.address = b.address → a.simple = b.simple)

/-- **Replicas converge on signed acts that agree.** -/
theorem folds_converge (contentHash : Message → String) (clause : StateClause)
    (protocol : Option CausalProtocol) (signed signed' : List (Message × String))
    (hperm : signed'.Perm signed) (hagree : Agree clause (actsOf contentHash signed)) :
    renderJson (fold contentHash clause protocol (actsOf contentHash signed'))
      = renderJson (fold contentHash clause protocol (actsOf contentHash signed)) := by
  refine congrArg renderJson ?_
  have hsame : ∀ a, a ∈ actsOf contentHash signed' ↔ a ∈ actsOf contentHash signed := fun a =>
    (hperm.filterMap _).mem_iff
  rcases hagree with hkeyed | ⟨hreads, hsimple⟩
  · exact fold_congr hkeyed (fun _ => actsOf_consistent signed) protocol hsame
  · rw [← fold_content hreads protocol (actsOf contentHash signed'),
      ← fold_content hreads protocol (actsOf contentHash signed)]
    have hkeyed : Keyed ((actsOf contentHash signed).map content) := by
      intro x hx y hy haddr
      obtain ⟨a, ha, rfl⟩ := List.mem_map.mp hx
      obtain ⟨b, hb, rfl⟩ := List.mem_map.mp hy
      obtain ⟨haddr', ⟨p, hp, hverb⟩, -, hfields⟩ := (actsOf_consistent signed a ha).metadata
      obtain ⟨-, ⟨p', hp', hverb'⟩, -, hfields'⟩ := (actsOf_consistent signed b hb).metadata
      have hab := hsimple a ha b hb haddr
      rw [hab] at hp hfields
      have hpp : p = p' := Option.some.inj (hp.symm.trans hp')
      have hv : a.verb = b.verb := by rw [hverb, hverb', hpp]
      have hf : a.fields = b.fields := by rw [hfields, hfields']
      have ha' : a.address = b.address := haddr
      unfold content
      rw [ha', hv, hf]
    refine fold_congr hkeyed (fun hex => ?_) protocol fun a => ?_
    · obtain ⟨f, hf, hmessages⟩ := hex
      rw [not_readsMessages (hreads f hf)] at hmessages
      cases hmessages
    · simp only [List.mem_map, hsame]

/-- Two accounts sign one greeting. -/
def greeting : Message :=
  .simple (.custom "vote") none (.list []) [.atom (.keyword "choice"), .atom (.str "yes")]
    (some "t") none (some .begin)

/-- Where two signers share a message, the register shows who came first. -/
theorem folds_diverge :
    renderJson (fold verbHash ⟨[.field "votes" (.lwwPerSigner "vote" "choice" "clock")]⟩ none
        (actsOf verbHash [(greeting, "@a"), (greeting, "@b")]))
      ≠ renderJson (fold verbHash ⟨[.field "votes" (.lwwPerSigner "vote" "choice" "clock")]⟩ none
        (actsOf verbHash [(greeting, "@b"), (greeting, "@a")])) := by
  decide +kernel

theorem folds_converge_votes :
    Agree ⟨[.field "choices" (.setUnion "vote" "choice")]⟩
        (actsOf verbHash [(greeting, "@a"), (greeting, "@b")]) ∧
      renderJson (fold verbHash ⟨[.field "choices" (.setUnion "vote" "choice")]⟩ none
          (actsOf verbHash [(greeting, "@b"), (greeting, "@a")]))
        = renderJson (fold verbHash ⟨[.field "choices" (.setUnion "vote" "choice")]⟩ none
          (actsOf verbHash [(greeting, "@a"), (greeting, "@b")])) := by
  have hagree : Agree ⟨[.field "choices" (.setUnion "vote" "choice")]⟩
      (actsOf verbHash [(greeting, "@a"), (greeting, "@b")]) := by
    refine Or.inr ⟨by decide, ?_⟩
    decide
  exact ⟨hagree, folds_converge verbHash _ none _ _ (List.Perm.swap ..) hagree⟩

end CbclStateFold
