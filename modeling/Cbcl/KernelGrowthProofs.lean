import Cbcl.IntendProofs
import Cbcl.StateFoldProofs

/-!
# What one more act does to the kernel

The state of a thread is read from the accepted acts by verb, less those a domain of the clause
excludes.  A clean clause takes its domains from the opener alone, so an act of another verb leaves
them as they are and joins the acts of its own verb.  An observed set contains a value once an act
that adds it is accepted, unless an act of the same value already names it.
-/

namespace CbclKernelGrowth

open CbclMessage CbclProtocol CbclAct CbclShape CbclStateShape CbclDialect CbclDialectParser
open CbclState CbclStateMeaning CbclStateSelection CbclEscrow CbclEscrowObservation CbclExports
open CbclIntend CbclR7 CbclExcept CbclTreeMap
open CbclRole hiding Dialect PerformativeDef

-- ── One more act ────

/-- What the deduplication has seen. -/
theorem mem_seen (xs : List Act) (k : String) :
    k ∈ (xs.foldl keepFirst (∅, [])).1 ↔ ∃ a ∈ xs, a.address = k := by
  induction xs using List.reverseRecOn with
  | nil => simp
  | append_singleton xs a ih =>
      rw [List.foldl_append, List.foldl_cons, List.foldl_nil]
      generalize xs.foldl keepFirst (∅, []) = acc at ih ⊢
      unfold keepFirst
      simp only [List.mem_append, List.mem_singleton, or_and_right, exists_or, exists_eq_left]
      by_cases ha : a.address ∈ acc.1
      · rw [if_pos ha, ih]
        refine ⟨Or.inl, ?_⟩
        rintro (h | rfl)
        · exact h
        · exact ih.mp ha
      · rw [if_neg ha, mem_insert_iff, ih, or_comm, eq_comm]

/-- An act of a new address joins the acts. -/
theorem dedupByAddress_fresh {acts : List Act} {n : Act} (h : ∀ a ∈ acts, a.address ≠ n.address) :
    dedupByAddress (acts ++ [n]) = dedupByAddress acts ++ [n] := by
  have hnew : n.address ∉ (acts.foldl keepFirst (∅, [])).1 := by
    rw [mem_seen]
    rintro ⟨a, ha, heq⟩
    exact h a ha heq
  show ((acts ++ [n]).foldl keepFirst (∅, [])).2 = (acts.foldl keepFirst (∅, [])).2 ++ [n]
  rw [List.foldl_append, List.foldl_cons, List.foldl_nil, keepFirst, if_neg hnew]

/-- An act of a known address changes nothing. -/
theorem dedupByAddress_known {acts : List Act} {n : Act} (h : ∃ a ∈ acts, a.address = n.address) :
    dedupByAddress (acts ++ [n]) = dedupByAddress acts := by
  show ((acts ++ [n]).foldl keepFirst (∅, [])).2 = (acts.foldl keepFirst (∅, [])).2
  rw [List.foldl_append, List.foldl_cons, List.foldl_nil, keepFirst,
    if_pos ((mem_seen acts n.address).mpr h)]

-- ── Domains ────

section Clean

variable {sha256 : CbclCanonical.Octets → CbclTypedAddr.Digest} {d : Dialect}
  {clause : StateClause}

/-- A clean clause has none of the violations of its parts. -/
theorem clean_parts (hclean : r7Violations sha256 d = []) (hstate : d.state = some clause) :
    duplicateFields [] (clause.fields.map (·.1)) = [] ∧ domainViolations d clause = [] := by
  unfold r7Violations at hclean
  rw [hstate] at hclean
  simp only [List.append_eq_nil_iff] at hclean
  obtain ⟨⟨-, hclause⟩, -⟩ := hclean
  unfold clauseViolations at hclause
  simp only [List.append_eq_nil_iff] at hclause
  exact ⟨hclause.1.1.1.1.1.1.1.1.2, hclause.2⟩

/-- A domain of a clean clause filters another verb than the opener, by a list of the opener. -/
theorem domain_of_clean (hclean : r7Violations sha256 d = []) (hstate : d.state = some clause)
    {verb key field : String} (hdomain : (verb, key, field) ∈ clause.domains) :
    some verb ≠ openerOf d ∧
      ∃ v k, clause.ruleOf field = some (.initial v k) ∧ some v = openerOf d := by
  have hnone := List.flatMap_eq_nil_iff.mp (clean_parts hclean hstate).2 _ hdomain
  simp only [List.append_eq_nil_iff] at hnone
  obtain ⟨⟨hopener, -⟩, hfield⟩ := hnone
  refine ⟨fun heq => ?_, ?_⟩
  · rw [if_pos heq] at hopener
    exact nomatch hopener
  · cases hrule : clause.ruleOf field with
    | none => rw [hrule] at hfield; exact nomatch hfield
    | some rule =>
        rw [hrule] at hfield
        simp only [List.append_eq_nil_iff] at hfield
        obtain ⟨hverbs, hinitial⟩ := hfield
        have hopener' : ∀ v ∈ ruleVerbs rule, some v = openerOf d := by
          intro v hv
          by_contra hne
          rw [if_pos (by
            rw [Bool.or_eq_true]
            exact .inl (List.any_eq_true.mpr ⟨v, hv, decide_eq_true hne⟩))] at hverbs
          exact nomatch hverbs
        cases rule with
        | initial v k => exact ⟨v, k, rfl, hopener' v (List.mem_singleton_self v)⟩
        | _ => exact nomatch hinitial

end Clean

-- ── Fields over the opener ────

variable {contentHash : Message → String} {clause : StateClause} {acts : List Act}

/-- A field that is evaluated without the fields before it has its value in the state. -/
theorem find_state {g : State → Rule → Value} {field : String} {rule : Rule} {v : Value}
    (hconst : ∀ done, g done rule = v) : ∀ (fields : List (String × Rule)) (done : State),
      done.find? (·.1 = field) = none → (fields.find? (·.1 = field)).map (·.2) = some rule →
      (fields.foldl (fun done f => done ++ [(f.1, g done f.2)]) done).find? (·.1 = field)
        = some (field, v) := by
  have hkept : ∀ (fields : List (String × Rule)) (done : State) (e : String × Value),
      done.find? (·.1 = field) = some e →
      (fields.foldl (fun done f => done ++ [(f.1, g done f.2)]) done).find? (·.1 = field)
        = some e := by
    intro fields
    induction fields with
    | nil => intro done e h; exact h
    | cons f fields ih =>
        intro done e h
        refine ih _ e ?_
        rw [List.find?_append, h]
        rfl
  intro fields
  induction fields with
  | nil => intro done _ h; exact nomatch h
  | cons f fields ih =>
      intro done hdone hrule
      rw [List.foldl_cons]
      by_cases hf : f.1 = field
      · rw [List.find?_cons_of_pos (by simpa using hf)] at hrule
        refine hkept _ _ _ ?_
        have hrule : f.2 = rule := Option.some.inj hrule
        rw [List.find?_append, hdone, Option.none_or, hrule, hconst, hf]
        simp
      · rw [List.find?_cons_of_neg (by simpa using hf)] at hrule
        refine ih _ ?_ hrule
        rw [List.find?_append, hdone, Option.none_or]
        simp [hf]

/-- The state of a field over the opener. -/
theorem fold_initial {protocol : Option CausalProtocol} {field v k : String}
    (hrule : clause.ruleOf field = some (.initial v k)) :
    (fold contentHash clause protocol acts).find? (·.1 = field)
      = some (field, initialOf ((dedupByAddress acts).filter (·.verb = v)) k) := by
  unfold fold
  exact @find_state (fun done rule => fieldValue contentHash clause protocol acts done rule) field
    (.initial v k) _ (fun _ => rfl) clause.fields [] rfl hrule

/-- Every domain of the kernel is one of the clause. -/
theorem domain_given {dom : String × String × List Value}
    (h : dom ∈ (kernelFor contentHash clause acts).domains) :
    ∃ field, (dom.1, dom.2.1, field) ∈ clause.domains := by
  unfold kernelFor at h
  obtain ⟨⟨verb, key, field⟩, hdomain, rfl⟩ := List.mem_map.mp h
  exact ⟨field, hdomain⟩

section Clean

variable {sha256 : CbclCanonical.Octets → CbclTypedAddr.Digest} {d : Dialect}
  (hclean : r7Violations sha256 d = []) (hstate : d.state = some clause)
include hclean hstate

/-- An act of another verb than the opener's leaves the domains as they are. -/
theorem domains_append {n : Act} (hverb : some n.verb ≠ openerOf d) :
    (kernelFor contentHash clause (acts ++ [n])).domains
      = (kernelFor contentHash clause acts).domains := by
  unfold kernelFor
  refine List.map_congr_left fun dom hdom => ?_
  obtain ⟨verb, key, field⟩ := dom
  obtain ⟨-, v, k, hrule, hopener⟩ := domain_of_clean hclean hstate hdom
  simp only [hrule, Option.map_some, Option.getD_some]
  have hfilter : (dedupByAddress (acts ++ [n])).filter (·.verb = v)
      = (dedupByAddress acts).filter (·.verb = v) := by
    by_cases hknown : ∃ a ∈ acts, a.address = n.address
    · rw [dedupByAddress_known hknown]
    · have hother : n.verb ≠ v := fun heq => hverb (by rw [heq, hopener])
      have hfresh : ∀ a ∈ acts, a.address ≠ n.address := fun a ha heq => hknown ⟨a, ha, heq⟩
      rw [dedupByAddress_fresh hfresh, List.filter_append, List.filter_singleton]
      simp [hother]
  show (verb, key, allowedValues (initialOf ((dedupByAddress (acts ++ [n])).filter (·.verb = v)) k))
    = (verb, key, allowedValues (initialOf ((dedupByAddress acts).filter (·.verb = v)) k))
  rw [hfilter]

/-- What passes the domain gate is admitted by the domains of the kernel. -/
theorem admits_of_gate {protocol : Option CausalProtocol} {verb : String}
    {fields : BTreeMap String SExpr} {n : Act}
    (hgate : domainGate clause (fold contentHash clause protocol acts) verb fields = .ok ())
    (hfields : ∀ (k : String) (v : SExpr), fields[k]? = some v → n.fields[k]? = some v) :
    ∀ dom ∈ (kernelFor contentHash clause acts).domains, admits dom verb n = true := by
  intro dom hdom
  obtain ⟨⟨dv, key, field⟩, hmem, rfl⟩ := List.mem_map.mp hdom
  obtain ⟨-, v, k, hrule, -⟩ := domain_of_clean hclean hstate hmem
  simp only [hrule, Option.map_some, Option.getD_some]
  rw [admits_iff]
  intro hdv
  have hdv : dv = verb := hdv
  subst hdv
  have hstep := (forM_ok_iff.mp hgate) (dv, key, field)
    (List.mem_filter.mpr ⟨hmem, decide_eq_true rfl⟩)
  simp only [fold_initial hrule, Option.map_some, Option.getD_some] at hstep
  cases hsupplied : fields[key]? with
  | none => rw [hsupplied] at hstep; exact nomatch hstep
  | some x =>
      rw [hsupplied] at hstep
      unfold Allowed
      by_cases hany : ((allowedValues (initialOf ((dedupByAddress acts).filter (·.verb = v)) k)).any
          fun y => decide (y.render = (Value.fromSExpr x).render)) = true
      · obtain ⟨y, hy, hrender⟩ := List.any_eq_true.mp hany
        refine ⟨Value.fromSExpr x, ?_, y, hy, of_decide_eq_true hrender⟩
        unfold fieldOf
        rw [hfields key x hsupplied]
        rfl
      · rw [if_neg (by simpa using hany)] at hstep
        exact nomatch hstep

/-- An act joins the acts of its verb, where the domains on a verb stay as they are. -/
theorem acts_append {n : Act} {verb : String} (hfresh : ∀ a ∈ acts, a.address ≠ n.address)
    (hallowed : ∀ dom ∈ (kernelFor contentHash clause acts).domains, admits dom n.verb n = true)
    (hkept : some n.verb ≠ openerOf d ∨ ∀ dom ∈ clause.domains, dom.1 ≠ verb) :
    (kernelFor contentHash clause (acts ++ [n])).acts verb
      = (kernelFor contentHash clause acts).acts verb ++ if n.verb = verb then [n] else [] := by
  have hsame : ∀ a ∈ dedupByAddress acts ++ [n],
      ((kernelFor contentHash clause (acts ++ [n])).domains.all fun dom => admits dom verb a)
        = (kernelFor contentHash clause acts).domains.all fun dom => admits dom verb a := by
    intro a _
    rcases hkept with hverb | hfree
    · rw [domains_append hclean hstate hverb]
    · have hall : ∀ xs : List Act, ((kernelFor contentHash clause xs).domains.all fun dom =>
          admits dom verb a) = true := by
        intro xs
        rw [List.all_eq_true]
        intro dom hdom
        obtain ⟨field, hmem⟩ := domain_given hdom
        rw [admits_iff]
        exact fun heq => absurd heq (hfree _ hmem)
      rw [hall, hall]
  unfold Kernel.acts
  show ((dedupByAddress (acts ++ [n])).filter (·.verb = verb)).filter _
    = ((dedupByAddress acts).filter (·.verb = verb)).filter _ ++ _
  rw [dedupByAddress_fresh hfresh, List.filter_append, List.filter_append, List.filter_singleton]
  congr 1
  · exact List.filter_congr fun a ha =>
      hsame a (List.mem_append_left _ (List.mem_of_mem_filter ha))
  · by_cases hverb : n.verb = verb
    · rw [if_pos hverb, decide_eq_true hverb, cond_true, List.filter_singleton,
        hsame n (List.mem_append_right _ (List.mem_singleton_self n))]
      have hall : ((kernelFor contentHash clause acts).domains.all fun dom =>
          admits dom verb n) = true := by
        rw [List.all_eq_true, ← hverb]
        exact hallowed
      rw [hall, cond_true]
    · rw [if_neg hverb, decide_eq_false hverb, cond_false]
      rfl

end Clean

-- ── The act of an intent ────

section Intent

variable {inst : Instance} {signer : AgentKey} {verb : String} {fields : BTreeMap String SExpr}
  {m : Message}

/-- What the binder returns has passed the domain gate. -/
theorem domainGate_of_intend (h : intend contentHash inst signer verb fields = .ok m)
    (hstate : inst.dialect.state = some clause) :
    domainGate clause (fold contentHash clause inst.dialect.causal_protocol inst.acts) verb fields
      = .ok () := by
  unfold intend at h
  dsimp only at h
  split at h
  · rename_i clause' protocol hstate' hcausal
    obtain rfl : clause' = clause := Option.some.inj (hstate'.symm.trans hstate)
    simp only [bind_ok_iff] at h
    obtain ⟨-, -, -, -, -, -, -, -, ⟨⟩, hgate, -⟩ := h
    rw [hcausal]
    exact hgate
  · cases h

/-- The act of a built message has the supplied fields. -/
theorem supplied_fields (b : Built contentHash inst signer verb fields m) (k : String)
    (v : SExpr) (h : fields[k]? = some v) : b.act.fields[k]? = some v := by
  refine b.field (List.mem_append_left _ (Std.ExtTreeMap.mem_toList_iff_getElem?_eq_some.mpr h)) ?_
  have hmem : k ∈ fields := by
    rw [Std.ExtTreeMap.mem_iff_isSome_getElem?, h]
    rfl
  have hfree := b.supplied k (Std.ExtTreeMap.mem_keys.mpr hmem)
  unfold isForged at hfree
  simp only [Bool.or_eq_false_iff, List.contains_eq_mem, decide_eq_false_iff_not] at hfree
  exact hfree.1.1.1.1

end Intent

-- ── Observed sets ────

/-- Names without duplicates. -/
theorem nodup_of_duplicateFields : ∀ (names seen : List String),
    duplicateFields seen names = [] → names.Nodup ∧ ∀ name ∈ names, name ∉ seen := by
  intro names
  induction names with
  | nil => exact fun _ _ => ⟨List.nodup_nil, fun _ h => nomatch h⟩
  | cons name names ih =>
      intro seen h
      unfold duplicateFields at h
      by_cases hseen : seen.contains name = true
      · rw [if_pos hseen] at h
        exact nomatch h
      · rw [if_neg hseen] at h
        obtain ⟨hnodup, hnew⟩ := ih _ h
        refine ⟨List.nodup_cons.mpr ⟨fun hmem => ?_, hnodup⟩, fun x hx => ?_⟩
        · exact hnew name hmem (List.mem_cons_self ..)
        · rcases List.mem_cons.mp hx with rfl | hx
          · simpa using hseen
          · exact fun hold => hnew x hx (List.mem_cons_of_mem _ hold)

/-- A field of a clean clause has the rule it is declared with. -/
theorem ruleOf_of_clean {sha256 : CbclCanonical.Octets → CbclTypedAddr.Digest} {d : Dialect}
    (hclean : r7Violations sha256 d = []) (hstate : d.state = some clause) {name : String}
    {rule : Rule} (hfield : (name, rule) ∈ clause.fields) : clause.ruleOf name = some rule := by
  have hnodup := (nodup_of_duplicateFields _ _ (clean_parts hclean hstate).1).1
  unfold StateClause.ruleOf
  cases hfind : clause.fields.find? (·.1 = name) with
  | none => exact absurd (decide_eq_true rfl) (List.find?_eq_none.mp hfind _ hfield)
  | some f =>
      have hname : f.1 = name := of_decide_eq_true (List.find?_some hfind :)
      have hsame := List.inj_on_of_nodup_map hnodup (List.mem_of_find?_eq_some hfind) hfield hname
      rw [hsame]
      rfl

/-- The distinct values of acts of different addresses are those of their fields. -/
theorem mem_distinct {xs : List Act} (hnodup : (xs.map (·.address)).Nodup) (key : String) :
    ∃ items, distinct xs key = .set items ∧
      ∀ v, v ∈ items ↔ ∃ a ∈ xs, fieldOf a key = some v := by
  classical
  have henum : Enumerates xs xs.toFinset := ⟨fun a => List.mem_toFinset.symm, hnodup⟩
  refine ⟨_, distinct_eq henum key, fun v => ?_⟩
  rw [CbclKeyedSort.mem_sortBy, mem_valuesIn]
  simp only [List.mem_toFinset]

/-- A write is current unless an act of its key names it. -/
theorem mem_current_iff {k : Kernel} {verb : String} {key delete : Option String} {w : Act} :
    w ∈ k.current verb key delete ↔ w ∈ k.acts verb ∧
      ∀ r ∈ k.acts verb ++ (delete.map k.acts).getD [], keyOf key r = keyOf key w →
        w.address ∉ replacedBy r := by
  unfold Kernel.current
  simp only [List.mem_filter, decide_eq_true_eq, List.mem_flatMap, List.mem_map, Prod.mk.injEq,
    not_exists, not_and]
  refine and_congr_right fun _ => ⟨fun h r hr hkey haddr => ?_, fun h r hr a ha hkey haddr => ?_⟩
  · exact h r hr _ haddr hkey rfl
  · exact h r hr hkey (haddr ▸ ha)

theorem nodup_current (acts : List Act) (verb : String) (key delete : Option String) :
    (((kernelFor contentHash clause acts).current verb key delete).map (·.address)).Nodup := by
  refine (dedupByAddress_spec acts).1.sublist (List.Sublist.map _ ?_)
  exact List.filter_sublist.trans (List.filter_sublist.trans List.filter_sublist)

/-- No value is printed as the empty text. -/
theorem render_ne_empty (x : SExpr) : (Value.fromSExpr x).render ≠ "" := by
  intro hx
  obtain ⟨_, _, h, -⟩ := CbclStateRender.head_render x
  have hnil : (Value.fromSExpr x).renderInto = [] := by
    rw [← String.toList_ofList (l := (Value.fromSExpr x).renderInto)]
    show (Value.fromSExpr x).render.toList = []
    rw [hx]
    rfl
  rw [hnil] at h
  exact nomatch h

/-- Acts of one rendered key have one key value, where one of them has any. -/
theorem fieldOf_of_keyOf {a r : Act} {key : String} {v : SExpr}
    (ha : fieldOf a key = some (Value.fromSExpr v)) (h : keyOf (some key) r = keyOf (some key) a) :
    fieldOf r key = some (Value.fromSExpr v) := by
  unfold keyOf at h
  dsimp only at h
  rw [ha] at h
  cases hr : fieldOf r key with
  | none => rw [hr] at h; exact absurd h.symm (render_ne_empty v)
  | some w => rw [hr] at h; rw [fieldOf_injective hr ha h]

section Readd

variable {sha256 : CbclCanonical.Octets → CbclTypedAddr.Digest} {d : Dialect} {thread : String}
  {inst : Instance} {signer : AgentKey} {fields : BTreeMap String SExpr} {m : Message} {n : Act}
  {name add remove key : String} {v : SExpr}

/-- **An add takes effect** unless its act is named already: after a bound add of `v` the observed
    set contains `v`, whatever was added and removed before, if no act of the value `v` names the
    act. -/
theorem added_value_shows (hclean : r7Violations sha256 d = []) (hstate : d.state = some clause)
    (hfield : (name, Rule.observedSet add remove key) ∈ clause.fields)
    (hinst : Instance.new d thread acts = .ok inst) (hacts : FromMessages contentHash acts)
    (hv : fields[key]? = some v) (h : intend contentHash inst signer add fields = .ok m)
    (hact : Act.fromMessage contentHash (signedBy signer m) signer = .ok n)
    (hcollision : ∀ a ∈ acts, a.address = n.address → a.simple = n.simple)
    (hunnamed : ∀ r ∈ (kernelFor contentHash clause (acts ++ [n])).acts add ++
      (kernelFor contentHash clause (acts ++ [n])).acts remove,
      fieldOf r key = some (Value.fromSExpr v) → n.address ∉ replacedBy r) :
    ∃ items, (fold contentHash clause d.causal_protocol (acts ++ [n])).find? (·.1 = name)
      = some (name, .set items) ∧ Value.fromSExpr v ∈ items := by
  obtain ⟨rfl, rfl, rfl, -⟩ := instance_new_ok hinst
  obtain ⟨b⟩ := built_of_intend h
  obtain rfl : b.act = n := Except.ok.inj (b.act_fromMessage.symm.trans hact)
  have hgate := domainGate_of_intend h hstate
  have hallowed := admits_of_gate hclean hstate hgate (supplied_fields b)
  -- the accepted act of the address has the verb and the fields of the new one
  obtain ⟨a, ha, haddress⟩ := (dedupByAddress_spec (inst.acts ++ [b.act])).2.2 b.act
    (List.mem_append_right _ (List.mem_singleton_self _))
  have hsame : a.verb = add ∧ a.fields = b.act.fields := by
    rcases List.mem_append.mp ((dedupByAddress_spec _).2.1 a ha) with hold | hnew
    · obtain ⟨message, who, hmessage⟩ := hacts a hold
      have hmeta := (consistent_fromMessage hmessage).metadata
      have hmeta' := (consistent_fromMessage b.act_fromMessage).metadata
      rw [hcollision a hold haddress] at hmeta
      obtain ⟨-, ⟨p, hp, hverb⟩, -, hfields⟩ := hmeta
      obtain ⟨-, ⟨p', hp', hverb'⟩, -, hfields'⟩ := hmeta'
      obtain rfl : p = p' := Option.some.inj (hp.symm.trans hp')
      exact ⟨hverb.trans hverb'.symm, hfields.trans hfields'.symm⟩
    · rw [List.mem_singleton.mp hnew]
      exact ⟨rfl, rfl⟩
  have hvalue : fieldOf a key = some (Value.fromSExpr v) := by
    unfold fieldOf
    rw [hsame.2, supplied_fields b key v hv]
    rfl
  have hselected : a ∈ (kernelFor contentHash clause (inst.acts ++ [b.act])).acts add := by
    refine List.mem_filter.mpr ⟨List.mem_filter.mpr ⟨ha, decide_eq_true hsame.1⟩, ?_⟩
    rw [List.all_eq_true]
    intro dom hdom
    by_cases hopener : some add = openerOf inst.dialect
    · obtain ⟨field, hmem⟩ := domain_given hdom
      rw [admits_iff]
      intro heq
      exact absurd (heq ▸ hopener) (domain_of_clean hclean hstate hmem).1
    · rw [domains_append hclean hstate hopener] at hdom
      have hok := hallowed dom hdom
      rw [admits_iff] at hok ⊢
      unfold Allowed fieldOf at hok ⊢
      rwa [hsame.2]
  have hcurrent : a ∈ (kernelFor contentHash clause (inst.acts ++ [b.act])).current add (some key)
      (some remove) := by
    refine mem_current_iff.mpr ⟨hselected, fun r hr hkey => ?_⟩
    rw [haddress]
    exact hunnamed r hr (fieldOf_of_keyOf hvalue hkey)
  obtain ⟨items, hitems, hmem⟩ := mem_distinct (nodup_current (inst.acts ++ [b.act]) add (some key)
    (some remove)) key
  refine ⟨items, ?_, (hmem _).mpr ⟨a, hcurrent, hvalue⟩⟩
  rw [← hitems]
  exact @find_state (fun done rule => fieldValue contentHash clause inst.dialect.causal_protocol
    (inst.acts ++ [b.act]) done rule) name _ _ (fun _ => rfl) clause.fields [] rfl
    (ruleOf_of_clean hclean hstate hfield)

end Readd

-- ── Tags ────

/-- A dialect in which tags are added and removed. -/
def tagDialect : Dialect :=
  { CbclRegistry.plainDialect "tags"
      [⟨"open", [], effectTemplate "open-tags", none⟩, ⟨"add", [], effectTemplate "add-tag", none⟩,
        ⟨"remove", [], effectTemplate "remove-tag", none⟩] with
    causal_protocol := some ⟨((((∅ : BTreeMap String StepDecl).insert "begin"
      ⟨"begin", [], [.single "open"]⟩).insert "open"
        ⟨"open", [.single "begin"], [.single "add"]⟩).insert "add"
          ⟨"add", [.single "open"], [.single "remove"]⟩).insert "remove"
            ⟨"remove", [.single "add"], []⟩⟩
    shapes := [⟨"add", [.require "tag" (some .string) []]⟩,
      ⟨"remove", [.require "tag" (some .string) [], .require "replaces" (some .list) []]⟩]
    state := some ⟨[.field "tags" (.observedSet "add" "remove" "tag")]⟩ }

/-- Addresses of acts by their verb; an opener that follows another act has its own. -/
def tagHash (m : Message) : String :=
  "sha256:" ++ String.ofList (List.replicate 63 '0' ++
    [if m.performative = some (.custom "open") then
        if m.causedBy = some .begin then '1' else '4'
      else if m.performative = some (.custom "add") then '2' else '3'])

/-- The acts of some messages of Alice. -/
def tagActs (messages : List Message) : List Act := messages.filterMap fun m =>
  (Act.fromMessage tagHash (signedBy "@alice" m) "@alice").toOption

theorem tagActs_fromMessages (messages : List Message) :
    FromMessages tagHash (tagActs messages) := by
  intro a ha
  obtain ⟨m, -, hsome⟩ := List.mem_filterMap.mp ha
  exact ⟨_, _, toOption_eq_some_iff.mp hsome⟩

/-- One tag. -/
def tagFields : BTreeMap String SExpr :=
  (∅ : BTreeMap String SExpr).insert "tag" (.atom (.str "x"))

/-- An act of Alice on tags. -/
def tagMessage (verb : String) (params : List SExpr) (cause : CausedBy) : Message :=
  .dialect "tags" (.simple (.custom verb) none (.list [])
    (params ++ [.atom (.keyword "from"), .atom (.symbol "@alice")]) (some "t") none (some cause))

/-- The opener. -/
def openTags : Message := tagMessage "open" [] .begin

/-- The address the hash gives a kind of acts. -/
def tagAddress (c : Char) : String := "sha256-" ++ String.ofList (List.replicate 63 '0' ++ [c])

/-- The tag added after the opener. -/
def addTag : Message :=
  tagMessage "add" [.atom (.keyword "tag"), .atom (.str "x")] (.single (tagAddress '1'))

/-- The tag removed again. -/
def removeTag : Message :=
  tagMessage "remove" [.atom (.keyword "tag"), .atom (.str "x"), .atom (.keyword "replaces"),
    addressList [tagAddress '2']] (.single (tagAddress '2'))

/-- What the binder returns for Alice over some messages of hers. -/
theorem tagIntent {d : Dialect} {fields : BTreeMap String SExpr} {messages : List Message}
    {verb : String} {m : Message}
    (h : ((Instance.new d "t" (tagActs messages)).toOption.bind fun inst =>
      (intend tagHash inst "@alice" verb fields).toOption) = some m) :
    ∃ inst, Instance.new d "t" (tagActs messages) = .ok inst ∧
      intend tagHash inst "@alice" verb fields = .ok m := by
  obtain ⟨inst, hinst, hm⟩ := Option.bind_eq_some_iff.mp h
  exact ⟨inst, toOption_eq_some_iff.mp hinst, toOption_eq_some_iff.mp hm⟩

/-- The act of one more message of Alice. -/
theorem tagActs_append (messages : List Message) {m : Message} {address : String}
    (h : (Act.fromMessage tagHash (signedBy "@alice" m) "@alice").toOption.map (·.address)
      = some address) :
    ∃ n, Act.fromMessage tagHash (signedBy "@alice" m) "@alice" = .ok n ∧ n.address = address ∧
      tagActs messages ++ [n] = tagActs (messages ++ [m]) := by
  obtain ⟨n, hn, haddress⟩ := Option.map_eq_some_iff.mp h
  refine ⟨n, toOption_eq_some_iff.mp hn, haddress, ?_⟩
  unfold tagActs
  rw [List.filterMap_append]
  exact congrArg (_ ++ ·) (List.filterMap_cons_some (l := []) hn).symm

/-- The state clause of the tags. -/
def tagClause : StateClause := ⟨[.field "tags" (.observedSet "add" "remove" "tag")]⟩

/-- What is computed of a first add: the act the binder returns, its address, and what it meets. -/
theorem add_runs :
    r7Violations CbclSha256.sha256 tagDialect = [] ∧
    ((Instance.new tagDialect "t" (tagActs [openTags])).toOption.bind fun inst =>
      (intend tagHash inst "@alice" "add" tagFields).toOption) = some addTag ∧
    ((Act.fromMessage tagHash (signedBy "@alice" addTag) "@alice").toOption.map
      (·.address)) = some (tagAddress '2') ∧
    tagFields["tag"]? = some (.atom (.str "x")) ∧
    (∀ a ∈ tagActs [openTags], a.address ≠ tagAddress '2') ∧
    ∀ r ∈ (kernelFor tagHash tagClause (tagActs [openTags, addTag])).acts "add"
      ++ (kernelFor tagHash tagClause (tagActs [openTags, addTag])).acts "remove",
      tagAddress '2' ∉ CbclState.replacedBy r := by
  refine ⟨?_, ?_, ?_, ?_, ?_, ?_⟩ <;> decide +kernel

/-- A first add of a tag shows. -/
theorem added_value_shows_tag : ∃ n items,
    Act.fromMessage tagHash (signedBy "@alice" addTag) "@alice" = .ok n ∧
      (fold tagHash tagClause tagDialect.causal_protocol (tagActs [openTags] ++ [n])).find?
        (·.1 = "tags") = some ("tags", .set items) ∧ Value.fromSExpr (.atom (.str "x")) ∈ items := by
  obtain ⟨hclean, hrun, hsome, hvalue, hother, hunnamed⟩ := add_runs
  obtain ⟨inst, hinst, hm⟩ := tagIntent hrun
  obtain ⟨n, hact, haddress, happend⟩ := tagActs_append [openTags] hsome
  obtain ⟨items, hfind, hmem⟩ := @added_value_shows tagHash tagClause (tagActs [openTags])
    CbclSha256.sha256 tagDialect "t" inst "@alice" tagFields addTag n "tags" "add" "remove" "tag"
    (.atom (.str "x")) hclean rfl (List.mem_singleton_self _) hinst (tagActs_fromMessages _) hvalue
    hm hact (fun a ha heq => absurd (heq.trans haddress) (hother a ha))
    (fun r hr _ => by
      rw [happend] at hr
      rw [haddress]
      exact hunnamed r hr)
  exact ⟨n, items, hact, hfind, hmem⟩

/-- Histories of a dialect: roots and openers, then acts the binder returned. -/
inductive Authored (contentHash : Message → String) (d : Dialect) (thread : String) :
    List Act → Prop where
  | opened {acts : List Act} : FromMessages contentHash acts →
      (∀ a ∈ acts, some a.verb = openerOf d ∨ IsRoot a) → Authored contentHash d thread acts
  | bound {acts : List Act} {inst : Instance} {signer : AgentKey} {verb : String}
      {fields : BTreeMap String SExpr} {m : Message} {n : Act} :
      Authored contentHash d thread acts → Instance.new d thread acts = .ok inst →
      intend contentHash inst signer verb fields = .ok m →
      Act.fromMessage contentHash (signedBy signer m) signer = .ok n →
      Authored contentHash d thread (acts ++ [n])

/-- One more bound act of Alice. -/
theorem authored_append {messages : List Message} {verb : String} {m : Message} {address : String}
    (h : Authored tagHash tagDialect "t" (tagActs messages))
    (hm : ((Instance.new tagDialect "t" (tagActs messages)).toOption.bind fun inst =>
      (intend tagHash inst "@alice" verb tagFields).toOption) = some m)
    (hact : (Act.fromMessage tagHash (signedBy "@alice" m) "@alice").toOption.map (·.address)
      = some address) :
    Authored tagHash tagDialect "t" (tagActs (messages ++ [m])) := by
  obtain ⟨inst, hinst, hintend⟩ := tagIntent hm
  obtain ⟨n, hn, -, happend⟩ := tagActs_append messages hact
  rw [← happend]
  exact .bound h hinst hintend hn

/-- What is computed of a removed tag: its removal, the second add, and the set after it. -/
theorem readd_runs :
    (∀ a ∈ tagActs [openTags], some a.verb = openerOf tagDialect) ∧
    ((Instance.new tagDialect "t" (tagActs [openTags, addTag])).toOption.bind fun inst =>
      (intend tagHash inst "@alice" "remove" tagFields).toOption) = some removeTag ∧
    ((Act.fromMessage tagHash (signedBy "@alice" removeTag) "@alice").toOption.map
      (·.address)) = some (tagAddress '3') ∧
    ((Instance.new tagDialect "t" (tagActs [openTags, addTag, removeTag])).toOption.bind fun inst =>
      (intend tagHash inst "@alice" "add" tagFields).toOption) = some addTag ∧
    (((fold tagHash tagClause tagDialect.causal_protocol
      (tagActs ([openTags, addTag, removeTag] ++ [addTag]))).find? (·.1 = "tags")).map fun e =>
        (allowedValues e.2).length) = some 0 := by
  refine ⟨?_, ?_, ?_, ?_, ?_⟩ <;> decide +kernel

/-- **A tag that was removed cannot be added again** by the same act: the binder returns the act
    that the removal names. -/
theorem readded_value_missing :
    r7Violations CbclSha256.sha256 tagDialect = [] ∧
    ¬ ∀ (acts : List Act) (inst : Instance) (signer : AgentKey) (fields : BTreeMap String SExpr)
      (v : SExpr) (m : Message) (n : Act), Authored tagHash tagDialect "t" acts →
      Instance.new tagDialect "t" acts = .ok inst → fields["tag"]? = some v →
      intend tagHash inst signer "add" fields = .ok m →
      Act.fromMessage tagHash (signedBy signer m) signer = .ok n →
      ∃ items, (fold tagHash tagClause tagDialect.causal_protocol (acts ++ [n])).find?
        (·.1 = "tags") = some ("tags", .set items) ∧ Value.fromSExpr v ∈ items := by
  obtain ⟨hclean, hadd, hadded, hvalue, -⟩ := add_runs
  obtain ⟨hverbs, hremove, hremoved, hagain, hempty⟩ := readd_runs
  refine ⟨hclean, fun hclaim => ?_⟩
  have hauthored := authored_append (@authored_append [openTags] _ _ _
    (.opened (tagActs_fromMessages _) fun a ha => .inl (hverbs a ha)) hadd hadded) hremove hremoved
  obtain ⟨inst, hinst, hm⟩ := tagIntent hagain
  obtain ⟨n, hact, -, happend⟩ := tagActs_append [openTags, addTag, removeTag] hadded
  obtain ⟨items, hfind, hmem⟩ := hclaim _ inst "@alice" tagFields (.atom (.str "x")) addTag n
    hauthored hinst hvalue hm hact
  rw [show tagActs ([openTags] ++ [addTag] ++ [removeTag]) ++ [n] = _ from happend] at hfind
  rw [hfind] at hempty
  have hnil : items.length = 0 := Option.some.inj hempty
  rw [List.length_eq_zero_iff.mp hnil] at hmem
  exact nomatch hmem

end CbclKernelGrowth
