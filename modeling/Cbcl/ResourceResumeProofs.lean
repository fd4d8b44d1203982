import Cbcl.PositionsProofs
import Cbcl.ResourceResumeModel

/-!
# A continued counter observes what the whole history observes

The verifier asks of an identity that is no fact only whether it is an act at all, and only
for identities that facts refer to.  The continuation keeps exactly these answers: an identity
referred to for the first time is looked up among the earlier acts, and every later act answers
for itself.  So facts and answers are those of the history, whatever the order of arrival, and
the cached outcome is the observation of all acts.
-/

namespace CbclResourceResume

open CbclMessage CbclAct CbclEscrow CbclEscrowStage CbclEscrowHistory CbclEscrowObservation
  CbclState CbclStateProgress CbclStateSelection CbclPositions CbclCanonical CbclTypedAddr
  CbclCodec CbclTreeMap

-- ── What the verifier asks ────

/-- The identities one fact makes the verifier ask for. -/
def Asks (c : CounterRule) (f : ResourceFact) (id : String) : Prop :=
  (f.verb = c.initial_verb ∧ id ∈ f.predecessors) ∨ id ∈ references c f

/-- Dependencies are texts of the given items. -/
theorem checkDeps_ok {a : ResourceFact} {prev : String} (xs : List SExpr) :
    ∀ {deps result : List String}, checkDeps a prev xs deps = .ok result →
      ∀ d ∈ result, d ∈ deps ∨ (isAddress d = true ∧ d ∈ xs.filterMap text) := by
  induction xs with
  | nil =>
      intro deps result h d hd
      injection h with h
      rw [h]
      exact Or.inl hd
  | cons x xs ih =>
      intro deps result h d hd
      rw [checkDeps] at h
      split at h
      · cases h
      rename_i dep hdep
      obtain ⟨htext, hguard⟩ := Option.filter_eq_some_iff.mp hdep
      split at h
      · cases h
      rcases ih h d hd with hin | ⟨haddr, hin⟩
      · rcases List.mem_append.mp hin with hin | hin
        · exact Or.inl hin
        · rw [List.mem_singleton.mp hin]
          exact Or.inr ⟨(of_decide_eq_true hguard).1,
            List.mem_filterMap.mpr ⟨x, List.mem_cons_self .., htext⟩⟩
      · refine Or.inr ⟨haddr, ?_⟩
        obtain ⟨y, hy, hyd⟩ := List.mem_filterMap.mp hin
        exact List.mem_filterMap.mpr ⟨y, List.mem_cons_of_mem _ hy, hyd⟩

/-- The links of a checked operation are references of its fact. -/
theorem checkNode_links {c : CounterRule} {o : CbclEscrow.Opening} {f : ResourceFact} {n : Node}
    (hverb : f.verb ∈ c.operationVerbs) (h : checkNode c o f = .ok n) :
    ∀ d ∈ n.prev :: n.deps, d ∈ references c f := by
  unfold checkNode at h
  split at h
  · exact nomatch h
  split at h
  · exact nomatch h
  split at h
  · exact nomatch h
  split at h
  · exact nomatch h
  split at h
  · exact nomatch h
  obtain ⟨r, -, h⟩ := CbclExcept.bind_ok_iff.mp h
  split at h
  · exact nomatch h
  · rename_i prev xs hprev hitems
    obtain ⟨deps, hdeps, h⟩ := CbclExcept.bind_ok_iff.mp h
    injection h with h
    subst h
    obtain ⟨htext, haddr⟩ := Option.filter_eq_some_iff.mp hprev
    intro d hd
    unfold references
    rw [if_pos hverb]
    refine List.mem_append_right _ (List.mem_append.mpr ?_)
    rcases List.mem_cons.mp hd with rfl | hd
    · left
      unfold addressesIn
      rw [htext]
      exact List.mem_filter.mpr ⟨List.mem_singleton.mpr rfl, haddr⟩
    · right
      rcases checkDeps_ok xs hdeps d hd with hnil | ⟨haddr, hin⟩
      · exact nomatch hnil
      · unfold addressesIn itemsOf
        rw [hitems]
        exact List.mem_filter.mpr ⟨hin, haddr⟩
  · exact nomatch h

section Congruence

variable {c : CounterRule} {all : Facts} {present present' : String → Bool}
  (h : ∀ (k : String) (f : ResourceFact), all[k]? = some f → ∀ id, Asks c f id → id ∉ all →
    present id = present' id)
include h

theorem openCounter_congr : openCounter c all present = openCounter c all present' := by
  unfold openCounter
  cases hop : findOpener c all with
  | error e => rfl
  | ok op =>
      have hroot : findRoot all present op = findRoot all present' op := by
        unfold findRoot
        obtain ⟨k, hk⟩ := findOpener_mem hop
        have hverb : op.verb = c.initial_verb := by
          have hmem : op ∈ (valuesOf all).filter (·.verb = c.initial_verb) := by
            rw [findOpener_only hop]
            exact List.mem_singleton_self op
          exact of_decide_eq_true (List.mem_filter.mp hmem).2
        split
        · rename_i p hp
          split
          · rfl
          · rename_i hnone
            have hnot : p ∉ all := by
              rw [Std.ExtTreeMap.mem_iff_isSome_getElem?, hnone]
              simp
            rw [h k op hk p (Or.inl ⟨hverb, by rw [hp]; exact List.mem_singleton.mpr rfl⟩) hnot]
        · rfl
      show (findRoot all present op >>= openWith c op)
        = (findRoot all present' op >>= openWith c op)
      rw [hroot]

theorem checkLinks_congr (keyed : KeyedFacts all) {o : CbclEscrow.Opening} {ops : Operations}
    (hops : collect c o all = .ok ops) :
    checkLinks all present o.op.address ops.nodes
      = checkLinks all present' o.op.address ops.nodes := by
  have hlink : ∀ n ∈ valuesOf ops.nodes, ∀ missing : BTreeSet String, ∀ d ∈ n.prev :: n.deps,
      checkLink all present o.op.address ops.nodes n missing d
        = checkLink all present' o.op.address ops.nodes n missing d := by
    intro n hn missing d hd
    obtain ⟨k, hk⟩ := (mem_valuesOf_iff _ _).mp hn
    obtain ⟨f, hf, hverb, hcheck⟩ := (collect_nodes keyed hops k n).mp hk
    unfold checkLink
    split
    · rfl
    · split
      · rfl
      · by_cases hin : d ∈ all
        · simp [hin]
        · rw [h k f hf d (Or.inr (checkNode_links hverb hcheck d hd)) hin]
  have hfold : ∀ ds : List String, ∀ n ∈ valuesOf ops.nodes, (∀ d ∈ ds, d ∈ n.prev :: n.deps) →
      ∀ missing : BTreeSet String,
        ds.foldlM (checkLink all present o.op.address ops.nodes n) missing
          = ds.foldlM (checkLink all present' o.op.address ops.nodes n) missing := by
    intro ds n hn
    induction ds with
    | nil => intro _ missing; rfl
    | cons d ds ih =>
        intro hds missing
        rw [List.foldlM_cons, List.foldlM_cons, hlink n hn missing d (hds d (List.mem_cons_self ..))]
        exact congrArg _ (funext fun m => ih (fun d' hd' => hds d' (List.mem_cons_of_mem _ hd')) m)
  let visit (present : String → Bool) (missing : BTreeSet String) (n : Node) :=
    (n.prev :: n.deps).foldlM (checkLink all present o.op.address ops.nodes n) missing
  have hnodes : ∀ ns : List Node, (∀ n ∈ ns, n ∈ valuesOf ops.nodes) → ∀ missing : BTreeSet String,
      ns.foldlM (visit present) missing = ns.foldlM (visit present') missing := by
    intro ns
    induction ns with
    | nil => intro _ missing; rfl
    | cons n ns ih =>
        intro hns missing
        have hvisit : visit present missing n = visit present' missing n :=
          hfold _ n (hns n (List.mem_cons_self ..)) (fun d hd => hd) missing
        rw [List.foldlM_cons, List.foldlM_cons, hvisit]
        exact congrArg _ (funext fun m => ih (fun n' hn' => hns n' (List.mem_cons_of_mem _ hn')) m)
  unfold checkLinks
  rw [show (valuesOf ops.nodes).foldlM (visit present) ∅ = _ from hnodes _ (fun n hn => hn) ∅]

/-- **An observation reads presence at the references of its facts only.** -/
theorem observeFacts_congr (keyed : KeyedFacts all) :
    observeFacts c all present = observeFacts c all present' := by
  have hsettle : settle c all present = settle c all present' := by
    unfold settle
    rw [openCounter_congr h]
    refine congrArg _ (funext fun _ => congrArg _ (funext fun o => ?_))
    cases hops : collect c o all with
    | error e => rfl
    | ok ops =>
        show (checkLinks all present o.op.address ops.nodes >>= _)
          = (checkLinks all present' o.op.address ops.nodes >>= _)
        rw [checkLinks_congr h keyed hops]
  unfold observeFacts
  rw [hsettle]

end Congruence

-- ── Continued histories ────

variable {sha256 : Octets → Digest} {rule : CounterRule}

variable (sha256 rule) in
/-- The fact of an act, if the counter reads it. -/
def factOf (a : Act) : Option ResumeFact :=
  (projectUnchecked rule a).map fun f =>
    { f with identity := sha256 (octets (typedRoot sha256 a.simple)) }

theorem factOf_address {a : Act} {f : ResumeFact} (h : factOf sha256 rule a = some f) :
    f.address = a.address := by
  obtain ⟨g, hg, rfl⟩ := Option.map_eq_some_iff.mp h
  exact project_address hg

/-- The projection of a derived act succeeds. -/
theorem projectResourceFact_derived {a : Act} (ha : Derived sha256 a) :
    projectResourceFact sha256 rule a = .ok (factOf sha256 rule a) := by
  unfold projectResourceFact
  rw [show Act.fromMessage (typedRoot sha256) a.message a.signer = .ok a from ha]
  exact if_neg (fun h => h rfl)

theorem mem_needed {facts : BTreeMap String ResumeFact} {id : String} :
    id ∈ needed rule facts ↔
      ∃ (k : String) (f : ResumeFact),
        facts[k]? = some f ∧ id ∈ references rule f.toResourceFact := by
  have hinner : ∀ (ids : List String) (out : BTreeSet String),
      id ∈ ids.foldl (fun out id => out.insert id) out ↔ id ∈ out ∨ id ∈ ids := by
    intro ids
    induction ids with
    | nil => intro out; simp
    | cons x ids ih =>
        intro out
        rw [List.foldl_cons, ih, mem_insert_iff, List.mem_cons]
        tauto
  have hfold : ∀ (fs : List ResumeFact) (out : BTreeSet String),
      id ∈ fs.foldl (fun out f => (references rule f.toResourceFact).foldl
        (fun out id => out.insert id) out) out ↔
          id ∈ out ∨ ∃ f ∈ fs, id ∈ references rule f.toResourceFact := by
    intro fs
    induction fs with
    | nil => intro out; simp
    | cons f fs ih =>
        intro out
        rw [List.foldl_cons, ih, hinner]
        simp [or_assoc]
  unfold needed
  rw [hfold]
  simp only [Std.ExtTreeSet.not_mem_empty, false_or, mem_valuesOf_iff]
  constructor
  · rintro ⟨f, ⟨k, hk⟩, hid⟩
    exact ⟨k, f, hk, hid⟩
  · rintro ⟨k, f, hk, hid⟩
    exact ⟨f, ⟨k, hk⟩, hid⟩

variable (sha256 rule) in
/-- A continuation holds the facts of a history, and which references are its acts. -/
structure Continues (s : Summary) (xs : List Act) : Prop where
  fresh : xs = [] → s = Summary.default
  bound : xs ≠ [] → s.rule = some rule
  idle : settles rule = false → s.facts = ∅ ∧ s.known = ∅
  facts : settles rule = true → ∀ (k : String) (f : ResumeFact),
    s.facts[k]? = some f ↔ ∃ a ∈ xs, factOf sha256 rule a = some f ∧ a.address = k
  known : settles rule = true → ∀ id, id ∈ s.known ↔
    id ∈ needed rule s.facts ∧ id ∉ s.facts ∧ ∃ a ∈ xs, a.address = id
  outcome : xs ≠ [] → s.outcome = recompute rule s.facts s.known

theorem continues_default : Continues sha256 rule Summary.default [] := by
  refine ⟨fun _ => rfl, fun h => absurd rfl h, fun _ => ⟨rfl, rfl⟩, fun _ k f => ?_, fun _ id => ?_,
    fun h => absurd rfl h⟩
  · simp [Summary.default]
  · simp [Summary.default]

/-- What a successful application does. -/
theorem apply_ok {s s' : Summary} {a : Act} (ha : Derived sha256 a) {covered : String → Bool}
    (hcovered : covered a.address = false)
    (h : s.apply sha256 rule a covered = .ok s') :
    ∃ facts, (if settles rule then Summary.file s.facts (factOf sha256 rule a) else pure s.facts)
        = .ok facts ∧ s' = ⟨some rule, facts,
          if settles rule then s.classify rule facts a.address covered else s.known,
          recompute rule facts
            (if settles rule then s.classify rule facts a.address covered else s.known)⟩ := by
  unfold Summary.apply at h
  rw [projectResourceFact_derived ha, hcovered] at h
  dsimp only at h
  by_cases hbound : s.boundElsewhere rule = true
  · rw [if_pos hbound] at h
    exact nomatch h
  rw [if_neg hbound] at h
  obtain ⟨incoming, hincoming, h⟩ := CbclExcept.bind_ok_iff.mp h
  injection hincoming with hincoming
  subst hincoming
  rw [if_neg (by simp)] at h
  by_cases hsettles : settles rule = true
  · simp only [if_pos hsettles] at h ⊢
    obtain ⟨facts, hfacts, h⟩ := CbclExcept.bind_ok_iff.mp h
    obtain ⟨_, _, h⟩ := CbclExcept.bind_ok_iff.mp h
    injection h with h
    exact ⟨facts, hfacts, h.symm⟩
  · simp only [if_neg hsettles] at h ⊢
    obtain ⟨facts, hfacts, h⟩ := CbclExcept.bind_ok_iff.mp h
    obtain ⟨_, _, h⟩ := CbclExcept.bind_ok_iff.mp h
    injection h with h
    exact ⟨facts, hfacts, h.symm⟩

theorem mem_classify {s : Summary} {facts : BTreeMap String ResumeFact} {address : String}
    {covered : String → Bool} {id : String} :
    id ∈ s.classify rule facts address covered ↔
      (id ∈ s.known ∧ id ∈ needed rule facts ∧ id ∉ facts) ∨
        (id ∈ needed rule facts ∧ id ∉ facts ∧
          (id = address ∨ (id ∉ needed rule s.facts ∧ covered id = true))) := by
  have hfold : ∀ (ids : List String) (out : BTreeSet String),
      id ∈ ids.foldl (fun known id =>
        if id ∉ facts ∧ (id = address ∨ (id ∉ needed rule s.facts ∧ covered id)) then
          known.insert id else known) out ↔
        id ∈ out ∨ (id ∈ ids ∧ id ∉ facts ∧
          (id = address ∨ (id ∉ needed rule s.facts ∧ covered id = true))) := by
    intro ids
    induction ids with
    | nil => intro out; simp
    | cons x ids ih =>
        intro out
        rw [List.foldl_cons, ih, List.mem_cons]
        split
        · rename_i hx
          rw [mem_insert_iff]
          constructor
          · rintro ((rfl | hin) | ⟨hin, hrest⟩)
            · exact Or.inr ⟨Or.inl rfl, hx⟩
            · exact Or.inl hin
            · exact Or.inr ⟨Or.inr hin, hrest⟩
          · rintro (hin | ⟨rfl | hin, hrest⟩)
            · exact Or.inl (Or.inr hin)
            · exact Or.inl (Or.inl rfl)
            · exact Or.inr ⟨hin, hrest⟩
        · rename_i hx
          constructor
          · rintro (hin | ⟨hin, hrest⟩)
            · exact Or.inl hin
            · exact Or.inr ⟨Or.inr hin, hrest⟩
          · rintro (hin | ⟨rfl | hin, hrest⟩)
            · exact Or.inl hin
            · exact absurd hrest hx
            · exact Or.inr ⟨hin, hrest⟩
  unfold Summary.classify
  rw [hfold, Std.ExtTreeSet.mem_filter, Std.ExtTreeSet.mem_toList]
  simp only [Std.ExtTreeSet.get_eq, decide_eq_true_eq, exists_prop]

section Histories

variable {s s' : Summary} {xs ys : List Act}

/-- Filing the fact of a fresh act. -/
theorem getElem?_file (h : Continues sha256 rule s xs) (hsettles : settles rule = true) {a : Act}
    {facts : BTreeMap String ResumeFact}
    (hfile : Summary.file s.facts (factOf sha256 rule a) = .ok facts)
    (hfresh : ∀ b ∈ xs, b.address ≠ a.address) (k : String) (f : ResumeFact) :
    facts[k]? = some f ↔ ∃ b ∈ xs ++ [a], factOf sha256 rule b = some f ∧ b.address = k := by
  have hold := h.facts hsettles k f
  cases hfact : factOf sha256 rule a with
  | none =>
      rw [hfact] at hfile
      injection hfile with hfile
      rw [← hfile, hold]
      constructor
      · rintro ⟨b, hb, hrest⟩
        exact ⟨b, List.mem_append_left _ hb, hrest⟩
      · rintro ⟨b, hb, hf, hk⟩
        rcases List.mem_append.mp hb with hb | hb
        · exact ⟨b, hb, hf, hk⟩
        · rw [List.mem_singleton.mp hb, hfact] at hf
          exact nomatch hf
  | some g =>
      rw [hfact] at hfile
      unfold Summary.file at hfile
      dsimp only at hfile
      split at hfile
      · exact nomatch hfile
      injection hfile with hfile
      rw [← hfile, getElem?_insert_eq, factOf_address hfact]
      split
      · rename_i hk
        constructor
        · intro hf
          injection hf with hf
          exact ⟨a, List.mem_append_right _ (List.mem_singleton.mpr rfl), hf ▸ hfact, hk.symm⟩
        · rintro ⟨b, hb, hf, hbk⟩
          rcases List.mem_append.mp hb with hb | hb
          · exact absurd (hbk.trans hk) (hfresh b hb)
          · rw [List.mem_singleton.mp hb, hfact] at hf
            exact hf
      · rename_i hk
        rw [hold]
        constructor
        · rintro ⟨b, hb, hrest⟩
          exact ⟨b, List.mem_append_left _ hb, hrest⟩
        · rintro ⟨b, hb, hf, hbk⟩
          rcases List.mem_append.mp hb with hb | hb
          · exact ⟨b, hb, hf, hbk⟩
          · rw [List.mem_singleton.mp hb] at hbk
            exact absurd hbk.symm hk

/-- **One act continues a history by one act.** -/
theorem Continues.step (h : Continues sha256 rule s xs) {a : Act} (ha : Derived sha256 a)
    (hfresh : ∀ b ∈ xs, b.address ≠ a.address) {covered : String → Bool}
    (hcovered : ∀ id, covered id = true ↔ ∃ b ∈ xs, b.address = id)
    (happly : s.apply sha256 rule a covered = .ok s') : Continues sha256 rule s' (xs ++ [a]) := by
  have hnew : covered a.address = false := by
    rw [← Bool.not_eq_true, hcovered]
    rintro ⟨b, hb, hba⟩
    exact hfresh b hb hba
  have hcons : xs ++ [a] ≠ [] := by simp
  obtain ⟨facts, hfacts, rfl⟩ := apply_ok ha hnew happly
  refine ⟨fun hnil => absurd hnil hcons, fun _ => rfl, fun hidle => ?_, fun hsettles k f => ?_,
    fun hsettles id => ?_, fun _ => rfl⟩
  · have hno : ¬ settles rule = true := by rw [hidle]; simp
    rw [if_neg hno] at hfacts
    injection hfacts with hfacts
    refine ⟨hfacts.symm.trans (h.idle hidle).1, ?_⟩
    show (if settles rule = true then _ else s.known) = ∅
    rw [if_neg hno]
    exact (h.idle hidle).2
  · rw [if_pos hsettles] at hfacts
    exact getElem?_file h hsettles hfacts hfresh k f
  · rw [if_pos hsettles] at hfacts
    have hlook := getElem?_file h hsettles hfacts hfresh
    have hgrow : id ∈ s.facts → id ∈ facts := by
      intro hid
      obtain ⟨f, hf⟩ := Option.isSome_iff_exists.mp (Std.ExtTreeMap.mem_iff_isSome_getElem?.mp hid)
      obtain ⟨b, hb, hrest⟩ := (h.facts hsettles id f).mp hf
      rw [Std.ExtTreeMap.mem_iff_isSome_getElem?,
        (hlook id f).mpr ⟨b, List.mem_append_left _ hb, hrest⟩]
      rfl
    show id ∈ (if settles rule = true then _ else s.known) ↔ _
    rw [if_pos hsettles, mem_classify, h.known hsettles, hcovered]
    constructor
    · rintro (⟨⟨-, -, b, hb, hid⟩, hrefs, hno⟩ | ⟨hrefs, hno, rfl | ⟨-, b, hb, hid⟩⟩)
      · exact ⟨hrefs, hno, b, List.mem_append_left _ hb, hid⟩
      · exact ⟨hrefs, hno, a, List.mem_append_right _ (List.mem_singleton.mpr rfl), rfl⟩
      · exact ⟨hrefs, hno, b, List.mem_append_left _ hb, hid⟩
    · rintro ⟨hrefs, hno, b, hb, hid⟩
      rcases List.mem_append.mp hb with hb | hb
      · -- a reference asked for before keeps its answer; a new one is looked up
        by_cases hasked : id ∈ needed rule s.facts
        · exact Or.inl ⟨⟨hasked, fun hid => hno (hgrow hid), b, hb, hid⟩, hrefs, hno⟩
        · exact Or.inr ⟨hrefs, hno, Or.inr ⟨hasked, b, hb, hid⟩⟩
      · rw [List.mem_singleton.mp hb] at hid
        exact Or.inr ⟨hrefs, hno, Or.inl hid.symm⟩

/-- **The continuation is determined by the set of acts.** -/
theorem Continues.unique (h : Continues sha256 rule s xs) (h' : Continues sha256 rule s' ys)
    (hsame : ∀ a, a ∈ xs ↔ a ∈ ys) : s = s' := by
  by_cases hxs : xs = []
  · have hys : ys = [] := List.eq_nil_iff_forall_not_mem.mpr fun a ha => by
      rw [← hsame, hxs] at ha
      exact nomatch ha
    rw [h.fresh hxs, h'.fresh hys]
  have hys : ys ≠ [] := by
    rintro rfl
    exact hxs (List.eq_nil_iff_forall_not_mem.mpr fun a ha => nomatch (hsame a).mp ha)
  have hdata : s.facts = s'.facts ∧ s.known = s'.known := by
    cases hsettles : settles rule with
    | false =>
        exact ⟨(h.idle hsettles).1.trans (h'.idle hsettles).1.symm,
          (h.idle hsettles).2.trans (h'.idle hsettles).2.symm⟩
    | true =>
        have hfacts : s.facts = s'.facts := by
          refine Std.ExtTreeMap.ext_getElem? fun k => Option.ext fun f => ?_
          rw [h.facts hsettles, h'.facts hsettles]
          simp only [hsame]
        refine ⟨hfacts, Std.ExtTreeSet.ext_mem fun id => ?_⟩
        rw [h.known hsettles, h'.known hsettles, hfacts]
        simp only [hsame]
  have hrule := (h.bound hxs).trans (h'.bound hys).symm
  have houtcome := (h.outcome hxs).trans (by rw [hdata.1, hdata.2, ← h'.outcome hys])
  cases s
  cases s'
  dsimp only at hrule hdata houtcome
  rw [hrule, hdata.1, hdata.2, houtcome]

/-- A history of distinct acts agrees with itself. -/
theorem sameIdentity_of_keyed (hkeyed : Keyed xs) :
    ∀ a ∈ xs, ∀ b ∈ xs, a.address = b.address → SameIdentity a b := by
  intro a ha b hb hab
  rw [hkeyed a ha b hb hab]
  exact SameIdentity.refl b

/-- The facts of a continuation are those of the history. -/
theorem map_facts (h : Continues sha256 rule s xs) (hsettles : settles rule = true)
    {all : BTreeMap String Act} (hf : FiledActs (typedRoot sha256) xs all) :
    s.facts.map (fun _ f => f.toResourceFact) = (viewOf rule hf).all := by
  refine Std.ExtTreeMap.ext_getElem? fun k => Option.ext fun f => ?_
  rw [Std.ExtTreeMap.getElem?_map, Option.map_eq_some_iff]
  constructor
  · rintro ⟨g, hg, rfl⟩
    obtain ⟨a, ha, hfact, rfl⟩ := (h.facts hsettles k g).mp hg
    obtain ⟨f, hproj, rfl⟩ := Option.map_eq_some_iff.mp hfact
    rw [fact_viewOf hf ha]
    exact hproj
  · intro hview
    obtain ⟨a, ha, rfl⟩ := (present_viewOf hf).mp ((viewOf rule hf).present_of_fact hview)
    rw [fact_viewOf hf ha] at hview
    have hfact : factOf sha256 rule a
        = some { f with identity := sha256 (octets (typedRoot sha256 a.simple)) } := by
      unfold factOf
      rw [hview]
      rfl
    exact ⟨_, (h.facts hsettles a.address _).mpr ⟨a, ha, hfact, rfl⟩, rfl⟩

/-- **The cached outcome is the observation of all acts.** -/
theorem recompute_eq (h : Continues sha256 rule s xs) (hkeyed : Keyed xs)
    (hder : ∀ a ∈ xs, Derived sha256 a) :
    recompute rule s.facts s.known = CbclEscrow.observe (typedRoot sha256) rule xs := by
  cases hprofile : checkProfile rule with
  | error stop =>
      unfold recompute observeFacts settle CbclEscrow.observe
      rw [hprofile]
      rfl
  | ok u =>
      have hsettles : settles rule = true := by
        unfold checkProfile at hprofile
        unfold settles
        split at hprofile
        · exact nomatch hprofile
        · split at hprofile
          · exact nomatch hprofile
          · simp_all
      obtain ⟨all, hf, hobs⟩ := observe_filed (c := rule) hprofile
        (fun a ha => (hder a ha).consistent) (sameIdentity_of_keyed hkeyed)
      rw [hobs]
      unfold recompute
      rw [map_facts h hsettles hf]
      refine observeFacts_congr (fun k f hk id hasks hno => ?_) (viewOf rule hf).keyed
      rw [Bool.eq_iff_iff, Std.ExtTreeSet.contains_iff_mem, h.known hsettles, present_viewOf]
      refine ⟨fun hknown => hknown.2.2, fun hact => ?_⟩
      obtain ⟨a, ha, rfl⟩ := hact
      have hno' : a.address ∉ s.facts := by
        rw [← map_facts h hsettles hf] at hno
        simpa using hno
      refine ⟨mem_needed.mpr ?_, hno', a, ha, rfl⟩
      rw [← map_facts h hsettles hf, Std.ExtTreeMap.getElem?_map, Option.map_eq_some_iff] at hk
      obtain ⟨g, hg, rfl⟩ := hk
      refine ⟨k, g, hg, ?_⟩
      rcases hasks with ⟨hverb, hpred⟩ | hrefs
      · unfold references
        rw [if_pos hverb]
        exact List.mem_append_left _ (List.mem_filter.mpr ⟨hpred, (hder a ha).isAddress⟩)
      · exact hrefs

/-- **A continued counter renders the observation of the whole history.** -/
theorem Continues.render (h : Continues sha256 rule s xs) (hkeyed : Keyed xs)
    (hder : ∀ a ∈ xs, Derived sha256 a) :
    s.render rule = outcomeValue (CbclEscrow.observe (typedRoot sha256) rule xs) := by
  rw [← recompute_eq h hkeyed hder]
  by_cases hxs : xs = []
  · rw [h.fresh hxs]
    rfl
  · unfold Summary.render
    rw [h.bound hxs]
    dsimp only
    rw [if_neg (fun hne => hne rfl), h.outcome hxs]

end Histories

end CbclResourceResume
