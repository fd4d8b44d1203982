import Cbcl.EscrowHistoryProofs

/-!
# Observations of acts

`observe` files authenticated acts under their addresses and reads the facts a counter keeps
of them.  A filed history is consistent: every act carries the metadata of its own message,
and acts of one address agree on everything a counter reads.  Its view is the fact map with
the filed addresses present, and a smaller set of acts gives a part of it.
-/

namespace CbclEscrowObservation

open CbclMessage CbclAct CbclEscrow CbclEscrowHistory CbclEscrowSolvency CbclEscrowStage
open CbclTreeMap

variable {contentHash : Message → String}

-- ── Consistent acts ────

/-- An act carries the metadata of its own message. -/
def Consistent (contentHash : Message → String) (a : Act) : Prop :=
  ∃ rebuilt, Act.fromMessage contentHash a.message a.signer = .ok rebuilt ∧
    a.address = rebuilt.address ∧ a.verb = rebuilt.verb ∧ a.fields = rebuilt.fields ∧
    a.predecessors = rebuilt.predecessors ∧ a.recipients = rebuilt.recipients

/-- Two acts agree on what a counter reads of an identity. -/
def SameIdentity (a b : Act) : Prop :=
  a.signer = b.signer ∧ a.simple = b.simple ∧ lang a.message = lang b.message ∧
    CbclAct.cast a.message = CbclAct.cast b.message

theorem SameIdentity.refl (a : Act) : SameIdentity a a := ⟨rfl, rfl, rfl, rfl⟩

theorem SameIdentity.symm {a b : Act} (h : SameIdentity a b) : SameIdentity b a :=
  ⟨h.1.symm, h.2.1.symm, h.2.2.1.symm, h.2.2.2.symm⟩

theorem SameIdentity.trans {a b d : Act} (h : SameIdentity a b) (h' : SameIdentity b d) :
    SameIdentity a d :=
  ⟨h.1.trans h'.1, h.2.1.trans h'.2.1, h.2.2.1.trans h'.2.2.1, h.2.2.2.trans h'.2.2.2⟩

/-- What the metadata of a consistent act is. -/
theorem Consistent.metadata {a : Act} (h : Consistent contentHash a) :
    a.address = wireAddress contentHash a.simple ∧
      (∃ p, a.simple.performative = some p ∧ a.verb = p.name) ∧
      a.predecessors = citedHashes a.simple.causedBy ∧ a.fields = keywordFields a.simple := by
  obtain ⟨r, hr, haddr, hverb, hfields, hpred, -⟩ := h
  unfold Act.fromMessage at hr
  cases hs : a.message.innermostSimple with
  | none => rw [hs] at hr; exact nomatch hr
  | some simple =>
      rw [hs] at hr
      dsimp only at hr
      have hsimple : a.simple = simple := by
        unfold Act.simple
        rw [hs]
        rfl
      cases hp : simple.performative with
      | none => rw [hp] at hr; exact nomatch hr
      | some p =>
          rw [hp] at hr
          injection hr with hr
          subst hr
          rw [hsimple]
          exact ⟨haddr, ⟨p, hp, hverb⟩, hpred, hfields⟩

/-- An act built from a message carries the metadata of the message. -/
theorem consistent_fromMessage {m : Message} {signer : String} {a : Act}
    (h : Act.fromMessage contentHash m signer = .ok a) : Consistent contentHash a := by
  have hkept : a.message = m ∧ a.signer = signer := by
    unfold Act.fromMessage at h
    split at h
    · exact nomatch h
    · split at h
      · exact nomatch h
      · injection h with h
        rw [← h]
        exact ⟨rfl, rfl⟩
  refine ⟨a, ?_, rfl, rfl, rfl, rfl, rfl⟩
  rw [hkept.1, hkept.2, h]

/-- Acts of one identity project to one fact. -/
theorem project_congr {c : CounterRule} {a b : Act} (ha : Consistent contentHash a)
    (hb : Consistent contentHash b) (h : SameIdentity a b) :
    projectUnchecked c a = projectUnchecked c b := by
  obtain ⟨haddr, ⟨p, hp, hverb⟩, hpred, hfields⟩ := ha.metadata
  obtain ⟨haddr', ⟨p', hp', hverb'⟩, hpred', hfields'⟩ := hb.metadata
  obtain ⟨hsigner, hsimple, hlang, hcast⟩ := h
  rw [hsimple] at haddr hp hpred hfields
  have hpp : p = p' := Option.some.inj (hp.symm.trans hp')
  have hv : a.verb = b.verb := by rw [hverb, hverb', hpp]
  unfold projectUnchecked
  rw [hv, haddr, haddr'.symm, hsigner, hpred, hpred'.symm, hfields, hfields'.symm, hlang, hsimple,
    hcast]

/-- A projected fact keeps the address. -/
theorem project_address {c : CounterRule} {a : Act} {f : ResourceFact}
    (h : projectUnchecked c a = some f) : f.address = a.address := by
  unfold projectUnchecked at h
  split at h
  · exact nomatch h
  · injection h with h
    rw [← h]

-- ── Filing ────

/-- One act is filed if it is consistent and agrees with what is filed under its address. -/
theorem fileAct_ok_iff {all all' : BTreeMap String Act} {a : Act} :
    fileAct contentHash all a = .ok all' ↔ Consistent contentHash a ∧
      (∀ prev, all[a.address]? = some prev → SameIdentity prev a) ∧
      all' = all.insert a.address a := by
  unfold fileAct
  cases hr : Act.fromMessage contentHash a.message a.signer with
  | error e =>
      refine iff_of_false (fun h => nomatch h) ?_
      rintro ⟨⟨r, hr', -⟩, -⟩
      rw [hr] at hr'
      exact nomatch hr'
  | ok r =>
      dsimp only
      by_cases hid : a.address ≠ r.address ∨ a.verb ≠ r.verb ∨ a.fields ≠ r.fields
          ∨ a.predecessors ≠ r.predecessors ∨ a.recipients ≠ r.recipients
      · rw [if_pos hid]
        refine iff_of_false (fun h => nomatch h) ?_
        rintro ⟨⟨r', hr', h1, h2, h3, h4, h5⟩, -⟩
        rw [hr] at hr'
        injection hr' with hr'
        subst hr'
        tauto
      · rw [if_neg hid]
        have hcons : Consistent contentHash a := ⟨r, hr, by tauto⟩
        cases hprev : all[a.address]? with
        | none =>
            rw [Option.any_none, if_neg (by simp)]
            constructor
            · intro h
              injection h with h
              exact ⟨hcons, (fun prev hp => nomatch hp), h.symm⟩
            · rintro ⟨-, -, rfl⟩
              rfl
        | some prev =>
            rw [Option.any_some]
            by_cases hsame : SameIdentity prev a
            · rw [if_neg (by unfold SameIdentity at hsame; rw [decide_eq_true_eq]; tauto)]
              constructor
              · intro h
                injection h with h
                refine ⟨hcons, fun prev' hp => ?_, h.symm⟩
                injection hp with hp
                rw [← hp]
                exact hsame
              · rintro ⟨-, -, rfl⟩
                rfl
            · rw [if_pos]
              · exact iff_of_false (fun h => nomatch h) fun h => hsame (h.2.1 prev rfl)
              · rw [decide_eq_true_eq]
                by_contra hc
                refine hsame ?_
                unfold SameIdentity
                tauto

/-- A filed history: every act is consistent and agrees with the filed act of its address, and
    only given acts are filed. -/
structure FiledActs (contentHash : Message → String) (acts : List Act)
    (all : BTreeMap String Act) : Prop where
  consistent : ∀ a ∈ acts, Consistent contentHash a
  entry : ∀ a ∈ acts, ∃ b, all[a.address]? = some b ∧ SameIdentity b a
  given : ∀ (k : String) (b : Act), all[k]? = some b → b ∈ acts ∧ b.address = k

/-- **What filing establishes.** -/
theorem fileActs_ok {acts : List Act} {all : BTreeMap String Act}
    (h : acts.foldlM (fileAct contentHash) ∅ = .ok all) : FiledActs contentHash acts all := by
  refine CbclExcept.foldlM_inv (I := fun done all => FiledActs contentHash done all) ?_ ?_ h
  · intro done a b b' _ hI hstep
    obtain ⟨hcons, hprev, rfl⟩ := fileAct_ok_iff.mp hstep
    refine ⟨fun x hx => ?_, fun x hx => ?_, fun k x hx => ?_⟩
    · rcases List.mem_append.mp hx with hx | hx
      · exact hI.consistent x hx
      · rw [List.mem_singleton.mp hx]
        exact hcons
    · rw [getElem?_insert_eq]
      rcases List.mem_append.mp hx with hx | hx
      · obtain ⟨y, hy, hsame⟩ := hI.entry x hx
        by_cases haddr : x.address = a.address
        · rw [if_pos haddr]
          rw [haddr] at hy
          exact ⟨a, rfl, (hprev y hy).symm.trans hsame⟩
        · rw [if_neg haddr]
          exact ⟨y, hy, hsame⟩
      · rw [List.mem_singleton.mp hx, if_pos rfl]
        exact ⟨a, rfl, SameIdentity.refl a⟩
    · rw [getElem?_insert_eq] at hx
      split at hx
      · rename_i hk
        injection hx with hx
        subst hx
        exact ⟨List.mem_append_right _ (List.mem_singleton_self _), hk.symm⟩
      · obtain ⟨hmem, haddr⟩ := hI.given k x hx
        exact ⟨List.mem_append_left _ hmem, haddr⟩
  · refine ⟨(fun a ha => nomatch ha), (fun a ha => nomatch ha), fun k b hb => ?_⟩
    rw [Std.ExtTreeMap.getElem?_empty] at hb
    exact nomatch hb

/-- Acts filed under one address are one identity. -/
theorem FiledActs.same {acts : List Act} {all : BTreeMap String Act}
    (h : FiledActs contentHash acts all) {a b : Act} (ha : a ∈ acts) (hb : b ∈ acts)
    (haddr : a.address = b.address) : SameIdentity a b := by
  obtain ⟨x, hx, hxa⟩ := h.entry a ha
  obtain ⟨y, hy, hyb⟩ := h.entry b hb
  rw [haddr, hy] at hx
  injection hx with hx
  rw [← hx] at hxa
  exact hxa.symm.trans hyb

/-- Filing succeeds on consistent acts whose addresses identify them. -/
theorem fileActs_total {acts : List Act} (hcons : ∀ a ∈ acts, Consistent contentHash a)
    (hsame : ∀ a ∈ acts, ∀ b ∈ acts, a.address = b.address → SameIdentity a b) :
    ∃ all, acts.foldlM (fileAct contentHash) ∅ = .ok all := by
  let I : List Act → BTreeMap String Act → Prop := fun done all =>
    ∀ (k : String) (b : Act), all[k]? = some b → b ∈ done ∧ b.address = k
  have hstep : ∀ done a all, (∃ rest, done ++ a :: rest = acts) → I done all →
      ∃ all', fileAct contentHash all a = .ok all' ∧ I (done ++ [a]) all' := by
    rintro done a all ⟨rest, hsplit⟩ hI
    have ha : a ∈ acts := by rw [← hsplit]; simp
    refine ⟨all.insert a.address a, fileAct_ok_iff.mpr ⟨hcons a ha, fun prev hprev => ?_, rfl⟩,
      fun k b hb => ?_⟩
    · obtain ⟨hmem, haddr⟩ := hI a.address prev hprev
      refine hsame prev ?_ a ha haddr
      rw [← hsplit]
      exact List.mem_append_left _ hmem
    · rw [getElem?_insert_eq] at hb
      split at hb
      · rename_i hk
        injection hb with hb
        subst hb
        exact ⟨List.mem_append_right _ (List.mem_singleton_self _), hk.symm⟩
      · obtain ⟨hmem, haddr⟩ := hI k b hb
        exact ⟨List.mem_append_left _ hmem, haddr⟩
  have hstart : I [] ∅ := by
    intro k b hb
    rw [Std.ExtTreeMap.getElem?_empty] at hb
    exact nomatch hb
  obtain ⟨all, hall, -⟩ := CbclExcept.foldlM_total hstep hstart
  exact ⟨all, hall⟩

-- ── The view of a filed history ────

/-- The addresses of the facts of keyed acts are distinct. -/
theorem nodup_projected {c : CounterRule} {all : BTreeMap String Act}
    (keyed : ∀ (k : String) (b : Act), all[k]? = some b → b.address = k) :
    (((valuesOf all).filterMap (projectUnchecked c)).map (·.address)).Nodup := by
  have hacts := nodup_valuesOf_map all (·.address) keyed
  generalize valuesOf all = acts at hacts
  induction acts with
  | nil => exact List.nodup_nil
  | cons a acts ih =>
      rw [List.map_cons, List.nodup_cons] at hacts
      cases hp : projectUnchecked c a with
      | none => rw [List.filterMap_cons_none hp]; exact ih hacts.2
      | some f =>
          rw [List.filterMap_cons_some hp, List.map_cons, List.nodup_cons]
          refine ⟨fun hmem => hacts.1 ?_, ih hacts.2⟩
          obtain ⟨g, hg, haddr⟩ := List.mem_map.mp hmem
          obtain ⟨b, hb, hproj⟩ := List.mem_filterMap.mp hg
          refine List.mem_map.mpr ⟨b, hb, ?_⟩
          rw [← project_address hproj, haddr, project_address hp]

/-- The facts of keyed acts: the projection of the act under each address. -/
theorem getElem?_factsOf {c : CounterRule} {all : BTreeMap String Act}
    (keyed : ∀ (k : String) (b : Act), all[k]? = some b → b.address = k) (k : String)
    (f : ResourceFact) :
    (factsOf c all)[k]? = some f ↔ ∃ a, all[k]? = some a ∧ projectUnchecked c a = some f := by
  unfold factsOf
  rw [getElem?_foldl_insert (·.address) k f _ _ (nodup_projected keyed)]
  constructor
  · rintro (⟨hf, hk⟩ | ⟨-, hf⟩)
    · obtain ⟨a, ha, hproj⟩ := List.mem_filterMap.mp hf
      obtain ⟨k', hk'⟩ := (mem_valuesOf_iff _ _).mp ha
      refine ⟨a, ?_, hproj⟩
      rw [← hk, project_address hproj, keyed k' a hk']
      exact hk'
    · rw [Std.ExtTreeMap.getElem?_empty] at hf
      exact nomatch hf
  · rintro ⟨a, ha, hproj⟩
    refine Or.inl ⟨List.mem_filterMap.mpr ⟨a, (mem_valuesOf_iff _ _).mpr ⟨k, ha⟩, hproj⟩, ?_⟩
    rw [project_address hproj, keyed k a ha]

/-- Filed acts are keyed by their addresses. -/
theorem FiledActs.keyed {acts : List Act} {all : BTreeMap String Act}
    (h : FiledActs contentHash acts all) (k : String) (b : Act) (hb : all[k]? = some b) :
    b.address = k := (h.given k b hb).2

/-- The view of a filed history. -/
def viewOf (c : CounterRule) {acts : List Act} {all : BTreeMap String Act}
    (h : FiledActs contentHash acts all) : View where
  all := factsOf c all
  present := fun id => all.contains id
  keyed := by
    intro k f hf
    obtain ⟨a, ha, hproj⟩ := (getElem?_factsOf h.keyed k f).mp hf
    rw [project_address hproj, h.keyed k a ha]
  filed := by
    intro k hk
    obtain ⟨f, hf⟩ := Option.isSome_iff_exists.mp (Std.ExtTreeMap.mem_iff_isSome_getElem?.mp hk)
    obtain ⟨a, ha, -⟩ := (getElem?_factsOf h.keyed k f).mp hf
    rw [Std.ExtTreeMap.contains_iff_mem, Std.ExtTreeMap.mem_iff_isSome_getElem?, ha]
    rfl

/-- An address is present in a view if some act has it. -/
theorem present_viewOf {c : CounterRule} {acts : List Act} {all : BTreeMap String Act}
    (h : FiledActs contentHash acts all) {k : String} :
    (viewOf c h).present k = true ↔ ∃ a ∈ acts, a.address = k := by
  show all.contains k = true ↔ _
  rw [Std.ExtTreeMap.contains_iff_mem, Std.ExtTreeMap.mem_iff_isSome_getElem?,
    Option.isSome_iff_exists]
  constructor
  · rintro ⟨a, ha⟩
    exact ⟨a, (h.given k a ha).1, (h.given k a ha).2⟩
  · rintro ⟨a, ha, rfl⟩
    obtain ⟨b, hb, -⟩ := h.entry a ha
    exact ⟨b, hb⟩

/-- What a view reads at the address of an act is the fact of that act. -/
theorem fact_viewOf {c : CounterRule} {acts : List Act} {all : BTreeMap String Act}
    (h : FiledActs contentHash acts all) {a : Act} (ha : a ∈ acts) :
    (viewOf c h).all[a.address]? = projectUnchecked c a := by
  obtain ⟨b, hb, hsame⟩ := h.entry a ha
  have hproj : projectUnchecked c b = projectUnchecked c a :=
    project_congr (h.consistent b (h.given _ b hb).1) (h.consistent a ha) hsame
  rw [← hproj]
  ext f
  show (factsOf c all)[a.address]? = some f ↔ _
  rw [getElem?_factsOf h.keyed]
  constructor
  · rintro ⟨b', hb', hf⟩
    rw [hb] at hb'
    injection hb' with hb'
    rw [hb']
    exact hf
  · intro hf
    exact ⟨b, hb, hf⟩

/-- Fewer acts give a part of the view. -/
theorem viewOf_part {c : CounterRule} {acts acts' : List Act} {all all' : BTreeMap String Act}
    (h : FiledActs contentHash acts all) (h' : FiledActs contentHash acts' all')
    (hsub : ∀ a ∈ acts, a ∈ acts') : Part (viewOf c h) (viewOf c h') := by
  refine ⟨fun k hk => ?_, fun k hk => ?_⟩
  · obtain ⟨a, ha, hak⟩ := (present_viewOf h).mp hk
    exact (present_viewOf h').mpr ⟨a, hsub a ha, hak⟩
  · obtain ⟨a, ha, rfl⟩ := (present_viewOf h).mp hk
    rw [fact_viewOf h ha, fact_viewOf h' (hsub a ha)]

/-- A view has no more facts than there are acts. -/
theorem size_viewOf {c : CounterRule} {acts : List Act} {all : BTreeMap String Act}
    (h : FiledActs contentHash acts all) : (viewOf c h).all.size ≤ acts.length := by
  have haddresses : (acts.map (·.address)).length = acts.length := List.length_map _
  rw [← Std.ExtTreeMap.length_keys, ← haddresses]
  refine ((nodup_keys _).subperm fun k hk => ?_).length_le
  obtain ⟨f, hf⟩ := (mem_keys_iff _ _).mp hk
  obtain ⟨a, ha, hak⟩ := (present_viewOf h).mp ((viewOf c h).present_of_fact hf)
  exact List.mem_map.mpr ⟨a, ha, hak⟩

-- ── Whole observations ────

/-- A ready observation has filed its acts and settled their view. -/
theorem observe_ready {c : CounterRule} {acts : List Act} {snapshot : Snapshot}
    (h : observe contentHash c acts = .ready snapshot) :
    ∃ (all : BTreeMap String Act) (hf : FiledActs contentHash acts all),
      settle c (viewOf c hf).all (viewOf c hf).present = .ok snapshot := by
  unfold observe at h
  split at h
  · rename_i stop _
    cases stop with
    | pending e => exact nomatch h
    | fault r e => exact nomatch h
  · rename_i all hall
    obtain ⟨_, -, hfile⟩ := CbclExcept.bind_ok_iff.mp hall
    refine ⟨all, fileActs_ok hfile, ?_⟩
    unfold observeFacts at h
    split at h
    · rename_i s hs
      injection h with h
      rw [← h]
      exact hs
    · rename_i stop _
      cases stop with
      | pending e => exact nomatch h
      | fault r e => exact nomatch h

/-- An observation whose acts can be filed is the settlement of their view. -/
theorem observe_filed {c : CounterRule} {acts : List Act} (hprofile : checkProfile c = .ok ())
    (hcons : ∀ a ∈ acts, Consistent contentHash a)
    (hsame : ∀ a ∈ acts, ∀ b ∈ acts, a.address = b.address → SameIdentity a b) :
    ∃ (all : BTreeMap String Act) (hf : FiledActs contentHash acts all),
      observe contentHash c acts
        = observeFacts c (viewOf c hf).all (viewOf c hf).present := by
  obtain ⟨all, hall⟩ := fileActs_total hcons hsame
  refine ⟨all, fileActs_ok hall, ?_⟩
  unfold observe
  rw [hprofile]
  dsimp only [bind, Except.bind]
  rw [hall]
  rfl

/-- Acts of one identity can be exchanged in a ready history. -/
theorem observe_exchange {c : CounterRule} {acts : List Act} {a b : Act} {snapshot : Snapshot}
    (hb : Consistent contentHash b) (hsame : SameIdentity a b)
    (h : observe contentHash c (acts ++ [a]) = .ready snapshot) :
    observe contentHash c (acts ++ [b]) = .ready snapshot := by
  obtain ⟨all, hf, hsettle⟩ := observe_ready h
  obtain ⟨o, ops, hpass, -⟩ := passed_of_ok hsettle
  have ha : Consistent contentHash a := hf.consistent a (by simp)
  have haddr : a.address = b.address := by
    rw [ha.metadata.1, hb.metadata.1, hsame.2.1]
  -- every act of one history has one of its identity in the other
  have hmatch : ∀ x ∈ acts ++ [b], ∃ y ∈ acts ++ [a], SameIdentity y x ∧ y.address = x.address := by
    intro x hx
    rcases List.mem_append.mp hx with hx | hx
    · exact ⟨x, List.mem_append_left _ hx, .refl x, rfl⟩
    · rw [List.mem_singleton.mp hx]
      exact ⟨a, by simp, hsame, haddr⟩
  have hmatch' : ∀ y ∈ acts ++ [a], ∃ x ∈ acts ++ [b], x.address = y.address := by
    intro y hy
    rcases List.mem_append.mp hy with hy | hy
    · exact ⟨y, List.mem_append_left _ hy, rfl⟩
    · rw [List.mem_singleton.mp hy]
      exact ⟨b, by simp, haddr.symm⟩
  have hcons : ∀ x ∈ acts ++ [b], Consistent contentHash x := by
    intro x hx
    rcases List.mem_append.mp hx with hx | hx
    · exact hf.consistent x (List.mem_append_left _ hx)
    · rw [List.mem_singleton.mp hx]
      exact hb
  obtain ⟨all', hf', hobs⟩ := observe_filed hpass.profile hcons fun x hx y hy hxy => by
    obtain ⟨x', hx', hsx, hax⟩ := hmatch x hx
    obtain ⟨y', hy', hsy, hay⟩ := hmatch y hy
    exact hsx.symm.trans ((hf.same hx' hy' (hax.trans (hxy.trans hay.symm))).trans hsy)
  have hpresent : (viewOf c hf').present = (viewOf c hf).present := by
    funext k
    rw [Bool.eq_iff_iff, present_viewOf hf', present_viewOf hf]
    constructor
    · rintro ⟨x, hx, rfl⟩
      obtain ⟨y, hy, -, hay⟩ := hmatch x hx
      exact ⟨y, hy, hay⟩
    · rintro ⟨y, hy, rfl⟩
      exact hmatch' y hy
  have hfacts : (viewOf c hf').all = (viewOf c hf).all := by
    refine Std.ExtTreeMap.ext_getElem? fun k => ?_
    by_cases hk : (viewOf c hf').present k = true
    · obtain ⟨x, hx, rfl⟩ := (present_viewOf hf').mp hk
      obtain ⟨y, hy, hsy, hay⟩ := hmatch x hx
      rw [fact_viewOf hf' hx, ← hay, fact_viewOf hf hy]
      exact (project_congr (hf.consistent y hy) (hcons x hx) hsy).symm
    · have hnone : ∀ v : View, v.present k ≠ true → v.all[k]? = none := fun v hv => by
        cases hget : v.all[k]? with
        | none => rfl
        | some f => exact absurd (v.present_of_fact hget) hv
      rw [hnone _ hk, hnone _ (hpresent ▸ hk)]
  rw [hobs, hpresent, hfacts]
  unfold observeFacts
  rw [hsettle]

/-- The openers of a ready history share an address, and name one act of the history. -/
theorem openers_ready {c : CounterRule} {acts : List Act} {snapshot : Snapshot}
    (h : observe contentHash c acts = .ready snapshot) :
    ∃ op ∈ acts, op.verb = c.initial_verb ∧ ∃ r ∈ acts, ∀ a ∈ acts, a.verb = c.initial_verb →
      a.address = op.address ∧ a.predecessors.map resourceStateId = [r.address] := by
  obtain ⟨all, hf, hsettle⟩ := observe_ready h
  obtain ⟨o, ops, hpass, -⟩ := passed_of_ok hsettle
  obtain ⟨f, hop, hopen⟩ := CbclExcept.bind_ok_iff.mp hpass.opening
  obtain ⟨root, hroot, -⟩ := CbclExcept.bind_ok_iff.mp hopen
  have honly := findOpener_only hop
  have hverb : f.verb = c.initial_verb := by
    have hmem : f ∈ (valuesOf (viewOf c hf).all).filter (·.verb = c.initial_verb) := by
      rw [honly]
      exact List.mem_singleton_self f
    exact of_decide_eq_true (List.mem_filter.mp hmem).2
  -- the fact of an opener is the one found
  have hfact : ∀ a ∈ acts, a.verb = c.initial_verb → projectUnchecked c a = some f := by
    intro a ha hv
    have hread := @fact_viewOf _ c _ _ hf a ha
    obtain ⟨g, hg⟩ : ∃ g, projectUnchecked c a = some g := by
      unfold projectUnchecked
      rw [if_neg (fun hno => hno.1 (hv ▸ List.mem_append_right _ (List.mem_singleton_self _)))]
      exact ⟨_, rfl⟩
    have hgverb : g.verb = c.initial_verb := by
      have hga : g.verb = a.verb := by
        unfold projectUnchecked at hg
        split at hg
        · exact nomatch hg
        · rw [← Option.some.inj hg]
      rw [hga, hv]
    have hmem : g ∈ (valuesOf (viewOf c hf).all).filter (·.verb = c.initial_verb) := by
      rw [List.mem_filter]
      exact ⟨(mem_valuesOf_iff _ _).mpr ⟨_, hread.trans hg⟩, decide_eq_true hgverb⟩
    rw [honly] at hmem
    rw [hg, List.mem_singleton.mp hmem]
  have hmeta : ∀ a, projectUnchecked c a = some f →
      a.address = f.address ∧ a.predecessors.map resourceStateId = f.predecessors ∧
        a.verb = f.verb := by
    intro a ha
    unfold projectUnchecked at ha
    split at ha
    · exact nomatch ha
    · rw [← Option.some.inj ha]
      exact ⟨rfl, rfl, rfl⟩
  obtain ⟨k, hk⟩ := findOpener_mem hop
  obtain ⟨op, hopk, hopf⟩ := (getElem?_factsOf hf.keyed k f).mp hk
  obtain ⟨haddr, -, hopverb⟩ := hmeta op hopf
  refine ⟨op, (hf.given k op hopk).1, hopverb.trans hverb, ?_⟩
  unfold findRoot at hroot
  split at hroot
  · rename_i p hp
    split at hroot
    · rename_i g hg
      obtain ⟨r, hr, -⟩ := (getElem?_factsOf hf.keyed p g).mp hg
      obtain ⟨hrmem, hrp⟩ := hf.given p r hr
      refine ⟨r, hrmem, fun a ha hv => ?_⟩
      obtain ⟨ha1, ha2, -⟩ := hmeta a (hfact a ha hv)
      exact ⟨ha1.trans haddr.symm, by rw [ha2, hp, hrp]⟩
    · split at hroot <;> exact nomatch hroot
  · exact nomatch hroot

/-- The length of a list field survives projection. -/
theorem project_list_length {c : CounterRule} {a : Act} {f : ResourceFact}
    (h : projectUnchecked c a = some f) {k : String} {xs : List SExpr}
    (hx : f.fields[k]? = some (.list xs)) :
    ∃ ys, a.fields[k]? = some (.list ys) ∧ ys.length = xs.length := by
  have hlink : ∀ y zs, projectedLink y = .list zs → y = .list zs := by
    intro y zs hy
    unfold projectedLink at hy
    split at hy
    · exact nomatch hy
    · exact nomatch hy
    · exact hy
  unfold projectUnchecked at h
  split at h
  · exact nomatch h
  injection h with h
  subst h
  dsimp only at hx
  rw [Std.ExtTreeMap.getElem?_map, Std.ExtTreeMap.getElem?_filter'] at hx
  obtain ⟨y, hy, hval⟩ := Option.map_eq_some_iff.mp hx
  obtain ⟨hy, -⟩ := Option.filter_eq_some_iff.mp hy
  unfold projectedField at hval
  split at hval
  · rw [hlink y xs hval] at hy
    exact ⟨xs, hy, rfl⟩
  · split at hval
    · cases y with
      | atom b => exact nomatch hval
      | list ys =>
          injection hval with hval
          exact ⟨ys, hy, by rw [← hval, List.length_map]⟩
    · rw [hval] at hy
      exact ⟨xs, hy, rfl⟩

/-- A counter opened over a slice has an account list the slice holds. -/
theorem initial_size {c : CounterRule} (S : ActSlice) {all : BTreeMap String Act}
    (hf : FiledActs contentHash S.acts all) {o : Opening}
    (ho : openCounter c (viewOf c hf).all (viewOf c hf).present = .ok o) :
    o.initial.size < 2 ^ 63 := by
  obtain ⟨x, hx, hall⟩ := (openCounter_ok ho).initial
  obtain ⟨pairs, rfl, hsize, -⟩ := allocations_ok hall
  obtain ⟨op, hop, ho⟩ := CbclExcept.bind_ok_iff.mp ho
  obtain ⟨root, -, ho⟩ := CbclExcept.bind_ok_iff.mp ho
  have hopen : o.op = op := (openWith_ok ho).1
  rw [hopen] at hx
  -- the opener is one of the facts
  obtain ⟨k, hk⟩ := findOpener_mem hop
  obtain ⟨a, ha, hproj⟩ := (getElem?_factsOf hf.keyed k op).mp hk
  obtain ⟨ys, hys, hlen⟩ := project_list_length hproj hx
  have hlt := S.fields_lt a (hf.given k a ha).1 _ ys hys
  omega

/-- **A faulted history never recovers, and a good one has only good sub-histories.**  If a
    slice of acts is ready, every slice of some of its acts is ready or pending; so a fault
    over some acts excludes readiness over any more. -/
theorem sub_history_good (contentHash : Message → String) (c : CounterRule) (S S' : ActSlice)
    (hsub : ∀ a ∈ S.acts, a ∈ S'.acts) :
    (∀ snapshot, observe contentHash c S'.acts = .ready snapshot →
      (∃ part, observe contentHash c S.acts = .ready part) ∨
        ∃ evidence, observe contentHash c S.acts = .pending evidence) ∧
    (∀ reason evidence, observe contentHash c S.acts = .fault reason evidence →
      ∀ snapshot, observe contentHash c S'.acts ≠ .ready snapshot) := by
  have hgood : ∀ snapshot, observe contentHash c S'.acts = .ready snapshot →
      (∃ part, observe contentHash c S.acts = .ready part) ∨
        ∃ evidence, observe contentHash c S.acts = .pending evidence := by
    intro snapshot hready
    obtain ⟨all', hf', hsettle⟩ := observe_ready hready
    obtain ⟨o, ops, hpass, -⟩ := passed_of_ok hsettle
    obtain ⟨all, hf, hobs⟩ := observe_filed hpass.profile
      (fun a ha => hf'.consistent a (hsub a ha))
      fun a ha b hb haddr => hf'.same (hsub a ha) (hsub b hb) haddr
    rw [hobs]
    unfold observeFacts
    rcases settle_part (viewOf_part hf hf' hsub) hsettle
      (lt_of_le_of_lt (size_viewOf hf) S.length_lt) (fun o ho => initial_size S' hf' ho) with
      ⟨part, hpart⟩ | ⟨evidence, hpart⟩
    · rw [hpart]
      exact Or.inl ⟨part, rfl⟩
    · rw [hpart]
      exact Or.inr ⟨evidence, rfl⟩
  refine ⟨hgood, fun reason evidence hfault snapshot hready => ?_⟩
  rcases hgood snapshot hready with ⟨part, hpart⟩ | ⟨evidence', hpart⟩
  · rw [hfault] at hpart
    exact nomatch hpart
  · rw [hfault] at hpart
    exact nomatch hpart

-- ── A small history ────

/-- The length of a list, zero for an atom. -/
def listLength : SExpr → Nat
  | .list xs => xs.length
  | .atom _ => 0

/-- A list of acts with short fields is a slice. -/
def sliceOf (acts : List Act) (hlen : acts.length < 2 ^ 63)
    (hfields : ∀ a ∈ acts, ∀ e ∈ a.fields.toList, listLength e.2 < 2 ^ 63) : ActSlice :=
  ⟨acts, hlen, fun a ha k xs hx =>
    hfields a ha (k, .list xs) (Std.ExtTreeMap.mem_toList_iff_getElem?_eq_some.mpr hx)⟩

/-- A hash that tells the messages of the small history apart. -/
def tillHash (m : Message) : String :=
  match m with
  | .simple (.custom verb) .. =>
      "sha256:" ++ String.ofList (List.replicate 64 (if verb = "open" then '1' else '2'))
  | _ => "sha256:" ++ String.ofList (List.replicate 64 '0')

/-- A till with one bank and no ceiling. -/
def tillRule : CounterRule where
  ownership := .account
  certification := .hostGate
  floor := 0
  ceiling := none
  initial_verb := "open"
  initial_key := "alloc"
  headroom_key := none
  issuer := "bank"
  increment := ("put", "n")
  decrement := ("take", "n")
  transfer := some ("pass", "to", "n")
  transfer_headroom := none

/-- The root with the cast, the opener, and one withdrawal. -/
def tillMessages : List Message :=
  [.wrapped .withRoles [.list [.list [.atom (.symbol "bank"), .atom (.symbol "@a"),
      .atom (.symbol "@b")]]]
      (.simple (.core .hello) none (.list []) [] (some "t") none (some .begin)),
   .simple (.custom "open") none (.list [])
      [.atom (.keyword "alloc"), .list [.list [.atom (.symbol "@a"), .atom (.num 5)],
        .list [.atom (.symbol "@b"), .atom (.num 0)]]] (some "t") none
      (some (.single "sha256-0000000000000000000000000000000000000000000000000000000000000000")),
   .simple (.custom "take") none (.list [])
      [.atom (.keyword "n"), .atom (.num 3), .atom (.keyword "from"), .atom (.symbol "@a"),
        .atom (.keyword "escrow-prev"),
        .atom (.symbol "sha256-1111111111111111111111111111111111111111111111111111111111111111"),
        .atom (.keyword "escrow-deps"), .list []] (some "t") none
      (some (.single "sha256-1111111111111111111111111111111111111111111111111111111111111111"))]

/-- The acts of the small history, all signed by one account. -/
def tillActs (n : Nat) : List Act :=
  (tillMessages.take n).filterMap fun m => (Act.fromMessage tillHash m "@a").toOption

/-- The small history as a slice. -/
def tillWhole : ActSlice := sliceOf (tillActs 3) (by decide +kernel) (by decide +kernel)

/-- The small history before the withdrawal. -/
def tillPart : ActSlice := sliceOf (tillActs 2) (by decide +kernel) (by decide +kernel)

theorem sub_history_good_till :
    (∃ snapshot, observe tillHash tillRule tillWhole.acts = .ready snapshot) ∧
      ((∃ part, observe tillHash tillRule tillPart.acts = .ready part) ∨
        ∃ evidence, observe tillHash tillRule tillPart.acts = .pending evidence) := by
  have hready : ∃ snapshot, observe tillHash tillRule tillWhole.acts = .ready snapshot := by
    have hcheck : (observe tillHash tillRule tillWhole.acts).ctorIdx = 0 := by decide +kernel
    cases hobserve : observe tillHash tillRule tillWhole.acts with
    | ready snapshot => exact ⟨snapshot, rfl⟩
    | pending evidence => rw [hobserve] at hcheck; cases hcheck
    | fault reason evidence => rw [hobserve] at hcheck; cases hcheck
  refine ⟨hready, ?_⟩
  obtain ⟨snapshot, hsnapshot⟩ := hready
  exact (sub_history_good tillHash tillRule tillPart tillWhole (by decide +kernel)).1 snapshot
    hsnapshot

/-- The part of the till lacks the withdrawal only. -/
example : tillPart.acts.length + 1 = tillWhole.acts.length := by decide

end CbclEscrowObservation
