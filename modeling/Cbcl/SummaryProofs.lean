import Cbcl.Sha256Proofs
import Cbcl.SummaryRenderProofs

/-!
# A summary refines the fold

A summary follows a history when every row holds it.  Starting from the empty summary and
applying acts one by one, with an identity covered once its act has been applied, the summary
follows the history applied so far; so what it renders is the fold of the history, and two
orders of one history give one summary, one record and one hash.
-/

namespace CbclSummary

open CbclMessage CbclProtocol CbclAct CbclEscrow CbclState CbclStateMeaning CbclStateSelection
  CbclStateFold CbclCanonical CbclTypedAddr CbclCodec CbclPositions CbclTreeMap

section Following

variable (sha256 : Octets → Digest) (protocolCode : Option CausalProtocol → List UInt8)
  (clause : StateClause) (protocol : Option CausalProtocol)

/-- A summary follows a history. -/
structure Follows (s : Summary) (xs : List Act) : Prop where
  clause_eq : s.clause = clause
  protocol_eq : s.protocol = protocol
  domains : clause.domains = []
  keeps : s.global_progress.isSome = (protocol.filter (keepsPositions clause)).isSome
  positions : ∀ g, s.global_progress = some g → Resumes sha256 protocolCode protocol "" g xs
  rows : List.Forall₂ (fun f data => Holds sha256 protocolCode protocol xs f.2 data)
    clause.fields s.rows
  nodup : (xs.map (·.address)).Nodup
  derived : ∀ a ∈ xs, Derived sha256 a
  checked : ∀ a ∈ xs, ∀ f ∈ clause.fields,
    checkReferences f.2 a = .ok () ∧ checkData f.2 a = .ok ()

variable {sha256 protocolCode clause protocol}

theorem emptyRows_ok : ∀ {entries : List Entry} {before : List (String × Rule)}
    {rows : List RowData}, emptyRows protocolCode protocol before entries = .ok rows →
      List.Forall₂ (fun f data => emptyRow protocolCode protocol f.2 = .ok data)
        (StateClause.fields ⟨entries⟩) rows ∧ StateClause.domains ⟨entries⟩ = [] := by
  intro entries
  induction entries with
  | nil =>
      intro before rows h
      injection h with h
      subst h
      exact ⟨.nil, rfl⟩
  | cons e entries ih =>
      intro before rows h
      cases e with
      | domain verb key field => exact nomatch h
      | field name rule =>
          rw [emptyRows] at h
          dsimp only at h
          split at h
          · exact nomatch h
          obtain ⟨_, -, h⟩ := CbclExcept.bind_ok_iff.mp h
          obtain ⟨row, hrow, h⟩ := CbclExcept.bind_ok_iff.mp h
          obtain ⟨rest, hrest, h⟩ := CbclExcept.bind_ok_iff.mp h
          injection h with h
          subst h
          obtain ⟨hrows, hdomains⟩ := ih hrest
          exact ⟨.cons hrow hrows, hdomains⟩

/-- The empty summary follows the empty history. -/
theorem follows_new {s : Summary} (h : Summary.new protocolCode clause protocol = .ok s) :
    Follows sha256 protocolCode clause protocol s [] := by
  unfold Summary.new at h
  obtain ⟨rows, hrows, h⟩ := CbclExcept.bind_ok_iff.mp h
  obtain ⟨g, hg, h⟩ := CbclExcept.bind_ok_iff.mp h
  injection h with h
  subst h
  obtain ⟨hrows, hdomains⟩ := emptyRows_ok hrows
  have hglobal : g.isSome = (protocol.filter (keepsPositions clause)).isSome ∧
      ∀ g', g = some g' → Resumes sha256 protocolCode protocol "" g' [] := by
    cases hp : protocol.filter (keepsPositions clause) with
    | none =>
        rw [hp] at hg
        injection hg with hg
        subst hg
        exact ⟨rfl, fun g' h => nomatch h⟩
    | some p =>
        rw [hp] at hg
        obtain ⟨g', hg', hg⟩ := CbclExcept.map_ok_iff.mp hg
        subst hg
        refine ⟨rfl, fun g'' h => ?_⟩
        injection h with h
        subst h
        rw [(Option.filter_eq_some_iff.mp hp).1]
        exact resumes_new hg'
  exact ⟨rfl, rfl, hdomains, hglobal.1, hglobal.2, hrows.imp fun f data h => holds_empty h,
    List.nodup_nil, (fun a ha => nomatch ha), (fun a ha => nomatch ha)⟩

theorem checkAct_ok {a : Act} (h : checkAct sha256 a = .ok ()) : Derived sha256 a := by
  unfold checkAct at h
  split at h
  · exact nomatch h
  · rename_i derived hd
    split at h
    · exact nomatch h
    · rename_i heq
      unfold Derived
      rw [hd, not_not.mp heq]

theorem applyRows_ok {a : Act} {covered : String → Bool} {xs : List Act}
    (hext : Extends sha256 xs a covered) : ∀ {fields : List (String × Rule)}
    {rows rows' : List RowData},
      List.Forall₂ (fun f data => Holds sha256 protocolCode protocol xs f.2 data) fields rows →
      applyRows sha256 protocolCode a covered fields rows = .ok rows' →
      List.Forall₂ (fun f data => Holds sha256 protocolCode protocol (xs ++ [a]) f.2 data)
        fields rows' := by
  intro fields
  induction fields with
  | nil =>
      intro rows rows' hrows h
      injection h with h
      subst h
      exact .nil
  | cons f fields ih =>
      intro rows rows' hrows h
      obtain ⟨name, r⟩ := f
      cases hrows with
      | @cons _ data _ rest hdata hrest =>
          obtain ⟨data', hdata', h⟩ := CbclExcept.bind_ok_iff.mp h
          obtain ⟨rest', hrest', h⟩ := CbclExcept.bind_ok_iff.mp h
          injection h with h
          subst h
          exact .cons (hdata.step hext hdata') (ih hrest hrest')

/-- What a successful application checks and does. -/
theorem apply_ok {s s' : Summary} {a : Act} {covered : String → Bool}
    (hnew : covered a.address = false) (h : s.apply sha256 protocolCode a covered = .ok s') :
    Derived sha256 a ∧
      (∀ f ∈ s.clause.fields, checkReferences f.2 a = .ok () ∧ checkData f.2 a = .ok ()) ∧
      ∃ g rows, s.global_progress.mapM (fun g => g.apply sha256 protocolCode a) = .ok g ∧
        applyRows sha256 protocolCode a covered s.clause.fields s.rows = .ok rows ∧
        s' = { s with global_progress := g, rows := rows } := by
  have hforM : ∀ fs : List (String × Rule),
      (fs.forM fun (f : String × Rule) => (do checkReferences f.2 a; checkData f.2 a :
        Except Error Unit)) = .ok () →
      ∀ f ∈ fs, checkReferences f.2 a = .ok () ∧ checkData f.2 a = .ok () := by
    intro fs
    induction fs with
    | nil => intro _ f hf; exact nomatch hf
    | cons f fs ih =>
        intro hall f' hf'
        obtain ⟨_, hhead, htail⟩ := CbclExcept.bind_ok_iff.mp hall
        obtain ⟨_, hrefs, hdata⟩ := CbclExcept.bind_ok_iff.mp hhead
        rcases List.mem_cons.mp hf' with rfl | hf'
        · exact ⟨hrefs, hdata⟩
        · exact ih htail f' hf'
  unfold Summary.apply at h
  obtain ⟨_, hact, h⟩ := CbclExcept.bind_ok_iff.mp h
  obtain ⟨_, hchecks, h⟩ := CbclExcept.bind_ok_iff.mp h
  rw [hnew, if_neg (by simp)] at h
  obtain ⟨g, hg, h⟩ := CbclExcept.bind_ok_iff.mp h
  obtain ⟨rows, hrows, h⟩ := CbclExcept.bind_ok_iff.mp h
  injection h with h
  exact ⟨checkAct_ok hact, hforM _ hchecks, g, rows, hg, hrows, h.symm⟩

/-- **One act.** -/
theorem Follows.step {s s' : Summary} {xs : List Act}
    (h : Follows sha256 protocolCode clause protocol s xs) {a : Act} {covered : String → Bool}
    (hcovered : ∀ id, covered id = true ↔ Arrived xs id)
    (hnodup : ((xs ++ [a]).map (·.address)).Nodup)
    (happly : s.apply sha256 protocolCode a covered = .ok s') :
    Follows sha256 protocolCode clause protocol s' (xs ++ [a]) := by
  have hfresh : ¬ Arrived xs a.address := by
    rintro ⟨b, hb, hba⟩
    rw [List.map_append] at hnodup
    exact List.disjoint_left.mp (List.disjoint_of_nodup_append hnodup) (List.mem_map_of_mem hb)
      (by rw [hba]; exact List.mem_singleton.mpr rfl)
  have hnew : covered a.address = false := by
    rw [← Bool.not_eq_true, hcovered]
    exact hfresh
  obtain ⟨hder, hchecks, g, rows, hg, hrows, rfl⟩ := apply_ok hnew happly
  have hext : Extends sha256 xs a covered := ⟨hnodup, hcovered, h.derived, hder⟩
  rw [h.clause_eq] at hchecks hrows
  have hglobal : g.isSome = s.global_progress.isSome ∧
      ∀ g', g = some g' → Resumes sha256 protocolCode protocol "" g' (xs ++ [a]) := by
    cases hp : s.global_progress with
    | none =>
        rw [hp] at hg
        injection hg with hg
        subst hg
        exact ⟨rfl, fun g' h => nomatch h⟩
    | some p =>
        rw [hp] at hg
        obtain ⟨p', hp', hg⟩ := CbclExcept.map_ok_iff.mp hg
        subst hg
        refine ⟨rfl, fun g' h' => ?_⟩
        injection h' with h'
        subst h'
        exact (h.positions p hp).step h.derived hder (fun b hb hba => hfresh ⟨b, hb, hba⟩) hp'
  refine ⟨h.clause_eq, h.protocol_eq, h.domains, hglobal.1.trans h.keeps, hglobal.2,
    applyRows_ok hext h.rows hrows, hnodup, fun b hb => ?_, fun b hb => ?_⟩
  · rcases List.mem_append.mp hb with hb | hb
    · exact h.derived b hb
    · rw [List.mem_singleton.mp hb]
      exact hder
  · rcases List.mem_append.mp hb with hb | hb
    · exact h.checked b hb
    · rw [List.mem_singleton.mp hb]
      exact hchecks

/-- **A run of acts.** -/
theorem Follows.run {acts : List Act} : ∀ {s s' : Summary} {xs : List Act} {applied : List String},
    Follows sha256 protocolCode clause protocol s xs →
    (∀ id, applied.contains id = true ↔ Arrived xs id) →
    ((xs ++ acts).map (·.address)).Nodup →
    s.applyAll sha256 protocolCode acts applied = .ok s' →
    Follows sha256 protocolCode clause protocol s' (xs ++ acts) := by
  induction acts with
  | nil =>
      intro s s' xs applied h _ _ happly
      injection happly with happly
      subst happly
      rw [List.append_nil]
      exact h
  | cons a acts ih =>
      intro s s' xs applied h happlied hnodup happly
      obtain ⟨s₁, hs₁, happly⟩ := CbclExcept.bind_ok_iff.mp happly
      have hassoc : xs ++ a :: acts = (xs ++ [a]) ++ acts := by simp
      rw [hassoc] at hnodup ⊢
      have hfirst : ((xs ++ [a]).map (·.address)).Nodup := by
        rw [List.map_append] at hnodup
        exact hnodup.of_append_left
      refine ih (h.step happlied hfirst hs₁) (fun id => ?_) hnodup happly
      rw [arrived_append, ← happlied, List.contains_cons, Bool.or_eq_true, beq_iff_eq, or_comm,
        @eq_comm _ id]

/-- **A history has one summary.** -/
theorem Follows.unique {s s' : Summary} {xs ys : List Act} (hperm : xs.Perm ys)
    (h : Follows sha256 protocolCode clause protocol s xs)
    (h' : Follows sha256 protocolCode clause protocol s' ys) : s = s' := by
  have hrows : s.rows = s'.rows := by
    have huniq : ∀ {fields : List (String × Rule)} {rows rows' : List RowData},
        List.Forall₂ (fun f data => Holds sha256 protocolCode protocol xs f.2 data) fields rows →
        List.Forall₂ (fun f data => Holds sha256 protocolCode protocol ys f.2 data) fields rows' →
        rows = rows' := by
      intro fields
      induction fields with
      | nil =>
          intro rows rows' hr hr'
          cases hr
          cases hr'
          rfl
      | cons f fields ih =>
          intro rows rows' hr hr'
          cases hr with
          | cons hd hrest =>
              cases hr' with
              | cons hd' hrest' =>
                  rw [hd.unique hperm h.nodup h.derived hd', ih hrest hrest']
    exact huniq h.rows h'.rows
  have hglobal : s.global_progress = s'.global_progress := by
    have hsome : s.global_progress.isSome = s'.global_progress.isSome := h.keeps.trans h'.keeps.symm
    cases hg : s.global_progress with
    | none =>
        cases hg' : s'.global_progress with
        | none => rfl
        | some g' =>
            rw [hg, hg'] at hsome
            exact nomatch hsome
    | some g =>
        cases hg' : s'.global_progress with
        | none =>
            rw [hg, hg'] at hsome
            exact nomatch hsome
        | some g' =>
            rw [(h.positions g hg).unique (h'.positions g' hg') (fun a => hperm.mem_iff) h.derived]
  have hclause := h.clause_eq.trans h'.clause_eq.symm
  have hprotocol := h.protocol_eq.trans h'.protocol_eq.symm
  cases s
  cases s'
  dsimp only at hrows hglobal hclause hprotocol
  rw [hrows, hglobal, hclause, hprotocol]

/-- **A summary renders the fold of its history.** -/
theorem Follows.render {s : Summary} {xs : List Act}
    (h : Follows sha256 protocolCode clause protocol s xs)
    (hseparate : ∀ f ∈ clause.fields, SeparateClock f.2) :
    s.render sha256 = fold (typedRoot sha256) clause protocol xs := by
  have hkeyed : Keyed xs :=
    (List.nodup_map_iff_inj_on h.nodup.of_map).mp h.nodup
  have hfaithful : Faithful (typedRoot sha256) clause xs := fun _ a ha =>
    (h.derived a ha).consistent
  have henum : Enumerates xs xs.toFinset := ⟨fun a => List.mem_toFinset.symm, h.nodup⟩
  have hfold : ∀ {fields : List (String × Rule)} {rows : List RowData} {done : State},
      List.Forall₂ (fun f data => Holds sha256 protocolCode protocol xs f.2 data) fields rows →
      (∀ f ∈ fields, f ∈ clause.fields) →
      (fields.zip rows).foldl (fun done x =>
          done ++ [(x.1.1, renderRow sha256 x.1.1 x.1.2 x.2 done)]) done
        = fields.foldl (fun done f => done ++ [(f.1, ruleMeaning (typedRoot sha256) []
            xs.toFinset done protocol f.2)]) done := by
    intro fields
    induction fields with
    | nil => intro rows done _ _; rfl
    | cons f fields ih =>
        intro rows done hrows hsub
        obtain ⟨name, r⟩ := f
        cases hrows with
        | @cons _ data _ rest hdata hrest =>
            have hf := hsub _ (List.mem_cons_self ..)
            have hrow : renderRow sha256 name r data done
                = ruleMeaning (typedRoot sha256) [] xs.toFinset done protocol r :=
              hdata.render henum h.derived (hseparate _ hf) (fun a ha => (h.checked a ha _ hf).1)
                (fun a ha => (h.checked a ha _ hf).2) done
            rw [List.zip_cons_cons, List.foldl_cons, List.foldl_cons]
            dsimp only
            rw [hrow]
            exact ih hrest fun f hf => hsub f (List.mem_cons_of_mem _ hf)
  rw [fold_eq_meaning hkeyed hfaithful]
  unfold Summary.render clauseMeaning domainsOf
  rw [h.clause_eq, h.domains]
  exact hfold h.rows fun f hf => hf

end Following

/-- **A summary refines the fold.**  Take a clause the summary accepts, whose clocks under observed
    replacement are fields of their own, and acts with distinct identities.  If every
    application succeeds, the summary renders the fold of the acts, its counters cache the
    observation of the acts, and every order in which all applications succeed gives the same
    summary, record and hash. -/
theorem summary_refines_fold (sha256 : Octets → Digest)
    (protocolCode : Option CausalProtocol → List UInt8) (clause : StateClause)
    (protocol : Option CausalProtocol) (s s' : Summary) (acts : List Act)
    (hnew : Summary.new protocolCode clause protocol = .ok s)
    (hseparate : ∀ f ∈ clause.fields, SeparateClock f.2)
    (hdistinct : (acts.map (·.address)).Nodup)
    (happly : s.applyAll sha256 protocolCode acts [] = .ok s') :
    s'.render sha256 = fold (typedRoot sha256) clause protocol acts ∧
      (∀ name c t, ((name, Rule.boundedCounter c), RowData.resource t) ∈ clause.fields.zip s'.rows →
        acts ≠ [] → t.outcome = observe (typedRoot sha256) c acts) ∧
      ∀ (acts' : List Act) (s'' : Summary), acts'.Perm acts →
        s.applyAll sha256 protocolCode acts' [] = .ok s'' →
        s'' = s' ∧ ∀ ruleHash schemaHash,
          s''.encode protocolCode ruleHash schemaHash = s'.encode protocolCode ruleHash schemaHash ∧
            s''.hash sha256 protocolCode ruleHash schemaHash
              = s'.hash sha256 protocolCode ruleHash schemaHash := by
  have hstart : ∀ id, ([] : List String).contains id = true ↔ Arrived [] id := by
    intro id
    simp [Arrived]
  have hfollows : ∀ {ys : List Act} {t : Summary}, (ys.map (·.address)).Nodup →
      s.applyAll sha256 protocolCode ys [] = .ok t →
      Follows sha256 protocolCode clause protocol t ys := fun hys ht =>
    (follows_new hnew).run hstart hys ht
  have hmain := hfollows hdistinct happly
  refine ⟨hmain.render hseparate, fun name c t hrow hne => ?_, fun acts' s'' hperm happly' => ?_⟩
  · have hholds := (List.forall₂_iff_zip.mp hmain.rows).2 hrow
    cases hholds with
    | resource h =>
        have hkeyed : Keyed acts := (List.nodup_map_iff_inj_on hdistinct.of_map).mp hdistinct
        rw [h.outcome hne, CbclResourceResume.recompute_eq h hkeyed hmain.derived]
  · have hsame := (hfollows ((hperm.map _).nodup_iff.mpr hdistinct) happly').unique hperm hmain
    rw [hsame]
    exact ⟨rfl, fun _ _ => ⟨rfl, rfl⟩⟩

-- ── A shelf of labels ────

/-- A map of labels whose clock may be any keyword. -/
def shelfClause (clock : String) : StateClause :=
  ⟨[.field "labels" (.lwwMap "label" "slot" "text" clock none)]⟩

/-- A message that labels the first slot. -/
def labelMessage (text : Atom) : Message :=
  .simple (.custom "label") none (.list [])
    [.atom (.keyword "slot"), .atom (.num 1), .atom (.keyword "text"), .atom text,
      .atom (.keyword "at"), .atom (.str "hlc-0000000000000001-00000000")] (some "shelf") none none

/-- The acts of some labels. -/
def labelActs (texts : List Atom) : List Act :=
  texts.filterMap fun t =>
    (Act.fromMessage (typedRoot CbclSha256.sha256) (labelMessage t) "@a").toOption

/-- One label is one act at most. -/
theorem labelActs_nodup (t : Atom) : ((labelActs [t]).map (·.address)).Nodup := by
  unfold labelActs
  rw [List.filterMap_cons]
  split
  · exact List.nodup_nil
  · exact List.nodup_singleton _

/-- Apply acts to the empty summary of the shelf. -/
def shelfSummary (clock : String) (acts : List Act) : Except Error Summary := do
  let s ← Summary.new (fun _ => []) (shelfClause clock) none
  s.applyAll CbclSha256.sha256 (fun _ => []) acts []

theorem shelfSummary_ok {clock : String} {acts : List Act} {s' : Summary}
    (h : shelfSummary clock acts = .ok s') :
    ∃ s, Summary.new (fun _ => []) (shelfClause clock) none = .ok s ∧
      s.applyAll CbclSha256.sha256 (fun _ => []) acts [] = .ok s' := by
  unfold shelfSummary at h
  exact CbclExcept.bind_ok_iff.mp h

theorem summary_refines_fold_shelf :
    ∃ s s', Summary.new (fun _ => []) (shelfClause "at") none = .ok s ∧
      s.applyAll CbclSha256.sha256 (fun _ => []) (labelActs [.str "a", .symbol "b"]) [] = .ok s' ∧
      s'.render CbclSha256.sha256 = fold (typedRoot CbclSha256.sha256) (shelfClause "at") none
        (labelActs [.str "a", .symbol "b"]) := by
  have hrun : (shelfSummary "at" (labelActs [.str "a", .symbol "b"])).toOption.isSome = true := by
    unfold shelfSummary labelActs
    rw [CbclSha256Words.sha256_eq]
    decide +kernel
  obtain ⟨s', hrun⟩ := Option.isSome_iff_exists.mp hrun
  replace hrun := CbclExcept.toOption_eq_some_iff.mp hrun
  obtain ⟨s, hnew, happly⟩ := shelfSummary_ok hrun
  have hdistinct : ((labelActs [.str "a", .symbol "b"]).map (·.address)).Nodup := by
    unfold labelActs
    rw [CbclSha256Words.sha256_eq]
    decide +kernel
  exact ⟨s, s', hnew, happly, (summary_refines_fold CbclSha256.sha256 (fun _ => [])
    (shelfClause "at") none s s' (labelActs [.str "a", .symbol "b"]) hnew (by decide)
    hdistinct happly).1⟩

/-- A clock keyword that is also the value: a symbol that spells a clock orders nothing in the
    fold, but its stored form is a string and passes for one. -/
theorem summary_clock_shows :
    ∃ s s', Summary.new (fun _ => []) (shelfClause "text") none = .ok s ∧
      ((labelActs [.symbol "hlc-0000000000000001-00000000"]).map (·.address)).Nodup ∧
      s.applyAll CbclSha256.sha256 (fun _ => [])
        (labelActs [.symbol "hlc-0000000000000001-00000000"]) [] = .ok s' ∧
      s'.render CbclSha256.sha256 ≠ fold (typedRoot CbclSha256.sha256) (shelfClause "text") none
        (labelActs [.symbol "hlc-0000000000000001-00000000"]) := by
  have hrun : ((shelfSummary "text"
      (labelActs [.symbol "hlc-0000000000000001-00000000"])).toOption.map fun s' =>
        decide (renderJson (s'.render CbclSha256.sha256) ≠ renderJson (fold
          (typedRoot CbclSha256.sha256) (shelfClause "text") none
          (labelActs [.symbol "hlc-0000000000000001-00000000"])))) = some true := by
    unfold shelfSummary labelActs
    rw [CbclSha256Words.sha256_eq]
    decide +kernel
  obtain ⟨s', hrun, hne⟩ := Option.map_eq_some_iff.mp hrun
  replace hrun := CbclExcept.toOption_eq_some_iff.mp hrun
  replace hne := of_decide_eq_true hne
  obtain ⟨s, hnew, happly⟩ := shelfSummary_ok hrun
  exact ⟨s, s', hnew, labelActs_nodup _, happly, fun heq => hne (by rw [heq])⟩

end CbclSummary
