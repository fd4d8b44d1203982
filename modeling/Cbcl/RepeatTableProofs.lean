import Cbcl.RepeatModel

/-!
# The evidence table solves its own equations

`Resolution.new` fills the rows of one step after the other.  Because the order is
topological, the verdict a row was filled with is the verdict the *finished* table gives:

    new_row : rows[(h, name)] = r.step decl cause        (r the finished resolution)

for every step `name` of the order and every message `h` of the closure with that base
verb, and there are no other rows (`row_eq_none`).  The proofs about verdicts never look at
the filling again: they use `at_row` and induct along the order (`Topo.induct`).
-/

namespace CbclRepeatTable

open CbclMessage CbclProtocol CbclStore CbclRepeat CbclWorklist

-- ── The order of steps ────

/-- The names a step declares as predecessors. -/
def predecessorNames (decl : StepDecl) : List String :=
  decl.predecessors.flatMap NodeRef.performatives

/-- A list of declared steps in which every step follows its predecessors, each once. -/
inductive Topo (protocol : CausalProtocol) : List String → Prop where
  | nil : Topo protocol []
  | snoc {done : List String} {name : String} {decl : StepDecl} (h : Topo protocol done)
      (hnew : name ∉ done) (hdecl : protocol.steps[name]? = some decl)
      (hpreds : ∀ p ∈ predecessorNames decl, p ∈ done) : Topo protocol (done ++ [name])

/-- Predecessors of an ordered step are ordered. -/
theorem Topo.preds_mem {protocol : CausalProtocol} {order : List String}
    (h : Topo protocol order) {name : String} (hname : name ∈ order) {decl : StepDecl}
    (hdecl : protocol.steps[name]? = some decl) : ∀ p ∈ predecessorNames decl, p ∈ order := by
  induction h with
  | nil => exact nomatch hname
  | snoc h hnew hdecl' hpreds ih =>
      intro p hp
      rw [List.mem_append, List.mem_singleton] at hname
      rcases hname with hold | rfl
      · exact List.mem_append_left _ (ih hold p hp)
      · rw [hdecl'] at hdecl
        injection hdecl with hd
        subst hd
        exact List.mem_append_left _ (hpreds p hp)

/-- **Induction along the order**: to show a property of a name, it may be assumed of the
    predecessors of that name when the name is an ordered step. -/
theorem Topo.induct {protocol : CausalProtocol} {order : List String}
    (h : Topo protocol order) {P : String → Prop}
    (hstep : ∀ name, (∀ decl, name ∈ order → protocol.steps[name]? = some decl →
      ∀ p ∈ predecessorNames decl, P p) → P name) (name : String) : P name := by
  have hpre : ∀ done, Topo protocol done → ∀ n ∈ done, P n := by
    intro done hdone
    induction hdone with
    | nil => intro n hn; exact nomatch hn
    | snoc h hnew hdecl hpreds ih =>
        intro n hn
        rw [List.mem_append, List.mem_singleton] at hn
        rcases hn with hn | rfl
        · exact ih n hn
        · refine hstep _ fun decl _ hdecl' p hp => ?_
          rw [hdecl] at hdecl'
          injection hdecl' with hd
          subst hd
          exact ih p (hpreds p hp)
  by_cases hmem : name ∈ order
  · exact hpre order h name hmem
  · exact hstep name fun _ hin => absurd hin hmem

/-- A round of ready steps extends a topological list. -/
theorem Topo.append_ready {protocol : CausalProtocol} {done : List String}
    (h : Topo protocol done) :
    ∀ ready : List String, ready.Nodup → (∀ n ∈ ready, n ∈ readySteps protocol done) →
      Topo protocol (done ++ ready) := by
  intro ready
  induction ready using List.reverseRecOn with
  | nil => intro _ _; rw [List.append_nil]; exact h
  | append_singleton init name ih =>
      intro hnodup hready
      have hinit := ih (List.Nodup.of_append_left hnodup)
        fun n hn => hready n (List.mem_append_left _ hn)
      have hname := hready name (by simp)
      rw [readySteps, List.mem_map] at hname
      obtain ⟨⟨n, decl⟩, hmem, rfl⟩ := hname
      rw [List.mem_filter, Std.ExtTreeMap.mem_toList_iff_getElem?_eq_some] at hmem
      obtain ⟨hdecl, hpred⟩ := hmem
      rw [decide_eq_true_eq] at hpred
      have hfresh : n ∉ init := by
        intro hn
        exact (List.disjoint_of_nodup_append hnodup hn) (by simp)
      rw [← List.append_assoc]
      refine Topo.snoc hinit ?_ hdecl ?_
      · rw [List.mem_append]
        rintro (hd | hi)
        · exact hpred.1 hd
        · exact hfresh hi
      · intro p hp
        rw [predecessorNames, List.mem_flatMap] at hp
        obtain ⟨nr, hnr, hp⟩ := hp
        exact List.mem_append_left _ (hpred.2 nr hnr p hp)

/-- The steps of one round are distinct. -/
theorem readySteps_nodup (protocol : CausalProtocol) (done : List String) :
    (readySteps protocol done).Nodup := by
  have hkeys : (protocol.steps.toList.map Prod.fst).Nodup := by
    rw [Std.ExtTreeMap.map_fst_toList_eq_keys]
    exact (Std.ExtTreeMap.distinct_keys (t := protocol.steps)).imp fun hne heq => by
      subst heq; exact hne (Std.ReflCmp.compare_self)
  exact hkeys.sublist (List.filter_sublist.map Prod.fst)

/-- The order a resolution uses is topological. -/
theorem topo_stepOrder (protocol : CausalProtocol) :
    ∀ (fuel : Nat) (done : List String), Topo protocol done →
      Topo protocol (stepOrder protocol fuel done) := by
  intro fuel
  induction fuel with
  | zero => intro done h; exact h
  | succ fuel ih =>
      intro done h
      rw [stepOrder]
      by_cases hempty : readySteps protocol done = []
      · rw [if_pos hempty]
        exact h
      · rw [if_neg hempty]
        exact ih _ (h.append_ready _ (readySteps_nodup protocol done) fun n hn => hn)

/-- The order of a whole protocol. -/
def protocolOrder (protocol : CausalProtocol) : List String :=
  stepOrder protocol protocol.steps.size []

theorem topo_protocolOrder (protocol : CausalProtocol) :
    Topo protocol (protocolOrder protocol) :=
  topo_stepOrder protocol _ [] Topo.nil

-- ── What a verdict reads of the table ────

/-- A resolution with other rows. -/
def withRows (r : Resolution) (rows : Rows) : Resolution := { r with rows }

variable {r : Resolution}

@[simp] theorem withRows_self : withRows r r.rows = r := rfl

/-- `at` reads the rows of its own step only. -/
theorem at_congr {rows rows' : Rows} {name : String}
    (hrow : ∀ h : String, rows[(h, name)]? = rows'[(h, name)]?) (h : String) :
    (withRows r rows).at h name = (withRows r rows').at h name := by
  show Resolution.at { r with rows } h name = Resolution.at { r with rows := rows' } h name
  simp only [Resolution.at, hrow h]
  rfl

/-- Every name a single reference may match is a declared predecessor. -/
theorem allowed_subset {decl : StepDecl} {p : String}
    (hp : p ∈ allowedSinglePredecessors decl) : p ∈ predecessorNames decl := by
  rw [allowedSinglePredecessors, List.mem_flatMap] at hp
  obtain ⟨nr, hnr, hp⟩ := hp
  rw [predecessorNames, List.mem_flatMap]
  refine ⟨nr, hnr, ?_⟩
  cases nr with
  | single s => exact hp
  | any set => exact hp
  | all set => exact nomatch hp

/-- Every name of the first `(all …)` declaration is a declared predecessor. -/
theorem firstAll_subset {decl : StepDecl} {all : BTreeSet String}
    (hall : firstAll decl = some all) {p : String} (hp : p ∈ all.toList) :
    p ∈ predecessorNames decl := by
  rw [firstAll, List.findSome?_eq_some_iff] at hall
  obtain ⟨pre, nr, post, hsplit, hnr, -⟩ := hall
  rw [predecessorNames, hsplit, List.mem_flatMap]
  refine ⟨nr, by simp, ?_⟩
  cases nr with
  | single s => exact nomatch hnr
  | any set => exact nomatch hnr
  | all set =>
      injection hnr with hset
      subst hset
      exact hp

/-- Root typing either keeps a reference or turns it into `begin`. -/
theorem rewriteRoot_eq (root : Option ContentHash) (cause : Option CausedBy) :
    Resolution.rewriteRoot root cause = cause ∨
      Resolution.rewriteRoot root cause = some .begin := by
  unfold Resolution.rewriteRoot
  split
  · split
    · exact Or.inr rfl
    · exact Or.inl rfl
  · exact Or.inl rfl

/-- A reference that root typing does not turn into `begin` is kept. -/
theorem cause_of_rewriteRoot {root : Option ContentHash} {cause : Option CausedBy}
    {cb : CausedBy} (h : Resolution.rewriteRoot root cause = some cb) (hcb : cb ≠ .begin) :
    cause = some cb := by
  rcases rewriteRoot_eq root cause with heq | heq
  · rw [← heq, h]
  · rw [h] at heq
    injection heq with heq
    exact absurd heq hcb

theorem any_congr_mem {α : Type} {xs : List α} {f g : α → Bool} (h : ∀ x ∈ xs, f x = g x) :
    xs.any f = xs.any g := by
  induction xs with
  | nil => rfl
  | cons x rest ih =>
      rw [List.any_cons, List.any_cons, h x (List.mem_cons_self ..),
        ih fun y hy => h y (List.mem_cons_of_mem _ hy)]

theorem find?_congr_mem {α : Type} {xs : List α} {f g : α → Bool}
    (h : ∀ x ∈ xs, f x = g x) : xs.find? f = xs.find? g := by
  induction xs with
  | nil => rfl
  | cons x rest ih =>
      rw [List.find?_cons, List.find?_cons, h x (List.mem_cons_self ..),
        ih fun y hy => h y (List.mem_cons_of_mem _ hy)]

section Congruence

variable {r r' : Resolution}

/-- Alternatives are judged by the placements at their names. -/
theorem alternatives_congr {h : String} {allowed : List String} (hkind : r.kind h = r'.kind h)
    (hat : ∀ p ∈ allowed, r.at h p = r'.at h p) :
    r.alternatives h allowed = r'.alternatives h allowed := by
  have hvalid : allowed.any (fun name => r.at h name = .valid)
      = allowed.any (fun name => r'.at h name = .valid) :=
    any_congr_mem fun p hp => by rw [hat p hp]
  have hunknown : allowed.any (fun name => r.at h name = .unknown)
      = allowed.any (fun name => r'.at h name = .unknown) :=
    any_congr_mem fun p hp => by rw [hat p hp]
  unfold Resolution.alternatives Resolution.wrong
  rw [hvalid, hunknown, hkind]

/-- A fan-in is judged by the placements of its hashes at the declared names. -/
theorem fanIn_congr {all hashes : List String} (hkind : ∀ h ∈ hashes, r.kind h = r'.kind h)
    (hat : ∀ h ∈ hashes, ∀ p ∈ all, r.at h p = r'.at h p) :
    r.fanIn all hashes = r'.fanIn all hashes := by
  have hmatched : ∀ h ∈ hashes, r.matched all h = r'.matched all h := fun h hh =>
    any_congr_mem fun p hp => by rw [hat h hh p hp]
  have hundecided : ∀ h ∈ hashes, r.undecided all h = r'.undecided all h := fun h hh => by
    unfold Resolution.undecided
    rw [hkind h hh, any_congr_mem fun p hp => by rw [hat h hh p hp]]
  have hfound : (all.filter fun name => hashes.any fun h => r.at h name = .valid)
      = all.filter fun name => hashes.any fun h => r'.at h name = .valid :=
    List.filter_congr fun p hp => any_congr_mem fun h hh => by rw [hat h hh p hp]
  have hpossible : (all.filter fun name => hashes.any fun h => r.at h name = .unknown)
      = all.filter fun name => hashes.any fun h => r'.at h name = .unknown :=
    List.filter_congr fun p hp => any_congr_mem fun h hh => by rw [hat h hh p hp]
  have hfind : hashes.find? (fun h => !r.matched all h && !r.undecided all h)
      = hashes.find? (fun h => !r'.matched all h && !r'.undecided all h) :=
    find?_congr_mem fun h hh => by rw [hmatched h hh, hundecided h hh]
  have hopen : hashes.any (fun h => !r.matched all h && r.undecided all h)
      = hashes.any (fun h => !r'.matched all h && r'.undecided all h) :=
    any_congr_mem fun h hh => by rw [hmatched h hh, hundecided h hh]
  unfold Resolution.fanIn
  rw [hfind, hfound, hpossible, hopen]
  cases hcase : hashes.find? (fun h => !r'.matched all h && !r'.undecided all h) with
  | none => rfl
  | some h =>
      simp only [Resolution.wrong]
      rw [hkind h (List.mem_of_find?_eq_some hcase)]

/-- **The verdict of a step is a function of the placements of the cited hashes.** -/
theorem step_congr {decl : StepDecl} {cause : Option CausedBy}
    (hroot : r.root = r'.root) (hbegin : r.kind BEGIN_KEYWORD = r'.kind BEGIN_KEYWORD)
    (hkind : ∀ h ∈ citedHashes cause, r.kind h = r'.kind h)
    (hat : ∀ h ∈ citedHashes cause, ∀ p ∈ predecessorNames decl, r.at h p = r'.at h p) :
    r.step decl cause = r'.step decl cause := by
  unfold Resolution.step
  rw [hroot]
  cases hrw : Resolution.rewriteRoot r'.root cause with
  | none => rfl
  | some cb =>
      cases cb with
      | begin => simp only [Resolution.wrong, hbegin]
      | single h =>
          have hcause := cause_of_rewriteRoot hrw (by simp)
          subst hcause
          have hmem : h ∈ citedHashes (some (.single h)) := by simp [citedHashes, CausedBy.hashes]
          exact alternatives_congr (hkind h hmem) fun p hp => hat h hmem p (allowed_subset hp)
      | multiple hs =>
          have hcause := cause_of_rewriteRoot hrw (by simp)
          subst hcause
          cases hall : firstAll decl with
          | none => rfl
          | some all =>
              exact fanIn_congr hkind fun h hh p hp => hat h hh p (firstAll_subset hall hp)

end Congruence

-- ── Filling the table ────

/-- The row a finished table holds for a message and a step of a list of steps. -/
def expectedRow (messages : BTreeMap String (String × Option CausedBy)) (done : List String)
    (r : Resolution) (h name : String) : Option VerificationResult :=
  if name ∈ done ∧ name ≠ BEGIN_KEYWORD then
    (r.protocol.steps[name]?).bind fun decl =>
      (messages[h]?).bind fun data =>
        if data.1 = repeatBaseName name then some (r.step decl data.2) else none
  else none

/-- A table filled for a list of steps: it solves its own equations on that list. -/
def Filled (messages : BTreeMap String (String × Option CausedBy)) (done : List String)
    (r : Resolution) : Prop :=
  ∀ h name : String, r.rows[(h, name)]? = expectedRow messages done r h name

/-- Judging a step is insensitive to rows of names that are not its predecessors. -/
theorem step_withRows {rows rows' : Rows} {decl : StepDecl} (cause : Option CausedBy)
    (hrow : ∀ p ∈ predecessorNames decl, ∀ h : String, rows[(h, p)]? = rows'[(h, p)]?) :
    (withRows r rows).step decl cause = (withRows r rows').step decl cause :=
  step_congr rfl rfl (fun _ _ => rfl) fun h _ p hp => at_congr (hrow p hp) h

/-- Filling one step over a list of messages with distinct hashes: the matching messages get
    a row judged by the table before, and no other row changes. -/
theorem fill_list {name : String} {decl : StepDecl} (hself : name ∉ predecessorNames decl)
    (entries : List (String × (String × Option CausedBy))) :
    ∀ rows : Rows, (∀ h d d', (h, d) ∈ entries → (h, d') ∈ entries → d = d') →
      ∃ rows' : Rows,
        entries.foldl (fun acc e =>
          if e.2.1 = repeatBaseName name then
            { acc with rows := acc.rows.insert (e.1, name) (acc.step decl e.2.2) }
          else acc) (withRows r rows) = withRows r rows' ∧
        (∀ (h n : String), (n ≠ name ∨ ∀ d, (h, d) ∈ entries → d.1 ≠ repeatBaseName name) →
          rows'[(h, n)]? = rows[(h, n)]?) ∧
        (∀ (h : String) d, (h, d) ∈ entries → d.1 = repeatBaseName name →
          rows'[(h, name)]? = some ((withRows r rows).step decl d.2)) := by
  induction entries with
  | nil =>
      intro rows _
      exact ⟨rows, rfl, fun _ _ _ => rfl, fun _ _ hmem => nomatch hmem⟩
  | cons e rest ih =>
      obtain ⟨h0, d0⟩ := e
      intro rows hfun
      have hfun' : ∀ h d d', (h, d) ∈ rest → (h, d') ∈ rest → d = d' := fun h d d' hd hd' =>
        hfun h d d' (List.mem_cons_of_mem _ hd) (List.mem_cons_of_mem _ hd')
      rw [List.foldl_cons]
      by_cases hverb : d0.1 = repeatBaseName name
      · rw [if_pos hverb]
        obtain ⟨rows', hfold, hkeep, hset⟩ :=
          ih (rows.insert (h0, name) ((withRows r rows).step decl d0.2)) hfun'
        -- rows of predecessors are untouched, so later messages see the same table
        have hpreds : ∀ cause : Option CausedBy,
            (withRows r (rows.insert (h0, name) ((withRows r rows).step decl d0.2))).step decl
                cause = (withRows r rows).step decl cause := by
          intro cause
          refine step_withRows cause fun p hp h => ?_
          rw [Std.ExtTreeMap.getElem?_insert, if_neg]
          intro heq
          have hpair := Std.LawfulEqCmp.eq_of_compare heq
          injection hpair with _ hp'
          exact hself (hp' ▸ hp)
        refine ⟨rows', hfold, ?_, ?_⟩
        · intro h n hcond
          have hne : ¬ compare (h0, name) (h, n) = .eq := by
            intro heq
            have hpair := Std.LawfulEqCmp.eq_of_compare heq
            injection hpair with hh hn
            rcases hcond with hcond | hcond
            · exact hcond hn.symm
            · exact hcond d0 (by rw [← hh]; exact List.mem_cons_self ..) hverb
          rw [hkeep h n ?_, Std.ExtTreeMap.getElem?_insert, if_neg hne]
          rcases hcond with hcond | hcond
          · exact Or.inl hcond
          · exact Or.inr fun d hd => hcond d (List.mem_cons_of_mem _ hd)
        · intro h d hmem hd
          rcases List.mem_cons.mp hmem with heq | hmem
          · injection heq with hh hdd
            subst hh hdd
            by_cases hagain : ∃ d', (h, d') ∈ rest
            · obtain ⟨d', hd'⟩ := hagain
              have hsame := hfun h d d' (List.mem_cons_self ..) (List.mem_cons_of_mem _ hd')
              subst hsame
              rw [hset h d hd' hd, hpreds]
            · rw [hkeep h name (Or.inr fun d' hd' => absurd ⟨d', hd'⟩ hagain),
                Std.ExtTreeMap.getElem?_insert_self]
          · rw [hset h d hmem hd, hpreds]
      · rw [if_neg hverb]
        obtain ⟨rows', hfold, hkeep, hset⟩ := ih rows hfun'
        refine ⟨rows', hfold, ?_, ?_⟩
        · intro h n hcond
          refine hkeep h n ?_
          rcases hcond with hcond | hcond
          · exact Or.inl hcond
          · exact Or.inr fun d hd => hcond d (List.mem_cons_of_mem _ hd)
        · intro h d hmem hd
          rcases List.mem_cons.mp hmem with heq | hmem
          · injection heq with hh hdd
            subst hh hdd
            exact absurd hd hverb
          · exact hset h d hmem hd

/-- **Filling a step keeps the table a solution**, on one more step. -/
theorem fillStep_filled {messages : BTreeMap String (String × Option CausedBy)}
    {done : List String} {name : String} {decl : StepDecl} (htopo : Topo r.protocol done)
    (hnew : name ∉ done) (hdecl : r.protocol.steps[name]? = some decl)
    (hpreds : ∀ p ∈ predecessorNames decl, p ∈ done) (hfilled : Filled messages done r) :
    ∃ rows, Resolution.fillStep messages r name = withRows r rows ∧
      Filled messages (done ++ [name]) (withRows r rows) := by
  by_cases hbegin : name = BEGIN_KEYWORD
  · -- `begin` is placed in the order but gets no rows
    refine ⟨r.rows, ?_, ?_⟩
    · rw [Resolution.fillStep, if_pos hbegin]
      rfl
    · intro h n
      show r.rows[(h, n)]? = expectedRow messages (done ++ [name]) r h n
      rw [hfilled h n]
      unfold expectedRow
      by_cases hn : n ∈ done ∧ n ≠ BEGIN_KEYWORD
      · rw [if_pos hn, if_pos ⟨List.mem_append_left _ hn.1, hn.2⟩]
      · rw [if_neg hn, if_neg]
        rintro ⟨hmem, hne⟩
        rcases List.mem_append.mp hmem with hmem | hmem
        · exact hn ⟨hmem, hne⟩
        · exact hne ((List.mem_singleton.mp hmem).trans hbegin)
  · have hself : name ∉ predecessorNames decl := fun hmem => hnew (hpreds name hmem)
    have hfun : ∀ h d d', (h, d) ∈ messages.toList → (h, d') ∈ messages.toList → d = d' := by
      intro h d d' hd hd'
      rw [Std.ExtTreeMap.mem_toList_iff_getElem?_eq_some] at hd hd'
      rw [hd] at hd'
      exact Option.some.inj hd'
    obtain ⟨rows, hfold, hkeep, hset⟩ := fill_list (r := r) hself messages.toList r.rows hfun
    have hfill : Resolution.fillStep messages r name = withRows r rows := by
      rw [Resolution.fillStep, if_neg hbegin, hdecl, ← hfold]
      exact Std.ExtTreeMap.foldl_eq_foldl_toList
    -- steps placed earlier are judged alike by the old and the new table
    have hstep : ∀ (decl' : StepDecl) (cause : Option CausedBy),
        (∀ p ∈ predecessorNames decl', p ∈ done) →
          (withRows r rows).step decl' cause = r.step decl' cause := by
      intro decl' cause hp
      show (withRows r rows).step decl' cause = (withRows r r.rows).step decl' cause
      refine step_withRows cause fun p hmem h => ?_
      refine hkeep h p (Or.inl ?_)
      rintro rfl
      exact hnew (hp p hmem)
    refine ⟨rows, hfill, ?_⟩
    intro h n
    show rows[(h, n)]? = expectedRow messages (done ++ [name]) (withRows r rows) h n
    unfold expectedRow
    by_cases hn : n = name
    · subst hn
      rw [if_pos ⟨by simp, hbegin⟩]
      show _ = (r.protocol.steps[n]?).bind _
      rw [hdecl, Option.bind_some]
      cases hm : messages[h]? with
      | none =>
          rw [Option.bind_none, hkeep h n, hfilled h n]
          · exact if_neg fun hc => hnew hc.1
          · right
            intro d hd
            rw [Std.ExtTreeMap.mem_toList_iff_getElem?_eq_some, hm] at hd
            exact nomatch hd
      | some data =>
          have hmem : (h, data) ∈ messages.toList := by
            rw [Std.ExtTreeMap.mem_toList_iff_getElem?_eq_some, hm]
          rw [Option.bind_some]
          by_cases hverb : data.1 = repeatBaseName n
          · rw [if_pos hverb, hset h data hmem hverb, hstep decl data.2 hpreds, withRows_self]
          · rw [if_neg hverb, hkeep h n, hfilled h n]
            · exact if_neg fun hc => hnew hc.1
            · right
              intro d hd
              rw [hfun h d data hd hmem]
              exact hverb
    · rw [hkeep h n (Or.inl hn), hfilled h n]
      unfold expectedRow
      by_cases hin : n ∈ done ∧ n ≠ BEGIN_KEYWORD
      · rw [if_pos hin, if_pos ⟨List.mem_append_left _ hin.1, hin.2⟩]
        show (r.protocol.steps[n]?).bind _ = (r.protocol.steps[n]?).bind _
        cases hdn : r.protocol.steps[n]? with
        | none => rw [Option.bind_none, Option.bind_none]
        | some decl' =>
            simp only [Option.bind_some]
            simp only [hstep decl' _ (htopo.preds_mem hin.1 hdn)]
      · rw [if_neg hin, if_neg]
        rintro ⟨hmem, hne⟩
        rcases List.mem_append.mp hmem with hmem | hmem
        · exact hin ⟨hmem, hne⟩
        · exact hn (List.mem_singleton.mp hmem)

/-- Filling a whole topological order gives a solution on it. -/
theorem foldl_fillStep_filled (messages : BTreeMap String (String × Option CausedBy))
    {order : List String} (htopo : Topo r.protocol order) (hrows : r.rows = ∅) :
    ∃ rows, order.foldl (Resolution.fillStep messages) r = withRows r rows ∧
      Filled messages order (withRows r rows) := by
  induction htopo with
  | nil =>
      refine ⟨r.rows, rfl, ?_⟩
      intro h n
      show r.rows[(h, n)]? = expectedRow messages [] r h n
      rw [hrows, Std.ExtTreeMap.getElem?_empty]
      exact (if_neg fun hc => nomatch hc.1).symm
  | snoc hdone hnew hdecl hpreds ih =>
      obtain ⟨rows, hfold, hfilled⟩ := ih
      obtain ⟨rows', hfill, hfilled'⟩ :=
        fillStep_filled (r := withRows r rows) hdone hnew hdecl hpreds hfilled
      refine ⟨rows', ?_, hfilled'⟩
      rw [List.foldl_append, hfold, List.foldl_cons, List.foldl_nil, hfill]
      rfl

-- ── The closure and its messages ────

section Closure

variable {store : MessageStore} {thread : ThreadId} {cache : Option MaterializedPositions}

/-- Outside the store's hashes the walk pushes nothing. -/
theorem closureSuccessors_support :
    ∀ h ∉ store.hashes, closureSuccessors store thread cache h = [] := by
  intro h hh
  unfold closureSuccessors
  rw [metadata_eq_none_of_not_mem hh]
  exact ite_self _

/-- The closure holds the hashes it starts from. -/
theorem mem_referencedClosure_of_mem {hashes : List String} {h : String} (hh : h ∈ hashes) :
    h ∈ referencedClosure store thread cache hashes :=
  closure_start closureSuccessors_support (List.mem_reverse.mpr hh)

/-- The closure holds what its uncovered messages cite. -/
theorem cited_mem_referencedClosure {hashes : List String} {h : String}
    (hh : h ∈ referencedClosure store thread cache hashes) (hcache : cachedFact cache h = none)
    {verb : String} {cause : Option CausedBy}
    (hmeta : metadata store h thread = some (verb, cause)) :
    ∀ k ∈ citedHashes cause, k ∈ referencedClosure store thread cache hashes := by
  intro k hk
  refine closure_closed closureSuccessors_support hh ?_
  unfold closureSuccessors
  rw [hcache, hmeta]
  exact hk

/-- A lookup in the message map after inserting the metadata of a list of hashes. -/
theorem foldl_messages_getElem? (hashes : List String) :
    ∀ (messages : BTreeMap String (String × Option CausedBy)) (h : String),
      (hashes.foldl (fun messages hash =>
        if (cachedFact cache hash).isSome then messages
        else match metadata store hash thread with
          | some data => messages.insert hash data
          | none => messages) messages)[h]? =
        if h ∈ hashes ∧ cachedFact cache h = none ∧ (metadata store h thread).isSome then
          metadata store h thread
        else messages[h]? := by
  induction hashes with
  | nil => intro messages h; rw [if_neg fun hc => nomatch hc.1]; rfl
  | cons k rest ih =>
      intro messages h
      rw [List.foldl_cons, ih]
      by_cases hrest : h ∈ rest ∧ cachedFact cache h = none ∧ (metadata store h thread).isSome
      · rw [if_pos hrest, if_pos ⟨List.mem_cons_of_mem _ hrest.1, hrest.2⟩]
      · rw [if_neg hrest]
        by_cases hk : h = k
        · subst hk
          cases hc : cachedFact cache h with
          | some fact => simp
          | none =>
              cases hm : metadata store h thread with
              | none => simp
              | some data => simp
        · have hnot : ¬ (h ∈ k :: rest ∧ cachedFact cache h = none ∧
              (metadata store h thread).isSome) := fun hc =>
            hrest ⟨(List.mem_cons.mp hc.1).resolve_left hk, hc.2⟩
          rw [if_neg hnot]
          cases hc : cachedFact cache k with
          | some fact => simp
          | none =>
              cases hm : metadata store k thread with
              | none => simp
              | some data =>
                  simp only [Option.isSome_none, Bool.false_eq_true, if_false]
                  rw [Std.ExtTreeMap.getElem?_insert, if_neg]
                  intro heq
                  exact hk (Std.LawfulEqCmp.eq_of_compare heq).symm

/-- The message map holds the metadata of the uncovered closure. -/
theorem closureMessages_getElem? {hashes : List String} (h : String) :
    (closureMessages store thread cache hashes)[h]? =
      if h ∈ referencedClosure store thread cache hashes ∧ cachedFact cache h = none then
        metadata store h thread
      else none := by
  refine (foldl_messages_getElem? (referencedClosure store thread cache hashes) ∅ h).trans ?_
  rw [Std.ExtTreeMap.getElem?_empty]
  cases hm : metadata store h thread with
  | none => simp
  | some data => simp

end Closure

-- ── The finished table ────

section Finished

variable (store : MessageStore) (protocol : CausalProtocol) (thread : ThreadId)
  (root : Option ContentHash) (hashes : List String)

/-- The cache a resolution consults. -/
def usedCache : Option MaterializedPositions :=
  store.materializedPositions.filter fun p => p.matchesContext protocol thread root

/-- **The finished resolution.**  It keeps its arguments and its table solves its own
    equations over the whole order. -/
theorem new_spec :
    let r := Resolution.new store protocol thread root hashes
    r.store = store ∧ r.protocol = protocol ∧ r.thread = thread ∧ r.root = root ∧
      r.materialized = usedCache store protocol thread root ∧
      Filled (closureMessages store thread (usedCache store protocol thread root) hashes)
        (protocolOrder protocol) r := by
  intro r
  by_cases hempty :
      (closureMessages store thread (usedCache store protocol thread root) hashes).isEmpty
  · have hr : r = { store, protocol, thread, root, order := [], rows := ∅,
                    materialized := usedCache store protocol thread root } := if_pos hempty
    rw [hr]
    refine ⟨rfl, rfl, rfl, rfl, rfl, ?_⟩
    intro h n
    show (∅ : Rows)[(h, n)]? = _
    rw [Std.ExtTreeMap.getElem?_empty, expectedRow, Std.ExtTreeMap.isEmpty_iff.mp hempty]
    by_cases hn : n ∈ protocolOrder protocol ∧ n ≠ BEGIN_KEYWORD
    · rw [if_pos hn, Std.ExtTreeMap.getElem?_empty]
      show none = (protocol.steps[n]?).bind fun _ => none
      cases protocol.steps[n]? with
      | none => rfl
      | some decl => rfl
    · rw [if_neg hn]
  · have hr : r = (protocolOrder protocol).foldl
        (Resolution.fillStep
          (closureMessages store thread (usedCache store protocol thread root) hashes))
        { store, protocol, thread, root, order := protocolOrder protocol, rows := ∅,
          materialized := usedCache store protocol thread root } := if_neg hempty
    obtain ⟨rows, hfold, hfilled⟩ := foldl_fillStep_filled
      (r := { store, protocol, thread, root, order := protocolOrder protocol, rows := ∅,
              materialized := usedCache store protocol thread root })
      (closureMessages store thread (usedCache store protocol thread root) hashes)
      (topo_protocolOrder protocol) rfl
    rw [hr, hfold]
    exact ⟨rfl, rfl, rfl, rfl, rfl, hfilled⟩

variable {store protocol thread root hashes}

/-- A covered hash is placed by the cache alone. -/
theorem at_of_cached {r : Resolution} {h : String} {fact : PositionFact}
    (hc : cachedFact r.materialized h = some fact) (name : String) :
    r.at h name =
      if (!isCopyName name && !r.repeated fact.metadata.verb
          && repeatBaseName name = fact.metadata.verb) || fact.steps.contains name then .valid
      else r.wrong h [name] := by
  unfold Resolution.at
  rw [hc]

/-- An uncovered hash of unknown type is placed nowhere yet. -/
theorem at_of_kind_none {r : Resolution} {h : String} (hk : r.kind h = none) (name : String) :
    r.at h name = .unknown := by
  unfold Resolution.at
  cases hc : cachedFact r.materialized h with
  | some fact => simp [Resolution.kind, hc] at hk
  | none => simp only [hk]

/-- A name that needs no ancestry evidence for messages of a type: not a copy, and the type
    has no copies. -/
def Ordinary (r : Resolution) (found name : String) : Prop :=
  isCopyName name = false ∧ r.repeated found = false

/-- An uncovered hash of another type is refused. -/
theorem at_of_kind_ne {r : Resolution} {h found name : String}
    (hc : cachedFact r.materialized h = none) (hk : r.kind h = some found)
    (hne : found ≠ repeatBaseName name) : r.at h name = r.wrong h [name] := by
  unfold Resolution.at
  rw [hc]
  simp only [hk]
  rw [if_pos hne]

/-- An ordinary type is placed by its name. -/
theorem at_of_ordinary {r : Resolution} {h found name : String}
    (hc : cachedFact r.materialized h = none) (hk : r.kind h = some found)
    (heq : found = repeatBaseName name) (hord : Ordinary r found name) :
    r.at h name = .valid := by
  unfold Resolution.at
  rw [hc]
  simp only [hk]
  rw [if_neg (not_not.mpr heq), if_pos (by rw [hord.1, hord.2]; rfl)]

/-- Without causal metadata a copy position stays open. -/
theorem at_of_metadata_none {r : Resolution} {h found name : String}
    (hc : cachedFact r.materialized h = none) (hk : r.kind h = some found)
    (heq : found = repeatBaseName name) (hord : ¬ Ordinary r found name)
    (hm : metadata r.store h r.thread = none) : r.at h name = .unknown := by
  unfold Resolution.at
  rw [hc]
  simp only [hk]
  rw [if_neg (not_not.mpr heq), if_neg, hm]
  intro h'
  rw [Bool.and_eq_true, Bool.not_eq_true', Bool.not_eq_true'] at h'
  exact hord h'

/-- **A copy position is the verdict of its step on the message's own reference**, judged by
    the finished table; a step outside the order refuses. -/
theorem at_row {h found name : String} {cause : Option CausedBy}
    (hmem : h ∈ referencedClosure store thread (usedCache store protocol thread root) hashes)
    (hc : cachedFact (usedCache store protocol thread root) h = none)
    (hm : metadata store h thread = some (found, cause)) (heq : found = repeatBaseName name)
    (hord : ¬ Ordinary (Resolution.new store protocol thread root hashes) found name) :
    (Resolution.new store protocol thread root hashes).at h name =
      if name ∈ protocolOrder protocol ∧ name ≠ BEGIN_KEYWORD then
        match protocol.steps[name]? with
        | some decl => (Resolution.new store protocol thread root hashes).step decl cause
        | none => (Resolution.new store protocol thread root hashes).wrong h [name]
      else (Resolution.new store protocol thread root hashes).wrong h [name] := by
  obtain ⟨hstore, hprot, hthread, hroot, hcache, hfilled⟩ :=
    new_spec store protocol thread root hashes
  have hk : (Resolution.new store protocol thread root hashes).kind h = some found := by
    unfold Resolution.kind
    rw [hcache, hc, hstore, hthread]
    exact predecessorType_of_metadata hm
  have hat : (Resolution.new store protocol thread root hashes).at h name =
      ((Resolution.new store protocol thread root hashes).rows[(h, name)]?).getD
        ((Resolution.new store protocol thread root hashes).wrong h [name]) := by
    unfold Resolution.at
    rw [hcache, hc]
    simp only [hk]
    rw [if_neg (not_not.mpr heq), if_neg, hstore, hthread, hm]
    intro h'
    rw [Bool.and_eq_true, Bool.not_eq_true', Bool.not_eq_true'] at h'
    exact hord h'
  have hmsg : (closureMessages store thread (usedCache store protocol thread root) hashes)[h]?
      = some (found, cause) := by
    rw [closureMessages_getElem?, if_pos ⟨hmem, hc⟩, hm]
  rw [hat, hfilled h name, expectedRow, hprot, hmsg]
  by_cases hn : name ∈ protocolOrder protocol ∧ name ≠ BEGIN_KEYWORD
  · rw [if_pos hn, if_pos hn]
    cases protocol.steps[name]? with
    | none => rfl
    | some decl =>
        simp only [Option.bind_some]
        rw [if_pos heq]
        rfl
  · rw [if_neg hn, if_neg hn]
    rfl

/-- A copy position holds when its step is ordered and accepts the message's reference. -/
theorem at_row_valid_iff {h found name : String} {cause : Option CausedBy}
    (hmem : h ∈ referencedClosure store thread (usedCache store protocol thread root) hashes)
    (hc : cachedFact (usedCache store protocol thread root) h = none)
    (hm : metadata store h thread = some (found, cause)) (heq : found = repeatBaseName name)
    (hord : ¬ Ordinary (Resolution.new store protocol thread root hashes) found name) :
    (Resolution.new store protocol thread root hashes).at h name = .valid ↔
      ∃ decl, name ∈ protocolOrder protocol ∧ name ≠ BEGIN_KEYWORD ∧
        protocol.steps[name]? = some decl ∧
        (Resolution.new store protocol thread root hashes).step decl cause = .valid := by
  rw [at_row hmem hc hm heq hord]
  constructor
  · intro hv
    by_cases hn : name ∈ protocolOrder protocol ∧ name ≠ BEGIN_KEYWORD
    · rw [if_pos hn] at hv
      cases hdecl : protocol.steps[name]? with
      | none => rw [hdecl] at hv; exact nomatch hv
      | some decl => rw [hdecl] at hv; exact ⟨decl, hn.1, hn.2, rfl, hv⟩
    · rw [if_neg hn] at hv
      exact nomatch hv
  · rintro ⟨decl, hin, hne, hdecl, hv⟩
    rw [if_pos ⟨hin, hne⟩, hdecl]
    exact hv

/-- The type of an uncovered hash is the verb of its metadata. -/
theorem verb_eq_of_kind {h found verb : String} {cause : Option CausedBy}
    (hc : cachedFact (usedCache store protocol thread root) h = none)
    (hk : (Resolution.new store protocol thread root hashes).kind h = some found)
    (hm : metadata store h thread = some (verb, cause)) : verb = found := by
  obtain ⟨hs, -, ht, -, hcache, -⟩ := new_spec store protocol thread root hashes
  unfold Resolution.kind at hk
  rw [hcache, hc, hs, ht, predecessorType_of_metadata hm] at hk
  exact Option.some.inj hk

/-- A declared copy makes its base a repeated one. -/
theorem repeated_of_copy {name : String} {decl : StepDecl}
    (hdecl : protocol.steps[name]? = some decl) (hcopy : isCopyName name = true) :
    (Resolution.new store protocol thread root hashes).repeated (repeatBaseName name) = true := by
  obtain ⟨-, hp, -⟩ := new_spec store protocol thread root hashes
  unfold Resolution.repeated
  rw [hp, List.any_eq_true]
  refine ⟨name, ?_, by simp [hcopy]⟩
  rw [Std.ExtTreeMap.mem_keys]
  exact Std.ExtTreeMap.mem_iff_isSome_getElem?.mpr (by rw [hdecl]; rfl)

end Finished

end CbclRepeatTable
