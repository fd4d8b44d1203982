import Cbcl.EscrowModel
import Cbcl.ExceptProofs

/-!
# The escrow traversal as a justified order

A traversal that visits every operation amounts to two things: an order in which every
operation stands after the ones it depends on, and a summary for each operation that
`judge` returns from the summaries of its past (`Justified`).  Either can be read off the
other (`summarize_justified`, `Justified.summarize`).  The reason is that `judge` reads
nothing outside an operation's past (`judge_congr`), so later visits cannot change it.
-/

namespace CbclEscrowTraversal

open CbclMessage CbclEscrow CbclKahn CbclTreeMap

-- ── What a judgement reads ────

/-- Entries of a list of map entries, read off the map. -/
theorem mem_toList_iff {ν : Type} (m : BTreeMap String ν) (k : String) (v : ν) :
    (k, v) ∈ m.toList ↔ m[k]? = some v := by
  rw [Std.ExtTreeMap.mem_toList_iff_getElem?_eq_some]

/-- Every entry of a tip map has a property. -/
def Entries (Q : String → String → Prop) (tips : BTreeMap String String) : Prop :=
  ∀ owner tip : String, tips[owner]? = some tip → Q owner tip

theorem Entries.empty (Q : String → String → Prop) : Entries Q ∅ := by
  intro owner tip h
  rw [Std.ExtTreeMap.getElem?_empty] at h
  exact nomatch h

theorem Entries.insert {Q : String → String → Prop} {tips : BTreeMap String String}
    (h : Entries Q tips) {owner tip : String} (hnew : Q owner tip) :
    Entries Q (tips.insert owner tip) := by
  intro owner' tip' hget
  rw [getElem?_insert_eq] at hget
  split at hget
  · rename_i heq
    injection hget with hget
    rw [heq, ← hget]
    exact hnew
  · exact h owner' tip' hget

theorem Entries.keepLater {Q : String → String → Prop} {tips : BTreeMap String String}
    (h : Entries Q tips) (s : Summaries) {owner tip : String} (hnew : Q owner tip) :
    Entries Q (keepLater s tips owner tip) := by
  unfold CbclEscrow.keepLater
  split
  · exact h.insert hnew
  · exact h

/-- Merging keeps every property the entries of both sides have. -/
theorem Entries.mergeTips {Q : String → String → Prop} {opener dep : String} {s : Summaries}
    {tips : BTreeMap String String} (h : Entries Q tips)
    (hdep : dep ≠ opener → Entries Q (summaryOf s dep).tips) :
    Entries Q (mergeTips opener s tips dep) := by
  have hlist : ∀ (entries : List (String × String)) (tips : BTreeMap String String),
      (∀ e ∈ entries, Q e.1 e.2) → Entries Q tips →
        Entries Q (entries.foldl (fun tips e => CbclEscrow.keepLater s tips e.1 e.2) tips) := by
    intro entries
    induction entries with
    | nil => intro tips _ ht; exact ht
    | cons e rest ih =>
        intro tips he ht
        exact ih _ (fun e' h => he e' (List.mem_cons_of_mem _ h))
          (ht.keepLater s (he e (List.mem_cons_self ..)))
  unfold CbclEscrow.mergeTips
  by_cases hd : dep = opener
  · rw [if_pos hd]
    exact h
  · rw [if_neg hd, Std.ExtTreeMap.foldl_eq_foldl_toList]
    exact hlist _ tips (fun e he => hdep hd e.1 e.2 ((mem_toList_iff _ _ _).mp he)) h

section Agreement

variable {s s' : Summaries} {D : String → Prop} (hagree : ∀ a, D a → s[a]? = s'[a]?)
include hagree

theorem summaryOf_congr {a : String} (ha : D a) : summaryOf s a = summaryOf s' a := by
  unfold summaryOf
  rw [hagree a ha]

theorem keepLater_congr {tips : BTreeMap String String} (h : Entries (fun _ tip => D tip) tips)
    {owner tip : String} (htip : D tip) : keepLater s tips owner tip = keepLater s' tips owner tip := by
  unfold keepLater
  cases hold : tips[owner]? with
  | none => rfl
  | some old =>
      rw [Option.all_some, Option.all_some, summaryOf_congr hagree (h owner old hold),
        summaryOf_congr hagree htip]

/-- Merging reads the summaries of the entries only. -/
theorem mergeTips_congr {opener dep : String} {tips : BTreeMap String String}
    (h : Entries (fun _ tip => D tip) tips)
    (hdep : dep ≠ opener → D dep ∧ Entries (fun _ tip => D tip) (summaryOf s dep).tips) :
    mergeTips opener s tips dep = mergeTips opener s' tips dep := by
  have hlist : ∀ (entries : List (String × String)) (tips : BTreeMap String String),
      (∀ e ∈ entries, D e.2) → Entries (fun _ tip => D tip) tips →
        entries.foldl (fun tips e => keepLater s tips e.1 e.2) tips
          = entries.foldl (fun tips e => keepLater s' tips e.1 e.2) tips := by
    intro entries
    induction entries with
    | nil => intro tips _ _; rfl
    | cons e rest ih =>
        intro tips he ht
        have hDe := he e (List.mem_cons_self ..)
        rw [List.foldl_cons, List.foldl_cons, ← keepLater_congr hagree ht hDe]
        exact ih _ (fun e' h => he e' (List.mem_cons_of_mem _ h)) (ht.keepLater s hDe)
  unfold mergeTips
  by_cases hd : dep = opener
  · rw [if_pos hd, if_pos hd]
  · rw [if_neg hd, if_neg hd, Std.ExtTreeMap.foldl_eq_foldl_toList,
      Std.ExtTreeMap.foldl_eq_foldl_toList, ← summaryOf_congr hagree (hdep hd).1]
    exact hlist _ tips (fun e he => (hdep hd).2 e.1 e.2 ((mem_toList_iff _ _ _).mp he)) h

/-- Incoming transfers are read off the tips only. -/
theorem addIncoming_congr {tips : BTreeMap String String}
    (h : Entries (fun _ tip => D tip) tips) (owner : String)
    (sent : Summary → BTreeMap String Int) :
    addIncoming owner s sent tips = addIncoming owner s' sent tips := by
  have hlist : ∀ (entries : List (String × String)), (∀ e ∈ entries, D e.2) → ∀ balance,
      entries.foldlM (m := Except String) (fun balance (e : String × String) =>
        orOverflow (checkedAdd balance (((sent (summaryOf s e.2))[owner]?).getD 0))) balance
      = entries.foldlM (fun balance (e : String × String) =>
        orOverflow (checkedAdd balance (((sent (summaryOf s' e.2))[owner]?).getD 0))) balance := by
    intro entries
    induction entries with
    | nil => intro _ balance; rfl
    | cons e rest ih =>
        intro he balance
        rw [List.foldlM_cons, List.foldlM_cons,
          summaryOf_congr hagree (he e (List.mem_cons_self ..))]
        exact bind_congr fun b => ih (fun e' h => he e' (List.mem_cons_of_mem _ h)) b
  funext balance
  refine hlist _ (fun e he => ?_) balance
  exact h e.1 e.2 ((mem_toList_iff _ _ _).mp (List.mem_filter.mp he).1)

end Agreement

/-- The dependencies of an operation, other than the opener. -/
theorem mem_dependencies {opener : String} {n : Node} {d : String} :
    d ∈ n.dependencies opener ↔ d ∈ n.prev :: n.deps ∧ d ≠ opener := by
  have hlist : ∀ (xs : List String) (acc : BTreeSet String),
      d ∈ xs.foldl (fun s x => s.insert x) acc ↔ d ∈ xs ∨ d ∈ acc := by
    intro xs
    induction xs with
    | nil => intro acc; simp
    | cons x xs ih =>
        intro acc
        rw [List.foldl_cons, ih, mem_insert_iff, List.mem_cons]
        tauto
  unfold Node.dependencies
  rw [hlist, List.mem_filter]
  simp only [Std.ExtTreeSet.not_mem_empty, or_false, decide_eq_true_eq]

section Judgement

variable {o : Opening} {s s' : Summaries} {n : Node} {D : String → Prop}

/-- The owner's record before an operation has tips of its past only. -/
theorem ownSummary_entries {opener : String} {Q : String → String → Prop}
    (hdeps : ∀ d ∈ n.dependencies opener, Entries Q (summaryOf s d).tips) :
    Entries Q (ownSummary opener s n).tips := by
  unfold ownSummary
  by_cases hp : n.prev = opener
  · rw [if_pos hp]
    exact Entries.empty Q
  · rw [if_neg hp]
    exact hdeps n.prev (mem_dependencies.mpr ⟨List.mem_cons_self .., hp⟩)

/-- Every tip an operation has seen comes from its past. -/
theorem seenTips_entries {opener : String} {Q : String → String → Prop}
    (hdeps : ∀ d ∈ n.dependencies opener, Entries Q (summaryOf s d).tips) :
    Entries Q (seenTips opener s n (ownSummary opener s n)) := by
  have hlist : ∀ (deps : List String), (∀ d ∈ deps, d ∈ n.deps) →
      ∀ tips : BTreeMap String String, Entries Q tips →
        Entries Q (deps.foldl (mergeTips opener s) tips) := by
    intro deps
    induction deps with
    | nil => intro _ tips ht; exact ht
    | cons d rest ih =>
        intro hsub tips ht
        refine ih (fun x hx => hsub x (List.mem_cons_of_mem _ hx)) _ (ht.mergeTips fun hd => ?_)
        exact hdeps d (mem_dependencies.mpr
          ⟨List.mem_cons_of_mem _ (hsub d (List.mem_cons_self ..)), hd⟩)
  exact hlist n.deps (fun _ h => h) _ (ownSummary_entries hdeps)

/-- **A judgement reads the summaries of an operation's past only.** -/
theorem judge_congr (hagree : ∀ a, D a → s[a]? = s'[a]?)
    (hdeps : ∀ d ∈ n.dependencies o.op.address, D d)
    (hclosed : ∀ a, D a → Entries (fun _ tip => D tip) (summaryOf s a).tips) :
    judge o s n = judge o s' n := by
  have hpast : ∀ d ∈ n.dependencies o.op.address,
      Entries (fun _ tip => D tip) (summaryOf s d).tips := fun d hd => hclosed d (hdeps d hd)
  have hown : ownSummary o.op.address s n = ownSummary o.op.address s' n := by
    unfold ownSummary
    by_cases hp : n.prev = o.op.address
    · rw [if_pos hp, if_pos hp]
    · rw [if_neg hp, if_neg hp]
      exact summaryOf_congr hagree (hdeps _ (mem_dependencies.mpr ⟨List.mem_cons_self .., hp⟩))
  have htips : seenTips o.op.address s n (ownSummary o.op.address s n)
      = seenTips o.op.address s' n (ownSummary o.op.address s n) := by
    -- every partial merge stays inside the past
    have hlist : ∀ (deps : List String), (∀ d ∈ deps, d ∈ n.deps) →
        ∀ tips : BTreeMap String String, Entries (fun _ tip => D tip) tips →
          deps.foldl (mergeTips o.op.address s) tips
            = deps.foldl (mergeTips o.op.address s') tips := by
      intro deps
      induction deps with
      | nil => intro _ tips _; rfl
      | cons d rest ih =>
          intro hsub tips ht
          have hd : d ≠ o.op.address → D d ∧ Entries (fun _ tip => D tip) (summaryOf s d).tips := by
            intro hne
            have hDd := hdeps d (mem_dependencies.mpr
              ⟨List.mem_cons_of_mem _ (hsub d (List.mem_cons_self ..)), hne⟩)
            exact ⟨hDd, hclosed d hDd⟩
          rw [List.foldl_cons, List.foldl_cons, ← mergeTips_congr hagree ht hd]
          exact ih (fun x hx => hsub x (List.mem_cons_of_mem _ hx)) _
            (ht.mergeTips fun hne => (hd hne).2)
    exact hlist n.deps (fun _ h => h) _ (ownSummary_entries hpast)
  have hseen := seenTips_entries hpast
  have hbudgets : ∀ own, localBudgets n.act.signer o.initial o.headroom own
        (seenTips o.op.address s n (ownSummary o.op.address s n)) s
      = localBudgets n.act.signer o.initial o.headroom own
        (seenTips o.op.address s n (ownSummary o.op.address s n)) s' := by
    intro own
    unfold localBudgets
    rw [addIncoming_congr hagree hseen, addIncoming_congr hagree hseen]
  unfold judge
  dsimp only
  rw [hbudgets, htips, hown]

end Judgement

-- ── Justified orders ────

/-- The summary of every listed operation is what `judge` returns, and its tips are listed. -/
structure Supported (o : Opening) (nodes : BTreeMap String Node) (listed : List String)
    (s : Summaries) : Prop where
  judged : ∀ a ∈ listed, ∀ n, nodes[a]? = some n → ∃ r, s[a]? = some r ∧ judge o s n = .ok r
  tips : ∀ a ∈ listed, Entries (fun _ tip => tip ∈ listed) (summaryOf s a).tips

/-- Nodes are filed under their own addresses. -/
def Keyed (nodes : BTreeMap String Node) : Prop :=
  ∀ (a : String) (n : Node), nodes[a]? = some n → n.act.address = a

/-- All operations in an order that follows their dependencies, each with a summary that
    `judge` returns. -/
structure Justified (o : Opening) (nodes : BTreeMap String Node) (order : List String)
    (s : Summaries) : Prop where
  keyed : Keyed nodes
  nodup : order.Nodup
  mem_order : ∀ a, a ∈ order ↔ ∃ n, nodes[a]? = some n
  ordered : Ordered (dependenciesOf o.op.address nodes) order
  judged : ∀ (a : String) (n : Node), nodes[a]? = some n →
    ∃ r, s[a]? = some r ∧ judge o s n = .ok r

theorem dependenciesOf_some {opener a : String} {nodes : BTreeMap String Node} {n : Node}
    (h : nodes[a]? = some n) : dependenciesOf opener nodes a = n.dependencies opener := by
  unfold dependenciesOf
  rw [h]
  rfl

/-- What a judgement returns: the record, and tips of the past or the operation itself. -/
theorem judge_ok {o : Opening} {s : Summaries} {n : Node} {r : Summary}
    (h : judge o s n = .ok r) :
    ∃ rights space next, localBudgets n.act.signer o.initial o.headroom
        (ownSummary o.op.address s n) (seenTips o.op.address s n (ownSummary o.op.address s n)) s
        = .ok (rights, space) ∧
      (∀ b, (if n.kind.spendsHeadroom then space else some rights) = some b → n.amount ≤ b) ∧
      (ownSummary o.op.address s n).record n = .ok next ∧
      r = { next with
        tips := (seenTips o.op.address s n (ownSummary o.op.address s n)).insert n.act.signer
          n.act.address } := by
  unfold judge at h
  dsimp only at h
  cases hb : localBudgets n.act.signer o.initial o.headroom (ownSummary o.op.address s n)
      (seenTips o.op.address s n (ownSummary o.op.address s n)) s with
  | error e => rw [hb] at h; exact nomatch h
  | ok budgets =>
      obtain ⟨rights, space⟩ := budgets
      rw [hb] at h
      dsimp only at h
      by_cases hlow : ((if n.kind.spendsHeadroom = true then space else some rights).any
          fun b => decide (b < n.amount)) = true
      · rw [if_pos hlow] at h
        exact nomatch h
      · rw [if_neg hlow] at h
        cases hrec : (ownSummary o.op.address s n).record n with
        | error e => rw [hrec] at h; exact nomatch h
        | ok next =>
            rw [hrec] at h
            injection h with h
            refine ⟨rights, space, next, rfl, fun b hb' => ?_, rfl, h.symm⟩
            rw [hb'] at hlow
            simpa using hlow

/-- **One visit keeps the support.** -/
theorem Supported.visit {o : Opening} {nodes : BTreeMap String Node} (keyed : Keyed nodes)
    {listed : List String} {s : Summaries} (h : Supported o nodes listed s) {a : String}
    {n : Node} {r : Summary} (hn : nodes[a]? = some n) (hfresh : a ∉ listed)
    (hclosed : ∀ b ∈ listed, ∀ d ∈ dependenciesOf o.op.address nodes b, d ∈ listed)
    (hdeps : ∀ d ∈ dependenciesOf o.op.address nodes a, d ∈ listed)
    (hjudge : judge o s n = .ok r) : Supported o nodes (listed ++ [a]) (s.insert a r) := by
  have hagree : ∀ b, b ∈ listed → s[b]? = (s.insert a r)[b]? := by
    intro b hb
    rw [getElem?_insert_eq, if_neg]
    rintro rfl
    exact hfresh hb
  have hsame : ∀ m : Node, (∀ d ∈ m.dependencies o.op.address, d ∈ listed) →
      judge o s m = judge o (s.insert a r) m := fun m hm => judge_congr hagree hm h.tips
  have hself : (s.insert a r)[a]? = some r := by rw [getElem?_insert_eq, if_pos rfl]
  refine ⟨fun b hb m hm => ?_, fun b hb => ?_⟩
  · rcases List.mem_append.mp hb with hb | hb
    · obtain ⟨r', hr', hj'⟩ := h.judged b hb m hm
      refine ⟨r', by rw [← hagree b hb]; exact hr', ?_⟩
      rw [← hsame m (by rw [← dependenciesOf_some hm]; exact hclosed b hb)]
      exact hj'
    · rw [List.mem_singleton.mp hb] at hm ⊢
      rw [hn] at hm
      injection hm with hm
      subst hm
      refine ⟨r, hself, ?_⟩
      rw [← hsame n (by rw [← dependenciesOf_some hn]; exact hdeps)]
      exact hjudge
  · have hwiden : ∀ {tips}, Entries (fun _ tip => tip ∈ listed) tips →
        Entries (fun _ tip => tip ∈ listed ++ [a]) tips :=
      fun ht owner tip hget => List.mem_append_left _ (ht owner tip hget)
    rcases List.mem_append.mp hb with hb | hb
    · rw [← summaryOf_congr hagree hb]
      exact hwiden (h.tips b hb)
    · obtain ⟨-, -, next, -, -, -, hr⟩ := judge_ok hjudge
      rw [List.mem_singleton.mp hb, summaryOf, hself, hr]
      refine (hwiden (seenTips_entries fun d hd => ?_)).insert ?_
      · rw [← dependenciesOf_some hn] at hd
        exact h.tips d (hdeps d hd)
      · rw [keyed a n hn]
        exact List.mem_append_right _ (List.mem_singleton_self a)

/-- The visited operations and their summaries, between two visits. -/
structure Progress (o : Opening) (nodes : BTreeMap String Node) (visited : List String)
    (s : Summaries) : Prop where
  supported : Supported o nodes visited s
  keys : ∀ a, (∃ r, s[a]? = some r) ↔ a ∈ visited
  closed : ∀ b ∈ visited, ∀ d ∈ dependenciesOf o.op.address nodes b, d ∈ visited

theorem Progress.start (o : Opening) (nodes : BTreeMap String Node) :
    Progress o nodes [] ∅ := by
  refine ⟨⟨(fun a ha => nomatch ha), (fun a ha => nomatch ha)⟩, fun a => ?_,
    (fun b hb => nomatch hb)⟩
  rw [Std.ExtTreeMap.getElem?_empty]
  simp

theorem Progress.visit {o : Opening} {nodes : BTreeMap String Node} (keyed : Keyed nodes)
    {visited : List String} {s s' : Summaries} (h : Progress o nodes visited s) {a : String}
    (ha : a ∈ nodes.keys) (hfresh : a ∉ visited)
    (hdeps : ∀ d ∈ dependenciesOf o.op.address nodes a, d ∈ visited)
    (hvisit : visit o nodes a s = .ok s') : Progress o nodes (visited ++ [a]) s' := by
  obtain ⟨n, hn⟩ := (mem_keys_iff nodes a).mp ha
  unfold CbclEscrow.visit at hvisit
  rw [hn] at hvisit
  obtain ⟨r, hjudge, hs'⟩ := CbclExcept.bind_ok_iff.mp hvisit
  injection hs' with hs'
  subst hs'
  refine ⟨h.supported.visit keyed hn hfresh h.closed hdeps hjudge, fun b => ?_,
    fun b hb d hd => ?_⟩
  · rw [getElem?_insert_eq, List.mem_append, List.mem_singleton, ← h.keys b]
    by_cases hb : b = a
    · rw [if_pos hb]
      exact iff_of_true ⟨r, rfl⟩ (Or.inr hb)
    · rw [if_neg hb]
      exact ⟨Or.inl, fun hor => hor.resolve_right hb⟩
  · refine List.mem_append_left _ ?_
    rcases List.mem_append.mp hb with hb | hb
    · exact h.closed b hb d hd
    · rw [List.mem_singleton.mp hb] at hd
      exact hdeps d hd

theorem visited_nil (nodes : BTreeMap String Node) (opener : String) :
    Visited nodes.keys (dependenciesOf opener nodes) [] :=
  ⟨List.nodup_nil, (fun _ ha => nomatch ha), Ordered.nil _⟩

/-- **A complete traversal justifies an order.** -/
theorem summarize_justified {o : Opening} {nodes : BTreeMap String Node} (keyed : Keyed nodes)
    {s : Summaries} (h : summarize o nodes = .ok s) (hsize : s.size = nodes.size) :
    ∃ order, Justified o nodes order s := by
  unfold summarize at h
  obtain ⟨order, hI, hv, -⟩ := traverse_ok (visit o nodes) (Progress o nodes)
    (fun visited a s s' _ hI ha hfresh hdeps hvisit => hI.visit keyed ha hfresh hdeps hvisit)
    nodes.size [] _ ∅ s (tracks_start _ nodes.keys (nodup_keys nodes))
    (visited_nil nodes o.op.address) (by rw [Std.ExtTreeMap.length_keys]; simp)
    (Progress.start o nodes) h
  -- as many summaries as operations: every operation was visited
  have hperm : order.Perm s.keys := by
    refine (List.perm_ext_iff_of_nodup hv.nodup (nodup_keys s)).mpr fun a => ?_
    rw [mem_keys_iff, hI.keys]
  have hall : ∀ a ∈ nodes.keys, a ∈ order := by
    have hsub : order.Subperm nodes.keys := hv.nodup.subperm hv.mem_nodes
    have hlen : nodes.keys.length ≤ order.length := by
      rw [hperm.length_eq, Std.ExtTreeMap.length_keys, Std.ExtTreeMap.length_keys, hsize]
    intro a ha
    exact ((hsub.perm_of_length_le hlen).mem_iff).mpr ha
  have hmem : ∀ a, a ∈ order ↔ ∃ n, nodes[a]? = some n := by
    intro a
    rw [← mem_keys_iff]
    exact ⟨hv.mem_nodes a, hall a⟩
  exact ⟨order, keyed, hv.nodup, hmem, hv.ordered,
    fun a n hn => hI.supported.judged a ((hmem a).mpr ⟨n, hn⟩) n hn⟩

/-- The tips of an operation lie in every set that is closed under dependencies and has it. -/
theorem Justified.tips {o : Opening} {nodes : BTreeMap String Node} {order : List String}
    {s : Summaries} (h : Justified o nodes order s) {V : String → Prop}
    (hV : ∀ a, V a → ∀ d ∈ dependenciesOf o.op.address nodes a, V d) {a : String} {n : Node}
    (hn : nodes[a]? = some n) (ha : V a) : Entries (fun _ tip => V tip) (summaryOf s a).tips := by
  refine h.ordered.mem_of_closed (P := fun a => V a →
    Entries (fun _ tip => V tip) (summaryOf s a).tips) (fun b hb hpast hVb => ?_) a
    ((h.mem_order a).mpr ⟨n, hn⟩) ha
  obtain ⟨m, hm⟩ := (h.mem_order b).mp hb
  obtain ⟨r, hr, hj⟩ := h.judged b m hm
  obtain ⟨-, -, next, -, -, -, hrec⟩ := judge_ok hj
  rw [summaryOf, hr, hrec]
  refine (seenTips_entries fun d hd => ?_).insert ?_
  · rw [← dependenciesOf_some hm] at hd
    exact hpast d hd (hV b hVb d hd)
  · rw [h.keyed b m hm]
    exact hVb

/-- **A justified order makes the traversal complete.** -/
theorem Justified.summarize {o : Opening} {nodes : BTreeMap String Node} {order : List String}
    {s : Summaries} (h : Justified o nodes order s) :
    ∃ t, CbclEscrow.summarize o nodes = .ok t ∧ t.size = nodes.size := by
  -- what has been visited carries the justified summaries
  let I : List String → Summaries → Prop := fun visited t =>
    ∀ a, t[a]? = if a ∈ visited then s[a]? else none
  have hstep : ∀ visited a t, Visited nodes.keys (dependenciesOf o.op.address nodes) visited →
      I visited t → a ∈ nodes.keys → a ∉ visited →
        (∀ d ∈ dependenciesOf o.op.address nodes a, d ∈ visited) →
          ∃ t', visit o nodes a t = .ok t' ∧ I (visited ++ [a]) t' := by
    intro visited a t hv hI ha hfresh hdeps
    obtain ⟨n, hn⟩ := (mem_keys_iff nodes a).mp ha
    obtain ⟨r, hr, hj⟩ := h.judged a n hn
    have hclosed : ∀ b, b ∈ visited → ∀ d ∈ dependenciesOf o.op.address nodes b, d ∈ visited := by
      intro b hb d hd
      obtain ⟨pre, post, hsplit⟩ := List.append_of_mem hb
      rw [hsplit]
      exact List.mem_append_left _ (hv.ordered pre b post hsplit d hd)
    have hagree : ∀ b, b ∈ visited → s[b]? = t[b]? := by
      intro b hb
      rw [hI b, if_pos hb]
    have hsame : judge o s n = judge o t n := by
      refine judge_congr hagree (by rw [← dependenciesOf_some hn]; exact hdeps) fun b hb => ?_
      obtain ⟨m, hm⟩ := (mem_keys_iff nodes b).mp (hv.mem_nodes b hb)
      exact h.tips hclosed hm hb
    refine ⟨t.insert a r, ?_, fun b => ?_⟩
    · unfold visit
      rw [hn]
      dsimp only
      rw [← hsame, hj]
      rfl
    · rw [getElem?_insert_eq, hI b]
      by_cases hb : b = a
      · subst hb
        rw [if_pos rfl, if_pos (List.mem_append_right _ (List.mem_singleton_self b)), hr]
      · rw [if_neg hb]
        simp [hb]
  have htracks := tracks_start (dependenciesOf o.op.address nodes) nodes.keys (nodup_keys nodes)
  have hstart : I [] ∅ := by
    intro a
    rw [Std.ExtTreeMap.getElem?_empty]
    rfl
  obtain ⟨t, ht⟩ := traverse_total (visit o nodes) I hstep nodes.size [] _ ∅ htracks
    (visited_nil nodes o.op.address) hstart
  refine ⟨t, ht, ?_⟩
  obtain ⟨final, hI, hv, hleft⟩ := traverse_ok (visit o nodes) I
    (fun visited a t t' hv hI ha hfresh hdeps hvisit => by
      obtain ⟨t'', hvisit', hI'⟩ := hstep visited a t hv hI ha hfresh hdeps
      rw [hvisit'] at hvisit
      injection hvisit with hvisit
      rw [← hvisit]
      exact hI')
    nodes.size [] _ ∅ t htracks (visited_nil nodes o.op.address)
    (by rw [Std.ExtTreeMap.length_keys]; simp) hstart ht
  -- an order exists, so nothing is left over
  have hall : ∀ a ∈ order, a ∈ final :=
    h.ordered.mem_of_closed fun a ha => hleft a ((mem_keys_iff nodes a).mpr ((h.mem_order a).mp ha))
  rw [← Std.ExtTreeMap.length_keys, ← Std.ExtTreeMap.length_keys]
  refine List.Perm.length_eq ((List.perm_ext_iff_of_nodup (nodup_keys t) (nodup_keys nodes)).mpr
    fun a => ?_)
  rw [mem_keys_iff, mem_keys_iff, hI a]
  by_cases ha : a ∈ final
  · rw [if_pos ha]
    obtain ⟨n, hn⟩ := (mem_keys_iff nodes a).mp (hv.mem_nodes a ha)
    obtain ⟨r, hr, -⟩ := h.judged a n hn
    exact iff_of_true ⟨r, hr⟩ ⟨n, hn⟩
  · rw [if_neg ha]
    refine iff_of_false (fun hc => nomatch hc.choose_spec) fun hc => ha (hall a ((h.mem_order a).mpr hc))

end CbclEscrowTraversal
