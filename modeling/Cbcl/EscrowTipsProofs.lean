import Cbcl.EscrowHistoryProofs

/-!
# What an operation that names every tip can see

A local budget is in general less than the balance: an operation sees what it depends on and no
more.  An operation that names its owner's newest operation and the newest of every other
owner sees everything.  Sequence numbers grow along a chain, so merging keeps the newest
operation of every owner (`seenTips_current`); the summaries of these record whole chains, so
the budget is the balance (`localBudgets_current`), and an operation the balance covers is
judged well (`judge_current`).
-/

namespace CbclEscrowTips

open CbclMessage CbclEscrow CbclEscrowTraversal CbclEscrowStage CbclEscrowSolvency
open CbclEscrowHistory CbclTreeMap CbclKahn CbclLedger

-- ── Tips of chains ────

/-- An operation of an account that no other operation of the account follows. -/
def IsTip (nodes : BTreeMap String Node) (p t : String) : Prop :=
  (∃ n, nodes[t]? = some n ∧ n.act.signer = p) ∧
    ∀ (b : String) (m : Node), nodes[b]? = some m → m.act.signer = p → m.prev ≠ t

variable {nodes : BTreeMap String Node} {opener p t : String} {c : List String}

theorem chain_node (h : Chain nodes opener p (t :: c)) :
    ∃ n, nodes[t]? = some n ∧ n.act.signer = p := by
  cases h with
  | first hn howner _ => exact ⟨_, hn, howner⟩
  | next hn howner _ _ _ => exact ⟨_, hn, howner⟩

/-- Every operation of a chain ends a chain of its own. -/
theorem chain_suffix (h : Chain nodes opener p c) :
    ∀ y ∈ c, ∃ c', Chain nodes opener p (y :: c') ∧ y :: c' <:+ c := by
  induction h with
  | nil => exact fun y hy => nomatch hy
  | @first a n hn howner hprev =>
      intro y hy
      rw [List.mem_singleton.mp hy]
      exact ⟨[], .first hn howner hprev, List.suffix_rfl⟩
  | @next a b c n hn howner hprev hne hc ih =>
      intro y hy
      rcases List.mem_cons.mp hy with rfl | hy
      · exact ⟨a :: c, .next hn howner hprev hne hc, List.suffix_rfl⟩
      · obtain ⟨c', hc', hsuffix⟩ := ih y hy
        exact ⟨c', hc', hsuffix.trans (List.suffix_cons b (a :: c))⟩

/-- The newest operation of a chain is not in the rest of it. -/
theorem chain_head_notMem (h : Chain nodes opener p (t :: c)) : t ∉ c := by
  intro ht
  cases h with
  | first => exact nomatch ht
  | next hn howner hprev hne hc =>
      obtain ⟨c', hc', hsuffix⟩ := chain_suffix hc t ht
      have hsame := (Chain.next hn howner hprev hne hc).unique rfl hc'
      have hle := hsuffix.length_le
      rw [← hsame] at hle
      simp at hle

theorem chain_nodup (h : Chain nodes opener p c) : c.Nodup := by
  induction h with
  | nil => exact List.nodup_nil
  | first => exact List.nodup_singleton _
  | next hn howner hprev hne hc ih =>
      exact List.nodup_cons.mpr ⟨chain_head_notMem (.next hn howner hprev hne hc), ih⟩

/-- The tip of an account is the newest operation of its chain. -/
theorem isTip_iff (h : Chain nodes opener p c) (hop : nodes[opener]? = none)
    (hmem : ∀ a, a ∈ c ↔ ∃ n, nodes[a]? = some n ∧ n.act.signer = p) :
    IsTip nodes p t ↔ ∃ rest, c = t :: rest := by
  constructor
  · rintro ⟨hnode, hlast⟩
    have ht := (hmem t).mpr hnode
    cases c with
    | nil => exact nomatch ht
    | cons y rest =>
        rcases List.mem_cons.mp ht with rfl | htail
        · exact ⟨rest, rfl⟩
        · obtain ⟨z, -, m, hm, howner, hprev⟩ := h.exists_next t htail
          exact absurd hprev (hlast z m hm howner)
  · rintro ⟨rest, rfl⟩
    refine ⟨chain_node h, fun b m hm howner hprev => ?_⟩
    -- a successor of the newest operation would stand before it
    obtain ⟨c', hc', hsuffix⟩ := chain_suffix h b ((hmem b).mpr ⟨m, hm, howner⟩)
    have hnode := chain_node h
    cases hc' with
    | first hn _ hfirst =>
        rw [hm] at hn
        injection hn with hn
        subst hn
        rw [← hprev, hfirst, hop] at hnode
        exact nomatch hnode.choose_spec.1
    | next hn _ hprev' hne hc'' =>
        rw [hm] at hn
        injection hn with hn
        subst hn
        have heq := hprev.symm.trans hprev'
        subst heq
        have hsame := h.unique rfl hc''
        have hle := hsuffix.length_le
        rw [← hsame] at hle
        simp at hle

-- ── Sequences ────

/-- Recording counts an operation. -/
theorem record_counts {r next : Summary} {n : Node} (h : r.record n = .ok next) :
    next.sequence = r.sequence + 1 := by
  unfold Summary.record at h
  split at h
  · exact nomatch h
  · dsimp only at h
    cases hk : n.kind with
    | increment =>
        rw [hk] at h
        obtain ⟨_, -, h⟩ := CbclExcept.bind_ok_iff.mp h
        rw [← Except.ok.inj h]
    | decrement =>
        rw [hk] at h
        obtain ⟨_, -, h⟩ := CbclExcept.bind_ok_iff.mp h
        rw [← Except.ok.inj h]
    | transfer =>
        rw [hk] at h
        obtain ⟨_, -, h⟩ := CbclExcept.bind_ok_iff.mp h
        rw [← Except.ok.inj h]
    | headroom =>
        rw [hk] at h
        obtain ⟨_, -, h⟩ := CbclExcept.bind_ok_iff.mp h
        rw [← Except.ok.inj h]

section Judged

variable {o : Opening} {order : List String} {s : Summaries} (justified : Justified o nodes order s)
include justified

/-- The summary of an operation counts one more than its owner's record before it, and its tips
    are those it has seen and itself. -/
theorem judged_summary {a : String} {n : Node} (hn : nodes[a]? = some n) :
    (summaryOf s a).sequence = (ownSummary o.op.address s n).sequence + 1 ∧
      (summaryOf s a).tips = (seenTips o.op.address s n (ownSummary o.op.address s n)).insert
        n.act.signer a := by
  obtain ⟨r, hr, hj⟩ := justified.judged a n hn
  obtain ⟨-, -, next, -, -, hrecord, hr'⟩ := judge_ok hj
  have hsummary : summaryOf s a = r := by rw [summaryOf, hr]; rfl
  have hcount := record_counts hrecord
  rw [hsummary, hr', justified.keyed a n hn]
  exact ⟨hcount, rfl⟩

/-- The sequence number of an operation is the length of the chain that ends in it. -/
theorem sequence_chain (h : Chain nodes o.op.address p c) :
    ∀ t rest, c = t :: rest → (summaryOf s t).sequence = c.length := by
  induction h with
  | nil => exact fun t rest heq => nomatch heq
  | @first a n hn howner hprev =>
      intro t rest heq
      injection heq with ht _
      rw [← ht, (judged_summary justified hn).1, ownSummary, if_pos hprev]
      rfl
  | @next a b c n hn howner hprev hne hc ih =>
      intro t rest heq
      injection heq with ht _
      rw [← ht, (judged_summary justified hn).1, ownSummary, if_neg (by rw [hprev]; exact hne),
        hprev, ih a c rfl]
      rfl

/-- Sequence numbers grow along a chain. -/
theorem sequence_lt (h : Chain nodes o.op.address p (t :: c)) {y : String} (hy : y ∈ c) :
    (summaryOf s y).sequence < (summaryOf s t).sequence := by
  obtain ⟨c', hc', hsuffix⟩ := chain_suffix h y (List.mem_cons_of_mem t hy)
  rw [sequence_chain justified hc' y c' rfl, sequence_chain justified h t c rfl]
  refine lt_of_le_of_ne hsuffix.length_le fun hlen => ?_
  have heq := hsuffix.eq_of_length hlen
  injection heq with hhead _
  exact chain_head_notMem h (hhead ▸ hy)

end Judged

-- ── Merging keeps the later tip ────

/-- A tip map names an operation of an account with at least some sequence number. -/
def Reached (s : Summaries) (tips : BTreeMap String String) (p : String) (q : Nat) : Prop :=
  ∃ t : String, tips[p]? = some t ∧ q ≤ (summaryOf s t).sequence

section Merging

variable {s : Summaries} {tips : BTreeMap String String} {q : Nat}

/-- Keeping the later tip reaches what was reached, and the tip offered. -/
theorem reached_keepLater {owner tip : String}
    (h : Reached s tips p q ∨ owner = p ∧ q ≤ (summaryOf s tip).sequence) :
    Reached s (keepLater s tips owner tip) p q := by
  unfold keepLater
  by_cases hlater : (tips[owner]?).all fun old =>
      (summaryOf s old).sequence < (summaryOf s tip).sequence
  · rw [if_pos hlater]
    unfold Reached
    by_cases hp : p = owner
    · refine ⟨tip, by rw [getElem?_insert_eq, if_pos hp], ?_⟩
      rcases h with ⟨t, ht, hq⟩ | ⟨-, hq⟩
      · rw [hp] at ht
        rw [ht, Option.all_some, decide_eq_true_eq] at hlater
        exact hq.trans hlater.le
      · exact hq
    · rcases h with ⟨t, ht, hq⟩ | ⟨hp', -⟩
      · exact ⟨t, by rw [getElem?_insert_eq, if_neg hp]; exact ht, hq⟩
      · exact absurd hp'.symm hp
  · rw [if_neg hlater]
    rcases h with h | ⟨rfl, hq⟩
    · exact h
    · cases hold : tips[owner]? with
      | none => rw [hold] at hlater; exact absurd rfl hlater
      | some old =>
          rw [hold, Option.all_some, decide_eq_true_eq, not_lt] at hlater
          exact ⟨old, hold, hq.trans hlater⟩

/-- Merging reaches what either side reaches. -/
theorem reached_mergeTips {dep : String}
    (h : Reached s tips p q ∨ dep ≠ opener ∧ Reached s (summaryOf s dep).tips p q) :
    Reached s (mergeTips opener s tips dep) p q := by
  have hlist : ∀ (entries : List (String × String)) (tips : BTreeMap String String),
      (Reached s tips p q ∨ ∃ e ∈ entries, e.1 = p ∧ q ≤ (summaryOf s e.2).sequence) →
        Reached s (entries.foldl (fun tips e => keepLater s tips e.1 e.2) tips) p q := by
    intro entries
    induction entries with
    | nil => exact fun tips h => h.resolve_right fun ⟨e, he, _⟩ => nomatch he
    | cons e rest ih =>
        intro tips h
        refine ih _ ?_
        rcases h with h | ⟨e', he', hp, hq⟩
        · exact Or.inl (reached_keepLater (Or.inl h))
        · rcases List.mem_cons.mp he' with rfl | hrest
          · exact Or.inl (reached_keepLater (Or.inr ⟨hp, hq⟩))
          · exact Or.inr ⟨e', hrest, hp, hq⟩
  unfold mergeTips
  by_cases hd : dep = opener
  · rw [if_pos hd]
    exact h.resolve_right fun hr => hr.1 hd
  · rw [if_neg hd, Std.ExtTreeMap.foldl_eq_foldl_toList]
    refine hlist _ tips (h.imp_right fun ⟨_, t, ht, hq⟩ => ?_)
    exact ⟨(p, t), (mem_toList_iff _ _ _).mpr ht, rfl, hq⟩

/-- An operation has seen what its dependencies have seen. -/
theorem reached_seenTips {n : Node} {own : Summary} {dep : String} (hdep : dep ∈ n.deps)
    (hne : dep ≠ opener) (h : Reached s (summaryOf s dep).tips p q) :
    Reached s (seenTips opener s n own) p q := by
  have hlist : ∀ (deps : List String) (tips : BTreeMap String String),
      (Reached s tips p q ∨ dep ∈ deps) →
        Reached s (deps.foldl (mergeTips opener s) tips) p q := by
    intro deps
    induction deps with
    | nil => exact fun tips h => h.resolve_right fun hin => nomatch hin
    | cons d rest ih =>
        intro tips hor
        refine ih _ ?_
        rcases hor with hr | hin
        · exact Or.inl (reached_mergeTips (Or.inl hr))
        · rcases List.mem_cons.mp hin with rfl | hrest
          · exact Or.inl (reached_mergeTips (Or.inr ⟨hne, h⟩))
          · exact Or.inr hrest
  exact hlist n.deps _ (Or.inr hdep)

end Merging

-- ── Operations that name every tip ────

/-- An operation follows its owner's newest operation, or the opener if there is none, and
    depends on exactly the newest operations of the others. -/
structure Current (opener : String) (nodes : BTreeMap String Node) (n : Node) : Prop where
  prev : IsTip nodes n.act.signer n.prev ∨
    n.prev = opener ∧ ∀ t, ¬ IsTip nodes n.act.signer t
  deps : ∀ d, d ∈ n.deps ↔ ∃ p, p ≠ n.act.signer ∧ IsTip nodes p d

section Extension

variable {c : CounterRule} {o : Opening} {ops : Operations} {order : List String} {s : Summaries}
  {n : Node}

/-- A link of a current operation is to the opener or to an operation. -/
theorem Current.dependencies (h : Current o.op.address ops.nodes n)
    (justified : Justified o ops.nodes order s) :
    ∀ d ∈ n.dependencies o.op.address, d ∈ order := by
  intro d hd
  obtain ⟨hmem, hne⟩ := mem_dependencies.mp hd
  rw [justified.mem_order]
  rcases List.mem_cons.mp hmem with rfl | hdep
  · rcases h.prev with ⟨⟨m, hm, -⟩, -⟩ | ⟨heq, -⟩
    · exact ⟨m, hm⟩
    · exact absurd heq hne
  · obtain ⟨p, -, ⟨m, hm, -⟩, -⟩ := (h.deps d).mp hdep
    exact ⟨m, hm⟩

variable (checked : Checked c o ops) (justified : Justified o ops.nodes order s)
include checked justified

/-- The operations of an account form one chain, and the summary of the newest records it. -/
theorem exists_chain (x : String) : ∃ ch, Chain ops.nodes o.op.address x ch ∧
      (∀ a, a ∈ ch ↔ a ∈ order ∧ ownerOf ops.nodes a = x) ∧
      (∀ a, a ∈ ch ↔ ∃ n, ops.nodes[a]? = some n ∧ n.act.signer = x) ∧
      ∀ t rest, ch = t :: rest → Records ops.nodes (summaryOf s t) ch.toFinset := by
  have hwalk := walked_order checked justified
  obtain ⟨ch, hch, hmem⟩ := hwalk.latest x
  refine ⟨ch, hch, hmem, fun a => ?_, fun t rest heq => ?_⟩
  · rw [hmem, justified.mem_order]
    constructor
    · rintro ⟨⟨n, hn⟩, howner⟩
      exact ⟨n, hn, by rw [← ownerOf_some hn]; exact howner⟩
    · rintro ⟨n, hn, howner⟩
      exact ⟨⟨n, hn⟩, by rw [ownerOf_some hn]; exact howner⟩
  · obtain ⟨ht, howner⟩ := (hmem t).mp (heq ▸ List.mem_cons_self)
    obtain ⟨d, hd, -, hrec⟩ := hwalk.records t ht
    rw [howner] at hd
    rw [heq] at hch ⊢
    rw [hch.unique rfl hd]
    exact hrec

variable (hop : ops.nodes[o.op.address]? = none)
include hop

/-- The tip of an account is unique. -/
theorem isTip_unique {x t t' : String} (h : IsTip ops.nodes x t) (h' : IsTip ops.nodes x t') :
    t = t' := by
  obtain ⟨ch, hch, -, hmem, -⟩ := exists_chain checked justified x
  obtain ⟨rest, rfl⟩ := (isTip_iff hch hop hmem).mp h
  obtain ⟨rest', heq⟩ := (isTip_iff hch hop hmem).mp h'
  injection heq

/-- **What a current operation has seen of another account is its newest operation.** -/
theorem seenTips_current (h : Current o.op.address ops.nodes n) {x : String}
    (hx : x ≠ n.act.signer) (t : String) :
    (seenTips o.op.address s n (ownSummary o.op.address s n))[x]? = some t ↔
      IsTip ops.nodes x t := by
  obtain ⟨ch, hch, horder, hmem, -⟩ := exists_chain checked justified x
  -- the newest operation is among the dependencies, and has itself as its owner's tip
  have hreached : ∀ t, IsTip ops.nodes x t → Reached s (seenTips o.op.address s n
      (ownSummary o.op.address s n)) x (summaryOf s t).sequence := by
    intro t ht
    obtain ⟨m, hm, howner⟩ := ht.1
    have hne : t ≠ o.op.address := by
      rintro rfl
      rw [hop] at hm
      exact nomatch hm
    refine reached_seenTips ((h.deps t).mpr ⟨x, hx, ht⟩) hne ⟨t, ?_, le_refl _⟩
    rw [(judged_summary justified hm).2, howner, getElem?_insert_eq, if_pos rfl]
  have htip : ∀ t, (seenTips o.op.address s n (ownSummary o.op.address s n))[x]? = some t →
      IsTip ops.nodes x t := by
    intro t ht
    have hentry : Entries (fun p tip => tip ∈ order ∧ ownerOf ops.nodes tip = p)
        (seenTips o.op.address s n (ownSummary o.op.address s n)) := by
      refine seenTips_entries fun d hd p tip hget => ?_
      have hin := h.dependencies justified d hd
      obtain ⟨m, hm⟩ := (justified.mem_order d).mp hin
      exact ⟨justified.tips justified.ordered.closed hm hin p tip hget,
        tips_owner justified hin p tip hget⟩
    have hin := (horder t).mpr (hentry x t ht)
    cases ch with
    | nil => exact nomatch hin
    | cons y rest =>
        have hy : IsTip ops.nodes x y := (isTip_iff hch hop hmem).mpr ⟨rest, rfl⟩
        obtain ⟨t', ht', hle⟩ := hreached y hy
        rw [ht] at ht'
        injection ht' with ht'
        subst ht'
        rcases List.mem_cons.mp hin with rfl | htail
        · exact hy
        · exact absurd (sequence_lt justified hch htail) (not_lt.mpr hle)
  refine ⟨htip t, fun ht => ?_⟩
  obtain ⟨t', ht', -⟩ := hreached t ht
  rw [ht', isTip_unique checked justified hop ht (htip t' ht')]

/-- The record before a current operation is that of its owner's whole chain. -/
theorem ownSummary_current (h : Current o.op.address ops.nodes n) :
    ∃ ch : List String, (∀ a, a ∈ ch ↔ a ∈ order ∧ ownerOf ops.nodes a = n.act.signer) ∧
      Records ops.nodes (ownSummary o.op.address s n) ch.toFinset ∧
      (ownSummary o.op.address s n).sequence ≤ order.length := by
  obtain ⟨ch, hch, horder, hmem, hrec⟩ := exists_chain checked justified n.act.signer
  refine ⟨ch, horder, ?_⟩
  rcases h.prev with htip | ⟨hprev, hnone⟩
  · obtain ⟨rest, heq⟩ := (isTip_iff hch hop hmem).mp htip
    obtain ⟨m, hm, -⟩ := htip.1
    have hne : n.prev ≠ o.op.address := by
      intro heq'
      rw [heq', hop] at hm
      exact nomatch hm
    rw [ownSummary, if_neg hne]
    refine ⟨hrec _ rest heq, ?_⟩
    rw [sequence_chain justified hch _ rest heq]
    exact ((chain_nodup hch).subperm fun a ha => ((horder a).mp ha).1).length_le
  · have hnil : ch = [] := by
      cases ch with
      | nil => rfl
      | cons y rest => exact absurd ((isTip_iff hch hop hmem).mpr ⟨rest, rfl⟩) (hnone y)
    rw [ownSummary, if_pos hprev, hnil, List.toFinset_nil]
    exact ⟨Records.default ops.nodes, Nat.zero_le _⟩

end Extension

-- ── Books ────

/-- Where a summary keeps what an owner gained, lost and sent in a flow. -/
structure Book (f : Flow) where
  gained : Summary → Int
  lost : Summary → Int
  sent : Summary → BTreeMap String Int
  moves : f.moved = .transfer ∨ f.moved = .headroom
  sum_gained : ∀ {nodes r C}, Records nodes r C →
    gained r = ∑ a ∈ C, part nodes (amountIf f.gain) a
  sum_lost : ∀ {nodes r C}, Records nodes r C →
    lost r = ∑ a ∈ C, part nodes (amountIf f.loss) a
  sum_sent : ∀ {nodes r C}, Records nodes r C → ∀ x,
    balanceOf (sent r) x = ∑ a ∈ C, part nodes (sentIf f.moved · x) a
  sum_out : ∀ {nodes r C}, Records nodes r C →
    sumOf (sent r) = ∑ a ∈ C, part nodes (amountIf f.moved) a

/-- The book of rights. -/
def rightsBook : Book rightsFlow where
  gained := (·.credited)
  lost := (·.debited)
  sent := (·.sent_rights)
  moves := Or.inl rfl
  sum_gained := fun h => h.credited
  sum_lost := fun h => h.debited
  sum_sent := fun h => h.sent_rights
  sum_out := fun h => h.out_rights

/-- The book of headroom. -/
def headroomBook : Book headroomFlow where
  gained := (·.debited)
  lost := (·.credited)
  sent := (·.sent_headroom)
  moves := Or.inr rfl
  sum_gained := fun h => h.debited
  sum_lost := fun h => h.credited
  sum_sent := fun h => h.sent_headroom
  sum_out := fun h => h.out_headroom

-- ── No overflow ────

theorem amountIf_bounds {o : Opening} {n : Node} (h : Sound o n) (k : Kind) :
    0 ≤ amountIf k n ∧ amountIf k n < 2 ^ 63 := by
  have hpos := h.positive
  have hsmall := h.small
  unfold amountIf
  split
  · omega
  · omega

theorem sentIf_bounds {o : Opening} {n : Node} (h : Sound o n) (k : Kind) (x : String) :
    0 ≤ sentIf k n x ∧ sentIf k n x < 2 ^ 63 := by
  have hpos := h.positive
  have hsmall := h.small
  unfold sentIf
  split
  · omega
  · omega

/-- An owner's own account is computed if its parts are far from the edge of the range. -/
theorem ownBalance_total {initial credited debited : Int} {sent : BTreeMap String Int}
    (hi : 0 ≤ initial ∧ initial < 2 ^ 63) (hc : 0 ≤ credited ∧ credited < 2 ^ 126 - 2 ^ 63)
    (hd : 0 ≤ debited ∧ debited < 2 ^ 126 - 2 ^ 63) (hsent : Natural sent)
    (hout : sumOf sent < 2 ^ 126 - 2 ^ 63) :
    ownBalance initial credited debited sent
      = .ok (initial + credited - debited - sumOf sent) := by
  have hnonneg := hsent.sum_nonneg
  have htotal : total sent = some (sumOf sent) := hsent.total (by omega)
  have hadd : checkedAdd initial credited = some (initial + credited) :=
    checked_eq_some.mpr ⟨⟨by omega, by omega⟩, rfl⟩
  have hsub : checkedSub (initial + credited) debited = some (initial + credited - debited) :=
    checked_eq_some.mpr ⟨⟨by omega, by omega⟩, rfl⟩
  have hsub' : checkedSub (initial + credited - debited) (sumOf sent)
      = some (initial + credited - debited - sumOf sent) :=
    checked_eq_some.mpr ⟨⟨by omega, by omega⟩, rfl⟩
  unfold ownBalance
  rw [htotal, hadd, Option.bind_some, hsub]
  show orOverflow (checkedSub (initial + credited - debited) (sumOf sent)) = _
  rw [hsub']
  rfl

/-- Income only adds up: it is computed if the result fits. -/
theorem addIncoming_total {owner : String} {s : Summaries} {sent : Summary → BTreeMap String Int}
    {tips : BTreeMap String String} {b : Int}
    (hnonneg : ∀ p t : String, p ≠ owner → tips[p]? = some t →
      0 ≤ balanceOf (sent (summaryOf s t)) owner)
    (hb : -2 ^ 127 ≤ b)
    (hlt : b + ∑ p ∈ others tips owner, balanceOf (sent (summaryOf s (tipOf tips p))) owner
      < 2 ^ 127) : ∃ v, addIncoming owner s sent tips b = .ok v := by
  rw [← sum_incoming] at hlt
  have hentries : ∀ e ∈ tips.toList.filter (·.1 ≠ owner),
      0 ≤ balanceOf (sent (summaryOf s e.2)) owner := by
    intro e he
    obtain ⟨hin, hne⟩ := List.mem_filter.mp he
    exact hnonneg e.1 e.2 (of_decide_eq_true hne) ((mem_toList_iff tips e.1 e.2).mp hin)
  have hsum : ∀ l : List (String × String), (∀ e ∈ l, e ∈ tips.toList.filter (·.1 ≠ owner)) →
      0 ≤ (l.map fun e => balanceOf (sent (summaryOf s e.2)) owner).sum := fun l hl =>
    List.sum_nonneg fun v hv => by
      obtain ⟨e, he, rfl⟩ := List.mem_map.mp hv
      exact hentries e (hl e he)
  have hfold : ∃ v, addIncoming owner s sent tips b = .ok v ∧
      v = b + ((tips.toList.filter (·.1 ≠ owner)).map fun e =>
        balanceOf (sent (summaryOf s e.2)) owner).sum := by
    refine CbclExcept.foldlM_total (I := fun (done : List (String × String)) v => v = b +
      (done.map fun e => balanceOf (sent (summaryOf s e.2)) owner).sum) ?_ ?_
    · rintro done e w ⟨rest, hsplit⟩ hw
      have hdone := hsum done fun e he => hsplit ▸ List.mem_append_left _ he
      have hrest := hsum rest fun e he =>
        hsplit ▸ List.mem_append_right _ (List.mem_cons_of_mem _ he)
      have he := hentries e (hsplit ▸ List.mem_append_right _ List.mem_cons_self)
      rw [← hsplit, List.map_append, List.sum_append, List.map_cons, List.sum_cons] at hlt
      refine ⟨w + balanceOf (sent (summaryOf s e.2)) owner, orOverflow_ok.mpr
        (checked_eq_some.mpr ⟨?_, rfl⟩), ?_⟩
      · show inI128 (w + balanceOf (sent (summaryOf s e.2)) owner)
        exact ⟨by omega, by omega⟩
      · rw [hw, List.map_append, List.sum_append, List.map_singleton, List.sum_singleton]
        ring
    · simp
  exact hfold.imp fun v hv => hv.1

/-- The sum of fewer than `2 ^ 63` bounded numbers. -/
theorem sum_le_machine {C : Finset String} {g : String → ℤ} {B : ℤ} (hB : 0 ≤ B)
    (hcard : C.card < 2 ^ 63) (hg : ∀ a ∈ C, g a ≤ B) : ∑ a ∈ C, g a ≤ (2 ^ 63 - 1) * B := by
  have hsum : ∑ a ∈ C, g a ≤ C.card • B := Finset.sum_le_card_nsmul C g B hg
  have hcast : (C.card : ℤ) ≤ 2 ^ 63 - 1 := by
    have hlt : (C.card : ℤ) < 2 ^ 63 := by exact_mod_cast hcard
    omega
  rw [nsmul_eq_mul] at hsum
  exact hsum.trans (mul_le_mul_of_nonneg_right hcast hB)

section Extension

variable {c : CounterRule} {o : Opening} {ops : Operations} {order : List String} {s : Summaries}
  {n : Node} (checked : Checked c o ops) (justified : Justified o ops.nodes order s)
include checked

/-- Fewer than `2 ^ 63` amounts add up to less than `2 ^ 126`. -/
theorem sum_part_bounds {q : Node → ℤ} (hq : ∀ n, Sound o n → 0 ≤ q n ∧ q n < 2 ^ 63)
    {C : Finset String} (hC : C.card < 2 ^ 63) :
    0 ≤ ∑ a ∈ C, part ops.nodes q a ∧ ∑ a ∈ C, part ops.nodes q a < 2 ^ 126 - 2 ^ 63 := by
  have hpart : ∀ a, 0 ≤ part ops.nodes q a ∧ part ops.nodes q a ≤ 2 ^ 63 - 1 := by
    intro a
    cases hn : ops.nodes[a]? with
    | none =>
        unfold part
        rw [hn]
        exact ⟨le_refl 0, show (0 : ℤ) ≤ 2 ^ 63 - 1 by decide⟩
    | some n =>
        rw [part_some hn]
        have hbounds := hq n (checked.filed.sound hn)
        omega
  refine ⟨Finset.sum_nonneg fun a _ => (hpart a).1, ?_⟩
  have hsum := sum_le_machine (by decide) hC fun a _ => (hpart a).2
  omega

/-- A balance after fewer than `2 ^ 63` operations is less than `2 ^ 126`. -/
theorem balance_lt (f : Flow) (hf : f.moved = .transfer ∨ f.moved = .headroom)
    {m : BTreeMap String Int}
    (hm : ∀ (k : String) (v : Int), m[k]? = some v → 0 ≤ v ∧ v < 2 ^ 63) {C : Finset String}
    (hC : C.card < 2 ^ 63) (x : String) :
    (ledger ops.nodes f).balance (balanceOf m) C x < 2 ^ 126 := by
  have hpart : ∀ a ∈ C, part ops.nodes (f.delta · x) a ≤ 2 ^ 63 := by
    intro a _
    cases hn : ops.nodes[a]? with
    | none =>
        unfold part
        rw [hn]
        exact show (0 : ℤ) ≤ 2 ^ 63 by decide
    | some n =>
        rw [part_some hn]
        exact (delta_bounds (checked.filed.sound hn) f hf x).2
  have hsum := sum_le_machine (by decide) hC hpart
  have hinitial : balanceOf m x < 2 ^ 63 := by
    unfold balanceOf
    cases hx : m[x]? with
    | none => exact show (0 : ℤ) < 2 ^ 63 by decide
    | some v => exact (hm x v hx).2
  show balanceOf m x + ∑ a ∈ C, part ops.nodes (f.delta · x) a < 2 ^ 126
  omega

/-- A record of a chain can take in one more operation. -/
theorem record_total {own : Summary} {C : Finset String} (hC : C.card < 2 ^ 63)
    (hrec : Records ops.nodes own C) (hseq : own.sequence < 2 ^ 63) (hsound : Sound o n) :
    ∃ next, own.record n = .ok next := by
  have hpos := hsound.positive
  have hsmall := hsound.small
  have hfit : ∀ {v : Int} {q : Node → ℤ}, (∀ n, Sound o n → 0 ≤ q n ∧ q n < 2 ^ 63) →
      v = ∑ a ∈ C, part ops.nodes q a → checkedAdd v n.amount = some (v + n.amount) := by
    rintro v q hq rfl
    have hbounds := sum_part_bounds checked hq hC
    exact checked_eq_some.mpr ⟨⟨by omega, by omega⟩, rfl⟩
  have hsent : ∀ {sent : BTreeMap String Int} {k : Kind} {r : String}, n.recipient = some r →
      balanceOf sent r = ∑ a ∈ C, part ops.nodes (sentIf k · r) a →
        ∃ sent', recordSent sent n = .ok sent' := by
    intro sent k r hr hbal
    refine ⟨sent.insert r (balanceOf sent r + n.amount), ?_⟩
    have hadd := hfit (fun n hn => sentIf_bounds hn k r) hbal
    unfold recordSent
    rw [hr]
    show (orOverflow (checkedAdd (balanceOf sent r) n.amount) >>= _) = _
    rw [hadd]
    rfl
  unfold Summary.record
  rw [if_neg (by omega)]
  cases hk : n.kind with
  | increment =>
      have hadd := hfit (fun n hn => amountIf_bounds hn .increment) hrec.credited
      exact ⟨_, by dsimp only; rw [hadd]; rfl⟩
  | decrement =>
      have hadd := hfit (fun n hn => amountIf_bounds hn .decrement) hrec.debited
      exact ⟨_, by dsimp only; rw [hadd]; rfl⟩
  | transfer =>
      obtain ⟨r, hr, -, -⟩ := hsound.moves (Or.inl hk)
      obtain ⟨sent', hsent'⟩ := hsent hr (hrec.sent_rights r)
      exact ⟨_, by dsimp only; rw [hsent']; rfl⟩
  | headroom =>
      obtain ⟨r, hr, -, -⟩ := hsound.moves (Or.inr hk)
      obtain ⟨sent', hsent'⟩ := hsent hr (hrec.sent_headroom r)
      exact ⟨_, by dsimp only; rw [hsent']; rfl⟩

-- ── The budget is the balance ────

variable (justified : Justified o ops.nodes order s) (hop : ops.nodes[o.op.address]? = none)
include justified hop

/-- What the newest operation of another account has sent is what all of its operations have. -/
theorem sent_tip {f : Flow} (B : Book f) {x q t : String} (hq : q ≠ x)
    (ht : IsTip ops.nodes q t) : balanceOf (B.sent (summaryOf s t)) x
      = ∑ a ∈ order.toFinset with ownerOf ops.nodes a = q, part ops.nodes (f.delta · x) a := by
  obtain ⟨ch, hch, horder, hmem, hrec⟩ := exists_chain checked justified q
  obtain ⟨rest, heq⟩ := (isTip_iff hch hop hmem).mp ht
  have hset : ({a ∈ order.toFinset | ownerOf ops.nodes a = q} : Finset String) = ch.toFinset := by
    ext a
    rw [Finset.mem_filter, List.mem_toFinset, List.mem_toFinset, horder]
  rw [hset, B.sum_sent (hrec t rest heq) x]
  refine (sum_sent f fun a ha => ?_).symm
  obtain ⟨m, hm, howner⟩ := (hmem a).mp (List.mem_toFinset.mp ha)
  exact ⟨m, hm, by rw [howner]; exact hq⟩

/-- **The budget of a current operation in one flow is its owner's balance.** -/
theorem budget_current {f : Flow} (B : Book f) (hlen : order.length < 2 ^ 63)
    {m : BTreeMap String Int} (hm : ∀ (k : String) (v : Int), m[k]? = some v → 0 ≤ v ∧ v < 2 ^ 63)
    (h : Current o.op.address ops.nodes n) :
    ∃ b, ownBalance (balanceOf m n.act.signer) (B.gained (ownSummary o.op.address s n))
        (B.lost (ownSummary o.op.address s n)) (B.sent (ownSummary o.op.address s n)) = .ok b ∧
      addIncoming n.act.signer s B.sent
          (seenTips o.op.address s n (ownSummary o.op.address s n)) b
        = .ok ((ledger ops.nodes f).balance (balanceOf m) order.toFinset n.act.signer) := by
  obtain ⟨ch, hch, hrec, -⟩ := ownSummary_current checked justified hop h
  have hseen : ∀ {x : String}, x ≠ n.act.signer → ∀ t : String,
      (seenTips o.op.address s n (ownSummary o.op.address s n))[x]? = some t ↔
        IsTip ops.nodes x t := fun hx t => seenTips_current checked justified hop h hx t
  have hnodup : order.toFinset.card < 2 ^ 63 :=
    lt_of_le_of_lt (List.toFinset_card_le order) hlen
  have hcard : ch.toFinset.card < 2 ^ 63 := by
    refine lt_of_le_of_lt (Finset.card_le_card fun a ha => ?_) hnodup
    exact List.mem_toFinset.mpr ((hch a).mp (List.mem_toFinset.mp ha)).1
  generalize ownSummary o.op.address s n = own at hrec hseen ⊢
  generalize seenTips o.op.address s n own = tips at hseen ⊢
  -- the owner's own account
  have hgain := sum_part_bounds checked (fun n hn => amountIf_bounds hn f.gain) hcard
  have hloss := sum_part_bounds checked (fun n hn => amountIf_bounds hn f.loss) hcard
  have hmoved := sum_part_bounds checked (fun n hn => amountIf_bounds hn f.moved) hcard
  rw [← B.sum_gained hrec] at hgain
  rw [← B.sum_lost hrec] at hloss
  rw [← B.sum_out hrec] at hmoved
  have hinitial : 0 ≤ balanceOf m n.act.signer ∧ balanceOf m n.act.signer < 2 ^ 63 := by
    unfold balanceOf
    cases hx : m[n.act.signer]? with
    | none => exact ⟨le_refl 0, show (0 : ℤ) < 2 ^ 63 by decide⟩
    | some v => exact hm _ v hx
  have hnat : Natural (B.sent own) := by
    intro x v hv
    have hbal : balanceOf (B.sent own) x = v := by
      unfold balanceOf
      rw [hv]
      rfl
    rw [← hbal, B.sum_sent hrec x]
    exact (sum_part_bounds checked (fun n hn => sentIf_bounds hn f.moved x) hcard).1
  have hown := ownBalance_total hinitial hgain hloss hnat hmoved.2
  -- the income
  have hothers : ∀ {p}, p ∈ others tips n.act.signer →
      p ≠ n.act.signer ∧ IsTip ops.nodes p (tipOf tips p) := by
    intro p hp
    obtain ⟨hne, hget⟩ := mem_others hp
    exact ⟨hne, (hseen hne _).mp hget⟩
  have hincome : ∑ p ∈ others tips n.act.signer,
        balanceOf (B.sent (summaryOf s (tipOf tips p))) n.act.signer
      = ∑ p ∈ others tips n.act.signer, ∑ a ∈ order.toFinset with ownerOf ops.nodes a = p,
        part ops.nodes (f.delta · n.act.signer) a :=
    Finset.sum_congr rfl fun p hp =>
      sent_tip checked justified hop B (hothers hp).1 (hothers hp).2
  have hbalance : (ledger ops.nodes f).balance (balanceOf m) order.toFinset n.act.signer
      = balanceOf m n.act.signer + B.gained own - B.lost own - sumOf (B.sent own)
        + ∑ p ∈ others tips n.act.signer,
          balanceOf (B.sent (summaryOf s (tipOf tips p))) n.act.signer := by
    have hset : ({a ∈ order.toFinset | ownerOf ops.nodes a = n.act.signer} : Finset String)
        = ch.toFinset := by
      ext a
      rw [Finset.mem_filter, List.mem_toFinset, List.mem_toFinset, hch]
    have hsum := sum_own checked f B.moves (x := n.act.signer) (C := ch.toFinset) fun a ha => by
      obtain ⟨hin, howner⟩ := (hch a).mp (List.mem_toFinset.mp ha)
      obtain ⟨k, hk⟩ := (justified.mem_order a).mp hin
      exact ⟨k, hk, by rw [← ownerOf_some hk]; exact howner⟩
    have hvisible := @Ledger.balance_eq_visible _ _ _ (ledger ops.nodes f) (balanceOf m)
      order.toFinset n.act.signer (others tips n.act.signer) (fun hin => (hothers hin).1 rfl)
      (fun a ha hne => ?_)
    · rw [hvisible]
      show balanceOf m n.act.signer + (∑ a ∈ order.toFinset with
        ownerOf ops.nodes a = n.act.signer, part ops.nodes (f.delta · n.act.signer) a) + _ = _
      rw [hset, hsum, hincome, B.sum_gained hrec, B.sum_lost hrec, B.sum_out hrec]
      show _ + _ = _ + ∑ p ∈ others tips n.act.signer, ∑ a ∈ order.toFinset with
        ownerOf ops.nodes a = p, part ops.nodes (f.delta · n.act.signer) a
      ring_nf
      rfl
    · -- an account with an operation has a newest one, which was seen
      obtain ⟨ch', hch', horder, hmem, -⟩ := exists_chain checked justified
        (ownerOf ops.nodes a)
      have hin : a ∈ ch' := (horder a).mpr ⟨List.mem_toFinset.mp ha, rfl⟩
      cases ch' with
      | nil => exact nomatch hin
      | cons t rest =>
          have hget := (hseen hne t).mpr ((isTip_iff hch' hop hmem).mpr ⟨rest, rfl⟩)
          exact Finset.mem_filter.mpr
            ⟨List.mem_toFinset.mpr ((mem_keys_iff _ _).mpr ⟨t, hget⟩), hne⟩
  have hlt := balance_lt checked f B.moves hm hnodup n.act.signer
  have hnonneg : ∀ p t : String, p ≠ n.act.signer → tips[p]? = some t →
      0 ≤ balanceOf (B.sent (summaryOf s t)) n.act.signer := by
    intro p t hne hget
    obtain ⟨ch', hch', horder, hmem, hrec'⟩ := exists_chain checked justified p
    obtain ⟨rest, heq⟩ := (isTip_iff hch' hop hmem).mp ((hseen hne t).mp hget)
    have hcard' : ch'.toFinset.card < 2 ^ 63 := by
      refine lt_of_le_of_lt (Finset.card_le_card fun a ha => ?_) hnodup
      exact List.mem_toFinset.mpr ((horder a).mp (List.mem_toFinset.mp ha)).1
    rw [B.sum_sent (hrec' t rest heq)]
    exact (sum_part_bounds checked (fun n hn => sentIf_bounds hn f.moved _) hcard').1
  obtain ⟨v, hv⟩ := addIncoming_total hnonneg
    (b := balanceOf m n.act.signer + B.gained own - B.lost own - sumOf (B.sent own))
    (by omega) (by omega)
  refine ⟨_, hown, ?_⟩
  rw [hv, addIncoming_ok hv, hbalance]

/-- **The budgets of a current operation are its owner's balances.** -/
theorem localBudgets_current (hlen : order.length < 2 ^ 63) (hfits : Fits o)
    (h : Current o.op.address ops.nodes n) :
    localBudgets n.act.signer o.initial o.headroom (ownSummary o.op.address s n)
        (seenTips o.op.address s n (ownSummary o.op.address s n)) s
      = .ok ((ledger ops.nodes rightsFlow).balance (balanceOf o.initial) order.toFinset
          n.act.signer,
        o.headroom.map fun m => (ledger ops.nodes headroomFlow).balance (balanceOf m)
          order.toFinset n.act.signer) := by
  obtain ⟨b, hb, hr⟩ := budget_current checked justified hop rightsBook hlen hfits.1 h
  have hb' : ownBalance ((o.initial[n.act.signer]?).getD 0)
      (ownSummary o.op.address s n).credited (ownSummary o.op.address s n).debited
      (ownSummary o.op.address s n).sent_rights = .ok b := hb
  unfold localBudgets
  rw [hb']
  cases hh : o.headroom with
  | none =>
      show (addIncoming n.act.signer s (·.sent_rights) _ b >>= fun rights => _) = _
      rw [show addIncoming n.act.signer s (·.sent_rights) _ b = _ from hr]
      rfl
  | some m =>
      obtain ⟨b', hown, hs⟩ := budget_current checked justified hop headroomBook hlen
        (hfits.2 m hh).2 h
      rw [Option.mapM_some, show ownBalance ((m[n.act.signer]?).getD 0)
        (ownSummary o.op.address s n).debited (ownSummary o.op.address s n).credited
        (ownSummary o.op.address s n).sent_headroom = _ from hown]
      show (addIncoming n.act.signer s (·.sent_rights) _ b >>= fun rights => _) = _
      rw [show addIncoming n.act.signer s (·.sent_rights) _ b = _ from hr]
      show ((some b').mapM (addIncoming n.act.signer s (·.sent_headroom) _) >>= fun space => _) = _
      rw [Option.mapM_some, show addIncoming n.act.signer s (·.sent_headroom) _ b' = _ from hs]
      rfl

/-- **An operation its owner's balance covers is judged well.** -/
theorem judge_current (hlen : order.length < 2 ^ 63) (hfits : Fits o) (hsound : Sound o n)
    (h : Current o.op.address ops.nodes n)
    (hrights : n.kind.spendsHeadroom = false →
      n.amount ≤ (ledger ops.nodes rightsFlow).balance (balanceOf o.initial) order.toFinset
        n.act.signer)
    (hspace : n.kind.spendsHeadroom = true → ∀ m, o.headroom = some m →
      n.amount ≤ (ledger ops.nodes headroomFlow).balance (balanceOf m) order.toFinset
        n.act.signer) : ∃ r, judge o s n = .ok r := by
  obtain ⟨ch, hch, hrec, hseq⟩ := ownSummary_current checked justified hop h
  have hcard : ch.toFinset.card < 2 ^ 63 := by
    refine lt_of_le_of_lt (Finset.card_le_card (t := order.toFinset) fun a ha => ?_)
      (lt_of_le_of_lt (List.toFinset_card_le order) hlen)
    exact List.mem_toFinset.mpr ((hch a).mp (List.mem_toFinset.mp ha)).1
  obtain ⟨next, hnext⟩ := record_total checked hcard hrec (lt_of_le_of_lt hseq hlen) hsound
  unfold judge
  dsimp only
  rw [localBudgets_current checked justified hop hlen hfits h, hnext]
  dsimp only
  rw [if_neg]
  · exact ⟨_, rfl⟩
  · rw [Option.any_eq_true]
    rintro ⟨budget, hbudget, hlow⟩
    have hlow := of_decide_eq_true hlow
    cases hk : n.kind.spendsHeadroom with
    | false =>
        rw [hk] at hbudget
        injection hbudget with hbudget
        have hcover := hrights hk
        omega
    | true =>
        rw [hk] at hbudget
        obtain ⟨m, hm, rfl⟩ := Option.map_eq_some_iff.mp hbudget
        have hcover := hspace hk m hm
        omega

end Extension

-- ── One more operation ────

/-- Operations and one more. -/
def Extends (nodes nodes' : BTreeMap String Node) (n : Node) : Prop :=
  ∀ k : String, nodes'[k]? = if k = n.act.address then some n else nodes[k]?

theorem Extends.old {nodes nodes' : BTreeMap String Node} {n : Node} (h : Extends nodes nodes' n)
    (hfresh : nodes[n.act.address]? = none) {k : String} {m : Node} (hm : nodes[k]? = some m) :
    nodes'[k]? = some m := by
  rw [h k, if_neg]
  · exact hm
  · rintro rfl
    rw [hfresh] at hm
    exact nomatch hm

theorem Extends.new {nodes nodes' : BTreeMap String Node} {n : Node} (h : Extends nodes nodes' n) :
    nodes'[n.act.address]? = some n := by
  rw [h, if_pos rfl]

/-- **A justified order is extended by an operation that is judged well.** -/
theorem justified_extends {o : Opening} {nodes nodes' : BTreeMap String Node} {n : Node}
    {order : List String} {s : Summaries} {r : Summary} (h : Justified o nodes order s)
    (hnodes : Extends nodes nodes' n) (hfresh : nodes[n.act.address]? = none)
    (hdeps : ∀ d ∈ n.dependencies o.op.address, d ∈ order) (hj : judge o s n = .ok r) :
    Justified o nodes' (order ++ [n.act.address]) (s.insert n.act.address r) := by
  have hnew : n.act.address ∉ order := by
    rw [h.mem_order, hfresh]
    exact fun hn => nomatch hn.choose_spec
  have hkeyed : Keyed nodes' := by
    intro a m hm
    rw [hnodes] at hm
    by_cases ha : a = n.act.address
    · rw [if_pos ha] at hm
      rw [← Option.some.inj hm, ha]
    · rw [if_neg ha] at hm
      exact h.keyed a m hm
  have hold : ∀ b ∈ order, nodes'[b]? = nodes[b]? := by
    intro b hb
    rw [hnodes, if_neg]
    rintro rfl
    exact hnew hb
  have hsame : ∀ b ∈ order, dependenciesOf o.op.address nodes' b
      = dependenciesOf o.op.address nodes b := by
    intro b hb
    unfold dependenciesOf
    rw [hold b hb]
  have hself : ∀ d ∈ dependenciesOf o.op.address nodes' n.act.address, d ∈ order := by
    rw [dependenciesOf_some hnodes.new]
    exact hdeps
  have hordered : Ordered (dependenciesOf o.op.address nodes') order := h.ordered.congr hsame
  have hsupported : Supported o nodes' order s := by
    refine ⟨fun b hb m hm => ?_, fun b hb => ?_⟩
    · rw [hold b hb] at hm
      exact h.judged b m hm
    · obtain ⟨m, hm⟩ := (h.mem_order b).mp hb
      exact h.tips h.ordered.closed hm hb
  have hvisit := hsupported.visit hkeyed hnodes.new hnew hordered.closed hself hj
  have hmem : ∀ a, a ∈ order ++ [n.act.address] ↔ ∃ m, nodes'[a]? = some m := by
    intro a
    rw [List.mem_append, List.mem_singleton, hnodes]
    by_cases ha : a = n.act.address
    · rw [if_pos ha]
      exact iff_of_true (Or.inr ha) ⟨n, rfl⟩
    · rw [if_neg ha, h.mem_order]
      exact or_iff_left ha
  refine ⟨hkeyed, ?_, hmem, hordered.snoc hself, fun a m hm => ?_⟩
  · rw [List.nodup_append]
    refine ⟨h.nodup, List.nodup_singleton _, fun a ha b hb => ?_⟩
    rw [List.mem_singleton.mp hb]
    rintro rfl
    exact hnew ha
  · exact hvisit.judged a ((hmem a).mpr ⟨m, hm⟩) m hm

end CbclEscrowTips
