import Cbcl.EscrowTipsProofs

/-!
# An observation with one more operation

Facts with one more operation are observed stage by stage: the opener is the same, an operation
whose links are the tips of the old ones forks nothing, finds its links in place, and is judged
against the whole balance of its owner (`settle_grown`).  The snapshot after it shifts the one
before by that operation alone.
-/

namespace CbclEscrowGrowth

open CbclMessage CbclAct CbclEscrow CbclEscrowTraversal CbclEscrowStage CbclEscrowSolvency
open CbclEscrowHistory CbclEscrowTips CbclTreeMap CbclLedger

-- ── The displayed tips ────

/-- What has a successor is what some operation of the account follows. -/
theorem mem_children_iff {c : CounterRule} {o : Opening} {all : Facts} (keyed : KeyedFacts all)
    {ops : Operations} (h : collect c o all = .ok ops) (p t : String) :
    (p, t) ∈ ops.children ↔
      ∃ (b : String) (m : Node), ops.nodes[b]? = some m ∧ m.act.signer = p ∧ m.prev = t := by
  have hchildren : ∀ (p t b : String), ops.children[(p, t)]? = some b →
      ∃ f ∈ opFacts c all, ∃ m, checkNode c o f = .ok m ∧ f.signer = p ∧ m.prev = t := by
    refine CbclExcept.foldlM_inv (I := fun done (ops : Operations) =>
      ∀ (p t b : String), ops.children[(p, t)]? = some b →
        ∃ f ∈ done, ∃ m, checkNode c o f = .ok m ∧ f.signer = p ∧ m.prev = t) ?_ ?_ h
    · intro done f ops ops' _ hI hstep p t b hb
      unfold addNode at hstep
      obtain ⟨m, hm, hstep⟩ := CbclExcept.bind_ok_iff.mp hstep
      split at hstep
      · exact nomatch hstep
      · injection hstep with hstep
        subst hstep
        rw [getElem?_insert_eq] at hb
        split at hb
        · rename_i heq
          injection heq with hp ht
          exact ⟨f, by simp, m, hm, hp.symm, ht.symm⟩
        · obtain ⟨g, hg, hrest⟩ := hI p t b hb
          exact ⟨g, List.mem_append_left _ hg, hrest⟩
    · intro p t b hb
      rw [Std.ExtTreeMap.getElem?_empty] at hb
      exact nomatch hb
  rw [Std.ExtTreeMap.mem_iff_isSome_getElem?, Option.isSome_iff_exists]
  constructor
  · rintro ⟨b, hb⟩
    obtain ⟨f, hf, m, hm, hp, ht⟩ := hchildren p t b hb
    obtain ⟨hget, hverb⟩ := (mem_opFacts keyed).mp hf
    refine ⟨f.address, m, (collect_nodes keyed h _ m).mpr ⟨f, hget, hverb, hm⟩, ?_, ht⟩
    rw [(checkNode_ok hm).1, hp]
  · rintro ⟨b, m, hm, rfl, rfl⟩
    exact ⟨b, (collect_ok h).child b m hm⟩

/-- **The displayed tips are the newest operations.** -/
theorem latest_iff {c : CounterRule} {o : Opening} {all : Facts} (keyed : KeyedFacts all)
    {ops : Operations} (h : collect c o all = .ok ops)
    (hunique : ∀ p t t', IsTip ops.nodes p t → IsTip ops.nodes p t' → t = t') (p t : String) :
    (latest ops)[p]? = some t ↔ IsTip ops.nodes p t := by
  have filed := collect_ok h
  have htip : ∀ n ∈ valuesOf ops.nodes, (n.act.signer, n.act.address) ∉ ops.children →
      IsTip ops.nodes n.act.signer n.act.address := by
    intro n hn hno
    obtain ⟨a, ha⟩ := (mem_valuesOf_iff _ _).mp hn
    rw [filed.keyed a n ha] at hno ⊢
    exact ⟨⟨n, ha, rfl⟩, fun b m hm howner hprev =>
      hno ((mem_children_iff keyed h _ _).mpr ⟨b, m, hm, howner, hprev⟩)⟩
  let step : BTreeMap String String → Node → BTreeMap String String := fun tips n =>
    if (n.act.signer, n.act.address) ∈ ops.children then tips
    else tips.insert n.act.signer n.act.address
  have hfold : ∀ (ns : List Node) (tips : BTreeMap String String),
      (∀ n ∈ ns, n ∈ valuesOf ops.nodes) → Entries (IsTip ops.nodes) tips →
        Entries (IsTip ops.nodes) (ns.foldl step tips) := by
    intro ns
    induction ns with
    | nil => exact fun tips _ h => h
    | cons n rest ih =>
        intro tips hns htips
        refine ih _ (fun m hm => hns m (List.mem_cons_of_mem _ hm)) ?_
        show Entries (IsTip ops.nodes) (if _ then _ else _)
        split
        · exact htips
        · rename_i hno
          exact htips.insert (htip n (hns n List.mem_cons_self) hno)
  have hreach : ∀ (ns : List Node) (tips : BTreeMap String String),
      ((∃ t, tips[p]? = some t) ∨
        ∃ n ∈ ns, n.act.signer = p ∧ (n.act.signer, n.act.address) ∉ ops.children) →
          ∃ t, (ns.foldl step tips)[p]? = some t := by
    intro ns
    induction ns with
    | nil => exact fun tips h => h.resolve_right fun ⟨n, hn, _⟩ => nomatch hn
    | cons n rest ih =>
        intro tips h
        refine ih _ ?_
        show (∃ t, (step tips n)[p]? = some t) ∨ _
        by_cases hin : (n.act.signer, n.act.address) ∈ ops.children
        · rw [show step tips n = tips from if_pos hin]
          refine h.imp_right fun ⟨m, hm, hp, hno⟩ => ?_
          rcases List.mem_cons.mp hm with rfl | hrest
          · exact absurd hin hno
          · exact ⟨m, hrest, hp, hno⟩
        · rw [show step tips n = tips.insert n.act.signer n.act.address from if_neg hin,
            getElem?_insert_eq]
          by_cases hp : p = n.act.signer
          · exact Or.inl ⟨_, if_pos hp⟩
          · rw [if_neg hp]
            refine h.imp_right fun ⟨m, hm, hp', hno⟩ => ?_
            rcases List.mem_cons.mp hm with rfl | hrest
            · exact absurd hp'.symm hp
            · exact ⟨m, hrest, hp', hno⟩
  have hsound := hfold (valuesOf ops.nodes) ∅ (fun n hn => hn) (Entries.empty _)
  refine ⟨hsound p t, fun ht => ?_⟩
  obtain ⟨⟨n, hn, rfl⟩, hlast⟩ := ht
  have hkey := filed.keyed t n hn
  have hno : (n.act.signer, n.act.address) ∉ ops.children := by
    rw [hkey, mem_children_iff keyed h]
    rintro ⟨b, m, hm, howner, hprev⟩
    exact hlast b m hm howner hprev
  obtain ⟨t', ht'⟩ := hreach (valuesOf ops.nodes) ∅
    (Or.inr ⟨n, (mem_valuesOf_iff _ _).mpr ⟨t, hn⟩, rfl, hno⟩)
  show ((valuesOf ops.nodes).foldl step ∅)[n.act.signer]? = some t
  rw [ht', hunique _ _ _ (hsound _ t' ht') ⟨⟨n, hn, rfl⟩, hlast⟩]

-- ── Stages over one more fact ────

/-- A view and one more fact. -/
structure Grown (v w : View) (f : ResourceFact) : Prop where
  fresh : v.present f.address = false
  present : ∀ k, w.present k = true ↔ v.present k = true ∨ k = f.address
  facts : ∀ k : String, w.all[k]? = if k = f.address then some f else v.all[k]?

section Grown

variable {v w : View} {f : ResourceFact} (h : Grown v w f)
include h

theorem Grown.part : Part v w := by
  refine ⟨fun k hk => (h.present k).mpr (Or.inl hk), fun k hk => ?_⟩
  rw [h.facts, if_neg]
  rintro rfl
  rw [h.fresh] at hk
  exact nomatch hk

/-- A fact of the grown view is the new one or an old one. -/
theorem Grown.cases {k : String} {g : ResourceFact} (hg : w.all[k]? = some g) :
    g = f ∨ v.all[k]? = some g := by
  rw [h.facts] at hg
  split at hg
  · exact Or.inl (Option.some.inj hg).symm
  · exact Or.inr hg

/-- No operation of the old view has the address of the new fact. -/
theorem Grown.nodes_fresh {c : CounterRule} {o : Opening} {ops : Operations}
    (hops : collect c o v.all = .ok ops) : ops.nodes[f.address]? = none := by
  cases hn : ops.nodes[f.address]? with
  | none => rfl
  | some n =>
      obtain ⟨g, hg, -⟩ := (collect_nodes v.keyed hops _ n).mp hn
      have hpresent := v.present_of_fact hg
      rw [h.fresh] at hpresent
      exact nomatch hpresent

/-- The counter opens the same way. -/
theorem openCounter_grown {c : CounterRule} {o : Opening}
    (hverb : f.verb ≠ c.initial_verb) (ho : openCounter c v.all v.present = .ok o) :
    openCounter c w.all w.present = .ok o := by
  obtain ⟨op, hop, ho⟩ := CbclExcept.bind_ok_iff.mp ho
  obtain ⟨root, hroot, hopen⟩ := CbclExcept.bind_ok_iff.mp ho
  have hfound : findOpener c w.all = .ok op := by
    have honly := findOpener_only hop
    have hall : ∀ g ∈ (valuesOf w.all).filter (·.verb = c.initial_verb), g = op := by
      intro g hg
      obtain ⟨hmem, hgverb⟩ := List.mem_filter.mp hg
      obtain ⟨k, hk⟩ := (mem_valuesOf_iff _ _).mp hmem
      rcases h.cases hk with rfl | hold
      · exact absurd (of_decide_eq_true hgverb) hverb
      · have hin : g ∈ (valuesOf v.all).filter (·.verb = c.initial_verb) :=
          List.mem_filter.mpr ⟨(mem_valuesOf_iff _ _).mpr ⟨k, hold⟩, hgverb⟩
        rw [honly] at hin
        exact List.mem_singleton.mp hin
    have hin : op ∈ (valuesOf w.all).filter (·.verb = c.initial_verb) := by
      have hold : op ∈ (valuesOf v.all).filter (·.verb = c.initial_verb) := by
        rw [honly]
        exact List.mem_singleton_self op
      obtain ⟨hmem, hopverb⟩ := List.mem_filter.mp hold
      obtain ⟨k, hk⟩ := (mem_valuesOf_iff _ _).mp hmem
      exact List.mem_filter.mpr ⟨(mem_valuesOf_iff _ _).mpr ⟨k, h.part.fact hk⟩, hopverb⟩
    have hnodup : ((valuesOf w.all).filter (·.verb = c.initial_verb)).Nodup :=
      (List.Nodup.of_map _ (nodup_addresses w.keyed)).filter _
    have hlist : (valuesOf w.all).filter (·.verb = c.initial_verb) = [op] :=
      List.perm_singleton.mp ((List.perm_ext_iff_of_nodup hnodup (List.nodup_singleton op)).mpr
        fun g => ⟨fun hg => List.mem_singleton.mpr (hall g hg), fun hg => by
          rw [List.mem_singleton.mp hg]
          exact hin⟩)
    unfold findOpener
    rw [hlist]
  have hrooted : findRoot w.all w.present op = .ok root := by
    unfold findRoot at hroot ⊢
    split at hroot
    · rename_i p hp
      cases hv : v.all[p]? with
      | none =>
          rw [hv] at hroot
          dsimp only at hroot
          split at hroot
          · exact nomatch hroot
          · exact nomatch hroot
      | some root' =>
          rw [hv] at hroot
          rw [h.part.fact hv]
          exact hroot
    · exact nomatch hroot
  unfold openCounter
  rw [hfound]
  show (findRoot w.all w.present op >>= _) = _
  rw [hrooted]
  exact hopen

/-- The operations are the old ones and the new one, if that forks nothing. -/
theorem collect_grown {c : CounterRule} {o : Opening} {ops : Operations}
    (hops : collect c o v.all = .ok ops) (hverb : f.verb ∈ c.operationVerbs) {n : Node}
    (hn : checkNode c o f = .ok n)
    (hfork : ∀ (b : String) (m : Node), ops.nodes[b]? = some m → m.act.signer = n.act.signer →
      m.prev ≠ n.prev) :
    ∃ ops', collect c o w.all = .ok ops' ∧ Extends ops.nodes ops'.nodes n := by
  have filed := collect_ok hops
  have hact : n.act = f := (checkNode_ok hn).1
  have hold : ∀ g ∈ opFacts c w.all, g = f ∨ g ∈ opFacts c v.all := by
    intro g hg
    obtain ⟨hget, hgverb⟩ := (mem_opFacts w.keyed).mp hg
    exact (h.cases hget).imp_right fun hv => (mem_opFacts v.keyed).mpr ⟨hv, hgverb⟩
  have hnode : ∀ g ∈ opFacts c v.all, ∀ m, checkNode c o g = .ok m →
      ops.nodes[g.address]? = some m := by
    intro g hg m hm
    obtain ⟨hget, hgverb⟩ := (mem_opFacts v.keyed).mp hg
    exact (collect_nodes v.keyed hops g.address m).mpr ⟨g, hget, hgverb, hm⟩
  have hnofork : ∀ g ∈ opFacts c v.all, ∀ m, checkNode c o g = .ok m → g.signer = f.signer →
      m.prev ≠ n.prev := by
    intro g hg m hm hsigner
    refine hfork g.address m (hnode g hg m hm) ?_
    rw [(checkNode_ok hm).1, hact, hsigner]
  have htotal : ∃ ops', collect c o w.all = .ok ops' := by
    refine collect_total w.keyed (fun g hg => ?_) fun g hg g' hg' m m' hm hm' hsigner hprev => ?_
    · rcases hold g hg with rfl | hg
      · exact ⟨n, hn⟩
      · exact collect_checked hops g hg
    · rcases hold g hg with rfl | hg
      · rw [hn] at hm
        injection hm with hm
        subst hm
        rcases hold g' hg' with rfl | hg'
        · rfl
        · exact absurd hprev.symm (hnofork g' hg' m' hm' hsigner.symm)
      · rcases hold g' hg' with rfl | hg'
        · rw [hn] at hm'
          injection hm' with hm'
          subst hm'
          exact absurd hprev (hnofork g hg m hm hsigner)
        · refine filed.unique (hnode g hg m hm) (hnode g' hg' m' hm') ?_ hprev
          rw [(checkNode_ok hm).1, (checkNode_ok hm').1]
          exact hsigner
  obtain ⟨ops', hops'⟩ := htotal
  refine ⟨ops', hops', fun k => ?_⟩
  rw [hact]
  ext m
  rw [collect_nodes w.keyed hops']
  by_cases hk : k = f.address
  · rw [if_pos hk, Option.some.injEq]
    constructor
    · rintro ⟨g, hg, -, hm⟩
      rw [h.facts, if_pos hk] at hg
      rw [← Option.some.inj hg, hn] at hm
      exact Except.ok.inj hm
    · rintro rfl
      exact ⟨f, by rw [h.facts, if_pos hk], hverb, hn⟩
  · rw [if_neg hk, collect_nodes v.keyed hops]
    simp only [h.facts, if_neg hk]

end Grown

/-- Links of one more operation are in place if it is current. -/
theorem linked_extends {opener : String} {nodes nodes' : BTreeMap String Node} {n : Node}
    (hnodes : Extends nodes nodes' n) (hfresh : nodes[n.act.address]? = none)
    (hop : nodes[opener]? = none)
    (hlinked : ∀ (a : String) (m : Node), nodes[a]? = some m → Linked opener nodes m)
    (h : Current opener nodes n) :
    ∀ (a : String) (m : Node), nodes'[a]? = some m → Linked opener nodes' m := by
  intro a m hm dep hdep
  rw [hnodes] at hm
  split at hm
  · injection hm with hm
    subst hm
    rcases List.mem_cons.mp hdep with rfl | hdep
    · rcases h.prev with ⟨⟨parent, hparent, howner⟩, -⟩ | ⟨hop, -⟩
      · exact Or.inr ⟨parent, hnodes.old hfresh hparent, fun _ => howner⟩
      · exact Or.inl hop
    · obtain ⟨p, hne, ⟨parent, hparent, howner⟩, -⟩ := (h.deps dep).mp hdep
      refine Or.inr ⟨parent, hnodes.old hfresh hparent, fun hprev => ?_⟩
      -- a dependency that is the previous link is an own operation
      rcases h.prev with ⟨⟨parent', hparent', howner'⟩, -⟩ | ⟨hopener, -⟩
      · rw [← hprev, hparent] at hparent'
        rw [Option.some.inj hparent']
        exact howner'
      · rw [hprev, hopener, hop] at hparent
        exact nomatch hparent
  · rcases hlinked a m hm dep hdep with hop | ⟨parent, hparent, howner⟩
    · exact Or.inl hop
    · exact Or.inr ⟨parent, hnodes.old hfresh hparent, howner⟩

-- ── The snapshot after one more operation ────

/-- **What the final checks return.** -/
theorem conclude_ok {c : CounterRule} {o : Opening} {ops : Operations} {s : Snapshot}
    (h : conclude c o ops = .ok s) : balances o ops.nodes = .ok (s.rights, s.headroom) ∧
      s.value = sumOf s.rights + c.floor.toInt ∧ s.tips = latest ops ∧
      s.opener = o.op.address := by
  unfold conclude at h
  obtain ⟨⟨rights, headroom⟩, hb, h⟩ := CbclExcept.bind_ok_iff.mp h
  dsimp only at h
  split at h
  · exact nomatch h
  · split at h
    · exact nomatch h
    · rename_i value hvalue
      split at h
      · exact nomatch h
      · injection h with h
        subst h
        obtain ⟨t, ht, hsum⟩ := Option.bind_eq_some_iff.mp hvalue
        refine ⟨hb, ?_, rfl, rfl⟩
        show value = _
        rw [(checked_eq_some.mp hsum).2, total_eq ht]

theorem shifted_cancel {m a b : BTreeMap String Int} {δ δ' : String → ℤ} (ha : Shifted m a δ)
    (hb : Shifted m b (δ + δ')) : Shifted a b δ' := by
  intro x
  rw [hb x, ha x, Option.map_map]
  congr 1
  funext v
  rw [Function.comp_apply, Pi.add_apply, add_assoc]

theorem shifted_unique {m a b : BTreeMap String Int} {δ : String → ℤ} (ha : Shifted m a δ)
    (hb : Shifted m b δ) : a = b := by
  refine Std.ExtTreeMap.ext_getElem? fun x => ?_
  rw [ha x, hb x]

theorem keys_extends {nodes nodes' : BTreeMap String Node} {n : Node}
    (hnodes : Extends nodes nodes' n) :
    nodes'.keys.toFinset = insert n.act.address nodes.keys.toFinset := by
  ext k
  rw [List.mem_toFinset, mem_keys_iff, Finset.mem_insert, List.mem_toFinset, mem_keys_iff, hnodes]
  by_cases hk : k = n.act.address
  · rw [if_pos hk]
    exact iff_of_true ⟨n, rfl⟩ (Or.inl hk)
  · rw [if_neg hk]
    exact (or_iff_right hk).symm

theorem size_extends {nodes nodes' : BTreeMap String Node} {n : Node}
    (hnodes : Extends nodes nodes' n) : nodes'.size ≤ nodes.size + 1 := by
  have hcard : ∀ m : BTreeMap String Node, m.size = m.keys.toFinset.card := by
    intro m
    rw [List.toFinset_card_of_nodup (nodup_keys m), Std.ExtTreeMap.length_keys]
  rw [hcard, hcard, keys_extends hnodes]
  exact Finset.card_insert_le _ _

/-- A sum over all operations takes in one more. -/
theorem sum_extends {nodes nodes' : BTreeMap String Node} {n : Node}
    (hnodes : Extends nodes nodes' n) (hfresh : nodes[n.act.address]? = none) (g : Node → ℤ) :
    ((valuesOf nodes').map g).sum = ((valuesOf nodes).map g).sum + g n := by
  have hnotin : n.act.address ∉ nodes.keys.toFinset := by
    rw [List.mem_toFinset, mem_keys_iff, hfresh]
    exact fun h => nomatch h.choose_spec
  rw [sum_valuesOf, sum_valuesOf, keys_extends hnodes, Finset.sum_insert hnotin, hnodes.new,
    add_comm]
  congr 1
  refine Finset.sum_congr rfl fun k hk => ?_
  rw [hnodes, if_neg]
  rintro rfl
  exact hnotin hk

/-- The tips after an operation that nothing links to. -/
theorem isTip_extends {nodes nodes' : BTreeMap String Node} {n : Node}
    (hnodes : Extends nodes nodes' n) (hfresh : nodes[n.act.address]? = none)
    (hunlinked : ∀ (b : String) (m : Node), nodes'[b]? = some m → m.prev ≠ n.act.address) :
    IsTip nodes' n.act.signer n.act.address ∧
      ∀ p t, p ≠ n.act.signer → (IsTip nodes' p t ↔ IsTip nodes p t) := by
  refine ⟨⟨⟨n, hnodes.new, rfl⟩, fun b m hm _ => hunlinked b m hm⟩, fun p t hp => ?_⟩
  have hsame : ∀ (b : String) (m : Node), m.act.signer = p →
      (nodes'[b]? = some m ↔ nodes[b]? = some m) := by
    intro b m howner
    refine ⟨fun hm => ?_, hnodes.old hfresh⟩
    rw [hnodes] at hm
    split at hm
    · rw [← Option.some.inj hm] at howner
      exact absurd howner.symm hp
    · exact hm
  unfold IsTip
  constructor
  · rintro ⟨⟨m, hm, howner⟩, hlast⟩
    exact ⟨⟨m, (hsame t m howner).mp hm, howner⟩,
      fun b k hk hko => hlast b k ((hsame b k hko).mpr hk) hko⟩
  · rintro ⟨⟨m, hm, howner⟩, hlast⟩
    exact ⟨⟨m, (hsame t m howner).mpr hm, howner⟩,
      fun b k hk hko => hlast b k ((hsame b k hko).mp hk) hko⟩

/-- What one snapshot is after another: the same with one operation applied. -/
structure After (s s' : Snapshot) (n : Node) : Prop where
  value : s'.value = s.value + amountIf .increment n - amountIf .decrement n
  rights : Shifted s.rights s'.rights (rightsDelta n)
  headroom : ShiftedOpt s.headroom s'.headroom (headroomDelta n)
  tips : s'.tips = s.tips.insert n.act.signer n.act.address
  opener : s'.opener = s.opener

/-- **One more operation changes the snapshot by that operation.** -/
theorem conclude_extends {c : CounterRule} {v w : View} {o : Opening} {ops ops' : Operations}
    {n : Node} {s s' : Snapshot} (hpass : Passed c v.all v.present o ops)
    (hpass' : Passed c w.all w.present o ops') (hop : ops.nodes[o.op.address]? = none)
    (hnodes : Extends ops.nodes ops'.nodes n) (hfresh : ops.nodes[n.act.address]? = none)
    (hne : n.act.address ≠ o.op.address) (hcur : Current o.op.address ops.nodes n)
    (hconc : conclude c o ops = .ok s) (hconc' : conclude c o ops' = .ok s') : After s s' n := by
  obtain ⟨hb, hvalue, htips, hopener⟩ := conclude_ok hconc
  obtain ⟨hb', hvalue', htips', hopener'⟩ := conclude_ok hconc'
  obtain ⟨hr, hh⟩ := balances_ok hb
  obtain ⟨hr', hh'⟩ := balances_ok hb'
  -- every balance is a sum over the operations, so one more operation shifts it by its own amount
  have hdelta : ∀ δ : Node → String → ℤ, sumDelta δ (valuesOf ops'.nodes)
      = sumDelta δ (valuesOf ops.nodes) + δ n := by
    intro δ
    funext x
    exact sum_extends hnodes hfresh (δ · x)
  rw [hdelta] at hr' hh'
  have hop' : ops'.nodes[o.op.address]? = none := by
    rw [hnodes, if_neg (Ne.symm hne)]
    exact hop
  refine ⟨?_, shifted_cancel hr hr', ?_, ?_, hopener'.trans hopener.symm⟩
  · have hfinal := (hpass.final hb).value
    have hfinal' := (hpass'.final hb').value
    have hinc : totalOf .increment ops'.nodes = _ := sum_extends hnodes hfresh (amountIf .increment)
    have hdec : totalOf .decrement ops'.nodes = _ := sum_extends hnodes hfresh (amountIf .decrement)
    unfold totalOf at hfinal hfinal' hinc hdec
    rw [hvalue, hvalue']
    omega
  · cases ho : o.headroom with
    | none =>
        rw [ho] at hh hh'
        cases hs : s.headroom with
        | some m => rw [hs] at hh; exact hh.elim
        | none =>
            cases hs' : s'.headroom with
            | some m => rw [hs'] at hh'; exact hh'.elim
            | none => trivial
    | some m =>
        rw [ho] at hh hh'
        cases hs : s.headroom with
        | none => rw [hs] at hh; exact hh.elim
        | some a =>
            cases hs' : s'.headroom with
            | none => rw [hs'] at hh'; exact hh'.elim
            | some b =>
                rw [hs] at hh
                rw [hs'] at hh'
                have hh : Shifted m a _ := hh
                have hh' : Shifted m b _ := hh'
                exact shifted_cancel hh hh'
  · -- no operation links to the new one
    have hunlinked : ∀ (b : String) (m : Node), ops'.nodes[b]? = some m →
        m.prev ≠ n.act.address := by
      intro b m hm hprev
      have hlink : m.prev = o.op.address ∨ ∃ parent, ops.nodes[m.prev]? = some parent := by
        rw [hnodes] at hm
        split at hm
        · rw [← Option.some.inj hm]
          rcases hcur.prev with ⟨⟨parent, hp, -⟩, -⟩ | ⟨hopener, -⟩
          · exact Or.inr ⟨parent, hp⟩
          · exact Or.inl hopener
        · exact (hpass.checked.linked b m hm m.prev List.mem_cons_self).imp_right
            fun ⟨parent, hp, _⟩ => ⟨parent, hp⟩
      rcases hlink with hopener | ⟨parent, hp⟩
      · exact hne (hprev.symm.trans hopener)
      · rw [hprev, hfresh] at hp
        exact nomatch hp
    obtain ⟨hnew, hothers⟩ := isTip_extends hnodes hfresh hunlinked
    obtain ⟨order, t, hj⟩ := hpass.justified
    obtain ⟨order', t', hj'⟩ := hpass'.justified
    have hlatest := latest_iff v.keyed hpass.collected fun p x y hx hy =>
      isTip_unique hpass.checked hj hop hx hy
    have hlatest' := latest_iff w.keyed hpass'.collected fun p x y hx hy =>
      isTip_unique hpass'.checked hj' hop' hx hy
    rw [htips, htips']
    refine Std.ExtTreeMap.ext_getElem? fun p => ?_
    rw [getElem?_insert_eq]
    by_cases hp : p = n.act.signer
    · rw [if_pos hp, hp]
      exact (hlatest' _ _).mpr hnew
    · rw [if_neg hp]
      ext x
      rw [hlatest', hlatest, hothers p x hp]

/-- A displayed balance is that of the ledger. -/
theorem displayed {f : Flow} {c : CounterRule} {o : Opening} {ops : Operations}
    (checked : Checked c o ops) {order : List String} {t : Summaries}
    (hj : Justified o ops.nodes order t) {δ : Node → String → ℤ}
    (hδ : ∀ n, Sound o n → δ n = f.delta n) {m m' : BTreeMap String Int}
    (h : Shifted m m' (sumDelta δ (valuesOf ops.nodes))) {x : String} (hx : x ∈ m) :
    balanceOf m' x = (ledger ops.nodes f).balance (balanceOf m) order.toFinset x := by
  have hkeys : order.toFinset = ops.nodes.keys.toFinset := by
    ext a
    rw [List.mem_toFinset, List.mem_toFinset, hj.mem_order, mem_keys_iff]
  rw [h.balanceOf hx, sumDelta_eq checked hδ, hkeys]

/-- **A current operation within the displayed budget passes every stage.** -/
theorem settle_grown {c : CounterRule} {v w : View} {f : ResourceFact} (h : Grown v w f)
    {o : Opening} {ops : Operations} (hpass : Passed c v.all v.present o ops) {s : Snapshot}
    (hconc : conclude c o ops = .ok s) (hinitial : o.initial.size < 2 ^ 63)
    (hsize : ops.nodes.size + 1 < 2 ^ 63) (hop : ops.nodes[o.op.address]? = none)
    (hverb : f.verb ∈ c.operationVerbs) (hopener : f.verb ≠ c.initial_verb)
    (hne : f.address ≠ o.op.address) {n : Node} (hn : checkNode c o f = .ok n)
    (hcur : Current o.op.address ops.nodes n)
    (hrights : n.kind.spendsHeadroom = false → n.amount ≤ balanceOf s.rights n.act.signer)
    (hspace : n.kind.spendsHeadroom = true → ∀ m, s.headroom = some m →
      n.amount ≤ balanceOf m n.act.signer)
    (hkind : n.kind = .headroom → s.headroom ≠ none) :
    ∃ s', settle c w.all w.present = .ok s' ∧ After s s' n := by
  obtain ⟨hact, hsound⟩ := checkNode_ok hn
  have checked := hpass.checked
  have hfits := opened_fits checked.opened
  have hfresh : ops.nodes[n.act.address]? = none := by
    rw [hact]
    exact h.nodes_fresh hpass.collected
  obtain ⟨hb, -⟩ := conclude_ok hconc
  obtain ⟨hr, hh⟩ := balances_ok hb
  obtain ⟨order, t, hj⟩ := hpass.justified
  have hlen : order.length < 2 ^ 63 := by
    have hperm : order.Perm ops.nodes.keys := by
      refine (List.perm_ext_iff_of_nodup hj.nodup (nodup_keys ops.nodes)).mpr fun a => ?_
      rw [hj.mem_order, mem_keys_iff]
    rw [hperm.length_eq, Std.ExtTreeMap.length_keys]
    omega
  -- the operation forks nothing
  have hfork : ∀ (b : String) (m : Node), ops.nodes[b]? = some m → m.act.signer = n.act.signer →
      m.prev ≠ n.prev := by
    intro b m hm howner hprev
    rcases hcur.prev with htip | ⟨hopen, hnone⟩
    · exact htip.2 b m hm howner hprev
    · obtain ⟨ch, hch, -, hmem, -⟩ := exists_chain checked hj n.act.signer
      have hin := (hmem b).mpr ⟨m, hm, howner⟩
      cases ch with
      | nil => exact nomatch hin
      | cons y rest => exact hnone y ((isTip_iff hch hop hmem).mpr ⟨rest, rfl⟩)
  obtain ⟨ops', hcollect, hnodes⟩ := collect_grown h hpass.collected hverb hn hfork
  have hopen := openCounter_grown h hopener hpass.opening
  have hlinked := linked_extends hnodes hfresh hop checked.linked hcur
  have hlinks : checkLinks w.all w.present o.op.address ops'.nodes = .ok () :=
    (checkLinks_total fun a m hm dep hdep => Or.inl (hlinked a m hm dep hdep)).2 hlinked
  -- what is displayed for the owner is its budget
  obtain ⟨r, hjudge⟩ := judge_current checked hj hop hlen hfits hsound hcur
    (fun hk => by
      rw [← displayed checked hj (fun _ hs => rightsDelta_eq hs) hr hsound.owner]
      exact hrights hk)
    fun hk m hm => by
      rw [hm] at hh
      cases hs : s.headroom with
      | none => rw [hs] at hh; exact hh.elim
      | some m' =>
          rw [hs] at hh
          have hin : n.act.signer ∈ m := ((hfits.2 m hm).1 _).mpr hsound.owner
          have hshown := displayed checked hj (fun _ hs => headroomDelta_eq hs) hh hin
          rw [← hshown]
          exact hspace hk m' hs
  have hj' := justified_extends hj hnodes hfresh (hcur.dependencies hj) hjudge
  obtain ⟨summaries, hsummarize, hcomplete⟩ := hj'.summarize
  have hpass' : Passed c w.all w.present o ops' :=
    ⟨hpass.profile, hopen, hcollect, hlinks, summaries, hsummarize, hcomplete⟩
  have hsize' : ops'.nodes.size < 2 ^ 63 := lt_of_le_of_lt (size_extends hnodes) hsize
  obtain ⟨s', hconc'⟩ := passed_conclude hpass' hfits hinitial hsize' fun a m hm hk => by
    rw [hnodes] at hm
    split at hm
    · have hsome := hkind (by rw [Option.some.inj hm]; exact hk)
      intro hnone
      rw [hnone] at hh
      cases hs : s.headroom with
      | none => exact hsome hs
      | some m' => rw [hs] at hh; exact hh.elim
    · exact space_of_balances hb a m hm hk
  refine ⟨s', by rw [hpass'.settle, hconc'], ?_⟩
  exact conclude_extends hpass hpass' hop hnodes hfresh (by rw [hact]; exact hne) hcur hconc hconc'

end CbclEscrowGrowth
