import Cbcl.EscrowSolvencyProofs

/-!
# Sub-histories of a good history are good

A history that is `Ready` has only `Ready` or `Pending` sub-histories.  The cascade of early
returns is followed stage by stage: the opener and its root are the same or missing, the
checks of an operation look at the opening and the operation only, a link that was in place
is in place or missing, and summaries are determined by ancestry, so a closed part of a
justified order is justified by the same summaries.  What remains is arithmetic: the checked
operations of the totals cannot overflow on histories a machine can hold.
-/

namespace CbclEscrowHistory

open CbclMessage CbclAct CbclEscrow CbclEscrowTraversal CbclEscrowStage CbclEscrowSolvency
open CbclTreeMap CbclKahn

-- ── Filed operations of keyed facts ────

/-- Facts are filed under their addresses. -/
def KeyedFacts (all : Facts) : Prop := ∀ (k : String) (f : ResourceFact), all[k]? = some f →
  f.address = k

/-- The operation facts of a map. -/
def opFacts (c : CounterRule) (all : Facts) : List ResourceFact :=
  (valuesOf all).filter fun a => a.verb ∈ c.operationVerbs

theorem mem_opFacts {c : CounterRule} {all : Facts} (keyed : KeyedFacts all) {f : ResourceFact} :
    f ∈ opFacts c all ↔ all[f.address]? = some f ∧ f.verb ∈ c.operationVerbs := by
  unfold opFacts
  rw [List.mem_filter, mem_valuesOf_iff, decide_eq_true_eq]
  refine and_congr_left fun _ => ⟨?_, fun h => ⟨f.address, h⟩⟩
  rintro ⟨k, hk⟩
  rw [keyed k f hk]
  exact hk

/-- Keyed facts have distinct addresses. -/
theorem nodup_addresses {all : Facts} (keyed : KeyedFacts all) :
    ((valuesOf all).map (·.address)).Nodup :=
  nodup_valuesOf_map all (·.address) keyed

/-- What collecting keyed facts files: exactly the checked operation facts. -/
theorem collect_nodes {c : CounterRule} {o : Opening} {all : Facts} (keyed : KeyedFacts all)
    {ops : Operations} (h : collect c o all = .ok ops) (a : String) (n : Node) :
    ops.nodes[a]? = some n ↔
      ∃ f, all[a]? = some f ∧ f.verb ∈ c.operationVerbs ∧ checkNode c o f = .ok n := by
  have hgen : ∀ (a : String) (n : Node), ops.nodes[a]? = some n ↔
      ∃ f ∈ opFacts c all, f.address = a ∧ checkNode c o f = .ok n := by
    refine CbclExcept.foldlM_inv (I := fun done (b : Operations) =>
      (done.map (·.address)).Nodup → ∀ (a : String) (n : Node), b.nodes[a]? = some n ↔
        ∃ f ∈ done, f.address = a ∧ checkNode c o f = .ok n) ?_ ?_ h
      ((nodup_addresses keyed).sublist ((List.filter_sublist).map _))
    · intro done f b b' _ hI hstep hnodup a n
      rw [List.map_append, List.nodup_append] at hnodup
      have hI := hI hnodup.1
      unfold addNode at hstep
      obtain ⟨m, hm, hstep⟩ := CbclExcept.bind_ok_iff.mp hstep
      split at hstep
      · exact nomatch hstep
      · injection hstep with hstep
        subst hstep
        rw [getElem?_insert_eq]
        by_cases ha : a = f.address
        · rw [if_pos ha]
          constructor
          · intro hn
            injection hn with hn
            subst hn
            exact ⟨f, by simp, ha.symm, hm⟩
          · rintro ⟨g, hg, hga, hgn⟩
            rcases List.mem_append.mp hg with hg | hg
            · -- addresses are distinct
              refine absurd rfl (hnodup.2.2 a ?_ a ?_)
              · rw [← hga]
                exact List.mem_map_of_mem hg
              · rw [ha]
                simp
            · rw [List.mem_singleton.mp hg, hm] at hgn
              injection hgn with hgn
              rw [hgn]
        · rw [if_neg ha, hI a n]
          constructor
          · rintro ⟨g, hg, hrest⟩
            exact ⟨g, List.mem_append_left _ hg, hrest⟩
          · rintro ⟨g, hg, hga, hgn⟩
            rcases List.mem_append.mp hg with hg | hg
            · exact ⟨g, hg, hga, hgn⟩
            · rw [List.mem_singleton.mp hg] at hga
              exact absurd hga.symm ha
    · intro _ a n
      rw [Std.ExtTreeMap.getElem?_empty]
      exact iff_of_false (fun h => nomatch h) fun h => nomatch h.choose_spec.1
  rw [hgen]
  constructor
  · rintro ⟨f, hf, rfl, hn⟩
    obtain ⟨hget, hverb⟩ := (mem_opFacts keyed).mp hf
    exact ⟨f, hget, hverb, hn⟩
  · rintro ⟨f, hget, hverb, hn⟩
    have haddr := keyed a f hget
    exact ⟨f, (mem_opFacts keyed).mpr ⟨by rw [haddr]; exact hget, hverb⟩, haddr, hn⟩

/-- Collecting succeeds when every operation passes its checks and no two share a previous
    link. -/
theorem collect_total {c : CounterRule} {o : Opening} {all : Facts} (keyed : KeyedFacts all)
    (hcheck : ∀ f ∈ opFacts c all, ∃ n, checkNode c o f = .ok n)
    (hfork : ∀ f ∈ opFacts c all, ∀ g ∈ opFacts c all, ∀ n m, checkNode c o f = .ok n →
      checkNode c o g = .ok m → f.signer = g.signer → n.prev = m.prev → f.address = g.address) :
    ∃ ops, collect c o all = .ok ops := by
  -- every filed successor belongs to an operation done before
  let I : List ResourceFact → Operations → Prop := fun done b =>
    ∀ (s p x : String), b.children[(s, p)]? = some x →
      ∃ f ∈ done, ∃ n, checkNode c o f = .ok n ∧ f.signer = s ∧ n.prev = p
  have hstep : ∀ done f b, (∃ rest, done ++ f :: rest = opFacts c all) → I done b →
      ∃ b', addNode c o b f = .ok b' ∧ I (done ++ [f]) b' := by
    rintro done f b ⟨rest, hsplit⟩ hI
    have hf : f ∈ opFacts c all := by rw [← hsplit]; simp
    obtain ⟨n, hn⟩ := hcheck f hf
    have hfree : b.children[(f.signer, n.prev)]? = none := by
      cases hx : b.children[(f.signer, n.prev)]? with
      | none => rfl
      | some x =>
          obtain ⟨g, hg, m, hm, hs, hp⟩ := hI _ _ _ hx
          have hgmem : g ∈ opFacts c all := by
            rw [← hsplit]
            exact List.mem_append_left _ hg
          have haddr := hfork g hgmem f hf m n hm hn hs hp
          have hnodup : ((opFacts c all).map (·.address)).Nodup :=
            (nodup_addresses keyed).sublist ((List.filter_sublist).map _)
          rw [← hsplit, List.map_append, List.nodup_append] at hnodup
          exact absurd haddr (hnodup.2.2 g.address (List.mem_map_of_mem hg) f.address (by simp))
    refine ⟨⟨b.nodes.insert f.address n, b.children.insert (f.signer, n.prev) f.address⟩, ?_, ?_⟩
    · unfold addNode
      rw [hn]
      dsimp only [bind, Except.bind]
      rw [hfree]
      rfl
    · intro s p x hx
      rw [getElem?_insert_eq] at hx
      split at hx
      · rename_i heq
        injection heq with hs hp
        exact ⟨f, by simp, n, hn, hs.symm, hp.symm⟩
      · obtain ⟨g, hg, hrest⟩ := hI s p x hx
        exact ⟨g, List.mem_append_left _ hg, hrest⟩
  have hstart : I [] ⟨∅, ∅⟩ := by
    intro s p x hx
    rw [Std.ExtTreeMap.getElem?_empty] at hx
    cases hx
  obtain ⟨ops, hops, -⟩ := CbclExcept.foldlM_total hstep hstart
  exact ⟨ops, hops⟩

/-- Checking a link that is in place changes nothing; a missing one is recorded. -/
theorem checkLink_total {all : Facts} {present : String → Bool} {opener : String}
    {nodes : BTreeMap String Node} {n : Node} {dep : String}
    (h : LinkOk opener nodes n dep ∨ (nodes[dep]? = none ∧ dep ∉ all ∧ present dep = false))
    (acc : BTreeSet String) :
    ∃ acc', checkLink all present opener nodes n acc dep = .ok acc' ∧
      (LinkOk opener nodes n dep → acc' = acc) := by
  unfold checkLink
  by_cases hop : dep = opener
  · exact ⟨acc, by rw [if_pos hop], fun _ => rfl⟩
  · rw [if_neg hop]
    cases hnode : nodes[dep]? with
    | some parent =>
        have hlink := h.resolve_right fun hc => nomatch hnode.symm.trans hc.1
        obtain ⟨parent', hparent, howner⟩ := hlink.resolve_left hop
        rw [hnode] at hparent
        injection hparent with hparent
        subst hparent
        exact ⟨acc, if_neg fun hc => hc.2 (howner hc.1), fun _ => rfl⟩
    | none =>
        have hlink : ¬ LinkOk opener nodes n dep := by
          intro hl
          obtain ⟨parent, hparent, -⟩ := hl.resolve_left hop
          exact nomatch hnode.symm.trans hparent
        obtain ⟨-, hall, hpres⟩ := h.resolve_left hlink
        refine ⟨acc.insert dep, ?_, fun hl => absurd hl hlink⟩
        dsimp only
        rw [if_neg]
        rintro (hin | hp)
        · exact hall hin
        · rw [hpres] at hp
          exact nomatch hp

/-- Links that are in place or missing let the check pass or wait; it passes if all are in
    place. -/
theorem checkLinks_total {all : Facts} {present : String → Bool} {opener : String}
    {nodes : BTreeMap String Node}
    (h : ∀ (a : String) (n : Node), nodes[a]? = some n → ∀ dep ∈ n.prev :: n.deps,
      LinkOk opener nodes n dep ∨ (nodes[dep]? = none ∧ dep ∉ all ∧ present dep = false)) :
    (checkLinks all present opener nodes = .ok () ∨
      ∃ evidence, checkLinks all present opener nodes = .error (.pending evidence)) ∧
    ((∀ (a : String) (n : Node), nodes[a]? = some n → Linked opener nodes n) →
      checkLinks all present opener nodes = .ok ()) := by
  let AllLinked : Prop := ∀ (a : String) (n : Node), nodes[a]? = some n → Linked opener nodes n
  let I : BTreeSet String → Prop := fun acc => AllLinked → acc = ∅
  have hnode : ∀ n, (∃ a : String, nodes[a]? = some n) → ∀ acc, I acc →
      ∃ acc', (n.prev :: n.deps).foldlM (checkLink all present opener nodes n) acc = .ok acc' ∧
        I acc' := by
    rintro n ⟨a, hn⟩ acc hI
    refine CbclExcept.foldlM_total (I := fun _ b => I b) (fun done dep b hdep hIb => ?_) hI
    obtain ⟨rest, hrest⟩ := hdep
    have hmem : dep ∈ n.prev :: n.deps := by
      rw [← hrest]
      exact List.mem_append_right _ (List.mem_cons_self ..)
    obtain ⟨b', hb', hsame⟩ := checkLink_total (h a n hn dep hmem) b
    exact ⟨b', hb', fun hall => (hsame (hall a n hn dep hmem)).trans (hIb hall)⟩
  have hfold : ∃ missing, (valuesOf nodes).foldlM (fun missing n =>
      (n.prev :: n.deps).foldlM (checkLink all present opener nodes n) missing) ∅ = .ok missing ∧
        I missing := by
    refine CbclExcept.foldlM_total (I := fun _ b => I b) (fun done n b hn hIb => ?_) fun _ => rfl
    obtain ⟨rest, hrest⟩ := hn
    refine hnode n ((mem_valuesOf_iff nodes n).mp ?_) b hIb
    rw [← hrest]
    exact List.mem_append_right _ (List.mem_cons_self ..)
  obtain ⟨missing, hmissing, hI⟩ := hfold
  unfold checkLinks
  rw [hmissing]
  refine ⟨?_, fun hall => if_pos (hI hall)⟩
  by_cases hempty : missing = ∅
  · exact Or.inl (if_pos hempty)
  · exact Or.inr ⟨missing.toList, if_neg hempty⟩

-- ── No overflow ────

/-- Adding to a known account succeeds if the result fits. -/
theorem add_total {m : BTreeMap String Int} {owner : String} {n : Int} (hin : owner ∈ m)
    (hfit : inI128 (balanceOf m owner + n)) : ∃ m', add m owner n = .ok m' := by
  obtain ⟨v, hv⟩ := Option.isSome_iff_exists.mp (Std.ExtTreeMap.mem_iff_isSome_getElem?.mp hin)
  unfold add
  rw [hv]
  have hbal : balanceOf m owner = v := by
    unfold balanceOf
    rw [hv]
    rfl
  rw [hbal] at hfit
  have hadd : checkedAdd v n = some (v + n) := checked_eq_some.mpr ⟨hfit, rfl⟩
  exact ⟨m.insert owner (v + n), by dsimp only; rw [hadd]; rfl⟩

/-- The balances are small enough for one more operation. -/
def Small (m : BTreeMap String Int) : Prop := ∀ x, -2 ^ 126 ≤ balanceOf m x ∧ balanceOf m x ≤ 2 ^ 126

theorem Small.add {m : BTreeMap String Int} (h : Small m) {owner : String} {n : Int}
    (hin : owner ∈ m) (hn : -2 ^ 63 ≤ n ∧ n ≤ 2 ^ 63) : ∃ m', add m owner n = .ok m' := by
  refine add_total hin ?_
  have hx := h owner
  exact ⟨by omega, by omega⟩

/-- Moving an amount between two known accounts succeeds. -/
theorem Small.move {o : Opening} {m : BTreeMap String Int} (h : Small m)
    (hkeys : ∀ x, x ∈ m ↔ x ∈ o.initial) {n : Node} (hsound : Sound o n)
    (hkind : n.kind = .transfer ∨ n.kind = .headroom) : ∃ m', move m n = .ok m' := by
  obtain ⟨r, hr, hin, hne⟩ := hsound.moves hkind
  have hpos := hsound.positive
  have hsmall := hsound.small
  obtain ⟨m1, hm1⟩ := h.add ((hkeys n.act.signer).mpr hsound.owner) (n := -n.amount)
    ⟨by omega, by omega⟩
  have hshift := (add_ok hm1).2
  -- the recipient is another account: its balance has not moved
  have hbal : balanceOf m1 r = balanceOf m r := by
    rw [hshift.balanceOf ((hkeys r).mpr hin), onAccount, if_neg hne, add_zero]
  have hr1 : r ∈ m1 := by
    rw [← Std.ExtTreeMap.mem_keys, ← List.mem_toFinset, hshift.keys, List.mem_toFinset,
      Std.ExtTreeMap.mem_keys, hkeys]
    exact hin
  have hx := h r
  obtain ⟨m2, hm2⟩ := add_total (n := n.amount) hr1 (by rw [hbal]; exact ⟨by omega, by omega⟩)
  refine ⟨m2, ?_⟩
  unfold CbclEscrow.move
  rw [hm1, hr]
  exact hm2

/-- One operation moves a balance by less than `2 ^ 63`. -/
theorem delta_bounds {o : Opening} {n : Node} (h : Sound o n) (f : Flow)
    (hf : f.moved = .transfer ∨ f.moved = .headroom) (x : String) :
    -2 ^ 63 ≤ f.delta n x ∧ f.delta n x ≤ 2 ^ 63 := by
  have hpos := h.positive
  have hsmall := h.small
  by_cases hx : x = n.act.signer
  · subst hx
    unfold Flow.delta onAccount
    rw [if_pos rfl, sentIf_self h f hf, add_zero]
    unfold amountIf
    have h₁ := f.gain_ne_loss
    have h₂ := f.gain_ne_moved
    have h₃ := f.loss_ne_moved
    by_cases hg : n.kind = f.gain
    · rw [if_pos hg, if_neg (by rw [hg]; exact h₁), if_neg (by rw [hg]; exact h₂)]
      omega
    · rw [if_neg hg]
      by_cases hl : n.kind = f.loss
      · rw [if_pos hl, if_neg (by rw [hl]; exact h₃)]
        omega
      · rw [if_neg hl]
        split
        · omega
        · omega
  · rw [delta_other hx]
    unfold sentIf
    split
    · omega
    · omega

theorem sumDelta_bounds {o : Opening} {delta : Node → String → ℤ} {f : Flow}
    (hf : f.moved = .transfer ∨ f.moved = .headroom)
    (hdelta : ∀ n, Sound o n → delta n = f.delta n) (x : String) : ∀ ns : List Node,
    (∀ n ∈ ns, Sound o n) → -(ns.length * 2 ^ 63) ≤ sumDelta delta ns x ∧
      sumDelta delta ns x ≤ ns.length * 2 ^ 63 := by
  intro ns
  induction ns with
  | nil => intro _; exact ⟨by simp [sumDelta], by simp [sumDelta]⟩
  | cons n ns ih =>
      intro hsound
      obtain ⟨hlo, hhi⟩ := ih fun m hm => hsound m (List.mem_cons_of_mem _ hm)
      have hn := hsound n (List.mem_cons_self ..)
      have hbound := delta_bounds hn f hf x
      rw [← hdelta n hn] at hbound
      unfold sumDelta at hlo hhi ⊢
      rw [List.map_cons, List.sum_cons, List.length_cons]
      push_cast
      omega

/-- Balances after fewer than `2 ^ 63` operations are small. -/
theorem Shifted.small {o : Opening} {m m' : BTreeMap String Int} {delta : Node → String → ℤ}
    {f : Flow} (hf : f.moved = .transfer ∨ f.moved = .headroom)
    (hdelta : ∀ n, Sound o n → delta n = f.delta n) {ns : List Node}
    (hsound : ∀ n ∈ ns, Sound o n) (hlen : ns.length < 2 ^ 63)
    (hm : ∀ (k : String) (v : Int), m[k]? = some v → 0 ≤ v ∧ v < 2 ^ 63)
    (h : Shifted m m' (sumDelta delta ns)) : Small m' := by
  intro x
  unfold balanceOf
  rw [h x]
  cases hv : m[x]? with
  | none => exact ⟨by simp, by simp⟩
  | some v =>
      have hbound := hm x v hv
      have hsum := sumDelta_bounds hf hdelta x ns hsound
      have hcast : (ns.length : ℤ) < 2 ^ 63 := by exact_mod_cast hlen
      show -2 ^ 126 ≤ v + sumDelta delta ns x ∧ v + sumDelta delta ns x ≤ 2 ^ 126
      have hmul : (ns.length : ℤ) * 2 ^ 63 ≤ (2 ^ 63 - 1) * 2 ^ 63 := by nlinarith
      constructor <;> omega

theorem Shifted.mem {m m' : BTreeMap String Int} {δ : String → ℤ} (h : Shifted m m' δ)
    (x : String) : x ∈ m' ↔ x ∈ m := by
  rw [← Std.ExtTreeMap.mem_keys, ← Std.ExtTreeMap.mem_keys, ← List.mem_toFinset,
    ← List.mem_toFinset, h.keys]

/-- Allocations of 64 bits. -/
def Fits (o : Opening) : Prop :=
  (∀ (k : String) (v : Int), o.initial[k]? = some v → 0 ≤ v ∧ v < 2 ^ 63) ∧
    ∀ h, o.headroom = some h → (∀ x, x ∈ h ↔ x ∈ o.initial) ∧
      ∀ (k : String) (v : Int), h[k]? = some v → 0 ≤ v ∧ v < 2 ^ 63

/-- One operation can be applied to small balances of the accounts. -/
theorem apply_total {o : Opening} {n : Node} (hsound : Sound o n)
    (hspace : n.kind = .headroom → o.headroom ≠ none) {rights : BTreeMap String Int}
    {headroom : Option (BTreeMap String Int)} (hr : Small rights)
    (hrkeys : ∀ x, x ∈ rights ↔ x ∈ o.initial)
    (hnone : headroom = none → o.headroom = none)
    (hh : ∀ h, headroom = some h → Small h ∧ ∀ x, x ∈ h ↔ x ∈ o.initial) :
    ∃ next, n.apply rights headroom = .ok next := by
  have hpos := hsound.positive
  have hsmall := hsound.small
  have hown : n.act.signer ∈ rights := (hrkeys _).mpr hsound.owner
  have hopt : ∀ v : Int, -2 ^ 63 ≤ v ∧ v ≤ 2 ^ 63 →
      ∃ h', headroom.mapM (m := Except String) (CbclEscrow.add · n.act.signer v) = .ok h' := by
    intro v hv
    cases headroom with
    | none => exact ⟨none, rfl⟩
    | some h =>
        obtain ⟨hs, hkeys⟩ := hh h rfl
        obtain ⟨h', hh'⟩ := hs.add ((hkeys _).mpr hsound.owner) hv
        refine ⟨some h', ?_⟩
        rw [Option.mapM_some, hh']
        rfl
  unfold Node.apply
  cases hk : n.kind with
  | increment =>
      obtain ⟨h', hh'⟩ := hopt (-n.amount) ⟨by omega, by omega⟩
      obtain ⟨r', hr'⟩ := hr.add hown (n := n.amount) ⟨by omega, by omega⟩
      exact ⟨(r', h'), by dsimp only; rw [hh', hr']; rfl⟩
  | decrement =>
      obtain ⟨h', hh'⟩ := hopt n.amount ⟨by omega, by omega⟩
      obtain ⟨r', hr'⟩ := hr.add hown (n := -n.amount) ⟨by omega, by omega⟩
      exact ⟨(r', h'), by dsimp only; rw [hr', hh']; rfl⟩
  | transfer =>
      obtain ⟨r', hr'⟩ := hr.move hrkeys hsound (Or.inl hk)
      exact ⟨(r', headroom), by dsimp only; rw [hr']; rfl⟩
  | headroom =>
      cases headroom with
      | none => exact absurd (hnone rfl) (hspace hk)
      | some h =>
          obtain ⟨hs, hkeys⟩ := hh h rfl
          obtain ⟨h', hh'⟩ := hs.move hkeys hsound (Or.inr hk)
          exact ⟨(rights, some h'), by dsimp only; rw [hh']; rfl⟩

/-- **The final balances of a history that fits a machine are computed.** -/
theorem balances_total {o : Opening} (hfits : Fits o) {nodes : BTreeMap String Node}
    (hsound : ∀ (a : String) (n : Node), nodes[a]? = some n → Sound o n)
    (hsize : nodes.size < 2 ^ 63)
    (hspace : ∀ (a : String) (n : Node), nodes[a]? = some n → n.kind = .headroom →
      o.headroom ≠ none) :
    ∃ final, balances o nodes = .ok final := by
  have hlen : (valuesOf nodes).length = nodes.size := by
    unfold valuesOf
    rw [List.length_map, Std.ExtTreeMap.length_toList]
  have hmem : ∀ {n}, n ∈ valuesOf nodes → ∃ a : String, nodes[a]? = some n :=
    fun {n} hn => (mem_valuesOf_iff nodes n).mp hn
  let I : List Node → BTreeMap String Int × Option (BTreeMap String Int) → Prop := fun done b =>
    Shifted o.initial b.1 (sumDelta rightsDelta done) ∧
      ShiftedOpt o.headroom b.2 (sumDelta headroomDelta done)
  have hstep : ∀ done n b, (∃ rest, done ++ n :: rest = valuesOf nodes) → I done b →
      ∃ b', n.apply b.1 b.2 = .ok b' ∧ I (done ++ [n]) b' := by
    rintro done n ⟨r, h⟩ ⟨rest, hsplit⟩ ⟨hr, hh⟩
    have hdone : ∀ m ∈ done, Sound o m := by
      intro m hm
      obtain ⟨a, ha⟩ := hmem (by rw [← hsplit]; exact List.mem_append_left _ hm)
      exact hsound a m ha
    have hlt : done.length < 2 ^ 63 := by
      have hle := congrArg List.length hsplit
      rw [List.length_append, List.length_cons, hlen] at hle
      omega
    obtain ⟨a, hn⟩ := hmem (n := n) (by rw [← hsplit]; simp)
    dsimp only at hr hh
    have hopt : (h = none → o.headroom = none) ∧ ∀ m, h = some m →
        ∃ m0, o.headroom = some m0 ∧ Shifted m0 m (sumDelta headroomDelta done) := by
      cases hoh : o.headroom with
      | none =>
          rw [hoh] at hh
          cases h with
          | none => exact ⟨fun _ => rfl, by rintro _ ⟨⟩⟩
          | some m => exact hh.elim
      | some m0 =>
          rw [hoh] at hh
          cases h with
          | none => exact hh.elim
          | some m =>
              refine ⟨(by rintro ⟨⟩), fun m' hm' => ⟨m0, rfl, ?_⟩⟩
              injection hm' with hm'
              rw [← hm']
              exact hh
    obtain ⟨next, hnext⟩ := apply_total (hsound a n hn) (hspace a n hn)
      (Shifted.small (Or.inl rfl) (fun _ hs => rightsDelta_eq hs) hdone hlt hfits.1 hr)
      (Shifted.mem hr) hopt.1 fun m hm => by
        obtain ⟨m0, hm0, hshift⟩ := hopt.2 m hm
        obtain ⟨hkeys, hval⟩ := hfits.2 m0 hm0
        exact ⟨Shifted.small (Or.inr rfl) (fun _ hs => headroomDelta_eq hs) hdone hlt hval hshift,
          fun x => (Shifted.mem hshift x).trans (hkeys x)⟩
    refine ⟨next, hnext, ?_⟩
    obtain ⟨hr1, hh1⟩ := apply_ok hnext
    refine ⟨by rw [sumDelta_snoc]; exact hr.trans hr1, ?_⟩
    rw [sumDelta_snoc]
    exact ShiftedOpt.trans hh hh1
  have hfold : ∃ final, balances o nodes = .ok final ∧ I (valuesOf nodes) final := by
    refine CbclExcept.foldlM_total (fun done n b hdone hI => ?_)
      ⟨Shifted.refl _, ShiftedOpt.refl _⟩
    obtain ⟨b', hb', hI'⟩ := hstep done n b hdone hI
    exact ⟨b', by dsimp only; rw [hb'], hI'⟩
  obtain ⟨final, hfinal, -⟩ := hfold
  exact ⟨final, hfinal⟩

/-- A list of bounded numbers has a bounded sum. -/
theorem sum_le_length (xs : List Int) (h : ∀ x ∈ xs, x ≤ 2 ^ 63 - 1) :
    xs.sum ≤ xs.length * (2 ^ 63 - 1) := by
  have hle := List.sum_le_card_nsmul xs (2 ^ 63 - 1) h
  rw [nsmul_eq_mul] at hle
  exact hle

/-- **The final checks of a history that fits a machine succeed.** -/
theorem passed_conclude {c : CounterRule} {all : Facts} {present : String → Bool}
    {o : Opening} {ops : Operations} (h : Passed c all present o ops) (hfits : Fits o)
    (hinitial : o.initial.size < 2 ^ 63) (hsize : ops.nodes.size < 2 ^ 63)
    (hspace : ∀ (a : String) (n : Node), ops.nodes[a]? = some n → n.kind = .headroom →
      o.headroom ≠ none) :
    ∃ snapshot, conclude c o ops = .ok snapshot := by
  have checked := h.checked
  obtain ⟨⟨rights, headroom⟩, hb⟩ := balances_total hfits (fun a n hn => checked.filed.sound hn)
    hsize hspace
  have final := h.final hb
  have hnat : Natural rights := final.rights_nonneg
  -- the value is far from the edge of the range
  have hlen : ∀ {ν : Type} (m : BTreeMap String ν), (valuesOf m).length = m.size := by
    intro ν m
    unfold valuesOf
    rw [List.length_map, Std.ExtTreeMap.length_toList]
  have hinit : sumOf o.initial ≤ o.initial.size * (2 ^ 63 - 1) := by
    rw [← hlen o.initial]
    refine sum_le_length _ fun v hv => ?_
    obtain ⟨x, hx⟩ := (mem_valuesOf_iff _ _).mp hv
    have hbound := hfits.1 x v hx
    omega
  have hinc : totalOf .increment ops.nodes ≤ ops.nodes.size * (2 ^ 63 - 1) := by
    have hle : totalOf .increment ops.nodes
        ≤ (((valuesOf ops.nodes).map (amountIf .increment)).length : ℤ) * (2 ^ 63 - 1) := by
      refine sum_le_length _ fun v hv => ?_
      obtain ⟨n, hn, rfl⟩ := List.mem_map.mp hv
      obtain ⟨a, ha⟩ := (mem_valuesOf_iff _ _).mp hn
      have hs := checked.filed.sound ha
      have hpos := hs.positive
      have hsmall := hs.small
      unfold amountIf
      split
      · omega
      · omega
    rw [List.length_map, hlen] at hle
    exact hle
  have hdec : 0 ≤ totalOf .decrement ops.nodes := by
    refine List.sum_nonneg fun v hv => ?_
    obtain ⟨n, hn, rfl⟩ := List.mem_map.mp hv
    obtain ⟨a, ha⟩ := (mem_valuesOf_iff _ _).mp hn
    have hpos := (checked.filed.sound ha).positive
    unfold amountIf
    split
    · omega
    · omega
  have hvalue := final.value
  have hrange : sumOf rights ≤ 2 * (2 ^ 63 - 1) * (2 ^ 63 - 1) := by
    have h1 : (o.initial.size : ℤ) ≤ 2 ^ 63 - 1 := by
      have hcast : (o.initial.size : ℤ) < 2 ^ 63 := by exact_mod_cast hinitial
      omega
    have h2 : (ops.nodes.size : ℤ) ≤ 2 ^ 63 - 1 := by
      have hcast : (ops.nodes.size : ℤ) < 2 ^ 63 := by exact_mod_cast hsize
      omega
    nlinarith
  have hfloor_lt := Int64.toInt_lt c.floor
  have hfloor_ge := Int64.le_toInt c.floor
  have hnonneg := hnat.sum_nonneg
  have htotal : total rights = some (sumOf rights) := hnat.total (by omega)
  have hadd : checkedAdd (sumOf rights) c.floor.toInt = some (sumOf rights + c.floor.toInt) :=
    checked_eq_some.mpr ⟨⟨by omega, by omega⟩, rfl⟩
  have hneg : ¬ (negative rights = true ∨ headroom.any negative = true) := by
    rintro (hneg | hneg)
    · rw [negative_eq_false.mpr final.rights_nonneg] at hneg
      exact nomatch hneg
    · obtain ⟨m, hm, hneg⟩ := (Option.any_eq_true _ _).mp hneg
      rw [negative_eq_false.mpr (final.headroom_nonneg m hm)] at hneg
      exact nomatch hneg
  cases hc : conclude c o ops with
  | ok snapshot => exact ⟨snapshot, rfl⟩
  | error e =>
      have hearly := h.conclude_early hc
      unfold conclude at hc
      rw [hb] at hc
      change (if negative rights = true ∨ headroom.any negative = true then _ else _) = _ at hc
      rw [if_neg hneg, htotal, Option.bind_some, hadd] at hc
      dsimp only at hc
      split at hc
      · injection hc with hc
        exact absurd hc.symm (hearly []).2
      · exact nomatch hc

/-- A history that concludes moves headroom only if it has any. -/
theorem space_of_balances {o : Opening} {nodes : BTreeMap String Node}
    {final : BTreeMap String Int × Option (BTreeMap String Int)}
    (h : balances o nodes = .ok final) :
    ∀ (a : String) (n : Node), nodes[a]? = some n → n.kind = .headroom → o.headroom ≠ none := by
  have hI := CbclExcept.foldlM_inv (I := fun done
      (b : BTreeMap String Int × Option (BTreeMap String Int)) =>
    (∃ δ, ShiftedOpt o.headroom b.2 δ) ∧
      ∀ n ∈ done, n.kind = .headroom → o.headroom ≠ none) ?_ ?_ h
  · intro a n hn
    exact hI.2 n ((mem_valuesOf_iff nodes n).mpr ⟨a, hn⟩)
  · rintro done n ⟨r, hd⟩ ⟨r', hd'⟩ - ⟨⟨δ, hδ⟩, hdone⟩ hstep
    dsimp only at hstep hδ
    cases happly : n.apply r hd with
    | error e => rw [happly] at hstep; exact nomatch hstep
    | ok next =>
        rw [happly] at hstep
        injection hstep with hstep
        subst hstep
        refine ⟨⟨_, ShiftedOpt.trans hδ (apply_ok happly).2⟩, fun m hm hk => ?_⟩
        rcases List.mem_append.mp hm with hm | hm
        · exact hdone m hm hk
        · rw [List.mem_singleton.mp hm] at hk
          intro hnone
          rw [hnone] at hδ
          cases hd with
          | some x => exact hδ.elim
          | none =>
              unfold Node.apply at happly
              rw [hk] at happly
              exact nomatch happly
  · exact ⟨⟨0, ShiftedOpt.refl _⟩, fun n hn => nomatch hn⟩

-- ── Parts of a history ────

/-- A fact map with its presence predicate: facts are keyed, and what has a fact is present. -/
structure View where
  all : Facts
  present : String → Bool
  keyed : KeyedFacts all
  filed : ∀ k, k ∈ all → present k = true

/-- One view is part of another: what it has present is there with the same fact. -/
structure Part (v w : View) : Prop where
  present : ∀ k, v.present k = true → w.present k = true
  facts : ∀ k : String, v.present k = true → v.all[k]? = w.all[k]?

theorem View.present_of_fact (v : View) {k : String} {f : ResourceFact} (h : v.all[k]? = some f) :
    v.present k = true :=
  v.filed k (Std.ExtTreeMap.mem_iff_isSome_getElem?.mpr (by rw [h]; rfl))

theorem Part.fact {v w : View} (h : Part v w) {k : String} {f : ResourceFact}
    (hf : v.all[k]? = some f) : w.all[k]? = some f := by
  rw [← h.facts k (v.present_of_fact hf)]
  exact hf

/-- The opener is the only fact of its verb. -/
theorem findOpener_only {c : CounterRule} {all : Facts} {op : ResourceFact}
    (h : findOpener c all = .ok op) : (valuesOf all).filter (·.verb = c.initial_verb) = [op] := by
  unfold findOpener at h
  split at h
  · exact nomatch h
  · rename_i op' heq
    injection h with h
    rw [heq, h]
  · exact nomatch h

theorem findOpener_mem {c : CounterRule} {all : Facts} {op : ResourceFact}
    (h : findOpener c all = .ok op) : ∃ k : String, all[k]? = some op := by
  have hmem : op ∈ (valuesOf all).filter (·.verb = c.initial_verb) := by
    rw [findOpener_only h]
    exact List.mem_singleton_self op
  exact (mem_valuesOf_iff all op).mp (List.mem_filter.mp hmem).1

/-- A view finds the same opener as a larger one, or none yet. -/
theorem findOpener_part {c : CounterRule} {v w : View} (h : Part v w) {op : ResourceFact}
    (hop : findOpener c w.all = .ok op) :
    findOpener c v.all = .ok op ∨ findOpener c v.all = .error (.pending []) := by
  have hw := findOpener_only hop
  have hall : ∀ f ∈ (valuesOf v.all).filter (·.verb = c.initial_verb), f = op := by
    intro f hf
    obtain ⟨hmem, hverb⟩ := List.mem_filter.mp hf
    obtain ⟨k, hk⟩ := (mem_valuesOf_iff _ _).mp hmem
    have hin : f ∈ (valuesOf w.all).filter (·.verb = c.initial_verb) :=
      List.mem_filter.mpr ⟨(mem_valuesOf_iff _ _).mpr ⟨k, h.fact hk⟩, hverb⟩
    rw [hw] at hin
    exact List.mem_singleton.mp hin
  have hnodup : ((valuesOf v.all).filter (·.verb = c.initial_verb)).Nodup :=
    (List.Nodup.of_map _ (nodup_addresses v.keyed)).filter _
  unfold findOpener
  rcases hlist : (valuesOf v.all).filter (·.verb = c.initial_verb) with _ | ⟨f, _ | ⟨g, rest⟩⟩
  · rw [hlist]
    exact Or.inr rfl
  · rw [hlist] at hall ⊢
    rw [hall f (List.mem_singleton_self f)]
    exact Or.inl rfl
  · rw [hlist] at hall hnodup
    have hf := hall f (by simp)
    have hg := hall g (by simp)
    rw [hf, hg] at hnodup
    simp at hnodup

/-- The root of the opener is the same, or missing. -/
theorem findRoot_part {v w : View} (h : Part v w) {op root : ResourceFact}
    (hroot : findRoot w.all w.present op = .ok root) :
    findRoot v.all v.present op = .ok root ∨
      ∃ evidence, findRoot v.all v.present op = .error (.pending evidence) := by
  unfold findRoot at hroot ⊢
  split at hroot
  · rename_i p hp
    cases hw : w.all[p]? with
    | none =>
        rw [hw] at hroot
        dsimp only at hroot
        split at hroot
        · exact nomatch hroot
        · exact nomatch hroot
    | some root' =>
        rw [hw] at hroot
        dsimp only at hroot ⊢
        by_cases hpres : v.present p = true
        · rw [h.facts p hpres, hw]
          exact Or.inl hroot
        · cases hv : v.all[p]? with
          | some f => exact absurd (v.present_of_fact hv) hpres
          | none =>
              dsimp only
              rw [if_neg hpres]
              exact Or.inr ⟨[p], rfl⟩
  · exact nomatch hroot

/-- A counter opens the same way in a part, or waits. -/
theorem openCounter_part {c : CounterRule} {v w : View} (h : Part v w) {o : Opening}
    (ho : openCounter c w.all w.present = .ok o) :
    openCounter c v.all v.present = .ok o ∨
      ∃ evidence, openCounter c v.all v.present = .error (.pending evidence) := by
  obtain ⟨op, hop, ho⟩ := CbclExcept.bind_ok_iff.mp ho
  obtain ⟨root, hroot, ho⟩ := CbclExcept.bind_ok_iff.mp ho
  unfold openCounter
  rcases findOpener_part h hop with hop' | hop'
  · rw [hop']
    rcases findRoot_part h hroot with hroot' | ⟨evidence, hroot'⟩
    · left
      show (findRoot v.all v.present op >>= _) = _
      rw [hroot']
      exact ho
    · right
      refine ⟨evidence, ?_⟩
      show (findRoot v.all v.present op >>= _) = _
      rw [hroot']
      rfl
  · right
    refine ⟨[], ?_⟩
    rw [hop']
    rfl

/-- Every operation fact of a collected map has passed its checks. -/
theorem collect_checked {c : CounterRule} {o : Opening} {all : Facts} {ops : Operations}
    (h : collect c o all = .ok ops) : ∀ f ∈ opFacts c all, ∃ n, checkNode c o f = .ok n := by
  refine CbclExcept.foldlM_inv (I := fun done (_ : Operations) =>
    ∀ f ∈ done, ∃ n, checkNode c o f = .ok n) ?_ (fun f hf => nomatch hf) h
  intro done f b b' _ hI hstep g hg
  rcases List.mem_append.mp hg with hg | hg
  · exact hI g hg
  · obtain ⟨n, hn, -⟩ := CbclExcept.bind_ok_iff.mp hstep
    rw [List.mem_singleton.mp hg]
    exact ⟨n, hn⟩

/-- The operations of a part are those of the whole that it has present. -/
theorem collect_part {c : CounterRule} {v w : View} (h : Part v w) {o : Opening}
    {opsw : Operations} (hw : collect c o w.all = .ok opsw) :
    ∃ opsv, collect c o v.all = .ok opsv ∧ ∀ (a : String) (n : Node),
      opsv.nodes[a]? = some n ↔ opsw.nodes[a]? = some n ∧ v.present a = true := by
  have filed := collect_ok hw
  have hmem : ∀ f ∈ opFacts c v.all, f ∈ opFacts c w.all := by
    intro f hf
    obtain ⟨hget, hverb⟩ := (mem_opFacts v.keyed).mp hf
    exact (mem_opFacts w.keyed).mpr ⟨h.fact hget, hverb⟩
  have hnode : ∀ f ∈ opFacts c v.all, ∀ n, checkNode c o f = .ok n →
      opsw.nodes[f.address]? = some n := by
    intro f hf n hn
    obtain ⟨hget, hverb⟩ := (mem_opFacts w.keyed).mp (hmem f hf)
    exact (collect_nodes w.keyed hw f.address n).mpr ⟨f, hget, hverb, hn⟩
  obtain ⟨opsv, hv⟩ := collect_total v.keyed (c := c) (o := o)
    (fun f hf => collect_checked hw f (hmem f hf)) (by
      intro f hf g hg n m hn hm hsigner hprev
      refine filed.unique (hnode f hf n hn) (hnode g hg m hm) ?_ hprev
      rw [(checkNode_ok hn).1, (checkNode_ok hm).1]
      exact hsigner)
  refine ⟨opsv, hv, fun a n => ?_⟩
  rw [collect_nodes v.keyed hv, collect_nodes w.keyed hw]
  constructor
  · rintro ⟨f, hget, hverb, hn⟩
    exact ⟨⟨f, h.fact hget, hverb, hn⟩, v.present_of_fact hget⟩
  · rintro ⟨⟨f, hget, hverb, hn⟩, hpres⟩
    exact ⟨f, (h.facts a hpres).trans hget, hverb, hn⟩

/-- The nodes of one map are those of another that are present. -/
def Restricts (present : String → Bool) (nodes nodes' : BTreeMap String Node) : Prop :=
  ∀ (a : String) (n : Node), nodes[a]? = some n ↔ nodes'[a]? = some n ∧ present a = true

/-- Links of a part are in place or missing. -/
theorem links_part {v : View} {opener : String} {nodes nodes' : BTreeMap String Node}
    (hres : Restricts v.present nodes nodes')
    (hlinked : ∀ (a : String) (n : Node), nodes'[a]? = some n → Linked opener nodes' n) :
    ∀ (a : String) (n : Node), nodes[a]? = some n → ∀ dep ∈ n.prev :: n.deps,
      LinkOk opener nodes n dep ∨ (nodes[dep]? = none ∧ dep ∉ v.all ∧ v.present dep = false) := by
  intro a n hn dep hdep
  rcases hlinked a n ((hres a n).mp hn).1 dep hdep with hop | ⟨parent, hparent, howner⟩
  · exact Or.inl (Or.inl hop)
  · by_cases hpres : v.present dep = true
    · exact Or.inl (Or.inr ⟨parent, (hres dep parent).mpr ⟨hparent, hpres⟩, howner⟩)
    · refine Or.inr ⟨?_, fun hin => hpres (v.filed dep hin), by simpa using hpres⟩
      cases hnone : nodes[dep]? with
      | none => rfl
      | some m => exact absurd ((hres dep m).mp hnone).2 hpres

/-- The dependencies of an operation whose links are in place are operations. -/
theorem linked_dependency {opener : String} {nodes : BTreeMap String Node} {n : Node}
    (h : Linked opener nodes n) {d : String} (hd : d ∈ n.dependencies opener) :
    ∃ parent, nodes[d]? = some parent := by
  obtain ⟨hmem, hne⟩ := mem_dependencies.mp hd
  obtain ⟨parent, hparent, -⟩ := (h d hmem).resolve_left hne
  exact ⟨parent, hparent⟩

/-- **A part with its links in place is justified by the summaries of the whole.** -/
theorem justified_part {o : Opening} {present : String → Bool}
    {nodes nodes' : BTreeMap String Node} {order : List String} {s : Summaries}
    (h : Justified o nodes' order s) (hres : Restricts present nodes nodes')
    (hlinked : ∀ (a : String) (n : Node), nodes[a]? = some n → Linked o.op.address nodes n) :
    Justified o nodes (order.filter present) s := by
  have hmem : ∀ a, a ∈ order.filter present ↔ ∃ n, nodes[a]? = some n := by
    intro a
    rw [List.mem_filter, h.mem_order]
    constructor
    · rintro ⟨⟨n, hn⟩, hpres⟩
      exact ⟨n, (hres a n).mpr ⟨hn, hpres⟩⟩
    · rintro ⟨n, hn⟩
      exact ⟨⟨n, ((hres a n).mp hn).1⟩, ((hres a n).mp hn).2⟩
  refine ⟨fun a n hn => h.keyed a n ((hres a n).mp hn).1, h.nodup.filter _, hmem, ?_,
    fun a n hn => h.judged a n ((hres a n).mp hn).1⟩
  refine (h.ordered.filter present fun a ha hpres d hd => ?_).congr fun a ha => ?_
  · obtain ⟨n, hn⟩ := (hmem a).mp (List.mem_filter.mpr ⟨ha, hpres⟩)
    rw [dependenciesOf_some ((hres a n).mp hn).1] at hd
    obtain ⟨parent, hparent⟩ := linked_dependency (hlinked a n hn) hd
    exact ((hres d parent).mp hparent).2
  · obtain ⟨n, hn⟩ := (hmem a).mp ha
    rw [dependenciesOf_some hn, dependenciesOf_some ((hres a n).mp hn).1]

/-- The map of operations is no larger than the map of facts. -/
theorem collect_size {c : CounterRule} {o : Opening} {all : Facts} (keyed : KeyedFacts all)
    {ops : Operations} (h : collect c o all = .ok ops) : ops.nodes.size ≤ all.size := by
  rw [← Std.ExtTreeMap.length_keys, ← Std.ExtTreeMap.length_keys]
  refine ((nodup_keys ops.nodes).subperm fun a ha => ?_).length_le
  obtain ⟨n, hn⟩ := (mem_keys_iff _ _).mp ha
  obtain ⟨f, hf, -⟩ := (collect_nodes keyed h a n).mp hn
  exact (mem_keys_iff _ _).mpr ⟨f, hf⟩

/-- The amounts of an opening are read as 64-bit numbers. -/
theorem opened_fits {c : CounterRule} {o : Opening} (h : Opened c o) : Fits o := by
  obtain ⟨x, -, hx⟩ := h.initial
  obtain ⟨-, -, -, hval⟩ := allocations_ok hx
  refine ⟨hval, fun m hm => ?_⟩
  obtain ⟨hkeys, hnat, hlt⟩ := h.headroom m hm
  refine ⟨fun y => ?_, fun k v hk => ⟨hnat k v hk, hlt k v hk⟩⟩
  rw [← Std.ExtTreeMap.mem_keys, ← Std.ExtTreeMap.mem_keys, hkeys]

/-- **A part of a history that settles either settles or waits.** -/
theorem settle_part {c : CounterRule} {v w : View} (h : Part v w) {snapshot : Snapshot}
    (hw : settle c w.all w.present = .ok snapshot) (hsize : v.all.size < 2 ^ 63)
    (hinitial : ∀ o, openCounter c w.all w.present = .ok o → o.initial.size < 2 ^ 63) :
    (∃ snapshot', settle c v.all v.present = .ok snapshot') ∨
      ∃ evidence, settle c v.all v.present = .error (.pending evidence) := by
  obtain ⟨o, opsw, hpass, hconc⟩ := passed_of_ok hw
  have checked := hpass.checked
  rcases openCounter_part h hpass.opening with hopen | ⟨evidence, hopen⟩
  · obtain ⟨opsv, hcollect, hres⟩ := collect_part h hpass.collected
    have htotal := checkLinks_total (links_part (v := v) hres checked.linked)
    rcases htotal.1 with hlinks | ⟨evidence, hlinks⟩
    · left
      obtain ⟨order, s, hj⟩ := hpass.justified
      obtain ⟨t, ht, htsize⟩ := (justified_part hj hres (checkLinks_ok hlinks)).summarize
      have hpart : Passed c v.all v.present o opsv :=
        ⟨hpass.profile, hopen, hcollect, hlinks, t, ht, htsize⟩
      rw [hpart.settle]
      obtain ⟨final, hb, -⟩ := CbclExcept.bind_ok_iff.mp hconc
      refine passed_conclude hpart (opened_fits checked.opened) (hinitial o hpass.opening)
        (lt_of_le_of_lt (collect_size v.keyed hcollect) hsize) fun a n hn => ?_
      exact space_of_balances hb a n ((hres a n).mp hn).1
    · right
      refine ⟨evidence, ?_⟩
      unfold settle
      simp only [hpass.profile, hopen, hcollect, hlinks, bind, Except.bind]
  · right
    refine ⟨evidence, ?_⟩
    unfold settle
    simp only [hpass.profile, hopen, bind, Except.bind]

end CbclEscrowHistory
