import Cbcl.EscrowTraversalProofs

/-!
# What the stages of an observation establish

One specification lemma per stage of `settle`: the arithmetic of totals and balances, the
allocations of the opener, the operations that `collect` files, and their links.  Later
proofs cite these and do not unfold the stages.
-/

namespace CbclEscrowStage

open CbclMessage CbclEscrow CbclEscrowTraversal CbclTreeMap

-- ── Totals and balances ────

/-- The mathematical sum of a map's values. -/
def sumOf (m : BTreeMap String Int) : ℤ := (valuesOf m).sum

/-- The balance of an account; an account without an entry has none. -/
def balanceOf (m : BTreeMap String Int) (x : String) : ℤ := (m[x]?).getD 0

theorem sumOf_eq (m : BTreeMap String Int) :
    sumOf m = ∑ x ∈ m.keys.toFinset, balanceOf m x := by
  have h := sum_valuesOf m id
  rw [List.map_id] at h
  unfold sumOf
  rw [h]
  refine Finset.sum_congr rfl fun x _ => ?_
  unfold balanceOf
  cases m[x]? with
  | none => rfl
  | some v => rfl

theorem checked_eq_some {n v : Int} : checked n = some v ↔ inI128 n ∧ v = n := by
  unfold checked
  by_cases h : inI128 n
  · rw [if_pos h, Option.some.injEq]
    exact ⟨fun he => ⟨h, he.symm⟩, fun he => he.2.symm⟩
  · rw [if_neg h]
    exact iff_of_false (fun he => nomatch he) fun he => h he.1

theorem orOverflow_ok {α : Type} {x : Option α} {a : α} : orOverflow x = .ok a ↔ x = some a := by
  cases x with
  | none => exact iff_of_false (fun h => nomatch h) (fun h => nomatch h)
  | some b =>
      rw [orOverflow, Except.ok.injEq, Option.some.injEq]

/-- A checked sum is the sum. -/
theorem foldlM_checkedAdd {xs : List Int} : ∀ {b v : Int},
    xs.foldlM checkedAdd b = some v → v = b + xs.sum := by
  induction xs with
  | nil =>
      intro b v h
      injection h with h
      rw [← h, List.sum_nil, add_zero]
  | cons x xs ih =>
      intro b v h
      rw [List.foldlM_cons] at h
      obtain ⟨w, hw, hrest⟩ := Option.bind_eq_some_iff.mp h
      rw [ih hrest, (checked_eq_some.mp hw).2, List.sum_cons, add_assoc]

theorem total_eq {m : BTreeMap String Int} {v : Int} (h : total m = some v) : v = sumOf m := by
  rw [foldlM_checkedAdd h, zero_add]
  rfl

/-- The checked sum of naturals fails only by size. -/
theorem foldlM_checkedAdd_total {xs : List Int} : ∀ {b : Int}, 0 ≤ b → (∀ x ∈ xs, 0 ≤ x) →
    b + xs.sum < 2 ^ 127 → xs.foldlM checkedAdd b = some (b + xs.sum) := by
  induction xs with
  | nil => intro b _ _ _; rw [List.sum_nil, add_zero]; rfl
  | cons x xs ih =>
      intro b hb hxs hlt
      have hx := hxs x (List.mem_cons_self ..)
      have hrest : 0 ≤ xs.sum :=
        List.sum_nonneg fun y hy => hxs y (List.mem_cons_of_mem _ hy)
      rw [List.sum_cons] at hlt ⊢
      have hstep : checkedAdd b x = some (b + x) := checked_eq_some.mpr ⟨⟨by omega, by omega⟩, rfl⟩
      rw [List.foldlM_cons, hstep]
      show xs.foldlM checkedAdd (b + x) = _
      rw [ih (by omega) (fun y hy => hxs y (List.mem_cons_of_mem _ hy)) (by omega), add_assoc]

/-- A map without negative balances. -/
def Natural (m : BTreeMap String Int) : Prop := ∀ (x : String) (v : Int), m[x]? = some v → 0 ≤ v

theorem Natural.values {m : BTreeMap String Int} (h : Natural m) : ∀ v ∈ valuesOf m, 0 ≤ v := by
  intro v hv
  obtain ⟨x, hx⟩ := (mem_valuesOf_iff m v).mp hv
  exact h x v hx

theorem Natural.sum_nonneg {m : BTreeMap String Int} (h : Natural m) : 0 ≤ sumOf m :=
  List.sum_nonneg h.values

theorem Natural.total {m : BTreeMap String Int} (h : Natural m) (hlt : sumOf m < 2 ^ 127) :
    total m = some (sumOf m) := by
  have htotal := foldlM_checkedAdd_total (le_refl 0) h.values (by rw [zero_add]; exact hlt)
  rw [zero_add] at htotal
  exact htotal

theorem Natural.balance {m : BTreeMap String Int} (h : Natural m) (x : String) :
    0 ≤ balanceOf m x := by
  unfold balanceOf
  cases hx : m[x]? with
  | none => exact le_refl 0
  | some v => exact h x v hx

theorem negative_eq_false {m : BTreeMap String Int} : negative m = false ↔ Natural m := by
  unfold negative
  rw [List.any_eq_false]
  constructor
  · intro h x v hx
    have hv := h v ((mem_valuesOf_iff m v).mpr ⟨x, hx⟩)
    simpa using hv
  · intro h v hv
    simpa using h.values v hv

/-- Every balance of one map is that of another plus a given amount. -/
def Shifted (m m' : BTreeMap String Int) (δ : String → ℤ) : Prop :=
  ∀ x : String, m'[x]? = (m[x]?).map (· + δ x)

theorem Shifted.refl (m : BTreeMap String Int) : Shifted m m 0 := by
  intro x
  cases m[x]? with
  | none => rfl
  | some v => rw [Option.map_some, Pi.zero_apply, add_zero]

theorem Shifted.trans {m m' m'' : BTreeMap String Int} {δ δ' : String → ℤ}
    (h : Shifted m m' δ) (h' : Shifted m' m'' δ') : Shifted m m'' (δ + δ') := by
  intro x
  rw [h' x, h x, Option.map_map]
  congr 1
  funext v
  rw [Function.comp_apply, Pi.add_apply, add_assoc]

theorem Shifted.keys {m m' : BTreeMap String Int} {δ : String → ℤ} (h : Shifted m m' δ) :
    m'.keys.toFinset = m.keys.toFinset := by
  ext x
  rw [List.mem_toFinset, List.mem_toFinset, mem_keys_iff, mem_keys_iff, h x]
  cases m[x]? with
  | none => simp
  | some v => simp

theorem Shifted.balanceOf {m m' : BTreeMap String Int} {δ : String → ℤ} (h : Shifted m m' δ)
    {x : String} (hx : x ∈ m) : balanceOf m' x = balanceOf m x + δ x := by
  obtain ⟨v, hv⟩ := Option.isSome_iff_exists.mp (Std.ExtTreeMap.mem_iff_isSome_getElem?.mp hx)
  unfold CbclEscrowStage.balanceOf
  rw [h x, hv]
  rfl

/-- An amount on one account. -/
def onAccount (owner : String) (n : ℤ) (x : String) : ℤ := if x = owner then n else 0

/-- Adding to an account shifts that account. -/
theorem add_ok {m m' : BTreeMap String Int} {owner : String} {n : Int}
    (h : add m owner n = .ok m') :
    owner ∈ m ∧ Shifted m m' (onAccount owner n) := by
  unfold add at h
  cases hv : m[owner]? with
  | none => rw [hv] at h; exact nomatch h
  | some v =>
      rw [hv] at h
      obtain ⟨w, hw, hm'⟩ := CbclExcept.bind_ok_iff.mp h
      injection hm' with hm'
      subst hm'
      rw [(checked_eq_some.mp (orOverflow_ok.mp hw)).2]
      refine ⟨Std.ExtTreeMap.mem_iff_isSome_getElem?.mpr (by rw [hv]; rfl), fun x => ?_⟩
      rw [getElem?_insert_eq, onAccount]
      by_cases hx : x = owner
      · rw [if_pos hx, if_pos hx, hx, hv]
        rfl
      · rw [if_neg hx, if_neg hx]
        cases m[x]? with
        | none => rfl
        | some u => rw [Option.map_some, add_zero]

/-- What an operation moves between its owner and its recipient. -/
def moveDelta (n : Node) (x : String) : ℤ :=
  onAccount n.act.signer (-n.amount) x + (n.recipient.map (onAccount · n.amount x)).getD 0

/-- What an operation does to the rights of an account. -/
def rightsDelta (n : Node) (x : String) : ℤ :=
  match n.kind with
  | .increment => onAccount n.act.signer n.amount x
  | .decrement => onAccount n.act.signer (-n.amount) x
  | .transfer => moveDelta n x
  | .headroom => 0

/-- What an operation does to the headroom of an account. -/
def headroomDelta (n : Node) (x : String) : ℤ :=
  match n.kind with
  | .increment => onAccount n.act.signer (-n.amount) x
  | .decrement => onAccount n.act.signer n.amount x
  | .transfer => 0
  | .headroom => moveDelta n x

theorem move_ok {m m' : BTreeMap String Int} {n : Node} (h : move m n = .ok m') :
    Shifted m m' (moveDelta n) := by
  unfold move at h
  obtain ⟨m1, h1, h⟩ := CbclExcept.bind_ok_iff.mp h
  cases hr : n.recipient with
  | none => rw [hr] at h; exact nomatch h
  | some r =>
      rw [hr] at h
      have hshift := (add_ok h1).2.trans (add_ok h).2
      have hdelta : moveDelta n = onAccount n.act.signer (-n.amount) + onAccount r n.amount := by
        funext x
        rw [moveDelta, hr]
        rfl
      rw [hdelta]
      exact hshift

/-- An optional balance map and its successor. -/
def ShiftedOpt (h h' : Option (BTreeMap String Int)) (δ : String → ℤ) : Prop :=
  match h, h' with
  | none, none => True
  | some m, some m' => Shifted m m' δ
  | _, _ => False

theorem ShiftedOpt.refl (h : Option (BTreeMap String Int)) : ShiftedOpt h h 0 := by
  cases h with
  | none => trivial
  | some m => exact Shifted.refl m

theorem ShiftedOpt.trans {h h' h'' : Option (BTreeMap String Int)} {δ δ' : String → ℤ}
    (h₁ : ShiftedOpt h h' δ) (h₂ : ShiftedOpt h' h'' δ') : ShiftedOpt h h'' (δ + δ') := by
  cases h with
  | none =>
      cases h' with
      | some m => exact h₁.elim
      | none =>
          cases h'' with
          | some m => exact h₂.elim
          | none => trivial
  | some m =>
      cases h' with
      | none => exact h₁.elim
      | some m' =>
          cases h'' with
          | none => exact h₂.elim
          | some m'' =>
              have h₁ : Shifted m m' δ := h₁
              exact h₁.trans h₂

theorem mapM_add_ok {h h' : Option (BTreeMap String Int)} {owner : String} {n : Int}
    (hm : h.mapM (m := Except String) (add · owner n) = .ok h') :
    ShiftedOpt h h' (onAccount owner n) := by
  cases h with
  | none =>
      injection hm with hm
      rw [← hm]
      trivial
  | some m =>
      rw [Option.mapM_some] at hm
      cases hadd : add m owner n with
      | error e => rw [hadd] at hm; exact nomatch hm
      | ok m' =>
          rw [hadd] at hm
          injection hm with hm
          rw [← hm]
          exact (add_ok hadd).2

/-- **One operation shifts the balances by its effects.** -/
theorem apply_ok {n : Node} {rights rights' : BTreeMap String Int}
    {headroom headroom' : Option (BTreeMap String Int)}
    (h : n.apply rights headroom = .ok (rights', headroom')) :
    Shifted rights rights' (rightsDelta n) ∧ ShiftedOpt headroom headroom' (headroomDelta n) := by
  unfold Node.apply at h
  unfold rightsDelta headroomDelta
  cases hk : n.kind with
  | increment =>
      rw [hk] at h
      obtain ⟨h1, hh, h⟩ := CbclExcept.bind_ok_iff.mp h
      obtain ⟨r1, hr, h⟩ := CbclExcept.bind_ok_iff.mp h
      injection h with h
      injection h with hr' hh'
      subst hr' hh'
      exact ⟨(add_ok hr).2, mapM_add_ok hh⟩
  | decrement =>
      rw [hk] at h
      obtain ⟨r1, hr, h⟩ := CbclExcept.bind_ok_iff.mp h
      obtain ⟨h1, hh, h⟩ := CbclExcept.bind_ok_iff.mp h
      injection h with h
      injection h with hr' hh'
      subst hr' hh'
      exact ⟨(add_ok hr).2, mapM_add_ok hh⟩
  | transfer =>
      rw [hk] at h
      obtain ⟨r1, hr, h⟩ := CbclExcept.bind_ok_iff.mp h
      injection h with h
      injection h with hr' hh'
      subst hr' hh'
      exact ⟨move_ok hr, ShiftedOpt.refl headroom⟩
  | headroom =>
      rw [hk] at h
      cases headroom with
      | none => exact nomatch h
      | some m =>
          obtain ⟨h1, hh, h⟩ := CbclExcept.bind_ok_iff.mp h
          injection h with h
          injection h with hr' hh'
          subst hr' hh'
          exact ⟨Shifted.refl rights, move_ok hh⟩

/-- The effect of some operations on an account. -/
def sumDelta (delta : Node → String → ℤ) (ns : List Node) (x : String) : ℤ :=
  (ns.map (delta · x)).sum

theorem sumDelta_snoc (delta : Node → String → ℤ) (ns : List Node) (n : Node) :
    sumDelta delta (ns ++ [n]) = sumDelta delta ns + delta n := by
  funext x
  unfold sumDelta
  rw [List.map_append, List.sum_append, Pi.add_apply]
  simp

/-- **The final balances are the initial ones shifted by every operation.** -/
theorem balances_ok {o : Opening} {nodes : BTreeMap String Node}
    {rights : BTreeMap String Int} {headroom : Option (BTreeMap String Int)}
    (h : balances o nodes = .ok (rights, headroom)) :
    Shifted o.initial rights (sumDelta rightsDelta (valuesOf nodes)) ∧
      ShiftedOpt o.headroom headroom (sumDelta headroomDelta (valuesOf nodes)) := by
  unfold balances at h
  refine CbclExcept.foldlM_inv (I := fun done b => Shifted o.initial b.1
    (sumDelta rightsDelta done) ∧ ShiftedOpt o.headroom b.2 (sumDelta headroomDelta done)) ?_ ?_ h
  · rintro done n ⟨r, hd⟩ ⟨r', hd'⟩ - ⟨hr, hh⟩ hstep
    dsimp only at hstep
    cases happly : n.apply r hd with
    | error e => rw [happly] at hstep; exact nomatch hstep
    | ok next =>
        rw [happly] at hstep
        injection hstep with hstep
        subst hstep
        obtain ⟨hr1, hh1⟩ := apply_ok happly
        rw [sumDelta_snoc, sumDelta_snoc]
        exact ⟨hr.trans hr1, ShiftedOpt.trans hh hh1⟩
  · exact ⟨Shifted.refl _, ShiftedOpt.refl _⟩

-- ── The opener ────

theorem number_bounds {x : SExpr} {n : Int} (h : number x = some n) :
    -2 ^ 63 ≤ n ∧ n < 2 ^ 63 := by
  unfold number at h
  split at h
  · injection h with h
    rw [← h]
    exact ⟨Int64.le_toInt _, Int64.toInt_lt _⟩
  · exact nomatch h

/-- Allocations are naturals of 64 bits, no more of them than pairs are listed. -/
theorem allocations_ok {x : SExpr} {m : BTreeMap String Int} (h : allocations x = .ok m) :
    ∃ pairs, x = .list pairs ∧ m.size ≤ pairs.length ∧
      ∀ (k : String) (v : Int), m[k]? = some v → 0 ≤ v ∧ v < 2 ^ 63 := by
  cases x with
  | atom a => exact nomatch h
  | list pairs =>
      cases pairs with
      | nil => exact nomatch h
      | cons p ps =>
          refine ⟨p :: ps, rfl, ?_⟩
          refine CbclExcept.foldlM_inv (I := fun done (m : BTreeMap String Int) =>
            m.size ≤ done.length ∧ ∀ (k : String) (v : Int), m[k]? = some v → 0 ≤ v ∧ v < 2 ^ 63)
            ?_ ?_ h
          · intro done pair b b' _ hI hstep
            unfold allocation at hstep
            split at hstep
            · split at hstep
              · exact nomatch hstep
              · split at hstep
                · exact nomatch hstep
                · rename_i who amount a _ _ n hn
                  split at hstep
                  · exact nomatch hstep
                  · injection hstep with hstep
                    subst hstep
                    obtain ⟨hnum, hnat⟩ := Option.filter_eq_some_iff.mp hn
                    refine ⟨?_, fun k v hk => ?_⟩
                    · rw [List.length_append, List.length_singleton]
                      exact Std.ExtTreeMap.size_insert_le.trans (Nat.add_le_add_right hI.1 1)
                    · rw [getElem?_insert_eq] at hk
                      split at hk
                      · injection hk with hk
                        rw [← hk]
                        exact ⟨of_decide_eq_true hnat, (number_bounds hnum).2⟩
                      · exact hI.2 k v hk
            · exact nomatch hstep
          · refine ⟨Nat.le_of_eq Std.ExtTreeMap.size_empty, fun k v hk => ?_⟩
            rw [Std.ExtTreeMap.getElem?_empty] at hk
            exact nomatch hk

theorem readAllocations_ok {op : ResourceFact} {key absent invalid : String}
    {m : BTreeMap String Int} (h : readAllocations op key absent invalid = .ok m) :
    ∃ x, op.fields[key]? = some x ∧ allocations x = .ok m := by
  unfold readAllocations at h
  split at h
  · exact nomatch h
  · rename_i x hx
    split at h
    · exact nomatch h
    · rename_i m' hm'
      injection h with h
      rw [← h]
      exact ⟨x, hx, hm'⟩

/-- What an opening fixes: natural allocations to the same accounts, which add up to the
    ceiling if there is one. -/
structure Opened (c : CounterRule) (o : Opening) : Prop where
  initial : ∃ x, o.op.fields[c.initial_key]? = some x ∧ allocations x = .ok o.initial
  headroom : ∀ h, o.headroom = some h → h.keys = o.initial.keys ∧ Natural h ∧
    ∀ (k : String) (v : Int), h[k]? = some v → v < 2 ^ 63
  ceiling : ∀ k, c.ceiling = some k → ∃ h, o.headroom = some h ∧
    sumOf o.initial + c.floor.toInt + sumOf h = k.toInt

theorem Opened.natural {c : CounterRule} {o : Opening} (h : Opened c o) : Natural o.initial := by
  obtain ⟨x, -, hx⟩ := h.initial
  obtain ⟨-, -, -, hval⟩ := allocations_ok hx
  exact fun k v hk => (hval k v hk).1

theorem readHeadroom_ok {c : CounterRule} {op : ResourceFact} {initial : BTreeMap String Int}
    {headroom : Option (BTreeMap String Int)} (h : readHeadroom c op initial = .ok headroom) :
    ∀ m, headroom = some m → m.keys = initial.keys ∧ Natural m ∧
      ∀ (k : String) (v : Int), m[k]? = some v → v < 2 ^ 63 := by
  unfold readHeadroom at h
  split at h
  · injection h with h
    subst h
    exact fun m hm => nomatch hm
  · split at h
    · exact nomatch h
    · rename_i m hm
      split at h
      · rename_i hkeys
        injection h with h
        subst h
        intro m' hm'
        injection hm' with hm'
        subst hm'
        obtain ⟨x, -, hx⟩ := readAllocations_ok hm
        obtain ⟨-, -, -, hval⟩ := allocations_ok hx
        exact ⟨hkeys, fun k v hk => (hval k v hk).1, fun k v hk => (hval k v hk).2⟩
      · exact nomatch h

theorem checkCeiling_ok {c : CounterRule} {op : ResourceFact} {initial : BTreeMap String Int}
    {headroom : Option (BTreeMap String Int)}
    (h : checkCeiling c op initial headroom = .ok ()) :
    ∀ k, c.ceiling = some k → ∃ m, headroom = some m ∧
      sumOf initial + c.floor.toInt + sumOf m = k.toInt := by
  intro k hk
  unfold checkCeiling at h
  split at h
  · exact nomatch h
  · rename_i initial_total hinit
    obtain ⟨t, ht, hsum⟩ := Option.bind_eq_some_iff.mp hinit
    split at h
    · exact nomatch h
    · rename_i hceil
      rw [hk, Option.any_some, decide_eq_true_eq, not_or, not_not] at hceil
      obtain ⟨w, hw, hadd⟩ := Option.bind_eq_some_iff.mp hceil.2
      obtain ⟨m, hm, htotal⟩ := Option.bind_eq_some_iff.mp hw
      refine ⟨m, hm, ?_⟩
      rw [(checked_eq_some.mp hadd).2, (checked_eq_some.mp hsum).2, total_eq ht, total_eq htotal]
      ring

theorem openWith_ok {c : CounterRule} {op root : ResourceFact} {o : Opening}
    (h : openWith c op root = .ok o) : o.op = op ∧ Opened c o := by
  unfold openWith at h
  obtain ⟨⟨members, issuers⟩, -, h⟩ := CbclExcept.bind_ok_iff.mp h
  dsimp only at h
  split at h
  · exact nomatch h
  · split at h
    · exact nomatch h
    · rename_i initial hinit
      split at h
      · exact nomatch h
      · obtain ⟨headroom, hhead, h⟩ := CbclExcept.bind_ok_iff.mp h
        obtain ⟨_, hceil, h⟩ := CbclExcept.bind_ok_iff.mp h
        injection h with h
        subst h
        exact ⟨rfl, readAllocations_ok hinit, readHeadroom_ok hhead, checkCeiling_ok hceil⟩

/-- **What opening a counter establishes.** -/
theorem openCounter_ok {c : CounterRule} {all : Facts} {present : String → Bool} {o : Opening}
    (h : openCounter c all present = .ok o) : Opened c o := by
  obtain ⟨op, -, h⟩ := CbclExcept.bind_ok_iff.mp h
  obtain ⟨root, -, h⟩ := CbclExcept.bind_ok_iff.mp h
  exact (openWith_ok h).2

-- ── Operations and links ────

/-- An operation that passed its checks. -/
structure Sound (o : Opening) (n : Node) : Prop where
  owner : n.act.signer ∈ o.initial
  positive : 0 < n.amount
  small : n.amount < 2 ^ 63
  moves : n.kind = .transfer ∨ n.kind = .headroom →
    ∃ r, n.recipient = some r ∧ r ∈ o.initial ∧ r ≠ n.act.signer

theorem checkNode_ok {c : CounterRule} {o : Opening} {a : ResourceFact} {n : Node}
    (h : checkNode c o a = .ok n) : n.act = a ∧ Sound o n := by
  unfold checkNode at h
  split at h
  · exact nomatch h
  · rename_i hforeign
    rw [not_or, not_or, not_not, not_not, not_not] at hforeign
    split at h
    · exact nomatch h
    · split at h
      · exact nomatch h
      · rename_i kind amount recipient hop
        split at h
        · exact nomatch h
        · rename_i amt hamt
          obtain ⟨hnum, hpos⟩ := Option.filter_eq_some_iff.mp hamt
          split at h
          · exact nomatch h
          · obtain ⟨r, hr, h⟩ := CbclExcept.bind_ok_iff.mp h
            split at h
            · exact nomatch h
            · obtain ⟨deps, -, h⟩ := CbclExcept.bind_ok_iff.mp h
              injection h with h
              subst h
              refine ⟨rfl, hforeign.2.2, of_decide_eq_true hpos, (number_bounds hnum).2, ?_⟩
              intro hkind
              unfold checkRecipient at hr
              rw [if_pos hkind] at hr
              split at hr
              · rename_i r' hr'
                injection hr with hr
                obtain ⟨-, hin⟩ := Option.filter_eq_some_iff.mp hr'
                exact ⟨r', hr.symm, of_decide_eq_true hin⟩
              · exact nomatch hr
            · exact nomatch h

/-- What `collect` files: checked operations under their addresses, each the only successor
    of its owner's previous link. -/
structure Filed (c : CounterRule) (o : Opening) (ops : Operations) : Prop where
  keyed : Keyed ops.nodes
  checked : ∀ (a : String) (n : Node), ops.nodes[a]? = some n → checkNode c o n.act = .ok n
  child : ∀ (a : String) (n : Node), ops.nodes[a]? = some n →
    ops.children[(n.act.signer, n.prev)]? = some a

theorem Filed.addNode {c : CounterRule} {o : Opening} {ops ops' : Operations}
    (h : Filed c o ops) {a : ResourceFact} (hadd : addNode c o ops a = .ok ops') :
    Filed c o ops' := by
  unfold CbclEscrow.addNode at hadd
  obtain ⟨n, hn, hadd⟩ := CbclExcept.bind_ok_iff.mp hadd
  obtain ⟨hact, -⟩ := checkNode_ok hn
  split at hadd
  · exact nomatch hadd
  · rename_i hfresh
    injection hadd with hadd
    subst hadd
    have hcases : ∀ (b : String) (m : Node), (ops.nodes.insert a.address n)[b]? = some m →
        (b = a.address ∧ m = n) ∨ (b ≠ a.address ∧ ops.nodes[b]? = some m) := by
      intro b m hm
      rw [getElem?_insert_eq] at hm
      split at hm
      · rename_i hb
        injection hm with hm
        exact Or.inl ⟨hb, hm.symm⟩
      · rename_i hb
        exact Or.inr ⟨hb, hm⟩
    refine ⟨fun b m hm => ?_, fun b m hm => ?_, fun b m hm => ?_⟩
    · rcases hcases b m hm with ⟨rfl, rfl⟩ | ⟨-, hold⟩
      · rw [hact]
      · exact h.keyed b m hold
    · rcases hcases b m hm with ⟨rfl, rfl⟩ | ⟨-, hold⟩
      · rw [hact]
        exact hn
      · exact h.checked b m hold
    · show (ops.children.insert (a.signer, n.prev) a.address)[(m.act.signer, m.prev)]? = some b
      rw [getElem?_insert_eq]
      rcases hcases b m hm with ⟨rfl, rfl⟩ | ⟨-, hold⟩
      · rw [hact, if_pos rfl]
      · rw [if_neg]
        · exact h.child b m hold
        · intro heq
          have hchild := h.child b m hold
          rw [heq, hfresh] at hchild
          exact nomatch hchild

/-- **What collecting establishes.** -/
theorem collect_ok {c : CounterRule} {o : Opening} {all : Facts} {ops : Operations}
    (h : collect c o all = .ok ops) : Filed c o ops := by
  unfold collect at h
  refine CbclExcept.foldlM_inv (I := fun _ ops => Filed c o ops)
    (fun _ a b b' _ hI hstep => hI.addNode hstep) ?_ h
  refine ⟨fun a n hn => ?_, fun a n hn => ?_, fun a n hn => ?_⟩
  all_goals
    rw [Std.ExtTreeMap.getElem?_empty] at hn
    exact nomatch hn

/-- Two operations of an owner do not share their previous link. -/
theorem Filed.unique {c : CounterRule} {o : Opening} {ops : Operations} (h : Filed c o ops)
    {a b : String} {n m : Node} (hn : ops.nodes[a]? = some n) (hm : ops.nodes[b]? = some m)
    (howner : n.act.signer = m.act.signer) (hprev : n.prev = m.prev) : a = b := by
  have ha := h.child a n hn
  rw [howner, hprev, h.child b m hm] at ha
  exact (Option.some.inj ha).symm

theorem Filed.sound {c : CounterRule} {o : Opening} {ops : Operations} (h : Filed c o ops)
    {a : String} {n : Node} (hn : ops.nodes[a]? = some n) : Sound o n :=
  (checkNode_ok (h.checked a n hn)).2

/-- A link that is in place: to the opener, or to an operation — one's own, if it is the
    previous link. -/
def LinkOk (opener : String) (nodes : BTreeMap String Node) (n : Node) (dep : String) : Prop :=
  dep = opener ∨ ∃ parent, nodes[dep]? = some parent ∧
    (dep = n.prev → parent.act.signer = n.act.signer)

/-- All links of an operation are in place. -/
def Linked (opener : String) (nodes : BTreeMap String Node) (n : Node) : Prop :=
  ∀ dep ∈ n.prev :: n.deps, LinkOk opener nodes n dep

theorem checkLink_ok {all : Facts} {present : String → Bool} {opener : String}
    {nodes : BTreeMap String Node} {n : Node} {missing missing' : BTreeSet String} {dep : String}
    (h : checkLink all present opener nodes n missing dep = .ok missing') :
    (LinkOk opener nodes n dep ∧ missing' = missing) ∨ missing' = missing.insert dep := by
  unfold checkLink at h
  split at h
  · rename_i hop
    injection h with h
    exact Or.inl ⟨Or.inl hop, h.symm⟩
  · split at h
    · rename_i parent hp
      split at h
      · exact nomatch h
      · rename_i howner
        injection h with h
        refine Or.inl ⟨Or.inr ⟨parent, hp, fun hprev => ?_⟩, h.symm⟩
        by_contra hne
        exact howner ⟨hprev, hne⟩
    · split at h
      · exact nomatch h
      · injection h with h
        exact Or.inr h.symm

/-- **What checking the links establishes.** -/
theorem checkLinks_ok {all : Facts} {present : String → Bool} {opener : String}
    {nodes : BTreeMap String Node} (h : checkLinks all present opener nodes = .ok ()) :
    ∀ (a : String) (n : Node), nodes[a]? = some n → Linked opener nodes n := by
  unfold checkLinks at h
  obtain ⟨missing, hfold, h⟩ := CbclExcept.bind_ok_iff.mp h
  -- evidence once missing stays missing
  have hinner : ∀ n (acc acc' : BTreeSet String),
      (n.prev :: n.deps).foldlM (checkLink all present opener nodes n) acc = .ok acc' →
        (∀ d, d ∈ acc → d ∈ acc') ∧ (acc' = ∅ → Linked opener nodes n) := by
    intro n acc acc' hrun
    have hI := CbclExcept.foldlM_inv (I := fun done (b : BTreeSet String) =>
      (∀ d, d ∈ acc → d ∈ b) ∧ (b = ∅ → ∀ dep ∈ done, LinkOk opener nodes n dep)) ?_ ?_ hrun
    · exact hI
    · intro done dep b b' _ hI hstep
      rcases checkLink_ok hstep with ⟨hlink, rfl⟩ | rfl
      · refine ⟨hI.1, fun he d hd => ?_⟩
        rcases List.mem_append.mp hd with hd | hd
        · exact hI.2 he d hd
        · rw [List.mem_singleton.mp hd]
          exact hlink
      · refine ⟨fun d hd => (mem_insert_iff _ _ _).mpr (Or.inr (hI.1 d hd)), fun he => ?_⟩
        have hin : dep ∈ b.insert dep := (mem_insert_iff _ _ _).mpr (Or.inl rfl)
        rw [he] at hin
        exact absurd hin Std.ExtTreeSet.not_mem_empty
    · exact ⟨fun d hd => hd, fun _ dep hd => nomatch hd⟩
  have houter := CbclExcept.foldlM_inv (I := fun done (b : BTreeSet String) =>
    b = ∅ → ∀ n ∈ done, Linked opener nodes n) ?_ ?_ hfold
  · split at h
    · rename_i hempty
      intro a n hn
      exact houter hempty n ((mem_valuesOf_iff nodes n).mpr ⟨a, hn⟩)
    · exact nomatch h
  · intro done n b b' _ hI hstep he m hm
    obtain ⟨hmono, hlinked⟩ := hinner n b b' hstep
    rcases List.mem_append.mp hm with hm | hm
    · refine hI ?_ m hm
      rw [Std.ExtTreeSet.eq_empty_iff_forall_not_mem]
      intro d hd
      have hd' := hmono d hd
      rw [he] at hd'
      exact Std.ExtTreeSet.not_mem_empty hd'
    · rw [List.mem_singleton.mp hm]
      exact hlinked he
  · intro _ n hn
    exact nomatch hn

end CbclEscrowStage
