import Cbcl.ReplicaRunProofs

/-!
# Derived charges

A replica keeps, beside its signatures, what each version has been charged so far.  The entry is
overwritten by a signature and by a release with a value computed before the event is written, put
back when a group is rolled back, and rebuilt by replay.  In every state of every run it is what
the signed history says: one entry for each version of a signed operation, holding the costs of the
operations of that version that are signed and not released.
-/

namespace CbclQuorum

open CbclMessage CbclAct CbclTreeMap CbclExcept CbclStateShape
open CbclEscrow (Kind checked)

theorem ensure_error_iff {p : Prop} [Decidable p] {reason e : String} :
    ensure p reason = .error e ↔ ¬ p ∧ reason = e := by
  unfold ensure
  by_cases h : p
  · simp [h]
  · simp [h]

-- ── Totals ────

namespace Resources

/-- The sum of resources, unbounded. -/
def total (bs : List Resources) : Resources :=
  ⟨(bs.map (·.rights)).sum, (bs.map (·.headroom)).sum⟩

theorem nonnegative_iff {a : Resources} : a.nonnegative = true ↔ 0 ≤ a.rights ∧ 0 ≤ a.headroom := by
  unfold nonnegative
  rw [Bool.and_eq_true, decide_eq_true_iff, decide_eq_true_iff]

theorem total_perm {as bs : List Resources} (h : as.Perm bs) : total as = total bs := by
  unfold total
  rw [(h.map _).sum_eq, (h.map (·.headroom)).sum_eq]

theorem total_cons (a : Resources) (bs : List Resources) :
    total (a :: bs) = ⟨a.rights + (total bs).rights, a.headroom + (total bs).headroom⟩ := by
  unfold total
  rw [List.map_cons, List.map_cons, List.sum_cons, List.sum_cons]

/-- A total of nonnegative resources is nonnegative. -/
theorem total_nonnegative {bs : List Resources} (h : ∀ b ∈ bs, b.nonnegative = true) :
    (total bs).nonnegative = true := by
  rw [nonnegative_iff]
  constructor
  · refine List.sum_nonneg fun x hx => ?_
    obtain ⟨b, hb, rfl⟩ := List.mem_map.mp hx
    exact (nonnegative_iff.mp (h b hb)).1
  · refine List.sum_nonneg fun x hx => ?_
    obtain ⟨b, hb, rfl⟩ := List.mem_map.mp hx
    exact (nonnegative_iff.mp (h b hb)).2

/-- Resources that were built are the ones asked for. -/
theorem build_ok {rights headroom : Int} {b : Resources} (h : build rights headroom = .ok b) :
    b = ⟨rights, headroom⟩ := by
  unfold build checked at h
  split at h
  · exact nomatch h
  · rename_i x hx
    split at h
    · exact nomatch h
    · rename_i y hy
      rw [← Except.ok.inj h]
      rw [Option.ite_none_right_eq_some] at hx hy
      rw [Option.some.inj hx.2, Option.some.inj hy.2]

theorem build_error {rights headroom : Int} {reason : String}
    (h : build rights headroom = .error reason) :
    reason = "rights overflow" ∨ reason = "headroom overflow" := by
  unfold build at h
  split at h
  · exact .inl (Except.error.inj h).symm
  · split at h
    · exact .inr (Except.error.inj h).symm
    · exact nomatch h

end Resources

-- ── Charges and the signed history ────

/-- What an operation still costs a version: nothing where it was released or belongs to another. -/
def State.outstanding (s : State) (epoch id : String) : Option Resources :=
  if id ∈ s.released then none
  else ((s.operations[id]?).filter (·.epoch = epoch)).map (·.cost)

/-- The costs of the operations of a version that are signed and not released. -/
def State.spent (s : State) (epoch : String) : Resources :=
  .total (s.signed.toList.filterMap (s.outstanding epoch))

/-- The charges are those of the signed history. -/
structure State.Charged (s : State) : Prop where
  registered : ∀ id ∈ s.signed, ∃ op : Operation, s.operations[id]? = some op
  released : ∀ id ∈ s.released, id ∈ s.signed
  costs : ∀ (id : String) (op : Operation), s.operations[id]? = some op →
    op.cost.nonnegative = true
  charged : ∀ id ∈ s.signed, ∀ op : Operation, s.operations[id]? = some op →
    s.charges[op.epoch]? = some (s.spent op.epoch)
  uncharged : ∀ epoch : String,
    (∀ id ∈ s.signed, ∀ op : Operation, s.operations[id]? = some op → op.epoch ≠ epoch) →
      s.charges[epoch]? = none

section Charges

variable {s s' : State}

theorem outstanding_some_iff {epoch id : String} {b : Resources} :
    s.outstanding epoch id = some b ↔
      id ∉ s.released ∧ ∃ op : Operation, s.operations[id]? = some op ∧ op.epoch = epoch ∧
        op.cost = b := by
  unfold State.outstanding
  by_cases hreleased : id ∈ s.released
  · rw [if_pos hreleased]
    exact ⟨(fun h => nomatch h), fun h => absurd hreleased h.1⟩
  · rw [if_neg hreleased, Option.map_eq_some_iff]
    constructor
    · rintro ⟨op, hop, hcost⟩
      obtain ⟨hop, hepoch⟩ := Option.filter_eq_some_iff.mp hop
      exact ⟨hreleased, op, hop, of_decide_eq_true hepoch, hcost⟩
    · rintro ⟨-, op, hop, hepoch, hcost⟩
      exact ⟨op, Option.filter_eq_some_iff.mpr ⟨hop, decide_eq_true hepoch⟩, hcost⟩

theorem outstanding_other {epoch id : String} {op : Operation}
    (hop : s.operations[id]? = some op) (hepoch : op.epoch ≠ epoch) :
    s.outstanding epoch id = none := by
  cases hb : s.outstanding epoch id with
  | none => rfl
  | some b =>
      obtain ⟨-, op', hop', hepoch', -⟩ := outstanding_some_iff.mp hb
      rw [hop] at hop'
      rw [Option.some.inj hop'] at hepoch
      exact absurd hepoch' hepoch

/-- What is outstanding at a version no signed operation belongs to. -/
theorem spent_eq_zero {epoch : String}
    (h : ∀ id ∈ s.signed, ∀ op : Operation, s.operations[id]? = some op → op.epoch ≠ epoch) :
    s.spent epoch = .zero := by
  have hnil : s.signed.toList.filterMap (s.outstanding epoch) = [] := by
    refine List.filterMap_eq_nil_iff.mpr fun id hid => ?_
    cases hout : s.outstanding epoch id with
    | none => rfl
    | some b =>
        obtain ⟨-, op, hop, hepoch, -⟩ := outstanding_some_iff.mp hout
        exact absurd hepoch (h id (Std.ExtTreeSet.mem_toList.mp hid) op hop)
  unfold State.spent
  rw [hnil]
  rfl

/-- The charge of a version is what is outstanding at it, with or without an entry. -/
theorem State.Charged.chargeOf {r : Replica} (h : r.state.Charged) (epoch : String) :
    r.chargeOf epoch = r.state.spent epoch := by
  unfold Replica.chargeOf
  by_cases hany : ∃ id ∈ r.state.signed, ∃ op : Operation,
      r.state.operations[id]? = some op ∧ op.epoch = epoch
  · obtain ⟨id, hid, op, hop, rfl⟩ := hany
    rw [h.charged id hid op hop]
    rfl
  · have hnone : ∀ id ∈ r.state.signed, ∀ op : Operation,
        r.state.operations[id]? = some op → op.epoch ≠ epoch :=
      fun id hid op hop hepoch => hany ⟨id, hid, op, hop, hepoch⟩
    rw [h.uncharged epoch hnone, spent_eq_zero hnone]
    rfl

theorem State.Charged.spent_nonnegative (h : s.Charged) (epoch : String) :
    (s.spent epoch).nonnegative = true := by
  refine Resources.total_nonnegative fun b hb => ?_
  obtain ⟨id, -, hout⟩ := List.mem_filterMap.mp hb
  obtain ⟨-, op, hop, -, rfl⟩ := outstanding_some_iff.mp hout
  exact h.costs id op hop

theorem spent_of_perm {epoch : String} {ids : List String} (h : s.signed.toList.Perm ids) :
    s.spent epoch = .total (ids.filterMap (s.outstanding epoch)) :=
  Resources.total_perm (h.filterMap _)

/-- Listing a set with one more element. -/
theorem toList_insert_perm {κ : Type} [Ord κ] [Std.TransOrd κ] [Std.LawfulEqOrd κ] [DecidableEq κ]
    {keys : BTreeSet κ} {k : κ} (h : k ∉ keys) :
    (keys.insert k).toList.Perm (k :: keys.toList) := by
  have hfresh : k ∉ keys.toList := fun hk => h (Std.ExtTreeSet.mem_toList.mp hk)
  refine (List.perm_ext_iff_of_nodup (nodup_toList _)
    (List.nodup_cons.mpr ⟨hfresh, nodup_toList _⟩)).mpr fun x => ?_
  rw [Std.ExtTreeSet.mem_toList, Std.ExtTreeSet.mem_insert, List.mem_cons,
    Std.ExtTreeSet.mem_toList, Std.LawfulEqOrd.compare_eq_iff_eq]
  exact or_congr_left ⟨Eq.symm, Eq.symm⟩

-- ── One step ────

/-- A signature adds the cost of its operation to the operation's version. -/
theorem spent_sign {id : String} {op : Operation} (hfresh : id ∉ s.signed)
    (hop : s.operations[id]? = some op) (hunreleased : id ∉ s.released) (charge : Resources)
    (epoch : String) :
    (s.applyUpdate (.sign id op.epoch charge)).spent epoch =
      if op.epoch = epoch then
        ⟨op.cost.rights + (s.spent epoch).rights, op.cost.headroom + (s.spent epoch).headroom⟩
      else s.spent epoch := by
  have hperm : (s.applyUpdate (.sign id op.epoch charge)).signed.toList.Perm
      (id :: s.signed.toList) := toList_insert_perm hfresh
  rw [spent_of_perm hperm]
  show Resources.total ((id :: s.signed.toList).filterMap (s.outstanding epoch)) = _
  by_cases hepoch : op.epoch = epoch
  · have hout : s.outstanding epoch id = some op.cost :=
      outstanding_some_iff.mpr ⟨hunreleased, op, hop, hepoch, rfl⟩
    rw [List.filterMap_cons_some hout, Resources.total_cons, if_pos hepoch]
    rfl
  · have hout := outstanding_other hop hepoch
    rw [List.filterMap_cons_none hout, if_neg hepoch]
    rfl

/-- A release takes the cost of its operation back from the operation's version. -/
theorem spent_release {id : String} {op : Operation} (hsigned : id ∈ s.signed)
    (hop : s.operations[id]? = some op) (hunreleased : id ∉ s.released) (charge : Resources)
    (epoch : String) :
    s.spent epoch =
      if op.epoch = epoch then
        ⟨op.cost.rights + ((s.applyUpdate (.release id op.epoch charge)).spent epoch).rights,
          op.cost.headroom + ((s.applyUpdate (.release id op.epoch charge)).spent epoch).headroom⟩
      else (s.applyUpdate (.release id op.epoch charge)).spent epoch := by
  have hmem : id ∈ s.signed.toList := Std.ExtTreeSet.mem_toList.mpr hsigned
  have hperm : s.signed.toList.Perm (id :: s.signed.toList.erase id) := List.perm_cons_erase hmem
  have hother : id ∉ s.signed.toList.erase id := (nodup_toList s.signed).not_mem_erase
  have hnone : (s.applyUpdate (.release id op.epoch charge)).outstanding epoch id = none := by
    unfold State.outstanding
    exact if_pos (Std.ExtTreeSet.mem_insert_self)
  have hafter : (s.applyUpdate (.release id op.epoch charge)).spent epoch =
      .total ((s.signed.toList.erase id).filterMap (s.outstanding epoch)) := by
    rw [spent_of_perm (s := s.applyUpdate (.release id op.epoch charge)) hperm,
      List.filterMap_cons_none hnone]
    refine congrArg Resources.total (List.filterMap_congr fun x hx => ?_)
    have hne : id ≠ x := fun heq => hother (heq ▸ hx)
    have hrel : x ∈ s.released.insert id ↔ x ∈ s.released := by
      rw [Std.ExtTreeSet.mem_insert, Std.LawfulEqOrd.compare_eq_iff_eq]
      exact or_iff_right hne
    unfold State.outstanding
    by_cases hx : x ∈ s.released
    · rw [if_pos hx]
      exact if_pos (hrel.mpr hx)
    · rw [if_neg hx]
      exact if_neg fun h => hx (hrel.mp h)
  rw [hafter, spent_of_perm hperm]
  by_cases hepoch : op.epoch = epoch
  · have hout : s.outstanding epoch id = some op.cost :=
      outstanding_some_iff.mpr ⟨hunreleased, op, hop, hepoch, rfl⟩
    rw [List.filterMap_cons_some hout, Resources.total_cons, if_pos hepoch]
  · have hout := outstanding_other hop hepoch
    rw [List.filterMap_cons_none hout, if_neg hepoch]

/-- What a release writes is what is outstanding after it. -/
theorem charge_of_release {id : String} {op : Operation} {charge : Resources}
    (hsigned : id ∈ s.signed) (hop : s.operations[id]? = some op) (hunreleased : id ∉ s.released)
    (hcharge : (s.spent op.epoch).sub op.cost = .ok charge) :
    charge = (s.applyUpdate (.release id op.epoch charge)).spent op.epoch := by
  refine (Resources.build_ok hcharge).trans ?_
  rw [spent_release hsigned hop hunreleased charge, if_pos rfl]
  simp only [add_sub_cancel_left]

/-- An operation that was read costs nothing negative. -/
theorem cost_nonnegative {r : Replica} {a : Act} {op : Operation} (h : r.operation a = .ok op) :
    op.cost.nonnegative = true := by
  obtain ⟨m, -, hread⟩ := (operationOk_of_operation h).reads
  obtain ⟨kind, key, recipient, n, payee, -, hn, -, hcost, -⟩ := (readsAs_of_readOperation hread).amounts
  have hpos : 0 < n := by
    unfold amountOf at hn
    split at hn
    · split at hn
      · rename_i hpos
        rw [← Except.ok.inj hn]
        exact hpos
      · exact nomatch hn
    · exact nomatch hn
  rw [hcost, Resources.nonnegative_iff]
  cases kind with
  | increment =>
      refine ⟨Int.le_refl 0, ?_⟩
      show (0 : Int) ≤ if _ then n else 0
      split
      · exact hpos.le
      · exact Int.le_refl 0
  | decrement => exact ⟨hpos.le, Int.le_refl 0⟩
  | transfer => exact ⟨hpos.le, Int.le_refl 0⟩
  | headroom => exact ⟨Int.le_refl 0, hpos.le⟩

/-- What a signature writes is the charge so far and the cost of its operation. -/
theorem charge_of_budgetOp {r : Replica} {id : String} {op : Operation} {charge : Resources}
    (h : r.budgetOp id op = .ok charge) : (r.chargeOf op.epoch).add op.cost = .ok charge := by
  unfold Replica.budgetOp at h
  obtain ⟨epoch, -, h⟩ := bind_ok_iff.mp h
  obtain ⟨⟨⟩, -, h⟩ := bind_ok_iff.mp h
  split at h
  · unfold Replica.ownedBudget at h
    obtain ⟨⟨⟩, -, h⟩ := bind_ok_iff.mp h
    obtain ⟨inside, -, h⟩ := bind_ok_iff.mp h
    obtain ⟨⟨⟩, -, h⟩ := bind_ok_iff.mp h
    obtain ⟨⟨⟩, -, h⟩ := bind_ok_iff.mp h
    obtain ⟨⟨⟩, -, h⟩ := bind_ok_iff.mp h
    exact h
  · unfold Replica.concurrentBudget at h
    obtain ⟨⟨⟩, -, h⟩ := bind_ok_iff.mp h
    obtain ⟨⟨⟩, -, h⟩ := bind_ok_iff.mp h
    obtain ⟨used, hused, h⟩ := bind_ok_iff.mp h
    obtain ⟨⟨⟩, -, h⟩ := bind_ok_iff.mp h
    rw [← Except.ok.inj h]
    exact hused

/-- The charges stay those of the signed history when an operation is registered. -/
theorem State.Charged.candidate (h : s.Charged) {id : String} {op : Operation}
    (hfresh : s.operations[id]? = none) (hcost : op.cost.nonnegative = true) :
    (s.applyUpdate (.candidate id op)).Charged := by
  have hother : ∀ x ∈ s.signed, (s.operations.insert id op)[x]? = s.operations[x]? := by
    intro x hx
    obtain ⟨op', hop'⟩ := h.registered x hx
    rw [getElem?_insert_eq, if_neg]
    rintro rfl
    exact nomatch hfresh.symm.trans hop'
  have hspent : ∀ epoch : String, (s.applyUpdate (.candidate id op)).spent epoch = s.spent epoch := by
    intro epoch
    refine congrArg Resources.total (List.filterMap_congr fun x hx => ?_)
    show (if x ∈ s.released then none
      else (((s.operations.insert id op)[x]?).filter (·.epoch = epoch)).map (·.cost)) = _
    rw [hother x (Std.ExtTreeSet.mem_toList.mp hx)]
    rfl
  exact {
    registered := fun x hx => by
      obtain ⟨op', hop'⟩ := h.registered x hx
      exact ⟨op', (hother x hx).trans hop'⟩
    released := h.released
    costs := fun x op' hop' => by
      have hget : (s.operations.insert id op)[x]? = some op' := hop'
      rw [getElem?_insert_eq] at hget
      split at hget
      · rw [← Option.some.inj hget]
        exact hcost
      · exact h.costs x op' hget
    charged := fun x hx op' hop' => by
      rw [hspent]
      exact h.charged x hx op' ((hother x hx).symm.trans hop')
    uncharged := fun epoch hnone =>
      h.uncharged epoch fun x hx op' hop' => hnone x hx op' ((hother x hx).trans hop') }

/-- The charges follow the signed history through a signature. -/
theorem State.Charged.sign (h : s.Charged) {id : String} {op : Operation} {charge : Resources}
    (hfresh : id ∉ s.signed) (hop : s.operations[id]? = some op)
    (hcharge : (s.spent op.epoch).add op.cost = .ok charge) :
    (s.applyUpdate (.sign id op.epoch charge)).Charged := by
  have hunreleased : id ∉ s.released := fun hr => hfresh (h.released id hr)
  have hspent := spent_sign hfresh hop hunreleased charge
  have hmem : ∀ x : String, x ∈ s.signed.insert id ↔ x = id ∨ x ∈ s.signed := fun x => by
    rw [Std.ExtTreeSet.mem_insert, Std.LawfulEqOrd.compare_eq_iff_eq]
    exact or_congr_left eq_comm
  have hvalue : charge = (s.applyUpdate (.sign id op.epoch charge)).spent op.epoch := by
    rw [hspent, if_pos rfl, Resources.build_ok hcharge, Int.add_comm, Int.add_comm op.cost.headroom]
  have hentry : ∀ epoch : String, (s.applyUpdate (.sign id op.epoch charge)).charges[epoch]? =
      if epoch = op.epoch then some charge else s.charges[epoch]? := fun epoch =>
    getElem?_insert_eq _ _ _ _
  exact {
    registered := fun x hx => ((hmem x).mp hx).elim (fun heq => ⟨op, heq ▸ hop⟩) (h.registered x)
    released := fun x hx => (hmem x).mpr (.inr (h.released x hx))
    costs := h.costs
    charged := fun x hx op' hop' => by
      rw [hentry]
      by_cases hepoch : op.epoch = op'.epoch
      · rw [if_pos hepoch.symm, ← hepoch, ← hvalue]
      · rw [if_neg (Ne.symm hepoch), hspent, if_neg hepoch]
        rcases (hmem x).mp hx with rfl | hx
        · have hsame : op' = op := Option.some.inj (Eq.symm hop' |>.trans hop)
          exact absurd (congrArg Operation.epoch hsame.symm) hepoch
        · exact h.charged x hx op' hop'
    uncharged := fun epoch hnone => by
      rw [hentry, if_neg (hnone id ((hmem id).mpr (.inl rfl)) op hop).symm]
      exact h.uncharged epoch fun x hx => hnone x ((hmem x).mpr (.inr hx)) }

/-- The charges follow the signed history through a release. -/
theorem State.Charged.release (h : s.Charged) {id : String} {op : Operation} {charge : Resources}
    (hfresh : id ∉ s.released) (hsigned : id ∈ s.signed) (hop : s.operations[id]? = some op)
    (hcharge : (s.spent op.epoch).sub op.cost = .ok charge) :
    (s.applyUpdate (.release id op.epoch charge)).Charged := by
  have hspent := spent_release hsigned hop hfresh charge
  have hvalue := charge_of_release hsigned hop hfresh hcharge
  have hentry : ∀ epoch : String, (s.applyUpdate (.release id op.epoch charge)).charges[epoch]? =
      if epoch = op.epoch then some charge else s.charges[epoch]? := fun epoch =>
    getElem?_insert_eq _ _ _ _
  exact {
    registered := h.registered
    released := fun x hx => by
      have hx : x ∈ s.released.insert id := hx
      rw [Std.ExtTreeSet.mem_insert, Std.LawfulEqOrd.compare_eq_iff_eq] at hx
      rcases hx with rfl | hx
      · exact hsigned
      · exact h.released x hx
    costs := h.costs
    charged := fun x hx op' hop' => by
      rw [hentry]
      by_cases hepoch : op.epoch = op'.epoch
      · rw [if_pos hepoch.symm, ← hepoch, ← hvalue]
      · rw [if_neg (Ne.symm hepoch), h.charged x hx op' hop', hspent, if_neg hepoch]
    uncharged := fun epoch hnone => by
      rw [hentry, if_neg (hnone id hsigned op hop).symm]
      exact h.uncharged epoch hnone }

end Charges

-- ── Every run ────

section Runs

variable {auth : Authentication} {r : Replica}

/-- **One step**: a checked event keeps the charges those of the signed history. -/
theorem charged_step {event : Event} {u : Update} (h : r.state.Charged)
    (admits : Admits auth r event u) : (r.state.applyUpdate u).Charged := by
  cases admits with
  | proposal => exact ⟨h.registered, h.released, h.costs, h.charged, h.uncharged⟩
  | sealed => exact ⟨h.registered, h.released, h.costs, h.charged, h.uncharged⟩
  | version => exact ⟨h.registered, h.released, h.costs, h.charged, h.uncharged⟩
  | adopt => exact ⟨h.registered, h.released, h.costs, h.charged, h.uncharged⟩
  | candidate read authentic fresh room => exact h.candidate fresh (cost_nonnegative read)
  | certificate => exact ⟨h.registered, h.released, h.costs, h.charged, h.uncharged⟩
  | sign fresh known budget =>
      exact h.sign fresh known (h.chargeOf _ ▸ charge_of_budgetOp budget)
  | effect => exact ⟨h.registered, h.released, h.costs, h.charged, h.uncharged⟩
  | fence => exact ⟨h.registered, h.released, h.costs, h.charged, h.uncharged⟩
  | release fresh signed cancelled known concurrent charged nonnegative =>
      exact h.release fresh signed known (h.chargeOf _ ▸ charged)

/-- Nothing is signed, released or charged at the start. -/
theorem charged_initial (c : Context) : (State.initial c).Charged where
  registered := fun id hid => absurd hid Std.ExtTreeSet.not_mem_empty
  released := fun id hid => absurd hid Std.ExtTreeSet.not_mem_empty
  costs := fun id op hop => by
    have hop : (∅ : BTreeMap String Operation)[id]? = some op := hop
    rw [Std.ExtTreeMap.getElem?_empty] at hop
    exact nomatch hop
  charged := fun id hid => absurd hid Std.ExtTreeSet.not_mem_empty
  uncharged := fun epoch _ => Std.ExtTreeMap.getElem?_empty

theorem charged_invariant (auth : Authentication) (c : Context) (validator : String)
    (limits : Limits) : Invariant auth c validator limits fun r => r.state.Charged where
  fresh := charged_initial c
  step := fun h prepared => charged_step h (admits_of_prepare prepared)
  skip := fun h _ => h

/-- Only an unknown version makes a walk to the ancestors fail. -/
theorem descendLoop_error {root reason : String} : ∀ (n : Nat) (todo seen : List String),
    r.descendLoop root n todo seen = .error reason →
      ∃ id : String, reason = "missing certified epoch " ++ id := by
  intro n
  induction n with
  | zero => intro todo seen h; exact nomatch h
  | succ n ih =>
      intro todo seen h
      cases todo with
      | nil => exact nomatch h
      | cons id todo =>
          rw [Replica.descendLoop] at h
          split at h
          · exact nomatch h
          split at h
          · exact ih todo seen h
          cases hepoch : r.epoch id with
          | ok m =>
              rw [hepoch] at h
              exact ih _ _ h
          | error e =>
              rw [hepoch] at h
              refine ⟨id, (Except.error.inj h).symm.trans ?_⟩
              unfold Replica.epoch orError at hepoch
              split at hepoch
              · exact nomatch hepoch
              · exact (Except.error.inj hepoch).symm

theorem missing_ne (id : String) :
    "missing certified epoch " ++ id ≠ "inconsistent derived charge" := by
  intro h
  have hhead := congrArg (fun text : String => text.toList.head?) h
  have hm : ("missing certified epoch " ++ id).toList.head? = some 'm' := by
    rw [String.toList_append]
    rfl
  exact absurd (hm.symm.trans hhead) (by decide)

theorem ownerEpochIsOwned_error {owner epoch reason : String}
    (h : r.ownerEpochIsOwned owner epoch = .error reason) :
    reason ≠ "inconsistent derived charge" := by
  unfold Replica.ownerEpochIsOwned at h
  split at h
  · obtain ⟨id, rfl⟩ := descendLoop_error _ _ _ h
    exact missing_ne id
  · exact nomatch h

/-- **Releases are consistent**: where the charges are those of the signed history, what a release
    gives back is charged. -/
theorem release_consistent (h : r.state.Charged) (id : String) :
    r.prepareRelease id ≠ .error "inconsistent derived charge" := by
  intro herror
  unfold Replica.prepareRelease at herror
  rcases bind_error_iff.mp herror with hguard | ⟨⟨⟩, hguard, herror⟩
  · exact absurd (ensure_error_iff.mp hguard).2 (by decide)
  obtain ⟨hsigned, -⟩ := ensure_ok_iff.mp hguard
  split at herror
  · cases herror
  rename_i hreleased
  obtain ⟨op, hop⟩ := h.registered id hsigned
  rcases bind_error_iff.mp herror with hmissing | ⟨op', hop', herror⟩
  · cases (op_ok_iff.mpr hop).symm.trans hmissing
  obtain rfl : op = op' := Option.some.inj (hop.symm.trans (op_ok_iff.mp hop'))
  rcases bind_error_iff.mp herror with howned | ⟨owned, -, herror⟩
  · exact ownerEpochIsOwned_error howned rfl
  rcases bind_error_iff.mp herror with howned | ⟨⟨⟩, -, herror⟩
  · exact absurd (ensure_error_iff.mp howned).2 (by decide)
  rw [h.chargeOf] at herror
  rcases bind_error_iff.mp herror with hcharge | ⟨charge, hcharge, herror⟩
  · rcases Resources.build_error hcharge with htext | htext
    · exact absurd htext (by decide)
    · exact absurd htext (by decide)
  rcases bind_error_iff.mp herror with hnegative | ⟨⟨⟩, -, herror⟩
  · -- what the release leaves is what is outstanding after it
    have hafter := h.release hreleased hsigned hop hcharge
    refine absurd ?_ (ensure_error_iff.mp hnegative).1
    rw [charge_of_release hsigned hop hreleased hcharge]
    exact hafter.spent_nonnegative op.epoch
  · cases herror

end Runs

/-- **Derived charges equal signed history**: in every state of every run of a host, however it
    started, whatever its journal answered and however often it was restarted, the charges are
    those of the signed history, every signed operation is registered, and no release finds them
    inconsistent. -/
theorem charges_equal_history (auth : Authentication) (c : Context) (validator : String)
    (limits : Limits) (boot : Boot) (calls : List HostCall) :
    match boot.host auth c validator limits with
    | .error _ => True
    | .ok h =>
        let r := (calls.foldl (HostCall.perform auth) h).replica
        (∀ epoch : String,
          (∀ id ∈ r.state.signed, ∀ op : Operation, r.state.operations[id]? = some op →
            op.epoch ≠ epoch) ∧ r.state.charges[epoch]? = none ∨
          (∃ id ∈ r.state.signed, ∃ op : Operation, r.state.operations[id]? = some op ∧
            op.epoch = epoch) ∧ r.state.charges[epoch]? = some (r.state.spent epoch)) ∧
        (∀ id ∈ r.state.signed, ∃ op : Operation, r.state.operations[id]? = some op) ∧
        ∀ id : String, r.prepare auth (.release id) ≠ .error "inconsistent derived charge" := by
  cases hboot : boot.host auth c validator limits with
  | error reason => trivial
  | ok h =>
      have hcharged := (charged_invariant auth c validator limits).run hboot calls
      refine ⟨fun epoch => ?_, hcharged.registered, release_consistent hcharged⟩
      by_cases hany : ∃ id ∈ (calls.foldl (HostCall.perform auth) h).replica.state.signed,
          ∃ op : Operation, (calls.foldl (HostCall.perform auth) h).replica.state.operations[id]? =
            some op ∧ op.epoch = epoch
      · refine .inr ⟨hany, ?_⟩
        obtain ⟨id, hid, op, hop, rfl⟩ := hany
        exact hcharged.charged id hid op hop
      · have hnone := fun id hid op hop hepoch => hany ⟨id, hid, op, hop, hepoch⟩
        exact .inl ⟨hnone, hcharged.uncharged epoch hnone⟩

end CbclQuorum
