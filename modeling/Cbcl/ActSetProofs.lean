import Cbcl.KernelGrowthProofs
import Cbcl.RepeatTableProofs

/-!
# What depends on the set of acts

The functions of the binder scan a list of acts.  Where equal addresses carry equal acts, most of
what they find is a function of the set of acts: the root and the opener, the store, the copies that
acts inhabit, and the predecessors picked among them.
-/

namespace CbclActSet

open CbclMessage CbclProtocol CbclStore CbclThreadedStore CbclAct CbclShape CbclStateShape
open CbclVerifier CbclDialect CbclRepeat CbclState CbclStateSelection CbclEscrow CbclExports
open CbclIntend CbclKernelGrowth CbclRepeatTable
open CbclRole hiding Dialect PerformativeDef

/-- Lists of the same acts. -/
def SameActs (xs ys : List Act) : Prop := ∀ a, a ∈ xs ↔ a ∈ ys

variable {xs ys : List Act}

theorem SameActs.symm (h : SameActs xs ys) : SameActs ys xs := fun a => (h a).symm

theorem SameActs.filter (h : SameActs xs ys) (p : Act → Bool) :
    SameActs (xs.filter p) (ys.filter p) := by
  intro a
  rw [List.mem_filter, List.mem_filter, h a]

theorem SameActs.map {α : Type} (h : SameActs xs ys) (f : Act → α) (x : α) :
    x ∈ xs.map f ↔ x ∈ ys.map f := by
  simp only [List.mem_map, h _]

theorem SameActs.any (h : SameActs xs ys) (p : Act → Bool) : xs.any p = ys.any p := by
  rw [Bool.eq_iff_iff, List.any_eq_true, List.any_eq_true]
  simp only [h _]

theorem SameActs.isEmpty (h : SameActs xs ys) : xs.isEmpty = ys.isEmpty := by
  rw [Bool.eq_iff_iff, List.isEmpty_iff, List.isEmpty_iff, List.eq_nil_iff_forall_not_mem,
    List.eq_nil_iff_forall_not_mem]
  simp only [h _]

theorem SameActs.keyed (h : SameActs xs ys) (hkeyed : Keyed xs) : Keyed ys := by
  intro a ha b hb
  exact hkeyed a ((h a).mpr ha) b ((h b).mpr hb)

theorem Keyed.filter (hkeyed : Keyed xs) (p : Act → Bool) : Keyed (xs.filter p) := by
  intro a ha b hb
  exact hkeyed a (List.mem_of_mem_filter ha) b (List.mem_of_mem_filter hb)

-- ── Least acts and greatest addresses ────

/-- No act has a smaller address than the least. -/
theorem leastAct_le {a : Act} (h : leastAct xs = some a) : ∀ b ∈ xs, a.address ≤ b.address := by
  cases xs with
  | nil => cases h
  | cons x rest =>
      rw [← Option.some.inj h]
      clear h
      induction rest using List.reverseRecOn with
      | nil =>
          intro b hb
          rw [List.mem_singleton.mp hb]
          exact le_refl _
      | append_singleton rest c ih =>
          rw [List.foldl_append, List.foldl_cons, List.foldl_nil]
          intro b hb
          rw [← List.cons_append, List.mem_append, List.mem_singleton] at hb
          split
          · rename_i hlt
            rcases hb with hb | rfl
            · exact le_of_lt (lt_of_lt_of_le hlt (ih b hb))
            · exact le_refl _
          · rename_i hge
            rcases hb with hb | rfl
            · exact ih b hb
            · exact not_lt.mp hge

/-- The least act belongs to the set. -/
theorem leastAct_congr (hkeyed : Keyed xs) (h : SameActs xs ys) : leastAct xs = leastAct ys := by
  cases hx : leastAct xs with
  | none =>
      cases xs with
      | cons x rest => cases hx
      | nil =>
          cases ys with
          | nil => rfl
          | cons y rest => exact absurd ((h y).mpr (List.mem_cons_self ..)) List.not_mem_nil
  | some a =>
      have ha := mem_of_leastAct hx
      cases hy : leastAct ys with
      | none =>
          cases ys with
          | cons y rest => cases hy
          | nil => exact absurd ((h a).mp ha) List.not_mem_nil
      | some b =>
          have hb := (h b).mpr (mem_of_leastAct hy)
          have hle := leastAct_le hx b hb
          have hge := leastAct_le hy a ((h a).mp ha)
          exact congrArg some (hkeyed a ha b hb (le_antisymm hle hge))

theorem root_congr (hkeyed : Keyed xs) (h : SameActs xs ys) : root xs = root ys :=
  leastAct_congr (Keyed.filter hkeyed _) (h.filter _)

theorem opener_congr (protocol : CausalProtocol) (hkeyed : Keyed xs) (h : SameActs xs ys) :
    opener protocol xs = opener protocol ys := by
  simp only [opener, root_congr hkeyed h]
  refine congrArg (Option.bind _) (funext fun verb => ?_)
  exact leastAct_congr (Keyed.filter hkeyed _) (h.filter _)

/-- No address of some acts is greater than the greatest. -/
theorem le_greatestAddress {k : String} (h : greatestAddress xs = some k) :
    ∀ b ∈ xs, b.address ≤ k := by
  cases xs with
  | nil => cases h
  | cons x rest =>
      rw [← Option.some.inj h]
      clear h
      induction rest using List.reverseRecOn with
      | nil =>
          intro b hb
          rw [List.mem_singleton.mp hb]
          exact le_refl _
      | append_singleton rest c ih =>
          rw [List.foldl_append, List.foldl_cons, List.foldl_nil]
          intro b hb
          rw [← List.cons_append, List.mem_append, List.mem_singleton] at hb
          split
          · rename_i hlt
            rcases hb with hb | rfl
            · exact ih b hb
            · exact le_of_lt hlt
          · rename_i hge
            rcases hb with hb | rfl
            · exact (ih b hb).trans (not_lt.mp hge)
            · exact le_refl _

/-- The greatest address belongs to the set. -/
theorem greatestAddress_congr (h : SameActs xs ys) : greatestAddress xs = greatestAddress ys := by
  cases hx : greatestAddress xs with
  | none =>
      cases xs with
      | cons x rest => cases hx
      | nil =>
          cases ys with
          | nil => rfl
          | cons y rest => exact absurd ((h y).mpr (List.mem_cons_self ..)) List.not_mem_nil
  | some k =>
      obtain ⟨a, ha, rfl⟩ := greatestAddress_mem hx
      cases hy : greatestAddress ys with
      | none =>
          cases ys with
          | cons y rest => cases hy
          | nil => exact absurd ((h a).mp ha) List.not_mem_nil
      | some k =>
          obtain ⟨b, hb, rfl⟩ := greatestAddress_mem hy
          have hle := le_greatestAddress hy a ((h a).mp ha)
          have hge := le_greatestAddress hx b ((h b).mpr hb)
          exact congrArg some (le_antisymm hle hge)

/-- The picked predecessor belongs to the set of candidates. -/
theorem pickPredecessor_congr (signer : String) (h : SameActs xs ys) :
    pickPredecessor signer xs = pickPredecessor signer ys := by
  have hown := h.filter fun a => decide (a.signer = signer)
  have hcited : ∀ a : Act,
      ((xs.filter fun a => decide (a.signer = signer)).flatMap (·.predecessors)).contains a.address
        = ((ys.filter fun a => decide (a.signer = signer)).flatMap
          (·.predecessors)).contains a.address := by
    intro a
    rw [Bool.eq_iff_iff, List.contains_iff_mem, List.contains_iff_mem, List.mem_flatMap,
      List.mem_flatMap]
    simp only [hown _]
  have htips : SameActs
      ((xs.filter fun a => decide (a.signer = signer)).filter fun a =>
        !((xs.filter fun a => decide (a.signer = signer)).flatMap
          (·.predecessors)).contains a.address)
      ((ys.filter fun a => decide (a.signer = signer)).filter fun a =>
        !((ys.filter fun a => decide (a.signer = signer)).flatMap
          (·.predecessors)).contains a.address) := by
    intro a
    simp only [List.mem_filter, hcited, h a]
  simp only [pickPredecessor]
  rw [hown.isEmpty, htips.isEmpty, greatestAddress_congr h]
  split
  · rfl
  · split
    · exact greatestAddress_congr hown
    · exact greatestAddress_congr htips

-- ── Stores ────

/-- Stores that index the same hashes and find the same messages, without shelves. -/
structure SameStore (s s' : ThreadedMessageStore) : Prop where
  envelopes : s.envelopes = ∅ ∧ s'.envelopes = ∅
  opened : s.opened = ∅ ∧ s'.opened = ∅
  index : ∀ h, h ∈ s.index ↔ h ∈ s'.index
  found : ∀ h t, s.lookupInThread h t = s'.lookupInThread h t

/-- The verifiers read such stores alike. -/
theorem SameStore.toStore {s s' : ThreadedMessageStore} (h : SameStore s s') :
    s.toStore = s'.toStore := by
  have hkeys : s.index.keys = s'.index.keys := by
    refine (CbclKeyedSort.strict_keys s.index).eq (CbclKeyedSort.strict_keys s'.index) fun k => ?_
    rw [Std.ExtTreeMap.mem_keys, Std.ExtTreeMap.mem_keys, h.index]
  have hlookup : s.lookupInThread = s'.lookupInThread := funext fun k => funext fun t => h.found k t
  have henvelopes : s.envelopeInThread = s'.envelopeInThread := by
    funext k t
    simp only [ThreadedMessageStore.envelopeInThread, h.envelopes.1, h.envelopes.2]
  have hopened : s.openedInThread = s'.openedInThread := by
    funext k t
    simp only [ThreadedMessageStore.openedInThread, h.opened.1, h.opened.2]
  unfold ThreadedMessageStore.toStore
  simp only [hkeys, hlookup, henvelopes, hopened, h.envelopes.1, h.envelopes.2, h.opened.1,
    h.opened.2]

/-- Such stores stay alike when a message is appended to both. -/
theorem SameStore.append {s s' : ThreadedMessageStore} (h : SameStore s s') (k : ContentHash)
    (t : ThreadId) (m : Message) : SameStore (s.append k t m).2 (s'.append k t m).2 := by
  by_cases hk : k ∈ s.index
  · have hk' := (h.index k).mp hk
    rw [ThreadedMessageStore.append, ThreadedMessageStore.append, dif_pos hk, dif_pos hk']
    exact h
  · have hk' : k ∉ s'.index := fun hmem => hk ((h.index k).mpr hmem)
    obtain ⟨henvelopes, hopened⟩ := s.shelves_append k t m
    obtain ⟨henvelopes', hopened'⟩ := s'.shelves_append k t m
    refine ⟨⟨henvelopes.trans h.envelopes.1, henvelopes'.trans h.envelopes.2⟩,
      ⟨hopened.trans h.opened.1, hopened'.trans h.opened.2⟩, fun x => ?_, fun x u => ?_⟩
    · rw [ThreadedMessageStore.mem_index_append hk, ThreadedMessageStore.mem_index_append hk',
        h.index]
    · rw [ThreadedMessageStore.lookupInThread_append hk,
        ThreadedMessageStore.lookupInThread_append hk', h.found]

/-- Repeated addresses leave no trace in a store of acts. -/
theorem storeOf_dedup (thread : ThreadId) (xs : List Act) :
    storeOf thread xs = storeOf thread (dedupByAddress xs) := by
  induction xs using List.reverseRecOn with
  | nil => rfl
  | append_singleton xs a ih =>
      by_cases hknown : ∃ b ∈ xs, b.address = a.address
      · have hindex : a.address ∈ (storeOf thread (dedupByAddress xs)).index := by
          obtain ⟨b, hb, heq⟩ := hknown
          obtain ⟨c, hc, hcb⟩ := (dedupByAddress_spec xs).2.2 b hb
          rw [(storeOf_spec thread _ (dedupByAddress_spec xs).1).1]
          exact ⟨c, hc, hcb.trans heq⟩
        rw [storeOf_append_singleton, dedupByAddress_known hknown, ih, ThreadedMessageStore.append,
          dif_pos hindex]
      · have hfresh : ∀ b ∈ xs, b.address ≠ a.address := fun b hb heq => hknown ⟨b, hb, heq⟩
        rw [dedupByAddress_fresh hfresh, storeOf_append_singleton, storeOf_append_singleton, ih]

/-- The acts kept of a keyed list are its acts. -/
theorem mem_dedup (hkeyed : Keyed xs) (a : Act) : a ∈ dedupByAddress xs ↔ a ∈ xs := by
  rw [(enumerates_dedup hkeyed).mem, List.mem_toFinset]

/-- **The store of acts** is read alike for lists of the same acts. -/
theorem sameStore_of_acts (thread : ThreadId) (hkeyed : Keyed xs) (h : SameActs xs ys) :
    SameStore (storeOf thread xs) (storeOf thread ys) := by
  have hsame : SameActs (dedupByAddress xs) (dedupByAddress ys) := by
    intro a
    rw [mem_dedup hkeyed, mem_dedup (h.keyed hkeyed), h a]
  rw [storeOf_dedup thread xs, storeOf_dedup thread ys]
  obtain ⟨hindex, hfound⟩ := storeOf_spec thread _ (dedupByAddress_spec xs).1
  obtain ⟨hindex', hfound'⟩ := storeOf_spec thread _ (dedupByAddress_spec ys).1
  obtain ⟨henvelopes, hopened⟩ := shelves_storeOf thread (dedupByAddress xs)
  obtain ⟨henvelopes', hopened'⟩ := shelves_storeOf thread (dedupByAddress ys)
  refine ⟨⟨henvelopes, henvelopes'⟩, ⟨hopened, hopened'⟩, fun k => ?_, fun k t => ?_⟩
  · rw [hindex, hindex']
    simp only [hsame _]
  · refine Option.ext fun m => ?_
    rw [hfound, hfound']
    simp only [hsame _]

-- ── Copies ────

/-- A resolution depends on the set of hashes it starts from. -/
theorem resolution_congr (store : MessageStore) (protocol : CausalProtocol) (thread : ThreadId)
    (root : Option ContentHash) {hashes hashes' : List String}
    (h : ∀ x, x ∈ hashes ↔ x ∈ hashes') :
    Resolution.new store protocol thread root hashes
      = Resolution.new store protocol thread root hashes' := by
  have hmessages : ∀ cache, closureMessages store thread cache hashes
      = closureMessages store thread cache hashes' := by
    intro cache
    refine Std.ExtTreeMap.ext_getElem? fun k => ?_
    rw [closureMessages_getElem?, closureMessages_getElem?]
    have hclosure : k ∈ referencedClosure store thread cache hashes ↔
        k ∈ referencedClosure store thread cache hashes' := by
      simp only [referencedClosure, CbclWorklist.mem_closure_iff closureSuccessors_support,
        List.mem_reverse, h]
    simp only [hclosure]
  simp only [Resolution.new, hmessages]

end CbclActSet
