import Cbcl.PositionsModel
import Cbcl.StateFoldProofs
import Cbcl.TypedAddrProofs

/-!
# Cached positions do not depend on arrival

A treap is determined by the facts it holds: the fact of least rank is the root, and the
identities decide the sides.  The steps of a covered message are determined by the steps of
its parents, which are covered before it.  So the cache of an accepted history is the same in
every causal order, and its ranks are those of the fold.
-/

namespace CbclPositions

open CbclMessage CbclProtocol CbclStore CbclRepeat CbclRepeatTable CbclAct CbclEscrow CbclState
  CbclStateMeaning CbclStateSelection CbclStateProgress CbclCanonical CbclTypedAddr CbclCodec
  CbclTreeMap CbclVerdictShape CbclEscrowObservation

-- ── The treap ────

section Treap

variable (priority : String → List UInt8)

/-- The rank of a fact. -/
def rank (f : PositionFact) : List Nat ×ₗ String :=
  rankOf (priority f.metadata.id) f.metadata.id

/-- Sides follow identities, ranks grow downwards, sizes and priorities are what they claim. -/
def Sound : PositionIndex → Prop
  | .nil => True
  | .node f p s left right =>
      p = priority f.metadata.id ∧ s = 1 + size left + size right
        ∧ (∀ g ∈ values left, g.metadata.id < f.metadata.id ∧ rank priority f < rank priority g)
        ∧ (∀ g ∈ values right, f.metadata.id < g.metadata.id ∧ rank priority f < rank priority g)
        ∧ Sound left ∧ Sound right

variable {priority}

/-- Splitting keeps the facts and their order. -/
theorem values_split (id : String) (t : PositionIndex) :
    values (split id t).1 ++ values (split id t).2 = values t := by
  induction t with
  | nil => rfl
  | node f p s left right ihl ihr =>
      unfold split
      split
      · simp only [node, values, List.append_assoc, List.cons_append, ihr]
      · simp only [node, values, ← ihl, List.append_assoc]

theorem mem_values_split {id : String} {t : PositionIndex} {g : PositionFact} :
    g ∈ values t ↔ g ∈ values (split id t).1 ∨ g ∈ values (split id t).2 := by
  rw [← values_split id t, List.mem_append]

/-- Splitting a sound treap gives two sound ones, on either side of the identity. -/
theorem sound_split {id : String} {t : PositionIndex} (h : Sound priority t) :
    Sound priority (split id t).1 ∧ Sound priority (split id t).2
      ∧ (∀ g ∈ values (split id t).1, g.metadata.id < id)
      ∧ ∀ g ∈ values (split id t).2, ¬ g.metadata.id < id := by
  induction t with
  | nil => exact ⟨trivial, trivial, by simp [split, values], by simp [split, values]⟩
  | node f p s left right ihl ihr =>
      obtain ⟨hp, -, hleft, hright, hl, hr⟩ := h
      obtain ⟨ihl1, ihl2, ihl3, ihl4⟩ := ihl hl
      obtain ⟨ihr1, ihr2, ihr3, ihr4⟩ := ihr hr
      unfold split
      split
      · rename_i hlt
        refine ⟨⟨hp, rfl, hleft, fun g hg => hright g (mem_values_split.mpr (Or.inl hg)), hl, ihr1⟩,
          ihr2, fun g hg => ?_, ihr4⟩
        rcases List.mem_append.mp hg with hg | hg
        · exact (hleft g hg).1.trans hlt
        · rcases List.mem_cons.mp hg with rfl | hg
          · exact hlt
          · exact ihr3 g hg
      · rename_i hge
        refine ⟨ihl1, ⟨hp, rfl, fun g hg => hleft g (mem_values_split.mpr (Or.inr hg)), hright, ihl2,
          hr⟩, ihl3, fun g hg => ?_⟩
        rcases List.mem_append.mp hg with hg | hg
        · exact ihl4 g hg
        · rcases List.mem_cons.mp hg with rfl | hg
          · exact hge
          · exact fun hlt => hge ((hright g hg).1.trans hlt)

/-- Insertion adds one fact. -/
theorem mem_values_put {f : PositionFact} {p : List UInt8} {t : PositionIndex}
    {g : PositionFact} : g ∈ values (put f p t) ↔ g = f ∨ g ∈ values t := by
  induction t with
  | nil =>
      show g ∈ [f] ↔ g = f ∨ g ∈ []
      rw [List.mem_singleton, or_iff_left List.not_mem_nil]
  | node f' p' s left right ihl ihr =>
      unfold put
      split
      · rw [@mem_values_split f.metadata.id (.node f' p' s left right)]
        show g ∈ values _ ++ f :: values _ ↔ _
        rw [List.mem_append, List.mem_cons, or_left_comm]
      · split
        · show g ∈ values (put f p left) ++ f' :: values right ↔
            g = f ∨ g ∈ values left ++ f' :: values right
          rw [List.mem_append, List.mem_append, ihl, or_assoc]
        · show g ∈ values left ++ f' :: values (put f p right) ↔
            g = f ∨ g ∈ values left ++ f' :: values right
          rw [List.mem_append, List.mem_append, List.mem_cons, List.mem_cons, ihr,
            or_left_comm (a := g = f'), or_left_comm (a := g ∈ values left)]

/-- A fact above the root is above everything. -/
theorem rank_lt_of_root {f f' : PositionFact} {p : List UInt8} {s : Nat}
    {left right : PositionIndex} (h : Sound priority (.node f' p s left right))
    (hlt : rank priority f < rank priority f') {g : PositionFact}
    (hg : g ∈ values (PositionIndex.node f' p s left right)) : rank priority f < rank priority g := by
  obtain ⟨-, -, hleft, hright, -, -⟩ := h
  rcases List.mem_append.mp hg with hg | hg
  · exact hlt.trans (hleft g hg).2
  · rcases List.mem_cons.mp hg with rfl | hg
    · exact hlt
    · exact hlt.trans (hright g hg).2

/-- Insertion of a new identity keeps a treap sound. -/
theorem sound_put {f : PositionFact} {t : PositionIndex} (h : Sound priority t)
    (hfresh : ∀ g ∈ values t, g.metadata.id ≠ f.metadata.id) :
    Sound priority (put f (priority f.metadata.id) t) := by
  induction t with
  | nil => exact ⟨rfl, rfl, by simp [values], by simp [values], trivial, trivial⟩
  | node f' p' s left right ihl ihr =>
      have hsound := h
      obtain ⟨hp, hs, hleft, hright, hl, hr⟩ := h
      have hroot : f'.metadata.id ≠ f.metadata.id :=
        hfresh f' (List.mem_append_right _ (List.mem_cons_self ..))
      have hfreshl : ∀ g ∈ values left, g.metadata.id ≠ f.metadata.id := fun g hg =>
        hfresh g (List.mem_append_left _ hg)
      have hfreshr : ∀ g ∈ values right, g.metadata.id ≠ f.metadata.id := fun g hg =>
        hfresh g (List.mem_append_right _ (List.mem_cons_of_mem _ hg))
      unfold put
      split
      · rename_i hlt
        have hlt' : rank priority f < rank priority f' := by
          rw [hp] at hlt
          exact hlt
        obtain ⟨h1, h2, h3, h4⟩ := @sound_split _ f.metadata.id _ hsound
        refine ⟨rfl, rfl, fun g hg => ?_, fun g hg => ?_, h1, h2⟩
        · exact ⟨h3 g hg, rank_lt_of_root hsound hlt' (mem_values_split.mpr (Or.inl hg))⟩
        · have hg' := mem_values_split.mpr (Or.inr hg)
          exact ⟨lt_of_le_of_ne (not_lt.mp (h4 g hg)) (hfresh g hg').symm,
            rank_lt_of_root hsound hlt' hg'⟩
      · rename_i hnlt
        have hrank : rank priority f' < rank priority f := by
          rw [hp] at hnlt
          refine lt_of_le_of_ne (not_lt.mp hnlt) fun heq => hroot ?_
          exact congrArg (fun r : List Nat ×ₗ String => (ofLex r).2) heq
        split
        · rename_i hid
          refine ⟨hp, rfl, fun g hg => ?_, hright, ihl hl hfreshl, hr⟩
          rcases mem_values_put.mp hg with rfl | hg
          · exact ⟨hid, hrank⟩
          · exact hleft g hg
        · rename_i hid
          refine ⟨hp, rfl, hleft, fun g hg => ?_, hl, ihr hr hfreshr⟩
          rcases mem_values_put.mp hg with rfl | hg
          · exact ⟨lt_of_le_of_ne (not_lt.mp hid) hroot, hrank⟩
          · exact hright g hg

/-- Search finds the fact of an identity. -/
theorem get_eq_some_iff {t : PositionIndex} (h : Sound priority t) {id : String}
    {f : PositionFact} : t.get id = some f ↔ f ∈ values t ∧ f.metadata.id = id := by
  induction t with
  | nil => simp [PositionIndex.get, values]
  | node f' p s left right ihl ihr =>
      obtain ⟨-, -, hleft, hright, hl, hr⟩ := h
      unfold PositionIndex.get
      simp only [values, List.mem_append, List.mem_cons]
      rcases lt_trichotomy id f'.metadata.id with hlt | heq | hgt
      · rw [compare_lt_iff_lt.mpr hlt]
        dsimp only
        rw [ihl hl]
        refine and_congr_left fun hid => ⟨Or.inl, ?_⟩
        rintro (hf | rfl | hf)
        · exact hf
        · exact absurd (hid ▸ hlt) (lt_irrefl _)
        · exact absurd ((hright f hf).1.trans (hid ▸ hlt)) (lt_irrefl _)
      · rw [compare_eq_iff_eq.mpr heq]
        dsimp only
        constructor
        · rintro ⟨⟩
          exact ⟨Or.inr (Or.inl rfl), heq.symm⟩
        · rintro ⟨hf | rfl | hf, hid⟩
          · exact absurd ((hleft f hf).1) (by rw [hid, heq]; exact lt_irrefl _)
          · rfl
          · exact absurd ((hright f hf).1) (by rw [hid, heq]; exact lt_irrefl _)
      · rw [compare_gt_iff_gt.mpr hgt]
        dsimp only
        rw [ihr hr]
        refine and_congr_left fun hid => ⟨fun hf => Or.inr (Or.inr hf), ?_⟩
        rintro (hf | rfl | hf)
        · exact absurd ((hleft f hf).1.trans (hid ▸ hgt)) (lt_irrefl _)
        · exact absurd (hid ▸ hgt) (lt_irrefl _)
        · exact hf

/-- The sides of a sound treap, by identity. -/
theorem mem_sides {f : PositionFact} {p : List UInt8} {s : Nat} {left right : PositionIndex}
    (h : Sound priority (.node f p s left right)) (g : PositionFact) :
    (g ∈ values left ↔ g ∈ values (PositionIndex.node f p s left right) ∧
        g.metadata.id < f.metadata.id) ∧
      (g ∈ values right ↔ g ∈ values (PositionIndex.node f p s left right) ∧
        f.metadata.id < g.metadata.id) := by
  obtain ⟨-, -, hleft, hright, -, -⟩ := h
  simp only [values, List.mem_append, List.mem_cons]
  constructor
  · refine ⟨fun hg => ⟨Or.inl hg, (hleft g hg).1⟩, ?_⟩
    rintro ⟨hg | rfl | hg, hlt⟩
    · exact hg
    · exact absurd hlt (lt_irrefl _)
    · exact absurd (hlt.trans (hright g hg).1) (lt_irrefl _)
  · refine ⟨fun hg => ⟨Or.inr (Or.inr hg), (hright g hg).1⟩, ?_⟩
    rintro ⟨hg | rfl | hg, hlt⟩
    · exact absurd (hlt.trans (hleft g hg).1) (lt_irrefl _)
    · exact absurd hlt (lt_irrefl _)
    · exact hg

/-- **A treap is determined by its facts.** -/
theorem treap_unique {t t' : PositionIndex} (h : Sound priority t) (h' : Sound priority t')
    (hsame : ∀ g, g ∈ values t ↔ g ∈ values t') : t = t' := by
  induction t generalizing t' with
  | nil =>
      cases t' with
      | nil => rfl
      | node f' p' s' left' right' =>
          have hf := (hsame f').mpr (List.mem_append_right _ (List.mem_cons_self ..))
          exact nomatch hf
  | node f p s left right ihl ihr =>
      cases t' with
      | nil =>
          have hf := (hsame f).mp (List.mem_append_right _ (List.mem_cons_self ..))
          exact nomatch hf
      | node f' p' s' left' right' =>
          have hf := (hsame f).mp (List.mem_append_right _ (List.mem_cons_self ..))
          have hf' := (hsame f').mpr (List.mem_append_right _ (List.mem_cons_self ..))
          -- two different roots would each be of lower rank than the other
          have hroot : f = f' := by
            by_contra hne
            have hle : ∀ {f f' : PositionFact} {p : List UInt8} {s : Nat}
                {left right : PositionIndex}, Sound priority (.node f p s left right) →
                f' ∈ values (PositionIndex.node f p s left right) → f ≠ f' →
                  rank priority f < rank priority f' := by
              intro f f' p s left right hs hmem hne
              obtain ⟨-, -, hleft, hright, -, -⟩ := hs
              rcases List.mem_append.mp hmem with hm | hm
              · exact (hleft _ hm).2
              · rcases List.mem_cons.mp hm with rfl | hm
                · exact absurd rfl hne
                · exact (hright _ hm).2
            exact absurd ((hle h hf' hne).trans (hle h' hf (Ne.symm hne))) (lt_irrefl _)
          subst hroot
          have hl : left = left' := by
            refine ihl h.2.2.2.2.1 h'.2.2.2.2.1 fun g => ?_
            rw [(mem_sides h g).1, (mem_sides h' g).1, hsame]
          have hr : right = right' := by
            refine ihr h.2.2.2.2.2 h'.2.2.2.2.2 fun g => ?_
            rw [(mem_sides h g).2, (mem_sides h' g).2, hsame]
          rw [h.1, h'.1, h.2.1, h'.2.1, hl, hr]

end Treap

-- ── Chains ────

/-- Whether a step is a position of a verb. -/
def isPosition (verb name : String) : Bool := name ≠ BEGIN_KEYWORD ∧ repeatBaseName name = verb

theorem readySteps_congr {protocol : CausalProtocol} {done done' : List String}
    (h : ∀ n, n ∈ done ↔ n ∈ done') : readySteps protocol done = readySteps protocol done' := by
  unfold readySteps
  simp only [h]

/-- Placing ready steps places exactly them, and lists the positions among them. -/
theorem foldlM_placeStep {protocol : CausalProtocol} {verb : String} (ready : List String) :
    ∀ {chain chain' : Chain}, ready.foldlM (placeStep protocol verb) chain = .ok chain' →
      (∀ n, n ∈ chain'.ancestors ↔ n ∈ chain.ancestors ∨ n ∈ ready) ∧
        chain'.positions = chain.positions ++ ready.filter (isPosition verb) := by
  induction ready with
  | nil =>
      intro chain chain' h
      injection h with h
      subst h
      simp
  | cons name rest ih =>
      intro chain chain' h
      rw [List.foldlM_cons] at h
      obtain ⟨next, hnext, h⟩ := CbclExcept.bind_ok_iff.mp h
      obtain ⟨hmem, hpos⟩ := ih h
      have hstep : (∀ n, n ∈ next.ancestors ↔ n ∈ chain.ancestors ∨ n = name) ∧
          next.positions = chain.positions ++ [name].filter (isPosition verb) := by
        unfold placeStep at hnext
        dsimp only at hnext
        split at hnext
        · rename_i hp
          split at hnext
          · exact nomatch hnext
          · injection hnext with hnext
            subst hnext
            refine ⟨fun n => ?_, by simp [isPosition, hp.1, hp.2]⟩
            rw [Std.ExtTreeMap.mem_insert, compare_eq_iff_eq, or_comm, eq_comm]
        · rename_i hp
          injection hnext with hnext
          subst hnext
          refine ⟨fun n => ?_, ?_⟩
          · rw [Std.ExtTreeMap.mem_insert, compare_eq_iff_eq, or_comm, eq_comm]
          · have hfalse : isPosition verb name = false := decide_eq_false hp
            simp [hfalse]
      refine ⟨fun n => ?_, ?_⟩
      · rw [hmem, hstep.1, List.mem_cons, or_assoc]
      · rw [hpos, hstep.2, List.append_assoc, ← List.filter_append, List.singleton_append]

/-- The rounds of a chain are the rounds of the step order. -/
theorem placeRounds_order {protocol : CausalProtocol} {verb : String} (fuel : Nat) :
    ∀ {chain chain' : Chain} {done : List String}, (∀ n, n ∈ chain.ancestors ↔ n ∈ done) →
      chain.positions = done.filter (isPosition verb) →
      placeRounds protocol verb fuel chain = .ok chain' →
      (∀ n, n ∈ chain'.ancestors ↔ n ∈ stepOrder protocol fuel done) ∧
        chain'.positions = (stepOrder protocol fuel done).filter (isPosition verb) := by
  induction fuel with
  | zero =>
      intro chain chain' done hmem hpos h
      injection h with h
      subst h
      exact ⟨hmem, hpos⟩
  | succ fuel ih =>
      intro chain chain' done hmem hpos h
      have hready : readySteps protocol chain.ancestors.keys = readySteps protocol done :=
        readySteps_congr fun n => by rw [Std.ExtTreeMap.mem_keys, hmem]
      rw [placeRounds, hready] at h
      rw [stepOrder]
      cases hr : readySteps protocol done with
      | nil =>
          rw [hr] at h
          injection h with h
          subst h
          rw [if_pos rfl]
          exact ⟨hmem, hpos⟩
      | cons name rest =>
          rw [hr] at h
          obtain ⟨next, hnext, h⟩ := CbclExcept.bind_ok_iff.mp h
          obtain ⟨hmem', hpos'⟩ := foldlM_placeStep _ hnext
          rw [if_neg (by simp)]
          refine ih (fun n => ?_) ?_ h
          · rw [hmem', hmem, List.mem_append]
          · rw [hpos', hpos, List.filter_append]

/-- The steps of an order are declared. -/
theorem Topo.declared {protocol : CausalProtocol} {order : List String}
    (h : Topo protocol order) : ∀ n ∈ order, n ∈ protocol.steps := by
  induction h with
  | nil => exact fun n hn => nomatch hn
  | snoc h hnew hdecl hpreds ih =>
      intro n hn
      rcases List.mem_append.mp hn with hn | hn
      · exact ih n hn
      · rw [List.mem_singleton.mp hn, Std.ExtTreeMap.mem_iff_isSome_getElem?, hdecl]
        rfl

theorem Topo.nodup {protocol : CausalProtocol} {order : List String}
    (h : Topo protocol order) : order.Nodup := by
  induction h with
  | nil => exact List.nodup_nil
  | snoc h hnew hdecl hpreds ih =>
      refine List.nodup_append.mpr ⟨ih, List.nodup_singleton _, fun a ha b hb => ?_⟩
      rw [List.mem_singleton.mp hb]
      rintro rfl
      exact hnew ha

/-- **A chain is the step order of its verb**, and every step of the protocol is in that
    order. -/
theorem positionChain_ok {protocol : CausalProtocol} {verb : String} {chain : List String}
    (h : positionChain protocol verb = .ok chain) :
    chain = (protocolOrder protocol).filter (isPosition verb) ∧
      ∀ n ∈ protocol.steps, n ∈ protocolOrder protocol := by
  unfold positionChain at h
  obtain ⟨placed, hplaced, h⟩ := CbclExcept.bind_ok_iff.mp h
  have hnone : ∀ n, n ∈ (∅ : BTreeMap String (BTreeSet String)) ↔ n ∈ ([] : List String) := by simp
  obtain ⟨hmem, hpos⟩ := placeRounds_order _ hnone rfl hplaced
  split at h
  · exact nomatch h
  rename_i hguard
  obtain ⟨hsize, -⟩ := not_or.mp hguard
  injection h with h
  refine ⟨by rw [← h]; exact hpos, fun n hn => ?_⟩
  have hsub : placed.ancestors.keys ⊆ protocol.steps.keys := by
    intro m hm
    rw [Std.ExtTreeMap.mem_keys] at hm ⊢
    exact Topo.declared (topo_protocolOrder protocol) m ((hmem m).mp hm)
  have hperm := ((nodup_keys placed.ancestors).subperm hsub).perm_of_length_le (by
    rw [Std.ExtTreeMap.length_keys, Std.ExtTreeMap.length_keys, not_not.mp hsize])
  refine (hmem n).mp ?_
  rw [← Std.ExtTreeMap.mem_keys, hperm.mem_iff, Std.ExtTreeMap.mem_keys]
  exact hn

theorem rankTable_snoc (chain : List String) (x : String) :
    rankTable (chain ++ [x]) = (rankTable chain).insert x (chain.length + 1) := by
  unfold rankTable
  rw [List.zipIdx_append, List.foldl_append, Nat.zero_add]
  rfl

/-- The rank of a name in a chain without repetitions. -/
theorem getElem?_rankTable {chain : List String} (hnodup : chain.Nodup) (name : String)
    (k : Nat) : (rankTable chain)[name]? = some k ↔ ∃ i, chain[i]? = some name ∧ k = i + 1 := by
  induction chain using List.reverseRecOn with
  | nil => simp [rankTable]
  | append_singleton chain x ih =>
      obtain ⟨hchain, -, hfresh⟩ := List.nodup_append.mp hnodup
      rw [rankTable_snoc, getElem?_insert_eq]
      by_cases hx : name = x
      · rw [if_pos hx]
        constructor
        · intro h
          exact ⟨chain.length, by simp [hx], (Option.some.inj h).symm⟩
        · rintro ⟨i, hi, rfl⟩
          rw [List.getElem?_append] at hi
          split at hi
          · have hmem : name ∈ chain := List.mem_of_getElem? hi
            exact absurd hx (hfresh name hmem x (List.mem_singleton.mpr rfl))
          · have hlt := (List.getElem?_eq_some_iff.mp hi).1
            simp only [List.length_singleton] at hlt
            congr 2
            omega
      · rw [if_neg hx, ih hchain]
        refine exists_congr fun i => and_congr_left fun _ => ?_
        rw [List.getElem?_append]
        split
        · rfl
        · rename_i hi
          constructor
          · intro h
            exact absurd (List.getElem?_eq_some_iff.mp h).1 hi
          · intro h
            exact absurd (List.mem_singleton.mp (List.mem_of_getElem? h)) hx

/-- The ranks after one more verb. -/
def addRanks (protocol : CausalProtocol) (ranks : BTreeMap String (BTreeMap String Nat))
    (name : String) : BTreeMap String (BTreeMap String Nat) :=
  match positionChain protocol (repeatBaseName name) with
  | .ok chain => ranks.insert (repeatBaseName name) (rankTable chain)
  | .error _ => ranks

/-- The ranks of a protocol are the tables of its chains. -/
theorem getElem?_ranksOf (protocol : CausalProtocol) (verb : String)
    (table : BTreeMap String Nat) : (ranksOf protocol)[verb]? = some table ↔
      ∃ chain, positionChain protocol verb = .ok chain ∧ table = rankTable chain := by
  unfold ranksOf
  have hfold : ∀ names : List String, (names.foldl (addRanks protocol)
      (∅ : BTreeMap String (BTreeMap String Nat)))[verb]? = some table ↔
        (∃ name ∈ names, repeatBaseName name = verb) ∧
          ∃ chain, positionChain protocol verb = .ok chain ∧ table = rankTable chain := by
    intro names
    induction names using List.reverseRecOn with
    | nil => simp
    | append_singleton names name ih =>
        rw [List.foldl_append, List.foldl_cons, List.foldl_nil, addRanks]
        by_cases hverb : repeatBaseName name = verb
        · rw [hverb]
          have hname : ∃ n ∈ names ++ [name], repeatBaseName n = verb :=
            ⟨name, by simp, hverb⟩
          rw [and_iff_right hname]
          cases hchain : positionChain protocol verb with
          | error e =>
              dsimp only
              rw [ih, hchain]
              simp
          | ok chain =>
              dsimp only
              rw [getElem?_insert_eq, if_pos rfl]
              constructor
              · intro h
                exact ⟨chain, rfl, (Option.some.inj h).symm⟩
              · rintro ⟨chain', hchain', rfl⟩
                injection hchain' with hchain'
                rw [hchain']
        · have hnames : (∃ n ∈ names ++ [name], repeatBaseName n = verb) ↔
              ∃ n ∈ names, repeatBaseName n = verb := by
            simp [List.mem_append, or_and_right, exists_or, hverb]
          rw [hnames, ← ih]
          split
          · rw [getElem?_insert_eq, if_neg (Ne.symm hverb)]
          · rfl
  refine (hfold _).trans (and_iff_right_of_imp ?_)
  rintro ⟨chain, hchain, -⟩
  -- a chain has a position, and positions are declared steps
  have hne : chain ≠ [] := by
    intro hnil
    unfold positionChain at hchain
    obtain ⟨placed, -, hchain⟩ := CbclExcept.bind_ok_iff.mp hchain
    split at hchain
    · cases hchain
    · rename_i hguard
      injection hchain with hchain
      exact (not_or.mp hguard).2 (hchain.trans hnil)
  obtain ⟨n, hn⟩ := List.exists_mem_of_ne_nil chain hne
  rw [(positionChain_ok hchain).1, List.mem_filter] at hn
  obtain ⟨horder, hposition⟩ := hn
  have hp : n ≠ BEGIN_KEYWORD ∧ repeatBaseName n = verb := of_decide_eq_true hposition
  refine ⟨n, List.mem_filter.mpr ⟨?_, by simpa using hp.1⟩, hp.2⟩
  rw [Std.ExtTreeMap.mem_keys]
  exact Topo.declared (topo_protocolOrder protocol) n horder

-- ── What the steps of a message depend on ────

/-- The evaluator places a covered reference by its fact. -/
theorem at_port {p : MaterializedPositions} {protocol : CausalProtocol} {g name : String} :
    (portResolution p protocol).at g name = .valid ↔
      ∃ fact, p.entries.get (nativeReference g) = some fact ∧
        ((isCopyName name = false ∧ ¬ Copied protocol fact.metadata.verb ∧
          repeatBaseName name = fact.metadata.verb) ∨ name ∈ fact.steps) := by
  unfold Resolution.at
  have hcached : cachedFact (portResolution p protocol).materialized g
      = p.entries.get (nativeReference g) := rfl
  rw [hcached]
  cases hget : p.entries.get (nativeReference g) with
  | none =>
      have hkind : (portResolution p protocol).kind g = none := by
        unfold Resolution.kind
        rw [hcached, hget]
        rfl
      simp [hkind]
  | some fact =>
      have hcopied : (portResolution p protocol).repeated fact.metadata.verb = true ↔
          Copied protocol fact.metadata.verb := repeated_iff
      have hrepeated : (portResolution p protocol).repeated fact.metadata.verb = false ↔
          ¬ Copied protocol fact.metadata.verb := by
        rw [← hcopied, Bool.not_eq_true]
      simp only [Option.some.injEq, exists_eq_left', ← hrepeated]
      split
      · rename_i hvalid
        refine iff_of_true rfl ?_
        simpa only [Bool.or_eq_true, Bool.and_eq_true, Bool.not_eq_true', decide_eq_true_eq,
          Std.ExtTreeSet.contains_iff_mem, and_assoc] using hvalid
      · rename_i hinvalid
        refine iff_of_false (fun h => nomatch h) fun hvalid => hinvalid ?_
        simpa only [Bool.or_eq_true, Bool.and_eq_true, Bool.not_eq_true', decide_eq_true_eq,
          Std.ExtTreeSet.contains_iff_mem, and_assoc] using hvalid

/-- The steps of a message, by the declarations of its verb. -/
theorem mem_establishedSteps {p : MaterializedPositions} {data : PositionMetadata}
    {name : String} : name ∈ establishedSteps p data ↔
      ∃ protocol, p.protocol = some protocol ∧ ∃ decl, protocol.steps[name]? = some decl ∧
        isPosition data.verb name = true ∧
          (portResolution p protocol).step decl data.cause = .valid := by
  unfold establishedSteps
  cases hp : p.protocol with
  | none => simp
  | some protocol =>
      have hfold : ∀ decls : List (String × StepDecl), name ∈ decls.foldl (fun steps d =>
          if (portResolution p protocol).step d.2 data.cause = .valid then steps.insert d.1
          else steps) (∅ : BTreeSet String) ↔ ∃ decl, (name, decl) ∈ decls ∧
            (portResolution p protocol).step decl data.cause = .valid := by
        intro decls
        induction decls using List.reverseRecOn with
        | nil => simp
        | append_singleton decls d ih =>
            rw [List.foldl_append, List.foldl_cons, List.foldl_nil]
            have hsplit : (∃ decl, (name, decl) ∈ decls ++ [d] ∧
                (portResolution p protocol).step decl data.cause = .valid) ↔
                (name = d.1 ∧ (portResolution p protocol).step d.2 data.cause = .valid) ∨
                  ∃ decl, (name, decl) ∈ decls ∧
                    (portResolution p protocol).step decl data.cause = .valid := by
              obtain ⟨n, decl'⟩ := d
              simp only [List.mem_append, List.mem_singleton, Prod.mk.injEq, or_and_right,
                exists_or, or_comm (b := ∃ x, (name = n ∧ x = decl') ∧ _)]
              refine or_congr_left ⟨?_, ?_⟩
              · rintro ⟨decl, ⟨rfl, rfl⟩, hv⟩
                exact ⟨rfl, hv⟩
              · rintro ⟨rfl, hv⟩
                exact ⟨decl', ⟨rfl, rfl⟩, hv⟩
            rw [hsplit, ← ih]
            split
            · rename_i hv
              rw [mem_insert_iff, and_iff_left hv]
            · rename_i hv
              rw [or_iff_right fun h => hv h.2]
      refine (hfold _).trans ?_
      unfold declarations isPosition
      simp only [Option.some.injEq, exists_eq_left', List.mem_filter, and_assoc,
        Std.ExtTreeMap.mem_toList_iff_getElem?_eq_some]

/-- **The steps of a message depend on the facts of what it cites.** -/
theorem establishedSteps_congr {p q : MaterializedPositions} (hprotocol : p.protocol = q.protocol)
    (hroot : p.context.root = q.context.root) {data : PositionMetadata}
    (hget : ∀ h ∈ citedHashes data.cause,
      p.entries.get (nativeReference h) = q.entries.get (nativeReference h)) :
    establishedSteps p data = establishedSteps q data := by
  have hat : ∀ (protocol : CausalProtocol), ∀ g ∈ citedHashes data.cause, ∀ name,
      ((portResolution p protocol).at g name = .valid ↔
        (portResolution q protocol).at g name = .valid) := by
    intro protocol g hg name
    rw [at_port, at_port, hget g hg]
  have hsingle : ∀ {root : Option ContentHash} {g : String},
      Resolution.rewriteRoot root data.cause = some (.single g) → g ∈ citedHashes data.cause := by
    intro root g hg
    rw [cause_of_rewriteRoot hg (by simp)]
    simp [citedHashes, CausedBy.hashes]
  have hmulti : ∀ {root : Option ContentHash} {gs : List String},
      Resolution.rewriteRoot root data.cause = some (.multiple gs) →
        ∀ g ∈ gs, g ∈ citedHashes data.cause := by
    intro root gs hgs g hg
    rw [cause_of_rewriteRoot hgs (by simp)]
    simpa [citedHashes, CausedBy.hashes] using hg
  refine Std.ExtTreeSet.ext_mem fun name => ?_
  rw [mem_establishedSteps, mem_establishedSteps, hprotocol]
  refine exists_congr fun protocol => and_congr_right fun _ => exists_congr fun decl =>
    and_congr_right fun _ => and_congr_right fun _ => ?_
  rw [step_valid_iff, step_valid_iff]
  show (Resolution.rewriteRoot (some p.context.root) data.cause = _ ∧ _) ∨ _ ↔
    (Resolution.rewriteRoot (some q.context.root) data.cause = _ ∧ _) ∨ _
  rw [show (portResolution p protocol).root = some q.context.root from congrArg some hroot,
    show (portResolution q protocol).root = some q.context.root from rfl, hroot]
  refine or_congr_right (or_congr_right (or_congr ?_ ?_))
  · refine exists_congr fun g => and_congr_right fun hg => exists_congr fun name =>
      and_congr_right fun _ => hat protocol g (hsingle hg) name
  · refine exists_congr fun gs => exists_congr fun all => and_congr_right fun hgs =>
      and_congr_right fun _ => and_congr ?_ ?_
    · refine forall_congr' fun g => forall_congr' fun hg => exists_congr fun name =>
        and_congr_right fun _ => hat protocol g (hmulti hgs g hg) name
    · refine forall_congr' fun name => forall_congr' fun _ => exists_congr fun g =>
        and_congr_right fun hg => hat protocol g (hmulti hgs g hg) name

-- ── Covered histories ────

/-- An act carries what its message determines. -/
def Derived (sha256 : Octets → Digest) (a : Act) : Prop :=
  Act.fromMessage (typedRoot sha256) a.message a.signer = .ok a

variable {sha256 : Octets → Digest}

theorem Derived.consistent {a : Act} (h : Derived sha256 a) : Consistent (typedRoot sha256) a :=
  consistent_fromMessage h

theorem Derived.simple {a : Act} (h : Derived sha256 a) :
    a.message.innermostSimple = some a.simple ∧
      ∃ p, a.simple.performative = some p ∧ a.verb = p.name := by
  refine ⟨?_, h.consistent.metadata.2.1⟩
  unfold Act.simple
  cases hs : a.message.innermostSimple with
  | some m => rfl
  | none =>
      unfold Derived Act.fromMessage at h
      rw [hs] at h
      exact nomatch h

theorem address_eq {a : Act} (h : Consistent (typedRoot sha256) a) :
    a.address = "sha256-" ++ hex32 (buildTree sha256 a.simple).root := by
  rw [h.metadata.1]
  unfold wireAddress
  rw [stripStart_typedRoot]

/-- The address of a derived act is a wire address. -/
theorem Derived.isAddress {a : Act} (h : Derived sha256 a) : isAddress a.address = true := by
  unfold CbclEscrow.isAddress
  rw [address_eq h.consistent, stripStart_eq_some_iff.mpr rfl]
  exact isHex64_hex32 _

/-- **A reference is covered under the native spelling of the act it names.** -/
theorem nativeReference_iff {a : Act} (h : Consistent (typedRoot sha256) a) (k : String) :
    nativeReference k = typedRoot sha256 a.simple ↔ Spells (typedRoot sha256) k a := by
  unfold Spells
  rw [address_eq h]
  show nativeReference k = "sha256:" ++ _ ↔ k = "sha256:" ++ _ ∨ _
  generalize hex32 (buildTree sha256 a.simple).root = hex
  unfold nativeReference
  cases hs : stripStart "sha256-" k with
  | some rest =>
      have hk := stripStart_eq_some_iff.mp hs
      dsimp only
      rw [hk, ← String.toList_inj, ← String.toList_inj, ← String.toList_inj,
        String.toList_append, String.toList_append, String.toList_append, String.toList_append]
      simp
  | none =>
      dsimp only
      refine ⟨Or.inl, ?_⟩
      rintro (hk | hk)
      · exact hk
      · rw [stripStart_eq_some_iff.mpr hk] at hs
        exact nomatch hs

/-- Acts with one native address have one address. -/
theorem address_of_typedRoot {a b : Act} (ha : Consistent (typedRoot sha256) a)
    (hb : Consistent (typedRoot sha256) b)
    (h : typedRoot sha256 a.simple = typedRoot sha256 b.simple) : a.address = b.address :=
  names_unique ha hb (Or.inl rfl) (Or.inl h)

variable (sha256)

/-- The metadata of an act. -/
def metaOf (a : Act) : PositionMetadata := ⟨typedRoot sha256 a.simple, a.verb, a.simple.causedBy⟩

/-- The priority of an identity. -/
def priorityOf (id : String) : List UInt8 := (sha256 (octets id)).toList

/-- The steps a cache gives an act. -/
def stepsIn (p : CachedPositions) (a : Act) : BTreeSet String :=
  establishedSteps p.toMaterializedPositions (metaOf sha256 a)

/-- The ranks the acts of a verb hold. -/
def heldRanks (p : CachedPositions) (xs : List Act) (verb : String) (table : BTreeMap String Nat) :
    Set Nat :=
  {k | ∃ a ∈ xs, a.verb = verb ∧ ∃ s ∈ stepsIn sha256 p a, table[s]? = some k}

/-- Every act cites acts before it. -/
def Causal (xs : List Act) : Prop :=
  ∀ pre a post, xs = pre ++ a :: post → ∀ h ∈ citedHashes a.simple.causedBy,
    ∃ b ∈ pre, nativeReference h = typedRoot sha256 b.simple

/-- A cache covers a history: its facts are those of the acts, each act but the root cites
    acts before it, and the progress of a verb is the greatest rank its acts hold. -/
structure Covers (protocol : CausalProtocol) (code : List UInt8) (root : Act) (thread : ThreadId)
    (p : CachedPositions) (xs : List Act) : Prop where
  context : p.context = ⟨code, typedRoot sha256 root.simple, thread⟩
  bound : p.protocol = some protocol
  ranks : p.ranks = ranksOf protocol
  sound : Sound (priorityOf sha256) p.entries
  facts : ∀ f, f ∈ values p.entries ↔ ∃ a ∈ xs, f = ⟨metaOf sha256 a, stepsIn sha256 p a⟩
  threads : ∀ a ∈ xs, a.simple.thread = some thread
  causal : Causal sha256 xs
  rooted : ∀ a ∈ xs, citedHashes a.simple.causedBy = [] →
    typedRoot sha256 a.simple = typedRoot sha256 root.simple
  progress : ∀ verb n, p.progress[verb]? = some n ↔ ∃ table,
    (ranksOf protocol)[verb]? = some table ∧ (∃ a ∈ xs, a.verb = verb) ∧
      n = sSup (heldRanks sha256 p xs verb table)

variable {sha256}

/-- What an accepted message adds. -/
theorem applyAccepted_ok {p p' : CachedPositions} {a : Act} (ha : Derived sha256 a)
    (h : p.applyAccepted sha256 a.message = .ok p') :
    a.simple.thread = some p.context.thread ∧
      p.applyMetadata sha256 (metaOf sha256 a) = .ok p' := by
  obtain ⟨hs, perf, hperf, hverb⟩ := ha.simple
  unfold CachedPositions.applyAccepted at h
  rw [hs] at h
  dsimp only at h
  split at h
  · exact nomatch h
  rename_i hthread
  rw [hperf] at h
  refine ⟨not_not.mp hthread, ?_⟩
  unfold metaOf
  rw [hverb]
  exact h

theorem applyMetadata_ok {p p' : CachedPositions} {data : PositionMetadata}
    (hfresh : p.entries.get data.id = none) (h : p.applyMetadata sha256 data = .ok p') :
    p.checkCauses data = .ok () ∧ p' = CachedPositions.insert sha256
      { p with progress := p.advance data.verb (establishedSteps p.toMaterializedPositions data) }
      ⟨data, establishedSteps p.toMaterializedPositions data⟩ := by
  unfold CachedPositions.applyMetadata at h
  rw [hfresh] at h
  obtain ⟨u, hu, h⟩ := CbclExcept.bind_ok_iff.mp h
  refine ⟨hu, ?_⟩
  dsimp only at h
  split at h
  · exact nomatch h
  · injection h with h
    exact h.symm

theorem checkCauses_ok {p : CachedPositions} {data : PositionMetadata}
    (h : p.checkCauses data = .ok ()) :
    (∀ k ∈ citedHashes data.cause, p.contains k = true) ∧
      (data.id ≠ p.context.root → p.protocol.isSome = true → citedHashes data.cause ≠ []) := by
  unfold CachedPositions.checkCauses at h
  split at h
  · exact nomatch h
  rename_i hcited
  refine ⟨fun k hk => ?_, fun hroot hprotocol hnil => ?_⟩
  · by_contra hc
    exact hcited (List.any_eq_true.mpr ⟨k, hk, by simpa using hc⟩)
  · rw [if_neg hroot, if_pos ⟨hprotocol, Or.inl hnil⟩] at h
    exact nomatch h

/-- A cache keeps metadata: its facts are those of the records, and every record cites records
    before it. -/
structure Keeps (sha256 : Octets → Digest) (p : CachedPositions) (data : List PositionMetadata) :
    Prop where
  sound : Sound (priorityOf sha256) p.entries
  facts : ∀ f, f ∈ values p.entries ↔
    ∃ d ∈ data, f = ⟨d, establishedSteps p.toMaterializedPositions d⟩
  causal : ∀ pre d post, data = pre ++ d :: post → ∀ h ∈ citedHashes d.cause,
    ∃ b ∈ pre, nativeReference h = b.id

section Keeps

variable {p p' : CachedPositions} {data : List PositionMetadata} {d : PositionMetadata}

/-- What a cache finds under an identity. -/
theorem Keeps.get_iff (hk : Keeps sha256 p data) {id : String} {f : PositionFact} :
    p.entries.get id = some f ↔
      ∃ b ∈ data, b.id = id ∧ f = ⟨b, establishedSteps p.toMaterializedPositions b⟩ := by
  rw [get_eq_some_iff hk.sound, hk.facts]
  constructor
  · rintro ⟨⟨b, hb, rfl⟩, rfl⟩
    exact ⟨b, hb, rfl, rfl⟩
  · rintro ⟨b, hb, rfl, rfl⟩
    exact ⟨⟨b, hb, rfl⟩, rfl⟩

theorem Keeps.get (hk : Keeps sha256 p data) (hd : d ∈ data) :
    p.entries.get d.id = some ⟨d, establishedSteps p.toMaterializedPositions d⟩ :=
  hk.get_iff.mpr ⟨d, hd, rfl, rfl⟩

/-- **One new record**: it comes last, and no record changes its steps. -/
theorem Keeps.step (hk : Keeps sha256 p data) (hold : p.entries.get d.id = none)
    (h : p.applyMetadata sha256 d = .ok p') : Keeps sha256 p' (data ++ [d]) ∧
      ∀ b ∈ data ++ [d], establishedSteps p'.toMaterializedPositions b
        = establishedSteps p.toMaterializedPositions b := by
  obtain ⟨hcauses, hp'⟩ := applyMetadata_ok hold h
  obtain ⟨hcited, -⟩ := checkCauses_ok hcauses
  have hentries : p'.entries = put ⟨d, establishedSteps p.toMaterializedPositions d⟩
      (priorityOf sha256 d.id) p.entries := by rw [hp']; rfl
  have hsound : Sound (priorityOf sha256) p'.entries := by
    rw [hentries]
    refine sound_put hk.sound fun g hg hid => ?_
    obtain ⟨b, hb, rfl⟩ := (hk.facts g).mp hg
    rw [← hid, hk.get hb] at hold
    exact nomatch hold
  have hmem : ∀ g, g ∈ values p'.entries ↔
      g = ⟨d, establishedSteps p.toMaterializedPositions d⟩ ∨ g ∈ values p.entries := by
    intro g
    rw [hentries]
    exact mem_values_put
  -- what was recorded before is found unchanged
  have hget : ∀ id, (p.entries.get id).isSome = true →
      p'.entries.get id = p.entries.get id := by
    intro id hid
    obtain ⟨f, hf⟩ := Option.isSome_iff_exists.mp hid
    obtain ⟨hf1, hf2⟩ := (get_eq_some_iff hk.sound).mp hf
    rw [hf]
    exact (get_eq_some_iff hsound).mpr ⟨(hmem f).mpr (Or.inr hf1), hf2⟩
  have hsteps : ∀ b : PositionMetadata, (∀ k ∈ citedHashes b.cause,
      (p.entries.get (nativeReference k)).isSome = true) →
        establishedSteps p'.toMaterializedPositions b
          = establishedSteps p.toMaterializedPositions b := fun b hb =>
    establishedSteps_congr (by rw [hp']; rfl) (by rw [hp']; rfl) fun k hk => hget _ (hb k hk)
  have hstable : ∀ b ∈ data ++ [d], establishedSteps p'.toMaterializedPositions b
      = establishedSteps p.toMaterializedPositions b := by
    intro b hb
    refine hsteps b fun k hkb => ?_
    rcases List.mem_append.mp hb with hb | hb
    · obtain ⟨pre, post, hsplit⟩ := List.append_of_mem hb
      obtain ⟨c, hc, hkc⟩ := hk.causal pre b post hsplit k hkb
      rw [hkc, hk.get (hsplit ▸ List.mem_append_left _ hc)]
      rfl
    · exact hcited k (List.mem_singleton.mp hb ▸ hkb)
  refine ⟨⟨hsound, fun f => ?_, ?_⟩, hstable⟩
  · rw [hmem, hk.facts]
    constructor
    · rintro (rfl | ⟨b, hb, rfl⟩)
      · exact ⟨d, by simp, by rw [hstable d (by simp)]⟩
      · exact ⟨b, List.mem_append_left _ hb, by rw [hstable b (List.mem_append_left _ hb)]⟩
    · rintro ⟨b, hb, rfl⟩
      rw [hstable b hb]
      rcases List.mem_append.mp hb with hb | hb
      · exact Or.inr ⟨b, hb, rfl⟩
      · rw [List.mem_singleton.mp hb]
        exact Or.inl rfl
  · -- the new record is last: what it cites was recorded before
    intro pre b post hdata k hkb
    rcases List.eq_nil_or_concat post with rfl | ⟨post', c, rfl⟩
    · obtain ⟨hpre, hdb⟩ := List.append_inj' hdata rfl
      injection hdb with hdb
      subst hdb
      obtain ⟨f, hf⟩ := Option.isSome_iff_exists.mp (hcited k hkb)
      obtain ⟨b, hb, hid, -⟩ := hk.get_iff.mp hf
      exact ⟨b, hpre ▸ hb, hid.symm⟩
    · have hdata' : data ++ [d] = (pre ++ b :: post') ++ [c] := by
        rw [hdata]
        simp
      obtain ⟨hpre, -⟩ := List.append_inj' hdata' rfl
      exact hk.causal pre b post' hpre k hkb

/-- **Induction along the records.** -/
theorem Keeps.induct (hk : Keeps sha256 p data)
    {P : PositionMetadata → Prop} (hstep : ∀ d ∈ data, (∀ k ∈ citedHashes d.cause, ∃ b ∈ data,
      nativeReference k = b.id ∧ P b) → P d) : ∀ d ∈ data, P d := by
  have hpre : ∀ pre : List PositionMetadata, pre <+: data → ∀ d ∈ pre, P d := by
    intro pre
    induction pre using List.reverseRecOn with
    | nil => exact fun _ d hd => nomatch hd
    | append_singleton pre x ih =>
        intro hprefix d hd
        have hbefore := ih ((List.prefix_append pre [x]).trans hprefix)
        rcases List.mem_append.mp hd with hd | hd
        · exact hbefore d hd
        · rw [List.mem_singleton.mp hd]
          obtain ⟨post, hdata⟩ := hprefix
          have hsplit : data = pre ++ x :: post := by
            rw [← hdata]
            simp
          refine hstep x (by rw [hsplit]; simp) fun k hkx => ?_
          obtain ⟨b, hb, hkb⟩ := hk.causal pre x post hsplit k hkx
          exact ⟨b, by rw [hsplit]; exact List.mem_append_left _ hb, hkb, hbefore b hb⟩
  exact hpre data (List.prefix_refl data)

end Keeps

/-- The greatest of two bounded sets of numbers. -/
theorem sSup_union_nat {A B : Set Nat} (hA : BddAbove A) (hB : BddAbove B) :
    sSup (A ∪ B) = max (sSup A) (sSup B) := by
  rcases A.eq_empty_or_nonempty with rfl | hne
  · simp
  rcases B.eq_empty_or_nonempty with rfl | hne'
  · simp
  exact csSup_union hA hne hB hne'

/-- Ranks are values of a finite table. -/
theorem bddAbove_ranks (table : BTreeMap String Nat) {A : Set Nat}
    (h : ∀ k ∈ A, ∃ s : String, table[s]? = some k) : BddAbove A := by
  refine (List.finite_toSet (valuesOf table)).bddAbove.mono fun k hk => ?_
  obtain ⟨s, hs⟩ := h k hk
  exact (mem_valuesOf_iff table k).mpr ⟨s, hs⟩

section Step

variable {protocol : CausalProtocol} {code : List UInt8} {root : Act} {thread : ThreadId}
  {p p' : CachedPositions} {xs : List Act} {a : Act}

/-- An empty cache covers no acts. -/
theorem covers_new (h : CachedPositions.new ⟨code, typedRoot sha256 root.simple, thread⟩
    (some protocol) = .ok p) : Covers sha256 protocol code root thread p [] := by
  unfold CachedPositions.new at h
  dsimp only at h
  split at h
  · exact nomatch h
  injection h with h
  subst h
  refine ⟨rfl, rfl, rfl, trivial, fun f => ?_, fun a ha => ?_, ?_, fun a ha => ?_, fun verb n => ?_⟩
  · exact iff_of_false (fun hf => nomatch hf) fun ⟨a, ha, _⟩ => nomatch ha
  · exact nomatch ha
  · intro pre a post hnil
    exact absurd hnil.symm (by simp)
  · exact nomatch ha
  · refine iff_of_false ?_ fun ⟨_, _, ⟨a, ha, _⟩, _⟩ => nomatch ha
    simp

/-- The fact of a covered act. -/
theorem Covers.get (hc : Covers sha256 protocol code root thread p xs) {b : Act} (hb : b ∈ xs) :
    p.entries.get (typedRoot sha256 b.simple)
      = some ⟨metaOf sha256 b, stepsIn sha256 p b⟩ :=
  (get_eq_some_iff hc.sound).mpr ⟨(hc.facts _).mpr ⟨b, hb, rfl⟩, rfl⟩

theorem Covers.get_iff (hc : Covers sha256 protocol code root thread p xs) {id : String}
    {f : PositionFact} : p.entries.get id = some f ↔
      ∃ b ∈ xs, typedRoot sha256 b.simple = id ∧ f = ⟨metaOf sha256 b, stepsIn sha256 p b⟩ := by
  rw [get_eq_some_iff hc.sound, hc.facts]
  constructor
  · rintro ⟨⟨b, hb, rfl⟩, rfl⟩
    exact ⟨b, hb, rfl, rfl⟩
  · rintro ⟨b, hb, rfl, rfl⟩
    exact ⟨⟨b, hb, rfl⟩, rfl⟩

/-- The ranks of one more act. -/
theorem heldRanks_snoc {verb : String} {table : BTreeMap String Nat}
    (hstable : ∀ b ∈ xs, stepsIn sha256 p' b = stepsIn sha256 p b) :
    heldRanks sha256 p' (xs ++ [a]) verb table = heldRanks sha256 p xs verb table
      ∪ {k | a.verb = verb ∧ ∃ s ∈ stepsIn sha256 p' a, table[s]? = some k} := by
  ext k
  unfold heldRanks
  simp only [Set.mem_ofPred_eq, Set.mem_union, List.mem_append, List.mem_singleton, or_and_right,
    exists_or, exists_eq_left]
  refine or_congr_left (exists_congr fun b => and_congr_right fun hb => ?_)
  rw [hstable b hb]

/-- An act leaves the progress of other verbs alone. -/
theorem advance_other {verb verb' : String} {steps : BTreeSet String} (h : verb ≠ verb') :
    (p.advance verb steps)[verb']? = p.progress[verb']? := by
  unfold CachedPositions.advance
  split
  · rfl
  · rw [getElem?_insert_eq, if_neg (Ne.symm h)]

/-- The progress of the verb of a new act. -/
theorem advance_spec (hc : Covers sha256 protocol code root thread p xs)
    (hstable : ∀ b ∈ xs, stepsIn sha256 p' b = stepsIn sha256 p b)
    (hprogress : p'.progress = p.advance a.verb (stepsIn sha256 p' a)) (verb : String) (n : Nat) :
    p'.progress[verb]? = some n ↔ ∃ table, (ranksOf protocol)[verb]? = some table ∧
      (∃ b ∈ xs ++ [a], b.verb = verb) ∧ n = sSup (heldRanks sha256 p' (xs ++ [a]) verb table) := by
  have hother : a.verb ≠ verb → ((∃ b ∈ xs ++ [a], b.verb = verb) ↔ ∃ b ∈ xs, b.verb = verb) := by
    intro hne
    simp [List.mem_append, or_and_right, exists_or, hne]
  rw [hprogress]
  by_cases hverb : a.verb = verb
  · subst hverb
    unfold CachedPositions.advance
    rw [hc.ranks]
    cases htable : (ranksOf protocol)[a.verb]? with
    | none =>
        dsimp only
        rw [hc.progress, htable]
        simp
    | some table =>
        have hpast : p.progressOf a.verb = sSup (heldRanks sha256 p xs a.verb table) := by
          unfold CachedPositions.progressOf
          by_cases hany : ∃ b ∈ xs, b.verb = a.verb
          · rw [(hc.progress a.verb _).mpr ⟨table, htable, hany, rfl⟩]
            rfl
          · have hnone : p.progress[a.verb]? = none := by
              rw [Option.eq_none_iff_forall_ne_some]
              intro m hm
              obtain ⟨_, _, hex, _⟩ := (hc.progress a.verb m).mp hm
              exact hany hex
            have hempty : heldRanks sha256 p xs a.verb table = ∅ := by
              refine Set.eq_empty_of_forall_notMem fun k hk => ?_
              obtain ⟨b, hb, hbv, -⟩ := hk
              exact hany ⟨b, hb, hbv⟩
            rw [hnone, hempty]
            simp
        have hnew : {k | a.verb = a.verb ∧ ∃ s ∈ stepsIn sha256 p' a, table[s]? = some k}
            = {k | k ∈ (stepsIn sha256 p' a).toList.filterMap fun s => table[s]?} := by
          ext k
          simp [List.mem_filterMap]
        have hsup : max (p.progressOf a.verb)
            ((((stepsIn sha256 p' a).toList.filterMap fun s => table[s]?).max?).getD 0)
              = sSup (heldRanks sha256 p' (xs ++ [a]) a.verb table) := by
          rw [heldRanks_snoc hstable, sSup_union_nat, hpast, max?_eq_sSup, hnew]
          · refine bddAbove_ranks table fun k hk => ?_
            obtain ⟨b, -, -, s, -, hs⟩ := hk
            exact ⟨s, hs⟩
          · refine bddAbove_ranks table fun k hk => ?_
            obtain ⟨-, s, -, hs⟩ := hk
            exact ⟨s, hs⟩
        dsimp only
        rw [getElem?_insert_eq, if_pos rfl, hsup]
        constructor
        · intro h
          exact ⟨table, rfl, ⟨a, by simp, rfl⟩, (Option.some.inj h).symm⟩
        · rintro ⟨table', htable', -, rfl⟩
          injection htable' with htable'
          rw [htable']
  · rw [advance_other hverb, hc.progress]
    refine exists_congr fun table => and_congr_right fun _ => ?_
    rw [hother hverb, heldRanks_snoc hstable]
    have hnone : {k | a.verb = verb ∧ ∃ s ∈ stepsIn sha256 p' a, table[s]? = some k} = ∅ :=
      Set.eq_empty_of_forall_notMem fun k hk => hverb hk.1
    rw [hnone, Set.union_empty]

/-- A covered history is kept as the metadata of its acts. -/
theorem Covers.keeps (hc : Covers sha256 protocol code root thread p xs) :
    Keeps sha256 p (xs.map (metaOf sha256)) := by
  refine ⟨hc.sound, fun f => ?_, fun pre d post hdata k hk => ?_⟩
  · rw [hc.facts]
    simp only [List.mem_map, exists_exists_and_eq_and]
    rfl
  · obtain ⟨pre', rest, rfl, rfl, hrest⟩ := List.map_eq_append_iff.mp hdata
    obtain ⟨a, post', rfl, rfl, -⟩ := List.map_eq_cons_iff.mp hrest
    obtain ⟨b, hb, hkb⟩ := hc.causal pre' a post' rfl k hk
    exact ⟨metaOf sha256 b, List.mem_map_of_mem hb, hkb⟩

/-- **One accepted act keeps the cache covering.** -/
theorem Covers.step (hc : Covers sha256 protocol code root thread p xs)
    (hder : ∀ b ∈ xs, Derived sha256 b) (ha : Derived sha256 a)
    (hfresh : ∀ b ∈ xs, b.address ≠ a.address)
    (h : p.applyAccepted sha256 a.message = .ok p') :
    Covers sha256 protocol code root thread p' (xs ++ [a]) := by
  obtain ⟨hthread, h⟩ := applyAccepted_ok ha h
  have hnone : p.entries.get (metaOf sha256 a).id = none := by
    rw [Option.eq_none_iff_forall_ne_some]
    intro f hf
    obtain ⟨b, hb, hid, -⟩ := hc.get_iff.mp hf
    exact hfresh b hb (address_of_typedRoot (hder b hb).consistent ha.consistent hid)
  obtain ⟨hcauses, hp'⟩ := applyMetadata_ok hnone h
  obtain ⟨-, hroot⟩ := checkCauses_ok hcauses
  obtain ⟨hkeeps, hstable⟩ := hc.keeps.step hnone h
  have hself : stepsIn sha256 p' a = stepsIn sha256 p a := hstable _ (by simp)
  refine ⟨?_, ?_, ?_, hkeeps.sound, fun f => ?_, fun b hb => ?_, ?_, fun b hb hnil => ?_, ?_⟩
  · rw [← hc.context, hp']
    rfl
  · rw [← hc.bound, hp']
    rfl
  · rw [← hc.ranks, hp']
    rfl
  · rw [hkeeps.facts, ← List.map_singleton, ← List.map_append]
    simp only [List.mem_map, exists_exists_and_eq_and]
    rfl
  · rcases List.mem_append.mp hb with hb | hb
    · exact hc.threads b hb
    · rw [List.mem_singleton.mp hb, hthread, hc.context]
  · intro pre b post hxs k hk
    obtain ⟨d, hd, hkd⟩ := hkeeps.causal (pre.map (metaOf sha256)) (metaOf sha256 b)
      (post.map (metaOf sha256)) (by
        rw [← List.map_singleton, ← List.map_append, hxs, List.map_append, List.map_cons]) k hk
    obtain ⟨c, hc', rfl⟩ := List.mem_map.mp hd
    exact ⟨c, hc', hkd⟩
  · rcases List.mem_append.mp hb with hb | hb
    · exact hc.rooted b hb hnil
    · rw [List.mem_singleton.mp hb] at hnil ⊢
      by_contra hne
      refine hroot ?_ ?_ hnil
      · rw [hc.context]
        exact hne
      · rw [hc.bound]
        rfl
  · refine advance_spec hc (fun b hb => hstable _ ?_) ?_
    · exact List.mem_append_left _ (List.mem_map_of_mem hb)
    · rw [hself, hp']
      rfl

end Step

/-- **Induction along a causal history.** -/
theorem Causal.induct {xs : List Act} (h : Causal sha256 xs) {P : Act → Prop}
    (hstep : ∀ a ∈ xs, (∀ k ∈ citedHashes a.simple.causedBy, ∃ b ∈ xs,
      nativeReference k = typedRoot sha256 b.simple ∧ P b) → P a) : ∀ a ∈ xs, P a := by
  have hpre : ∀ pre : List Act, pre <+: xs → ∀ a ∈ pre, P a := by
    intro pre
    induction pre using List.reverseRecOn with
    | nil => exact fun _ a ha => nomatch ha
    | append_singleton pre x ih =>
        intro hprefix a ha
        have hbefore := ih ((List.prefix_append pre [x]).trans hprefix)
        rcases List.mem_append.mp ha with ha | ha
        · exact hbefore a ha
        · rw [List.mem_singleton.mp ha]
          obtain ⟨post, hxs⟩ := hprefix
          have hsplit : xs = pre ++ x :: post := by
            rw [← hxs]
            simp
          refine hstep x (by rw [hsplit]; simp) fun k hk => ?_
          obtain ⟨b, hb, hkb⟩ := h pre x post hsplit k hk
          exact ⟨b, by rw [hsplit]; exact List.mem_append_left _ hb, hkb, hbefore b hb⟩
  exact hpre xs (List.prefix_refl xs)

/-- **The cache of a history does not depend on the order of arrival.** -/
theorem Covers.unique {protocol : CausalProtocol} {code : List UInt8} {root root' : Act}
    {thread thread' : ThreadId} {p p' : CachedPositions} {xs ys : List Act}
    (hc : Covers sha256 protocol code root thread p xs)
    (hc' : Covers sha256 protocol code root' thread' p' ys) (hsame : ∀ a, a ∈ xs ↔ a ∈ ys)
    (hroot : root ∈ xs) (hopens : opensThread root.message = true) (hder : Derived sha256 root) :
    p = p' := by
  have hcited : citedHashes root.simple.causedBy = [] := by
    unfold opensThread at hopens
    rw [hder.simple.1, Bool.and_eq_true] at hopens
    have hbegin : root.simple.causedBy = some .begin := by simpa using hopens.2
    rw [hbegin]
    rfl
  have hcontext : p.context = p'.context := by
    have hthread : thread = thread' := by
      have h1 := hc.threads root hroot
      rw [hc'.threads root ((hsame root).mp hroot)] at h1
      exact (Option.some.inj h1).symm
    rw [hc.context, hc'.context, hthread, hc'.rooted root ((hsame root).mp hroot) hcited]
  have hbound : p.protocol = p'.protocol := hc.bound.trans hc'.bound.symm
  have hsteps : ∀ a ∈ xs, stepsIn sha256 p a = stepsIn sha256 p' a := by
    refine hc.causal.induct fun a _ hcites => ?_
    refine establishedSteps_congr hbound (congrArg (·.root) hcontext) fun k hk => ?_
    obtain ⟨b, hb, hkb, heq⟩ := hcites k hk
    rw [hkb, hc.get hb, hc'.get ((hsame b).mp hb), heq]
  have hentries : p.entries = p'.entries := by
    refine treap_unique hc.sound hc'.sound fun f => ?_
    rw [hc.facts, hc'.facts]
    constructor
    · rintro ⟨a, ha, rfl⟩
      exact ⟨a, (hsame a).mp ha, by rw [hsteps a ha]⟩
    · rintro ⟨a, ha, rfl⟩
      exact ⟨a, (hsame a).mpr ha, by rw [hsteps a ((hsame a).mpr ha)]⟩
  have hprogress : p.progress = p'.progress := by
    refine Std.ExtTreeMap.ext_getElem? fun verb => Option.ext fun n => ?_
    rw [hc.progress, hc'.progress]
    refine exists_congr fun table => and_congr_right fun _ => ?_
    have hheld : heldRanks sha256 p xs verb table = heldRanks sha256 p' ys verb table := by
      ext k
      refine exists_congr fun a => ?_
      rw [← hsame]
      refine and_congr_right fun ha => ?_
      rw [hsteps a ha]
    simp only [hheld, hsame]
  have hranks : p.ranks = p'.ranks := hc.ranks.trans hc'.ranks.symm
  clear hc hc' hsteps
  obtain ⟨⟨_, _, _⟩, _, _⟩ := p
  obtain ⟨⟨_, _, _⟩, _, _⟩ := p'
  dsimp only at hcontext hbound hentries hprogress hranks
  subst hcontext hbound hentries hprogress hranks
  rfl

-- ── The cache and the fold ────

section Fold

variable {protocol : CausalProtocol} {code : List UInt8} {root : Act} {thread : ThreadId}
  {p : CachedPositions} {xs : List Act} {S : Finset Act}
  (hc : Covers sha256 protocol code root thread p xs) (henum : Enumerates xs S)
  (hder : ∀ a ∈ xs, Derived sha256 a) (hroot : root ∈ xs)
  (hopens : opensThread root.message = true)

theorem opens_iff {a : Act} (ha : Derived sha256 a) : opensThread a.message = true ↔
    a.message.wrapperType = some .withRoles ∧ a.simple.causedBy = some .begin := by
  unfold opensThread
  rw [ha.simple.1]
  simp

include hc henum hder hroot hopens in
/-- The root of the fold is the root of the cache. -/
theorem rootHash_covered :
    rootHash (typedRoot sha256) S thread = some (typedRoot sha256 root.simple) := by
  obtain ⟨hwrapper, hbegin⟩ := (opens_iff (hder root hroot)).mp hopens
  have hpred : ∀ a ∈ xs, a.predecessors = [] → a = root := by
    intro a ha hnil
    rw [(hder a ha).consistent.metadata.2.2.1] at hnil
    exact henum.same ha hroot (address_of_typedRoot (hder a ha).consistent
      (hder root hroot).consistent (hc.rooted a ha hnil))
  have hisroot : IsRoot S thread root := by
    refine ⟨Finset.mem_filter.mpr ⟨(henum.mem root).mp hroot, hc.threads root hroot, hwrapper, ?_⟩,
      fun b hb => ?_⟩
    · rw [(hder root hroot).consistent.metadata.2.2.1, hbegin]
      rfl
    · obtain ⟨hb, -, -, hnil⟩ := Finset.mem_filter.mp hb
      rw [hpred b ((henum.mem b).mpr hb) hnil]
  unfold rootHash
  rw [dif_pos ⟨root, hisroot⟩]
  have hex : ∃ a, IsRoot S thread a := ⟨root, hisroot⟩
  obtain ⟨hmem, -⟩ := hex.choose_spec
  obtain ⟨hchosen, -, -, hnil⟩ := Finset.mem_filter.mp hmem
  rw [hpred hex.choose ((henum.mem _).mpr hchosen) hnil]

include hc henum hder hroot hopens in
/-- **The steps of the cache are the occurrences an act inhabits.** -/
theorem mem_stepsIn_iff (hplaced : ∀ n ∈ protocol.steps, n ∈ protocolOrder protocol) :
    ∀ a ∈ xs, ∀ k name, Spells (typedRoot sha256) k a →
      (name ∈ stepsIn sha256 p a ↔ Inhabits (typedRoot sha256) protocol S thread k name) := by
  have hcons : ∀ a ∈ xs, Consistent (typedRoot sha256) a := fun a ha => (hder a ha).consistent
  have hrooted : (portResolution p.toMaterializedPositions protocol).root
      = rootHash (typedRoot sha256) S thread := by
    rw [rootHash_covered hc henum hder hroot hopens]
    show some p.context.root = _
    rw [hc.context]
  refine hc.causal.induct fun a ha hcites k name hspells => ?_
  have hnames : Names (typedRoot sha256) S thread k a :=
    (names_iff henum).mpr ⟨ha, hc.threads a ha, hspells⟩
  -- a cited message is placed by its fact as it is by the meaning
  have hat : ∀ g ∈ citedHashes a.simple.causedBy, ∀ q,
      ((portResolution p.toMaterializedPositions protocol).at g q = .valid ↔
        Fills (typedRoot sha256) protocol S thread g q) := by
    intro g hg q
    obtain ⟨b, hb, hgb, ih⟩ := hcites g hg
    have hspell : Spells (typedRoot sha256) g b := (nativeReference_iff (hcons b hb) g).mp hgb
    have hnamed : Names (typedRoot sha256) S thread g b :=
      (names_iff henum).mpr ⟨hb, hc.threads b hb, hspell⟩
    rw [at_port, hgb, hc.get hb]
    simp only [Option.some.injEq, exists_eq_left']
    constructor
    · rintro (⟨hplain, hsingle, hbase⟩ | hin)
      · exact .ordinary hnamed hbase.symm hplain hsingle
      · exact .copy ((ih g q hspell).mp hin)
    · intro hfills
      cases hfills with
      | ordinary named verb plain single =>
          rw [names_functional henum hcons named hnamed] at verb single
          exact Or.inl ⟨plain, single, verb.symm⟩
      | copy inhabits => exact Or.inr ((ih g q hspell).mpr inhabits)
  unfold stepsIn
  rw [mem_establishedSteps]
  constructor
  · rintro ⟨protocol', hbound, decl, hdecl, hposition, hvalid⟩
    rw [hc.bound] at hbound
    injection hbound with hbound
    subst hbound
    obtain ⟨hne, hbase⟩ : name ≠ BEGIN_KEYWORD ∧ repeatBaseName name = a.verb :=
      of_decide_eq_true hposition
    have hocc : Occurrence protocol name decl := by
      refine ⟨hplaced name ?_, hne, hdecl⟩
      rw [Std.ExtTreeMap.mem_iff_isSome_getElem?, hdecl]
      rfl
    exact (inhabits_iff henum hcons protocol hrooted hnames hbase.symm hocc
      fun g hg q _ => hat g hg q).mp hvalid
  · intro hin
    obtain ⟨b, decl, hb, hverb, hocc⟩ := inhabits_named hin
    rw [names_functional henum hcons hb hnames] at hverb
    refine ⟨protocol, hc.bound, decl, hocc.2.2, decide_eq_true ⟨hocc.2.1, hverb.symm⟩, ?_⟩
    exact (inhabits_iff henum hcons protocol hrooted hnames hverb hocc
      fun g hg q _ => hat g hg q).mpr hin

include hc henum hder hroot hopens in
/-- **The progress of the cache is the progress of the fold.** -/
theorem progressOf_covered (verb : String) :
    p.progressOf verb = CbclStateMeaning.progressOf (typedRoot sha256) (some protocol) S verb := by
  have hset : {rank | ∃ q, some protocol = some q ∧
      Established (typedRoot sha256) q S verb rank}
        = {rank | Established (typedRoot sha256) protocol S verb rank} := by
    ext rank
    constructor
    · rintro ⟨q, hq, h⟩
      injection hq with hq
      rw [hq]
      exact h
    · exact fun h => ⟨protocol, rfl, h⟩
  unfold CbclStateMeaning.progressOf CachedPositions.progressOf
  rw [hset]
  cases htable : (ranksOf protocol)[verb]? with
  | none =>
      have hnone : p.progress[verb]? = none := by
        rw [Option.eq_none_iff_forall_ne_some]
        intro n hn
        obtain ⟨table, ht, -⟩ := (hc.progress verb n).mp hn
        rw [htable] at ht
        exact nomatch ht
      have hempty : {rank | Established (typedRoot sha256) protocol S verb rank} = ∅ := by
        refine Set.eq_empty_of_forall_notMem fun rank ⟨chain, hchain, _⟩ => ?_
        rw [(getElem?_ranksOf protocol verb _).mpr ⟨chain, hchain, rfl⟩] at htable
        exact nomatch htable
      rw [hnone, hempty]
      simp
  | some table =>
      obtain ⟨chain, hchain, rfl⟩ := (getElem?_ranksOf protocol verb table).mp htable
      obtain ⟨hfilter, hplaced⟩ := positionChain_ok hchain
      have hnodup : chain.Nodup := by
        rw [hfilter]
        exact (Topo.nodup (topo_protocolOrder protocol)).filter _
      have hheld : heldRanks sha256 p xs verb (rankTable chain)
          = {rank | Established (typedRoot sha256) protocol S verb rank} := by
        ext rank
        constructor
        · rintro ⟨a, ha, hverb, s, hs, hrank⟩
          obtain ⟨i, hi, rfl⟩ := (getElem?_rankTable hnodup s rank).mp hrank
          refine ⟨chain, hchain, s, i, hi, rfl, a, (henum.mem a).mp ha, hverb, thread,
            hc.threads a ha, ?_⟩
          exact (mem_stepsIn_iff hc henum hder hroot hopens hplaced a ha a.address s
            (Or.inr rfl)).mp hs
        · rintro ⟨chain', hchain', s, i, hi, rfl, a, haS, hverb, thread', hthread', hin⟩
          rw [hchain] at hchain'
          injection hchain' with hchain'
          subst hchain'
          have ha : a ∈ xs := (henum.mem a).mpr haS
          have hthread : thread' = thread := by
            rw [hc.threads a ha] at hthread'
            exact (Option.some.inj hthread').symm
          subst hthread
          exact ⟨a, ha, hverb, s, (mem_stepsIn_iff hc henum hder hroot hopens hplaced a ha
            a.address s (Or.inr rfl)).mpr hin, (getElem?_rankTable hnodup s _).mpr ⟨i, hi, rfl⟩⟩
      rw [← hheld]
      by_cases hany : ∃ a ∈ xs, a.verb = verb
      · rw [(hc.progress verb _).mpr ⟨_, htable, hany, rfl⟩]
        rfl
      · have hnone : p.progress[verb]? = none := by
          rw [Option.eq_none_iff_forall_ne_some]
          intro n hn
          obtain ⟨_, _, hex, _⟩ := (hc.progress verb n).mp hn
          exact hany hex
        have hempty : heldRanks sha256 p xs verb (rankTable chain) = ∅ :=
          Set.eq_empty_of_forall_notMem fun k ⟨a, ha, hverb, _⟩ => hany ⟨a, ha, hverb⟩
        rw [hnone, hempty]
        simp

end Fold

-- ── The checkpoint's handle ────

section Resume

variable {protocolCode : Option CausalProtocol → List UInt8} {protocol : Option CausalProtocol}
  {verb : String} {r r' : ProgressResume} {xs ys : List Act}

variable (sha256 protocolCode) in
/-- A handle continues a history: without a protocol it keeps nothing, else its cache covers
    the acts from the root on. -/
structure Resumes (protocol : Option CausalProtocol) (verb : String) (r : ProgressResume)
    (xs : List Act) : Prop where
  bound : r.protocol = protocol
  reads : r.verb = verb
  idle : protocol = none → r.positions = none
  unopened : ∀ q, protocol = some q → r.positions = none → xs = []
  covered : ∀ q p, protocol = some q → r.positions = some p →
    ∃ root ∈ xs, opensThread root.message = true ∧ ∃ thread,
      Covers sha256 q (protocolCode (some q)) root thread p xs

theorem resumes_new (h : ProgressResume.new protocolCode protocol verb = .ok r) :
    Resumes sha256 protocolCode protocol verb r [] := by
  unfold ProgressResume.new at h
  obtain ⟨_, _, h⟩ := CbclExcept.bind_ok_iff.mp h
  injection h with h
  subst h
  exact ⟨rfl, rfl, fun _ => rfl, fun _ _ _ => rfl, fun q p _ hp => nomatch hp⟩

theorem orInvalid_ok {α : Type} {reason : String} {x : Except String α} {a : α}
    (h : orInvalid reason x = .ok a) : x = .ok a := by
  cases x with
  | error e => exact nomatch h
  | ok b =>
      injection h with h
      rw [h]

/-- What an application does to the cache. -/
theorem apply_ok {a : Act} (ha : Derived sha256 a) {q : CausalProtocol}
    (hq : r.protocol = some q) (h : r.apply sha256 protocolCode a = .ok r') :
    ∃ p', r' = { r with positions := some p' } ∧
      ((∃ p, r.positions = some p ∧ p.applyAccepted sha256 a.message = .ok p') ∨
        (r.positions = none ∧ opensThread a.message = true ∧ ∃ thread p,
          CachedPositions.new ⟨protocolCode (some q), typedRoot sha256 a.simple, thread⟩ (some q)
            = .ok p ∧ p.applyAccepted sha256 a.message = .ok p')) := by
  obtain ⟨hs, perf, hperf, -⟩ := ha.simple
  unfold ProgressResume.apply at h
  rw [hs] at h
  dsimp only at h
  rw [hperf] at h
  dsimp only at h
  split at h
  · exact nomatch h
  have hsome : r.protocol.isNone = false := by rw [hq]; rfl
  rw [hsome, if_neg (by simp)] at h
  cases hthread : a.simple.thread with
  | none => rw [hthread] at h; exact nomatch h
  | some thread =>
      rw [hthread] at h
      dsimp only at h
      cases hpos : r.positions with
      | some p =>
          rw [hpos] at h
          obtain ⟨p', hp', h⟩ := CbclExcept.bind_ok_iff.mp h
          injection h with h
          refine ⟨p', h.symm, ?_⟩
          unfold ProgressResume.extend at hp'
          split at hp'
          · exact nomatch hp'
          · exact Or.inl ⟨p, rfl, orInvalid_ok hp'⟩
      | none =>
          rw [hpos] at h
          obtain ⟨p', hp', h⟩ := CbclExcept.bind_ok_iff.mp h
          injection h with h
          refine ⟨p', h.symm, ?_⟩
          unfold ProgressResume.open_ at hp'
          split at hp'
          · exact nomatch hp'
          rename_i hopens
          obtain ⟨p, hp, hp'⟩ := CbclExcept.bind_ok_iff.mp hp'
          rw [hq] at hp
          exact Or.inr ⟨rfl, not_not.mp hopens, thread, p, orInvalid_ok hp, orInvalid_ok hp'⟩

/-- **One accepted act continues the handle.** -/
theorem Resumes.step (h : Resumes sha256 protocolCode protocol verb r xs)
    (hder : ∀ b ∈ xs, Derived sha256 b) {a : Act} (ha : Derived sha256 a)
    (hfresh : ∀ b ∈ xs, b.address ≠ a.address)
    (happly : r.apply sha256 protocolCode a = .ok r') :
    Resumes sha256 protocolCode protocol verb r' (xs ++ [a]) := by
  cases hprotocol : protocol with
  | none =>
      have hsame : r' = r := by
        obtain ⟨hs, perf, hperf, -⟩ := ha.simple
        unfold ProgressResume.apply at happly
        rw [hs] at happly
        dsimp only at happly
        rw [hperf] at happly
        dsimp only at happly
        split at happly
        · exact nomatch happly
        have hnone : r.protocol.isNone = true := by rw [h.bound, hprotocol]; rfl
        rw [hnone, if_pos rfl] at happly
        injection happly with happly
        exact happly.symm
      subst hsame
      exact ⟨hprotocol ▸ h.bound, h.reads, fun _ => h.idle hprotocol,
        fun q hq => (nomatch hq), fun q p hq => (nomatch hq)⟩
  | some q =>
      obtain ⟨p', rfl, hcases⟩ := apply_ok ha (hprotocol ▸ h.bound) happly
      refine ⟨hprotocol ▸ h.bound, h.reads, fun hnone => (nomatch hnone),
        fun _ _ hnone => (nomatch hnone), fun q' p hq' hp => ?_⟩
      injection hq' with hq'
      injection hp with hp
      subst hq' hp
      rcases hcases with ⟨p, hpos, haccepted⟩ | ⟨hpos, hopens, thread, p, hnew, haccepted⟩
      · obtain ⟨root, hroot, hopens, thread, hc⟩ := h.covered q p hprotocol hpos
        exact ⟨root, List.mem_append_left _ hroot, hopens, thread,
          hc.step hder ha hfresh haccepted⟩
      · have hnil := h.unopened q hprotocol hpos
        subst hnil
        exact ⟨a, List.mem_singleton.mpr rfl, hopens, thread,
          (covers_new hnew).step (fun b hb => nomatch hb) ha (fun b hb => nomatch hb) haccepted⟩

/-- **The handle of a history does not depend on the order of arrival.** -/
theorem Resumes.unique (h : Resumes sha256 protocolCode protocol verb r xs)
    (h' : Resumes sha256 protocolCode protocol verb r' ys) (hsame : ∀ a, a ∈ xs ↔ a ∈ ys)
    (hder : ∀ a ∈ xs, Derived sha256 a) : r = r' := by
  have hpositions : r.positions = r'.positions := by
    cases hprotocol : protocol with
    | none => rw [h.idle hprotocol, h'.idle hprotocol]
    | some q =>
        cases hp : r.positions with
        | none =>
            cases hp' : r'.positions with
            | none => rfl
            | some p' =>
                obtain ⟨root, hroot, -⟩ := h'.covered q p' hprotocol hp'
                have hmem := (hsame root).mpr hroot
                rw [h.unopened q hprotocol hp] at hmem
                exact nomatch hmem
        | some p =>
            obtain ⟨root, hroot, hopens, thread, hc⟩ := h.covered q p hprotocol hp
            cases hp' : r'.positions with
            | none =>
                have hmem := (hsame root).mp hroot
                rw [h'.unopened q hprotocol hp'] at hmem
                exact nomatch hmem
            | some p' =>
                obtain ⟨root', -, -, thread', hc'⟩ := h'.covered q p' hprotocol hp'
                rw [hc.unique hc' hsame hroot hopens (hder root hroot)]
  have hbound : r.protocol = r'.protocol := h.bound.trans h'.bound.symm
  have hverb : r.verb = r'.verb := h.reads.trans h'.reads.symm
  obtain ⟨_, _, _⟩ := r
  obtain ⟨_, _, _⟩ := r'
  dsimp only at hbound hverb hpositions
  rw [hbound, hverb, hpositions]

/-- **The progress of a handle is the progress of the fold.** -/
theorem Resumes.progress (h : Resumes sha256 protocolCode protocol verb r xs) {S : Finset Act}
    (henum : Enumerates xs S) (hder : ∀ a ∈ xs, Derived sha256 a) :
    r.progress = CbclStateMeaning.progressOf (typedRoot sha256) protocol S verb := by
  unfold ProgressResume.progress
  rw [h.reads]
  cases hprotocol : protocol with
  | none =>
      rw [h.idle hprotocol]
      simp [CbclStateMeaning.progressOf]
  | some q =>
      cases hp : r.positions with
      | none =>
          have hnil := h.unopened q hprotocol hp
          subst hnil
          have hempty : {rank | ∃ p, some q = some p ∧
              Established (typedRoot sha256) p S verb rank} = ∅ := by
            refine Set.eq_empty_of_forall_notMem fun rank hrank => ?_
            obtain ⟨_, _, _, _, _, _, _, _, a, ha, _⟩ := hrank
            exact nomatch (henum.mem a).mpr ha
          unfold CbclStateMeaning.progressOf
          rw [hempty]
          simp
      | some p =>
          obtain ⟨root, hroot, hopens, thread, hc⟩ := h.covered q p hprotocol hp
          exact progressOf_covered hc henum hder hroot hopens verb

end Resume

end CbclPositions
