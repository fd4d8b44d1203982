import Cbcl.EquivocationModel
import Cbcl.BundleProofs
import Cbcl.ShelvesProofs
import Cbcl.Sha256Proofs

/-!
# What the equivocation predicate finds

Over a store whose citations are acyclic every stored message lies below a leaf of the
frontier, so the predicate sees the whole thread: it answers exactly when the key has two
stored messages whose performatives the protocol sets against each other, and it goes on
answering as the store grows.  Its evidence is the first conflicting pair in the order of
hashes.  Hashes name stored messages, wrappers included, while a proof compares innermost
messages, so the evidence convicts justly exactly when no pair of wrappings of one message
comes first.
-/

namespace CbclEquivocation

open CbclMessage CbclProtocol CbclCanonical CbclTypedAddr CbclStore CbclThreadedStore
open CbclEnvelope CbclBundle CbclDialect CbclWorklist CbclShelves
open ThreadedMessageStore

-- ── The first pair of a list ────

section FirstPair

variable {α κ : Type} {kind : α → α → Option κ}

/-- No pair is found exactly when no element conflicts with a later one. -/
theorem firstPair_eq_none_iff : ∀ {l : List α},
    firstPair kind l = none ↔ l.Pairwise fun x y => kind x y = none := by
  intro l
  induction l with
  | nil => exact ⟨fun _ => List.Pairwise.nil, fun _ => rfl⟩
  | cons x rest ih =>
      rw [firstPair, List.pairwise_cons, ← ih]
      cases hfind : rest.findSome? fun y => (kind x y).map fun k => (x, y, k) with
      | none =>
          rw [List.findSome?_eq_none_iff] at hfind
          exact ⟨fun h => ⟨fun y hy => Option.map_eq_none_iff.mp (hfind y hy), h⟩, fun h => h.2⟩
      | some found =>
          refine ⟨(fun h => nomatch h), fun h => ?_⟩
          have hnone : rest.findSome? (fun y => (kind x y).map fun k => (x, y, k)) = none := by
            rw [List.findSome?_eq_none_iff]
            exact fun y hy => Option.map_eq_none_iff.mpr (h.1 y hy)
          rw [hfind] at hnone
          exact nomatch hnone

/-- The pair found conflicts, and it is the least conflicting pair of a list in strict order. -/
theorem firstPair_least {β : Type} [LinearOrder β] (key : α → β) :
    ∀ {l : List α}, (l.Pairwise fun x y => key x < key y) → ∀ {x y : α} {k : κ},
      firstPair kind l = some (x, y, k) →
        x ∈ l ∧ y ∈ l ∧ key x < key y ∧ kind x y = some k ∧
          ∀ x' ∈ l, ∀ y' ∈ l, key x' < key y' → kind x' y' ≠ none →
            key x < key x' ∨ x = x' ∧ key y ≤ key y' := by
  intro l
  induction l with
  | nil => intro _ x y k h; exact nomatch h
  | cons z rest ih =>
      intro hsorted x y k h
      obtain ⟨hz, hrest⟩ := List.pairwise_cons.mp hsorted
      -- a conflicting pair that starts at the head continues in the rest
      have htail : ∀ y' ∈ z :: rest, key z < key y' → y' ∈ rest := by
        intro y' hy' hlt
        rcases List.mem_cons.mp hy' with rfl | hy'
        · exact absurd hlt (lt_irrefl _)
        · exact hy'
      rw [firstPair] at h
      cases hfind : rest.findSome? fun y => (kind z y).map fun k => (z, y, k) with
      | some found =>
          rw [hfind] at h
          injection h with h
          subst h
          obtain ⟨before, w, after, hsplit, hw, hbefore⟩ := List.findSome?_eq_some_iff.mp hfind
          obtain ⟨k', hkind, heq⟩ := Option.map_eq_some_iff.mp hw
          simp only [Prod.mk.injEq] at heq
          obtain ⟨rfl, rfl, rfl⟩ := heq
          have hy : w ∈ rest := by rw [hsplit]; simp
          refine ⟨List.mem_cons_self .., List.mem_cons_of_mem _ hy, hz w hy, hkind, ?_⟩
          intro x' hx' y' hy' hlt hconf
          rcases List.mem_cons.mp hx' with rfl | hx'
          · refine Or.inr ⟨rfl, ?_⟩
            have hy'' := htail y' hy' hlt
            rw [hsplit] at hy'' hrest
            rcases List.mem_append.mp hy'' with hin | hin
            · exact absurd (Option.map_eq_none_iff.mp (hbefore y' hin)) hconf
            · rcases List.mem_cons.mp hin with rfl | hin
              · exact le_refl _
              · have hafter := (List.pairwise_append.mp hrest).2.1
                exact ((List.pairwise_cons.mp hafter).1 y' hin).le
          · exact Or.inl (hz x' hx')
      | none =>
          rw [hfind] at h
          obtain ⟨hx, hy, hlt, hkind, hleast⟩ := ih hrest h
          refine ⟨List.mem_cons_of_mem _ hx, List.mem_cons_of_mem _ hy, hlt, hkind, ?_⟩
          intro x' hx' y' hy' hlt' hconf
          rw [List.findSome?_eq_none_iff] at hfind
          rcases List.mem_cons.mp hx' with rfl | hx'
          · exact absurd (Option.map_eq_none_iff.mp (hfind y' (htail y' hy' hlt'))) hconf
          · have hafter : key z < key y' := (hz x' hx').trans hlt'
            exact hleast x' hx' y' (htail y' hy' hafter) hlt' hconf

end FirstPair

-- ── Performatives a protocol sets against each other ────

/-- A name stands in a protocol: as a step or in a node reference. -/
def NamedIn (cp : CausalProtocol) (p : String) : Prop :=
  p ∈ cp.steps ∨ ∃ r ∈ nodeRefs cp, p ∈ r.performatives

/-- Two distinct members of one `any` set of a protocol. -/
def OneChoice (cp : CausalProtocol) (p q : String) : Prop :=
  p ≠ q ∧ ∃ set, NodeRef.any set ∈ nodeRefs cp ∧ p ∈ set ∧ q ∈ set

/-- One performative named in the protocol, or two alternatives of a choice. -/
def Opposed (cp : CausalProtocol) (p q : String) : Prop :=
  p = q ∧ NamedIn cp p ∨ OneChoice cp p q

/-- A choice point of a node reference is an `any` set with two names besides `begin`. -/
theorem choicePoint_eq_some_iff {r : NodeRef} {named : BTreeSet String} :
    choicePoint r = some named ↔
      ∃ set, r = .any set ∧ named = set.filter (· ≠ BEGIN_KEYWORD) ∧ 2 ≤ named.size := by
  cases r with
  | single s => exact ⟨(fun h => nomatch h), fun ⟨_, h, _⟩ => nomatch h⟩
  | all set => exact ⟨(fun h => nomatch h), fun ⟨_, h, _⟩ => nomatch h⟩
  | any set =>
      simp only [choicePoint]
      constructor
      · intro h
        split at h
        · rename_i hsize
          injection h with h
          exact ⟨set, rfl, h.symm, h ▸ hsize⟩
        · exact nomatch h
      · rintro ⟨set', heq, rfl, hsize⟩
        injection heq with heq
        subst heq
        rw [if_pos hsize]

theorem mem_foldl_dedup {a : BTreeSet String} : ∀ (xs sets : List (BTreeSet String)),
    a ∈ xs.foldl (fun sets x => if x ∈ sets then sets else sets ++ [x]) sets ↔
      a ∈ sets ∨ a ∈ xs := by
  intro xs
  induction xs with
  | nil => intro sets; simp
  | cons x xs ih =>
      intro sets
      rw [List.foldl_cons, ih, List.mem_cons]
      split
      · rename_i hx
        exact ⟨fun h => h.imp id Or.inr, fun h => by rcases h with h | rfl | h <;> tauto⟩
      · rw [List.mem_append, List.mem_singleton, or_assoc]

theorem mem_anyChoiceSets_iff {cp : CausalProtocol} {named : BTreeSet String} :
    named ∈ anyChoiceSets cp ↔ ∃ set, NodeRef.any set ∈ nodeRefs cp ∧
      named = set.filter (· ≠ BEGIN_KEYWORD) ∧ 2 ≤ named.size := by
  unfold anyChoiceSets
  rw [mem_foldl_dedup, List.mem_filterMap]
  simp only [List.not_mem_nil, false_or, choicePoint_eq_some_iff]
  constructor
  · rintro ⟨r, hr, set, rfl, hnamed, hsize⟩
    exact ⟨set, hr, hnamed, hsize⟩
  · rintro ⟨set, hr, hnamed, hsize⟩
    exact ⟨_, hr, set, rfl, hnamed, hsize⟩

/-- A set with two distinct members has at least two. -/
theorem two_le_size {set : BTreeSet String} {p q : String} (hpq : p ≠ q) (hp : p ∈ set)
    (hq : q ∈ set) : 2 ≤ set.size := by
  rw [← Std.ExtTreeSet.length_toList]
  have hp := Std.ExtTreeSet.mem_toList.mpr hp
  have hq := Std.ExtTreeSet.mem_toList.mpr hq
  match hl : set.toList with
  | [] => rw [hl] at hp; exact nomatch hp
  | [x] =>
      rw [hl, List.mem_singleton] at hp hq
      exact absurd (hp.trans hq.symm) hpq
  | _ :: _ :: _ => simp

/-- Two names are alternatives of a choice point exactly when an `any` set holds both, neither
    being `begin`. -/
theorem exists_choice_iff {cp : CausalProtocol} {p q : String} (hpq : p ≠ q) :
    (∃ named ∈ anyChoiceSets cp, p ∈ named ∧ q ∈ named) ↔
      p ≠ BEGIN_KEYWORD ∧ q ≠ BEGIN_KEYWORD ∧ OneChoice cp p q := by
  have hfilter : ∀ (set : BTreeSet String) (x : String),
      x ∈ set.filter (· ≠ BEGIN_KEYWORD) ↔ x ∈ set ∧ x ≠ BEGIN_KEYWORD := by
    intro set x
    rw [Std.ExtTreeSet.mem_filter]
    constructor
    · rintro ⟨hx, hne⟩
      exact ⟨hx, by simpa [Std.ExtTreeSet.get_eq] using hne⟩
    · rintro ⟨hx, hne⟩
      exact ⟨hx, by simpa [Std.ExtTreeSet.get_eq] using hne⟩
  constructor
  · rintro ⟨named, hmem, hp, hq⟩
    obtain ⟨set, hset, rfl, -⟩ := mem_anyChoiceSets_iff.mp hmem
    obtain ⟨hp, hpb⟩ := (hfilter set p).mp hp
    obtain ⟨hq, hqb⟩ := (hfilter set q).mp hq
    exact ⟨hpb, hqb, hpq, set, hset, hp, hq⟩
  · rintro ⟨hpb, hqb, -, set, hset, hp, hq⟩
    have hp' := (hfilter set p).mpr ⟨hp, hpb⟩
    have hq' := (hfilter set q).mpr ⟨hq, hqb⟩
    exact ⟨_, mem_anyChoiceSets_iff.mpr ⟨set, hset, rfl, two_le_size hpq hp' hq'⟩, hp', hq'⟩

/-- The names a fold over references collects. -/
theorem mem_foldl_names {p : String} : ∀ (names : List String) (acc : BTreeSet String),
    p ∈ names.foldl (fun acc q => if q ≠ BEGIN_KEYWORD then acc.insert q else acc) acc ↔
      p ∈ acc ∨ p ≠ BEGIN_KEYWORD ∧ p ∈ names := by
  intro names
  induction names with
  | nil => intro acc; simp
  | cons q names ih =>
      intro acc
      rw [List.foldl_cons, ih, List.mem_cons]
      by_cases hq : q = BEGIN_KEYWORD
      · rw [if_neg (by simpa using hq), hq]
        exact or_congr_right (and_congr_right fun hp => by simp [hp])
      · rw [if_pos hq, CbclTreeMap.mem_insert_iff]
        constructor
        · rintro ((rfl | h) | h)
          · exact Or.inr ⟨hq, Or.inl rfl⟩
          · exact Or.inl h
          · exact Or.inr ⟨h.1, Or.inr h.2⟩
        · rintro (h | ⟨hp, rfl | h⟩)
          · exact Or.inl (Or.inr h)
          · exact Or.inl (Or.inl rfl)
          · exact Or.inr ⟨hp, h⟩

/-- The performatives of a protocol: the names in it, `begin` excepted. -/
theorem mem_protocolPerformatives_iff {cp : CausalProtocol} {p : String} :
    p ∈ protocolPerformatives cp ↔ p ≠ BEGIN_KEYWORD ∧ NamedIn cp p := by
  -- over any part of the steps, in order
  have hfold : ∀ (steps : List (String × StepDecl)) (acc : BTreeSet String),
      p ∈ steps.foldl (fun names step =>
          ((step.2.predecessors ++ step.2.successors).flatMap NodeRef.performatives).foldl
            (fun names q => if q ≠ BEGIN_KEYWORD then names.insert q else names)
            (if step.1 ≠ BEGIN_KEYWORD then names.insert step.1 else names)) acc ↔
        p ∈ acc ∨ p ≠ BEGIN_KEYWORD ∧ ∃ step ∈ steps, p = step.1 ∨
          ∃ r ∈ step.2.predecessors ++ step.2.successors, p ∈ r.performatives := by
    intro steps
    induction steps with
    | nil => intro acc; simp
    | cons step steps ih =>
        intro acc
        have hhead : p ∈ (if step.1 ≠ BEGIN_KEYWORD then acc.insert step.1 else acc) ↔
            p ∈ acc ∨ p ≠ BEGIN_KEYWORD ∧ p = step.1 := by
          by_cases hs : step.1 = BEGIN_KEYWORD
          · rw [if_neg (by simpa using hs), hs]
            tauto
          · rw [if_pos hs, CbclTreeMap.mem_insert_iff]
            constructor
            · rintro (rfl | h)
              · exact Or.inr ⟨hs, rfl⟩
              · exact Or.inl h
            · rintro (h | ⟨-, h⟩)
              · exact Or.inr h
              · exact Or.inl h
        rw [List.foldl_cons, ih, mem_foldl_names, hhead, List.mem_flatMap,
          List.exists_mem_cons_iff, and_or_left, and_or_left, or_assoc, or_assoc, or_assoc]
  unfold protocolPerformatives
  rw [Std.ExtTreeMap.foldl_eq_foldl_toList, hfold]
  simp only [Std.ExtTreeSet.not_mem_empty, false_or]
  refine and_congr_right fun _ => ?_
  unfold NamedIn nodeRefs
  simp only [List.mem_flatMap, CbclTreeMap.mem_valuesOf_iff]
  constructor
  · rintro ⟨⟨name, step⟩, hstep, rfl | ⟨r, hr, hp⟩⟩
    · rw [Std.ExtTreeMap.mem_toList_iff_getElem?_eq_some] at hstep
      exact Or.inl (Std.ExtTreeMap.mem_iff_isSome_getElem?.mpr (by rw [hstep]; rfl))
    · rw [Std.ExtTreeMap.mem_toList_iff_getElem?_eq_some] at hstep
      exact Or.inr ⟨r, ⟨step, ⟨name, hstep⟩, hr⟩, hp⟩
  · rintro (hmem | ⟨r, ⟨step, ⟨name, hstep⟩, hr⟩, hp⟩)
    · obtain ⟨step, hstep⟩ := Option.isSome_iff_exists.mp
        (Std.ExtTreeMap.mem_iff_isSome_getElem?.mp hmem)
      exact ⟨(p, step), Std.ExtTreeMap.mem_toList_iff_getElem?_eq_some.mpr hstep, Or.inl rfl⟩
    · exact ⟨(name, step), Std.ExtTreeMap.mem_toList_iff_getElem?_eq_some.mpr hstep,
        Or.inr ⟨r, hr, hp⟩⟩

/-- **Which performatives conflict**: opposed ones, neither being `begin`. -/
theorem conflictKind_ne_none_iff {cp : CausalProtocol} {p q : String} :
    conflictKind cp p q ≠ none ↔
      p ≠ BEGIN_KEYWORD ∧ q ≠ BEGIN_KEYWORD ∧ Opposed cp p q := by
  unfold conflictKind Opposed
  by_cases hpq : p = q
  · subst hpq
    rw [if_pos rfl]
    have hno : ¬ OneChoice cp p p := fun h => h.1 rfl
    by_cases hp : p ∈ protocolPerformatives cp
    · rw [if_pos hp]
      have := mem_protocolPerformatives_iff.mp hp
      simp [this]
    · rw [if_neg hp]
      rw [mem_protocolPerformatives_iff] at hp
      tauto
  · rw [if_neg hpq, Ne, Option.map_eq_none_iff, List.find?_eq_none]
    simp only [decide_eq_true_eq]
    have hiff := @exists_choice_iff cp _ _ hpq
    constructor
    · intro h
      push Not at h
      obtain ⟨named, hmem, hin⟩ := h
      obtain ⟨hp, hq, hc⟩ := hiff.mp ⟨named, hmem, hin⟩
      exact ⟨hp, hq, Or.inr hc⟩
    · rintro ⟨hp, hq, ⟨heq, -⟩ | hc⟩
      · exact absurd heq hpq
      · obtain ⟨named, hmem, hin⟩ := hiff.mpr ⟨hp, hq, hc⟩
        exact fun hall => hall named hmem hin

-- ── The messages the predicate reads ────

/-- No stored message of a thread leads back to itself by citations. -/
def Acyclic (s : ThreadedMessageStore) (thread : ThreadId) : Prop :=
  ∀ h, ¬ Relation.TransGen (fun a b => b ∈ citations s.toStore thread a) h h

section Thread

variable {s : ThreadedMessageStore} {thread : ThreadId}

/-- What the predicate reads of a thread: the stored messages below a leaf. -/
theorem mem_threadMessages_iff {h : ContentHash} {m : Message} :
    (h, m) ∈ threadMessages s thread ↔ (h, m) ∈ s.messages thread ∧
      ∃ leaf ∈ frontier s thread, h ∈ causalClosure s leaf thread := by
  unfold threadMessages
  rw [List.mem_filterMap]
  simp only [Std.ExtTreeSet.mem_toList, CbclTreeMap.mem_foldl_insert, List.mem_flatMap,
    Std.ExtTreeSet.not_mem_empty, or_false, Option.map_eq_some_iff, Prod.mk.injEq,
    lookupInThread_iff]
  constructor
  · rintro ⟨h', ⟨leaf, hleaf, hin⟩, m', hm, rfl, rfl⟩
    exact ⟨hm, leaf, hleaf, hin⟩
  · rintro ⟨hm, leaf, hleaf, hin⟩
    exact ⟨h, ⟨leaf, hleaf, hin⟩, m, hm, rfl, rfl⟩

/-- **Over acyclic citations the predicate reads the whole thread.** -/
theorem mem_threadMessages_of_acyclic (hrefs : ReferencesKept s) (hacyclic : Acyclic s thread)
    {h : ContentHash} {m : Message} :
    (h, m) ∈ threadMessages s thread ↔ (h, m) ∈ s.messages thread := by
  rw [mem_threadMessages_iff]
  refine ⟨And.left, fun hm => ⟨hm, ?_⟩⟩
  have hstored : h ∈ (s.messages thread).map Prod.fst := List.mem_map.mpr ⟨(h, m), hm, rfl⟩
  obtain ⟨leaf, hleaf, hfree, hreach⟩ := exists_source_reaches hacyclic hstored
  obtain ⟨⟨leaf, m'⟩, hm', rfl⟩ := List.mem_map.mp hleaf
  have hcontains := contains_of_mem hm'
  refine ⟨leaf, (mem_frontier_iff hrefs).mpr ⟨hcontains, fun h'' m'' hm'' hc => ?_⟩,
    (mem_causalClosure_iff hcontains).mpr hreach⟩
  refine hfree h'' (List.mem_map.mpr ⟨(h'', m''), hm'', rfl⟩) ?_
  rw [citations_of_mem hm'']
  exact hc

/-- The messages read come in the strict order of their hashes. -/
theorem threadMessages_sorted :
    (threadMessages s thread).Pairwise fun a b => a.1 < b.1 := by
  unfold threadMessages
  rw [List.pairwise_filterMap]
  refine Std.ExtTreeSet.ordered_toList.imp ?_
  intro a b hlt x hx y hy
  obtain ⟨m, -, rfl⟩ := Option.map_eq_some_iff.mp hx
  obtain ⟨m', -, rfl⟩ := Option.map_eq_some_iff.mp hy
  exact compare_lt_iff_lt.mp hlt

end Thread

/-- A stored message is by a key and has a performative, as its innermost simple message says. -/
def SentBy (key : KeyId) (m : Message) (p : String) : Prop :=
  ∃ simple spelling perf, m.innermostSimple = some simple ∧ sender simple = some spelling ∧
    KeyId.parse spelling = .ok key ∧ simple.performative = some perf ∧ perf.name = p

theorem ownedMessage_eq_some_iff {key : KeyId} {h : ContentHash} {m : Message}
    {o : OwnedMessage} :
    ownedMessage key (h, m) = some o ↔
      o.hash = h ∧ o.message = m ∧ SentBy key m o.performative := by
  obtain ⟨hash, p, message⟩ := o
  simp only [ownedMessage, SentBy, Option.bind_eq_bind, Option.bind_eq_some_iff]
  constructor
  · rintro ⟨simple, hs, spelling, hspell, hrest⟩
    split at hrest
    · exact nomatch hrest
    · rename_i sender_id hparse
      split at hrest
      · rename_i hkey
        obtain ⟨perf, hperf, heq⟩ := Option.bind_eq_some_iff.mp hrest
        simp only [Option.pure_def, Option.some.injEq, OwnedMessage.mk.injEq] at heq
        obtain ⟨rfl, rfl, rfl⟩ := heq
        exact ⟨rfl, rfl, simple, spelling, perf, hs, hspell, hkey ▸ hparse, hperf, rfl⟩
      · exact nomatch hrest
  · rintro ⟨rfl, rfl, simple, spelling, perf, hs, hspell, hparse, hperf, rfl⟩
    refine ⟨simple, hs, spelling, hspell, ?_⟩
    rw [hparse]
    simp [hperf]

/-- Two messages of a list, in the order of hashes, by one key and of performatives that
    conflict. -/
structure ConflictingPair (messages : List (ContentHash × Message)) (key : KeyId)
    (dialect : Dialect) (a b : ContentHash × Message) : Prop where
  first : a ∈ messages
  second : b ∈ messages
  ordered : a.1 < b.1
  opposed : ∃ cp p q, dialect.causal_protocol = some cp ∧ SentBy key a.2 p ∧ SentBy key b.2 q ∧
    p ≠ BEGIN_KEYWORD ∧ q ≠ BEGIN_KEYWORD ∧ Opposed cp p q

/-- One pair comes before another in the order of hashes. -/
def Before (a b : (ContentHash × Message) × (ContentHash × Message)) : Prop :=
  a.1.1 < b.1.1 ∨ a.1 = b.1 ∧ a.2.1 < b.2.1

-- ── The evidence ────

section Evidence

variable {key : KeyId} {thread : ThreadId} {s : ThreadedMessageStore} {dialect : Dialect}

/-- A hash names one message of a thread. -/
theorem threadMessages_unique {h : ContentHash} {m m' : Message}
    (hm : (h, m) ∈ threadMessages s thread) (hm' : (h, m') ∈ threadMessages s thread) :
    m = m' := by
  have hl := lookupInThread_iff.mpr (mem_threadMessages_iff.mp hm).1
  have hl' := lookupInThread_iff.mpr (mem_threadMessages_iff.mp hm').1
  exact Option.some.inj (hl.symm.trans hl')

/-- The key's messages among those read. -/
def owned (key : KeyId) (s : ThreadedMessageStore) (thread : ThreadId) : List OwnedMessage :=
  (threadMessages s thread).filterMap (ownedMessage key)

theorem mem_owned_iff {o : OwnedMessage} :
    o ∈ owned key s thread ↔
      (o.hash, o.message) ∈ threadMessages s thread ∧ SentBy key o.message o.performative := by
  unfold owned
  rw [List.mem_filterMap]
  constructor
  · rintro ⟨⟨h, m⟩, hm, ho⟩
    obtain ⟨rfl, rfl, hsent⟩ := ownedMessage_eq_some_iff.mp ho
    exact ⟨hm, hsent⟩
  · rintro ⟨hm, hsent⟩
    exact ⟨(o.hash, o.message), hm, ownedMessage_eq_some_iff.mpr ⟨rfl, rfl, hsent⟩⟩

theorem owned_sorted : (owned key s thread).Pairwise fun x y => x.hash < y.hash := by
  unfold owned
  rw [List.pairwise_filterMap]
  refine threadMessages_sorted.imp ?_
  rintro ⟨h, m⟩ ⟨h', m'⟩ hlt x hx y hy
  rw [(ownedMessage_eq_some_iff.mp hx).1, (ownedMessage_eq_some_iff.mp hy).1]
  exact hlt

/-- The predicate over a dialect with a protocol, with its loops named. -/
theorem equivocation_eq {cp : CausalProtocol} (hcp : dialect.causal_protocol = some cp) :
    equivocation key thread s dialect =
      (firstPair (fun a b => conflictKind cp a.performative b.performative)
        (owned key s thread)).map fun found =>
          ⟨key, thread, found.2.2, (found.1.hash, found.1.message),
            (found.2.1.hash, found.2.1.message)⟩ := by
  unfold equivocation
  rw [hcp]
  show (firstPair (fun a b => conflictKind cp a.performative b.performative)
    (owned key s thread)).bind _ = _
  cases firstPair (fun a b => conflictKind cp a.performative b.performative)
    (owned key s thread) with
  | none => rfl
  | some found => rfl

theorem equivocation_eq_none (hcp : dialect.causal_protocol = none) :
    equivocation key thread s dialect = none := by
  unfold equivocation
  rw [hcp]
  rfl

/-- A conflicting pair, as the loops meet it. -/
theorem conflictingPair_iff {cp : CausalProtocol} (hcp : dialect.causal_protocol = some cp)
    {a b : ContentHash × Message} :
    ConflictingPair (threadMessages s thread) key dialect a b ↔
      ∃ p q, ⟨a.1, p, a.2⟩ ∈ owned key s thread ∧ ⟨b.1, q, b.2⟩ ∈ owned key s thread ∧
        a.1 < b.1 ∧ conflictKind cp p q ≠ none := by
  simp only [mem_owned_iff, conflictKind_ne_none_iff]
  constructor
  · rintro ⟨ha, hb, hlt, cp', p, q, hcp', hp, hq, hopp⟩
    obtain rfl : cp' = cp := Option.some.inj (hcp'.symm.trans hcp)
    exact ⟨p, q, ⟨ha, hp⟩, ⟨hb, hq⟩, hlt, hopp⟩
  · rintro ⟨p, q, ⟨ha, hp⟩, ⟨hb, hq⟩, hlt, hopp⟩
    exact ⟨ha, hb, hlt, cp, p, q, hcp, hp, hq, hopp⟩

/-- No evidence exactly when no two of the messages read conflict. -/
theorem equivocation_isSome_iff :
    (equivocation key thread s dialect).isSome ↔
      ∃ a b, ConflictingPair (threadMessages s thread) key dialect a b := by
  cases hcp : dialect.causal_protocol with
  | none =>
      rw [equivocation_eq_none hcp]
      refine ⟨(fun h => nomatch h), ?_⟩
      rintro ⟨a, b, -, -, -, cp, p, q, hcp', -⟩
      rw [hcp] at hcp'
      exact nomatch hcp'
  | some cp =>
      rw [equivocation_eq hcp, Option.isSome_map, Option.isSome_iff_ne_none, Ne,
        firstPair_eq_none_iff]
      constructor
      · intro h
        by_contra hno
        refine h (owned_sorted.imp_of_mem ?_)
        intro x y hx hy hlt
        by_contra hconf
        exact hno ⟨_, _, (conflictingPair_iff hcp (a := (x.hash, x.message))
          (b := (y.hash, y.message))).mpr ⟨x.performative, y.performative, hx, hy, hlt, hconf⟩⟩
      · rintro ⟨a, b, hpair⟩ hnone
        obtain ⟨p, q, ha, hb, hlt, hconf⟩ := (conflictingPair_iff hcp).mp hpair
        -- the two stand in the list in the order of their hashes
        have hlater : (owned key s thread).Pairwise fun x y => x.hash < y.hash →
            conflictKind cp x.performative y.performative = none := by
          refine hnone.imp ?_
          intro x y h _
          exact h
        have hearlier : (owned key s thread).Pairwise (flip fun x y => x.hash < y.hash →
            conflictKind cp x.performative y.performative = none) :=
          owned_sorted.imp fun hlt hlt' => absurd (lt_trans hlt hlt') (lt_irrefl _)
        exact hconf (List.Pairwise.forall_of_forall_of_flip
          (fun x _ hlt => absurd hlt (lt_irrefl _)) hlater hearlier ha hb hlt)

/-- **The evidence is the first conflicting pair** in the order of hashes. -/
theorem equivocation_first {e : EquivocationEvidence}
    (he : equivocation key thread s dialect = some e) :
    e.key = key ∧ e.thread = thread ∧
      ConflictingPair (threadMessages s thread) key dialect e.first e.second ∧
        ∀ a b, ConflictingPair (threadMessages s thread) key dialect a b →
          (a, b) = (e.first, e.second) ∨ Before (e.first, e.second) (a, b) := by
  cases hcp : dialect.causal_protocol with
  | none =>
      rw [equivocation_eq_none hcp] at he
      exact nomatch he
  | some cp =>
      rw [equivocation_eq hcp] at he
      obtain ⟨⟨x, y, k⟩, hfound, rfl⟩ := Option.map_eq_some_iff.mp he
      obtain ⟨hx, hy, hlt, hkind, hleast⟩ := firstPair_least OwnedMessage.hash owned_sorted hfound
      refine ⟨rfl, rfl, (conflictingPair_iff hcp).mpr
        ⟨x.performative, y.performative, hx, hy, hlt, by rw [hkind]; exact nofun⟩, ?_⟩
      rintro ⟨h, m⟩ ⟨h', m'⟩ hpair
      obtain ⟨p, q, ha, hb, hlt', hconf⟩ := (conflictingPair_iff hcp).mp hpair
      rcases hleast _ ha _ hb hlt' hconf with hbefore | ⟨rfl, hle⟩
      · exact Or.inr (Or.inl hbefore)
      · rcases hle.lt_or_eq with hbefore | heq
        · exact Or.inr (Or.inr ⟨rfl, hbefore⟩)
        · -- the same hashes name the same messages
          left
          obtain rfl : y.hash = h' := heq
          rw [threadMessages_unique (mem_owned_iff.mp hy).1 (mem_owned_iff.mp hb).1]

end Evidence

-- ── Growing stores ────

/-- One call that adds to a store: a message under any hash and thread, or an envelope. -/
inductive Adds (sha256 : Octets → Digest) : ThreadedMessageStore → ThreadedMessageStore → Prop
  | message (s : ThreadedMessageStore) (hash : ContentHash) (thread : ThreadId) (m : Message) :
      Adds sha256 s (s.append hash thread m).2
  | envelope (s s' : ThreadedMessageStore) (e : RedactedEnvelope) (signer : Signer) (new : Bool)
      (hok : s.appendEnvelope e signer = .ok (new, s')) : Adds sha256 s s'
  | opened (s s' : ThreadedMessageStore) (e : OpenedEnvelope) (signer : Signer) (new : Bool)
      (hok : s.appendOpened sha256 e signer = .ok (new, s')) : Adds sha256 s s'

/-- A store after some calls. -/
def Grows (sha256 : Octets → Digest) : ThreadedMessageStore → ThreadedMessageStore → Prop :=
  Relation.ReflTransGen (Adds sha256)

section Growth

variable {sha256 : Octets → Digest} {s s' : ThreadedMessageStore}

/-- A call keeps what is filed and the reference sets. -/
theorem Adds.keeps (h : Adds sha256 s s') :
    (∀ t, ∀ a ∈ s.messages t, a ∈ s'.messages t) ∧ (ReferencesKept s → ReferencesKept s') := by
  cases h with
  | message hash thread m =>
      refine ⟨?_, fun hrefs => hrefs.append hash thread m⟩
      rintro t ⟨h, m'⟩ ha
      by_cases hfresh : hash ∈ s.index
      · have hsame : (s.append hash thread m).2 = s := by
          unfold ThreadedMessageStore.append
          rw [dif_pos hfresh]
        rw [hsame]
        exact ha
      · exact (mem_messages_append hfresh thread m t h m').mpr (Or.inl ha)
  | envelope s' e signer new hok =>
      rcases appendEnvelope_ok hok with ⟨-, rfl⟩ | ⟨-, rfl⟩
      · exact ⟨fun _ _ ha => ha, id⟩
      · exact ⟨fun _ _ ha => ha, id⟩
  | opened s' e signer new hok =>
      rcases (appendOpened_ok hok).2.2 with ⟨-, rfl⟩ | ⟨-, rfl⟩
      · exact ⟨fun _ _ ha => ha, id⟩
      · exact ⟨fun _ _ ha => ha, id⟩

theorem Grows.keeps (h : Grows sha256 s s') :
    (∀ t, ∀ a ∈ s.messages t, a ∈ s'.messages t) ∧ (ReferencesKept s → ReferencesKept s') := by
  induction h with
  | refl => exact ⟨fun _ _ ha => ha, id⟩
  | tail _ hstep ih =>
      exact ⟨fun t a ha => hstep.keeps.1 t a (ih.1 t a ha), fun hrefs => hstep.keeps.2 (ih.2 hrefs)⟩

theorem referencesKept_new : ReferencesKept ThreadedMessageStore.new :=
  referencesKept_appendAll []

end Growth

/-- Two messages stored under distinct hashes of a thread, by one key, whose performatives the
    protocol of a dialect sets against each other by a rule. -/
def StoresConflict (s : ThreadedMessageStore) (thread : ThreadId) (key : KeyId)
    (dialect : Dialect) (rule : CausalProtocol → String → String → Prop) : Prop :=
  ∃ h₁ m₁ h₂ m₂ cp p q, h₁ ≠ h₂ ∧ (h₁, m₁) ∈ s.messages thread ∧ (h₂, m₂) ∈ s.messages thread ∧
    dialect.causal_protocol = some cp ∧ SentBy key m₁ p ∧ SentBy key m₂ q ∧ rule cp p q

/-- Opposed performatives, neither being `begin`. -/
def OpposedSteps (cp : CausalProtocol) (p q : String) : Prop :=
  p ≠ BEGIN_KEYWORD ∧ q ≠ BEGIN_KEYWORD ∧ Opposed cp p q

theorem Opposed.symm {cp : CausalProtocol} {p q : String} (h : Opposed cp p q) :
    Opposed cp q p := by
  rcases h with ⟨rfl, hn⟩ | ⟨hne, set, hset, hp, hq⟩
  · exact Or.inl ⟨rfl, hn⟩
  · exact Or.inr ⟨hne.symm, set, hset, hq, hp⟩

/-- Over a list that holds a thread's messages, a conflicting pair is a stored conflict. -/
theorem exists_conflictingPair_iff {s : ThreadedMessageStore} {thread : ThreadId} {key : KeyId}
    {dialect : Dialect} {messages : List (ContentHash × Message)}
    (hall : ∀ h m, (h, m) ∈ messages ↔ (h, m) ∈ s.messages thread) :
    (∃ a b, ConflictingPair messages key dialect a b) ↔
      StoresConflict s thread key dialect OpposedSteps := by
  constructor
  · rintro ⟨⟨h₁, m₁⟩, ⟨h₂, m₂⟩, ha, hb, hlt, cp, p, q, hcp, hp, hq, hopp⟩
    exact ⟨h₁, m₁, h₂, m₂, cp, p, q, ne_of_lt hlt, (hall _ _).mp ha, (hall _ _).mp hb, hcp, hp,
      hq, hopp⟩
  · rintro ⟨h₁, m₁, h₂, m₂, cp, p, q, hne, ha, hb, hcp, hp, hq, hpb, hqb, hopp⟩
    rcases lt_or_gt_of_ne hne with hlt | hgt
    · exact ⟨(h₁, m₁), (h₂, m₂), (hall _ _).mpr ha, (hall _ _).mpr hb, hlt, cp, p, q, hcp, hp, hq,
        hpb, hqb, hopp⟩
    · exact ⟨(h₂, m₂), (h₁, m₁), (hall _ _).mpr hb, (hall _ _).mpr ha, hgt, cp, q, p, hcp, hq, hp,
        hqb, hpb, hopp.symm⟩

/-- **The predicate is exact and monotone**: over every store with acyclic citations it answers
    exactly when the thread stores a conflict of the key, and it goes on answering over every
    store with acyclic citations that grows from it. -/
theorem equivocation_exact (sha256 : Octets → Digest) (key : KeyId) (thread : ThreadId)
    (dialect : Dialect) {s : ThreadedMessageStore}
    (hs : Grows sha256 ThreadedMessageStore.new s) (hacyclic : Acyclic s thread) :
    ((equivocation key thread s dialect).isSome ↔
        StoresConflict s thread key dialect OpposedSteps) ∧
      ∀ s', Grows sha256 s s' → Acyclic s' thread →
        (equivocation key thread s dialect).isSome →
          (equivocation key thread s' dialect).isSome := by
  have hexact : ∀ {s : ThreadedMessageStore}, Grows sha256 ThreadedMessageStore.new s →
      Acyclic s thread → ((equivocation key thread s dialect).isSome ↔
        StoresConflict s thread key dialect OpposedSteps) := by
    intro s hs hacyclic
    have hrefs := hs.keeps.2 referencesKept_new
    rw [equivocation_isSome_iff]
    exact exists_conflictingPair_iff fun h m => mem_threadMessages_of_acyclic hrefs hacyclic
  refine ⟨hexact hs hacyclic, fun s' hgrow hacyclic' hsome => ?_⟩
  obtain ⟨h₁, m₁, h₂, m₂, cp, p, q, hne, ha, hb, hrest⟩ := (hexact hs hacyclic).mp hsome
  exact (hexact (hs.trans hgrow) hacyclic').mpr
    ⟨h₁, m₁, h₂, m₂, cp, p, q, hne, hgrow.keeps.1 _ _ ha, hgrow.keeps.1 _ _ hb, hrest⟩

-- A small world: a protocol that obliges one `offer`, and acts of `@alice` that cite nothing.

/-- An act of `@alice` in the thread `t`. -/
def aliceAct (performative content : String) : Message :=
  .simple (.custom performative) none (.atom (.str content)) [] (some "t") (some "@alice") none

/-- `@alice`, in the default suite. -/
def alice : KeyId := ⟨.ed25519, "alice"⟩

/-- A protocol of one step: `offer`, after `begin`. -/
def offerProtocol : CausalProtocol :=
  ⟨(∅ : BTreeMap String StepDecl).insert "offer" ⟨"offer", [.single BEGIN_KEYWORD], []⟩⟩

/-- A hashed dialect with that protocol. -/
def offerDialect : Dialect :=
  { baseDialect with hash := some "sha256:offer", causal_protocol := some offerProtocol }

theorem acyclic_of_uncited {s : ThreadedMessageStore} {thread : ThreadId}
    (h : ∀ a ∈ s.messages thread, a.2.causedBy = none) : Acyclic s thread := by
  intro x hx
  obtain ⟨y, hstep, -⟩ := Relation.TransGen.head'_iff.mp hx
  unfold citations at hstep
  cases hl : s.toStore.lookupInThread x thread with
  | none => rw [hl] at hstep; exact nomatch hstep
  | some m =>
      have hm : (x, m) ∈ s.messages thread := lookupInThread_iff.mp hl
      rw [hl, Option.map_some, h _ hm] at hstep
      exact nomatch hstep

/-- A store of two messages of the thread `t`. -/
def twoMessages (m m' : Message) : ThreadedMessageStore :=
  appendAll [("a", "t", m), ("b", "t", m')]

theorem grows_twoMessages (sha256 : Octets → Digest) (m m' : Message) :
    Grows sha256 ThreadedMessageStore.new (twoMessages m m') :=
  (Relation.ReflTransGen.single (.message _ "a" "t" m)).tail (.message _ "b" "t" m')

theorem twoMessages_messages (m m' : Message) :
    (twoMessages m m').messages "t" = [("a", m), ("b", m')] := by
  have hfresh : "a" ∉ ThreadedMessageStore.new.index := by simp [ThreadedMessageStore.new]
  have hfresh' : "b" ∉ (ThreadedMessageStore.new.append "a" "t" m).2.index := by
    rw [mem_index_append hfresh]
    simp [ThreadedMessageStore.new]
  show ((ThreadedMessageStore.new.append "a" "t" m).2.append "b" "t" m').2.messages "t" = _
  rw [messages_append hfresh', messages_append hfresh]
  simp [ThreadedMessageStore.new, ThreadedMessageStore.messages]

theorem acyclic_acts (p c p' c' : String) :
    Acyclic (twoMessages (aliceAct p c) (aliceAct p' c')) "t" := by
  refine acyclic_of_uncited ?_
  rw [twoMessages_messages]
  intro a ha
  simp only [List.mem_cons, List.not_mem_nil, or_false] at ha
  rcases ha with rfl | rfl
  · rfl
  · rfl

/-- What is computed of the protocol and of two acts named `begin`. -/
theorem offer_runs :
    KeyId.parse "@alice" = .ok alice ∧ "offer" ∈ offerProtocol.steps ∧
    .single BEGIN_KEYWORD ∈ nodeRefs offerProtocol ∧ CbclRepeat.hasRepeat offerProtocol = false ∧
    (equivocation alice "t" (twoMessages (aliceAct BEGIN_KEYWORD "one")
      (aliceAct BEGIN_KEYWORD "two")) offerDialect).isSome = false := by
  decide +kernel

theorem sentBy_aliceAct (p c : String) : SentBy alice (aliceAct p c) p :=
  ⟨aliceAct p c, "@alice", .custom p, rfl, rfl, offer_runs.1, rfl, rfl⟩

/-- Two stored acts of `@alice` with one performative conflict by a rule that sets it against
    itself. -/
theorem storesConflict_acts {rule : CausalProtocol → String → String → Prop} {p : String}
    (c c' : String) (hrule : rule offerProtocol p p) :
    StoresConflict (twoMessages (aliceAct p c) (aliceAct p c')) "t" alice offerDialect rule :=
  ⟨"a", aliceAct p c, "b", aliceAct p c', offerProtocol, p, p, by decide,
    by rw [twoMessages_messages]; simp, by rw [twoMessages_messages]; simp, rfl,
    sentBy_aliceAct p c, sentBy_aliceAct p c', hrule⟩

/-- `@alice` offers twice. -/
theorem equivocation_exact_offers :
    (equivocation alice "t" (twoMessages (aliceAct "offer" "one") (aliceAct "offer" "two"))
      offerDialect).isSome := by
  refine (equivocation_exact CbclSha256.sha256 alice "t" offerDialect
    (grows_twoMessages _ _ _) (acyclic_acts _ _ _ _)).1.mpr (storesConflict_acts "one" "two" ?_)
  exact ⟨by decide, by decide, Or.inl ⟨rfl, Or.inl offer_runs.2.1⟩⟩

/-- Two acts whose performative is `begin` are no conflict, although `begin` stands in the
    protocol. -/
theorem begin_is_no_step :
    ¬ ∀ (key : KeyId) (thread : ThreadId) (dialect : Dialect) (s : ThreadedMessageStore),
      (∀ cp, dialect.causal_protocol = some cp → CbclRepeat.hasRepeat cp = false) →
        Grows CbclSha256.sha256 ThreadedMessageStore.new s → Acyclic s thread →
          ((equivocation key thread s dialect).isSome ↔
            StoresConflict s thread key dialect Opposed) := by
  intro hall
  obtain ⟨-, -, hcited, honce, hnone⟩ := offer_runs
  have hiff := hall alice "t" offerDialect
    (twoMessages (aliceAct BEGIN_KEYWORD "one") (aliceAct BEGIN_KEYWORD "two"))
    (fun cp hcp => by injection hcp with hcp; rw [← hcp]; exact honce)
    (grows_twoMessages _ _ _) (acyclic_acts _ _ _ _)
  have hnamed : NamedIn offerProtocol BEGIN_KEYWORD :=
    Or.inr ⟨.single BEGIN_KEYWORD, hcited, by decide⟩
  have hsome := hiff.mpr (storesConflict_acts "one" "two" (Or.inl ⟨rfl, hnamed⟩))
  exact Bool.false_ne_true (hnone.symm.trans hsome)

-- ── Evidence and proof ────

/-- Every recipient spelling of a message is well formed. -/
def WellSpelled (m : Message) : Prop := ∀ r ∈ m.recipientSet, ∃ k, KeyId.parse r = .ok k

/-- Two messages hold one innermost message, as its content address says. -/
def OneAct (sha256 : Octets → Digest) (m m' : Message) : Prop :=
  ∃ a b, m.innermostSimple = some a ∧ m'.innermostSimple = some b ∧
    typedRoot sha256 a = typedRoot sha256 b

/-- A signer that accepts what it signs. -/
def SignerOk (signer : Signer) : Prop := ∀ octets, signer.verify octets (signer.sign octets) = true

/-- Evidence convicts justly: its innermost messages differ in content, and where they carry the
    thread and well-formed recipients and the dialect is hashed, their headers exist and the
    proof made of the two, signed, is accepted. -/
def Convicts (sha256 : Octets → Digest) (signer : Signer) (dialect : Dialect)
    (e : EquivocationEvidence) : Prop :=
  ∃ a b, e.first.2.innermostSimple = some a ∧ e.second.2.innermostSimple = some b ∧
    typedRoot sha256 a ≠ typedRoot sha256 b ∧
      ∀ pinned, dialect.hash = some pinned → a.thread = some e.thread →
        b.thread = some e.thread → WellSpelled a → WellSpelled b →
          ∃ ha hb, attestationHeaderFor sha256 a = .ok ha ∧ attestationHeaderFor sha256 b = .ok hb ∧
            ∀ sa sb, signAttestationV2 signer ha = .ok sa → signAttestationV2 signer hb = .ok sb →
              verifyEquivocationProof sha256 ⟨e.key, e.thread, pinned, .signedMessage a sa,
                .signedMessage b sb⟩ dialect signer = .ok e.key

theorem recipientKeys_ok : ∀ (rs : List String) (keys : BTreeSet KeyId),
    (∀ r ∈ rs, ∃ k, KeyId.parse r = .ok k) → ∃ keys', recipientKeys rs keys = .ok keys' := by
  intro rs
  induction rs with
  | nil => intro keys _; exact ⟨keys, rfl⟩
  | cons r rs ih =>
      intro keys hall
      obtain ⟨k, hk⟩ := hall r (List.mem_cons_self ..)
      rw [recipientKeys, hk]
      exact ih (keys.insert k) fun r' hr' => hall r' (List.mem_cons_of_mem _ hr')

section Proof

variable {sha256 : Octets → Digest} {key : KeyId} {dialect : Dialect} {m simple : Message}
  {p thread : String}

/-- The header of an innermost message that carries a thread and well-formed recipients. -/
theorem attestationHeaderFor_ok (hsent : SentBy key m p) (hsimple : m.innermostSimple = some simple)
    (hthread : simple.thread = some thread) (hspelled : WellSpelled simple) :
    ∃ keys cb, attestationHeaderFor sha256 simple
      = .ok ⟨typedRoot sha256 simple, p, key, keys, thread, cb⟩ := by
  obtain ⟨simple', spelling, perf, hs, hsender, hparse, hperf, rfl⟩ := hsent
  obtain rfl : simple' = simple := Option.some.inj (hs.symm.trans hsimple)
  cases simple' with
  | simple perf' recipient content params thread' sender' caused_by =>
      obtain rfl : sender' = some spelling := hsender
      obtain rfl : thread' = some thread := hthread
      obtain rfl : perf' = perf := Option.some.inj hperf
      obtain ⟨keys, hkeys⟩ := recipientKeys_ok (Message.recipientSet (.simple perf' recipient content
        params (some thread) (some spelling) caused_by)).toList ∅ fun r hr =>
          hspelled r (Std.ExtTreeSet.mem_toList.mp hr)
      refine ⟨keys, caused_by, ?_⟩
      unfold attestationHeaderFor
      simp only [hparse, hkeys]
      rfl
  | metaDef => exact nomatch hperf
  | dialect => exact nomatch hperf
  | wrapped => exact nomatch hperf

/-- A signed header passes the checks of a member. -/
theorem checkHeader_ok {signer : Signer} (hsigner : SignerOk signer) {header : AttestationHeader}
    {sig : Octets} (hsig : signAttestationV2 signer header = .ok sig) (index : Nat)
    {proof : EquivocationProof} (hkey : header.from = proof.key)
    (hthread : header.thread = proof.thread) :
    checkHeader header sig index proof signer
      = .ok ⟨header.performative, header.content_hash⟩ := by
  have hverify : verifyAttestationV2 signer proof.key header sig = .ok () := by
    unfold signAttestationV2 at hsig
    unfold verifyAttestationV2
    rw [← hkey]
    cases hsuite : header.from.suite with
    | other s => rw [hsuite] at hsig; exact nomatch hsig
    | ed25519 =>
        rw [hsuite] at hsig
        injection hsig with hsig
        dsimp only
        rw [if_neg (not_not.mpr rfl), ← hsig, if_pos (hsigner _)]
  unfold checkHeader
  rw [if_neg (not_not.mpr hkey), if_neg (not_not.mpr hthread), hverify]

theorem checkMember_ok {signer : Signer} (hsigner : SignerOk signer) {header : AttestationHeader}
    {sig : Octets} (hheader : attestationHeaderFor sha256 m = .ok header)
    (hsig : signAttestationV2 signer header = .ok sig) (index : Nat)
    {proof : EquivocationProof} (hkey : header.from = proof.key)
    (hthread : header.thread = proof.thread) :
    checkMember sha256 (.signedMessage m sig) index proof signer
      = .ok ⟨header.performative, header.content_hash⟩ := by
  unfold checkMember
  dsimp only
  rw [hheader]
  exact checkHeader_ok hsigner hsig index hkey hthread

/-- A proof is accepted when its pin, its members and its conflict are in order. -/
theorem verifyEquivocationProof_ok {signer : Signer} {proof : EquivocationProof}
    {a b : CheckedMember} (hpin : dialect.hash = some proof.dialect_hash)
    (ha : checkMember sha256 proof.first 0 proof signer = .ok a)
    (hb : checkMember sha256 proof.second 1 proof signer = .ok b)
    (hdiffer : a.content_hash ≠ b.content_hash)
    (hconf : conflicting dialect a.performative b.performative = true) :
    verifyEquivocationProof sha256 proof dialect signer = .ok proof.key := by
  unfold verifyEquivocationProof
  rw [hpin]
  dsimp only
  rw [if_neg (not_not.mpr rfl), ha, hb]
  show (if a.content_hash = b.content_hash then _ else _) = _
  rw [if_neg hdiffer, hconf]
  rfl

theorem conflicting_of_opposed {cp : CausalProtocol} (hcp : dialect.causal_protocol = some cp)
    {p q : String} (hp : p ≠ BEGIN_KEYWORD) (hq : q ≠ BEGIN_KEYWORD) (h : Opposed cp p q) :
    conflicting dialect p q = true := by
  unfold conflicting
  rw [hcp]
  dsimp only
  rcases h with ⟨rfl, hn⟩ | hc
  · rw [if_pos rfl, decide_eq_true_eq, mem_protocolPerformatives_iff]
    exact ⟨hp, hn⟩
  · rw [if_neg hc.1, List.any_eq_true]
    obtain ⟨named, hmem, hin⟩ := (exists_choice_iff hc.1).mpr ⟨hp, hq, hc⟩
    exact ⟨named, hmem, decide_eq_true hin⟩

/-- **Two conflicting messages of different content are provable.** -/
theorem ConflictingPair.convicts {signer : Signer} (hsigner : SignerOk signer)
    {messages : List (ContentHash × Message)} {e : EquivocationEvidence}
    (hpair : ConflictingPair messages e.key dialect e.first e.second)
    (hacts : ¬ OneAct sha256 e.first.2 e.second.2) : Convicts sha256 signer dialect e := by
  obtain ⟨cp, p, q, hcp, hp, hq, hpb, hqb, hopp⟩ := hpair.opposed
  obtain ⟨a, -, -, ha, -⟩ := id hp
  obtain ⟨b, -, -, hb, -⟩ := id hq
  have hroots : typedRoot sha256 a ≠ typedRoot sha256 b := fun h => hacts ⟨a, b, ha, hb, h⟩
  refine ⟨a, b, ha, hb, hroots, ?_⟩
  intro pinned hpinned hta htb hwa hwb
  obtain ⟨ka, ca, hha⟩ := @attestationHeaderFor_ok sha256 _ _ _ _ _ hp ha hta hwa
  obtain ⟨kb, cb, hhb⟩ := @attestationHeaderFor_ok sha256 _ _ _ _ _ hq hb htb hwb
  refine ⟨_, _, hha, hhb, fun sa sb hsa hsb => ?_⟩
  let proof : EquivocationProof :=
    ⟨e.key, e.thread, pinned, .signedMessage a sa, .signedMessage b sb⟩
  have hfirst : checkMember sha256 proof.first 0 proof signer = .ok ⟨p, typedRoot sha256 a⟩ :=
    checkMember_ok hsigner hha hsa 0 rfl rfl
  have hsecond : checkMember sha256 proof.second 1 proof signer = .ok ⟨q, typedRoot sha256 b⟩ :=
    checkMember_ok hsigner hhb hsb 1 rfl rfl
  exact verifyEquivocationProof_ok hpinned hfirst hsecond hroots
    (conflicting_of_opposed hcp hpb hqb hopp)

end Proof

/-- A store built by filing messages under their own content hashes. -/
def stored (sha256 : Octets → Digest) (calls : List (ThreadId × Message)) :
    ThreadedMessageStore :=
  appendAll (calls.map fun c => (typedRoot sha256 c.2, c.1, c.2))

/-- Before every conflicting pair that holds one innermost message twice, in the order of
    hashes, stands a conflicting pair of two different ones. -/
def NoActTwiceFirst (sha256 : Octets → Digest) (messages : List (ContentHash × Message))
    (key : KeyId) (dialect : Dialect) : Prop :=
  ∀ a b, ConflictingPair messages key dialect a b → OneAct sha256 a.2 b.2 →
    ∃ a' b', ConflictingPair messages key dialect a' b' ∧ ¬ OneAct sha256 a'.2 b'.2 ∧
      Before (a', b') (a, b)

theorem Before.asymm {a b : (ContentHash × Message) × (ContentHash × Message)}
    (h : Before a b) (h' : Before b a) : False := by
  rcases h with hlt | ⟨heq, hlt⟩
  · rcases h' with hlt' | ⟨heq', -⟩
    · exact lt_irrefl _ (hlt.trans hlt')
    · rw [heq'] at hlt
      exact lt_irrefl _ hlt
  · rcases h' with hlt' | ⟨-, hlt'⟩
    · rw [heq] at hlt'
      exact lt_irrefl _ hlt'
    · exact lt_irrefl _ (hlt.trans hlt')

/-- **When the predicate accuses justly**: over every store of messages filed under their content
    hashes, the evidence it returns convicts exactly when no wrapping of one act twice comes
    first among the key's conflicting pairs. -/
theorem equivocation_convicts_iff (sha256 : Octets → Digest) {signer : Signer}
    (hsigner : SignerOk signer) (calls : List (ThreadId × Message)) (key : KeyId)
    (thread : ThreadId) (dialect : Dialect) :
    (∀ e, equivocation key thread (stored sha256 calls) dialect = some e →
        Convicts sha256 signer dialect e) ↔
      NoActTwiceFirst sha256 (threadMessages (stored sha256 calls) thread) key dialect := by
  constructor
  · intro hall a b hpair hone
    obtain ⟨e, he⟩ := Option.isSome_iff_exists.mp (equivocation_isSome_iff.mpr ⟨a, b, hpair⟩)
    obtain ⟨-, -, hfirst, hleast⟩ := equivocation_first he
    -- the evidence convicts, so it is another pair, and it comes first
    have hother : ¬ OneAct sha256 e.first.2 e.second.2 := by
      rintro ⟨a', b', ha', hb', hroots⟩
      obtain ⟨a'', b'', ha'', hb'', hdiffer, -⟩ := hall e he
      rw [ha'] at ha''
      rw [hb'] at hb''
      injection ha'' with ha''
      injection hb'' with hb''
      rw [← ha'', ← hb''] at hdiffer
      exact hdiffer hroots
    rcases hleast a b hpair with heq | hbefore
    · injection heq with ha hb
      rw [ha, hb] at hone
      exact absurd hone hother
    · exact ⟨e.first, e.second, hfirst, hother, hbefore⟩
  · intro hno e he
    obtain ⟨hkey, hthread, hfirst, hleast⟩ := equivocation_first he
    refine ConflictingPair.convicts hsigner (hkey ▸ hfirst) fun hone => ?_
    obtain ⟨a', b', hpair, hdiffer, hbefore⟩ := hno _ _ hfirst hone
    rcases hleast a' b' hpair with heq | hafter
    · injection heq with ha hb
      rw [ha, hb] at hdiffer
      exact hdiffer hone
    · exact hbefore.asymm hafter

/-- What is filed stands under its own content hash, and came with a call. -/
theorem mem_stored (sha256 : Octets → Digest) (calls : List (ThreadId × Message)) {t : ThreadId}
    {h : ContentHash} {m : Message} (hm : (h, m) ∈ (stored sha256 calls).messages t) :
    h = typedRoot sha256 m ∧ (t, m) ∈ calls := by
  induction calls using List.reverseRecOn with
  | nil => simp [stored, appendAll, ThreadedMessageStore.new, ThreadedMessageStore.messages] at hm
  | append_singleton calls c ih =>
      have hlast : stored sha256 (calls ++ [c])
          = ((stored sha256 calls).append (typedRoot sha256 c.2) c.1 c.2).2 := by
        simp [stored, appendAll]
      rw [hlast] at hm
      by_cases hfresh : typedRoot sha256 c.2 ∈ (stored sha256 calls).index
      · unfold ThreadedMessageStore.append at hm
        rw [dif_pos hfresh] at hm
        exact ⟨(ih hm).1, List.mem_append_left _ (ih hm).2⟩
      · rcases (mem_messages_append hfresh c.1 c.2 t h m).mp hm with hm | ⟨rfl, rfl, rfl⟩
        · exact ⟨(ih hm).1, List.mem_append_left _ (ih hm).2⟩
        · exact ⟨rfl, List.mem_append_right _ (List.mem_singleton_self _)⟩

/-- No act is filed in a thread under two wrappings. -/
def WrappedOnce (sha256 : Octets → Digest) (calls : List (ThreadId × Message))
    (thread : ThreadId) : Prop :=
  ∀ m m', (thread, m) ∈ calls → (thread, m') ∈ calls → OneAct sha256 m m' →
    typedRoot sha256 m = typedRoot sha256 m'

/-- Where no act is filed under two wrappings, no conflicting pair holds one act twice. -/
theorem noActTwiceFirst_of_wrappedOnce {sha256 : Octets → Digest}
    {calls : List (ThreadId × Message)} {thread : ThreadId}
    (honce : WrappedOnce sha256 calls thread) (key : KeyId) (dialect : Dialect) :
    NoActTwiceFirst sha256 (threadMessages (stored sha256 calls) thread) key dialect := by
  rintro ⟨h, m⟩ ⟨h', m'⟩ ⟨ha, hb, hlt, -⟩ hone
  obtain ⟨hh, hcall⟩ := mem_stored sha256 calls (mem_threadMessages_iff.mp ha).1
  obtain ⟨hh', hcall'⟩ := mem_stored sha256 calls (mem_threadMessages_iff.mp hb).1
  have hroots := honce m m' hcall hcall' hone
  rw [← hh, ← hh'] at hroots
  exact absurd hroots (ne_of_lt hlt)

/-- Simple messages have no wrapping. -/
theorem wrappedOnce_of_simple (sha256 : Octets → Digest) {calls : List (ThreadId × Message)}
    (hsimple : ∀ c ∈ calls, CbclBundle.isSimple c.2 = true) (thread : ThreadId) :
    WrappedOnce sha256 calls thread := by
  rintro m m' hm hm' ⟨a, b, hma, hmb, hroots⟩
  have hself : ∀ {m s : Message}, CbclBundle.isSimple m = true → m.innermostSimple = some s →
      s = m := by
    intro m s hm hs
    cases m with
    | simple => injection hs with hs; exact hs.symm
    | metaDef => exact nomatch hm
    | dialect => exact nomatch hm
    | wrapped => exact nomatch hm
  rwa [hself (hsimple _ hm) hma, hself (hsimple _ hm') hmb] at hroots

/-- An act, and the same act in a signed wrapper. -/
def relayed : List (ThreadId × Message) :=
  [("t", aliceAct "offer" "one"),
    ("t", .wrapped .signed [.atom (.symbol "@alice")] (aliceAct "offer" "one"))]

/-- What is computed of two offers, and of one offer filed twice. -/
theorem relayed_runs :
    (equivocation alice "t" (stored CbclSha256.sha256
      [("t", aliceAct "offer" "one"), ("t", aliceAct "offer" "two")]) offerDialect).isSome = true ∧
    ((equivocation alice "t" (stored CbclSha256.sha256 relayed) offerDialect).map
      fun e => decide (e.first.2.innermostSimple = e.second.2.innermostSimple)) = some true := by
  rw [CbclSha256Words.sha256_eq]
  decide +kernel

/-- `@alice` offers twice, and the evidence convicts her. -/
theorem equivocation_convicts_offers :
    ∃ e, equivocation alice "t" (stored CbclSha256.sha256
        [("t", aliceAct "offer" "one"), ("t", aliceAct "offer" "two")]) offerDialect = some e ∧
      Convicts CbclSha256.sha256 (keyed aliceCode) offerDialect e := by
  obtain ⟨e, he⟩ := Option.isSome_iff_exists.mp relayed_runs.1
  refine ⟨e, he, ?_⟩
  refine (equivocation_convicts_iff CbclSha256.sha256 (keyed_verify aliceCode) _ alice "t"
    offerDialect).mpr (noActTwiceFirst_of_wrappedOnce (wrappedOnce_of_simple _ ?_ "t") alice
      offerDialect) e he
  intro c hc
  simp only [List.mem_cons, List.not_mem_nil, or_false] at hc
  rcases hc with rfl | rfl
  · rfl
  · rfl

/-- **One honest act is evidence against its sender**: filed bare and in a signed wrapper, it is
    a conflicting pair with itself. -/
theorem relayed_act_accused :
    ¬ ∀ (calls : List (ThreadId × Message)) (key : KeyId) (thread : ThreadId) (dialect : Dialect)
      (e : EquivocationEvidence),
        equivocation key thread (stored CbclSha256.sha256 calls) dialect = some e →
          e.first.2.innermostSimple ≠ e.second.2.innermostSimple := by
  intro hall
  obtain ⟨e, he, heq⟩ := Option.map_eq_some_iff.mp relayed_runs.2
  exact hall relayed alice "t" offerDialect e he (of_decide_eq_true heq)

end CbclEquivocation
