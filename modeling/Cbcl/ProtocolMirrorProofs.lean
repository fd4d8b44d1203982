import Cbcl.ExceptProofs
import Cbcl.ProtocolParserModel
import Cbcl.TreeMapProofs

/-!
# What the protocol parser builds

The step map is a fold of edges, and an edge is recorded at every name on either side
(`mem_addEdges_iff`), so successors and predecessors mirror each other.  Which names the map has
is read off the form itself: `stepNames` lists the names a step of a chain stands for, the copies
of a repetition with their indices.  The budget charges one per copied *reference*; a group
travels as one reference however many names it holds, so the number of copied names is a matter
of its own.
-/

namespace CbclProtocolMirror

open CbclMessage CbclProtocol CbclShape CbclProtocolParser CbclExcept

-- ── The names a form stands for ────

/-- The name of a copy. -/
def copyName (index : Nat) (s : String) : String :=
  s ++ String.singleton REPEAT_SEPARATOR ++ toString index

/-- The members of a group. -/
def groupNames (items : List SExpr) : List String :=
  items.filterMap fun
    | .atom (.symbol s) => some s
    | _ => none

/-- The count of a repetition. -/
def repeatCount : SExpr → Nat
  | .atom (.num n) => n.toInt.toNat
  | _ => 0

mutual
/-- The names a step of a chain stands for. -/
def stepNames : SExpr → List String
  | .atom (.symbol s) => [s]
  | .list (.atom (.symbol head) :: count :: body) =>
      if head = "repeat" then
        (List.range (repeatCount count)).flatMap fun i => (bodyNames body).map (copyName (i + 1))
      else groupNames (count :: body)
  | _ => []
/-- The names of the steps of a body. -/
def bodyNames : List SExpr → List String
  | [] => []
  | step :: rest => stepNames step ++ bodyNames rest
end

/-- The chain of a clause. -/
def chainOf : SExpr → Option (List SExpr)
  | .list (_ :: items) => some items
  | _ => none

/-- The chains of the clauses of a protocol form. -/
def chainsOf : SExpr → List (List SExpr)
  | .list (_ :: clauses) => clauses.filterMap chainOf
  | _ => []

/-- The names the repetitions of a protocol form stand for: every name of a group counts. -/
def copiedNames (sexpr : SExpr) : List String :=
  (chainsOf sexpr).flatMap fun items => (items.filter isRepeatForm).flatMap stepNames

/-- The names of some references. -/
def namesOf (refs : List NodeRef) : List String := refs.flatMap NodeRef.performatives

-- ── Reading references ────

theorem checkUserSymbol_ok_iff {s : String} {u : Unit} :
    checkUserSymbol s = .ok u ↔ isCopyName s = false := by
  unfold checkUserSymbol
  cases isCopyName s <;> simp

theorem isCopyName_copyName (index : Nat) (s : String) : isCopyName (copyName index s) = true := by
  unfold isCopyName copyName
  simp

/-- The members of a read group. -/
theorem parseGroup_ok {kind : String} {items : List SExpr} {set : BTreeSet String}
    (h : parseGroup kind items = .ok set) :
    ∀ n, (n ∈ set ↔ n ∈ groupNames items) ∧ (n ∈ set → isCopyName n = false) := by
  unfold parseGroup at h
  refine foldlM_inv (I := fun done (set : BTreeSet String) =>
    ∀ n, (n ∈ set ↔ n ∈ groupNames done) ∧ (n ∈ set → isCopyName n = false)) ?_ ?_ h
  · intro done item set set' _ ih hstep n
    cases item with
    | list items => exact nomatch hstep
    | atom a =>
        cases a with
        | symbol s =>
            obtain ⟨u, hs, hset⟩ := bind_ok_iff.mp hstep
            rw [← Except.ok.inj hset, CbclTreeMap.mem_insert_iff]
            obtain ⟨hmem, hfree⟩ := ih n
            have hgroup : groupNames (done ++ [.atom (.symbol s)]) = groupNames done ++ [s] := by
              unfold groupNames
              rw [List.filterMap_append]
              rfl
            rw [hgroup, List.mem_append, List.mem_singleton, ← hmem, or_comm]
            refine ⟨Iff.rfl, ?_⟩
            rintro (hn | rfl)
            · exact hfree hn
            · exact checkUserSymbol_ok_iff.mp hs
        | str s => exact nomatch hstep
        | num n => exact nomatch hstep
        | bool b => exact nomatch hstep
        | keyword k => exact nomatch hstep
  · intro n
    simp [groupNames]

/-- **A plain step** stands for the names of its reference, none of them a copy. -/
theorem parseNodeRef_ok {step : SExpr} {nr : NodeRef} (h : parseNodeRef step = .ok nr)
    (hplain : isRepeatForm step = false) :
    ∀ n, (n ∈ nr.performatives ↔ n ∈ stepNames step) ∧
      (n ∈ nr.performatives → isCopyName n = false) := by
  unfold parseNodeRef at h
  split at h
  · rename_i s
    obtain ⟨u, hs, hnr⟩ := bind_ok_iff.mp h
    rw [← Except.ok.inj hnr]
    intro n
    rw [stepNames, NodeRef.performatives]
    refine ⟨Iff.rfl, fun hn => ?_⟩
    rw [List.mem_singleton.mp hn]
    exact checkUserSymbol_ok_iff.mp hs
  · rename_i head members
    have hhead : head ≠ "repeat" := by simpa [isRepeatForm, isSymbol] using hplain
    split at h
    · split at h
      · exact nomatch h
      · rename_i hlen
        obtain ⟨set, hset, hnr⟩ := bind_ok_iff.mp h
        have hgroup := parseGroup_ok hset
        -- a group has members, so the form is a head with a rest
        obtain ⟨count, body, rfl⟩ : ∃ count body, members = count :: body := by
          cases members with
          | nil => simp at hlen
          | cons count body => exact ⟨count, body, rfl⟩
        intro n
        have hnames : n ∈ nr.performatives ↔ n ∈ set := by
          rw [← Except.ok.inj hnr]
          split
          · exact Std.ExtTreeSet.mem_toList
          · exact Std.ExtTreeSet.mem_toList
        rw [hnames, stepNames, if_neg hhead]
        exact hgroup n
    · exact nomatch h
  · exact nomatch h
  · exact nomatch h

-- ── Expansion ────

theorem chargeExpansion_ok {used n total : Nat} (h : chargeExpansion used n = .ok total) :
    total = used + n ∧ total ≤ REPEAT_EXPANSION_CEILING := by
  unfold chargeExpansion at h
  dsimp only at h
  split at h
  · exact nomatch h
  · rename_i hle
    have htotal := Except.ok.inj h
    have hmax : U64_MAX = 18446744073709551615 := rfl
    have hceil : REPEAT_EXPANSION_CEILING = 8192 := rfl
    omega

/-- The names of a copied reference. -/
theorem mem_suffixNodeRef_iff (index : Nat) (nr : NodeRef) (n : String) :
    n ∈ (suffixNodeRef index nr).performatives ↔ ∃ s ∈ nr.performatives, n = copyName index s := by
  have hset : ∀ set : BTreeSet String, n ∈ (set.toList.foldl (fun acc s =>
      acc.insert (s ++ String.singleton REPEAT_SEPARATOR ++ toString index))
        (∅ : BTreeSet String)).toList ↔ ∃ s ∈ set.toList, n = copyName index s := by
    intro set
    have hmap := CbclTreeMap.mem_foldl_insert (a := n) (set.toList.map (copyName index)) ∅
    rw [List.foldl_map] at hmap
    rw [Std.ExtTreeSet.mem_toList]
    refine hmap.trans ?_
    simp [eq_comm]
  cases nr with
  | single s => simp [suffixNodeRef, NodeRef.performatives, copyName]
  | any set => exact hset set
  | all set => exact hset set

theorem mem_copyBody_iff {k : Nat} {body : List NodeRef} {n : String} :
    n ∈ namesOf (copyBody k body) ↔
      ∃ i < k, ∃ s ∈ namesOf body, n = copyName (i + 1) s := by
  unfold namesOf copyBody
  simp only [List.mem_flatMap, List.mem_range, List.mem_map]
  constructor
  · rintro ⟨nr, ⟨i, hi, base, hbase, rfl⟩, hn⟩
    obtain ⟨s, hs, rfl⟩ := (mem_suffixNodeRef_iff (i + 1) base n).mp hn
    exact ⟨i, hi, s, ⟨base, hbase, hs⟩, rfl⟩
  · rintro ⟨i, hi, s, ⟨base, hbase, hs⟩, rfl⟩
    exact ⟨_, ⟨i, hi, base, hbase, rfl⟩, (mem_suffixNodeRef_iff (i + 1) base _).mpr ⟨s, hs, rfl⟩⟩

theorem length_copyBody (k : Nat) (body : List NodeRef) :
    (copyBody k body).length = k * body.length := by
  unfold copyBody
  simp

/-- What an expansion yields: the names of the form, and one charge for every reference. -/
structure Expanded (names : List String) (used : Nat) (refs : List NodeRef) (used' : Nat) :
    Prop where
  names_iff : ∀ n, n ∈ namesOf refs ↔ n ∈ names
  charged : used' = used + refs.length
  bounded : used' ≤ max used REPEAT_EXPANSION_CEILING

theorem bodyStep_ok {step : SExpr} {used : Nat} {r : List NodeRef × Nat}
    (h : bodyStep step used = .ok r) (hplain : isRepeatForm step = false) :
    Expanded (stepNames step) used r.1 r.2 := by
  unfold bodyStep at h
  obtain ⟨nr, hnr, h⟩ := bind_ok_iff.mp h
  split at h
  · exact nomatch h
  · obtain ⟨total, htotal, hr⟩ := bind_ok_iff.mp h
    obtain ⟨hsum, hle⟩ := chargeExpansion_ok htotal
    rw [← Except.ok.inj hr]
    refine ⟨fun n => ?_, hsum, hle.trans (Nat.le_max_right _ _)⟩
    rw [← (parseNodeRef_ok hnr hplain n).1]
    simp [namesOf]

theorem parseNat_ok {count : SExpr} {k : Nat} (h : parseNat count = .ok k) :
    k = repeatCount count ∧ 1 ≤ k := by
  unfold parseNat at h
  split at h
  · rename_i n
    split at h
    · rename_i hle
      have hk := Except.ok.inj h
      refine ⟨hk.symm, ?_⟩
      have hone : (1 : Int) ≤ n.toInt := by simpa [Int64.le_iff_toInt_le] using hle
      omega
    · exact nomatch h
  · exact nomatch h

/-- The copies of a body and their charge. -/
theorem repeatBody_ok {k used : Nat} {body : List NodeRef} {r : List NodeRef × Nat}
    (h : repeatBody k body used = .ok r) :
    r.1 = copyBody k body ∧ r.2 = used + (k - 1) * body.length ∧
      r.2 ≤ REPEAT_EXPANSION_CEILING := by
  unfold repeatBody at h
  split at h
  · exact nomatch h
  · obtain ⟨total, htotal, hr⟩ := bind_ok_iff.mp h
    obtain ⟨hsum, hle⟩ := chargeExpansion_ok htotal
    rw [← Except.ok.inj hr]
    exact ⟨rfl, hsum, hle⟩

mutual
/-- **An expansion** of a repetition yields the names the form stands for. -/
theorem expandRepeat_ok : ∀ (sexpr : SExpr) (used : Nat) (r : List NodeRef × Nat),
    expandRepeat sexpr used = .ok r → Expanded (stepNames sexpr) used r.1 r.2
  | .list (.atom (.symbol head) :: count :: body), used, r, h => by
      rw [expandRepeat] at h
      split at h
      · exact nomatch h
      · rename_i hhead
        obtain ⟨k, hk, h⟩ := bind_ok_iff.mp h
        split at h
        · exact nomatch h
        · obtain ⟨⟨refs, used1⟩, hbody, h⟩ := bind_ok_iff.mp h
          obtain ⟨hcount, hone⟩ := parseNat_ok hk
          have ih := expandBody_ok body used (refs, used1) hbody
          obtain ⟨hrefs, hused, hle⟩ := repeatBody_ok h
          have hcharged : used1 = used + refs.length := ih.charged
          refine ⟨fun n => ?_, ?_, hle.trans (Nat.le_max_right _ _)⟩
          · rw [hrefs, mem_copyBody_iff, stepNames, if_pos (not_not.mp hhead), ← hcount]
            simp only [ih.names_iff, List.mem_flatMap, List.mem_range, List.mem_map]
            exact ⟨fun ⟨i, hi, s, hs, hn⟩ => ⟨i, hi, s, hs, hn.symm⟩,
              fun ⟨i, hi, s, hs, hn⟩ => ⟨i, hi, s, hs, hn.symm⟩⟩
          · rw [hrefs, length_copyBody, hused, hcharged, Nat.add_assoc]
            obtain ⟨j, rfl⟩ : ∃ j, k = j + 1 := ⟨k - 1, by omega⟩
            rw [Nat.add_sub_cancel, Nat.add_mul, Nat.one_mul, Nat.add_comm refs.length]
  | .list [.atom (.symbol head)], used, r, h => by
      rw [expandRepeat] at h
      split at h
      · exact nomatch h
      · exact nomatch h
  | .list [], used, r, h => nomatch h
  | .atom _, used, r, h => nomatch h
  | .list (.list _ :: _), used, r, h => nomatch h
  | .list (.atom (.str _) :: _), used, r, h => nomatch h
  | .list (.atom (.num _) :: _), used, r, h => nomatch h
  | .list (.atom (.bool _) :: _), used, r, h => nomatch h
  | .list (.atom (.keyword _) :: _), used, r, h => nomatch h
/-- The expansion of a body yields the names of its steps. -/
theorem expandBody_ok : ∀ (body : List SExpr) (used : Nat) (r : List NodeRef × Nat),
    expandBody body used = .ok r → Expanded (bodyNames body) used r.1 r.2
  | [], used, r, h => by
      rw [← Except.ok.inj h]
      exact ⟨fun n => by simp [namesOf, bodyNames], rfl, Nat.le_max_left _ _⟩
  | step :: rest, used, r, h => by
      rw [expandBody] at h
      obtain ⟨⟨refs, used1⟩, hstep, h⟩ := bind_ok_iff.mp h
      obtain ⟨⟨more, used2⟩, hrest, h⟩ := bind_ok_iff.mp h
      have hfirst : Expanded (stepNames step) used refs used1 := by
        cases hform : isRepeatForm step with
        | true =>
            rw [hform] at hstep
            exact expandRepeat_ok step used (refs, used1) hstep
        | false =>
            rw [hform] at hstep
            exact bodyStep_ok hstep hform
      have hmore := expandBody_ok rest used1 (more, used2) hrest
      rw [← Except.ok.inj h]
      have hc1 := hfirst.charged
      have hc2 := hmore.charged
      have hb1 := hfirst.bounded
      have hb2 := hmore.bounded
      refine ⟨fun n => ?_, ?_, ?_⟩
      · have h1 := hfirst.names_iff n
        have h2 := hmore.names_iff n
        dsimp only at h2
        rw [bodyNames, List.mem_append, ← h1, ← h2]
        simp [namesOf]
      · dsimp only at hc2 ⊢
        rw [List.length_append]
        omega
      · dsimp only at hc2 hb2 ⊢
        omega
end

-- ── Clauses ────

/-- The names of a chain: every name a step stands for, the plain ones outside the namespace of
    the copies. -/
structure Chained (items : List SExpr) (refs : List NodeRef) : Prop where
  names_iff : ∀ n, n ∈ namesOf refs ↔ ∃ item ∈ items, n ∈ stepNames item
  plain : ∀ item ∈ items, isRepeatForm item = false → ∀ n ∈ stepNames item, isCopyName n = false

theorem chainRefs_ok {items : List SExpr} : ∀ {used : Nat} {r : List NodeRef × Nat},
    chainRefs items used = .ok r → Chained items r.1 := by
  induction items with
  | nil =>
      intro used r h
      rw [← Except.ok.inj h]
      exact ⟨fun n => by simp [namesOf], by rintro _ ⟨⟩⟩
  | cons item rest ih =>
      intro used r h
      rw [chainRefs] at h
      obtain ⟨⟨refs, used1⟩, hstep, h⟩ := bind_ok_iff.mp h
      obtain ⟨⟨more, used2⟩, hrest, h⟩ := bind_ok_iff.mp h
      have hmore : Chained rest more := ih hrest
      have hfirst : (∀ n, n ∈ namesOf refs ↔ n ∈ stepNames item) ∧
          (isRepeatForm item = false → ∀ n ∈ stepNames item, isCopyName n = false) := by
        cases hform : isRepeatForm item with
        | true =>
            rw [hform] at hstep
            exact ⟨(expandRepeat_ok item used (refs, used1) hstep).names_iff, by rintro ⟨⟩⟩
        | false =>
            rw [hform] at hstep
            obtain ⟨nr, hnr, hr⟩ := bind_ok_iff.mp hstep
            have hrefs : [nr] = refs := congrArg Prod.fst (Except.ok.inj hr)
            have hnode := parseNodeRef_ok hnr hform
            refine ⟨fun n => ?_, fun _ n hn => (hnode n).2 ((hnode n).1.mpr hn)⟩
            rw [← hrefs, ← (hnode n).1]
            simp [namesOf]
      rw [← Except.ok.inj h]
      refine ⟨fun n => ?_, fun i hi hplain n hn => ?_⟩
      · have h1 := hfirst.1 n
        have h2 := hmore.names_iff n
        have happend : n ∈ namesOf (refs ++ more) ↔ n ∈ namesOf refs ∨ n ∈ namesOf more := by
          simp [namesOf]
        rw [happend, h1, h2]
        simp
      · rcases List.mem_cons.mp hi with rfl | hi
        · exact hfirst.2 hplain n hn
        · exact hmore.plain i hi hplain n hn

/-- Whether an edge touches a name. -/
def Touches (edges : List (NodeRef × NodeRef)) (n : String) : Prop :=
  ∃ e ∈ edges, n ∈ e.1.performatives ∨ n ∈ e.2.performatives

/-- In a chain of two or more references every one ends some edge. -/
theorem touches_zip_tail : ∀ {refs : List NodeRef}, 2 ≤ refs.length → ∀ n,
    Touches (refs.zip refs.tail) n ↔ n ∈ namesOf refs
  | [], hlen, _ => by simp at hlen
  | [a], hlen, _ => by simp at hlen
  | [a, b], _, n => by simp [Touches, namesOf]
  | a :: b :: c :: rest, _, n => by
      have ih := @touches_zip_tail (b :: c :: rest) (by simp) n
      have hcons : Touches ((a :: b :: c :: rest).zip (b :: c :: rest)) n
          ↔ (n ∈ a.performatives ∨ n ∈ b.performatives) ∨
            Touches ((b :: c :: rest).zip (c :: rest)) n := by
        unfold Touches
        rw [List.zip_cons_cons]
        simp
      have hnames : n ∈ namesOf (a :: b :: c :: rest)
          ↔ n ∈ a.performatives ∨ n ∈ namesOf (b :: c :: rest) := by
        unfold namesOf
        rw [List.flatMap_cons, List.mem_append]
      have hb : n ∈ b.performatives → n ∈ namesOf (b :: c :: rest) := by
        intro hn
        unfold namesOf
        rw [List.flatMap_cons, List.mem_append]
        exact Or.inl hn
      rw [List.tail_cons] at ih
      rw [List.tail_cons, hcons, hnames, ih, or_assoc, or_iff_right_of_imp hb]

/-- The edges of a clause touch the names of its chain. -/
theorem parseThenClause_ok {clause : SExpr} {used : Nat}
    {r : List (NodeRef × NodeRef) × Nat} (h : parseThenClause clause used = .ok r) :
    ∃ head items, clause = .list (head :: items) ∧
      (∀ n, Touches r.1 n ↔ ∃ item ∈ items, n ∈ stepNames item) ∧
      ∀ item ∈ items, isRepeatForm item = false → ∀ n ∈ stepNames item, isCopyName n = false := by
  unfold parseThenClause at h
  split at h
  · exact nomatch h
  · rename_i head items
    split at h
    · exact nomatch h
    · obtain ⟨⟨refs, used1⟩, hrefs, h⟩ := bind_ok_iff.mp h
      dsimp only at h
      split at h
      · exact nomatch h
      · rename_i hlen
        have hchain : Chained items refs := chainRefs_ok hrefs
        refine ⟨head, items, rfl, fun n => ?_, hchain.plain⟩
        rw [← Except.ok.inj h]
        exact (touches_zip_tail (Nat.not_lt.mp hlen) n).trans (hchain.names_iff n)
  · exact nomatch h

/-- **The clauses** yield one list of edges, folded into the steps. -/
theorem parseClauses_ok : ∀ {clauses : List SExpr} {steps steps' : BTreeMap String StepDecl}
    {used : Nat}, parseClauses clauses steps used = .ok steps' →
      ∃ edges, steps' = edges.foldl addEdge steps ∧
        (∀ n, Touches edges n ↔
          ∃ items ∈ clauses.filterMap chainOf, ∃ item ∈ items, n ∈ stepNames item) ∧
        ∀ items ∈ clauses.filterMap chainOf, ∀ item ∈ items, isRepeatForm item = false →
          ∀ n ∈ stepNames item, isCopyName n = false
  | [], steps, steps', used, h => by
      refine ⟨[], (Except.ok.inj h).symm, fun n => ?_, fun items hitems => nomatch hitems⟩
      simp [Touches]
  | clause :: rest, steps, steps', used, h => by
      rw [parseClauses] at h
      obtain ⟨⟨edges, used1⟩, hclause, hrest⟩ := bind_ok_iff.mp h
      obtain ⟨head, items, hform, htouch, hplain⟩ := parseThenClause_ok hclause
      obtain ⟨more, hfold, hmore, hmoreplain⟩ := parseClauses_ok hrest
      subst hform
      have hchains : (SExpr.list (head :: items) :: rest).filterMap chainOf
          = items :: rest.filterMap chainOf := rfl
      refine ⟨edges ++ more, ?_, fun n => ?_, ?_⟩
      · rw [List.foldl_append]
        exact hfold
      · have happend : Touches (edges ++ more) n ↔ Touches edges n ∨ Touches more n := by
          unfold Touches
          simp only [List.mem_append, or_and_right, exists_or]
        have htouch : Touches edges n ↔ _ := htouch n
        rw [happend, htouch, hmore, hchains]
        simp
      · intro chain hchain
        rw [hchains] at hchain
        rcases List.mem_cons.mp hchain with rfl | hchain
        · exact hplain
        · exact hmoreplain chain hchain

-- ── The charge ────

mutual
/-- Whether no group stands in a step. -/
def noGroups : SExpr → Bool
  | .atom (.symbol _) => true
  | .list (.atom (.symbol head) :: _ :: body) => head = "repeat" && noGroupsIn body
  | _ => false
/-- Whether no group stands in a body. -/
def noGroupsIn : List SExpr → Bool
  | [] => true
  | step :: rest => noGroups step && noGroupsIn rest
end

mutual
/-- Without groups an expansion yields single names. -/
theorem expandRepeat_single : ∀ (sexpr : SExpr) (used : Nat) (r : List NodeRef × Nat),
    expandRepeat sexpr used = .ok r → noGroups sexpr = true → ∀ nr ∈ r.1, ∃ s, nr = .single s
  | .list (.atom (.symbol head) :: count :: body), used, r, h, hfree => by
      rw [expandRepeat] at h
      split at h
      · exact nomatch h
      · obtain ⟨k, hk, h⟩ := bind_ok_iff.mp h
        split at h
        · exact nomatch h
        · obtain ⟨⟨refs, used1⟩, hbody, h⟩ := bind_ok_iff.mp h
          rw [noGroups, Bool.and_eq_true] at hfree
          have ih := expandBody_single body used (refs, used1) hbody hfree.2
          obtain ⟨hrefs, -, -⟩ := repeatBody_ok h
          intro nr hnr
          rw [hrefs] at hnr
          obtain ⟨i, -, hi⟩ := List.mem_flatMap.mp hnr
          obtain ⟨base, hbase, rfl⟩ := List.mem_map.mp hi
          obtain ⟨s, rfl⟩ := ih base hbase
          exact ⟨_, rfl⟩
  | .list [.atom (.symbol head)], used, r, h, hfree => nomatch hfree
  | .list [], used, r, h, _ => nomatch h
  | .atom _, used, r, h, _ => nomatch h
  | .list (.list _ :: _), used, r, h, _ => nomatch h
  | .list (.atom (.str _) :: _), used, r, h, _ => nomatch h
  | .list (.atom (.num _) :: _), used, r, h, _ => nomatch h
  | .list (.atom (.bool _) :: _), used, r, h, _ => nomatch h
  | .list (.atom (.keyword _) :: _), used, r, h, _ => nomatch h
theorem expandBody_single : ∀ (body : List SExpr) (used : Nat) (r : List NodeRef × Nat),
    expandBody body used = .ok r → noGroupsIn body = true → ∀ nr ∈ r.1, ∃ s, nr = .single s
  | [], used, r, h, _ => by
      rw [← Except.ok.inj h]
      exact fun nr hnr => nomatch hnr
  | step :: rest, used, r, h, hfree => by
      rw [expandBody] at h
      obtain ⟨⟨refs, used1⟩, hstep, h⟩ := bind_ok_iff.mp h
      obtain ⟨⟨more, used2⟩, hrest, h⟩ := bind_ok_iff.mp h
      rw [noGroupsIn, Bool.and_eq_true] at hfree
      have hmore := expandBody_single rest used1 (more, used2) hrest hfree.2
      have hfirst : ∀ nr ∈ refs, ∃ s, nr = .single s := by
        cases hform : isRepeatForm step with
        | true =>
            rw [hform] at hstep
            exact expandRepeat_single step used (refs, used1) hstep hfree.1
        | false =>
            rw [hform] at hstep
            unfold bodyStep at hstep
            obtain ⟨nr, hnr, hstep⟩ := bind_ok_iff.mp hstep
            split at hstep
            · exact nomatch hstep
            · obtain ⟨total, -, hr⟩ := bind_ok_iff.mp hstep
              have hrefs : [nr] = refs := congrArg Prod.fst (Except.ok.inj hr)
              rw [← hrefs]
              intro nr' hnr'
              rw [List.mem_singleton.mp hnr']
              -- a plain step without groups is a symbol
              match step, hfree.1, hform, hnr with
              | .atom (.symbol s), _, _, hnr =>
                  obtain ⟨u, -, hs⟩ := bind_ok_iff.mp hnr
                  exact ⟨s, (Except.ok.inj hs).symm⟩
              | .list (.atom (.symbol head) :: _ :: _), hfree, hform, _ =>
                  rw [noGroups, Bool.and_eq_true, decide_eq_true_iff] at hfree
                  simp [isRepeatForm, isSymbol, hfree.1] at hform
      rw [← Except.ok.inj h]
      intro nr hnr
      rcases List.mem_append.mp hnr with hnr | hnr
      · exact hfirst nr hnr
      · exact hmore nr hnr
end

/-- References with the names of some repetitions, single ones where no group stands in them. -/
structure CopiesOf (forms : List SExpr) (copied : List NodeRef) : Prop where
  names_iff : ∀ n, n ∈ namesOf copied ↔ n ∈ forms.flatMap stepNames
  single : (∀ form ∈ forms, noGroups form = true) → ∀ nr ∈ copied, ∃ s, nr = .single s

theorem CopiesOf.append {forms forms' : List SExpr} {copied copied' : List NodeRef}
    (h : CopiesOf forms copied) (h' : CopiesOf forms' copied') :
    CopiesOf (forms ++ forms') (copied ++ copied') where
  names_iff := by
    intro n
    have happend : n ∈ namesOf (copied ++ copied') ↔ n ∈ namesOf copied ∨ n ∈ namesOf copied' := by
      simp [namesOf]
    rw [happend, h.names_iff, h'.names_iff, List.flatMap_append, List.mem_append]
  single := by
    intro hfree nr hnr
    rcases List.mem_append.mp hnr with hnr | hnr
    · exact h.single (fun form hform => hfree form (List.mem_append_left _ hform)) nr hnr
    · exact h'.single (fun form hform => hfree form (List.mem_append_right _ hform)) nr hnr

/-- **The charge of a chain** is the number of references its repetitions yield. -/
theorem chainRefs_charged : ∀ {items : List SExpr} {used : Nat} {r : List NodeRef × Nat},
    chainRefs items used = .ok r → ∃ copied, CopiesOf (items.filter isRepeatForm) copied ∧
      r.2 = used + copied.length ∧ r.2 ≤ max used REPEAT_EXPANSION_CEILING
  | [], used, r, h => by
      rw [← Except.ok.inj h]
      exact ⟨[], ⟨fun n => by simp [namesOf], fun _ nr hnr => nomatch hnr⟩, rfl,
        Nat.le_max_left _ _⟩
  | item :: rest, used, r, h => by
      rw [chainRefs] at h
      obtain ⟨⟨refs, used1⟩, hstep, h⟩ := bind_ok_iff.mp h
      obtain ⟨⟨more, used2⟩, hrest, h⟩ := bind_ok_iff.mp h
      obtain ⟨copied, hcopies, hcharged, hbounded⟩ := chainRefs_charged hrest
      dsimp only at hcharged hbounded
      rw [← Except.ok.inj h]
      cases hform : isRepeatForm item with
      | true =>
          rw [hform] at hstep
          have hone := expandRepeat_ok item used (refs, used1) hstep
          have hc := hone.charged
          have hb := hone.bounded
          dsimp only at hc hb
          refine ⟨refs ++ copied, ?_, ?_, ?_⟩
          · rw [List.filter_cons_of_pos hform]
            refine @CopiesOf.append [item] _ _ _ ⟨fun n => ?_, fun hfree => ?_⟩ hcopies
            · rw [List.flatMap_singleton]
              exact hone.names_iff n
            · exact expandRepeat_single item used (refs, used1) hstep
                (hfree item (List.mem_singleton.mpr rfl))
          · rw [List.length_append]
            dsimp only
            omega
          · dsimp only
            omega
      | false =>
          rw [hform] at hstep
          obtain ⟨nr, -, hr⟩ := bind_ok_iff.mp hstep
          have hused : used = used1 := congrArg Prod.snd (Except.ok.inj hr)
          rw [List.filter_cons_of_neg (by rw [hform]; exact Bool.false_ne_true), hused]
          exact ⟨copied, hcopies, hcharged, hbounded⟩

/-- **The charge of a protocol** stays at or below the ceiling. -/
theorem parseClauses_charged : ∀ {clauses : List SExpr} {steps steps' : BTreeMap String StepDecl}
    {used : Nat}, parseClauses clauses steps used = .ok steps' → ∃ copied,
      CopiesOf ((clauses.filterMap chainOf).flatMap (·.filter isRepeatForm)) copied ∧
        used + copied.length ≤ max used REPEAT_EXPANSION_CEILING
  | [], steps, steps', used, _ => by
      exact ⟨[], ⟨fun n => by simp [namesOf], fun _ nr hnr => nomatch hnr⟩, Nat.le_max_left _ _⟩
  | clause :: rest, steps, steps', used, h => by
      rw [parseClauses] at h
      obtain ⟨⟨edges, used1⟩, hclause, hrest⟩ := bind_ok_iff.mp h
      obtain ⟨more, hmore, hmorebounded⟩ := parseClauses_charged hrest
      unfold parseThenClause at hclause
      split at hclause
      · exact nomatch hclause
      · rename_i head items
        split at hclause
        · exact nomatch hclause
        · obtain ⟨⟨refs, used2⟩, hrefs, hclause⟩ := bind_ok_iff.mp hclause
          dsimp only at hclause
          split at hclause
          · exact nomatch hclause
          · have hused : used2 = used1 := congrArg Prod.snd (Except.ok.inj hclause)
            obtain ⟨copied, hcopies, hcharged, hbounded⟩ := chainRefs_charged hrefs
            dsimp only at hcharged hbounded
            refine ⟨copied ++ more, hcopies.append hmore, ?_⟩
            rw [List.length_append]
            omega
      · exact nomatch hclause

-- ── The step map ────

/-- Change the declaration of a name, created empty where it is missing. -/
def record (f : StepDecl → StepDecl) (steps : BTreeMap String StepDecl) (name : String) :
    BTreeMap String StepDecl := steps.insert name (f (stepOf steps name))

/-- Every declaration stands under its own name. -/
def Keyed (steps : BTreeMap String StepDecl) : Prop :=
  ∀ (name : String) (step : StepDecl), steps[name]? = some step → step.performative = name

theorem stepOf_record (f : StepDecl → StepDecl) (steps : BTreeMap String StepDecl)
    (name n : String) : stepOf (record f steps name) n
      = if n = name then f (stepOf steps name) else stepOf steps n := by
  unfold record stepOf
  rw [CbclTreeMap.getElem?_insert_eq]
  split
  · rfl
  · rfl

theorem Keyed.stepOf {steps : BTreeMap String StepDecl} (h : Keyed steps) (name : String) :
    (stepOf steps name).performative = name := by
  unfold CbclProtocolParser.stepOf
  cases hstep : steps[name]? with
  | none => rfl
  | some step => exact h name step hstep

/-- **Recording a reference** at some names adds it on one side there, and leaves the other side
    and the other names alone. -/
theorem foldl_record {f : StepDecl → StepDecl} {side other : StepDecl → List NodeRef}
    {r : NodeRef} (hside : ∀ s, side (f s) = side s ++ [r]) (hother : ∀ s, other (f s) = other s)
    (hname : ∀ s, (f s).performative = s.performative) : ∀ (names : List String)
    (steps : BTreeMap String StepDecl),
    (∀ p q, q ∈ namesOf (side (stepOf (names.foldl (record f) steps) p))
        ↔ q ∈ namesOf (side (stepOf steps p)) ∨ p ∈ names ∧ q ∈ r.performatives) ∧
      (∀ p, other (stepOf (names.foldl (record f) steps) p) = other (stepOf steps p)) ∧
      (∀ p, p ∈ names.foldl (record f) steps ↔ p ∈ steps ∨ p ∈ names) ∧
      (Keyed steps → Keyed (names.foldl (record f) steps)) := by
  intro names
  induction names with
  | nil => exact fun steps => ⟨fun p q => by simp, fun _ => rfl, fun p => by simp, id⟩
  | cons name names ih =>
      intro steps
      obtain ⟨hs, ho, hm, hk⟩ := ih (record f steps name)
      rw [List.foldl_cons]
      refine ⟨fun p q => ?_, fun p => ?_, fun p => ?_, fun hkeyed => hk fun n step hn => ?_⟩
      · rw [hs, stepOf_record]
        by_cases hp : p = name
        · subst hp
          have happend : q ∈ namesOf (side (stepOf steps p) ++ [r])
              ↔ q ∈ namesOf (side (stepOf steps p)) ∨ q ∈ r.performatives := by
            simp [namesOf]
          rw [if_pos rfl, hside, happend]
          simp only [List.mem_cons, true_or, true_and]
          exact or_iff_left_of_imp fun h => Or.inr h.2
        · rw [if_neg hp]
          simp only [List.mem_cons, hp, false_or]
      · rw [ho, stepOf_record]
        split
        · rename_i hp
          rw [hother, hp]
        · rfl
      · rw [hm, List.mem_cons]
        unfold record
        rw [Std.ExtTreeMap.mem_insert, Std.LawfulEqCmp.compare_eq_iff_eq, eq_comm,
          @or_comm (p = name), or_assoc]
      · unfold record at hn
        rw [CbclTreeMap.getElem?_insert_eq] at hn
        split at hn
        · rename_i hnn
          rw [← Option.some.inj hn, hname, hkeyed.stepOf, hnn]
        · exact hkeyed n step hn

/-- **One edge** is recorded on both sides. -/
theorem addEdge_spec (steps : BTreeMap String StepDecl) (e : NodeRef × NodeRef) :
    (∀ p q, q ∈ namesOf (stepOf (addEdge steps e) p).successors
        ↔ q ∈ namesOf (stepOf steps p).successors ∨
          p ∈ e.1.performatives ∧ q ∈ e.2.performatives) ∧
      (∀ p q, q ∈ namesOf (stepOf (addEdge steps e) p).predecessors
        ↔ q ∈ namesOf (stepOf steps p).predecessors ∨
          p ∈ e.2.performatives ∧ q ∈ e.1.performatives) ∧
      (∀ p, p ∈ addEdge steps e ↔ p ∈ steps ∨ p ∈ e.1.performatives ∨ p ∈ e.2.performatives) ∧
      (Keyed steps → Keyed (addEdge steps e)) := by
  obtain ⟨pred, succ⟩ := e
  obtain ⟨hs, ho, hm, hk⟩ := @foldl_record
    (fun step => { step with successors := step.successors ++ [succ] })
    StepDecl.successors StepDecl.predecessors succ (fun _ => rfl) (fun _ => rfl) (fun _ => rfl)
    pred.performatives steps
  obtain ⟨hs', ho', hm', hk'⟩ := @foldl_record
    (fun step => { step with predecessors := step.predecessors ++ [pred] })
    StepDecl.predecessors StepDecl.successors pred (fun _ => rfl) (fun _ => rfl) (fun _ => rfl)
    succ.performatives
    (pred.performatives.foldl
      (record fun step => { step with successors := step.successors ++ [succ] }) steps)
  refine ⟨fun p q => ?_, fun p q => ?_, fun p => ?_, fun h => hk' (hk h)⟩
  · exact (ho' p ▸ hs p q : q ∈ namesOf (stepOf (addEdge steps (pred, succ)) p).successors ↔ _)
  · have hprev := hs' p q
    rw [ho] at hprev
    exact hprev
  · exact (hm' p).trans (by rw [hm, or_assoc])

/-- **The whole list of edges.** -/
theorem addEdges_spec : ∀ (edges : List (NodeRef × NodeRef)) (steps : BTreeMap String StepDecl),
    (∀ p q, q ∈ namesOf (stepOf (edges.foldl addEdge steps) p).successors
        ↔ q ∈ namesOf (stepOf steps p).successors ∨
          ∃ e ∈ edges, p ∈ e.1.performatives ∧ q ∈ e.2.performatives) ∧
      (∀ p q, q ∈ namesOf (stepOf (edges.foldl addEdge steps) p).predecessors
        ↔ q ∈ namesOf (stepOf steps p).predecessors ∨
          ∃ e ∈ edges, p ∈ e.2.performatives ∧ q ∈ e.1.performatives) ∧
      (∀ p, p ∈ edges.foldl addEdge steps ↔ p ∈ steps ∨ Touches edges p) ∧
      (Keyed steps → Keyed (edges.foldl addEdge steps)) := by
  intro edges
  induction edges with
  | nil =>
      intro steps
      exact ⟨fun p q => by simp, fun p q => by simp, fun p => by simp [Touches], id⟩
  | cons e edges ih =>
      intro steps
      obtain ⟨hs, hp, hm, hk⟩ := ih (addEdge steps e)
      obtain ⟨hs1, hp1, hm1, hk1⟩ := addEdge_spec steps e
      rw [List.foldl_cons]
      refine ⟨fun p q => ?_, fun p q => ?_, fun p => ?_, fun h => hk (hk1 h)⟩
      · rw [hs, hs1, or_assoc]
        simp
      · rw [hp, hp1, or_assoc]
        simp
      · have hcons : Touches (e :: edges) p ↔
            (p ∈ e.1.performatives ∨ p ∈ e.2.performatives) ∨ Touches edges p := by
          simp [Touches]
        rw [hm, hm1, hcons, or_assoc]

-- ── The parsed protocol ────

/-- What a parsed protocol should be: keyed by its own names, mirrored, closed under reference,
    with a `#` in exactly the names its repetitions made, no more of them than the ceiling. -/
structure Mirrored (sexpr : SExpr) (p : CausalProtocol) : Prop where
  keyed : Keyed p.steps
  mirrored : ∀ a b, (∃ step, p.steps[a]? = some step ∧ b ∈ namesOf step.successors)
    ↔ ∃ step, p.steps[b]? = some step ∧ a ∈ namesOf step.predecessors
  closed : ∀ (name : String) (step : StepDecl), p.steps[name]? = some step →
    ∀ q, q ∈ namesOf step.successors ∨ q ∈ namesOf step.predecessors → q ∈ p.steps
  copies : ∀ name ∈ p.steps, isCopyName name = true ↔ name ∈ copiedNames sexpr
  bounded : (p.steps.keys.filter isCopyName).length ≤ REPEAT_EXPANSION_CEILING

/-- The names of a repetition are copies. -/
theorem isCopyName_of_repeat {step : SExpr} (h : isRepeatForm step = true) :
    ∀ n ∈ stepNames step, isCopyName n = true := by
  intro n hn
  unfold stepNames at hn
  split at hn
  · exact nomatch h
  · rename_i head count body
    have hhead : head = "repeat" := by simpa [isRepeatForm, isSymbol] using h
    rw [if_pos hhead] at hn
    obtain ⟨i, -, hi⟩ := List.mem_flatMap.mp hn
    obtain ⟨s, -, rfl⟩ := List.mem_map.mp hi
    exact isCopyName_copyName (i + 1) s
  · exact nomatch hn

/-- A declared side is what `stepOf` reads. -/
theorem exists_step_iff {steps : BTreeMap String StepDecl} {a b : String}
    {side : StepDecl → List NodeRef} (hempty : side ⟨a, [], []⟩ = []) :
    (∃ step, steps[a]? = some step ∧ b ∈ namesOf (side step)) ↔
      b ∈ namesOf (side (stepOf steps a)) := by
  unfold stepOf
  cases hstep : steps[a]? with
  | none =>
      rw [Option.getD_none, hempty]
      exact ⟨(fun ⟨_, h, _⟩ => nomatch h), (nomatch ·)⟩
  | some step => simp

section Parsed

variable {sexpr : SExpr} {p : CausalProtocol}

/-- The edges behind a parsed protocol. -/
theorem parseProtocol_edges (h : parseProtocol sexpr = .ok p) :
    ∃ edges, p.steps = edges.foldl addEdge ∅ ∧
      (∀ n, Touches edges n ↔ ∃ items ∈ chainsOf sexpr, ∃ item ∈ items, n ∈ stepNames item) ∧
      ∀ items ∈ chainsOf sexpr, ∀ item ∈ items, isRepeatForm item = false →
        ∀ n ∈ stepNames item, isCopyName n = false := by
  unfold parseProtocol at h
  split at h
  · exact nomatch h
  · rename_i head clauses
    split at h
    · exact nomatch h
    · split at h
      · exact nomatch h
      · obtain ⟨steps, hsteps, hp⟩ := bind_ok_iff.mp h
        rw [← Except.ok.inj hp]
        exact parseClauses_ok hsteps
  · exact nomatch h

/-- **Everything but the bound** holds of every parsed protocol; its copied names are those of
    the form. -/
theorem parseProtocol_ok (h : parseProtocol sexpr = .ok p) :
    (Keyed p.steps ∧
      (∀ a b, (∃ step, p.steps[a]? = some step ∧ b ∈ namesOf step.successors)
        ↔ ∃ step, p.steps[b]? = some step ∧ a ∈ namesOf step.predecessors) ∧
      ∀ (name : String) (step : StepDecl), p.steps[name]? = some step →
        ∀ q, q ∈ namesOf step.successors ∨ q ∈ namesOf step.predecessors → q ∈ p.steps) ∧
    (∀ name ∈ p.steps, isCopyName name = true ↔ name ∈ copiedNames sexpr) ∧
    ∀ name, name ∈ p.steps.keys.filter isCopyName ↔ name ∈ copiedNames sexpr := by
  obtain ⟨edges, hfold, htouch, hplain⟩ := parseProtocol_edges h
  obtain ⟨hsucc, hpred, hmem, hkeyed⟩ := addEdges_spec edges ∅
  rw [← hfold] at hsucc hpred hmem hkeyed
  have hnone : ∀ n, n ∉ (∅ : BTreeMap String StepDecl) := fun n => Std.ExtTreeMap.not_mem_empty
  have hsucc : ∀ a b, (∃ step, p.steps[a]? = some step ∧ b ∈ namesOf step.successors) ↔
      ∃ e ∈ edges, a ∈ e.1.performatives ∧ b ∈ e.2.performatives := by
    intro a b
    rw [@exists_step_iff _ _ _ StepDecl.successors rfl, hsucc, or_iff_right]
    simp [stepOf, namesOf]
  have hpred : ∀ a b, (∃ step, p.steps[a]? = some step ∧ b ∈ namesOf step.predecessors) ↔
      ∃ e ∈ edges, a ∈ e.2.performatives ∧ b ∈ e.1.performatives := by
    intro a b
    rw [@exists_step_iff _ _ _ StepDecl.predecessors rfl, hpred, or_iff_right]
    simp [stepOf, namesOf]
  have hmem : ∀ n, n ∈ p.steps ↔ Touches edges n :=
    fun n => (hmem n).trans (or_iff_right (hnone n))
  -- a name of the form is a copy exactly if a repetition stands for it
  have hcopied : ∀ n, n ∈ copiedNames sexpr ↔ n ∈ p.steps ∧ isCopyName n = true := by
    intro n
    rw [hmem, htouch]
    unfold copiedNames
    simp only [List.mem_flatMap, List.mem_filter]
    constructor
    · rintro ⟨items, hitems, item, ⟨hitem, hform⟩, hn⟩
      exact ⟨⟨items, hitems, item, hitem, hn⟩, isCopyName_of_repeat hform n hn⟩
    · rintro ⟨⟨items, hitems, item, hitem, hn⟩, hcopy⟩
      cases hform : isRepeatForm item with
      | true => exact ⟨items, hitems, item, ⟨hitem, hform⟩, hn⟩
      | false =>
          rw [hplain items hitems item hitem hform n hn] at hcopy
          cases hcopy
  refine ⟨⟨hkeyed fun name step hs => ?_, fun a b => ?_, fun name step hs q hq => ?_⟩,
    fun name hname => ?_, fun name => ?_⟩
  · rw [Std.ExtTreeMap.getElem?_empty] at hs
    cases hs
  · rw [hsucc, hpred]
    exact exists_congr fun e => and_congr_right fun _ => And.comm
  · rw [hmem]
    rcases hq with hq | hq
    · obtain ⟨e, he, -, hqe⟩ := (hsucc name q).mp ⟨step, hs, hq⟩
      exact ⟨e, he, Or.inr hqe⟩
    · obtain ⟨e, he, -, hqe⟩ := (hpred name q).mp ⟨step, hs, hq⟩
      exact ⟨e, he, Or.inl hqe⟩
  · rw [hcopied]
    exact ⟨fun hc => ⟨hname, hc⟩, fun hc => hc.2⟩
  · rw [List.mem_filter, Std.ExtTreeMap.mem_keys, hcopied]

/-- Without a group in a repetition the charge covers the names. -/
theorem card_copiedNames_le (h : parseProtocol sexpr = .ok p)
    (hfree : ∀ items ∈ chainsOf sexpr, ∀ item ∈ items, isRepeatForm item = true →
      noGroups item = true) :
    (copiedNames sexpr).toFinset.card ≤ REPEAT_EXPANSION_CEILING := by
  unfold parseProtocol at h
  split at h
  · exact nomatch h
  · rename_i head clauses
    split at h
    · exact nomatch h
    · split at h
      · exact nomatch h
      · obtain ⟨steps, hsteps, -⟩ := bind_ok_iff.mp h
        obtain ⟨copied, hcopies, hbounded⟩ := parseClauses_charged hsteps
        have hsingle := hcopies.single fun form hform => by
          obtain ⟨items, hitems, hform⟩ := List.mem_flatMap.mp hform
          obtain ⟨hitem, hrepeat⟩ := List.mem_filter.mp hform
          exact hfree items hitems form hitem hrepeat
        have hnames : (copiedNames (.list (head :: clauses))).toFinset
            = (namesOf copied).toFinset := by
          refine Finset.ext fun n => ?_
          rw [List.mem_toFinset, List.mem_toFinset, hcopies.names_iff, List.flatMap_assoc]
          rfl
        have hlength : ∀ refs : List NodeRef, (∀ nr ∈ refs, ∃ s, nr = .single s) →
            (namesOf refs).length = refs.length := by
          intro refs
          induction refs with
          | nil => exact fun _ => rfl
          | cons nr refs ih =>
              intro hall
              obtain ⟨s, rfl⟩ := hall nr List.mem_cons_self
              have hrest := ih fun nr' hnr' => hall nr' (List.mem_cons_of_mem _ hnr')
              unfold namesOf at hrest ⊢
              rw [List.flatMap_cons, List.length_append, hrest, List.length_cons]
              exact Nat.add_comm 1 refs.length
        calc (copiedNames (.list (head :: clauses))).toFinset.card
            = (namesOf copied).toFinset.card := by rw [hnames]
          _ ≤ (namesOf copied).length := List.toFinset_card_le _
          _ = copied.length := hlength copied hsingle
          _ ≤ REPEAT_EXPANSION_CEILING := by simpa using hbounded
  · exact nomatch h

/-- **A parsed protocol is mirrored** and complete, and it keeps to the ceiling exactly when the
    repetitions of its form stand for at most that many names, as they do when no group stands in
    a repetition. -/
theorem parseProtocol_mirrored_iff (h : parseProtocol sexpr = .ok p) :
    (Mirrored sexpr p ↔ (copiedNames sexpr).toFinset.card ≤ REPEAT_EXPANSION_CEILING) ∧
      ((∀ items ∈ chainsOf sexpr, ∀ item ∈ items, isRepeatForm item = true →
        noGroups item = true) → Mirrored sexpr p) := by
  obtain ⟨⟨hkeyed, hmirrored, hclosed⟩, hcopies, hfilter⟩ := parseProtocol_ok h
  have hcount : (p.steps.keys.filter isCopyName).length = (copiedNames sexpr).toFinset.card := by
    rw [← List.toFinset_card_of_nodup ((CbclTreeMap.nodup_keys p.steps).filter _)]
    refine congrArg Finset.card (Finset.ext fun name => ?_)
    rw [List.mem_toFinset, List.mem_toFinset, hfilter]
  have hiff : Mirrored sexpr p ↔
      (copiedNames sexpr).toFinset.card ≤ REPEAT_EXPANSION_CEILING := by
    rw [← hcount]
    exact ⟨fun hm => hm.bounded, fun hb => ⟨hkeyed, hmirrored, hclosed, hcopies, hb⟩⟩
  exact ⟨hiff, fun hfree => hiff.mpr (card_copiedNames_le h hfree)⟩

end Parsed

-- ── A repeated choice ────

/-- Two ticks in a row: `(protocol (then begin (repeat 2 tick)))`. -/
def ticks : SExpr :=
  .list [.atom (.symbol "protocol"), .list [.atom (.symbol "then"), .atom (.symbol "begin"),
    .list [.atom (.symbol "repeat"), .atom (.num 2), .atom (.symbol "tick")]]]

/-- The ticking protocol is mirrored. -/
theorem parseProtocol_mirrored_ticks :
    ∃ p, parseProtocol ticks = .ok p ∧ Mirrored ticks p := by
  cases hp : parseProtocol ticks with
  | error e =>
      have hok : (parseProtocol ticks).toOption.isSome = true := by decide +kernel
      rw [hp] at hok
      exact nomatch hok
  | ok p =>
      refine ⟨p, rfl, (parseProtocol_mirrored_iff hp).2 ?_⟩
      decide +kernel

/-- Copies of one name are equal only at one index. -/
theorem copyName_inj {i j : Nat} {s : String} (h : copyName i s = copyName j s) : i = j := by
  unfold copyName at h
  have hlist := congrArg String.toList h
  rw [String.toList_append, @String.toList_append _ (toString j)] at hlist
  exact Nat.repr_inj.mp (String.toList_injective (List.append_cancel_left hlist))

theorem copyName_ne (i j : Nat) : copyName i "a" ≠ copyName j "b" := by
  intro h
  have hlist := congrArg String.toList h
  unfold copyName at hlist
  simp at hlist

/-- A choice of `a` and `b`. -/
def choice : SExpr := .list [.atom (.symbol "any"), .atom (.symbol "a"), .atom (.symbol "b")]

/-- The choice, repeated. -/
def choices (count : Int64) : SExpr :=
  .list [.atom (.symbol "repeat"), .atom (.num count), choice]

/-- `(protocol (then begin (repeat count (any a b))))` -/
def choosing (count : Int64) : SExpr :=
  .list [.atom (.symbol "protocol"),
    .list [.atom (.symbol "then"), .atom (.symbol "begin"), choices count]]

section Choices

variable {count : Int64}

/-- Repeated choices stand for two names each. -/
theorem card_choosing : 2 * repeatCount (.atom (.num count))
    ≤ (copiedNames (choosing count)).toFinset.card := by
  have hnames : copiedNames (choosing count)
      = (List.range (repeatCount (.atom (.num count)))).flatMap
          fun i => [copyName (i + 1) "a", copyName (i + 1) "b"] := by
    have hshape : copiedNames (choosing count) = stepNames (choices count) ++ [] ++ [] := rfl
    rw [hshape, List.append_nil, List.append_nil]
    rfl
  generalize repeatCount (.atom (.num count)) = k at hnames ⊢
  let as := (Finset.range k).image fun i => copyName (i + 1) "a"
  let bs := (Finset.range k).image fun i => copyName (i + 1) "b"
  have hinj : ∀ s : String, Function.Injective fun i => copyName (i + 1) s :=
    fun s i j h => Nat.succ.inj (copyName_inj h)
  have hdisj : Disjoint as bs := by
    refine Finset.disjoint_left.mpr fun n ha hb => ?_
    obtain ⟨i, -, rfl⟩ := Finset.mem_image.mp ha
    obtain ⟨j, -, hj⟩ := Finset.mem_image.mp hb
    exact copyName_ne (i + 1) (j + 1) hj.symm
  have hsub : as ∪ bs ⊆ (copiedNames (choosing count)).toFinset := by
    intro n hn
    rw [List.mem_toFinset, hnames]
    rcases Finset.mem_union.mp hn with hn | hn
    · obtain ⟨i, hi, rfl⟩ := Finset.mem_image.mp hn
      exact List.mem_flatMap.mpr ⟨i, List.mem_range.mpr (Finset.mem_range.mp hi), by simp⟩
    · obtain ⟨i, hi, rfl⟩ := Finset.mem_image.mp hn
      exact List.mem_flatMap.mpr ⟨i, List.mem_range.mpr (Finset.mem_range.mp hi), by simp⟩
  calc 2 * k = as.card + bs.card := by
        rw [Finset.card_image_of_injective _ (hinj "a"),
          Finset.card_image_of_injective _ (hinj "b"), Finset.card_range]
        omega
    _ = (as ∪ bs).card := (Finset.card_union_of_disjoint hdisj).symm
    _ ≤ _ := Finset.card_le_card hsub

/-- Up to the ceiling repeated choices are accepted: a choice is charged as one. -/
theorem parseProtocol_choosing (hone : 1 ≤ count)
    (hceiling : repeatCount (.atom (.num count)) ≤ REPEAT_EXPANSION_CEILING) :
    ∃ p, parseProtocol (choosing count) = .ok p := by
  have hnat : parseNat (.atom (.num count)) = .ok (repeatCount (.atom (.num count))) :=
    if_pos hone
  have hpos := (parseNat_ok hnat).2
  generalize repeatCount (.atom (.num count)) = k at hnat hpos hceiling
  obtain ⟨nr, hnr⟩ : ∃ nr, expandBody [choice] 0 = .ok ([nr], 1) := ⟨_, rfl⟩
  have hbody : repeatBody k [nr] 1 = .ok (copyBody k [nr], k) := by
    have hmax : U64_MAX = 18446744073709551615 := rfl
    have hceil : REPEAT_EXPANSION_CEILING = 8192 := rfl
    have hcharge : chargeExpansion 1 ((k - 1) * [nr].length) = .ok k := by
      have htotal : min (1 + (k - 1) * [nr].length) U64_MAX = k := by
        rw [List.length_singleton]
        omega
      unfold chargeExpansion
      rw [htotal]
      exact if_neg (Nat.not_lt.mpr hceiling)
    unfold repeatBody
    rw [if_neg (by rw [List.length_singleton]; omega)]
    exact bind_ok_iff.mpr ⟨k, hcharge, rfl⟩
  have hrepeat : expandRepeat (choices count) 0 = .ok (copyBody k [nr], k) := by
    rw [choices, expandRepeat, if_neg (by decide)]
    refine bind_ok_iff.mpr ⟨k, hnat, ?_⟩
    rw [if_neg (by decide)]
    exact bind_ok_iff.mpr ⟨([nr], 1), hnr, hbody⟩
  obtain ⟨root, hroot⟩ : ∃ root, chainStep (.atom (.symbol "begin")) 0 = .ok ([root], 0) := ⟨_, rfl⟩
  have hchain : chainRefs [.atom (.symbol "begin"), choices count] 0
      = .ok (root :: (copyBody k [nr] ++ []), k) := by
    rw [chainRefs]
    refine bind_ok_iff.mpr ⟨([root], 0), hroot, ?_⟩
    refine bind_ok_iff.mpr ⟨(copyBody k [nr] ++ [], k), ?_, rfl⟩
    rw [chainRefs]
    exact bind_ok_iff.mpr ⟨(copyBody k [nr], k), hrepeat, rfl⟩
  have hlength : ¬ (root :: (copyBody k [nr] ++ [])).length < 2 := by
    rw [List.length_cons, List.append_nil, length_copyBody, List.length_singleton]
    omega
  obtain ⟨edges, hclause⟩ : ∃ edges, parseThenClause
      (.list [.atom (.symbol "then"), .atom (.symbol "begin"), choices count]) 0
        = .ok (edges, k) := by
    refine ⟨(root :: (copyBody k [nr] ++ [])).zip (copyBody k [nr] ++ []), ?_⟩
    unfold parseThenClause
    dsimp only
    rw [if_neg (by decide)]
    refine bind_ok_iff.mpr ⟨_, hchain, ?_⟩
    dsimp only
    rw [if_neg hlength]
    rfl
  refine ⟨⟨edges.foldl addEdge ∅⟩, ?_⟩
  unfold parseProtocol choosing
  dsimp only
  rw [if_neg (by decide), if_neg (by simp)]
  refine bind_ok_iff.mpr ⟨_, ?_, rfl⟩
  rw [parseClauses]
  exact bind_ok_iff.mpr ⟨(edges, k), hclause, rfl⟩

end Choices

/-- 4097 choices are accepted and make 8194 copies. -/
theorem parseProtocol_not_mirrored :
    ¬ ∀ sexpr p, parseProtocol sexpr = .ok p → Mirrored sexpr p := by
  intro h
  obtain ⟨p, hp⟩ := @parseProtocol_choosing 4097 (by decide) (by decide)
  have hcard := (parseProtocol_mirrored_iff hp).1.mp (h _ p hp)
  have hlarge := @card_choosing 4097
  have hcount : repeatCount (.atom (.num 4097)) = 4097 := by decide
  have hceil : REPEAT_EXPANSION_CEILING = 8192 := rfl
  omega

end CbclProtocolMirror
