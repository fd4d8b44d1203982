import Cbcl.ResourceResumeProofs
import Cbcl.SummaryModel

/-!
# What each row keeps

`Holds` says, for every rule, what its row is as a function of the *set* of acts applied so
far: the two least openers, the winner of a clock, the writes nobody has replaced together
with the replacements whose target has not come, totals, and the continuations of positions
and counters.  One act moves a row from one history to the next (`Holds.step`), and a history
has one row (`Holds.unique`): so arrival order leaves no trace.
-/

namespace CbclSummary

open CbclMessage CbclProtocol CbclAct CbclEscrow CbclState CbclStateSelection CbclCanonical
  CbclTypedAddr CbclCodec CbclPositions CbclKeyedSort CbclTreeMap CbclResourceResume

-- ── Openers ────

/-- The writers of a rule, as contributions. -/
def written (r : Rule) (xs : List Act) : List Contribution :=
  (xs.filter (writer r)).map (project r)

theorem project_id (r : Rule) (a : Act) : (project r a).id = a.address := by
  cases r <;> rfl

/-- Sort contributions by identity. -/
def byId (cs : List Contribution) : List Contribution := cs.insertionSort fun a b => a.id ≤ b.id

/-- Only the least members of a sorted list can be among the least after an insertion. -/
theorem take_orderedInsert {α : Type} (le : α → α → Prop) [DecidableRel le] (a : α) :
    ∀ (n : Nat) (l : List α),
      ((l.take n).orderedInsert le a).take n = (l.orderedInsert le a).take n := by
  intro n
  induction n with
  | zero => intro l; simp
  | succ n ih =>
      intro l
      cases l with
      | nil => rfl
      | cons b l =>
          rw [List.take_succ_cons, List.orderedInsert_cons, List.orderedInsert_cons]
          split
          · have hrest : (b :: l.take n).take n = (b :: l).take n := by
              rw [← List.take_succ_cons, List.take_take, Nat.min_eq_left (Nat.le_succ n)]
            rw [List.take_succ_cons, List.take_succ_cons, hrest]
          · rw [List.take_succ_cons, List.take_succ_cons, ih]

theorem nodup_written {r : Rule} {xs : List Act} (h : (xs.map (·.address)).Nodup) :
    ((written r xs).map (·.id)).Nodup := by
  unfold written
  rw [List.map_map]
  have hids : ((fun c : Contribution => c.id) ∘ project r) = fun a : Act => a.address :=
    funext (project_id r)
  rw [hids]
  exact h.sublist (List.filter_sublist.map _)

/-- The sorted contributions of permuted histories are equal. -/
theorem byId_perm {cs ds : List Contribution} (hperm : cs.Perm ds)
    (hnodup : (cs.map (·.id)).Nodup) : byId cs = byId ds := by
  have hnodup' : (ds.map (·.id)).Nodup := (hperm.map _).nodup_iff.mp hnodup
  refine Strict.eq (f := Contribution.id) (strict_insertionSort hnodup)
    (strict_insertionSort hnodup') fun c => ?_
  rw [byId, byId, List.mem_insertionSort, List.mem_insertionSort]
  exact hperm.mem_iff

/-- Sorting one contribution more. -/
theorem byId_append {cs : List Contribution} {c : Contribution}
    (hnodup : ((cs ++ [c]).map (·.id)).Nodup) :
    byId (cs ++ [c]) = (byId cs).orderedInsert (fun a b => a.id ≤ b.id) c := by
  have hperm : (c :: cs).Perm (cs ++ [c]) := (List.perm_append_singleton c cs).symm
  rw [← byId_perm hperm ((hperm.map _).nodup_iff.mpr hnodup)]
  rfl

/-- **Keeping two openers**: the least two of all, whatever was dropped before. -/
theorem addInitial_eq {cs : List Contribution} {c : Contribution}
    (hnodup : ((cs ++ [c]).map (·.id)).Nodup) :
    addInitial ((byId cs).take 2) c = (byId (cs ++ [c])).take 2 := by
  have hcs : (cs.map (·.id)).Nodup := by
    rw [List.map_append] at hnodup
    exact hnodup.of_append_left
  have hkept : (((byId cs).take 2 ++ [c]).map (·.id)).Nodup := by
    have hsub : ((byId cs).take 2 ++ [c]).Sublist (byId cs ++ [c]) :=
      (List.take_sublist 2 _).append_right [c]
    have hperm : (byId cs ++ [c]).Perm (cs ++ [c]) := (List.perm_insertionSort _ cs).append_right [c]
    exact ((hperm.map _).nodup_iff.mpr hnodup).sublist (hsub.map _)
  have hsorted : byId ((byId cs).take 2) = (byId cs).take 2 := by
    have hstrict : Strict (·.id) (byId cs) := strict_insertionSort hcs
    exact List.Pairwise.insertionSort_eq
      ((List.Pairwise.sublist (List.take_sublist 2 _) hstrict).imp fun hlt => le_of_lt hlt)
  have hstrict : Strict (·.id) (byId ((byId cs).take 2 ++ [c])) := strict_insertionSort hkept
  show ((byId ((byId cs).take 2 ++ [c])).destutter fun a b => a.id ≠ b.id).take 2 = _
  rw [List.destutter_of_isChain _ _ (List.Pairwise.isChain (hstrict.imp fun hlt => ne_of_lt hlt)),
    byId_append hkept, hsorted, take_orderedInsert, byId_append hnodup]

-- ── Registers ────

/-- A contribution wins a register: its stamp is the greatest of the writers'. -/
def Wins (r : Rule) (xs : List Act) (c : Contribution) : Prop :=
  c ∈ written r xs ∧ ∃ t, stamp c = some t ∧
    ∀ d ∈ written r xs, ∀ u, stamp d = some u → u ≤ t

theorem stamp_id {c : Contribution} {t : Stamp} (h : stamp c = some t) :
    (ofLex (ofLex t).2).2 = c.id := by
  obtain ⟨_, -, rfl⟩ := Option.map_eq_some_iff.mp h
  rfl

theorem written_append (r : Rule) (xs : List Act) (a : Act) :
    written r (xs ++ [a]) = written r xs ++ if writer r a then [project r a] else [] := by
  unfold written
  rw [List.filter_append, List.map_append]
  congr 1
  by_cases hw : writer r a = true
  · rw [List.filter_singleton, if_pos hw, hw]
    rfl
  · rw [List.filter_singleton, if_neg hw, Bool.not_eq_true] at *
    simp [hw]

/-- A register holds its winner; it is empty while no writer has a clock. -/
def Register (r : Rule) (xs : List Act) : Option Contribution → Prop
  | none => ∀ d ∈ written r xs, stamp d = none
  | some c => Wins r xs c

/-- A later writer takes the register. -/
theorem Register.step {r : Rule} {xs : List Act} {a : Act} {winner : Option Contribution}
    (h : Register r xs winner) (hwriter : writer r a = true) :
    Register r (xs ++ [a]) (later winner (project r a)) := by
  have hwritten : ∀ d, d ∈ written r (xs ++ [a]) ↔ d ∈ written r xs ∨ d = project r a := by
    intro d
    rw [written_append, if_pos hwriter, List.mem_append, List.mem_singleton]
  unfold later
  cases hstamp : stamp (project r a) with
  | none =>
      dsimp only
      cases winner with
      | none =>
          intro d hd
          rcases (hwritten d).mp hd with hd | rfl
          · exact h d hd
          · exact hstamp
      | some c =>
          obtain ⟨hc, t, ht, hmax⟩ := h
          refine ⟨(hwritten c).mpr (Or.inl hc), t, ht, fun d hd u hu => ?_⟩
          rcases (hwritten d).mp hd with hd | rfl
          · exact hmax d hd u hu
          · rw [hstamp] at hu
            exact nomatch hu
  | some t =>
      dsimp only
      cases winner with
      | none =>
          refine ⟨(hwritten _).mpr (Or.inr rfl), t, hstamp, fun d hd u hu => ?_⟩
          rcases (hwritten d).mp hd with hd | rfl
          · rw [h d hd] at hu
            exact nomatch hu
          · rw [hstamp] at hu
            exact le_of_eq (Option.some.inj hu).symm
      | some c =>
          obtain ⟨hc, u, hu, hmax⟩ := h
          rw [Option.all_some, hu, Option.all_some]
          split
          · rename_i hlt
            have hlt : u < t := of_decide_eq_true hlt
            refine ⟨(hwritten _).mpr (Or.inr rfl), t, hstamp, fun d hd v hv => ?_⟩
            rcases (hwritten d).mp hd with hd | rfl
            · exact (hmax d hd v hv).trans (le_of_lt hlt)
            · rw [hstamp] at hv
              exact le_of_eq (Option.some.inj hv).symm
          · rename_i hle
            have hle : t ≤ u := not_lt.mp fun hlt => hle (decide_eq_true hlt)
            refine ⟨(hwritten c).mpr (Or.inl hc), u, hu, fun d hd v hv => ?_⟩
            rcases (hwritten d).mp hd with hd | rfl
            · exact hmax d hd v hv
            · rw [hstamp] at hv
              exact (le_of_eq (Option.some.inj hv).symm).trans hle

theorem written_perm {r : Rule} {xs ys : List Act} (h : xs.Perm ys) :
    (written r xs).Perm (written r ys) := (h.filter _).map _

/-- Contributions of one identity are equal. -/
theorem written_injective {r : Rule} {xs : List Act} (hnodup : (xs.map (·.address)).Nodup)
    {c d : Contribution} (hc : c ∈ written r xs) (hd : d ∈ written r xs) (h : c.id = d.id) :
    c = d :=
  (List.nodup_map_iff_inj_on (nodup_written hnodup).of_map).mp (nodup_written hnodup) c hc d hd h

theorem Register.unique {r : Rule} {xs ys : List Act} (hperm : xs.Perm ys)
    (hnodup : (xs.map (·.address)).Nodup) {v w : Option Contribution} (h : Register r xs v)
    (h' : Register r ys w) : v = w := by
  have hmem : ∀ d, d ∈ written r xs ↔ d ∈ written r ys := fun d => (written_perm hperm).mem_iff
  cases v with
  | none =>
      cases w with
      | none => rfl
      | some d =>
          obtain ⟨hd, u, hu, -⟩ := h'
          rw [h d ((hmem d).mpr hd)] at hu
          exact nomatch hu
  | some c =>
      obtain ⟨hc, t, ht, hmax⟩ := h
      cases w with
      | none =>
          rw [h' c ((hmem c).mp hc)] at ht
          exact nomatch ht
      | some d =>
          obtain ⟨hd, u, hu, hmax'⟩ := h'
          have htu : t = u := le_antisymm (hmax' c ((hmem c).mp hc) t ht)
            (hmax d ((hmem d).mpr hd) u hu)
          refine congrArg some (written_injective hnodup hc ((hmem d).mpr hd) ?_)
          rw [← stamp_id ht, ← stamp_id hu, htu]

-- ── Observed replacement ────

/-- Some act of a history replaces an identity within a scope. -/
def Replaced (r : Rule) (xs : List Act) (k : Octets) (id : String) : Prop :=
  ∃ b ∈ xs, replacing r b = true ∧ scope r (project r b) = k ∧ id ∈ replacedBy b

/-- Some act of a history has an identity. -/
def Arrived (xs : List Act) (id : String) : Prop := ∃ a ∈ xs, a.address = id

/-- A row with observed replacement: the writes nobody has replaced, and the replacements
    whose target has not come. -/
structure Scoped (r : Rule) (xs : List Act) (row : ScopedRow) : Prop where
  live : ∀ (k : String) (c : Contribution), row.live[k]? = some c ↔
    c ∈ written r xs ∧ c.id = k ∧ ¬ Replaced r xs (scope r c) k
  pending : ∀ (k : Octets) (id : String), (k, id) ∈ row.pending ↔
    Replaced r xs k id ∧ ¬ Arrived xs id

theorem foldl_replaceOne_live (r : Rule) (k : Octets) (address : String)
    (covered : String → Bool) (ids : List String) (key : String) (c : Contribution) :
    ∀ row : ScopedRow, (ids.foldl (replaceOne r k address covered) row).live[key]? = some c ↔
      row.live[key]? = some c ∧ ¬ (scope r c = k ∧ c.id ∈ ids) := by
  induction ids with
  | nil => intro row; simp
  | cons id ids ih =>
      intro row
      rw [List.foldl_cons, ih]
      show (row.live.filter fun _ w => w.id ≠ id ∨ scope r w ≠ k)[key]? = some c ∧ _ ↔ _
      rw [Std.ExtTreeMap.getElem?_filter', Option.filter_eq_some_iff, decide_eq_true_eq,
        List.mem_cons]
      constructor
      · rintro ⟨⟨hlive, hkeep⟩, hrest⟩
        refine ⟨hlive, fun ⟨hscope, hid⟩ => ?_⟩
        rcases hid with hid | hid
        · exact hkeep.elim (fun hne => hne hid) (fun hne => hne hscope)
        · exact hrest ⟨hscope, hid⟩
      · rintro ⟨hlive, hrest⟩
        refine ⟨⟨hlive, ?_⟩, fun ⟨hscope, hid⟩ => hrest ⟨hscope, Or.inr hid⟩⟩
        by_cases hscope : scope r c = k
        · exact Or.inl fun hid => hrest ⟨hscope, Or.inl hid⟩
        · exact Or.inr hscope

theorem foldl_replaceOne_pending (r : Rule) (k : Octets) (address : String)
    (covered : String → Bool) (ids : List String) (k' : Octets) (id' : String) :
    ∀ row : ScopedRow, (k', id') ∈ (ids.foldl (replaceOne r k address covered) row).pending ↔
      (k', id') ∈ row.pending ∨ (k = k' ∧ id' ∈ ids ∧ id' ≠ address ∧ covered id' = false) := by
  induction ids with
  | nil => intro row; simp
  | cons id ids ih =>
      intro row
      rw [List.foldl_cons, ih]
      show (k', id') ∈ (if id ≠ address ∧ ¬ covered id then row.pending.insert (k, id)
        else row.pending) ∨ _ ↔ _
      rw [List.mem_cons]
      split
      · rename_i hawaited
        rw [mem_insert_iff, Prod.mk.injEq]
        constructor
        · rintro ((⟨rfl, rfl⟩ | hin) | ⟨hk, hin, hrest⟩)
          · exact Or.inr ⟨rfl, Or.inl rfl, hawaited.1, by simpa using hawaited.2⟩
          · exact Or.inl hin
          · exact Or.inr ⟨hk, Or.inr hin, hrest⟩
        · rintro (hin | ⟨hk, rfl | hin, hrest⟩)
          · exact Or.inl (Or.inr hin)
          · exact Or.inl (Or.inl ⟨hk.symm, rfl⟩)
          · exact Or.inr ⟨hk, hin, hrest⟩
      · rename_i hawaited
        constructor
        · rintro (hin | ⟨hk, hin, hrest⟩)
          · exact Or.inl hin
          · exact Or.inr ⟨hk, Or.inr hin, hrest⟩
        · rintro (hin | ⟨hk, rfl | hin, hrest⟩)
          · exact Or.inl hin
          · exact absurd ⟨hrest.1, by simpa using hrest.2⟩ hawaited
          · exact Or.inr ⟨hk, hin, hrest⟩

/-- The references of an act that replaces. -/
def replaces (r : Rule) (a : Act) : List String := if replacing r a then replacedBy a else []

theorem replaced_append {r : Rule} {xs : List Act} {a : Act} {k : Octets} {id : String} :
    Replaced r (xs ++ [a]) k id ↔
      Replaced r xs k id ∨ (scope r (project r a) = k ∧ id ∈ replaces r a) := by
  unfold Replaced replaces
  constructor
  · rintro ⟨b, hb, hrep, hscope, hid⟩
    rcases List.mem_append.mp hb with hb | hb
    · exact Or.inl ⟨b, hb, hrep, hscope, hid⟩
    · rw [List.mem_singleton.mp hb] at hrep hscope hid
      exact Or.inr ⟨hscope, by rw [if_pos hrep]; exact hid⟩
  · rintro (⟨b, hb, hrest⟩ | ⟨hscope, hid⟩)
    · exact ⟨b, List.mem_append_left _ hb, hrest⟩
    · split at hid
      · rename_i hrep
        exact ⟨a, List.mem_append_right _ (List.mem_singleton.mpr rfl), hrep, hscope, hid⟩
      · exact nomatch hid

theorem arrived_append {xs : List Act} {a : Act} {id : String} :
    Arrived (xs ++ [a]) id ↔ Arrived xs id ∨ a.address = id := by
  unfold Arrived
  simp [or_and_right, exists_or]

theorem applyScoped_eq (r : Rule) (row : ScopedRow) (a : Act) (covered : String → Bool) :
    applyScoped r row a covered
      = (replaces r a).foldl (replaceOne r (scope r (project r a)) a.address covered)
        ⟨if writer r a ∧ ¬ row.pending.contains (scope r (project r a), a.address) then
            row.live.insertIfNew (project r a).id (project r a) else row.live,
          row.pending.filter fun p => p.2 ≠ a.address⟩ := by
  unfold applyScoped replaces
  split
  · rfl
  · rfl

/-- The live writes once an act has been written and before its references are taken. -/
theorem Scoped.written_live {r : Rule} {xs : List Act} {row : ScopedRow} (h : Scoped r xs row)
    {a : Act} (hfresh : ¬ Arrived xs a.address) (key : String) (c : Contribution) :
    (if writer r a ∧ ¬ row.pending.contains (scope r (project r a), a.address) then
        row.live.insertIfNew (project r a).id (project r a) else row.live)[key]? = some c ↔
      (c ∈ written r xs ∨ c ∈ if writer r a then [project r a] else []) ∧ c.id = key ∧
        ¬ Replaced r xs (scope r c) key := by
  have hsuppressed : row.pending.contains (scope r (project r a), a.address) = true ↔
      Replaced r xs (scope r (project r a)) a.address := by
    rw [Std.ExtTreeSet.contains_iff_mem, h.pending]
    exact and_iff_left hfresh
  have hids : ∀ d ∈ written r xs, d.id ≠ (project r a).id := by
    intro d hd hid
    obtain ⟨b, hb, rfl⟩ := List.mem_map.mp hd
    rw [project_id, project_id] at hid
    exact hfresh ⟨b, List.mem_of_mem_filter hb, hid⟩
  have hnot : (project r a).id ∉ row.live := by
    rw [Std.ExtTreeMap.mem_iff_isSome_getElem?, Option.isSome_iff_exists]
    rintro ⟨d, hd⟩
    obtain ⟨hd, hid, -⟩ := (h.live _ d).mp hd
    exact hids d hd hid
  by_cases hwriter : writer r a = true
  · by_cases hrep : Replaced r xs (scope r (project r a)) a.address
    · rw [if_neg (fun hboth => hboth.2 (hsuppressed.mpr hrep)), h.live, if_pos hwriter,
        List.mem_singleton]
      refine ⟨fun ⟨hc, hrest⟩ => ⟨Or.inl hc, hrest⟩, ?_⟩
      rintro ⟨hc | rfl, hid, hno⟩
      · exact ⟨hc, hid, hno⟩
      · rw [← hid, project_id] at hno
        exact absurd hrep hno
    · rw [if_pos ⟨hwriter, fun hs => hrep (hsuppressed.mp hs)⟩,
        Std.ExtTreeMap.getElem?_insertIfNew, if_pos hwriter, List.mem_singleton]
      by_cases hkey : (project r a).id = key
      · subst hkey
        rw [if_pos ⟨Std.ReflCmp.compare_self, hnot⟩]
        constructor
        · intro hc
          injection hc with hc
          subst hc
          refine ⟨Or.inr rfl, rfl, ?_⟩
          rw [project_id]
          exact hrep
        · rintro ⟨hc | rfl, hid, -⟩
          · exact absurd hid (hids c hc)
          · rfl
      · rw [if_neg (fun hboth => hkey (Std.LawfulEqCmp.eq_of_compare hboth.1)), h.live]
        refine ⟨fun ⟨hc, hrest⟩ => ⟨Or.inl hc, hrest⟩, ?_⟩
        rintro ⟨hc | rfl, hid, hno⟩
        · exact ⟨hc, hid, hno⟩
        · exact absurd hid hkey
  · rw [if_neg (fun hboth => hwriter hboth.1), h.live, if_neg hwriter]
    simp

/-- **Replacement commutes with arrival.**  A replacement that comes before its target waits for
    it; one that comes after removes it. -/
theorem Scoped.step {r : Rule} {xs : List Act} {row : ScopedRow} (h : Scoped r xs row) {a : Act}
    (hfresh : ¬ Arrived xs a.address) {covered : String → Bool}
    (hcovered : ∀ id, covered id = true ↔ Arrived xs id) :
    Scoped r (xs ++ [a]) (applyScoped r row a covered) := by
  rw [applyScoped_eq]
  refine ⟨fun key c => ?_, fun k id => ?_⟩
  · rw [foldl_replaceOne_live, replaced_append, written_append, List.mem_append, not_or,
      @eq_comm _ (scope r (project r a)), h.written_live hfresh]
    constructor
    · rintro ⟨⟨hc, hid, hno⟩, hnew⟩
      refine ⟨hc, hid, hno, ?_⟩
      rw [← hid]
      exact hnew
    · rintro ⟨hc, hid, hno, hnew⟩
      refine ⟨⟨hc, hid, hno⟩, ?_⟩
      rw [hid]
      exact hnew
  · rw [foldl_replaceOne_pending, replaced_append, arrived_append,
      Std.ExtTreeSet.mem_filter]
    simp only [Std.ExtTreeSet.get_eq, decide_eq_true_eq, exists_prop, h.pending]
    rw [← Bool.not_eq_true, hcovered, not_or, @ne_comm _ id]
    constructor
    · rintro (⟨⟨hrep, hno⟩, hne⟩ | ⟨hk, hid, hne, hno⟩)
      · exact ⟨Or.inl hrep, hno, hne⟩
      · exact ⟨Or.inr ⟨hk, hid⟩, hno, hne⟩
    · rintro ⟨hrep | ⟨hk, hid⟩, hno, hne⟩
      · exact Or.inl ⟨⟨hrep, hno⟩, hne⟩
      · exact Or.inr ⟨hk, hid, hne, hno⟩

theorem Scoped.unique {r : Rule} {xs ys : List Act} (hperm : xs.Perm ys) {row row' : ScopedRow}
    (h : Scoped r xs row) (h' : Scoped r ys row') : row = row' := by
  have hreplaced : ∀ k id, Replaced r xs k id ↔ Replaced r ys k id := by
    intro k id
    unfold Replaced
    simp only [hperm.mem_iff]
  have hlive : row.live = row'.live := by
    refine Std.ExtTreeMap.ext_getElem? fun k => Option.ext fun c => ?_
    rw [h.live, h'.live, (written_perm hperm).mem_iff, hreplaced]
  have hpending : row.pending = row'.pending := by
    refine Std.ExtTreeSet.ext_mem fun ⟨k, id⟩ => ?_
    rw [h.pending, h'.pending, hreplaced]
    unfold Arrived
    simp only [hperm.mem_iff]
  cases row
  cases row'
  dsimp only at hlive hpending
  rw [hlive, hpending]

-- ── Rows ────

/-- The octets a union holds. -/
def United (verb key : String) (xs : List Act) (os : Octets) : Prop :=
  ∃ a ∈ xs, a.verb = verb ∧ ∃ v, field a key = some v ∧ encode v = os

/-- The entries of an event field. -/
def Happened (verb key : String) (xs : List Act) (k : String) (e : Event) : Prop :=
  ∃ a ∈ xs, a.verb = verb ∧ a.address = k ∧ ∃ v, field a key = some v ∧
    e = ⟨a.address, a.signer, v⟩

section Rows

variable (sha256 : Octets → Digest) (protocolCode : Option CausalProtocol → List UInt8)
  (protocol : Option CausalProtocol)

/-- The row of a rule after a history. -/
inductive Holds (xs : List Act) : Rule → RowData → Prop where
  | initial {verb key : String} :
      Holds xs (.initial verb key) (.initial ((byId (written (.initial verb key) xs)).take 2))
  | lwwRegister {verb key clock : String} {winner : Option Contribution}
      (h : Register (.lwwRegister verb key clock) xs winner) :
      Holds xs (.lwwRegister verb key clock) (.lwwRegister winner)
  | replaceable {r : Rule} {row : ScopedRow} (hscopes : scopes r = true) (h : Scoped r xs row) :
      Holds xs r (.scoped row)
  | «exists» {verb : String} :
      Holds xs (.exists verb) (.exists (xs.any fun a => a.verb = verb))
  | count {verb : String} :
      Holds xs (.count verb) (.count (xs.countP fun a => a.verb = verb))
  | counter {inc dec key : String} :
      Holds xs (.counter inc dec key)
        (.counter (xs.map (integerDelta (.counter inc dec key))).sum)
  | setUnion {verb key : String} {s : BTreeSet Octets} (h : ∀ os, os ∈ s ↔ United verb key xs os) :
      Holds xs (.setUnion verb key) (.setUnion s)
  | events {verb key : String} {m : BTreeMap String Event}
      (h : ∀ (k : String) (e : Event), m[k]? = some e ↔ Happened verb key xs k e) :
      Holds xs (.events verb key) (.events m)
  | histogram {source : String} : Holds xs (.histogram source) .derived
  | sum {source : String} : Holds xs (.sum source) .derived
  | progress {verb : String} {s : ProgressResume}
      (h : Resumes sha256 protocolCode protocol verb s xs) :
      Holds xs (.progress verb) (.progress s)
  | resource {c : CounterRule} {s : CbclResourceResume.Summary}
      (h : Continues sha256 c s xs) : Holds xs (.boundedCounter c) (.resource s)

variable {sha256 protocolCode protocol}

theorem scoped_empty (r : Rule) : Scoped r [] ⟨∅, ∅⟩ := by
  refine ⟨fun k c => ?_, fun k id => ?_⟩
  · simp [written]
  · simp [Replaced]

/-- An empty row holds the empty history. -/
theorem holds_empty {r : Rule} {data : RowData}
    (h : emptyRow protocolCode protocol r = .ok data) :
    Holds sha256 protocolCode protocol [] r data := by
  cases r with
  | progress verb =>
      obtain ⟨s, hs, rfl⟩ := CbclExcept.map_ok_iff.mp h
      exact .progress (resumes_new hs)
  | boundedCounter c =>
      injection h with h
      subst h
      exact .resource continues_default
  | lwwRegister verb key clock =>
      injection h with h
      subst h
      exact .lwwRegister fun d hd => nomatch hd
  | setUnion verb key =>
      injection h with h
      subst h
      exact .setUnion fun os => by simp [United]
  | events verb key =>
      injection h with h
      subst h
      exact .events fun k e => by simp [Happened]
  | initial verb key => injection h with h; subst h; exact .initial
  | «exists» verb => injection h with h; subst h; exact .exists
  | count verb => injection h with h; subst h; exact .count
  | counter inc dec key => injection h with h; subst h; exact .counter
  | histogram source => injection h with h; subst h; exact .histogram
  | sum source => injection h with h; subst h; exact .sum
  | values verb key => injection h with h; subst h; exact .replaceable rfl (scoped_empty _)
  | valuesPerKey verb key value delete =>
      injection h with h; subst h; exact .replaceable rfl (scoped_empty _)
  | observedSet add remove key => injection h with h; subst h; exact .replaceable rfl (scoped_empty _)
  | lwwMap verb key value clock delete =>
      injection h with h; subst h; exact .replaceable rfl (scoped_empty _)
  | lwwPerSigner verb key clock => injection h with h; subst h; exact .replaceable rfl (scoped_empty _)

variable (sha256) in
/-- A history that one act is about to extend. -/
structure Extends (xs : List Act) (a : Act) (covered : String → Bool) : Prop where
  nodup : ((xs ++ [a]).map (·.address)).Nodup
  covered : ∀ id, covered id = true ↔ Arrived xs id
  derived : ∀ b ∈ xs, Derived sha256 b
  latest : Derived sha256 a

theorem Extends.fresh {xs : List Act} {a : Act} {covered : String → Bool}
    (h : Extends sha256 xs a covered) : ¬ Arrived xs a.address := by
  rintro ⟨b, hb, hba⟩
  have hnodup := h.nodup
  rw [List.map_append] at hnodup
  exact List.disjoint_left.mp (List.disjoint_of_nodup_append hnodup) (List.mem_map_of_mem hb)
    (by rw [hba]; exact List.mem_singleton.mpr rfl)

theorem written_of_not_writer {r : Rule} {xs : List Act} {a : Act} (h : ¬ writer r a = true) :
    written r (xs ++ [a]) = written r xs := by
  rw [written_append, if_neg h, List.append_nil]

theorem united_append {verb key : String} {xs : List Act} {a : Act} {os : Octets} :
    United verb key (xs ++ [a]) os ↔ United verb key xs os ∨
      (a.verb = verb ∧ ∃ v, field a key = some v ∧ encode v = os) := by
  unfold United
  simp [or_and_right, exists_or]

theorem happened_append {verb key : String} {xs : List Act} {a : Act} {k : String} {e : Event} :
    Happened verb key (xs ++ [a]) k e ↔ Happened verb key xs k e ∨
      (a.verb = verb ∧ a.address = k ∧ ∃ v, field a key = some v ∧
        e = ⟨a.address, a.signer, v⟩) := by
  unfold Happened
  simp [or_and_right, exists_or]

/-- A writer joins the first two; another act leaves them. -/
theorem first_step {r : Rule} {xs : List Act} {a : Act}
    (hnodup : ((xs ++ [a]).map (·.address)).Nodup) :
    (if writer r a = true then addInitial ((byId (written r xs)).take 2) (project r a)
      else (byId (written r xs)).take 2) = (byId (written r (xs ++ [a]))).take 2 := by
  have hids := @nodup_written r _ hnodup
  by_cases hwriter : writer r a = true
  · rw [written_append, if_pos hwriter] at hids
    rw [if_pos hwriter, written_append, if_pos hwriter, addInitial_eq hids]
  · rw [if_neg hwriter, written_of_not_writer hwriter]

/-- A writer contends for a register; another act leaves it. -/
theorem Register.next {r : Rule} {xs : List Act} {winner : Option Contribution}
    (h : Register r xs winner) (a : Act) :
    Register r (xs ++ [a]) (if writer r a = true then later winner (project r a) else winner) := by
  by_cases hwriter : writer r a = true
  · rw [if_pos hwriter]
    exact h.step hwriter
  · rw [if_neg hwriter]
    unfold Register Wins at h ⊢
    rw [written_of_not_writer hwriter]
    exact h

theorem exists_step {verb : String} {xs : List Act} {a : Act} :
    (writer (.exists verb) a || xs.any fun b => b.verb = verb)
      = (xs ++ [a]).any fun b => b.verb = verb := by
  rw [List.any_append, Bool.or_comm, List.any_cons, List.any_nil, Bool.or_false]
  congr 1
  unfold writer verbs
  simp [eq_comm]

theorem count_step {verb : String} {xs : List Act} {a : Act} :
    (xs.countP fun b => b.verb = verb) + (integerDelta (.count verb) a).toNat
      = (xs ++ [a]).countP fun b => b.verb = verb := by
  rw [List.countP_append, List.countP_singleton]
  congr 1
  unfold integerDelta
  by_cases hv : a.verb = verb <;> simp [hv]

/-- A sum that fits is the sum with the new term. -/
theorem sum_step {r : Rule} {xs : List Act} {a : Act} {n : Int}
    (h : checkedAdd (xs.map (integerDelta r)).sum (integerDelta r a) = some n) :
    n = ((xs ++ [a]).map (integerDelta r)).sum := by
  rw [List.map_append, List.sum_append, List.map_singleton, List.sum_singleton]
  unfold checkedAdd checked at h
  split at h
  · exact (Option.some.inj h).symm
  · exact nomatch h

/-- An act of the verb puts the octets of its value into the union. -/
theorem united_step {verb key : String} {xs : List Act} {s : BTreeSet Octets}
    (h : ∀ os, os ∈ s ↔ United verb key xs os) (a : Act) (os : Octets) :
    os ∈ (if a.verb = verb then ((field a key).map fun v => s.insert (encode v)).getD s else s) ↔
      United verb key (xs ++ [a]) os := by
  rw [united_append, ← h]
  by_cases hv : a.verb = verb
  · rw [if_pos hv]
    cases hf : field a key with
    | none => simp
    | some v =>
        rw [Option.map_some, Option.getD_some, mem_insert_iff]
        simp [hv, or_comm, eq_comm]
  · simp [hv]

/-- An act of the verb is an event of its own, for its address is new. -/
theorem happened_step {verb key : String} {xs : List Act} {m : BTreeMap String Event}
    (h : ∀ (k : String) (e : Event), m[k]? = some e ↔ Happened verb key xs k e) {a : Act}
    (hfresh : ¬ Arrived xs a.address) (k : String) (e : Event) :
    (if a.verb = verb then
        ((field a key).map fun v => m.insertIfNew a.address ⟨a.address, a.signer, v⟩).getD m
      else m)[k]? = some e ↔ Happened verb key (xs ++ [a]) k e := by
  rw [happened_append, ← h]
  by_cases hv : a.verb = verb
  · rw [if_pos hv]
    cases hf : field a key with
    | none => simp
    | some v =>
        have hnot : a.address ∉ m := by
          rw [Std.ExtTreeMap.mem_iff_isSome_getElem?, Option.isSome_iff_exists]
          rintro ⟨e', he'⟩
          obtain ⟨b, hb, -, hba, -⟩ := (h _ e').mp he'
          exact hfresh ⟨b, hb, hba⟩
        rw [Option.map_some, Option.getD_some, Std.ExtTreeMap.getElem?_insertIfNew]
        by_cases hk : a.address = k
        · subst hk
          have hnone : m[a.address]? = none := Std.ExtTreeMap.getElem?_eq_none hnot
          rw [if_pos ⟨Std.ReflCmp.compare_self, hnot⟩, hnone]
          simp [hv, eq_comm]
        · rw [if_neg (fun hboth => hk (Std.LawfulEqCmp.eq_of_compare hboth.1))]
          simp [hk]
  · simp [hv]

/-- **One act moves a row from one history to the next.** -/
theorem Holds.step {xs : List Act} {r : Rule} {data data' : RowData} {a : Act}
    {covered : String → Bool} (h : Holds sha256 protocolCode protocol xs r data)
    (hext : Extends sha256 xs a covered)
    (happly : applyRow sha256 protocolCode r data a covered = .ok data') :
    Holds sha256 protocolCode protocol (xs ++ [a]) r data' := by
  cases h with
  | @initial verb key =>
      injection happly with happly
      rw [← happly, first_step hext.nodup]
      exact .initial
  | lwwRegister h =>
      injection happly with happly
      subst happly
      exact .lwwRegister (h.next a)
  | replaceable hscopes h =>
      injection happly with happly
      subst happly
      exact .replaceable hscopes (h.step hext.fresh hext.covered)
  | @«exists» verb =>
      injection happly with happly
      rw [← happly, exists_step]
      exact .exists
  | @count verb =>
      -- a count that does not fit stops the summary
      simp only [applyRow] at happly
      split at happly
      · injection happly with happly
        rw [← happly, count_step]
        exact .count
      · exact nomatch happly
  | @counter inc dec key =>
      simp only [applyRow] at happly
      split at happly
      · rename_i n hn
        injection happly with happly
        rw [← happly, sum_step hn]
        exact .counter
      · exact nomatch happly
  | setUnion h =>
      injection happly with happly
      subst happly
      exact .setUnion (united_step h a)
  | events h =>
      injection happly with happly
      subst happly
      exact .events (happened_step h hext.fresh)
  | histogram => injection happly with happly; subst happly; exact .histogram
  | sum => injection happly with happly; subst happly; exact .sum
  | progress h =>
      obtain ⟨s, hs, rfl⟩ := CbclExcept.map_ok_iff.mp happly
      exact .progress (h.step hext.derived hext.latest
        (fun b hb hba => hext.fresh ⟨b, hb, hba⟩) hs)
  | resource h =>
      obtain ⟨s, hs, rfl⟩ := CbclExcept.map_ok_iff.mp happly
      exact .resource (h.step hext.latest (fun b hb hba => hext.fresh ⟨b, hb, hba⟩)
        hext.covered hs)

/-- **A history has one row.** -/
theorem Holds.unique {xs ys : List Act} (hperm : xs.Perm ys)
    (hnodup : (xs.map (·.address)).Nodup) (hder : ∀ a ∈ xs, Derived sha256 a) {r : Rule}
    {data data' : RowData} (h : Holds sha256 protocolCode protocol xs r data)
    (h' : Holds sha256 protocolCode protocol ys r data') : data = data' := by
  cases h with
  | initial =>
      cases h' with
      | initial => rw [byId_perm (written_perm hperm) (nodup_written hnodup)]
      | replaceable hscopes => exact nomatch hscopes
  | lwwRegister h =>
      cases h' with
      | lwwRegister h' => rw [h.unique hperm hnodup h']
      | replaceable hscopes => exact nomatch hscopes
  | replaceable hscopes h =>
      cases h' with
      | replaceable _ h' => rw [h.unique hperm h']
      | _ => exact nomatch hscopes
  | «exists» =>
      cases h' with
      | «exists» =>
          congr 1
          rw [Bool.eq_iff_iff, List.any_eq_true, List.any_eq_true]
          simp only [hperm.mem_iff]
      | replaceable hscopes => exact nomatch hscopes
  | count =>
      cases h' with
      | count => rw [hperm.countP_eq]
      | replaceable hscopes => exact nomatch hscopes
  | counter =>
      cases h' with
      | counter => rw [(hperm.map _).sum_eq]
      | replaceable hscopes => exact nomatch hscopes
  | setUnion h =>
      cases h' with
      | setUnion h' =>
          congr 1
          refine Std.ExtTreeSet.ext_mem fun os => ?_
          rw [h, h']
          unfold United
          simp only [hperm.mem_iff]
      | replaceable hscopes => exact nomatch hscopes
  | events h =>
      cases h' with
      | events h' =>
          congr 1
          refine Std.ExtTreeMap.ext_getElem? fun k => Option.ext fun e => ?_
          rw [h, h']
          unfold Happened
          simp only [hperm.mem_iff]
      | replaceable hscopes => exact nomatch hscopes
  | histogram =>
      cases h' with
      | histogram => rfl
      | replaceable hscopes => exact nomatch hscopes
  | sum =>
      cases h' with
      | sum => rfl
      | replaceable hscopes => exact nomatch hscopes
  | progress h =>
      cases h' with
      | progress h' => rw [h.unique h' (fun a => hperm.mem_iff) hder]
      | replaceable hscopes => exact nomatch hscopes
  | resource h =>
      cases h' with
      | resource h' => rw [h.unique h' fun a => hperm.mem_iff]
      | replaceable hscopes => exact nomatch hscopes

end Rows

end CbclSummary
