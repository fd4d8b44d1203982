import Cbcl.RepeatTableProofs
import Cbcl.VerifierModel

/-!
# When a verdict is Valid and when it is a Violation

Each verifier is characterised twice: by the evidence that makes it `Valid` and by the
evidence that makes it a `Violation`.  Both readings only mention types that are *known*
and placements that are *decided*, which is why more evidence cannot undo them.
-/

namespace CbclVerdictShape

open CbclMessage CbclProtocol CbclStore CbclRepeat CbclRepeatTable CbclVerifier
open VerificationResult

/-- A verdict that is a violation, whatever its details. -/
def IsViolation (v : VerificationResult) : Prop := ∃ w, v = .violation w

-- ── The knowledge order ────

/-- The knowledge order in terms of the two decided classes. -/
theorem le_iff {v v' : VerificationResult} :
    Le v v' ↔ (v = .valid → v' = .valid) ∧ (IsViolation v → IsViolation v') := by
  constructor
  · intro h
    cases h with
    | unknown r => exact ⟨(fun h => nomatch h), fun ⟨_, h⟩ => nomatch h⟩
    | valid => exact ⟨fun _ => rfl, fun ⟨_, h⟩ => nomatch h⟩
    | violation v w => exact ⟨(fun h => nomatch h), fun _ => ⟨w, rfl⟩⟩
  · rintro ⟨hvalid, hviol⟩
    cases v with
    | unknown => exact Le.unknown v'
    | valid => rw [hvalid rfl]; exact Le.valid
    | violation v =>
        obtain ⟨w, rfl⟩ := hviol ⟨v, rfl⟩
        exact Le.violation v w

theorem le_valid {v v' : VerificationResult} (h : Le v v') (hv : v = .valid) : v' = .valid :=
  (le_iff.mp h).1 hv

theorem le_violation {v v' : VerificationResult} (h : Le v v') (hv : IsViolation v) :
    IsViolation v' :=
  (le_iff.mp h).2 hv

theorem le_refl (v : VerificationResult) : Le v v := le_iff.mpr ⟨id, id⟩

theorem not_violation_valid : ¬ IsViolation .valid := fun ⟨_, h⟩ => nomatch h

theorem not_violation_unknown : ¬ IsViolation .unknown := fun ⟨_, h⟩ => nomatch h

/-- A verdict that is neither `Valid` nor `Unknown` is a violation. -/
theorem isViolation_of_ne {v : VerificationResult} (h1 : v ≠ .valid) (h2 : v ≠ .unknown) :
    IsViolation v := by
  cases v with
  | unknown => exact absurd rfl h2
  | valid => exact absurd rfl h1
  | violation w => exact ⟨w, rfl⟩

theorem meet_eq_valid_iff {a b : VerificationResult} :
    a.meet b = .valid ↔ a = .valid ∧ b = .valid := by
  cases a <;> cases b <;> simp [VerificationResult.meet]

theorem isViolation_meet_iff {a b : VerificationResult} :
    IsViolation (a.meet b) ↔ IsViolation a ∨ IsViolation b := by
  cases a <;> cases b <;> simp [VerificationResult.meet, IsViolation]

/-- The meet is monotone in knowledge. -/
theorem meet_mono {a a' b b' : VerificationResult} (ha : Le a a') (hb : Le b b') :
    Le (a.meet b) (a'.meet b') := by
  rw [le_iff]
  constructor
  · intro h
    obtain ⟨h1, h2⟩ := meet_eq_valid_iff.mp h
    exact meet_eq_valid_iff.mpr ⟨le_valid ha h1, le_valid hb h2⟩
  · intro h
    rw [isViolation_meet_iff] at h ⊢
    exact h.imp (le_violation ha) (le_violation hb)

-- ── Copy resolution ────

section Resolution

variable {r : Resolution}

theorem isViolation_wrong (h : String) (expected : List String) :
    IsViolation (r.wrong h expected) := ⟨_, rfl⟩

/-- A single reference is valid when it inhabits some alternative. -/
theorem alternatives_valid_iff {h : String} {allowed : List String} :
    r.alternatives h allowed = .valid ↔ ∃ p ∈ allowed, r.at h p = .valid := by
  unfold Resolution.alternatives
  by_cases hv : allowed.any (fun name => r.at h name = .valid)
  · rw [if_pos hv]
    simpa using hv
  · rw [if_neg hv]
    have hnone : ¬ ∃ p ∈ allowed, r.at h p = .valid := by simpa using hv
    refine iff_of_false ?_ hnone
    split
    · exact fun h => nomatch h
    · exact fun h => nomatch h

/-- A single reference is a violation when its type is known and every alternative refuses. -/
theorem alternatives_violation_iff {h : String} {allowed : List String} :
    IsViolation (r.alternatives h allowed) ↔
      r.kind h ≠ none ∧ ∀ p ∈ allowed, IsViolation (r.at h p) := by
  unfold Resolution.alternatives
  by_cases hv : allowed.any (fun name => r.at h name = .valid)
  · rw [if_pos hv]
    refine iff_of_false not_violation_valid ?_
    rintro ⟨-, hall⟩
    obtain ⟨p, hp, hvalid⟩ : ∃ p ∈ allowed, r.at h p = .valid := by simpa using hv
    exact not_violation_valid (hvalid ▸ hall p hp)
  · rw [if_neg hv]
    have hnone : ∀ p ∈ allowed, r.at h p ≠ .valid := by simpa using hv
    by_cases hu : (r.kind h).isNone || allowed.any (fun name => r.at h name = .unknown)
    · rw [if_pos hu]
      refine iff_of_false not_violation_unknown ?_
      rintro ⟨hkind, hall⟩
      rcases Bool.or_eq_true_iff.mp hu with hu | hu
      · exact hkind (Option.isNone_iff_eq_none.mp hu)
      · obtain ⟨p, hp, hun⟩ : ∃ p ∈ allowed, r.at h p = .unknown := by simpa using hu
        exact not_violation_unknown (hun ▸ hall p hp)
    · rw [if_neg hu]
      refine iff_of_true (isViolation_wrong h allowed) ?_
      rw [Bool.or_eq_true_iff, not_or] at hu
      refine ⟨fun hk => hu.1 (Option.isNone_iff_eq_none.mpr hk), fun p hp => ?_⟩
      refine isViolation_of_ne (hnone p hp) fun hun => hu.2 ?_
      rw [List.any_eq_true]
      exact ⟨p, hp, decide_eq_true hun⟩

theorem matched_iff {all : List String} {h : String} :
    r.matched all h = true ↔ ∃ p ∈ all, r.at h p = .valid := by
  simp [Resolution.matched]

theorem undecided_iff {all : List String} {h : String} :
    r.undecided all h = true ↔ r.kind h = none ∨ ∃ p ∈ all, r.at h p = .unknown := by
  simp [Resolution.undecided]

/-- A hash a fan-in refuses: its type is known and every declared name refuses it. -/
theorem refused_iff {all : List String} {h : String} :
    (!r.matched all h && !r.undecided all h) = true ↔
      r.kind h ≠ none ∧ ∀ p ∈ all, IsViolation (r.at h p) := by
  rw [Bool.and_eq_true, Bool.not_eq_true', Bool.not_eq_true', ← Bool.not_eq_true,
    ← Bool.not_eq_true, matched_iff, undecided_iff]
  constructor
  · rintro ⟨hm, hu⟩
    refine ⟨fun hk => hu (Or.inl hk), fun p hp => ?_⟩
    exact isViolation_of_ne (fun hv => hm ⟨p, hp, hv⟩) fun hun => hu (Or.inr ⟨p, hp, hun⟩)
  · rintro ⟨hk, hall⟩
    constructor
    · rintro ⟨p, hp, hv⟩
      exact not_violation_valid (hv ▸ hall p hp)
    · rintro (hnone | ⟨p, hp, hun⟩)
      · exact hk hnone
      · exact not_violation_unknown (hun ▸ hall p hp)

/-- A name no cited hash inhabits. -/
def Absent (r : Resolution) (hashes : List String) (p : String) : Prop :=
  ∀ h ∈ hashes, r.at h p ≠ .valid

theorem mem_absent_iff {all hashes : List String} {p : String} :
    p ∈ all.filter (· ∉ all.filter fun name => hashes.any fun h => r.at h name = .valid) ↔
      p ∈ all ∧ Absent r hashes p := by
  rw [List.mem_filter]
  refine and_congr_right fun hp => ?_
  simp [Absent, hp]

/-- **A fan-in, case by case.**  `refused`: some hash is refused.  `opened`: a hash is not
    matched yet, or an absent name may still be inhabited.  Otherwise coverage decides. -/
theorem fanIn_cases (all hashes : List String) :
    ((∃ h ∈ hashes, r.kind h ≠ none ∧ ∀ p ∈ all, IsViolation (r.at h p)) ∧
        IsViolation (r.fanIn all hashes)) ∨
    (((∃ h ∈ hashes, ∀ p ∈ all, r.at h p ≠ .valid) ∨
        ∃ p ∈ all, Absent r hashes p ∧ ∃ h ∈ hashes, r.at h p = .unknown) ∧
      (¬ ∃ h ∈ hashes, r.kind h ≠ none ∧ ∀ p ∈ all, IsViolation (r.at h p)) ∧
        r.fanIn all hashes = .unknown) ∨
    ((∀ h ∈ hashes, ∃ p ∈ all, r.at h p = .valid) ∧
      (∀ p ∈ all, ∃ h ∈ hashes, r.at h p = .valid) ∧ r.fanIn all hashes = .valid) ∨
    ((∀ h ∈ hashes, ∃ p ∈ all, r.at h p = .valid) ∧
      (∀ p ∈ all, Absent r hashes p → ∀ h ∈ hashes, IsViolation (r.at h p)) ∧
      (∃ p ∈ all, Absent r hashes p) ∧ IsViolation (r.fanIn all hashes)) := by
  unfold Resolution.fanIn
  cases hfind : hashes.find? (fun h => !r.matched all h && !r.undecided all h) with
  | some h =>
      left
      have href := List.find?_some hfind
      exact ⟨⟨h, List.mem_of_find?_eq_some hfind, refused_iff.mp href⟩, isViolation_wrong h all⟩
  | none =>
      right
      have hrefuse : ¬ ∃ h ∈ hashes, r.kind h ≠ none ∧ ∀ p ∈ all, IsViolation (r.at h p) := by
        rintro ⟨h, hh, hr⟩
        exact List.find?_eq_none.mp hfind h hh (refused_iff.mpr hr)
      by_cases hopen : ((hashes.any fun h => !r.matched all h && r.undecided all h)
          || ((all.filter
              (· ∉ all.filter fun name => hashes.any fun h => r.at h name = .valid)).any
            (· ∈ all.filter fun name => hashes.any fun h => r.at h name = .unknown))) = true
      · left
        refine ⟨?_, hrefuse, if_pos hopen⟩
        rcases Bool.or_eq_true_iff.mp hopen with hopen | hopen
        · obtain ⟨h, hh, ht⟩ := List.any_eq_true.mp hopen
          rw [Bool.and_eq_true, Bool.not_eq_true', ← Bool.not_eq_true, matched_iff] at ht
          exact Or.inl ⟨h, hh, fun p hp hv => ht.1 ⟨p, hp, hv⟩⟩
        · obtain ⟨p, hp, ht⟩ := List.any_eq_true.mp hopen
          obtain ⟨hpall, habs⟩ := mem_absent_iff.mp hp
          have hposs : ∃ h ∈ hashes, r.at h p = .unknown := by
            simpa using (List.mem_filter.mp (of_decide_eq_true ht)).2
          exact Or.inr ⟨p, hpall, habs, hposs⟩
      · right
        have hclosed := hopen
        rw [Bool.or_eq_true_iff, not_or] at hclosed
        have hmatched : ∀ h ∈ hashes, ∃ p ∈ all, r.at h p = .valid := by
          intro h hh
          by_contra hno
          have hm : ¬ r.matched all h = true := fun hm => hno (matched_iff.mp hm)
          by_cases hu : r.undecided all h = true
          · exact hclosed.1 (List.any_eq_true.mpr ⟨h, hh, by simp [hm, hu]⟩)
          · exact hrefuse ⟨h, hh, refused_iff.mp (by simp [hm, hu])⟩
        have hdecided : ∀ p ∈ all, Absent r hashes p → ∀ h ∈ hashes, IsViolation (r.at h p) := by
          intro p hp habs h hh
          refine isViolation_of_ne (habs h hh) fun hun => hclosed.2 (List.any_eq_true.mpr ?_)
          refine ⟨p, mem_absent_iff.mpr ⟨hp, habs⟩, decide_eq_true ?_⟩
          rw [List.mem_filter]
          exact ⟨hp, List.any_eq_true.mpr ⟨h, hh, decide_eq_true hun⟩⟩
        by_cases hcov : ∀ p ∈ all, ∃ h ∈ hashes, r.at h p = .valid
        · left
          refine ⟨hmatched, hcov, ?_⟩
          rw [if_neg hopen, if_pos]
          rw [List.eq_nil_iff_forall_not_mem]
          intro p hp
          obtain ⟨hpall, habs⟩ := mem_absent_iff.mp hp
          obtain ⟨h, hh, hv⟩ := hcov p hpall
          exact habs h hh hv
        · right
          push Not at hcov
          obtain ⟨p, hp, habs⟩ := hcov
          refine ⟨hmatched, hdecided, ⟨p, hp, habs⟩, ?_⟩
          rw [if_neg hopen, if_neg]
          · exact ⟨_, rfl⟩
          · intro hnil
            have hmem := mem_absent_iff.mpr (⟨hp, habs⟩ : p ∈ all ∧ Absent r hashes p)
            rw [hnil] at hmem
            exact nomatch hmem

/-- A fan-in is valid when every hash inhabits a name and every name is inhabited. -/
theorem fanIn_valid_iff {all hashes : List String} :
    r.fanIn all hashes = .valid ↔
      (∀ h ∈ hashes, ∃ p ∈ all, r.at h p = .valid) ∧
        ∀ p ∈ all, ∃ h ∈ hashes, r.at h p = .valid := by
  rcases fanIn_cases (r := r) all hashes with
    ⟨⟨h, hh, -, hall⟩, hviol⟩ | ⟨hopen, -, hunk⟩ | ⟨hm, hc, hv⟩ | ⟨-, -, ⟨p, hp, habs⟩, hviol⟩
  · refine iff_of_false (fun hv => not_violation_valid (hv ▸ hviol)) ?_
    rintro ⟨hm, -⟩
    obtain ⟨p, hp, hv⟩ := hm h hh
    exact not_violation_valid (hv ▸ hall p hp)
  · refine iff_of_false (fun hv => by rw [hunk] at hv; exact nomatch hv) ?_
    rintro ⟨hm, hc⟩
    rcases hopen with ⟨h, hh, hno⟩ | ⟨p, hp, habs, -⟩
    · obtain ⟨p, hp, hv⟩ := hm h hh
      exact hno p hp hv
    · obtain ⟨h, hh, hv⟩ := hc p hp
      exact habs h hh hv
  · exact iff_of_true hv ⟨hm, hc⟩
  · refine iff_of_false (fun hv => not_violation_valid (hv ▸ hviol)) ?_
    rintro ⟨-, hc⟩
    obtain ⟨h, hh, hv⟩ := hc p hp
    exact habs h hh hv

/-- A fan-in is a violation when a hash is refused, or when every hash is placed and an absent
    name is beyond reach of all of them. -/
theorem fanIn_violation_iff {all hashes : List String} :
    IsViolation (r.fanIn all hashes) ↔
      (∃ h ∈ hashes, r.kind h ≠ none ∧ ∀ p ∈ all, IsViolation (r.at h p)) ∨
      ((∀ h ∈ hashes, ∃ p ∈ all, r.at h p = .valid) ∧
        (∀ p ∈ all, Absent r hashes p → ∀ h ∈ hashes, IsViolation (r.at h p)) ∧
        ∃ p ∈ all, Absent r hashes p) := by
  rcases fanIn_cases (r := r) all hashes with
    ⟨href, hviol⟩ | ⟨hopen, hnref, hunk⟩ | ⟨hm, hc, hv⟩ | ⟨hm, hd, habs, hviol⟩
  · exact iff_of_true hviol (Or.inl href)
  · refine iff_of_false (hunk ▸ not_violation_unknown) ?_
    rintro (href | ⟨hm, hd, -⟩)
    · exact hnref href
    · rcases hopen with ⟨h, hh, hno⟩ | ⟨p, hp, habs, h, hh, hun⟩
      · obtain ⟨p, hp, hv⟩ := hm h hh
        exact hno p hp hv
      · exact not_violation_unknown (hun ▸ hd p hp habs h hh)
  · refine iff_of_false (hv ▸ not_violation_valid) ?_
    rintro (⟨h, hh, -, hall⟩ | ⟨-, -, p, hp, habs⟩)
    · obtain ⟨p, hp, hvalid⟩ := hm h hh
      exact not_violation_valid (hvalid ▸ hall p hp)
    · obtain ⟨h, hh, hvalid⟩ := hc p hp
      exact habs h hh hvalid
  · exact iff_of_true hviol (Or.inr ⟨hm, hd, habs⟩)

/-- The steps a verb is judged against. -/
def IsCopyOf (protocol : CausalProtocol) (verb : String) (decl : StepDecl) : Prop :=
  ∃ name, protocol.steps[name]? = some decl ∧ name ≠ BEGIN_KEYWORD ∧ repeatBaseName name = verb

theorem mem_copies_iff (protocol : CausalProtocol) (verb : String)
    (f : StepDecl → VerificationResult) (v : VerificationResult) :
    v ∈ (protocol.steps.toList.filter fun (name, _) =>
        name ≠ BEGIN_KEYWORD ∧ repeatBaseName name = verb).map (fun (_, decl) => f decl) ↔
      ∃ decl, IsCopyOf protocol verb decl ∧ f decl = v := by
  rw [List.mem_map]
  constructor
  · rintro ⟨⟨name, decl⟩, hmem, rfl⟩
    rw [List.mem_filter, Std.ExtTreeMap.mem_toList_iff_getElem?_eq_some] at hmem
    have hcond := of_decide_eq_true hmem.2
    exact ⟨decl, ⟨name, hmem.1, hcond.1, hcond.2⟩, rfl⟩
  · rintro ⟨decl, ⟨name, hdecl, hne, hbase⟩, rfl⟩
    refine ⟨(name, decl), ?_, rfl⟩
    rw [List.mem_filter, Std.ExtTreeMap.mem_toList_iff_getElem?_eq_some]
    exact ⟨hdecl, decide_eq_true ⟨hne, hbase⟩⟩

/-- A verb is valid when some copy is. -/
theorem verify_valid_iff {verb : String} {cause : Option CausedBy} :
    r.verify verb cause = .valid ↔
      ∃ decl, IsCopyOf r.protocol verb decl ∧ r.step decl cause = .valid := by
  unfold Resolution.verify
  rw [← mem_copies_iff r.protocol verb fun decl => r.step decl cause]
  dsimp only
  generalize ((r.protocol.steps.toList.filter _).map _) = results
  by_cases hv : results.any (· = .valid)
  · rw [if_pos hv]
    refine iff_of_true rfl ?_
    simpa using hv
  · rw [if_neg hv]
    have hnone : VerificationResult.valid ∉ results := by simpa using hv
    refine iff_of_false ?_ hnone
    by_cases hu : results.any (· = .unknown)
    · rw [if_pos hu]
      exact fun h => nomatch h
    · rw [if_neg hu]
      cases hl : results.getLast? with
      | none => exact fun h => nomatch h
      | some v =>
          intro h
          exact hnone (h ▸ List.mem_of_getLast? hl)

/-- A verb is a violation when every copy is. -/
theorem verify_violation_iff {verb : String} {cause : Option CausedBy} :
    IsViolation (r.verify verb cause) ↔
      ∀ decl, IsCopyOf r.protocol verb decl → IsViolation (r.step decl cause) := by
  have hmem := mem_copies_iff r.protocol verb fun decl => r.step decl cause
  unfold Resolution.verify
  dsimp only
  revert hmem
  generalize ((r.protocol.steps.toList.filter _).map _) = results
  intro hmem
  by_cases hv : results.any (· = .valid)
  · rw [if_pos hv]
    obtain ⟨decl, hcopy, hvalid⟩ := (hmem .valid).mp (by simpa using hv)
    exact iff_of_false not_violation_valid fun hall =>
      not_violation_valid (hvalid ▸ hall decl hcopy)
  · rw [if_neg hv]
    by_cases hu : results.any (· = .unknown)
    · rw [if_pos hu]
      obtain ⟨decl, hcopy, hunk⟩ := (hmem .unknown).mp (by simpa using hu)
      exact iff_of_false not_violation_unknown fun hall =>
        not_violation_unknown (hunk ▸ hall decl hcopy)
    · rw [if_neg hu]
      have hvalid : VerificationResult.valid ∉ results := by simpa using hv
      have hunknown : VerificationResult.unknown ∉ results := by simpa using hu
      refine iff_of_true ?_ fun decl hcopy => ?_
      · cases hl : results.getLast? with
        | none => exact ⟨_, rfl⟩
        | some v =>
            have hin := List.mem_of_getLast? hl
            exact isViolation_of_ne (fun h => hvalid (h ▸ hin)) fun h => hunknown (h ▸ hin)
      · have hin := (hmem (r.step decl cause)).mpr ⟨decl, hcopy, rfl⟩
        exact isViolation_of_ne (fun h => hvalid (h ▸ hin)) fun h => hunknown (h ▸ hin)

end Resolution

-- ── The kernel path ────

section Kernel

variable {store : MessageStore} {thread : ThreadId}

theorem verifySingle_valid_iff {step : StepDecl} {hash : String} :
    verifySingle store thread step hash = .valid ↔
      ∃ p, predecessorType store hash thread = some p ∧ p ∈ allowedSinglePredecessors step := by
  unfold verifySingle
  cases hp : predecessorType store hash thread with
  | none => simp [classify, single]
  | some p =>
      by_cases hmem : p ∈ allowedSinglePredecessors step
      · simp [classify, single, hmem]
      · cases hpre : step.predecessors.isEmpty <;> simp [classify, single, hmem]

theorem verifySingle_violation_iff {step : StepDecl} {hash : String} :
    IsViolation (verifySingle store thread step hash) ↔
      ∃ p, predecessorType store hash thread = some p ∧ p ∉ allowedSinglePredecessors step := by
  unfold verifySingle
  cases hp : predecessorType store hash thread with
  | none => simp [classify, single, IsViolation]
  | some p =>
      by_cases hmem : p ∈ allowedSinglePredecessors step
      · simp [classify, single, hmem, IsViolation]
      · cases hpre : step.predecessors.isEmpty <;> simp [classify, single, hmem, IsViolation]

/-- What the fan-in loop knows after visiting some hashes. -/
structure ScanSpec (store : MessageStore) (thread : ThreadId) (all_set : BTreeSet String)
    (hashes : List String) (scan : FanInScan) : Prop where
  wrong : scan.state = .wrong ↔
    ∃ h ∈ hashes, ∃ p, predecessorType store h thread = some p ∧ p ∉ all_set
  clear : scan.state = .clear ↔
    ∀ h ∈ hashes, ∃ p, predecessorType store h thread = some p ∧ p ∈ all_set
  error : scan.first_error.isSome ↔ scan.state = .wrong
  found : ∀ p, p ∈ scan.found_types ↔
    p ∈ all_set ∧ ∃ h ∈ hashes, predecessorType store h thread = some p

/-- One visit keeps the specification. -/
theorem scanHash_spec {all_set : BTreeSet String} {hashes : List String} {scan : FanInScan}
    (spec : ScanSpec store thread all_set hashes scan) (h : String) :
    ScanSpec store thread all_set (hashes ++ [h]) (scanHash store thread all_set scan h) := by
  obtain ⟨hwrong, hclear, herror, hfound⟩ := spec
  unfold scanHash
  cases hp : predecessorType store h thread with
  | none =>
      refine ⟨?_, ?_, ?_, ?_⟩
      · simp only [List.mem_append, List.mem_singleton, or_and_right, exists_or, exists_eq_left,
          hp, ← hwrong]
        cases scan.state <;> simp [observe]
      · simp only [List.mem_append, List.mem_singleton, or_imp, forall_and, forall_eq, hp,
          ← hclear]
        cases scan.state <;> simp [observe]
      · rw [herror]
        cases scan.state <;> simp [observe]
      · intro q
        simp [hfound q, hp, or_and_right, exists_or]
  | some p =>
      by_cases hmem : p ∈ all_set
      · simp only [hmem, if_true]
        refine ⟨?_, ?_, ?_, ?_⟩
        · simp only [List.mem_append, List.mem_singleton, or_and_right, exists_or,
            exists_eq_left, hp, ← hwrong]
          cases scan.state <;> simp [observe, hmem]
        · simp only [List.mem_append, List.mem_singleton, or_imp, forall_and, forall_eq, hp,
            ← hclear]
          cases scan.state <;> simp [observe, hmem]
        · rw [herror]
          cases scan.state <;> simp [observe]
        · intro q
          simp only [Std.ExtTreeSet.mem_insert, Std.LawfulEqCmp.compare_eq_iff_eq, hfound q,
            List.mem_append, List.mem_singleton, or_and_right, exists_or, exists_eq_left, hp,
            Option.some.injEq]
          constructor
          · rintro (rfl | ⟨hq, hh⟩)
            · exact ⟨hmem, Or.inr rfl⟩
            · exact ⟨hq, Or.inl hh⟩
          · rintro ⟨hq, hh | rfl⟩
            · exact Or.inr ⟨hq, hh⟩
            · exact Or.inl rfl
      · simp only [hmem, if_false]
        refine ⟨?_, ?_, ?_, ?_⟩
        · refine iff_of_true ?_ ⟨h, by simp, p, hp, hmem⟩
          cases scan.state <;> rfl
        · refine iff_of_false ?_ ?_
          · cases scan.state <;> simp [observe]
          · intro hall
            obtain ⟨q, hq, hqm⟩ := hall h (by simp)
            rw [hp] at hq
            injection hq with hq
            exact hmem (hq ▸ hqm)
        · refine iff_of_true ?_ ?_
          · cases scan.first_error <;> rfl
          · cases scan.state <;> rfl
        · intro q
          simp only [hfound q, List.mem_append, List.mem_singleton, or_and_right, exists_or,
            exists_eq_left, hp, Option.some.injEq]
          constructor
          · rintro ⟨hq, hh⟩
            exact ⟨hq, Or.inl hh⟩
          · rintro ⟨hq, hh | rfl⟩
            · exact ⟨hq, hh⟩
            · exact absurd hq hmem

/-- The loop over all hashes. -/
theorem foldl_scanHash_spec (store : MessageStore) (thread : ThreadId)
    (all_set : BTreeSet String) (hashes : List String) :
    ScanSpec store thread all_set hashes
      (hashes.foldl (scanHash store thread all_set) ⟨.clear, ∅, none⟩) := by
  induction hashes using List.reverseRecOn with
  | nil => exact ⟨by simp, by simp, by simp, by simp⟩
  | append_singleton init h ih =>
      rw [List.foldl_append]
      exact scanHash_spec ih h

/-- The declared types no cited hash has. -/
theorem missing_eq_nil_iff {all_set : BTreeSet String} {hashes : List String} {scan : FanInScan}
    (spec : ScanSpec store thread all_set hashes scan) :
    (all_set.toList.filter (· ∉ scan.found_types)).isEmpty = true ↔
      ∀ p ∈ all_set, ∃ h ∈ hashes, predecessorType store h thread = some p := by
  rw [List.isEmpty_iff, List.filter_eq_nil_iff]
  constructor
  · intro hnil p hp
    have hin : p ∈ scan.found_types := by
      simpa using hnil p (Std.ExtTreeSet.mem_toList.mpr hp)
    exact ((spec.found p).mp hin).2
  · intro hcov p hp
    have hmem := Std.ExtTreeSet.mem_toList.mp hp
    simpa using (spec.found p).mpr ⟨hmem, hcov p hmem⟩

/-- **A fan-in of the kernel path, case by case.** -/
theorem verifyFanIn_cases (store : MessageStore) (thread : ThreadId) (perf : String)
    (all_set : BTreeSet String) (hashes : List String) :
    ((∃ h ∈ hashes, ∃ p, predecessorType store h thread = some p ∧ p ∉ all_set) ∧
      IsViolation (verifyFanIn store thread perf (some all_set) hashes)) ∨
    ((∃ h ∈ hashes, predecessorType store h thread = none) ∧
      (¬ ∃ h ∈ hashes, ∃ p, predecessorType store h thread = some p ∧ p ∉ all_set) ∧
      verifyFanIn store thread perf (some all_set) hashes = .unknown) ∨
    ((∀ h ∈ hashes, ∃ p, predecessorType store h thread = some p ∧ p ∈ all_set) ∧
      (∀ p ∈ all_set, ∃ h ∈ hashes, predecessorType store h thread = some p) ∧
      verifyFanIn store thread perf (some all_set) hashes = .valid) ∨
    ((∀ h ∈ hashes, ∃ p, predecessorType store h thread = some p ∧ p ∈ all_set) ∧
      (¬ ∀ p ∈ all_set, ∃ h ∈ hashes, predecessorType store h thread = some p) ∧
      IsViolation (verifyFanIn store thread perf (some all_set) hashes)) := by
  have spec := foldl_scanHash_spec store thread all_set hashes
  unfold verifyFanIn
  dsimp only
  revert spec
  generalize hashes.foldl (scanHash store thread all_set) ⟨.clear, ∅, none⟩ = scan
  intro spec
  cases hs : scan.state with
  | wrong =>
      left
      refine ⟨spec.wrong.mp hs, ?_⟩
      obtain ⟨e, he⟩ := Option.isSome_iff_exists.mp (spec.error.mpr hs)
      rw [he]
      exact ⟨e, rfl⟩
  | missing =>
      right
      left
      have hnwrong : ¬ ∃ h ∈ hashes, ∃ p, predecessorType store h thread = some p ∧ p ∉ all_set :=
        fun hw => by rw [spec.wrong.mpr hw] at hs; exact nomatch hs
      refine ⟨?_, hnwrong, rfl⟩
      by_contra hall
      have hclear := spec.clear.mpr fun h hh => by
        cases hp : predecessorType store h thread with
        | none => exact absurd ⟨h, hh, hp⟩ hall
        | some p => exact ⟨p, rfl, not_not.mp fun hm => hnwrong ⟨h, hh, p, hp, hm⟩⟩
      rw [hs] at hclear
      exact nomatch hclear
  | clear =>
      right
      right
      have hall := spec.clear.mp hs
      by_cases hcov : ∀ p ∈ all_set, ∃ h ∈ hashes, predecessorType store h thread = some p
      · left
        refine ⟨hall, hcov, ?_⟩
        rw [(missing_eq_nil_iff spec).mpr hcov]
        rfl
      · right
        refine ⟨hall, hcov, ?_⟩
        rw [Bool.eq_false_iff.mpr fun hnil => hcov ((missing_eq_nil_iff spec).mp hnil)]
        exact ⟨_, rfl⟩

end Kernel

end CbclVerdictShape
