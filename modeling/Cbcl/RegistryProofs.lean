import Cbcl.InstallModel
import Cbcl.DialectCanonicalProofs
import Cbcl.ExceptProofs
import Cbcl.Sha256Model

/-!
# What the registry keeps

Both routes of installation are taken apart into the checks they passed.  Every check reads a
dialect without the hash and the routes an installation adds, so what was checked still holds of
the dialect in the registry, and later installations only add ancestors.  The search for recursive
templates visits no performative twice on a walk; it finds every cycle of a dialect whose
performatives are named apart.
-/

namespace CbclRegistry

open CbclMessage CbclProtocol CbclShape CbclDialect CbclDialectCanonical CbclR7 CbclInstall
  CbclCanonical CbclTypedAddr CbclTreeMap CbclExcept
open CbclRole hiding Dialect PerformativeDef

-- ── Walks that avoid a set ────

section Walks

variable {α : Type}

/-- A walk of at least one step whose inner nodes avoid a set. -/
inductive Walk (r : α → α → Prop) (S : α → Prop) : α → α → Prop where
  | step {a b : α} : r a b → Walk r S a b
  | cons {a v b : α} : r a v → ¬ S v → Walk r S v b → Walk r S a b

theorem walk_of_transGen {r : α → α → Prop} {a b : α} (h : Relation.TransGen r a b) :
    Walk r (fun _ => False) a b := by
  induction h using Relation.TransGen.head_induction_on with
  | single hr => exact .step hr
  | head hr _ ih => exact .cons hr id ih

/-- A walk avoids a node from the start, or from its last visit to the node. -/
theorem Walk.avoid {r : α → α → Prop} {S : α → Prop} {a b : α} (h : Walk r S a b) (v : α) :
    Walk r (fun x => x = v ∨ S x) a b ∨ Walk r (fun x => x = v ∨ S x) v b := by
  induction h with
  | step hr => exact Or.inl (.step hr)
  | @cons a w b hr hw _ ih =>
      by_cases hv : w = v
      · subst hv
        exact Or.inr (ih.elim id id)
      · rcases ih with ih | ih
        · exact Or.inl (.cons hr (fun hc => hc.elim hv hw) ih)
        · exact Or.inr ih

theorem Walk.mono {r : α → α → Prop} {S T : α → Prop} (hsub : ∀ x, T x → S x) {a b : α}
    (h : Walk r S a b) : Walk r T a b := by
  induction h with
  | step hr => exact .step hr
  | cons hr hv _ ih => exact .cons hr (fun hc => hv (hsub _ hc)) ih

end Walks

-- ── R1 ────

mutual
/-- Whether a template mentions a symbol. -/
def mentions (name : String) : SExpr → Bool
  | .atom (.symbol s) => s = name
  | .atom _ => false
  | .list items => mentionsItems name items
/-- Whether some items mention a symbol. -/
def mentionsItems (name : String) : List SExpr → Bool
  | [] => false
  | x :: rest => mentions name x || mentionsItems name rest
end

mutual
theorem mem_collectSymbolReferences (name : String) : ∀ (t : SExpr) (acc : BTreeSet String),
    name ∈ collectSymbolReferences t acc ↔ name ∈ acc ∨ mentions name t = true
  | .atom (.symbol s), acc => by
      rw [collectSymbolReferences, mentions, mem_insert_iff, decide_eq_true_eq, or_comm, eq_comm]
  | .atom (.str _), acc => by rw [collectSymbolReferences, mentions] <;> simp
  | .atom (.num _), acc => by rw [collectSymbolReferences, mentions] <;> simp
  | .atom (.bool _), acc => by rw [collectSymbolReferences, mentions] <;> simp
  | .atom (.keyword _), acc => by rw [collectSymbolReferences, mentions] <;> simp
  | .list items, acc => by
      rw [collectSymbolReferences, mentions]
      exact mem_collectItemReferences name items acc
theorem mem_collectItemReferences (name : String) : ∀ (xs : List SExpr) (acc : BTreeSet String),
    name ∈ collectItemReferences xs acc ↔ name ∈ acc ∨ mentionsItems name xs = true
  | [], acc => by rw [collectItemReferences, mentionsItems]; simp
  | x :: rest, acc => by
      rw [collectItemReferences, mentionsItems, mem_collectItemReferences name rest,
        mem_collectSymbolReferences name x, or_assoc, Bool.or_eq_true]
end

/-- A performative whose template mentions another one of the dialect. -/
def Refers (d : Dialect) (p q : String) : Prop :=
  ∃ definition ∈ d.performatives, definition.name = p ∧ mentions q definition.template = true ∧
    d.definesPerformative q = true

/-- The dependencies of a performative, in a graph. -/
def dependencies (graph : BTreeMap String (BTreeSet String)) (p : String) : List String :=
  ((graph[p]?).map (·.toList)).getD []

theorem dependencyGraph_getElem? {d : Dialect} (hnodup : d.performativeNames.Nodup)
    {definition : PerformativeDef} (hmem : definition ∈ d.performatives) :
    (dependencyGraph d)[definition.name]? = some
      ((collectSymbolReferences definition.template ∅).filter
        fun name => d.definesPerformative name) :=
  getElem?_foldl_insert_of_mem (fun p : PerformativeDef => p.name) (fun p : PerformativeDef =>
    (collectSymbolReferences p.template ∅).filter fun name => d.definesPerformative name)
    d.performatives ∅ hnodup hmem

/-- The dependencies of the graph are the references of the templates. -/
theorem mem_dependencies_of_refers {d : Dialect} (hnodup : d.performativeNames.Nodup)
    {p q : String} (h : Refers d p q) : q ∈ dependencies (dependencyGraph d) p := by
  obtain ⟨definition, hmem, rfl, hq, hdefined⟩ := h
  unfold dependencies
  rw [dependencyGraph_getElem? hnodup hmem, Option.map_some, Option.getD_some,
    Std.ExtTreeSet.mem_toList, Std.ExtTreeSet.mem_filter]
  refine ⟨(mem_collectSymbolReferences q definition.template ∅).mpr (Or.inr hq), ?_⟩
  rwa [Std.ExtTreeSet.get_eq]

theorem mem_keys_of_defines {d : Dialect} (hnodup : d.performativeNames.Nodup) {q : String}
    (h : d.definesPerformative q = true) : q ∈ (dependencyGraph d).keys := by
  obtain ⟨definition, hmem, hname⟩ := List.any_eq_true.mp h
  rw [decide_eq_true_eq] at hname
  subst hname
  exact (mem_keys_iff _ _).mpr ⟨_, dependencyGraph_getElem? hnodup hmem⟩

/-- **The search finds every walk back to the start**: as long as the fuel exceeds the number of
    nodes the walk may still enter. -/
theorem reachesCycle_of_walk {graph : BTreeMap String (BTreeSet String)} {r : String → String → Prop}
    (hedge : ∀ a b, r a b → b ∈ dependencies graph a ∧ b ∈ graph.keys) (start : String) :
    ∀ (fuel : Nat) (current : String) (visiting : BTreeSet String),
      (graph.keys.filter (· ∉ visiting)).length < fuel →
      Walk r (fun x => x ∈ visiting) current start →
      reachesCycle graph start fuel current visiting = true := by
  intro fuel
  induction fuel with
  | zero => intro _ _ h; exact absurd h (Nat.not_lt_zero _)
  | succ fuel ih =>
      intro current visiting hfuel hwalk
      rw [reachesCycle, List.any_eq_true]
      cases hwalk with
      | step hr => exact ⟨start, (hedge _ _ hr).1, by simp⟩
      | @cons _ v _ hr hv hrest =>
          obtain ⟨hdep, hkey⟩ := hedge _ _ hr
          -- from its last visit to `v` on, the walk avoids `v` as well
          have hrest : Walk r (fun x => x ∈ visiting.insert v) v start := by
            refine Walk.mono (fun x hx => ?_) ((hrest.avoid v).elim id id)
            exact (mem_insert_iff _ _ _).mp hx
          have hless : (graph.keys.filter (· ∉ visiting.insert v)).length < fuel := by
            have hsub : (graph.keys.filter (· ∉ visiting.insert v)).length <
                (graph.keys.filter (· ∉ visiting)).length := by
              have hsplit : graph.keys.filter (· ∉ visiting.insert v) =
                  (graph.keys.filter (· ∉ visiting)).filter (· ≠ v) := by
                rw [List.filter_filter]
                refine List.filter_congr fun x _ => ?_
                simp only [mem_insert_iff, not_or, Bool.decide_and, ne_eq]
              rw [hsplit]
              refine List.length_filter_lt_length_iff_exists.mpr ⟨v, ?_, by simp⟩
              exact List.mem_filter.mpr ⟨hkey, by simpa using hv⟩
            omega
          refine ⟨v, hdep, ?_⟩
          rw [ih v (visiting.insert v) hless hrest]
          simp [hv]

/-- **R1 excludes recursion**: in a dialect other than the base one, with performatives named apart,
    no template leads back to its performative. -/
theorem not_recursive_of_r1 {d : Dialect} (hname : d.name ≠ "cbcl-base")
    (hnodup : d.performativeNames.Nodup) (hr1 : r1Violations d = []) (p : String) :
    ¬ Relation.TransGen (Refers d) p p := by
  intro hcycle
  have hedge : ∀ a b, Refers d a b →
      b ∈ dependencies (dependencyGraph d) a ∧ b ∈ (dependencyGraph d).keys := by
    intro a b h
    obtain ⟨_, _, _, _, hdefined⟩ := id h
    exact ⟨mem_dependencies_of_refers hnodup h, mem_keys_of_defines hnodup hdefined⟩
  -- the start of the cycle is itself a performative: something refers to it
  have hdefined : d.definesPerformative p = true := by
    obtain ⟨_, _, _, _, _, _, hp⟩ := Relation.TransGen.tail'_iff.mp hcycle
    exact hp
  have hkey := mem_keys_of_defines hnodup hdefined
  have hfound : reachesCycle (dependencyGraph d) p ((dependencyGraph d).size + 1) p ∅ = true := by
    refine reachesCycle_of_walk hedge p _ p ∅ ?_ ((walk_of_transGen hcycle).mono ?_)
    · refine lt_of_le_of_lt (List.length_filter_le ..) ?_
      rw [Std.ExtTreeMap.length_keys]
      exact Nat.lt_succ_self _
    · intro x hx
      exact absurd hx Std.ExtTreeSet.not_mem_empty
  have hcyclic : p ∈ cyclicPerformatives (dependencyGraph d) :=
    List.mem_filter.mpr ⟨hkey, hfound⟩
  obtain ⟨definition, hmem, hp⟩ := List.any_eq_true.mp hdefined
  rw [decide_eq_true_eq] at hp
  have hviolation : p ∈ r1Violations d := by
    unfold r1Violations
    rw [if_neg hname, List.mem_filter, List.contains_iff_mem]
    exact ⟨List.mem_map.mpr ⟨definition, hmem, hp⟩, hcyclic⟩
  rw [hr1] at hviolation
  exact nomatch hviolation

-- ── What an installation checked ────

@[simp] theorem refuseIf_ok_iff {c : Prop} [Decidable c] {e : DialectInstallError} {u : Unit} :
    refuseIf c e = .ok u ↔ ¬ c := by
  unfold refuseIf
  by_cases h : c
  · simp [h]
  · simp [h]

/-- The violations the R6 gate refuses. -/
def gateViolations (d : Dialect) : List R6Violation :=
  if derives d.causal_locality then (r6Violations d.roleLayer).filter fun v => !isLocality v
  else r6Violations d.roleLayer

/-- A dialect with the routes an installation derives. -/
def withRoutes (d : Dialect) : Dialect :=
  match d.causal_locality with
  | .derive _ => { d with causal_locality := .derive (deriveEnvelopeRoutes d) }
  | .reject => d

theorem applyR6_ok_iff {d d' : Dialect} :
    applyR6 d = .ok d' ↔ gateViolations d = [] ∧ d' = withRoutes d := by
  unfold applyR6 gateViolations withRoutes
  cases hmode : d.causal_locality with
  | reject =>
      simp only [derives, Bool.false_eq_true, if_false]
      by_cases hr6 : r6Violations d.roleLayer = []
      · simp only [hr6, ne_eq, not_true_eq_false, if_false, true_and, Except.ok.injEq]
        exact eq_comm
      · simp [hr6]
  | derive routes =>
      simp only [derives, if_true]
      by_cases hr6 : ((r6Violations d.roleLayer).filter fun v => !isLocality v) = []
      · simp only [hr6, ne_eq, not_true_eq_false, if_false, true_and, Except.ok.injEq]
        exact eq_comm
      · simp [hr6]

/-- The checks both routes share. -/
structure Checked (r : DialectRegistry) (d : Dialect) : Prop where
  r1 : r1Violations d = []
  r2 : isValid d.resources = true
  budget : checkProtocolExpansionBudget d = .ok ()
  r3 : r3Violations d = []
  r5 : r5ViolationsWithAncestors d (resolveAncestors r d) = []
  r6 : gateViolations d = []

section Hashing

variable {sha256 : Octets → Digest} {r r' : DialectRegistry} {d : Dialect}

/-- A dialect as it stands in the registry. -/
def installed (sha256 : Octets → Digest) (d : Dialect) : Dialect :=
  ensureHash sha256 (withRoutes d)

theorem install_ok_iff : install sha256 r d = .ok r' ↔
    Checked r d ∧ r7Violations sha256 (withRoutes d) = [] ∧ r' = r.push (installed sha256 d) := by
  unfold install
  simp only [bind_ok_iff, refuseIf_ok_iff, applyR6_ok_iff]
  constructor
  · rintro ⟨-, h1, -, h2, ⟨⟩, hb, -, h3, -, h5, d', ⟨h6, rfl⟩, -, h7, hr⟩
    injection hr with hr
    exact ⟨⟨not_not.mp h1, by simpa using h2, hb, not_not.mp h3, not_not.mp h5, h6⟩, not_not.mp h7,
      hr.symm⟩
  · rintro ⟨h, h7, rfl⟩
    exact ⟨(), by simp [h.r1], (), by simp [h.r2], (), h.budget, (), by simp [h.r3], (),
      by simp [h.r5], _, ⟨h.r6, rfl⟩, (), by simp [h7], rfl⟩

theorem installWithSigner_ok_iff {signer : CbclEnvelope.Signer} {r4 : R4Result} :
    installWithSigner sha256 r d signer = .ok (r4, r') ↔
      Checked r d ∧ r4 = checkR4 (withRoutes d) signer ∧ r4 ≠ .invalid ∧
        r' = r.push (installed sha256 d) := by
  unfold installWithSigner
  simp only [bind_ok_iff, refuseIf_ok_iff, applyR6_ok_iff]
  constructor
  · rintro ⟨-, h1, -, h2, ⟨⟩, hb, -, h3, -, h5, d', ⟨h6, rfl⟩, -, h4, hr⟩
    injection hr with hr
    injection hr with hr4 hr
    exact ⟨⟨not_not.mp h1, by simpa using h2, hb, not_not.mp h3, not_not.mp h5, h6⟩, hr4.symm,
      hr4 ▸ h4, hr.symm⟩
  · rintro ⟨h, rfl, h4, rfl⟩
    exact ⟨(), by simp [h.r1], (), by simp [h.r2], (), h.budget, (), by simp [h.r3], (),
      by simp [h.r5], _, ⟨h.r6, rfl⟩, (), h4, rfl⟩

-- ── What an installation adds ────

/-- The changes of an installation: routes in the declared mode, and a hash. -/
theorem installed_eq (sha256 : Octets → Digest) (d : Dialect) : ∃ mode hash,
    derives mode = derives d.causal_locality ∧
      installed sha256 d = { d with causal_locality := mode, hash := some hash } := by
  have hroutes : ∃ mode, derives mode = derives d.causal_locality ∧
      withRoutes d = { d with causal_locality := mode } := by
    unfold withRoutes
    cases hmode : d.causal_locality with
    | reject => exact ⟨.reject, rfl, by cases d; subst hmode; rfl⟩
    | derive routes => exact ⟨.derive (deriveEnvelopeRoutes d), rfl, rfl⟩
  obtain ⟨mode, hderives, hroutes⟩ := hroutes
  unfold installed ensureHash
  rw [hroutes]
  cases hhash : d.hash with
  | none => exact ⟨mode, _, hderives, rfl⟩
  | some h => exact ⟨mode, h, hderives, by cases d; subst hhash; rfl⟩

/-- The signing octets of a dialect see the declared mode only. -/
theorem dialectCanonicalBytes_routes {mode : CausalLocality}
    (h : derives mode = derives d.causal_locality) (name : String) (hash : Option String) :
    dialectCanonicalBytes { d with causal_locality := mode, hash := hash, name := name } =
      dialectCanonicalBytes { d with name := name } := by
  have hsection : localitySection mode = localitySection d.causal_locality := by
    cases mode <;> cases hd : d.causal_locality <;> simp [hd, derives, localitySection] at h ⊢
  unfold dialectCanonicalBytes toSignableSexpr
  simp only [hsection]

/-- The state layer is checked without the routes and the hash. -/
theorem r7Violations_routes {mode : CausalLocality}
    (h : derives mode = derives d.causal_locality) (hash : Option String) :
    r7Violations sha256 { d with causal_locality := mode, hash := hash } =
      r7Violations sha256 d := by
  have hbody : dialectBodyHash sha256 { d with causal_locality := mode, hash := hash } =
      dialectBodyHash sha256 d :=
    congrArg (fun octets => hex32 (sha256 octets)) (dialectCanonicalBytes_routes h "" hash)
  have hname : nameViolations sha256 { d with causal_locality := mode, hash := hash } =
      nameViolations sha256 d := by
    unfold nameViolations dialectName
    rw [hbody]
  have hdeclared : declarationErrors { d with causal_locality := mode, hash := hash } =
      declarationErrors d := rfl
  have hbounds : boundsViolations { d with causal_locality := mode, hash := hash } =
      boundsViolations d := rfl
  have hclause : ∀ clause, clauseViolations { d with causal_locality := mode, hash := hash } clause =
      clauseViolations d clause := fun _ => rfl
  unfold r7Violations
  rw [hname, hdeclared, hbounds]
  simp only [hclause]

-- ── The invariant ────

/-- What every dialect after the base one keeps, in the registry it stands in. -/
structure Conforms (sha256 : Octets → Digest) (r : DialectRegistry) (d : Dialect) : Prop where
  resources : isValid d.resources = true
  budget : ∀ cp, d.causal_protocol = some cp →
    (cp.steps.keys.filter (· ≠ BEGIN_KEYWORD)).length < d.resources.max_expansion_size.toNat
  nonrecursive : ∀ p, ¬ Relation.TransGen (Refers d) p p
  r5 : r5ViolationsWithAncestors d (resolveAncestors r d) = []
  r6 : ∀ v ∈ r6Violations d.roleLayer, derives d.causal_locality = true ∧ isLocality v = true
  r7 : r7Violations sha256 d = []
  hashed : d.hash.isSome = true
  core : ∀ p ∈ d.performatives, isCorePerformativeName p.name = false

/-- The base dialect first and unchanged, every other dialect conforming. -/
def WellFormed (sha256 : Octets → Digest) (r : DialectRegistry) : Prop :=
  r.dialects.head? = some baseDialect ∧ ∀ d ∈ r.dialects.tail, Conforms sha256 r d

theorem budget_of_checked {cp : CausalProtocol} (h2 : isValid d.resources = true)
    (h : checkProtocolExpansionBudget d = .ok ()) (hcp : d.causal_protocol = some cp) :
    (cp.steps.keys.filter (· ≠ BEGIN_KEYWORD)).length < d.resources.max_expansion_size.toNat := by
  unfold checkProtocolExpansionBudget at h
  simp only [hcp, refuseIf_ok_iff, ge_iff_le, UInt32.not_le, UInt32.lt_iff_toNat_lt] at h
  simp only [isValid, Bool.and_eq_true, decide_eq_true_eq, UInt32.le_iff_toNat_le] at h2
  have hlimit : d.resources.max_expansion_size.toNat ≤ 8192 := h2.1.1.2
  unfold expansionSize at h
  simp only at h
  split at h
  case isTrue hlt =>
    rw [UInt32.toNat_ofNat_of_lt' hlt] at h
    exact h
  case isFalse =>
    have hmax : (0xffffffff : UInt32).toNat = 4294967295 := rfl
    rw [hmax] at h
    omega

theorem r6_of_gate (h : gateViolations d = []) :
    ∀ v ∈ r6Violations d.roleLayer, derives d.causal_locality = true ∧ isLocality v = true := by
  intro v hv
  unfold gateViolations at h
  cases hmode : derives d.causal_locality with
  | false =>
      rw [hmode] at h
      simp only [Bool.false_eq_true, if_false] at h
      rw [h] at hv
      exact nomatch hv
  | true =>
      rw [hmode, if_pos rfl] at h
      have hlocal := List.filter_eq_nil_iff.mp h v hv
      exact ⟨rfl, by simpa using hlocal⟩

theorem core_of_r3 (hname : d.name ≠ "cbcl-base") (h : r3Violations d = []) :
    ∀ p ∈ d.performatives, isCorePerformativeName p.name = false := by
  intro p hp
  unfold r3Violations at h
  rw [if_neg hname] at h
  simpa using List.filter_eq_nil_iff.mp h p.name (List.mem_map.mpr ⟨p, hp, rfl⟩)

/-- One round of the definedness check: flag a base name that is neither defined nor flagged. -/
def flagUndefined (defined : List String) (acc : BTreeSet String × List ProtocolViolation)
    (name : String) : BTreeSet String × List ProtocolViolation :=
  if repeatBaseName name ∉ defined ∧ repeatBaseName name ∉ acc.1 then
    (acc.1.insert (repeatBaseName name),
      acc.2 ++ [.undefinedPerformative (repeatBaseName name)])
  else acc

theorem flagUndefined_eq_nil_iff (defined : List String) :
    ∀ (names : List String) (acc : BTreeSet String × List ProtocolViolation),
      (names.foldl (flagUndefined defined) acc).2 = [] ↔ acc.2 = [] ∧
        ∀ name ∈ names, repeatBaseName name ∈ defined ∨ repeatBaseName name ∈ acc.1 := by
  intro names
  induction names with
  | nil => intro acc; simp
  | cons name names ih =>
      intro acc
      rw [List.foldl_cons, ih, List.forall_mem_cons]
      unfold flagUndefined
      by_cases hflag : repeatBaseName name ∉ defined ∧ repeatBaseName name ∉ acc.1
      · rw [if_pos hflag]
        constructor
        · rintro ⟨hnil, -⟩
          simp at hnil
        · rintro ⟨-, hname, -⟩
          exact absurd hname (not_or.mpr hflag)
      · rw [if_neg hflag]
        have hname : repeatBaseName name ∈ defined ∨ repeatBaseName name ∈ acc.1 := by
          by_contra hc
          exact hflag (not_or.mp hc)
        exact ⟨fun h => ⟨h.1, hname, h.2⟩, fun h => ⟨h.1, h.2.2⟩⟩

/-- Every reference of a protocol is to a defined performative exactly when none is flagged. -/
theorem definedness_eq_nil_iff {p : CausalProtocol} {defined : List String} :
    p.checkPerformativeDefinedness defined = [] ↔
      ∀ name ∈ p.allReferencedPerformatives.toList, repeatBaseName name ∈ defined := by
  have h := flagUndefined_eq_nil_iff defined p.allReferencedPerformatives.toList (∅, [])
  simp only [true_and, Std.ExtTreeSet.not_mem_empty, or_false] at h
  exact h

/-- With more performatives defined, a clean protocol stays clean. -/
theorem r5_mono {ancestors ancestors' : List Dialect}
    (hsub : ∀ a ∈ ancestors, a ∈ ancestors')
    (h : r5ViolationsWithAncestors d ancestors = []) :
    r5ViolationsWithAncestors d ancestors' = [] := by
  unfold r5ViolationsWithAncestors at h ⊢
  rw [List.append_eq_nil_iff] at h ⊢
  refine ⟨?_, h.2⟩
  cases hcp : d.causal_protocol with
  | none => rfl
  | some p =>
      rw [hcp] at h
      simp only [List.map_eq_nil_iff, CausalProtocol.verifyR5Protocol, List.append_eq_nil_iff,
        definedness_eq_nil_iff] at h ⊢
      refine ⟨h.1.1, fun name hname => ?_⟩
      rcases List.mem_append.mp (h.1.2 name hname) with hown | hinherited
      · exact List.mem_append_left _ hown
      · obtain ⟨a, ha, hmem⟩ := List.mem_flatMap.mp hinherited
        exact List.mem_append_right _ (List.mem_flatMap.mpr ⟨a, hsub a ha, hmem⟩)

theorem findByName_push {e : Dialect} {name : String} (h : r.findByName name = some e)
    (d : Dialect) : (r.push d).findByName name = some e := by
  unfold DialectRegistry.findByName DialectRegistry.push at *
  rw [List.find?_append, h]
  rfl

/-- The ancestors of a dialect stay its ancestors when another one is installed. -/
theorem resolveAncestors_push (r : DialectRegistry) (d e : Dialect) :
    ∀ a ∈ resolveAncestors r d, a ∈ resolveAncestors (r.push e) d := by
  intro a ha
  obtain ⟨name, hname, hfind⟩ := List.mem_filterMap.mp ha
  exact List.mem_filterMap.mpr ⟨name, hname, findByName_push hfind e⟩

theorem Conforms.push (h : Conforms sha256 r d) (e : Dialect) : Conforms sha256 (r.push e) d :=
  { h with r5 := r5_mono (resolveAncestors_push r d e) h.r5 }

/-- A checked dialect conforms as it is installed. -/
theorem conforms_of_checked (h : Checked r d) (hname : d.name ≠ "cbcl-base")
    (hnodup : d.performativeNames.Nodup) (h7 : r7Violations sha256 d = []) :
    Conforms sha256 (r.push (installed sha256 d)) (installed sha256 d) := by
  obtain ⟨mode, hash, hderives, heq⟩ := installed_eq sha256 d
  refine Conforms.push ?_ _
  rw [heq]
  exact
    { resources := h.r2
      budget := fun cp hcp => budget_of_checked h.r2 h.budget hcp
      nonrecursive := not_recursive_of_r1 hname hnodup h.r1
      r5 := h.r5
      r6 := fun v hv => by
        rw [hderives]
        exact r6_of_gate h.r6 v hv
      r7 := (r7Violations_routes hderives (some hash)).trans h7
      hashed := rfl
      core := core_of_r3 hname h.r3 }

theorem WellFormed.push (h : WellFormed sha256 r)
    (hd : Conforms sha256 (r.push (installed sha256 d)) (installed sha256 d)) :
    WellFormed sha256 (r.push (installed sha256 d)) := by
  refine ⟨(r.push _).base_first, fun e he => ?_⟩
  have hne : r.dialects ≠ [] := by
    intro hnil
    have hfirst := r.base_first
    rw [hnil] at hfirst
    cases hfirst
  have htail : (r.push (installed sha256 d)).dialects.tail =
      r.dialects.tail ++ [installed sha256 d] := List.tail_append_of_ne_nil hne
  rw [htail, List.mem_append, List.mem_singleton] at he
  rcases he with he | rfl
  · exact (h.2 e he).push _
  · exact hd

/-- A call whose checks cover its dialect: it does not bear the exempted name, its performatives are
    named apart, and the route that leaves out the state layer gets a dialect without violations. -/
def Covered (sha256 : Octets → Digest) (call : Call) : Prop :=
  call.dialect.name ≠ "cbcl-base" ∧ call.dialect.performativeNames.Nodup ∧
    match call with
    | .install _ => True
    | .installWithSigner d _ => r7Violations sha256 d = []

theorem r7_withRoutes (sha256 : Octets → Digest) (d : Dialect) :
    r7Violations sha256 (withRoutes d) = r7Violations sha256 d := by
  unfold withRoutes
  cases hmode : d.causal_locality with
  | reject => rfl
  | derive routes =>
      exact @r7Violations_routes sha256 d (.derive (deriveEnvelopeRoutes d)) (by rw [hmode]; rfl)
        d.hash

theorem perform_install (r : DialectRegistry) (d : Dialect) : perform sha256 r (.install d) =
    match install sha256 r d with
    | .ok r' => (none, r')
    | .error e => (some e, r) := rfl

theorem perform_signed (r : DialectRegistry) (d : Dialect) (signer : CbclEnvelope.Signer) :
    perform sha256 r (.installWithSigner d signer) =
      match installWithSigner sha256 r d signer with
      | .ok (_, r') => (none, r')
      | .error e => (some e, r) := rfl

/-- One covered call keeps the registry well formed. -/
theorem wellFormed_perform (h : WellFormed sha256 r) {call : Call} (hcall : Covered sha256 call) :
    WellFormed sha256 (perform sha256 r call).2 := by
  obtain ⟨hname, hnodup, hroute⟩ := hcall
  cases call with
  | install d =>
      rw [perform_install]
      cases hrun : install sha256 r d with
      | error e => exact h
      | ok r' =>
          obtain ⟨hchecked, h7, rfl⟩ := install_ok_iff.mp hrun
          exact h.push (conforms_of_checked hchecked hname hnodup (r7_withRoutes sha256 d ▸ h7))
  | installWithSigner d signer =>
      rw [perform_signed]
      cases hrun : installWithSigner sha256 r d signer with
      | error e => exact h
      | ok result =>
          obtain ⟨r4, r'⟩ := result
          obtain ⟨hchecked, -, -, rfl⟩ := installWithSigner_ok_iff.mp hrun
          exact h.push (conforms_of_checked hchecked hname hnodup hroute)

/-- A refused call leaves the registry as it was. -/
theorem perform_error {call : Call} {e : DialectInstallError}
    (h : (perform sha256 r call).1 = some e) : (perform sha256 r call).2 = r := by
  cases call with
  | install d =>
      rw [perform_install] at h ⊢
      cases hrun : install sha256 r d with
      | error e' => rfl
      | ok r' => rw [hrun] at h; exact nomatch h
  | installWithSigner d signer =>
      rw [perform_signed] at h ⊢
      cases hrun : installWithSigner sha256 r d signer with
      | error e' => rfl
      | ok result => rw [hrun] at h; exact nomatch h

/-- A dialect the signed route accepts, without violations of the state layer, is accepted by the
    other one. -/
theorem install_of_signed {signer : CbclEnvelope.Signer}
    (hcall : Covered sha256 (.installWithSigner d signer))
    (h : (perform sha256 r (.installWithSigner d signer)).1 = none) :
    (perform sha256 r (.install d)).1 = none := by
  rw [perform_signed] at h
  cases hrun : installWithSigner sha256 r d signer with
  | error e => rw [hrun] at h; exact nomatch h
  | ok result =>
      obtain ⟨r4, r'⟩ := result
      obtain ⟨hchecked, -, -, -⟩ := installWithSigner_ok_iff.mp hrun
      rw [perform_install, install_ok_iff.mpr
        ⟨hchecked, (r7_withRoutes sha256 d).trans hcall.2.2, rfl⟩]

/-- **The registry invariant over covered calls**: after any sequence of calls the checks cover, the
    registry is well formed; a refused call changes nothing; and the signed route accepts nothing
    the other one refuses. -/
theorem wellFormed_performAll (sha256 : Octets → Digest) (calls : List Call)
    (hcalls : ∀ call ∈ calls, Covered sha256 call) :
    WellFormed sha256 (performAll sha256 .new calls) ∧
      (∀ call e, (perform sha256 (performAll sha256 .new calls) call).1 = some e →
        (perform sha256 (performAll sha256 .new calls) call).2 = performAll sha256 .new calls) ∧
      ∀ d signer, Covered sha256 (.installWithSigner d signer) →
        (perform sha256 (performAll sha256 .new calls) (.installWithSigner d signer)).1 = none →
        (perform sha256 (performAll sha256 .new calls) (.install d)).1 = none := by
  refine ⟨?_, fun call e => perform_error, fun d signer => install_of_signed⟩
  have hrun : ∀ (calls : List Call) (r : DialectRegistry), WellFormed sha256 r →
      (∀ call ∈ calls, Covered sha256 call) → WellFormed sha256 (performAll sha256 r calls) := by
    intro calls
    induction calls with
    | nil => intro r hr _; exact hr
    | cons call calls ih =>
        intro r hr hall
        exact ih _ (wellFormed_perform hr (hall call (List.mem_cons_self ..)))
          fun c hc => hall c (List.mem_cons_of_mem _ hc)
  exact hrun calls .new ⟨rfl, fun d hd => nomatch hd⟩ hcalls

end Hashing

-- ── Dialects the checks do not cover ────

/-- A dialect of some performatives and nothing else. -/
def plainDialect (name : String) (performatives : List PerformativeDef) : Dialect :=
  { baseDialect with name, author := none, performatives }

/-- A dialect of one performative. -/
def greeterDialect : Dialect :=
  plainDialect "greeter" [⟨"greet", [], effectTemplate "say-hello", none⟩]

/-- A covered call: one performative, installed with a signer. -/
theorem wellFormed_greeter :
    WellFormed CbclSha256.sha256 (performAll CbclSha256.sha256 .new
      [.installWithSigner greeterDialect ⟨fun _ => [], fun _ _ => false⟩]) ∧
    (perform CbclSha256.sha256 .new
      (.installWithSigner greeterDialect ⟨fun _ => [], fun _ _ => false⟩)).1 = none := by
  refine ⟨(wellFormed_performAll CbclSha256.sha256 _ fun call hcall => ?_).1, by decide +kernel⟩
  rw [List.mem_singleton.mp hcall]
  exact ⟨by decide, by decide, by decide +kernel⟩

/-- A dialect that bears the exempted name and redefines `tell` recursively. -/
def shadowDialect : Dialect :=
  plainDialect "cbcl-base" [⟨"tell", [], .list [.atom (.symbol "tell")], none⟩]

/-- A dialect whose first definition of `echo` is recursive and whose second is not. -/
def doubledDialect : Dialect :=
  plainDialect "echoes" [⟨"echo", [], .list [.atom (.symbol "echo")], none⟩,
    ⟨"echo", [], effectTemplate "send-back", none⟩]

/-- A dialect with a state clause of no fields. -/
def fieldlessDialect : Dialect :=
  { plainDialect "fieldless" [] with state := some ⟨[]⟩ }

/-- A dialect that passes the checks of its route stands in the registry. -/
theorem installed_mem {sha256 : Octets → Digest} {d : Dialect} (h : Checked .new d)
    (h7 : r7Violations sha256 (withRoutes d) = []) :
    installed sha256 d ∈ (performAll sha256 .new [.install d]).dialects.tail := by
  show _ ∈ (perform sha256 .new (.install d)).2.dialects.tail
  rw [perform_install, install_ok_iff.mpr ⟨h, h7, rfl⟩]
  exact List.mem_singleton.mpr rfl

/-- **The checks miss three kinds of dialects**: one of the exempted name, one that defines a
    performative twice, and, on the signed route, one that breaks the state layer. -/
theorem uncovered_installations :
    ¬ WellFormed CbclSha256.sha256 (performAll CbclSha256.sha256 .new [.install shadowDialect]) ∧
    ¬ WellFormed CbclSha256.sha256 (performAll CbclSha256.sha256 .new [.install doubledDialect]) ∧
    ¬ WellFormed CbclSha256.sha256 (performAll CbclSha256.sha256 .new
      [.installWithSigner fieldlessDialect ⟨fun _ => [], fun _ _ => false⟩]) ∧
    (perform CbclSha256.sha256 .new
      (.installWithSigner fieldlessDialect ⟨fun _ => [], fun _ _ => false⟩)).1 = none ∧
    (perform CbclSha256.sha256 .new (.install fieldlessDialect)).1 ≠ none := by
  refine ⟨fun h => ?_, fun h => ?_, fun h => ?_, by decide +kernel, by decide +kernel⟩
  · have hmem := @installed_mem CbclSha256.sha256 shadowDialect
      ⟨by decide +kernel, by decide +kernel, rfl, by decide +kernel, by decide +kernel,
        by decide +kernel⟩ (by decide +kernel)
    obtain ⟨mode, hash, -, heq⟩ := installed_eq CbclSha256.sha256 shadowDialect
    rw [heq] at hmem
    exact absurd ((h.2 _ hmem).core _ (List.mem_singleton.mpr rfl)) (by decide +kernel)
  · have hmem := @installed_mem CbclSha256.sha256 doubledDialect
      ⟨by decide +kernel, by decide +kernel, rfl, by decide +kernel, by decide +kernel,
        by decide +kernel⟩ (by decide +kernel)
    obtain ⟨mode, hash, -, heq⟩ := installed_eq CbclSha256.sha256 doubledDialect
    rw [heq] at hmem
    refine (h.2 _ hmem).nonrecursive "echo" (.single ?_)
    exact ⟨⟨"echo", [], .list [.atom (.symbol "echo")], none⟩, List.mem_cons_self .., rfl, by decide,
      rfl⟩
  · have hmem : installed CbclSha256.sha256 fieldlessDialect ∈ (performAll CbclSha256.sha256 .new
        [.installWithSigner fieldlessDialect ⟨fun _ => [], fun _ _ => false⟩]).dialects.tail := by
      show _ ∈ (perform CbclSha256.sha256 .new (.installWithSigner fieldlessDialect
        ⟨fun _ => [], fun _ _ => false⟩)).2.dialects.tail
      rw [perform_signed, installWithSigner_ok_iff.mpr ⟨⟨by decide +kernel, by decide +kernel, rfl,
        by decide +kernel, by decide +kernel, by decide +kernel⟩, rfl, by decide, rfl⟩]
      exact List.mem_singleton.mpr rfl
    obtain ⟨mode, hash, hmode, heq⟩ := installed_eq CbclSha256.sha256 fieldlessDialect
    have h7 := (h.2 _ hmem).r7
    rw [heq, r7Violations_routes hmode] at h7
    exact absurd h7 (by decide +kernel)

end CbclRegistry
