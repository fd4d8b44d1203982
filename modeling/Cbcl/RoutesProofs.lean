import Cbcl.RelationMapProofs
import Cbcl.RoutesModel

/-!
# Envelope routes are a least closure

The routes derived at install are the least table under which every step's predecessors are seen by
all its endpoints; the step `begin` is left out.  The routes of occupants are derived role by role:
each role in its turn gets the least table above the one so far that closes its clause.  The result
lies in every table that closes the clauses of all roles, and is the least of these tables if no
order of the roles forces more than the one in the dialect, as when the roles share no occupant.

Both derivations are passes over a table in the sense of `CbclClosure`; what a pass looks for is a
set of clauses.
-/

namespace CbclRoutes

open CbclMessage CbclProtocol CbclDialect CbclTreeMap CbclRelationMap CbclInstall CbclClosure
open CbclRole hiding Dialect PerformativeDef

/-- The routes of a table: a performative and who gets its envelope. -/
def routesOf (table : BTreeMap String (BTreeSet String)) : Set (String × String) :=
  {route | Related table route.1 route.2}

theorem routesOf_empty : routesOf ∅ = ∅ := by
  refine Set.eq_empty_of_forall_notMem ?_
  rintro route ⟨bs, hbs, -⟩
  exact nomatch Std.ExtTreeMap.getElem?_empty.symm.trans hbs

/-- A step cites another performative. -/
def Cites (d : Dialect) (step : StepDecl) (nr : NodeRef) (pred : String) : Prop :=
  ∃ cp, d.causal_protocol = some cp ∧ step ∈ valuesOf cp.steps ∧ nr ∈ step.predecessors ∧
    pred ∈ nr.performatives

/-- The performatives cited in a protocol. -/
def citedNames (cp : CausalProtocol) : List String :=
  (valuesOf cp.steps).flatMap fun s => s.predecessors.flatMap NodeRef.performatives

theorem mem_citedNames {d : Dialect} {cp : CausalProtocol} {step : StepDecl} {nr : NodeRef}
    {pred : String} (hcp : d.causal_protocol = some cp) (h : Cites d step nr pred) :
    pred ∈ citedNames cp := by
  obtain ⟨cp', hcp', hstep, hnr, hpred⟩ := h
  obtain rfl := Option.some.inj (hcp.symm.trans hcp')
  exact List.mem_flatMap.mpr ⟨step, hstep, List.mem_flatMap.mpr ⟨nr, hnr, hpred⟩⟩

/-- Pairs of two lists are no more than the product of their lengths. -/
theorem ncard_pairs_le (xs ys : List String) (X : Set (String × String)) :
    ({f | f ∈ xs.product ys} \ X).ncard ≤ xs.length * ys.length := by
  refine (Set.ncard_le_ncard Set.sdiff_subset (List.finite_toSet _)).trans ?_
  rw [← List.coe_toFinset, Set.ncard_coe_finset, ← List.length_product]
  exact List.toFinset_card_le _

-- ── Routes of roles ────

/-- All endpoints of `t`, with those added by routes, are endpoints of `p`, with those added. -/
def Covers (d : Dialect) (X : Set (String × String)) (t p : String) : Prop :=
  ∀ t_ann p_ann, annotationFor d t = some t_ann → annotationFor d p = some p_ann →
    ∀ role, role ∈ endpoints t_ann ∨ (t, role) ∈ X → role ∈ endpoints p_ann ∨ (p, role) ∈ X

/-- The endpoints of a step other than `begin` become recipients of what it cites. -/
def routeClauses (d : Dialect) : Set (Set (String × String) × (String × String)) :=
  {c | ∃ step nr p t_ann p_ann role, Cites d step nr p ∧ step.performative ≠ BEGIN_KEYWORD ∧
    p ≠ BEGIN_KEYWORD ∧ annotationFor d step.performative = some t_ann ∧
    annotationFor d p = some p_ann ∧ role ∉ endpoints p_ann ∧ c.2 = (p, role) ∧
    (c.1 = {(step.performative, role)} ∨ role ∈ endpoints t_ann ∧ c.1 = ∅)}

/-- A table is closed under these clauses if it covers every citation. -/
theorem closedUnder_routeClauses {d : Dialect} {X : Set (String × String)} :
    ClosedUnder (routeClauses d) X ↔ ∀ step nr p, Cites d step nr p →
      step.performative ≠ BEGIN_KEYWORD → p ≠ BEGIN_KEYWORD → Covers d X step.performative p := by
  constructor
  · intro hclosed step nr p hcites ht hp t_ann p_ann htann hpann role hrole
    by_cases hin : role ∈ endpoints p_ann
    · exact .inl hin
    rcases hrole with hend | hroute
    · exact .inr (hclosed (∅, (p, role)) ⟨step, nr, p, t_ann, p_ann, role, hcites, ht, hp, htann,
        hpann, hin, rfl, .inr ⟨hend, rfl⟩⟩ (Set.empty_subset X))
    · exact .inr (hclosed ({(step.performative, role)}, (p, role)) ⟨step, nr, p, t_ann, p_ann, role,
        hcites, ht, hp, htann, hpann, hin, rfl, .inl rfl⟩ (Set.singleton_subset_iff.mpr hroute))
  · rintro hcovers ⟨premises, route⟩ ⟨step, nr, p, t_ann, p_ann, role, hcites, ht, hp, htann, hpann,
      hnot, rfl, hshape⟩ hpremises
    refine (hcovers step nr p hcites ht hp t_ann p_ann htann hpann role ?_).resolve_left hnot
    rcases hshape with rfl | ⟨hend, -⟩
    · exact .inr (hpremises rfl)
    · exact .inl hend

/-- One pass. -/
def routePass (d : Dialect) (cp : CausalProtocol) (routes : BTreeMap String (BTreeSet String)) :
    Option (BTreeMap String (BTreeSet String)) :=
  match missingRoutes d cp routes with
  | [] => none
  | frontier => some (frontier.foldl (fun routes (pred, role) =>
      routes.insert pred (((routes[pred]?).getD ∅).insert role)) routes)

theorem routePasses_eq (d : Dialect) (cp : CausalProtocol) : ∀ (fuel : Nat)
    (routes : BTreeMap String (BTreeSet String)),
    routePasses d cp fuel routes = repeatPass (routePass d cp) fuel routes := by
  intro fuel
  induction fuel with
  | zero => exact fun routes => rfl
  | succ fuel ih =>
      intro routes
      unfold routePasses repeatPass routePass
      cases missingRoutes d cp routes with
      | nil => rfl
      | cons missing frontier => exact ih _

/-- What a pass finds missing. -/
theorem mem_missingRoutes {d : Dialect} {cp : CausalProtocol}
    {routes : BTreeMap String (BTreeSet String)} (hcp : d.causal_protocol = some cp)
    {p role : String} :
    (p, role) ∈ missingRoutes d cp routes ↔
      ∃ step nr t_ann p_ann, Cites d step nr p ∧ step.performative ≠ BEGIN_KEYWORD ∧
        p ≠ BEGIN_KEYWORD ∧ annotationFor d step.performative = some t_ann ∧
        annotationFor d p = some p_ann ∧
        (role ∈ endpoints t_ann ∨ (step.performative, role) ∈ routesOf routes) ∧
        role ∉ endpoints p_ann ∧ (p, role) ∉ routesOf routes := by
  have hrouted : ∀ name r, r ∈ (routes[name]?).getD ∅ ↔ (name, r) ∈ routesOf routes :=
    fun name r => related_iff_getD.symm
  have hwide : ∀ (ann : RoleAnnotation) (name r : String),
      r ∈ (((routes[name]?).getD ∅).toList).foldl (·.insert ·) (endpoints ann) ↔
        r ∈ endpoints ann ∨ (name, r) ∈ routesOf routes := fun ann name r => by
    rw [mem_foldl_insert, Std.ExtTreeSet.mem_toList, hrouted, or_comm]
  unfold missingRoutes
  rw [List.mem_flatMap]
  constructor
  · rintro ⟨step, hstep, hmem⟩
    by_cases ht : step.performative = BEGIN_KEYWORD
    · rw [if_pos ht] at hmem
      exact absurd hmem List.not_mem_nil
    rw [if_neg ht] at hmem
    cases htann : annotationFor d step.performative with
    | none =>
        unfold annotationFor at htann
        rw [htann] at hmem
        exact absurd hmem List.not_mem_nil
    | some t_ann =>
        have hread := htann
        unfold annotationFor at hread
        rw [hread] at hmem
        obtain ⟨pred, hpred, hmem⟩ := List.mem_flatMap.mp hmem
        obtain ⟨nr, hnr, hpred⟩ := List.mem_flatMap.mp hpred
        by_cases hp : pred = BEGIN_KEYWORD
        · rw [if_pos hp] at hmem
          exact absurd hmem List.not_mem_nil
        rw [if_neg hp] at hmem
        cases hpann : annotationFor d pred with
        | none =>
            unfold annotationFor at hpann
            rw [hpann] at hmem
            exact absurd hmem List.not_mem_nil
        | some p_ann =>
            have hread := hpann
            unfold annotationFor at hread
            rw [hread] at hmem
            obtain ⟨r, hr, heq⟩ := List.mem_map.mp hmem
            obtain ⟨rfl, rfl⟩ := Prod.mk.inj heq
            obtain ⟨hend, hnew⟩ := List.mem_filter.mp hr
            obtain ⟨hnot, hunrouted⟩ := Bool.and_eq_true_iff.mp hnew
            rw [Std.ExtTreeSet.mem_toList, hwide] at hend
            refine ⟨step, nr, t_ann, p_ann, ⟨cp, hcp, hstep, hnr, hpred⟩, ht, hp, htann, hpann,
              hend, of_decide_eq_true hnot, fun hroute => of_decide_eq_true hunrouted ?_⟩
            exact (hrouted _ _).mpr hroute
  · rintro ⟨step, nr, t_ann, p_ann, ⟨cp', hcp', hstep, hnr, hpred⟩, ht, hp, htann, hpann, hend,
      hnot, hnew⟩
    obtain rfl := Option.some.inj (hcp.symm.trans hcp')
    unfold annotationFor at htann hpann
    refine ⟨step, hstep, ?_⟩
    rw [if_neg ht, htann]
    refine List.mem_flatMap.mpr ⟨p, List.mem_flatMap.mpr ⟨nr, hnr, hpred⟩, ?_⟩
    rw [if_neg hp, hpann]
    refine List.mem_map.mpr ⟨role, List.mem_filter.mpr ⟨?_, ?_⟩, rfl⟩
    · exact Std.ExtTreeSet.mem_toList.mpr ((hwide _ _ _).mpr hend)
    · exact Bool.and_eq_true_iff.mpr ⟨decide_eq_true hnot,
        decide_eq_true fun hroute => hnew ((hrouted _ _).mp hroute)⟩

/-- The routes after some have been added. -/
theorem routesOf_foldl : ∀ (frontier : List (String × String))
    (routes : BTreeMap String (BTreeSet String)),
    routesOf (frontier.foldl (fun routes (pred, role) =>
      routes.insert pred (((routes[pred]?).getD ∅).insert role)) routes)
      = routesOf routes ∪ {route | route ∈ frontier} := by
  intro frontier
  induction frontier with
  | nil =>
      intro routes
      ext route
      exact (or_iff_left List.not_mem_nil).symm
  | cons route frontier ih =>
      intro routes
      rw [List.foldl_cons, ih]
      ext ⟨a, b⟩
      have hone : Related (routes.insert route.1 (((routes[route.1]?).getD ∅).insert route.2)) a b ↔
          Related routes a b ∨ (a = route.1 ∧ b ∈ [route.2]) :=
        related_insert_foldl routes route.1 [route.2] a b
      rw [List.mem_singleton] at hone
      show Related _ a b ∨ (a, b) ∈ frontier ↔ Related routes a b ∨ (a, b) ∈ route :: frontier
      rw [List.mem_cons, Prod.ext_iff, ← or_assoc]
      exact or_congr_left hone

/-- The passes look for what the clauses force. -/
theorem passes_routePass {d : Dialect} {cp : CausalProtocol} (hcp : d.causal_protocol = some cp) :
    Passes routesOf (routePass d cp) (routeClauses d) := by
  have hsome : ∀ {t t'}, routePass d cp t = some t' → missingRoutes d cp t ≠ [] ∧
      routesOf t' = routesOf t ∪ {route | route ∈ missingRoutes d cp t} := by
    intro t t' h
    unfold routePass at h
    cases hmissing : missingRoutes d cp t with
    | nil =>
        rw [hmissing] at h
        exact nomatch h
    | cons route frontier =>
        rw [hmissing] at h
        obtain rfl := Option.some.inj h
        exact ⟨List.cons_ne_nil _ _, routesOf_foldl _ _⟩
  refine ⟨fun {t} h => ?_, fun {t t'} h => ?_, fun {t t'} h => ?_,
    fun {t t'} h route hroute hnew => ?_⟩
  · have hnone : missingRoutes d cp t = [] := by
      unfold routePass at h
      cases hmissing : missingRoutes d cp t with
      | nil => rfl
      | cons route frontier =>
          rw [hmissing] at h
          exact nomatch h
    refine closedUnder_routeClauses.mpr fun step nr p hcites ht hp t_ann p_ann htann hpann role
      hrole => ?_
    by_contra hno
    obtain ⟨hnot, hnew⟩ := not_or.mp hno
    have hmem := (mem_missingRoutes hcp).mpr
      ⟨step, nr, t_ann, p_ann, hcites, ht, hp, htann, hpann, hrole, hnot, hnew⟩
    rw [hnone] at hmem
    exact List.not_mem_nil hmem
  · rw [(hsome h).2]
    exact Set.subset_union_left
  · obtain ⟨hne, heq⟩ := hsome h
    obtain ⟨⟨p, role⟩, hmem⟩ := List.exists_mem_of_ne_nil _ hne
    rw [heq]
    obtain ⟨_, _, _, _, _, _, _, _, _, _, _, hnew⟩ := (mem_missingRoutes hcp).mp hmem
    exact ⟨(p, role), .inr hmem, hnew⟩
  · obtain ⟨p, role⟩ := route
    rw [(hsome h).2] at hroute
    obtain ⟨step, nr, t_ann, p_ann, hcites, ht, hp, htann, hpann, hrole, hnot, -⟩ :=
      (mem_missingRoutes hcp).mp (hroute.resolve_left hnew)
    rcases hrole with hend | hrouted
    · exact ⟨(∅, (p, role)), ⟨step, nr, p, t_ann, p_ann, role, hcites, ht, hp, htann, hpann, hnot,
        rfl, .inr ⟨hend, rfl⟩⟩, Set.empty_subset _, rfl⟩
    · exact ⟨({(step.performative, role)}, (p, role)), ⟨step, nr, p, t_ann, p_ann, role, hcites, ht,
        hp, htann, hpann, hnot, rfl, .inl rfl⟩, Set.singleton_subset_iff.mpr hrouted, rfl⟩

/-- **The derived routes are those the clauses force.** -/
theorem routesOf_deriveEnvelopeRoutes (d : Dialect) :
    routesOf (deriveEnvelopeRoutes d) = {route | Derived (routeClauses d) ∅ route} := by
  unfold deriveEnvelopeRoutes
  cases hcp : d.causal_protocol with
  | none =>
      rw [routesOf_empty]
      refine (Set.eq_empty_of_forall_notMem fun route hroute => ?_).symm
      refine hroute.mem (Set.empty_subset ∅) ?_
      rintro c ⟨_, _, _, _, _, _, ⟨cp, hsome, -⟩, -⟩
      cases hcp.symm.trans hsome
  | some cp =>
      dsimp only
      rw [routePasses_eq, ← routesOf_empty]
      -- Routes go from a cited performative to an endpoint of some annotation.
      let roles := (valuesOf d.roleLayer.annotations).flatMap fun ann => (endpoints ann).toList
      let U : Set (String × String) := {f | f ∈ (citedNames cp).product roles}
      have hroles : roles.length = ((valuesOf d.roleLayer.annotations).map fun ann =>
          (endpoints ann).size).sum := by
        rw [List.length_flatMap]
        exact congrArg List.sum (List.map_congr_left fun ann _ => Std.ExtTreeSet.length_toList)
      refine (passes_routePass hcp).facts_eq (List.finite_toSet _) (subset_refl U)
        (fun c hc hpremises => ?_) (by rw [routesOf_empty]; exact Set.empty_subset U) ?_
      · obtain ⟨step, nr, p, t_ann, p_ann, role, hcites, -, -, htann, -, -, heq, hshape⟩ := hc
        rw [heq]
        refine List.mem_product.mpr ⟨mem_citedNames hcp hcites, ?_⟩
        rcases hshape with hone | ⟨hend, -⟩
        · have hpremise : (step.performative, role) ∈ c.1 := by rw [hone]; rfl
          exact (List.mem_product.mp (hpremises hpremise)).2
        · exact List.mem_flatMap.mpr ⟨t_ann, (mem_valuesOf_iff _ _).mpr ⟨_, htann⟩,
            Std.ExtTreeSet.mem_toList.mpr hend⟩
      · rw [← hroles]
        exact Nat.lt_succ_of_le (ncard_pairs_le _ _ _)

/-- **The derived routes are the least table that covers every citation.** -/
theorem isLeast_deriveEnvelopeRoutes (d : Dialect) :
    IsLeast {X | ∀ step nr p, Cites d step nr p → step.performative ≠ BEGIN_KEYWORD →
        p ≠ BEGIN_KEYWORD → Covers d X step.performative p}
      (routesOf (deriveEnvelopeRoutes d)) := by
  rw [routesOf_deriveEnvelopeRoutes]
  obtain ⟨⟨-, hclosed⟩, hleast⟩ := isLeast_derived (routeClauses d) ∅
  exact ⟨closedUnder_routeClauses.mp hclosed, fun X hX =>
    hleast ⟨Set.empty_subset X, closedUnder_routeClauses.mpr hX⟩⟩

/-- The last pass finds nothing. -/
theorem missingRoutes_deriveEnvelopeRoutes {d : Dialect} {cp : CausalProtocol}
    (hcp : d.causal_protocol = some cp) : missingRoutes d cp (deriveEnvelopeRoutes d) = [] := by
  refine List.eq_nil_iff_forall_not_mem.mpr fun ⟨p, role⟩ hmem => ?_
  obtain ⟨step, nr, t_ann, p_ann, hcites, ht, hp, htann, hpann, hrole, hnot, hnew⟩ :=
    (mem_missingRoutes hcp).mp hmem
  have hcovers := (isLeast_deriveEnvelopeRoutes d).1 step nr p hcites ht hp
  exact (hcovers t_ann p_ann htann hpann role hrole).elim hnot hnew

-- ── Routes of occupants ────

section Role

variable (d : Dialect) (role : String) (occupants : BTreeSet AgentKey)

/-- The occupants of a role receive a performative under a table. -/
def Receives (X : Set (String × AgentKey)) (name : String) (ann : RoleAnnotation) : Prop :=
  role ∈ ann.to ∨ routesTo (installRoutes d) name role = true ∨ ∀ k ∈ occupants, (name, k) ∈ X

/-- A role is an endpoint of a performative under a table. -/
def Exposed (X : Set (String × AgentKey)) (name : String) (ann : RoleAnnotation) : Prop :=
  role ∈ endpoints ann ∨ routesTo (installRoutes d) name role = true ∨
    ∀ k ∈ occupants, (name, k) ∈ X

/-- The clause of a role: what its occupants send and a step that involves the role cites, they all
    receive; of the step's own instances only the recipients of the step need to. -/
def ClosesRole (X : Set (String × AgentKey)) : Prop :=
  ∀ step nr p t_ann p_ann, Cites d step nr p → annotationFor d step.performative = some t_ann →
    annotationFor d p = some p_ann → Exposed d role occupants X step.performative t_ann →
    (isOwn nr = true → Receives d role occupants X step.performative t_ann) → p_ann.from = role →
    Receives d role occupants X p p_ann

/-- The clauses of a role, which force one route each: a step that involves the role on its own
    account, or one that is routed to all occupants. -/
def roleClauses : Set (Set (String × AgentKey) × (String × AgentKey)) :=
  {c | ∃ step nr p t_ann p_ann, Cites d step nr p ∧
    annotationFor d step.performative = some t_ann ∧ annotationFor d p = some p_ann ∧
    p_ann.from = role ∧ ¬ Receives d role occupants ∅ p p_ann ∧ c.2.1 = p ∧ c.2.2 ∈ occupants ∧
    (c.1 = {f | f.1 = step.performative ∧ f.2 ∈ occupants} ∨
      Exposed d role occupants ∅ step.performative t_ann ∧
      (isOwn nr = true → Receives d role occupants ∅ step.performative t_ann) ∧ c.1 = ∅)}

end Role

section Occupied

variable {d : Dialect} {role : String} {occupants : BTreeSet AgentKey}

/-- Only routes make the difference to what is received without any. -/
theorem receives_iff (hsome : ∃ k, k ∈ occupants) {X : Set (String × AgentKey)} {name : String}
    {ann : RoleAnnotation} : Receives d role occupants X name ann ↔
      Receives d role occupants ∅ name ann ∨ ∀ k ∈ occupants, (name, k) ∈ X := by
  obtain ⟨k, hk⟩ := hsome
  have hempty : ¬ ∀ k ∈ occupants, (name, k) ∈ (∅ : Set (String × AgentKey)) := fun h => h k hk
  unfold Receives
  tauto

theorem exposed_iff (hsome : ∃ k, k ∈ occupants) {X : Set (String × AgentKey)} {name : String}
    {ann : RoleAnnotation} : Exposed d role occupants X name ann ↔
      Exposed d role occupants ∅ name ann ∨ ∀ k ∈ occupants, (name, k) ∈ X := by
  obtain ⟨k, hk⟩ := hsome
  have hempty : ¬ ∀ k ∈ occupants, (name, k) ∈ (∅ : Set (String × AgentKey)) := fun h => h k hk
  unfold Exposed
  tauto

/-- A table is closed under the clauses of a role if it closes the role. -/
theorem closedUnder_roleClauses (hsome : ∃ k, k ∈ occupants) {X : Set (String × AgentKey)} :
    ClosedUnder (roleClauses d role occupants) X ↔ ClosesRole d role occupants X := by
  constructor
  · intro hclosed step nr p t_ann p_ann hcites htann hpann hexposed hown hfrom
    by_cases hreceives : Receives d role occupants ∅ p p_ann
    · exact (receives_iff hsome).mpr (.inl hreceives)
    refine .inr (.inr fun k hk => ?_)
    by_cases hrouted : ∀ k ∈ occupants, (step.performative, k) ∈ X
    · refine hclosed ({f | f.1 = step.performative ∧ f.2 ∈ occupants}, (p, k)) ⟨step, nr, p, t_ann,
        p_ann, hcites, htann, hpann, hfrom, hreceives, rfl, hk, .inl rfl⟩ ?_
      rintro ⟨name, k'⟩ ⟨rfl, hk'⟩
      exact hrouted k' hk'
    · refine hclosed (∅, (p, k)) ⟨step, nr, p, t_ann, p_ann, hcites, htann, hpann, hfrom, hreceives,
        rfl, hk, .inr ⟨((exposed_iff hsome).mp hexposed).resolve_right hrouted, fun ho =>
          ((receives_iff hsome).mp (hown ho)).resolve_right hrouted, rfl⟩⟩ (Set.empty_subset X)
  · rintro hcloses ⟨premises, ⟨p, k⟩⟩ ⟨step, nr, _, t_ann, p_ann, hcites, htann, hpann, hfrom,
      hreceives, rfl, hk, hshape⟩ hpremises
    have hall : Receives d role occupants X p p_ann := by
      rcases hshape with rfl | ⟨hexposed, hown, -⟩
      · have hrouted : ∀ k ∈ occupants, (step.performative, k) ∈ X := fun k' hk' =>
          hpremises ⟨rfl, hk'⟩
        exact hcloses step nr p t_ann p_ann hcites htann hpann (.inr (.inr hrouted))
          (fun _ => .inr (.inr hrouted)) hfrom
      · exact hcloses step nr p t_ann p_ann hcites htann hpann
          ((exposed_iff hsome).mpr (.inl hexposed))
          (fun ho => (receives_iff hsome).mpr (.inl (hown ho))) hfrom
    exact ((receives_iff hsome).mp hall).resolve_left hreceives k hk

variable {routes : BTreeMap String (BTreeSet AgentKey)}

theorem occRouted_iff (hsome : ∃ k, k ∈ occupants) {name : String} :
    occRouted occupants routes name = true ↔ ∀ k ∈ occupants, (name, k) ∈ routesOf routes := by
  have hshow : ∀ k, (name, k) ∈ routesOf routes ↔ Related routes name k := fun k => Iff.rfl
  simp only [hshow]
  unfold occRouted Related
  rw [Option.any_eq_true]
  constructor
  · rintro ⟨s, hs, hall⟩ k hk
    exact ⟨s, hs, Std.ExtTreeSet.contains_iff_mem.mp
      (List.all_eq_true.mp hall k (Std.ExtTreeSet.mem_toList.mpr hk))⟩
  · intro hall
    obtain ⟨k, hk⟩ := hsome
    obtain ⟨s, hs, -⟩ := hall k hk
    refine ⟨s, hs, List.all_eq_true.mpr fun k' hk' => ?_⟩
    obtain ⟨s', hs', hmem⟩ := hall k' (Std.ExtTreeSet.mem_toList.mp hk')
    obtain rfl := Option.some.inj (hs.symm.trans hs')
    exact Std.ExtTreeSet.contains_iff_mem.mpr hmem

theorem receives_eq_true (hsome : ∃ k, k ∈ occupants) {name : String} {ann : RoleAnnotation} :
    receives d role occupants routes name ann = true ↔
      Receives d role occupants (routesOf routes) name ann := by
  unfold receives Receives
  rw [Bool.or_eq_true, Bool.or_eq_true, Std.ExtTreeSet.contains_iff_mem, occRouted_iff hsome,
    or_assoc]

theorem exposed_eq_true (hsome : ∃ k, k ∈ occupants) {name : String} {ann : RoleAnnotation} :
    exposed d role occupants routes name ann = true ↔
      Exposed d role occupants (routesOf routes) name ann := by
  unfold exposed Exposed
  rw [Bool.or_eq_true, Bool.or_eq_true, Std.ExtTreeSet.contains_iff_mem, occRouted_iff hsome,
    or_assoc]

/-- What a pass finds unobserved. -/
theorem mem_unobserved {cp : CausalProtocol} (hcp : d.causal_protocol = some cp)
    (hsome : ∃ k, k ∈ occupants) {p : String} :
    p ∈ unobserved d cp role occupants routes ↔ ∃ step nr t_ann p_ann, Cites d step nr p ∧
      annotationFor d step.performative = some t_ann ∧ annotationFor d p = some p_ann ∧
      Exposed d role occupants (routesOf routes) step.performative t_ann ∧
      (isOwn nr = true → Receives d role occupants (routesOf routes) step.performative t_ann) ∧
      p_ann.from = role ∧ ¬ Receives d role occupants (routesOf routes) p p_ann := by
  have hown : ∀ (nr : NodeRef) (name : String) (ann : RoleAnnotation),
      ¬ (isOwn nr && !receives d role occupants routes name ann) = true ↔
        (isOwn nr = true → Receives d role occupants (routesOf routes) name ann) := by
    intro nr name ann
    rw [← receives_eq_true hsome]
    cases isOwn nr <;> cases receives d role occupants routes name ann <;> decide
  unfold unobserved
  rw [List.mem_flatMap]
  constructor
  · rintro ⟨step, hstep, hmem⟩
    cases htann : annotationFor d step.performative with
    | none =>
        rw [htann] at hmem
        exact absurd hmem List.not_mem_nil
    | some t_ann =>
        rw [htann] at hmem
        dsimp only at hmem
        by_cases hexposed : exposed d role occupants routes step.performative t_ann = true
        case neg =>
          rw [if_neg hexposed] at hmem
          exact absurd hmem List.not_mem_nil
        rw [if_pos hexposed] at hmem
        obtain ⟨nr, hnr, hmem⟩ := List.mem_flatMap.mp hmem
        by_cases hskip : (isOwn nr && !receives d role occupants routes step.performative t_ann)
            = true
        · rw [if_pos hskip] at hmem
          exact absurd hmem List.not_mem_nil
        rw [if_neg hskip] at hmem
        obtain ⟨hpred, hkept⟩ := List.mem_filter.mp hmem
        cases hpann : annotationFor d p with
        | none =>
            rw [hpann] at hkept
            exact nomatch hkept
        | some p_ann =>
            rw [hpann] at hkept
            obtain ⟨hfrom, hnot⟩ := Bool.and_eq_true_iff.mp hkept
            refine ⟨step, nr, t_ann, p_ann, ⟨cp, hcp, hstep, hnr, hpred⟩, htann, rfl,
              (exposed_eq_true hsome).mp hexposed, (hown nr _ t_ann).mp hskip,
              of_decide_eq_true hfrom, fun hreceives => ?_⟩
            rw [(receives_eq_true hsome).mpr hreceives] at hnot
            exact nomatch hnot
  · rintro ⟨step, nr, t_ann, p_ann, ⟨cp', hcp', hstep, hnr, hpred⟩, htann, hpann, hexposed, ho,
      hfrom, hnot⟩
    obtain rfl := Option.some.inj (hcp.symm.trans hcp')
    refine ⟨step, hstep, ?_⟩
    rw [htann]
    dsimp only
    rw [if_pos ((exposed_eq_true hsome).mpr hexposed)]
    refine List.mem_flatMap.mpr ⟨nr, hnr, ?_⟩
    rw [if_neg ((hown nr _ t_ann).mpr ho)]
    refine List.mem_filter.mpr ⟨hpred, ?_⟩
    rw [hpann]
    refine Bool.and_eq_true_iff.mpr ⟨decide_eq_true hfrom, ?_⟩
    cases hreceives : receives d role occupants routes p p_ann with
    | false => rfl
    | true => exact absurd ((receives_eq_true hsome).mp hreceives) hnot

/-- The routes after some performatives have been routed to all occupants. -/
theorem routesOf_foldl_occupants : ∀ (frontier : List String)
    (routes : BTreeMap String (BTreeSet AgentKey)),
    routesOf (frontier.foldl (fun routes pred =>
      routes.insert pred (occupants.toList.foldl (·.insert ·) ((routes[pred]?).getD ∅))) routes)
      = routesOf routes ∪ {route | route.1 ∈ frontier ∧ route.2 ∈ occupants} := by
  intro frontier
  induction frontier with
  | nil =>
      intro routes
      ext route
      exact (or_iff_left fun h => List.not_mem_nil h.1).symm
  | cons pred frontier ih =>
      intro routes
      rw [List.foldl_cons, ih]
      ext ⟨a, b⟩
      have hone := related_insert_foldl routes pred occupants.toList a b
      rw [Std.ExtTreeSet.mem_toList] at hone
      show Related _ a b ∨ (a ∈ frontier ∧ b ∈ occupants) ↔
        Related routes a b ∨ (a ∈ pred :: frontier ∧ b ∈ occupants)
      rw [hone, List.mem_cons, or_and_right, or_assoc]

/-- The passes for a role look for what its clauses force. -/
theorem passes_occupantPass {cp : CausalProtocol} (hcp : d.causal_protocol = some cp)
    (hsome : ∃ k, k ∈ occupants) :
    Passes routesOf (occupantPass d cp role occupants) (roleClauses d role occupants) := by
  have hpass : ∀ {t t'}, occupantPass d cp role occupants t = some t' →
      unobserved d cp role occupants t ≠ [] ∧ routesOf t' = routesOf t ∪
        {route | route.1 ∈ unobserved d cp role occupants t ∧ route.2 ∈ occupants} := by
    intro t t' h
    unfold occupantPass at h
    cases hunobserved : unobserved d cp role occupants t with
    | nil =>
        rw [hunobserved] at h
        exact nomatch h
    | cons pred frontier =>
        rw [hunobserved] at h
        obtain rfl := Option.some.inj h
        exact ⟨List.cons_ne_nil _ _, routesOf_foldl_occupants _ _⟩
  refine ⟨fun {t} h => ?_, fun {t t'} h => ?_, fun {t t'} h => ?_,
    fun {t t'} h route hroute hnew => ?_⟩
  · have hnone : unobserved d cp role occupants t = [] := by
      unfold occupantPass at h
      cases hunobserved : unobserved d cp role occupants t with
      | nil => rfl
      | cons pred frontier =>
          rw [hunobserved] at h
          exact nomatch h
    refine (closedUnder_roleClauses hsome).mpr fun step nr p t_ann p_ann hcites htann hpann hexposed
      hown hfrom => ?_
    by_contra hno
    have hmem := (mem_unobserved hcp hsome).mpr
      ⟨step, nr, t_ann, p_ann, hcites, htann, hpann, hexposed, hown, hfrom, hno⟩
    rw [hnone] at hmem
    exact List.not_mem_nil hmem
  · rw [(hpass h).2]
    exact Set.subset_union_left
  · obtain ⟨hne, heq⟩ := hpass h
    obtain ⟨p, hmem⟩ := List.exists_mem_of_ne_nil _ hne
    obtain ⟨_, _, _, p_ann, _, _, _, _, _, _, hnot⟩ := (mem_unobserved hcp hsome).mp hmem
    obtain ⟨k, hk⟩ : ∃ k ∈ occupants, (p, k) ∉ routesOf t := by
      by_contra hall
      exact hnot (.inr (.inr fun k hk => by_contra fun hno => hall ⟨k, hk, hno⟩))
    rw [heq]
    exact ⟨(p, k), .inr ⟨hmem, hk.1⟩, hk.2⟩
  · rw [(hpass h).2] at hroute
    obtain ⟨hmem, hk⟩ := hroute.resolve_left hnew
    obtain ⟨step, nr, t_ann, p_ann, hcites, htann, hpann, hexposed, hown, hfrom, hnot⟩ :=
      (mem_unobserved hcp hsome).mp hmem
    have hnot' : ¬ Receives d role occupants ∅ route.1 p_ann := fun hreceives =>
      hnot ((receives_iff hsome).mpr (.inl hreceives))
    by_cases hrouted : ∀ k ∈ occupants, (step.performative, k) ∈ routesOf t
    · refine ⟨({f | f.1 = step.performative ∧ f.2 ∈ occupants}, route), ⟨step, nr, _, t_ann, p_ann,
        hcites, htann, hpann, hfrom, hnot', rfl, hk, .inl rfl⟩, ?_, rfl⟩
      rintro ⟨name, k'⟩ ⟨rfl, hk'⟩
      exact hrouted k' hk'
    · exact ⟨(∅, route), ⟨step, nr, _, t_ann, p_ann, hcites, htann, hpann, hfrom, hnot', rfl, hk,
        .inr ⟨((exposed_iff hsome).mp hexposed).resolve_right hrouted, fun ho =>
          ((receives_iff hsome).mp (hown ho)).resolve_right hrouted, rfl⟩⟩, Set.empty_subset _, rfl⟩

/-- **A role adds what its clauses force.** -/
theorem routesOf_occupantPasses {cp : CausalProtocol} (hcp : d.causal_protocol = some cp)
    (hsome : ∃ k, k ∈ occupants) (routes : BTreeMap String (BTreeSet AgentKey)) :
    routesOf (occupantPasses d cp role occupants routes)
      = {route | Derived (roleClauses d role occupants) (routesOf routes) route} := by
  let U : Set (String × AgentKey) := {f | f ∈ (citedNames cp).product occupants.toList}
  refine (passes_occupantPass hcp hsome).facts_eq (List.finite_toSet _)
    (Set.subset_union_right : U ⊆ routesOf routes ∪ U) (fun c hc _ => ?_) Set.subset_union_left ?_
  · obtain ⟨step, nr, p, t_ann, p_ann, hcites, -, -, -, -, hp, hk, -⟩ := hc
    exact List.mem_product.mpr ⟨hp ▸ mem_citedNames hcp hcites, Std.ExtTreeSet.mem_toList.mpr hk⟩
  · rw [← Std.ExtTreeSet.length_toList]
    exact Nat.lt_succ_of_le (ncard_pairs_le _ _ _)

/-- The last pass for a role finds nothing. -/
theorem unobserved_occupantPasses {cp : CausalProtocol} (hcp : d.causal_protocol = some cp)
    (hsome : ∃ k, k ∈ occupants) (routes : BTreeMap String (BTreeSet AgentKey)) :
    unobserved d cp role occupants (occupantPasses d cp role occupants routes) = [] := by
  have hclosed := (isLeast_derived (roleClauses d role occupants) (routesOf routes)).1.2
  rw [← routesOf_occupantPasses hcp hsome, closedUnder_roleClauses hsome] at hclosed
  refine List.eq_nil_iff_forall_not_mem.mpr fun p hmem => ?_
  obtain ⟨step, nr, t_ann, p_ann, hcites, htann, hpann, hexposed, hown, hfrom, hnot⟩ :=
    (mem_unobserved hcp hsome).mp hmem
  exact hnot (hclosed step nr p t_ann p_ann hcites htann hpann hexposed hown hfrom)

end Occupied

-- ── Role by role ────

/-- The indexed roles of a dialect with two occupants or more, in its order. -/
def sharedRoles (d : Dialect) (cast : Cast) : List (String × BTreeSet AgentKey) :=
  d.roles.filterMap (sharedRole cast)

/-- A shared role has occupants. -/
theorem exists_occupant {d : Dialect} {cast : Cast} {r : String × BTreeSet AgentKey}
    (h : r ∈ sharedRoles d cast) : ∃ k, k ∈ r.2 := by
  obtain ⟨role, -, hrole⟩ := List.mem_filterMap.mp h
  have hsize : 2 ≤ r.2.size := by
    unfold sharedRole at hrole
    cases hcard : role.cardinality with
    | singleton =>
        rw [hcard] at hrole
        exact nomatch hrole
    | indexed =>
        rw [hcard] at hrole
        cases hoccupants : cast.indexed[role.name]? with
        | none =>
            rw [hoccupants] at hrole
            exact nomatch hrole
        | some occupants =>
            rw [hoccupants] at hrole
            dsimp only at hrole
            by_cases hfew : occupants.size < 2
            · rw [if_pos hfew] at hrole
              exact nomatch hrole
            · rw [if_neg hfew] at hrole
              obtain rfl := Option.some.inj hrole
              exact Nat.le_of_not_lt hfew
  rw [← Std.ExtTreeSet.length_toList] at hsize
  obtain ⟨k, hk⟩ := List.exists_mem_of_length_pos (Nat.lt_of_lt_of_le (by decide) hsize)
  exact ⟨k, Std.ExtTreeSet.mem_toList.mp hk⟩

/-- The clauses of the shared roles, in the order of the dialect. -/
def clausesInTurn (d : Dialect) (cast : Cast) :
    List (Set (Set (String × AgentKey) × (String × AgentKey))) :=
  (sharedRoles d cast).map fun r => roleClauses d r.1 r.2

/-- One role's turn, if several occupants share it. -/
def closeRole (d : Dialect) (cp : CausalProtocol) (cast : Cast)
    (routes : BTreeMap String (BTreeSet AgentKey)) (role : RoleDecl) :
    BTreeMap String (BTreeSet AgentKey) :=
  match sharedRole cast role with
  | none => routes
  | some (name, occupants) => occupantPasses d cp name occupants routes

/-- **The routes of occupants are what the roles force in turn.** -/
theorem routesOf_deriveOccupantEnvelopeRoutes (d : Dialect) (cast : Cast) :
    routesOf (deriveOccupantEnvelopeRoutes d cast) = inOrder (clausesInTurn d cast) ∅ := by
  unfold deriveOccupantEnvelopeRoutes
  cases hcp : d.causal_protocol with
  | none =>
      rw [routesOf_empty]
      refine (Set.subset_eq_empty (inOrder_subset (Set.empty_subset ∅) fun C hC => ?_) rfl).symm
      obtain ⟨r, -, rfl⟩ := List.mem_map.mp hC
      rintro c ⟨_, _, _, _, _, ⟨cp, hsome, -⟩, -⟩
      cases hcp.symm.trans hsome
  | some cp =>
      dsimp only
      rw [← routesOf_empty]
      have hfold : ∀ (roles : List RoleDecl) (routes : BTreeMap String (BTreeSet AgentKey)),
          (∀ r ∈ roles.filterMap (sharedRole cast), ∃ k, k ∈ r.2) →
          routesOf (roles.foldl (closeRole d cp cast) routes)
          = inOrder ((roles.filterMap (sharedRole cast)).map fun r => roleClauses d r.1 r.2)
            (routesOf routes) := by
        intro roles
        induction roles with
        | nil => exact fun _ _ => rfl
        | cons role roles ih =>
            intro routes hsome
            rw [List.foldl_cons, closeRole]
            cases hrole : sharedRole cast role with
            | none =>
                rw [List.filterMap_cons_none hrole] at hsome ⊢
                exact ih routes hsome
            | some r =>
                rw [List.filterMap_cons_some hrole] at hsome ⊢
                have hlater := ih (occupantPasses d cp r.1 r.2 routes) fun r' hr' =>
                  hsome r' (List.mem_cons_of_mem r hr')
                rw [routesOf_occupantPasses hcp (hsome r (List.mem_cons_self ..))] at hlater
                exact hlater
      exact hfold d.roles ∅ fun r hr => exists_occupant hr

/-- A table closes all shared roles if it is closed under their clauses. -/
theorem closesRoles_iff {d : Dialect} {cast : Cast} {X : Set (String × AgentKey)} :
    (∅ ⊆ X ∧ ∀ C ∈ clausesInTurn d cast, ClosedUnder C X) ↔
      ∀ r ∈ sharedRoles d cast, ClosesRole d r.1 r.2 X := by
  constructor
  · intro h r hr
    exact (closedUnder_roleClauses (exists_occupant hr)).mp (h.2 _ (List.mem_map_of_mem hr))
  · intro h
    refine ⟨Set.empty_subset X, fun C hC => ?_⟩
    obtain ⟨r, hr, rfl⟩ := List.mem_map.mp hC
    exact (closedUnder_roleClauses (exists_occupant hr)).mpr (h r hr)

/-- What the roles force in some order they force in the order of the dialect. -/
def OrderSuffices (d : Dialect) (cast : Cast) : Prop :=
  inAnyOrder (clausesInTurn d cast) ∅ ⊆ inOrder (clausesInTurn d cast) ∅

/-- The routes of occupants are the least table that closes all roles exactly if the order of the
    roles in the dialect suffices. -/
theorem isLeast_deriveOccupantEnvelopeRoutes (d : Dialect) (cast : Cast) :
    IsLeast {X | ∀ r ∈ sharedRoles d cast, ClosesRole d r.1 r.2 X}
      (routesOf (deriveOccupantEnvelopeRoutes d cast)) ↔ OrderSuffices d cast := by
  have hiff := isLeast_inOrder_iff (clausesInTurn d cast) ∅
  simp only [closesRoles_iff] at hiff
  rw [routesOf_deriveOccupantEnvelopeRoutes]
  exact hiff

/-- **The order of roles that share no occupants suffices.** -/
theorem orderSuffices_of_disjoint {d : Dialect} {cast : Cast}
    (h : (sharedRoles d cast).Pairwise fun r r' => ∀ k ∈ r.2, k ∉ r'.2) : OrderSuffices d cast := by
  refine (isLeast_inOrder_iff _ _).mp (isLeast_inOrder ∅ (List.pairwise_map.mpr ?_))
  refine h.imp_of_mem fun {r r'} hr hr' hapart c hc c' hc' hmem => ?_
  obtain ⟨step, _, _, _, _, _, _, _, _, _, _, _, hshape⟩ := hc
  obtain ⟨_, _, _, _, _, _, _, _, _, _, _, hk, _⟩ := hc'
  rcases hshape with hall | ⟨-, -, hnone⟩
  · rw [hall] at hmem
    exact hapart _ hmem.2 hk
  · rw [hnone] at hmem
    exact hmem

/-- **The derived routes are least closures.**  The passes come to an end.  The routes of roles are
    the least table that covers every citation of a step other than `begin`.  Those of occupants lie
    in every table that closes the clause of every shared role, and are the least such table if the
    order of the roles suffices, as it does for roles that share no occupants. -/
theorem routes_least (d : Dialect) (cast : Cast) :
    (∀ cp, d.causal_protocol = some cp → missingRoutes d cp (deriveEnvelopeRoutes d) = [] ∧
      ∀ r ∈ sharedRoles d cast, ∀ routes,
        unobserved d cp r.1 r.2 (occupantPasses d cp r.1 r.2 routes) = []) ∧
    IsLeast {X | ∀ step nr p, Cites d step nr p → step.performative ≠ BEGIN_KEYWORD →
        p ≠ BEGIN_KEYWORD → Covers d X step.performative p}
      (routesOf (deriveEnvelopeRoutes d)) ∧
    (∀ X, (∀ r ∈ sharedRoles d cast, ClosesRole d r.1 r.2 X) →
      routesOf (deriveOccupantEnvelopeRoutes d cast) ⊆ X) ∧
    (OrderSuffices d cast → IsLeast {X | ∀ r ∈ sharedRoles d cast, ClosesRole d r.1 r.2 X}
      (routesOf (deriveOccupantEnvelopeRoutes d cast))) ∧
    ((sharedRoles d cast).Pairwise (fun r r' => ∀ k ∈ r.2, k ∉ r'.2) → OrderSuffices d cast) := by
  refine ⟨fun cp hcp => ⟨missingRoutes_deriveEnvelopeRoutes hcp, fun r hr routes =>
    unobserved_occupantPasses hcp (exists_occupant hr) routes⟩, isLeast_deriveEnvelopeRoutes d,
    fun X hX => ?_, (isLeast_deriveOccupantEnvelopeRoutes d cast).mpr, orderSuffices_of_disjoint⟩
  have hclosed := closesRoles_iff.mpr hX
  rw [routesOf_deriveOccupantEnvelopeRoutes]
  exact inOrder_subset hclosed.1 hclosed.2

-- ── A market ────

/-- A performative between roles. -/
def between (name «from» «to» : String) : PerformativeDef :=
  ⟨name, [], effectTemplate name, some ⟨«from», (∅ : BTreeSet String).insert «to»⟩⟩

/-- Sellers quote and buyers bid to the clerk, who makes an award to the buyers. -/
def marketDialect : Dialect :=
  { baseDialect with
    name := "market"
    performatives := [between "quote" "seller" "clerk", between "bid" "buyer" "clerk",
      between "award" "clerk" "buyer"]
    causal_protocol := some ⟨((((∅ : BTreeMap String StepDecl).insert "begin"
      ⟨"begin", [], [.single "quote"]⟩).insert "quote"
        ⟨"quote", [.single "begin"], [.single "bid"]⟩).insert "bid"
          ⟨"bid", [.single "quote"], [.single "award"]⟩).insert "award"
            ⟨"award", [.single "bid"], []⟩⟩
    roles := [⟨"seller", .indexed⟩, ⟨"buyer", .indexed⟩, ⟨"clerk", .singleton⟩]
    causal_locality := .derive ∅ }

/-- A cast of the market. -/
def marketCast (sellers buyers : List AgentKey) : Cast where
  singleton := (∅ : BTreeMap String AgentKey).insert "clerk" "@carol"
  indexed := ((∅ : BTreeMap String (BTreeSet AgentKey)).insert "seller"
    (sellers.foldl (·.insert ·) ∅)).insert "buyer" (buyers.foldl (·.insert ·) ∅)
  dialect_pin := none

/-- A dialect that annotates its `begin`, which cites an offer. -/
def returnDialect : Dialect :=
  { baseDialect with
    name := "returns"
    performatives := [between "begin" "seller" "buyer", between "offer" "seller" "seller"]
    causal_protocol := some ⟨((∅ : BTreeMap String StepDecl).insert "begin"
      ⟨"begin", [.single "offer"], []⟩).insert "offer" ⟨"offer", [.single "begin"], []⟩⟩
    causal_locality := .derive ∅ }

/-- The steps of a protocol are filed under their names. -/
def KeysMatch (d : Dialect) : Prop :=
  ∀ cp, d.causal_protocol = some cp → ∀ entry ∈ cp.steps.toList, entry.2.performative = entry.1

/-- What is computed of the two dialects: an endpoint of `begin` that does not see the offer, and
    quotes that the sellers do not see though all of them have routes from the bid; with one seller,
    the bids reach both buyers. -/
theorem market_runs :
    (∀ entry ∈ (returnDialect.causal_protocol.map (·.steps.toList)).getD [],
      entry.2.performative = entry.1) ∧
    (∀ entry ∈ (marketDialect.causal_protocol.map (·.steps.toList)).getD [],
      entry.2.performative = entry.1) ∧
    (⟨"begin", [.single "offer"], []⟩ : StepDecl) ∈
      (returnDialect.causal_protocol.map fun cp => valuesOf cp.steps).getD [] ∧
    (annotationFor returnDialect "begin" = some ⟨"seller", (∅ : BTreeSet String).insert "buyer"⟩ ∧
      annotationFor returnDialect "offer"
        = some ⟨"seller", (∅ : BTreeSet String).insert "seller"⟩) ∧
    "buyer" ∉ ((deriveEnvelopeRoutes returnDialect)["offer"]?).getD ∅ ∧
    (⟨"bid", [.single "quote"], [.single "award"]⟩ : StepDecl) ∈
      (marketDialect.causal_protocol.map fun cp => valuesOf cp.steps).getD [] ∧
    (annotationFor marketDialect "bid" = some ⟨"buyer", (∅ : BTreeSet String).insert "clerk"⟩ ∧
      annotationFor marketDialect "quote"
        = some ⟨"seller", (∅ : BTreeSet String).insert "clerk"⟩) ∧
    (∃ r ∈ sharedRoles marketDialect (marketCast ["@alice", "@bob"] ["@alice", "@bob"]),
      r.1 = "seller" ∧ r.2.toList = ["@alice", "@bob"]) ∧
    (∀ k ∈ ["@alice", "@bob"], k ∈ ((deriveOccupantEnvelopeRoutes marketDialect
      (marketCast ["@alice", "@bob"] ["@alice", "@bob"]))["bid"]?).getD ∅) ∧
    "@bob" ∉ ((deriveOccupantEnvelopeRoutes marketDialect
      (marketCast ["@alice", "@bob"] ["@alice", "@bob"]))["quote"]?).getD ∅ ∧
    (sharedRoles marketDialect (marketCast ["@sam"] ["@alice", "@bob"])).length = 1 ∧
    "@bob" ∈ ((deriveOccupantEnvelopeRoutes marketDialect
      (marketCast ["@sam"] ["@alice", "@bob"]))["bid"]?).getD ∅ := by
  decide +kernel

/-- Where no other role is shared, the bids of the two buyers reach both of them. -/
theorem routes_least_market :
    IsLeast {X | ∀ r ∈ sharedRoles marketDialect (marketCast ["@sam"] ["@alice", "@bob"]),
        ClosesRole marketDialect r.1 r.2 X}
      (routesOf (deriveOccupantEnvelopeRoutes marketDialect
        (marketCast ["@sam"] ["@alice", "@bob"]))) ∧
    "@bob" ∈ ((deriveOccupantEnvelopeRoutes marketDialect
      (marketCast ["@sam"] ["@alice", "@bob"]))["bid"]?).getD ∅ := by
  obtain ⟨-, -, -, -, -, -, -, -, -, -, hone, hbob⟩ := market_runs
  obtain ⟨-, -, -, hleast, hdisjoint⟩ :=
    routes_least marketDialect (marketCast ["@sam"] ["@alice", "@bob"])
  refine ⟨hleast (hdisjoint ?_), hbob⟩
  obtain ⟨r, hr⟩ := List.length_eq_one_iff.mp hone
  rw [hr]
  exact List.pairwise_singleton _ _

/-- **The routes miss an annotated `begin` and what a later role brings about**: the endpoints of
    `begin` need not see what it cites, and a role is not taken again when a later one routes a step
    to its occupants. -/
theorem routes_not_least :
    (¬ ∀ d, KeysMatch d → IsLeast {X | ∀ step nr p, Cites d step nr p → p ≠ BEGIN_KEYWORD →
      Covers d X step.performative p} (routesOf (deriveEnvelopeRoutes d))) ∧
    ¬ ∀ d cast, KeysMatch d → IsLeast {X | ∀ r ∈ sharedRoles d cast, ClosesRole d r.1 r.2 X}
      (routesOf (deriveOccupantEnvelopeRoutes d cast)) := by
  obtain ⟨hreturn, hmarket, hbegin, ⟨hbann, hoann⟩, hunseen, hbid, ⟨hbidann, hquoteann⟩,
    ⟨r, hr, hname, hoccupants⟩, hrouted, hunrouted, -⟩ := market_runs
  constructor
  · intro hall
    have hcovers := (hall returnDialect fun cp hcp => by rw [hcp] at hreturn; exact hreturn).1
      _ (.single "offer") "offer" ⟨_, rfl, hbegin, List.mem_singleton_self _,
        List.mem_singleton_self _⟩ (by decide)
    rcases hcovers _ _ hbann hoann "buyer" (.inl (by decide)) with hend | hroute
    · exact absurd hend (by decide)
    · exact hunseen (related_iff_getD.mp hroute)
  · intro hall
    have hcloses := (hall marketDialect (marketCast ["@alice", "@bob"] ["@alice", "@bob"])
      fun cp hcp => by rw [hcp] at hmarket; exact hmarket).1 r hr
    have hreached : ∀ k ∈ r.2, ("bid", k) ∈ routesOf (deriveOccupantEnvelopeRoutes marketDialect
        (marketCast ["@alice", "@bob"] ["@alice", "@bob"])) := fun k hk =>
      related_iff_getD.mpr (hrouted k (hoccupants ▸ Std.ExtTreeSet.mem_toList.mpr hk))
    have hbob : "@bob" ∈ r.2 := Std.ExtTreeSet.mem_toList.mp (hoccupants ▸ by decide)
    rcases hcloses _ (.single "quote") "quote" _ _ ⟨_, rfl, hbid, List.mem_singleton_self _,
      List.mem_singleton_self _⟩ hbidann hquoteann (.inr (.inr hreached))
      (fun _ => .inr (.inr hreached)) hname.symm with hto | hinstalled | hquoted
    · rw [hname] at hto
      exact absurd hto (by decide)
    · rw [hname] at hinstalled
      exact absurd hinstalled (by decide)
    · exact hunrouted (related_iff_getD.mp (hquoted "@bob" hbob))

end CbclRoutes
