import Cbcl.TreeMapProofs

/-!
# Searching a finite graph

Two searches over a graph given by its successor lists, outside of which lies a finite
support:

    visit : depth-first, three colours, a path stack; every back edge is reported as a cycle
    flood : marks a vertex when it is pushed; returns what is reachable

The colouring search carries one invariant, `Coloured`: the gray vertices are the path, the
path is a walk, every report is a cycle, and as long as nothing is reported the black
vertices are closed under successors and lie on no cycle.  A whole search therefore reports
nothing exactly on an acyclic graph.
-/

namespace CbclGraphSearch

open Std

variable {κ : Type} [Ord κ] [TransOrd κ] [LawfulEqOrd κ] [DecidableEq κ]

/-- An edge of the graph. -/
def Edge (succ : κ → List κ) (a b : κ) : Prop := b ∈ succ a

/-- No vertex reaches itself over one or more edges. -/
def Acyclic (r : κ → κ → Prop) : Prop := ∀ x, ¬ Relation.TransGen r x x

/-- The vertices of a cycle in order: distinct, a walk, and an edge back to the first. -/
structure IsCycle (r : κ → κ → Prop) (vertices : List κ) : Prop where
  nodup : vertices.Nodup
  walk : vertices.IsChain r
  closes : ∃ first last, vertices.head? = some first ∧ vertices.getLast? = some last ∧
    r last first

omit [Ord κ] [TransOrd κ] [LawfulEqOrd κ] [DecidableEq κ] in
/-- A walk leads from its first vertex to its last. -/
theorem walk_reaches {r : κ → κ → Prop} : ∀ {vertices : List κ} {first last : κ},
    vertices.IsChain r → vertices.head? = some first → vertices.getLast? = some last →
      Relation.ReflTransGen r first last
  | [x], first, last, _, hf, hl => by
      injection hf with hf
      rw [List.getLast?_singleton] at hl
      injection hl with hl
      rw [← hf, ← hl]
  | x :: y :: rest, first, last, hw, hf, hl => by
      injection hf with hf
      subst hf
      obtain ⟨hxy, hw⟩ := List.isChain_cons_cons.mp hw
      have htail := walk_reaches hw rfl (by rw [← hl, List.getLast?_cons_cons])
      exact Relation.ReflTransGen.head hxy htail

omit [Ord κ] [TransOrd κ] [LawfulEqOrd κ] [DecidableEq κ] in
/-- A listed cycle is a cycle. -/
theorem IsCycle.transGen {r : κ → κ → Prop} {vertices : List κ} (h : IsCycle r vertices) :
    ∃ x, Relation.TransGen r x x := by
  obtain ⟨first, last, hf, hl, hback⟩ := h.closes
  exact ⟨first, Relation.TransGen.tail' (walk_reaches h.walk hf hl) hback⟩

-- ── The colouring search ────

/-- The state of the search: 0 white, 1 gray, 2 black. -/
structure Search (κ : Type) [Ord κ] where
  color : ExtTreeMap κ Nat compare
  path : List κ
  cycles : List (List κ)

/-- Colour `node` gray, look at its successors, report every back edge, colour it black. -/
def visit (succ : κ → List κ) : Nat → κ → Search κ → Search κ
  | 0, _, s => s
  | fuel + 1, node, s =>
      let entered := { s with color := s.color.insert node 1, path := s.path ++ [node] }
      let explored := (succ node).foldl (fun s next =>
        match s.color.getD next 0 with
        | 0 => visit succ fuel next s
        | 1 =>
            if next ∈ s.path then
              { s with cycles := s.cycles ++ [s.path.drop (s.path.idxOf next)] }
            else s
        | _ => s) entered
      { explored with path := explored.path.dropLast, color := explored.color.insert node 2 }

/-- The colour of a vertex. -/
def Search.at (s : Search κ) (x : κ) : Nat := s.color.getD x 0

/-- Look at one successor. -/
def look (succ : κ → List κ) (fuel : Nat) (s : Search κ) (next : κ) : Search κ :=
  match s.at next with
  | 0 => visit succ fuel next s
  | 1 =>
      if next ∈ s.path then
        { s with cycles := s.cycles ++ [s.path.drop (s.path.idxOf next)] }
      else s
  | _ => s

/-- Put a vertex on the path. -/
def Search.enter (s : Search κ) (node : κ) : Search κ :=
  { s with color := s.color.insert node 1, path := s.path ++ [node] }

/-- Take it off again. -/
def Search.leave (s : Search κ) (node : κ) : Search κ :=
  { s with path := s.path.dropLast, color := s.color.insert node 2 }

omit [LawfulEqOrd κ] in
theorem visit_succ (succ : κ → List κ) (fuel : Nat) (node : κ) (s : Search κ) :
    visit succ (fuel + 1) node s
      = ((succ node).foldl (look succ fuel) (s.enter node)).leave node := rfl

theorem at_insert (color : ExtTreeMap κ Nat compare) (node x : κ) (c : Nat) :
    (color.insert node c).getD x 0 = if x = node then c else color.getD x 0 := by
  rw [ExtTreeMap.getD_insert]
  by_cases h : x = node
  · rw [if_pos h, if_pos (LawfulEqCmp.compare_eq_iff_eq.mpr h.symm)]
  · rw [if_neg h, if_neg fun hc => h (LawfulEqCmp.compare_eq_iff_eq.mp hc).symm]

theorem Search.enter_at (s : Search κ) (node x : κ) :
    (s.enter node).at x = if x = node then 1 else s.at x :=
  at_insert s.color node x 1

theorem Search.leave_at (s : Search κ) (node x : κ) :
    (s.leave node).at x = if x = node then 2 else s.at x :=
  at_insert s.color node x 2

/-- The invariant of the search. -/
structure Coloured (succ : κ → List κ) (s : Search κ) : Prop where
  le_two : ∀ x, s.at x ≤ 2
  gray_iff : ∀ x, s.at x = 1 ↔ x ∈ s.path
  nodup : s.path.Nodup
  walk : s.path.IsChain (Edge succ)
  cycles : ∀ c ∈ s.cycles, IsCycle (Edge succ) c
  closed : s.cycles = [] → ∀ x, s.at x = 2 → ∀ y ∈ succ x, s.at y = 2
  acyclic : s.cycles = [] → ∀ x, s.at x = 2 → ¬ Relation.TransGen (Edge succ) x x

/-- What a stretch of the search leaves as it was: the path, and every vertex that was not
    white; reports are only added. -/
structure Progress (s s' : Search κ) : Prop where
  path : s'.path = s.path
  keeps : ∀ x, s.at x ≠ 0 → s'.at x = s.at x
  reports : s'.cycles = [] → s.cycles = []

omit [LawfulEqOrd κ] [DecidableEq κ] in
theorem Progress.refl (s : Search κ) : Progress s s := ⟨rfl, fun _ _ => rfl, id⟩

omit [LawfulEqOrd κ] [DecidableEq κ] in
theorem Progress.trans {s s' s'' : Search κ} (h : Progress s s') (h' : Progress s' s'') :
    Progress s s'' where
  path := h'.path.trans h.path
  keeps := by
    intro x hx
    have hx' : s'.at x ≠ 0 := by rw [h.keeps x hx]; exact hx
    rw [h'.keeps x hx', h.keeps x hx]
  reports := fun hc => h.reports (h'.reports hc)

/-- The white vertices of the support. -/
def whites (support : Finset κ) (s : Search κ) : Finset κ := support.filter fun x => s.at x = 0

omit [LawfulEqOrd κ] [DecidableEq κ] in
theorem Progress.whites_subset {support : Finset κ} {s s' : Search κ} (h : Progress s s') :
    whites support s' ⊆ whites support s := by
  intro x hx
  obtain ⟨hsup, hw⟩ := Finset.mem_filter.mp hx
  refine Finset.mem_filter.mpr ⟨hsup, by_contra fun hne => ?_⟩
  rw [h.keeps x hne] at hw
  exact hne hw

/-- Entering a white vertex uses it up. -/
theorem whites_enter {support : Finset κ} {s : Search κ} {node : κ} (hsup : node ∈ support)
    (hwhite : s.at node = 0) : (whites support (s.enter node)).card < (whites support s).card := by
  refine Finset.card_lt_card ⟨fun x hx => ?_, fun hsub => ?_⟩
  · obtain ⟨hs, hw⟩ := Finset.mem_filter.mp hx
    rw [Search.enter_at] at hw
    by_cases hx : x = node
    · rw [if_pos hx] at hw; exact nomatch hw
    · rw [if_neg hx] at hw
      exact Finset.mem_filter.mpr ⟨hs, hw⟩
  · have hin := hsub (Finset.mem_filter.mpr ⟨hsup, hwhite⟩)
    have hw := (Finset.mem_filter.mp hin).2
    rw [Search.enter_at, if_pos rfl] at hw
    exact nomatch hw

section Steps

variable {succ : κ → List κ} {s : Search κ} {node : κ}

/-- A white vertex that the end of the path leads to may be entered. -/
theorem Coloured.enter (h : Coloured succ s) (hwhite : s.at node = 0)
    (hlink : (s.path ++ [node]).IsChain (Edge succ)) : Coloured succ (s.enter node) where
  le_two := by
    intro x
    rw [Search.enter_at]
    split
    · decide
    · exact h.le_two x
  gray_iff := by
    intro x
    rw [Search.enter_at]
    show _ ↔ x ∈ s.path ++ [node]
    rw [List.mem_append, List.mem_singleton, ← h.gray_iff x]
    by_cases hx : x = node
    · simp [hx]
    · simp [hx]
  nodup := by
    refine List.nodup_append.mpr ⟨h.nodup, List.nodup_singleton node, ?_⟩
    rintro x hx y hy rfl
    rw [List.mem_singleton.mp hy] at hx
    rw [(h.gray_iff node).mpr hx] at hwhite
    exact nomatch hwhite
  walk := hlink
  cycles := h.cycles
  closed := by
    intro hc x hx y hy
    rw [Search.enter_at] at hx ⊢
    by_cases hxn : x = node
    · rw [if_pos hxn] at hx; exact nomatch hx
    · rw [if_neg hxn] at hx
      have hy2 := h.closed hc x hx y hy
      by_cases hyn : y = node
      · rw [hyn, hwhite] at hy2; exact nomatch hy2
      · rw [if_neg hyn]; exact hy2
  acyclic := by
    intro hc x hx
    rw [Search.enter_at] at hx
    by_cases hxn : x = node
    · rw [if_pos hxn] at hx; exact nomatch hx
    · rw [if_neg hxn] at hx
      exact h.acyclic hc x hx

omit [LawfulEqOrd κ] [DecidableEq κ] in
/-- Whatever a black vertex reaches is black, while nothing is reported. -/
theorem Coloured.black_of_reaches (h : Coloured succ s) (hc : s.cycles = []) {x y : κ}
    (hx : s.at x = 2) (hr : Relation.ReflTransGen (Edge succ) x y) : s.at y = 2 := by
  induction hr with
  | refl => exact hx
  | tail _ hstep ih => exact h.closed hc _ ih _ hstep

/-- The gray vertex at the end of the path may be left once its successors are black, or
    something is reported. -/
theorem Coloured.leave {path : List κ} (h : Coloured succ s) (hpath : s.path = path ++ [node])
    (hdone : s.cycles = [] → ∀ y ∈ succ node, s.at y = 2) : Coloured succ (s.leave node) := by
  have hgray : s.at node = 1 := (h.gray_iff node).mpr (by rw [hpath]; simp)
  have hdrop : (s.leave node).path = path := by
    show s.path.dropLast = path
    rw [hpath, List.dropLast_concat]
  have hnodup := h.nodup
  rw [hpath] at hnodup
  obtain ⟨hnp, -, hdisj⟩ := List.nodup_append.mp hnodup
  have hnotin : node ∉ path := fun hin => hdisj node hin node (by simp) rfl
  constructor
  · intro x
    rw [Search.leave_at]
    split
    · decide
    · exact h.le_two x
  · intro x
    rw [Search.leave_at, hdrop]
    by_cases hx : x = node
    · rw [if_pos hx, hx]
      exact ⟨(nomatch ·), fun h => absurd h hnotin⟩
    · rw [if_neg hx, h.gray_iff x, hpath]
      simp [hx]
  · rw [hdrop]; exact hnp
  · rw [hdrop]
    have hwalk := h.walk
    rw [hpath] at hwalk
    exact hwalk.left_of_append
  · exact h.cycles
  · intro hc x hx y hy
    rw [Search.leave_at] at hx ⊢
    by_cases hyn : y = node
    · rw [if_pos hyn]
    · rw [if_neg hyn]
      by_cases hxn : x = node
      · rw [hxn] at hy
        exact hdone hc y hy
      · rw [if_neg hxn] at hx
        exact h.closed hc x hx y hy
  · intro hc x hx hcycle
    rw [Search.leave_at] at hx
    by_cases hxn : x = node
    · -- a cycle through the vertex just left passes a black successor, which reaches only black
      subst hxn
      obtain ⟨y, hy, hback⟩ := Relation.TransGen.head'_iff.mp hcycle
      have hblack := h.black_of_reaches hc (hdone hc y hy) hback
      rw [hgray] at hblack
      exact nomatch hblack
    · rw [if_neg hxn] at hx
      exact h.acyclic hc x hx hcycle

omit [LawfulEqOrd κ] in
/-- A back edge closes the end of the path. -/
theorem Coloured.report {path : List κ} {next : κ} (h : Coloured succ s)
    (hpath : s.path = path ++ [node]) (hedge : next ∈ succ node) (hin : next ∈ s.path) :
    IsCycle (Edge succ) (s.path.drop (s.path.idxOf next)) where
  nodup := h.nodup.sublist (List.drop_sublist _ _)
  walk := h.walk.drop _
  closes := by
    have hlt : s.path.idxOf next < s.path.length := List.idxOf_lt_length_iff.mpr hin
    refine ⟨next, node, ?_, ?_, hedge⟩
    · rw [List.head?_drop, List.getElem?_eq_getElem hlt, List.getElem_idxOf hlt]
    · rw [List.getLast?_drop, if_neg (by omega), hpath, List.getLast?_concat]

end Steps

/-- **One visit.**  With fuel for every white vertex, visiting a white vertex keeps the
    invariant, leaves it black, and restores the path. -/
theorem visit_spec {succ : κ → List κ} {support : Finset κ}
    (hsup : ∀ x, ∀ y ∈ succ x, y ∈ support) : ∀ (fuel : Nat) (node : κ) (s : Search κ),
    Coloured succ s → node ∈ support → s.at node = 0 →
    (s.path ++ [node]).IsChain (Edge succ) → (whites support s).card ≤ fuel →
      Coloured succ (visit succ fuel node s) ∧ Progress s (visit succ fuel node s) ∧
        (visit succ fuel node s).at node = 2 := by
  intro fuel
  induction fuel with
  | zero =>
      intro node s _ hmem hwhite _ hfuel
      have hin : node ∈ whites support s := Finset.mem_filter.mpr ⟨hmem, hwhite⟩
      rw [Finset.card_eq_zero.mp (Nat.le_zero.mp hfuel)] at hin
      exact absurd hin (Finset.notMem_empty node)
  | succ fuel ih =>
      intro node s h hmem hwhite hlink hfuel
      have hless := whites_enter hmem hwhite
      -- the loop over the successors
      have hloop : ∀ (rest done : List κ) (a : Search κ), done ++ rest = succ node →
          Coloured succ a → Progress (s.enter node) a →
          (a.cycles = [] → ∀ y ∈ done, a.at y = 2) →
            Coloured succ (rest.foldl (look succ fuel) a) ∧
              Progress (s.enter node) (rest.foldl (look succ fuel) a) ∧
              ((rest.foldl (look succ fuel) a).cycles = [] →
                ∀ y ∈ succ node, (rest.foldl (look succ fuel) a).at y = 2) := by
        intro rest
        induction rest with
        | nil =>
            intro done a hsplit ha hp hdone
            rw [List.append_nil] at hsplit
            exact ⟨ha, hp, fun hc y hy => hdone hc y (hsplit ▸ hy)⟩
        | cons next rest ihr =>
            intro done a hsplit ha hp hdone
            have hedge : next ∈ succ node := by rw [← hsplit]; simp
            have hapath : a.path = s.path ++ [node] := hp.path
            have hsplit' : (done ++ [next]) ++ rest = succ node := by
              rw [List.append_assoc]; exact hsplit
            -- a look keeps the invariant and settles the vertex looked at
            have hlook : Coloured succ (look succ fuel a next) ∧
                Progress a (look succ fuel a next) ∧
                ((look succ fuel a next).cycles = [] → (look succ fuel a next).at next = 2) := by
              unfold look
              match hcol : a.at next with
              | 0 =>
                  have hchain : (a.path ++ [next]).IsChain (Edge succ) := by
                    rw [hapath]
                    refine hlink.append (List.isChain_singleton next) ?_
                    intro x hx y hy
                    rw [List.getLast?_concat] at hx
                    cases hx
                    cases hy
                    exact hedge
                  have hcard : (whites support a).card ≤ fuel :=
                    (Finset.card_le_card hp.whites_subset).trans (by omega)
                  obtain ⟨hv, hvp, hvn⟩ := ih next a ha (hsup node next hedge) hcol hchain hcard
                  exact ⟨hv, hvp, fun _ => hvn⟩
              | 1 =>
                  have hin := (ha.gray_iff next).mp hcol
                  rw [if_pos hin]
                  have hcyc := ha.report hapath hedge hin
                  refine ⟨⟨ha.le_two, ha.gray_iff, ha.nodup, ha.walk, ?_, ?_, ?_⟩, ⟨rfl, fun _ _ => rfl, ?_⟩, ?_⟩
                  · intro c hc
                    rcases List.mem_append.mp hc with hc | hc
                    · exact ha.cycles c hc
                    · rw [List.mem_singleton.mp hc]; exact hcyc
                  · intro hc; simp at hc
                  · intro hc; simp at hc
                  · intro hc; simp at hc
                  · intro hc; simp at hc
              | 2 => exact ⟨ha, Progress.refl a, fun _ => hcol⟩
              | n + 3 => exact absurd (ha.le_two next) (by omega)
            obtain ⟨hl, hlp, hln⟩ := hlook
            refine ihr (done ++ [next]) (look succ fuel a next) hsplit' hl (hp.trans hlp) ?_
            intro hc y hy
            rcases List.mem_append.mp hy with hy | hy
            · have hy2 := hdone (hlp.reports hc) y hy
              rw [hlp.keeps y (by rw [hy2]; exact fun h => nomatch h), hy2]
            · rw [List.mem_singleton.mp hy]; exact hln hc
      obtain ⟨ha, hp, hdone⟩ := hloop (succ node) [] (s.enter node) rfl (h.enter hwhite hlink)
        (Progress.refl _) (fun _ y hy => nomatch hy)
      rw [visit_succ]
      refine ⟨ha.leave hp.path hdone, ⟨?_, ?_, hp.reports⟩, ?_⟩
      · show List.dropLast _ = s.path
        rw [hp.path]
        exact List.dropLast_concat
      · intro x hx
        have hxn : x ≠ node := fun hxn => hx (hxn ▸ hwhite)
        have henter : (s.enter node).at x = s.at x := by rw [Search.enter_at, if_neg hxn]
        rw [Search.leave_at, if_neg hxn, hp.keeps x (by rw [henter]; exact hx), henter]
      · rw [Search.leave_at, if_pos rfl]

/-- Visit every vertex that is still white. -/
def search (succ : κ → List κ) (fuel : Nat) (vertices : List κ) : Search κ :=
  vertices.foldl (fun s node => if s.color.getD node 0 = 0 then visit succ fuel node s else s)
    ⟨∅, [], []⟩

omit [LawfulEqOrd κ] [DecidableEq κ] in
theorem Coloured.start (succ : κ → List κ) : Coloured succ (⟨∅, [], []⟩ : Search κ) := by
  have hwhite : ∀ x, (⟨∅, [], []⟩ : Search κ).at x = 0 := fun x => ExtTreeMap.getD_empty
  constructor
  · intro x
    rw [hwhite]
    decide
  · intro x
    rw [hwhite]
    simp
  · exact List.nodup_nil
  · exact List.isChain_nil
  · exact fun c hc => nomatch hc
  · intro _ x hx
    rw [hwhite] at hx
    exact nomatch hx
  · intro _ x hx
    rw [hwhite] at hx
    exact nomatch hx

/-- **The whole search.**  Over a finite support it reports cycles only, and it reports none
    exactly when the graph is acyclic. -/
theorem search_exact {succ : κ → List κ} {vertices : List κ} {fuel : Nat}
    (hsup : ∀ x, ∀ y ∈ succ x, y ∈ vertices) (hout : ∀ x, x ∉ vertices → succ x = [])
    (hfuel : vertices.toFinset.card ≤ fuel) :
    ((search succ fuel vertices).cycles = [] ↔ Acyclic (Edge succ)) ∧
      ∀ c ∈ (search succ fuel vertices).cycles, IsCycle (Edge succ) c := by
  -- every vertex passed is black afterwards
  have hrun : ∀ (rest done : List κ) (s : Search κ), done ++ rest = vertices →
      Coloured succ s → s.path = [] → (∀ x ∈ done, s.at x = 2) →
        let s' := rest.foldl
          (fun s node => if s.color.getD node 0 = 0 then visit succ fuel node s else s) s
        Coloured succ s' ∧ ∀ x ∈ vertices, s'.at x = 2 := by
    intro rest
    induction rest with
    | nil =>
        intro done s hsplit h _ hdone
        rw [List.append_nil] at hsplit
        exact ⟨h, fun x hx => hdone x (hsplit ▸ hx)⟩
    | cons node rest ih =>
        intro done s hsplit h hpath hdone
        have hsplit' : (done ++ [node]) ++ rest = vertices := by
          rw [List.append_assoc]; exact hsplit
        rw [List.foldl_cons]
        by_cases hwhite : s.color.getD node 0 = 0
        · have hmem : node ∈ vertices.toFinset := by
            rw [List.mem_toFinset, ← hsplit]; simp
          obtain ⟨hv, hp, hn⟩ := visit_spec
            (fun x y hy => List.mem_toFinset.mpr (hsup x y hy)) fuel node s h hmem hwhite
            (by rw [hpath]; exact List.isChain_singleton node)
            ((Finset.card_le_card (Finset.filter_subset _ _)).trans hfuel)
          rw [if_pos hwhite]
          refine ih (done ++ [node]) _ hsplit' hv (hp.path.trans hpath) ?_
          intro x hx
          rcases List.mem_append.mp hx with hx | hx
          · have hx2 := hdone x hx
            rw [hp.keeps x (by rw [hx2]; exact fun h => nomatch h), hx2]
          · rw [List.mem_singleton.mp hx]; exact hn
        · rw [if_neg hwhite]
          refine ih (done ++ [node]) s hsplit' h hpath ?_
          intro x hx
          rcases List.mem_append.mp hx with hx | hx
          · exact hdone x hx
          · rw [List.mem_singleton.mp hx]
            -- not white, and nothing is gray between visits
            have hgray : s.at node ≠ 1 := fun hg => by
              have hin := (h.gray_iff node).mp hg
              rw [hpath] at hin
              exact nomatch hin
            have hle := h.le_two node
            have hne : s.at node ≠ 0 := hwhite
            omega
  obtain ⟨h, hblack⟩ := hrun vertices [] ⟨∅, [], []⟩ rfl (Coloured.start succ) rfl
    (fun x hx => nomatch hx)
  refine ⟨⟨fun hc x hcycle => ?_, fun hac => ?_⟩, h.cycles⟩
  · -- the first vertex of a cycle has a successor, so it is a vertex of the graph
    obtain ⟨y, hy, -⟩ := Relation.TransGen.head'_iff.mp hcycle
    have hx : x ∈ vertices := by_contra fun hne => by
      unfold Edge at hy
      rw [hout x hne] at hy
      exact nomatch hy
    exact h.acyclic hc x (hblack x hx) hcycle
  · refine List.eq_nil_iff_forall_not_mem.mpr fun c hc => ?_
    obtain ⟨x, hx⟩ := (h.cycles c hc).transGen
    exact hac x hx

-- ── Reachability ────

/-- Mark and push the vertices not marked before. -/
def push (acc : List κ × ExtTreeSet κ compare) (v : κ) : List κ × ExtTreeSet κ compare :=
  if v ∈ acc.2 then acc else (v :: acc.1, acc.2.insert v)

/-- Pop a vertex and push its successors. -/
def flood (succ : κ → List κ) : Nat → List κ → ExtTreeSet κ compare → ExtTreeSet κ compare
  | 0, _, visited => visited
  | _ + 1, [], visited => visited
  | fuel + 1, current :: queue, visited =>
      let next := (succ current).foldl push (queue, visited)
      flood succ fuel next.1 next.2

/-- What waits plus what is not marked yet: every pop uses one up. -/
def waiting (support : Finset κ) (acc : List κ × ExtTreeSet κ compare) : Nat :=
  acc.1.length + (support.filter fun x => x ∉ acc.2).card

/-- The queue is marked, marks are reachable, and a marked vertex waits or has all its
    successors marked, up to those of `current` that are still to come. -/
structure Flooded (succ : κ → List κ) (source : κ) (current : κ → Prop)
    (acc : List κ × ExtTreeSet κ compare) : Prop where
  queued : ∀ x ∈ acc.1, x ∈ acc.2
  begun : source ∈ acc.2
  reached : ∀ x ∈ acc.2, Relation.ReflTransGen (Edge succ) source x
  closed : ∀ x ∈ acc.2, x ∈ acc.1 ∨ current x ∨ ∀ y ∈ succ x, y ∈ acc.2

section Flood

variable {succ : κ → List κ} {source : κ} {support : Finset κ}

omit [DecidableEq κ] in
theorem mem_push_iff {acc : List κ × ExtTreeSet κ compare} {v x : κ} :
    x ∈ (push acc v).2 ↔ x ∈ acc.2 ∨ x = v := by
  unfold push
  by_cases h : v ∈ acc.2
  · rw [if_pos h]
    exact ⟨Or.inl, fun hx => hx.elim id fun hx => hx ▸ h⟩
  · rw [if_neg h]
    exact (CbclTreeMap.mem_insert_iff ..).trans or_comm

omit [DecidableEq κ] in
/-- Pushing a successor of a reached vertex. -/
theorem Flooded.push {current : κ → Prop} {acc : List κ × ExtTreeSet κ compare} {v : κ}
    (h : Flooded succ source current acc)
    (hv : Relation.ReflTransGen (Edge succ) source v) :
    Flooded succ source current (push acc v) := by
  have hgrow : ∀ x ∈ acc.2, x ∈ (CbclGraphSearch.push acc v).2 :=
    fun x hx => mem_push_iff.mpr (Or.inl hx)
  have hqueue : ∀ x ∈ acc.1, x ∈ (CbclGraphSearch.push acc v).1 := by
    intro x hx
    unfold CbclGraphSearch.push
    split
    · exact hx
    · exact List.mem_cons_of_mem v hx
  refine ⟨fun x hx => ?_, hgrow _ h.begun, fun x hx => ?_, fun x hx => ?_⟩
  · by_cases hin : v ∈ acc.2
    · rw [CbclGraphSearch.push, if_pos hin] at hx ⊢
      exact h.queued x hx
    · rw [CbclGraphSearch.push, if_neg hin] at hx
      rcases List.mem_cons.mp hx with rfl | hx
      · exact mem_push_iff.mpr (Or.inr rfl)
      · exact hgrow x (h.queued x hx)
  · rcases mem_push_iff.mp hx with hx | rfl
    · exact h.reached x hx
    · exact hv
  · by_cases hin : x ∈ acc.2
    · rcases h.closed x hin with hq | hc | hall
      · exact Or.inl (hqueue x hq)
      · exact Or.inr (Or.inl hc)
      · exact Or.inr (Or.inr fun y hy => hgrow y (hall y hy))
    · have hxv : x = v := (mem_push_iff.mp hx).resolve_left hin
      subst hxv
      refine Or.inl ?_
      rw [CbclGraphSearch.push, if_neg hin]
      exact List.mem_cons_self

/-- A vertex of the support is either marked already or moves to the queue. -/
theorem waiting_push {acc : List κ × ExtTreeSet κ compare} {v : κ} (hv : v ∈ support) :
    waiting support (push acc v) = waiting support acc := by
  unfold push
  by_cases h : v ∈ acc.2
  · rw [if_pos h]
  · rw [if_neg h]
    unfold waiting
    have hset : (support.filter fun x => x ∉ acc.2.insert v)
        = (support.filter fun x => x ∉ acc.2).erase v := by
      ext x
      simp only [Finset.mem_filter, Finset.mem_erase, CbclTreeMap.mem_insert_iff]
      tauto
    have hin : v ∈ support.filter fun x => x ∉ acc.2 := Finset.mem_filter.mpr ⟨hv, h⟩
    have hpos := Finset.card_pos.mpr ⟨v, hin⟩
    rw [hset, Finset.card_erase_of_mem hin, List.length_cons]
    omega

/-- **Flooding.**  With fuel for everything that waits, exactly the reachable vertices end up
    marked. -/
theorem flood_spec (hsup : ∀ x, ∀ y ∈ succ x, y ∈ support) :
    ∀ (fuel : Nat) (queue : List κ) (visited : ExtTreeSet κ compare),
      Flooded succ source (fun _ => False) (queue, visited) →
      waiting support (queue, visited) ≤ fuel →
        ∀ x, x ∈ flood succ fuel queue visited
          ↔ Relation.ReflTransGen (Edge succ) source x := by
  -- with an empty queue the marks are closed
  have hdone : ∀ visited, Flooded succ source (fun _ => False) ([], visited) →
      ∀ x, x ∈ visited ↔ Relation.ReflTransGen (Edge succ) source x := by
    intro visited h x
    refine ⟨h.reached x, fun hr => ?_⟩
    induction hr with
    | refl => exact h.begun
    | tail _ hstep ih =>
        rcases h.closed _ ih with hq | hc | hall
        · exact nomatch hq
        · exact hc.elim
        · exact hall _ hstep
  intro fuel
  induction fuel with
  | zero =>
      intro queue visited h hfuel
      have hq : queue = [] := by
        refine List.eq_nil_of_length_eq_zero ?_
        have hle : queue.length ≤ waiting support (queue, visited) := Nat.le_add_right _ _
        omega
      subst hq
      exact hdone visited h
  | succ fuel ih =>
      intro queue visited h hfuel
      match queue with
      | [] => exact hdone visited h
      | current :: queue =>
          have hcur : Relation.ReflTransGen (Edge succ) source current :=
            h.reached current (h.queued current List.mem_cons_self)
          -- pop
          have hpop : Flooded succ source (· = current) (queue, visited) := by
            refine ⟨fun x hx => h.queued x (List.mem_cons_of_mem _ hx), h.begun, h.reached, ?_⟩
            intro x hx
            rcases h.closed x hx with hq | hc | hall
            · rcases List.mem_cons.mp hq with hq | hq
              · exact Or.inr (Or.inl hq)
              · exact Or.inl hq
            · exact hc.elim
            · exact Or.inr (Or.inr hall)
          -- push the successors
          have hloop : ∀ (vs : List κ) (acc : List κ × ExtTreeSet κ compare),
              (∀ v ∈ vs, v ∈ succ current) → Flooded succ source (· = current) acc →
                Flooded succ source (· = current) (vs.foldl CbclGraphSearch.push acc) ∧
                waiting support (vs.foldl CbclGraphSearch.push acc) = waiting support acc ∧
                (∀ x ∈ acc.2, x ∈ (vs.foldl CbclGraphSearch.push acc).2) ∧
                ∀ v ∈ vs, v ∈ (vs.foldl CbclGraphSearch.push acc).2 := by
            intro vs
            induction vs with
            | nil => exact fun acc _ ha => ⟨ha, rfl, fun _ hx => hx, fun v hv => nomatch hv⟩
            | cons v vs ihv =>
                intro acc hvs ha
                have hv := hvs v List.mem_cons_self
                obtain ⟨hf, hw, hk, hm⟩ := ihv (CbclGraphSearch.push acc v)
                  (fun u hu => hvs u (List.mem_cons_of_mem v hu)) (ha.push (hcur.tail hv))
                refine ⟨hf, hw.trans (waiting_push (hsup current v hv)),
                  fun x hx => hk x (mem_push_iff.mpr (Or.inl hx)), ?_⟩
                intro u hu
                rcases List.mem_cons.mp hu with rfl | hu
                · exact hk u (mem_push_iff.mpr (Or.inr rfl))
                · exact hm u hu
          obtain ⟨hf, hw, -, hm⟩ := hloop (succ current) (queue, visited) (fun _ hv => hv) hpop
          have hnext : Flooded succ source (fun _ => False)
              ((succ current).foldl CbclGraphSearch.push (queue, visited)) := by
            refine ⟨hf.queued, hf.begun, hf.reached, fun x hx => ?_⟩
            rcases hf.closed x hx with hq | hc | hall
            · exact Or.inl hq
            · exact Or.inr (Or.inr (hc ▸ hm))
            · exact Or.inr (Or.inr hall)
          have hless : waiting support ((succ current).foldl CbclGraphSearch.push (queue, visited))
              ≤ fuel := by
            have hone : waiting support (current :: queue, visited)
                = waiting support (queue, visited) + 1 := by
              unfold waiting
              dsimp only
              rw [List.length_cons]
              omega
            omega
          exact ih _ _ hnext hless

/-- Flooding from one vertex marks exactly what it reaches. -/
theorem mem_flood_iff (hsup : ∀ x, ∀ y ∈ succ x, y ∈ support) (hsource : source ∈ support)
    {fuel : Nat} (hfuel : support.card ≤ fuel) (x : κ) :
    x ∈ flood succ fuel [source] ((∅ : ExtTreeSet κ compare).insert source)
      ↔ Relation.ReflTransGen (Edge succ) source x := by
  have hmem : ∀ y, y ∈ (∅ : ExtTreeSet κ compare).insert source ↔ y = source := by
    intro y
    rw [CbclTreeMap.mem_insert_iff]
    simp
  refine flood_spec hsup fuel [source] _ ⟨?_, ?_, ?_, ?_⟩ ?_ x
  · intro y hy
    exact (hmem y).mpr (List.mem_singleton.mp hy)
  · exact (hmem source).mpr rfl
  · intro y hy
    rw [(hmem y).mp hy]
  · intro y hy
    exact Or.inl (List.mem_singleton.mpr ((hmem y).mp hy))
  · have hset : (support.filter fun y => y ∉ (∅ : ExtTreeSet κ compare).insert source)
        = support.erase source := by
      ext y
      simp only [Finset.mem_filter, Finset.mem_erase, hmem]
      tauto
    have hpos := Finset.card_pos.mpr ⟨source, hsource⟩
    unfold waiting
    rw [hset, Finset.card_erase_of_mem hsource, List.length_singleton]
    omega

end Flood

end CbclGraphSearch
