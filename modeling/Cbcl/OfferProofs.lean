import Mathlib.Data.List.Induction
import Mathlib.Data.List.Nodup

/-!
# Offering candidates until nothing changes

A board of accepted and refused candidates under a judge that sees the candidates accepted so
far.  A candidate is offered any number of times, in any order; a deferred one may be offered
again.

    accepted_source  : an accepted candidate was judged so over an earlier board
    refused_source   : likewise a refused one
    quiet_agree      : boards that are quiet over the same candidates accept the same ones

The last rests on one property of the judge, `Lasting`: a decision is not revised over a larger
board, unless the candidate is accepted there already.
-/

namespace CbclOffers

/-- What a judge says of a candidate. -/
inductive Judgement where
  | accept
  | defer
  | refuse
deriving DecidableEq

/-- The candidates decided so far. -/
structure Board (α : Type) where
  accepted : List α
  refused : List α
deriving DecidableEq

variable {α : Type} [DecidableEq α] {judge : List α → α → Judgement}

/-- Offer one candidate; a decided one is not judged again. -/
def offer (judge : List α → α → Judgement) (b : Board α) (a : α) : Board α :=
  if a ∈ b.accepted ∨ a ∈ b.refused then b
  else match judge b.accepted a with
    | .accept => { b with accepted := b.accepted ++ [a] }
    | .defer => b
    | .refuse => { b with refused := b.refused ++ [a] }

/-- The board after some offers. -/
def deliver (judge : List α → α → Judgement) (offers : List α) : Board α :=
  offers.foldl (offer judge) ⟨[], []⟩

/-- Another offer of any of the candidates changes nothing. -/
def Quiet (judge : List α → α → Judgement) (candidates : List α) (b : Board α) : Prop :=
  ∀ a ∈ candidates, offer judge b a = b

instance (judge : List α → α → Judgement) (candidates : List α) (b : Board α) :
    Decidable (Quiet judge candidates b) :=
  inferInstanceAs (Decidable (∀ a ∈ candidates, offer judge b a = b))

/-- Every offer is made over a board at which the candidate may be judged. -/
def Timely (judge : List α → α → Judgement) (ready : List α → α → Prop) (offers : List α) : Prop :=
  ∀ before a after, offers = before ++ a :: after → ready (deliver judge before).accepted a

-- ── One offer ────

theorem deliver_append_singleton (offers : List α) (a : α) :
    deliver judge (offers ++ [a]) = offer judge (deliver judge offers) a := by
  unfold deliver
  rw [List.foldl_append]
  rfl

/-- What one offer does. -/
theorem offer_cases (judge : List α → α → Judgement) (b : Board α) (a : α) :
    offer judge b a = b ∨
    (a ∉ b.accepted ∧ a ∉ b.refused ∧ judge b.accepted a = .accept ∧
      offer judge b a = { b with accepted := b.accepted ++ [a] }) ∨
    (a ∉ b.accepted ∧ a ∉ b.refused ∧ judge b.accepted a = .refuse ∧
      offer judge b a = { b with refused := b.refused ++ [a] }) := by
  unfold offer
  by_cases hdecided : a ∈ b.accepted ∨ a ∈ b.refused
  · exact Or.inl (if_pos hdecided)
  · obtain ⟨hacc, href⟩ := not_or.mp hdecided
    rw [if_neg hdecided]
    cases hjudge : judge b.accepted a with
    | accept => exact Or.inr (Or.inl ⟨hacc, href, rfl, rfl⟩)
    | defer => exact Or.inl rfl
    | refuse => exact Or.inr (Or.inr ⟨hacc, href, rfl, rfl⟩)

/-- A quiet board defers what it has not decided. -/
theorem Quiet.decided {candidates : List α} {b : Board α} (h : Quiet judge candidates b) {a : α}
    (ha : a ∈ candidates) : a ∈ b.accepted ∨ a ∈ b.refused ∨ judge b.accepted a = .defer := by
  by_contra hno
  obtain ⟨hacc, hno⟩ := not_or.mp hno
  obtain ⟨href, hdefer⟩ := not_or.mp hno
  have hquiet := h a ha
  unfold offer at hquiet
  rw [if_neg (not_or.mpr ⟨hacc, href⟩)] at hquiet
  cases hjudge : judge b.accepted a with
  | accept =>
      rw [hjudge] at hquiet
      have hsame : b.accepted ++ [a] = b.accepted := congrArg Board.accepted hquiet
      exact hacc (hsame ▸ List.mem_append_right _ (List.mem_singleton_self a))
  | defer => exact hdefer hjudge
  | refuse =>
      rw [hjudge] at hquiet
      have hsame : b.refused ++ [a] = b.refused := congrArg Board.refused hquiet
      exact href (hsame ▸ List.mem_append_right _ (List.mem_singleton_self a))

-- ── Runs of offers ────

/-- What is accepted stays accepted. -/
theorem accepted_subset (before after : List α) :
    (deliver judge before).accepted ⊆ (deliver judge (before ++ after)).accepted := by
  induction after using List.reverseRecOn with
  | nil => rw [List.append_nil]; exact fun _ h => h
  | append_singleton after a ih =>
      rw [← List.append_assoc, deliver_append_singleton]
      intro x hx
      rcases offer_cases judge (deliver judge (before ++ after)) a with
        heq | ⟨-, -, -, heq⟩ | ⟨-, -, -, heq⟩
      · rw [heq]
        exact ih hx
      · rw [heq]
        exact List.mem_append_left _ (ih hx)
      · rw [heq]
        exact ih hx

/-- Nothing is both accepted and refused, and nothing is accepted twice. -/
theorem deliver_disjoint (offers : List α) :
    (∀ a ∈ (deliver judge offers).accepted, a ∉ (deliver judge offers).refused) ∧
      (deliver judge offers).accepted.Nodup := by
  induction offers using List.reverseRecOn with
  | nil => exact ⟨(fun a ha => nomatch ha), List.nodup_nil⟩
  | append_singleton offers a ih =>
      obtain ⟨hdisj, hnodup⟩ := ih
      rw [deliver_append_singleton]
      rcases offer_cases judge (deliver judge offers) a with
        heq | ⟨hacc, href, -, heq⟩ | ⟨hacc, href, -, heq⟩
      · rw [heq]
        exact ⟨hdisj, hnodup⟩
      · rw [heq]
        refine ⟨fun x hx => ?_, ?_⟩
        · rcases List.mem_append.mp hx with hx | hx
          · exact hdisj x hx
          · rw [List.mem_singleton.mp hx]
            exact href
        · exact List.nodup_append.mpr ⟨hnodup, List.nodup_singleton a, fun x hx y hy hxy =>
            hacc (List.mem_singleton.mp hy ▸ hxy ▸ hx)⟩
      · rw [heq]
        refine ⟨fun x hx hmem => ?_, hnodup⟩
        rcases List.mem_append.mp hmem with hmem | hmem
        · exact hdisj x hx hmem
        · exact hacc (List.mem_singleton.mp hmem ▸ hx)

/-- An accepted candidate was judged acceptable over the board of an earlier offer. -/
theorem accepted_source {offers : List α} {a : α} (h : a ∈ (deliver judge offers).accepted) :
    ∃ before after, offers = before ++ a :: after ∧ a ∉ (deliver judge before).accepted ∧
      judge (deliver judge before).accepted a = .accept := by
  induction offers using List.reverseRecOn with
  | nil => exact nomatch h
  | append_singleton offers x ih =>
      have hold : a ∈ (deliver judge offers).accepted → ∃ before after,
          offers ++ [x] = before ++ a :: after ∧ a ∉ (deliver judge before).accepted ∧
            judge (deliver judge before).accepted a = .accept := fun hmem => by
        obtain ⟨before, after, rfl, hrest⟩ := ih hmem
        exact ⟨before, after ++ [x], by simp, hrest⟩
      rw [deliver_append_singleton] at h
      rcases offer_cases judge (deliver judge offers) x with
        heq | ⟨hacc, -, hjudge, heq⟩ | ⟨-, -, -, heq⟩
      · exact hold (heq ▸ h)
      · rw [heq] at h
        rcases List.mem_append.mp h with h | h
        · exact hold h
        · obtain rfl := List.mem_singleton.mp h
          exact ⟨offers, [], rfl, hacc, hjudge⟩
      · rw [heq] at h
        exact hold h

/-- A refused candidate was refused over the board of an earlier offer. -/
theorem refused_source {offers : List α} {a : α} (h : a ∈ (deliver judge offers).refused) :
    ∃ before after, offers = before ++ a :: after ∧
      judge (deliver judge before).accepted a = .refuse := by
  induction offers using List.reverseRecOn with
  | nil => exact nomatch h
  | append_singleton offers x ih =>
      have hold : a ∈ (deliver judge offers).refused → ∃ before after,
          offers ++ [x] = before ++ a :: after ∧
            judge (deliver judge before).accepted a = .refuse := fun hmem => by
        obtain ⟨before, after, rfl, hrest⟩ := ih hmem
        exact ⟨before, after ++ [x], by simp, hrest⟩
      rw [deliver_append_singleton] at h
      rcases offer_cases judge (deliver judge offers) x with
        heq | ⟨-, -, -, heq⟩ | ⟨-, -, hjudge, heq⟩
      · exact hold (heq ▸ h)
      · rw [heq] at h
        exact hold h
      · rw [heq] at h
        rcases List.mem_append.mp h with h | h
        · exact hold h
        · obtain rfl := List.mem_singleton.mp h
          exact ⟨offers, [], rfl, hjudge⟩

/-- What is accepted was offered. -/
theorem offered_of_accepted {offers : List α} {a : α} (h : a ∈ (deliver judge offers).accepted) :
    a ∈ offers := by
  obtain ⟨before, after, rfl, -⟩ := accepted_source h
  exact List.mem_append_right _ (List.mem_cons_self ..)

/-- An earlier board is one of a timely delivery too. -/
theorem Timely.left {ready : List α → α → Prop} {before after : List α}
    (h : Timely judge ready (before ++ after)) : Timely judge ready before :=
  fun front a back heq => h front a (back ++ after) (by rw [heq]; simp)

-- ── Agreement ────

/-- A decision made over a board is not revised over a larger one: there the candidate is
    accepted already, or judged the same. -/
def Lasting (judge : List α → α → Judgement) (candidates : List α)
    (ready : List α → α → Prop) : Prop :=
  ∀ offers offers' a, offers ⊆ candidates → offers' ⊆ candidates → a ∈ candidates →
    (deliver judge offers).accepted ⊆ (deliver judge offers').accepted →
      ready (deliver judge offers).accepted a → judge (deliver judge offers).accepted a ≠ .defer →
        a ∈ (deliver judge offers').accepted ∨
          judge (deliver judge offers').accepted a = judge (deliver judge offers).accepted a

variable {candidates : List α} {ready : List α → α → Prop}

/-- A quiet board accepts what any board of the same candidates accepts. -/
theorem accepted_subset_of_quiet (hlast : Lasting judge candidates ready) {offers offers' : List α}
    (hsub : offers ⊆ candidates) (hsub' : offers' ⊆ candidates)
    (htimely : Timely judge ready offers) (htimely' : Timely judge ready offers')
    (hquiet : Quiet judge candidates (deliver judge offers')) :
    (deliver judge offers).accepted ⊆ (deliver judge offers').accepted := by
  induction offers using List.reverseRecOn with
  | nil => exact fun a ha => nomatch ha
  | append_singleton offers x ih =>
      have hleft : offers ⊆ candidates := fun a ha => hsub (List.mem_append_left _ ha)
      have hx : x ∈ candidates := hsub (List.mem_append_right _ (List.mem_singleton_self x))
      have hsmaller := ih hleft htimely.left
      rw [deliver_append_singleton]
      rcases offer_cases judge (deliver judge offers) x with
        heq | ⟨-, -, hjudge, heq⟩ | ⟨-, -, -, heq⟩
      · rw [heq]
        exact hsmaller
      · rw [heq]
        intro a ha
        rcases List.mem_append.mp ha with ha | ha
        · exact hsmaller ha
        obtain rfl := List.mem_singleton.mp ha
        -- the quiet board has decided the candidate, and not against it
        by_contra hno
        have hsame := (hlast offers offers' a hleft hsub' hx hsmaller
          (htimely offers a [] rfl) (by rw [hjudge]; exact nofun)).resolve_left hno
        rw [hjudge] at hsame
        rcases hquiet.decided hx with hacc | href | hdefer
        · exact hno hacc
        · obtain ⟨before, after, rfl, hrefuse⟩ := refused_source href
          have hkept := (hlast before _ a (fun y hy => hsub' (List.mem_append_left _ hy)) hsub' hx
            (accepted_subset before _) (htimely' before a after rfl)
            (by rw [hrefuse]; exact nofun)).resolve_left hno
          rw [hsame, hrefuse] at hkept
          exact nomatch hkept
        · rw [hsame] at hdefer
          exact nomatch hdefer
      · rw [heq]
        exact hsmaller

/-- **Quiet boards agree.**  Timely deliveries of the same candidates accept the same ones, and
    none accepts what another refuses. -/
theorem quiet_agree (hlast : Lasting judge candidates ready) {offers offers' : List α}
    (hsub : offers ⊆ candidates) (hsub' : offers' ⊆ candidates)
    (htimely : Timely judge ready offers) (htimely' : Timely judge ready offers')
    (hquiet : Quiet judge candidates (deliver judge offers))
    (hquiet' : Quiet judge candidates (deliver judge offers')) :
    (∀ a, a ∈ (deliver judge offers).accepted ↔ a ∈ (deliver judge offers').accepted) ∧
      ∀ a ∈ (deliver judge offers).refused, a ∉ (deliver judge offers').accepted := by
  have hforth := accepted_subset_of_quiet hlast hsub hsub' htimely htimely' hquiet'
  have hback := accepted_subset_of_quiet hlast hsub' hsub htimely' htimely hquiet
  refine ⟨fun a => ⟨fun h => hforth h, fun h => hback h⟩, ?_⟩
  intro a href hacc
  exact (deliver_disjoint offers).1 a (hback hacc) href

end CbclOffers
