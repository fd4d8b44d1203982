import Cbcl.PositionsModel
import Cbcl.Sha256Model
import Cbcl.StoreExtensionProofs
import Cbcl.ThreadedStoreModel
import Cbcl.VerdictShapeProofs

/-!
# A resolved verdict is stable under store growth

For stores `S` and `S'` with `Extends S S'` (and, on a cited ancestry, with `Grows`):

    verifyCausal_stable        : Valid stays Valid, a Violation stays a Violation
    verifyCausalForRole_stable : the same for role-local verification

The kernel path is monotone because its characterisations only mention known types.  For
protocols with copies two facts are proved along the order of steps: placements are
monotone (`at_mono`), and once a hash inhabits *some* step its placements are settled for
good (`at_settled`).  The second is what the occupant fan-in needs: the candidate copies of
a reference that has one are the same in both stores, so a violation computed from one
candidate cannot be overruled by a candidate that appears later.
-/

namespace CbclVerdictStability

open CbclMessage CbclProtocol CbclStore CbclRepeat CbclRepeatTable CbclStoreExtension
open CbclRole CbclVerifier CbclVerdictShape CbclThreadedStore
open VerificationResult

-- ── Steps over two resolutions ────

section Mono

variable {r r' : Resolution}

/-- Alternatives are monotone in the placements. -/
theorem alternatives_mono {h : String} {allowed : List String}
    (hkind : r.kind h ≠ none → r'.kind h ≠ none)
    (hat : ∀ p ∈ allowed, Le (r.at h p) (r'.at h p)) :
    Le (r.alternatives h allowed) (r'.alternatives h allowed) := by
  rw [le_iff]
  constructor
  · intro hv
    obtain ⟨p, hp, hpv⟩ := alternatives_valid_iff.mp hv
    exact alternatives_valid_iff.mpr ⟨p, hp, le_valid (hat p hp) hpv⟩
  · intro hv
    obtain ⟨hk, hall⟩ := alternatives_violation_iff.mp hv
    exact alternatives_violation_iff.mpr
      ⟨hkind hk, fun p hp => le_violation (hat p hp) (hall p hp)⟩

/-- A fan-in is monotone in the placements of its hashes, in whatever order they stand. -/
theorem fanIn_mono {all hashes hashes' : List String} (hsame : ∀ h, h ∈ hashes ↔ h ∈ hashes')
    (hkind : ∀ h ∈ hashes, r.kind h ≠ none → r'.kind h ≠ none)
    (hat : ∀ h ∈ hashes, ∀ p ∈ all, Le (r.at h p) (r'.at h p)) :
    Le (r.fanIn all hashes) (r'.fanIn all hashes') := by
  have hmatch : ∀ h ∈ hashes, (∃ p ∈ all, r.at h p = .valid) → ∃ p ∈ all, r'.at h p = .valid :=
    fun h hh ⟨p, hp, hv⟩ => ⟨p, hp, le_valid (hat h hh p hp) hv⟩
  rw [le_iff]
  constructor
  · intro hv
    obtain ⟨hm, hc⟩ := fanIn_valid_iff.mp hv
    refine fanIn_valid_iff.mpr ⟨fun h hh => ?_, fun p hp => ?_⟩
    · exact hmatch h ((hsame h).mpr hh) (hm h ((hsame h).mpr hh))
    · obtain ⟨h, hh, hpv⟩ := hc p hp
      exact ⟨h, (hsame h).mp hh, le_valid (hat h hh p hp) hpv⟩
  · intro hv
    rw [fanIn_violation_iff] at hv ⊢
    rcases hv with ⟨h, hh, hk, hall⟩ | ⟨hm, hd, p, hp, habs⟩
    · exact Or.inl ⟨h, (hsame h).mp hh, hkind h hh hk,
        fun p hp => le_violation (hat h hh p hp) (hall p hp)⟩
    · -- the absent names refuse every hash, so they stay absent and out of reach
      have hback : ∀ q ∈ all, Absent r' hashes' q → Absent r hashes q :=
        fun q hq habs' h hh hqv => habs' h ((hsame h).mp hh) (le_valid (hat h hh q hq) hqv)
      refine Or.inr ⟨fun h hh => ?_, fun q hq habs' h hh => ?_, p, hp, ?_⟩
      · exact hmatch h ((hsame h).mpr hh) (hm h ((hsame h).mpr hh))
      · have hh := (hsame h).mpr hh
        exact le_violation (hat h hh q hq) (hd q hq (hback q hq habs') h hh)
      · intro h hh hpv
        have hh := (hsame h).mpr hh
        exact not_violation_valid (hpv ▸ le_violation (hat h hh p hp) (hd p hp habs h hh))

/-- **A step is monotone in the placements of the cited hashes.** -/
theorem step_mono {decl : StepDecl} {cause cause' : Option CausedBy}
    (hsame : SameCitations cause cause') (hroot : r.root = r'.root)
    (hkind : ∀ h ∈ citedHashes cause, r.kind h ≠ none → r'.kind h ≠ none)
    (hat : ∀ h ∈ citedHashes cause, ∀ p ∈ predecessorNames decl, Le (r.at h p) (r'.at h p)) :
    Le (r.step decl cause) (r'.step decl cause') := by
  -- lists of hashes are read as sets
  have hfan : ∀ hs hs' : List String, (∀ h, h ∈ hs ↔ h ∈ hs') →
      (∀ h ∈ hs, r.kind h ≠ none → r'.kind h ≠ none) →
      (∀ h ∈ hs, ∀ p ∈ predecessorNames decl, Le (r.at h p) (r'.at h p)) →
        Le (r.step decl (some (.multiple hs))) (r'.step decl (some (.multiple hs'))) := by
    intro hs hs' hmem hkind hat
    unfold Resolution.step Resolution.rewriteRoot
    dsimp only
    cases hall : firstAll decl with
    | none => exact Le.violation _ _
    | some all =>
        exact fanIn_mono hmem hkind fun h hh p hp => hat h hh p (firstAll_subset hall hp)
  rcases hsame with rfl | ⟨hs, hs', rfl, rfl, hmem⟩
  · cases hrw : Resolution.rewriteRoot r'.root cause with
    | none =>
        unfold Resolution.step
        rw [hroot, hrw]
        exact le_refl _
    | some cb =>
        cases cb with
        | begin =>
            unfold Resolution.step
            rw [hroot, hrw]
            dsimp only
            by_cases hb : BEGIN_KEYWORD ∈ allowedSinglePredecessors decl
            · rw [if_pos hb, if_pos hb]
              exact Le.valid
            · rw [if_neg hb, if_neg hb]
              exact Le.violation _ _
        | single h =>
            have hcause := cause_of_rewriteRoot hrw (by simp)
            subst hcause
            have hmem : h ∈ citedHashes (some (.single h)) := by simp [citedHashes, CausedBy.hashes]
            unfold Resolution.step
            rw [hroot, hrw]
            exact alternatives_mono (hkind h hmem) fun p hp => hat h hmem p (allowed_subset hp)
        | multiple hs =>
            have hcause := cause_of_rewriteRoot hrw (by simp)
            subst hcause
            exact hfan hs hs (fun _ => Iff.rfl) hkind hat
  · exact hfan hs hs' hmem hkind hat

/-- **A step that another step of the same reference settles.**  If the reference is valid for
    some step, every cited hash is placed; when placed hashes gain no placements, a step
    valid in the larger store was valid before. -/
theorem step_settled {decl decl1 : StepDecl} {cause : Option CausedBy}
    (hroot : r.root = r'.root) (hone : r.step decl1 cause = .valid)
    (hat : ∀ h ∈ citedHashes cause, (∃ n, r.at h n = .valid) →
      ∀ p ∈ predecessorNames decl, r'.at h p = .valid → r.at h p = .valid)
    (hv : r'.step decl cause = .valid) : r.step decl cause = .valid := by
  unfold Resolution.step at hone hv ⊢
  rw [hroot] at hone ⊢
  cases hrw : Resolution.rewriteRoot r'.root cause with
  | none => rw [hrw] at hv; exact hv
  | some cb =>
      rw [hrw] at hone hv
      cases cb with
      | begin =>
          dsimp only at hv ⊢
          by_cases hb : BEGIN_KEYWORD ∈ allowedSinglePredecessors decl
          · rw [if_pos hb]
          · rw [if_neg hb] at hv
            cases hv
      | single h =>
          have hcause := cause_of_rewriteRoot hrw (by simp)
          subst hcause
          have hmem : h ∈ citedHashes (some (.single h)) := by simp [citedHashes, CausedBy.hashes]
          obtain ⟨n, -, hn⟩ := alternatives_valid_iff.mp hone
          obtain ⟨p, hp, hpv⟩ := alternatives_valid_iff.mp hv
          exact alternatives_valid_iff.mpr
            ⟨p, hp, hat h hmem ⟨n, hn⟩ p (allowed_subset hp) hpv⟩
      | multiple hs =>
          have hcause := cause_of_rewriteRoot hrw (by simp)
          subst hcause
          cases hall1 : firstAll decl1 with
          | none => rw [hall1] at hone; cases hone
          | some all1 =>
              rw [hall1] at hone
              have hplaced : ∀ h ∈ hs, ∃ n, r.at h n = .valid := fun h hh =>
                (fanIn_valid_iff.mp hone).1 h hh |>.imp fun _ hn => hn.2
              cases hall : firstAll decl with
              | none => rw [hall] at hv; cases hv
              | some all =>
                  rw [hall] at hv
                  obtain ⟨hm, hc⟩ := fanIn_valid_iff.mp hv
                  refine fanIn_valid_iff.mpr ⟨fun h hh => ?_, fun p hp => ?_⟩
                  · obtain ⟨p, hp, hpv⟩ := hm h hh
                    exact ⟨p, hp, hat h hh (hplaced h hh) p (firstAll_subset hall hp) hpv⟩
                  · obtain ⟨h, hh, hpv⟩ := hc p hp
                    exact ⟨h, hh, hat h hh (hplaced h hh) p (firstAll_subset hall hp) hpv⟩

end Mono

-- ── Copy resolution over growing stores ────

section Growth

variable {S S' : MessageStore} {t : ThreadId} {D : ContentHash → Prop} (ans : Answers S S' t D)
  (protocol : CausalProtocol) (root : Option ContentHash) (hashes : List String)

theorem new_root_eq :
    (Resolution.new S protocol t root hashes).root
      = (Resolution.new S' protocol t root hashes).root := by
  obtain ⟨-, -, -, hr, -, -⟩ := new_spec S protocol t root hashes
  obtain ⟨-, -, -, hr', -, -⟩ := new_spec S' protocol t root hashes
  rw [hr, hr']

/-- Which names are ordinary depends on the protocol only. -/
theorem ordinary_iff {found name : String} :
    Ordinary (Resolution.new S protocol t root hashes) found name ↔
      Ordinary (Resolution.new S' protocol t root hashes) found name := by
  obtain ⟨-, hp, -⟩ := new_spec S protocol t root hashes
  obtain ⟨-, hp', -⟩ := new_spec S' protocol t root hashes
  unfold Ordinary Resolution.repeated
  rw [hp, hp']

include ans

/-- Both resolutions read one cache. -/
theorem new_materialized_eq :
    (Resolution.new S protocol t root hashes).materialized
      = (Resolution.new S' protocol t root hashes).materialized := by
  obtain ⟨-, -, -, -, hc, -⟩ := new_spec S protocol t root hashes
  obtain ⟨-, -, -, -, hc', -⟩ := new_spec S' protocol t root hashes
  rw [hc, hc', ans.usedCache]

/-- A known type is kept. -/
theorem kind_mono {h p : String} (hh : D h)
    (hk : (Resolution.new S protocol t root hashes).kind h = some p) :
    (Resolution.new S' protocol t root hashes).kind h = some p := by
  obtain ⟨hs, -, ht, -, hc, -⟩ := new_spec S protocol t root hashes
  obtain ⟨hs', -, ht', -, hc', -⟩ := new_spec S' protocol t root hashes
  unfold Resolution.kind at hk ⊢
  rw [hc, hs, ht] at hk
  rw [hc', hs', ht', ← ans.usedCache]
  cases hfact : cachedFact (usedCache S protocol t root) h with
  | some fact => rw [hfact] at hk; exact hk
  | none =>
      rw [hfact] at hk
      exact ans.type h p hh hk

theorem kind_ne_none {h : String} (hh : D h)
    (hk : (Resolution.new S protocol t root hashes).kind h ≠ none) :
    (Resolution.new S' protocol t root hashes).kind h ≠ none := by
  obtain ⟨p, hp⟩ := Option.ne_none_iff_exists'.mp hk
  rw [kind_mono ans protocol root hashes hh hp]
  exact fun h => nomatch h

/-- A covered hash is placed alike. -/
theorem at_cached {h name : String} {fact : PositionFact}
    (hc : cachedFact (Resolution.new S protocol t root hashes).materialized h = some fact) :
    Le ((Resolution.new S protocol t root hashes).at h name)
        ((Resolution.new S' protocol t root hashes).at h name) ∧
      ((Resolution.new S' protocol t root hashes).at h name = .valid →
        (Resolution.new S protocol t root hashes).at h name = .valid) := by
  have hc' := hc
  rw [new_materialized_eq ans] at hc'
  obtain ⟨-, hp, -⟩ := new_spec S protocol t root hashes
  obtain ⟨-, hp', -⟩ := new_spec S' protocol t root hashes
  rw [at_of_cached hc, at_of_cached hc']
  unfold Resolution.repeated
  rw [hp, hp']
  split
  · exact ⟨le_refl _, id⟩
  · exact ⟨Le.violation _ _, fun h => nomatch h⟩

/-- **Placements are monotone.** -/
theorem at_mono (hD : ∀ h ∈ hashes, D h) (name : String) :
    ∀ h ∈ referencedClosure S t (usedCache S protocol t root) hashes,
      Le ((Resolution.new S protocol t root hashes).at h name)
        ((Resolution.new S' protocol t root hashes).at h name) := by
  obtain ⟨hs, -, ht, -, hcache, -⟩ := new_spec S protocol t root hashes
  obtain ⟨-, -, -, -, hcache', -⟩ := new_spec S' protocol t root hashes
  refine (topo_protocolOrder protocol).induct (P := fun n =>
    ∀ h ∈ referencedClosure S t (usedCache S protocol t root) hashes,
      Le ((Resolution.new S protocol t root hashes).at h n)
        ((Resolution.new S' protocol t root hashes).at h n)) ?_ name
  intro n ih h hh
  obtain ⟨hDh, hh'⟩ := ans.closure hD hh
  rw [ans.usedCache] at hh'
  cases hc : cachedFact (Resolution.new S protocol t root hashes).materialized h with
  | some fact => exact (at_cached ans protocol root hashes hc).1
  | none =>
      have hc' := hc
      rw [new_materialized_eq ans] at hc'
      cases hk : (Resolution.new S protocol t root hashes).kind h with
      | none => rw [at_of_kind_none hk]; exact Le.unknown _
      | some found =>
          have hk' := kind_mono ans protocol root hashes hDh hk
          by_cases heq : found = repeatBaseName n
          · by_cases hord : Ordinary (Resolution.new S protocol t root hashes) found n
            · rw [at_of_ordinary hc hk heq hord,
                at_of_ordinary hc' hk' heq ((ordinary_iff protocol root hashes).mp hord)]
              exact Le.valid
            · have hord' : ¬ Ordinary (Resolution.new S' protocol t root hashes) found n :=
                mt (ordinary_iff protocol root hashes).mpr hord
              cases hm : metadata S h t with
              | none =>
                  rw [at_of_metadata_none hc hk heq hord (by rw [hs, ht]; exact hm)]
                  exact Le.unknown _
              | some data =>
                  obtain ⟨verb, cause⟩ := data
                  rw [hcache] at hc
                  rw [hcache'] at hc'
                  have hverb := verb_eq_of_kind hc hk hm
                  subst hverb
                  obtain ⟨cause', hm', hsame⟩ := ans.data h verb cause hDh hm
                  rw [at_row hh hc hm heq hord, at_row hh' hc' hm' heq hord']
                  by_cases hn : n ∈ protocolOrder protocol ∧ n ≠ BEGIN_KEYWORD
                  · rw [if_pos hn, if_pos hn]
                    cases hdecl : protocol.steps[n]? with
                    | none => exact Le.violation _ _
                    | some decl =>
                        -- the row is the verdict of the step on the message's own reference
                        refine step_mono hsame (new_root_eq protocol root hashes)
                          (fun k hk => kind_ne_none ans protocol root hashes
                            (ans.closed h hDh verb cause hm k hk)) ?_
                        intro k hk p hp
                        exact ih decl hn.1 hdecl p hp k
                          (cited_mem_referencedClosure hh hc hm k hk)
                  · rw [if_neg hn, if_neg hn]
                    exact Le.violation _ _
          · rw [at_of_kind_ne hc hk heq, at_of_kind_ne hc' hk' heq]
            exact Le.violation _ _

/-- A step is judged monotonically on references into the closure. -/
theorem new_step_mono (hD : ∀ h ∈ hashes, D h) {cause : Option CausedBy}
    (hcited : ∀ h ∈ citedHashes cause, h ∈ hashes) (decl : StepDecl) :
    Le ((Resolution.new S protocol t root hashes).step decl cause)
      ((Resolution.new S' protocol t root hashes).step decl cause) :=
  step_mono (Or.inl rfl) (new_root_eq protocol root hashes)
    (fun h hh => kind_ne_none ans protocol root hashes (hD h (hcited h hh)))
    fun h hh p _ => at_mono ans protocol root hashes hD p h
      (mem_referencedClosure_of_mem (hcited h hh))

/-- The verdict over a protocol with copies is monotone. -/
theorem repeat_verify_mono (verb : String) {cause : Option CausedBy}
    (hD : ∀ h ∈ citedHashes cause, D h) :
    Le (CbclRepeat.verify verb cause S protocol t root)
      (CbclRepeat.verify verb cause S' protocol t root) := by
  unfold CbclRepeat.verify
  split
  · have hmono := new_step_mono ans protocol root (citedHashes cause) hD (fun _ hh => hh)
    obtain ⟨-, hp, -⟩ := new_spec S protocol t root (citedHashes cause)
    obtain ⟨-, hp', -⟩ := new_spec S' protocol t root (citedHashes cause)
    rw [le_iff]
    constructor
    · intro hv
      obtain ⟨decl, hcopy, hstep⟩ := verify_valid_iff.mp hv
      rw [hp] at hcopy
      exact verify_valid_iff.mpr ⟨decl, by rw [hp']; exact hcopy, le_valid (hmono decl) hstep⟩
    · intro hv
      have hall := verify_violation_iff.mp hv
      rw [hp] at hall
      refine verify_violation_iff.mpr fun decl hcopy => ?_
      rw [hp'] at hcopy
      exact le_violation (hmono decl) (hall decl hcopy)
  · exact le_refl _

end Growth

section Settled

variable {S S' : MessageStore} {t : ThreadId} {D : ContentHash → Prop} (grow : Grows S S' t D)
  (protocol : CausalProtocol) (root : Option ContentHash) (hashes : List String)
include grow

/-- **A placed hash is settled.**  Once a hash inhabits some step, its ancestry is resolved as
    far as any step can look: it inhabits no further step in a larger store. -/
theorem at_settled (hD : ∀ h ∈ hashes, D h) (name : String) :
    ∀ h ∈ referencedClosure S t (usedCache S protocol t root) hashes,
      (∃ n, (Resolution.new S protocol t root hashes).at h n = .valid) →
        (Resolution.new S' protocol t root hashes).at h name = .valid →
          (Resolution.new S protocol t root hashes).at h name = .valid := by
  obtain ⟨hs, -, ht, -, hcache, -⟩ := new_spec S protocol t root hashes
  obtain ⟨-, -, -, -, hcache', -⟩ := new_spec S' protocol t root hashes
  refine (topo_protocolOrder protocol).induct (P := fun n =>
    ∀ h ∈ referencedClosure S t (usedCache S protocol t root) hashes,
      (∃ m, (Resolution.new S protocol t root hashes).at h m = .valid) →
        (Resolution.new S' protocol t root hashes).at h n = .valid →
          (Resolution.new S protocol t root hashes).at h n = .valid) ?_ name
  intro n ih h hh hplaced hv
  obtain ⟨m, hmv⟩ := hplaced
  obtain ⟨hDh, hh'⟩ := grow.answers.closure hD hh
  rw [grow.answers.usedCache] at hh'
  cases hc : cachedFact (Resolution.new S protocol t root hashes).materialized h with
  | some fact => exact (at_cached grow.answers protocol root hashes hc).2 hv
  | none =>
      have hc' := hc
      rw [new_materialized_eq grow.answers] at hc'
      cases hk : (Resolution.new S protocol t root hashes).kind h with
      | none => rw [at_of_kind_none hk] at hmv; cases hmv
      | some found =>
          have hk' := kind_mono grow.answers protocol root hashes hDh hk
          by_cases heq : found = repeatBaseName n
          · by_cases hord : Ordinary (Resolution.new S protocol t root hashes) found n
            · exact at_of_ordinary hc hk heq hord
            · have hord' : ¬ Ordinary (Resolution.new S' protocol t root hashes) found n :=
                mt (ordinary_iff protocol root hashes).mpr hord
              -- the step `m` the hash inhabits has the same base
              have heqm : found = repeatBaseName m := by
                by_contra hne
                rw [at_of_kind_ne hc hk hne] at hmv
                cases hmv
              have hstore' : (Resolution.new S' protocol t root hashes).store = S' :=
                (new_spec S' protocol t root hashes).1
              have hthread' : (Resolution.new S' protocol t root hashes).thread = t :=
                (new_spec S' protocol t root hashes).2.2.1
              have hmeta' : ∃ cause, metadata S' h t = some (found, cause) := by
                cases hm' : metadata S' h t with
                | none =>
                    rw [at_of_metadata_none hc' hk' heq hord'
                      (by rw [hstore', hthread']; exact hm')] at hv
                    cases hv
                | some data =>
                    obtain ⟨verb, cause⟩ := data
                    rw [hcache'] at hc'
                    have hverb := verb_eq_of_kind hc' hk' hm'
                    exact ⟨cause, by rw [hverb]⟩
              obtain ⟨cause', hm'⟩ := hmeta'
              rw [hcache] at hc
              rw [hcache'] at hc'
              obtain ⟨decl, hin, hne, hdecl, hstep⟩ :=
                (at_row_valid_iff hh' hc' hm' heq hord').mp hv
              -- `n` is declared, so its base is repeated and `m` needs ancestry as well
              have hrep : (Resolution.new S protocol t root hashes).repeated found = true := by
                by_contra hrep
                have hrep := Bool.eq_false_iff.mpr hrep
                have hcopy : isCopyName n = true := by
                  by_contra hcopy
                  exact hord ⟨Bool.eq_false_iff.mpr hcopy, hrep⟩
                rw [heq, repeated_of_copy hdecl hcopy] at hrep
                cases hrep
              have hordm : ¬ Ordinary (Resolution.new S protocol t root hashes) found m := by
                rintro ⟨-, hno⟩
                rw [hrep] at hno
                cases hno
              cases hm : metadata S h t with
              | none =>
                  rw [at_of_metadata_none (by rw [hcache]; exact hc) hk heqm hordm
                    (by rw [hs, ht]; exact hm)] at hmv
                  cases hmv
              | some data =>
                  obtain ⟨verb, cause⟩ := data
                  have hverb := verb_eq_of_kind hc hk hm
                  subst hverb
                  have hcause : cause' = cause := by
                    have hmono := grow.data h _ hDh hm
                    rw [hm'] at hmono
                    exact congrArg Prod.snd (Option.some.inj hmono)
                  subst hcause
                  obtain ⟨declm, -, -, -, hstepm⟩ :=
                    (at_row_valid_iff hh hc hm heqm hordm).mp hmv
                  refine (at_row_valid_iff hh hc hm heq hord).mpr ⟨decl, hin, hne, hdecl, ?_⟩
                  refine step_settled (new_root_eq protocol root hashes) hstepm ?_ hstep
                  intro k hk hplaced p hp hpv
                  exact ih decl hin hdecl p hp k (cited_mem_referencedClosure hh hc hm k hk)
                    hplaced hpv
          · rw [at_of_kind_ne hc' hk' heq] at hv
            cases hv

/-- **Candidates are settled by one candidate**: when the reference is valid for some step, the
    steps it is valid for are the same in both stores. -/
theorem new_step_settled (hD : ∀ h ∈ hashes, D h) {cause : Option CausedBy}
    (hcited : ∀ h ∈ citedHashes cause, h ∈ hashes) {decl1 : StepDecl}
    (hone : (Resolution.new S protocol t root hashes).step decl1 cause = .valid)
    (decl : StepDecl) :
    (Resolution.new S protocol t root hashes).step decl cause = .valid ↔
      (Resolution.new S' protocol t root hashes).step decl cause = .valid := by
  constructor
  · exact le_valid (new_step_mono grow.answers protocol root hashes hD hcited decl)
  · refine step_settled (new_root_eq protocol root hashes) hone ?_
    intro h hh hplaced p _ hpv
    exact at_settled grow protocol root hashes hD p h (mem_referencedClosure_of_mem (hcited h hh))
      hplaced hpv

end Settled

-- ── The kernel path ────

section Kernel

variable {S S' : MessageStore} {t : ThreadId} {D : ContentHash → Prop} (ans : Answers S S' t D)
include ans

theorem verifySingle_mono (step : StepDecl) {hash : String} (hD : D hash) :
    Le (verifySingle S t step hash) (verifySingle S' t step hash) := by
  rw [le_iff]
  constructor
  · intro hv
    obtain ⟨p, hp, hmem⟩ := verifySingle_valid_iff.mp hv
    exact verifySingle_valid_iff.mpr ⟨p, ans.type hash p hD hp, hmem⟩
  · intro hv
    obtain ⟨p, hp, hmem⟩ := verifySingle_violation_iff.mp hv
    exact verifySingle_violation_iff.mpr ⟨p, ans.type hash p hD hp, hmem⟩

theorem verifyFanIn_mono (perf : String) (all_decl : Option (BTreeSet String))
    {hashes : List String} (hD : ∀ h ∈ hashes, D h) :
    Le (verifyFanIn S t perf all_decl hashes) (verifyFanIn S' t perf all_decl hashes) := by
  cases all_decl with
  | none => exact le_refl _
  | some all_set =>
      have htyped : (∀ h ∈ hashes, ∃ p, predecessorType S h t = some p ∧ p ∈ all_set) →
          ∀ h ∈ hashes, ∃ p, predecessorType S' h t = some p ∧ p ∈ all_set :=
        fun hall h hh => (hall h hh).imp fun p hp => ⟨ans.type h p (hD h hh) hp.1, hp.2⟩
      rcases verifyFanIn_cases S t perf all_set hashes with
        ⟨⟨h, hh, p, hp, hne⟩, hviol⟩ | ⟨-, -, hunk⟩ | ⟨hall, hcov, hv⟩ | ⟨hall, hcov, hviol⟩
      · -- a wrong type stays wrong
        rcases verifyFanIn_cases S' t perf all_set hashes with
          ⟨-, hviol'⟩ | ⟨-, hno, -⟩ | ⟨hall', -, -⟩ | ⟨-, -, hviol'⟩
        · exact le_iff.mpr ⟨fun hv => absurd (hv ▸ hviol) not_violation_valid, fun _ => hviol'⟩
        · exact absurd ⟨h, hh, p, ans.type h p (hD h hh) hp, hne⟩ hno
        · obtain ⟨q, hq, hmem⟩ := hall' h hh
          rw [ans.type h p (hD h hh) hp] at hq
          injection hq with hq
          exact absurd (hq ▸ hmem) hne
        · exact le_iff.mpr ⟨fun hv => absurd (hv ▸ hviol) not_violation_valid, fun _ => hviol'⟩
      · rw [hunk]
        exact Le.unknown _
      · rcases verifyFanIn_cases S' t perf all_set hashes with
          ⟨⟨h, hh, p, hp, hne⟩, -⟩ | ⟨⟨h, hh, hnone⟩, -, -⟩ | ⟨-, -, hv'⟩ | ⟨-, hncov, -⟩
        · obtain ⟨q, hq, hmem⟩ := htyped hall h hh
          rw [hp] at hq
          injection hq with hq
          exact absurd (hq ▸ hmem) hne
        · obtain ⟨q, hq, -⟩ := htyped hall h hh
          rw [hnone] at hq
          cases hq
        · rw [hv, hv']
          exact Le.valid
        · refine absurd (fun p hp => ?_) hncov
          obtain ⟨h, hh, hph⟩ := hcov p hp
          exact ⟨h, hh, ans.type h p (hD h hh) hph⟩
      · -- every hash has its type already, so an uncovered name stays uncovered
        rcases verifyFanIn_cases S' t perf all_set hashes with
          ⟨-, hviol'⟩ | ⟨⟨h, hh, hnone⟩, -, -⟩ | ⟨-, hcov', -⟩ | ⟨-, -, hviol'⟩
        · exact le_iff.mpr ⟨fun hv => absurd (hv ▸ hviol) not_violation_valid, fun _ => hviol'⟩
        · obtain ⟨q, hq, -⟩ := htyped hall h hh
          rw [hnone] at hq
          cases hq
        · refine absurd (fun p hp => ?_) hcov
          obtain ⟨h, hh, hph⟩ := hcov' p hp
          obtain ⟨q, hq, -⟩ := hall h hh
          rw [ans.type h q (hD h hh) hq] at hph
          exact ⟨h, hh, by rw [hq, hph]⟩
        · exact le_iff.mpr ⟨fun hv => absurd (hv ▸ hviol) not_violation_valid, fun _ => hviol'⟩

/-- **Causal verification is monotone in the store.** -/
theorem verifyCausal_mono (perf : String) {cause : Option CausedBy} (protocol : CausalProtocol)
    (hD : ∀ h ∈ citedHashes cause, D h) :
    Le (verifyCausal perf cause S protocol t) (verifyCausal perf cause S' protocol t) := by
  unfold verifyCausal
  split
  · exact repeat_verify_mono ans protocol none perf hD
  · cases protocol.steps[perf]? with
    | none => exact Le.valid
    | some step =>
        show Le (verifyStep step perf cause S t) (verifyStep step perf cause S' t)
        unfold verifyStep
        cases cause with
        | none => exact le_refl _
        | some cb =>
            cases cb with
            | begin => exact le_refl _
            | single h => exact verifySingle_mono ans step (hD h (List.mem_singleton_self h))
            | multiple hs => exact verifyFanIn_mono ans perf (firstAll step) hD

end Kernel

-- ── Occupant-counted fan-in ────

section Occupants

variable {S S' : MessageStore} {t : ThreadId} {D : ContentHash → Prop} (grow : Grows S S' t D)
include grow

/-- Full messages that all resolve do so alike in the larger store. -/
theorem mapM_lookup_mono (hs : List String) {resolved : List (String × Message)}
    (hD : ∀ h ∈ hs, D h)
    (h : (hs.mapM fun h => (S.lookupInThread h t).map (h, ·)) = some resolved) :
    (hs.mapM fun h => (S'.lookupInThread h t).map (h, ·)) = some resolved := by
  induction hs generalizing resolved with
  | nil => exact h
  | cons k rest ih =>
      rw [List.mapM_cons] at h ⊢
      simp only [Option.bind_eq_bind, Option.bind_eq_some_iff, Option.map_eq_some_iff,
        Option.pure_def, Option.some.injEq] at h ⊢
      obtain ⟨_, ⟨m, hm, rfl⟩, tail, htail, rfl⟩ := h
      exact ⟨_, ⟨m, grow.lookup k m (hD k (List.mem_cons_self ..)) hm, rfl⟩, tail,
        ih (fun h hh => hD h (List.mem_cons_of_mem _ hh)) htail, rfl⟩

omit grow in
/-- The hashes of the resolved messages are the cited ones. -/
theorem mem_of_mapM_lookup {S : MessageStore} {t : ThreadId} {hs : List String}
    {resolved : List (String × Message)}
    (h : (hs.mapM fun h => (S.lookupInThread h t).map (h, ·)) = some resolved)
    {entry : String × Message} (he : entry ∈ resolved) : entry.1 ∈ hs := by
  induction hs generalizing resolved with
  | nil =>
      rw [List.mapM_nil] at h
      injection h with h
      subst h
      exact nomatch he
  | cons k rest ih =>
      rw [List.mapM_cons] at h
      simp only [Option.bind_eq_bind, Option.bind_eq_some_iff, Option.map_eq_some_iff,
        Option.pure_def, Option.some.injEq] at h
      obtain ⟨_, ⟨m, hm, rfl⟩, tail, htail, rfl⟩ := h
      rcases List.mem_cons.mp he with rfl | he
      · exact List.mem_cons_self ..
      · exact List.mem_cons_of_mem _ (ih htail he)

/-- **A decided occupant count is final** when the cited messages keep their instances. -/
theorem occupantFanin_stable {perf : String} {cause : Option CausedBy} {d : Dialect}
    {cast : Cast} {ρ ρ' : Option Resolution} (hD : ∀ h ∈ citedHashes cause, D h)
    (hinst : ∀ hs, cause = some (.multiple hs) → ∀ h ∈ hs, ∀ p simple,
      isInstance ρ p h simple = isInstance ρ' p h simple)
    (hdecided : occupantFanin perf cause d cast S t ρ ≠ .unknown) :
    occupantFanin perf cause d cast S' t ρ' = occupantFanin perf cause d cast S t ρ := by
  unfold occupantFanin at hdecided ⊢
  cases hstep : d.causal_protocol.bind (·.steps[perf]?) with
  | none => rfl
  | some step =>
      rw [hstep] at hdecided
      dsimp only at hdecided ⊢
      by_cases hcounted : countedPredecessors d cast step = []
      · rw [if_pos hcounted, if_pos hcounted]
      · rw [if_neg hcounted] at hdecided
        rw [if_neg hcounted, if_neg hcounted]
        rcases cause with _ | (_ | h | hs)
        · rfl
        · rfl
        · rfl
        · dsimp only at hdecided ⊢
          cases hres : hs.mapM fun h => (S.lookupInThread h t).map (h, ·) with
          | none => rw [hres] at hdecided; exact absurd rfl hdecided
          | some resolved =>
              have hmissing : missingOccupants ρ' resolved = missingOccupants ρ resolved := by
                funext c
                unfold missingOccupants
                have hsenders : resolved.filterMap (countedSender ρ' c.1 c.2)
                    = resolved.filterMap (countedSender ρ c.1 c.2) := by
                  refine List.filterMap_congr fun entry he => ?_
                  unfold countedSender
                  refine congrArg _ (funext fun simple => ?_)
                  rw [hinst hs rfl entry.1 (mem_of_mapM_lookup hres he) c.1 simple]
                rw [hsenders]
              have hres' := mapM_lookup_mono grow hs hD hres
              rw [hres']
              dsimp only
              rw [hmissing]

omit grow in
/-- Choosing among candidates is valid when one is, or when there is none at all. -/
theorem chooseCandidate_valid_iff {values : List VerificationResult} :
    ∀ {acc : Option VerificationResult}, acc ≠ some .valid →
      (chooseCandidate acc values = .valid ↔ .valid ∈ values ∨ acc = none ∧ values = []) := by
  induction values with
  | nil =>
      intro acc hacc
      cases acc with
      | none => simp [chooseCandidate]
      | some v => simpa [chooseCandidate] using hacc
  | cons v rest ih =>
      intro acc hacc
      cases v with
      | valid => simp [chooseCandidate]
      | unknown =>
          rw [chooseCandidate, ih (by simp)]
          simp
      | violation w =>
          rw [chooseCandidate]
          split
          · rw [ih hacc]
            rename_i hunk
            simp [hunk]
          · rw [ih (by simp)]
            simp

omit grow in
/-- Choosing among candidates is a violation when there are some and all of them are. -/
theorem chooseCandidate_violation_iff {values : List VerificationResult} :
    ∀ {acc : Option VerificationResult}, acc ≠ some .valid →
      (IsViolation (chooseCandidate acc values) ↔
        (∀ v ∈ values, IsViolation v) ∧ acc ≠ some .unknown ∧ (acc = none → values ≠ [])) := by
  induction values with
  | nil =>
      intro acc hacc
      cases acc with
      | none => simp [chooseCandidate, not_violation_valid]
      | some v =>
          cases v with
          | valid => exact absurd rfl hacc
          | unknown => simp [chooseCandidate, not_violation_unknown]
          | violation w => simp [chooseCandidate, IsViolation]
  | cons v rest ih =>
      intro acc hacc
      cases v with
      | valid => simp [chooseCandidate, not_violation_valid]
      | unknown =>
          rw [chooseCandidate, ih (by simp)]
          simp [not_violation_unknown]
      | violation w =>
          have hw : IsViolation (.violation w) := ⟨w, rfl⟩
          rw [chooseCandidate]
          split
          · rename_i hunk
            rw [ih hacc]
            simp [hunk]
          · rename_i hunk
            rw [ih (by simp)]
            simp [hunk, hw]

omit grow in
/-- Candidates that only get decided are chosen monotonically. -/
theorem chooseCandidate_mono {α : Type} {xs : List α} {f g : α → VerificationResult}
    (hfg : ∀ x ∈ xs, f x ≠ .unknown → g x = f x) :
    Le (chooseCandidate none (xs.map f)) (chooseCandidate none (xs.map g)) := by
  rw [le_iff]
  constructor
  · intro hv
    rw [chooseCandidate_valid_iff (by simp)] at hv ⊢
    rcases hv with hv | ⟨-, hnil⟩
    · left
      obtain ⟨x, hx, hfx⟩ := List.mem_map.mp hv
      exact List.mem_map.mpr ⟨x, hx, by rw [hfg x hx (by simp [hfx]), hfx]⟩
    · right
      exact ⟨rfl, List.map_eq_nil_iff.mpr (List.map_eq_nil_iff.mp hnil)⟩
  · intro hv
    rw [chooseCandidate_violation_iff (by simp)] at hv ⊢
    obtain ⟨hall, -, hne⟩ := hv
    refine ⟨?_, by simp, fun h => ?_⟩
    · intro v hmem
      obtain ⟨x, hx, rfl⟩ := List.mem_map.mp hmem
      have hfx := hall (f x) (List.mem_map.mpr ⟨x, hx, rfl⟩)
      rw [hfg x hx fun hu => not_violation_unknown (hu ▸ hfx)]
      exact hfx
    · intro hnil
      exact hne h (List.map_eq_nil_iff.mpr (List.map_eq_nil_iff.mp hnil))

/-- The occupant count of a protocol without copies is monotone. -/
theorem occupantFanin_none_mono (perf : String) {cause : Option CausedBy} (d : Dialect)
    (cast : Cast) (hD : ∀ h ∈ citedHashes cause, D h) :
    Le (occupantFanin perf cause d cast S t none) (occupantFanin perf cause d cast S' t none) := by
  by_cases hdecided : occupantFanin perf cause d cast S t none = .unknown
  · rw [hdecided]
    exact Le.unknown _
  · rw [occupantFanin_stable grow hD (fun _ _ _ _ _ _ => rfl) hdecided]
    exact le_refl _

/-- The candidate copies of a reference, in key order. -/
def candidates (store : MessageStore) (cp : CausalProtocol) (perf : String)
    (cause : Option CausedBy) (t : ThreadId) (root : ContentHash) : List (String × StepDecl) :=
  cp.steps.toList.filter fun (name, step) =>
    repeatBaseName name = perf ∧
      (Resolution.new store cp t (some root) (citedHashes cause)).step step cause = .valid

/-- A reference with a candidate keeps exactly its candidates. -/
theorem candidates_eq {cp : CausalProtocol} {perf : String} {cause : Option CausedBy}
    {root : ContentHash} (hD : ∀ h ∈ citedHashes cause, D h)
    (hne : candidates S cp perf cause t root ≠ []) :
    candidates S' cp perf cause t root = candidates S cp perf cause t root := by
  obtain ⟨⟨name1, decl1⟩, hmem⟩ := List.exists_mem_of_ne_nil _ hne
  have hone := (of_decide_eq_true (List.mem_filter.mp hmem).2).2
  unfold candidates
  refine List.filter_congr fun entry _ => ?_
  obtain ⟨name, decl⟩ := entry
  have hiff := new_step_settled grow cp (some root) (citedHashes cause) hD (fun _ hh => hh) hone
    decl
  simp only [hiff]

/-- A candidate's cited hashes are all placed, so their instances are settled. -/
theorem isInstance_candidate {cp : CausalProtocol} {perf : String} {hs : List String}
    {root : ContentHash} {entry : String × StepDecl} (hD : ∀ h ∈ hs, D h)
    (hmem : entry ∈ candidates S cp perf (some (.multiple hs)) t root) :
    ∀ h ∈ hs, ∀ p simple,
      isInstance (some (Resolution.new S cp t (some root) hs)) p h simple =
        isInstance (some (Resolution.new S' cp t (some root) hs)) p h simple := by
  intro h hh p simple
  have hstep := (of_decide_eq_true (List.mem_filter.mp hmem).2).2
  have hmemc : h ∈ referencedClosure S t (usedCache S cp t (some root)) hs :=
    mem_referencedClosure_of_mem hh
  have hplaced : ∃ n, (Resolution.new S cp t (some root) hs).at h n = .valid := by
    unfold Resolution.step at hstep
    dsimp only at hstep
    cases hall : firstAll entry.2 with
    | none => rw [hall] at hstep; cases hstep
    | some all =>
        rw [hall] at hstep
        obtain ⟨n, -, hn⟩ := (fanIn_valid_iff.mp hstep).1 h hh
        exact ⟨n, hn⟩
  unfold isInstance
  dsimp only
  rw [decide_eq_decide]
  constructor
  · exact le_valid (at_mono grow.answers cp (some root) hs hD p h hmemc)
  · exact at_settled grow cp (some root) hs hD p h hmemc hplaced

omit grow in
/-- Without copies the occupant count goes by performative names. -/
theorem repeatOccupantFanin_plain {d : Dialect}
    (hplain : d.causal_protocol.filter hasRepeat = none) {perf : String}
    {cause : Option CausedBy} {cast : Cast} {store : MessageStore} {root : ContentHash} :
    repeatOccupantFanin perf cause d cast store t root
      = occupantFanin perf cause d cast store t none := by
  unfold repeatOccupantFanin
  rw [hplain]

omit grow in
/-- The occupant count over the candidates of a protocol with copies. -/
theorem repeatOccupantFanin_eq {d : Dialect} {cp : CausalProtocol}
    (hcp : d.causal_protocol = some cp) (hrep : hasRepeat cp = true) (perf : String)
    (cause : Option CausedBy) (cast : Cast) (store : MessageStore) (t : ThreadId)
    (root : ContentHash) :
    repeatOccupantFanin perf cause d cast store t root =
      chooseCandidate none ((candidates store cp perf cause t root).map fun entry =>
        occupantFanin entry.1 cause d cast store t
          (some (Resolution.new store cp t (some root) (citedHashes cause)))) := by
  unfold repeatOccupantFanin
  rw [hcp, Option.filter_some, if_pos hrep]
  rfl

/-- Once a reference has a candidate, its occupant count is monotone. -/
theorem repeatOccupantFanin_mono {d : Dialect} {cp : CausalProtocol}
    (hcp : d.causal_protocol = some cp) (hrep : hasRepeat cp = true) {perf : String}
    {cause : Option CausedBy} {root : ContentHash} (cast : Cast)
    (hD : ∀ h ∈ citedHashes cause, D h) (hne : candidates S cp perf cause t root ≠ []) :
    Le (repeatOccupantFanin perf cause d cast S t root)
      (repeatOccupantFanin perf cause d cast S' t root) := by
  rw [repeatOccupantFanin_eq hcp hrep, repeatOccupantFanin_eq hcp hrep, candidates_eq grow hD hne]
  refine chooseCandidate_mono fun entry hentry hdecided => ?_
  refine occupantFanin_stable grow hD (fun hs hcause => ?_) hdecided
  subst hcause
  exact isInstance_candidate grow hD hentry

omit grow in
/-- Without a candidate nothing is counted. -/
theorem repeatOccupantFanin_no_candidate {d : Dialect} {cp : CausalProtocol}
    (hcp : d.causal_protocol = some cp) (hrep : hasRepeat cp = true) {perf : String}
    {cause : Option CausedBy} {t : ThreadId} {root : ContentHash} (cast : Cast)
    {store : MessageStore} (hnil : candidates store cp perf cause t root = []) :
    repeatOccupantFanin perf cause d cast store t root = .valid := by
  rw [repeatOccupantFanin_eq hcp hrep, hnil]
  rfl

omit grow in
/-- A verb that is valid for a copy has a candidate; one that is no step has none. -/
theorem repeat_valid_cases {cp : CausalProtocol} {perf : String} {cause : Option CausedBy}
    {store : MessageStore} {t : ThreadId} {root : ContentHash}
    (hv : CbclRepeat.verify perf cause store cp t (some root) = .valid) :
    candidates store cp perf cause t root ≠ [] ∨
      ∀ store', candidates store' cp perf cause t root = [] := by
  unfold CbclRepeat.verify at hv
  by_cases hstep : cp.steps.keys.any (fun name => repeatBaseName name = perf)
  · left
    rw [if_pos hstep] at hv
    obtain ⟨decl, ⟨name, hdecl, hne, hbase⟩, hvalid⟩ := verify_valid_iff.mp hv
    obtain ⟨-, hp, -⟩ := new_spec store cp t (some root) (citedHashes cause)
    rw [hp] at hdecl
    refine List.ne_nil_of_mem (a := (name, decl)) ?_
    unfold candidates
    rw [List.mem_filter, Std.ExtTreeMap.mem_toList_iff_getElem?_eq_some]
    exact ⟨hdecl, decide_eq_true ⟨hbase, hvalid⟩⟩
  · right
    intro store'
    unfold candidates
    rw [List.filter_eq_nil_iff]
    rintro ⟨name, decl⟩ hmem hcond
    rw [Std.ExtTreeMap.mem_toList_iff_getElem?_eq_some] at hmem
    refine hstep (List.any_eq_true.mpr ⟨name, ?_, decide_eq_true (of_decide_eq_true hcond).1⟩)
    rw [Std.ExtTreeMap.mem_keys]
    exact Std.ExtTreeMap.mem_iff_isSome_getElem?.mpr (by rw [hmem]; rfl)

omit grow in
/-- Root typing cites no hash the reference does not cite. -/
theorem mem_cited_of_rewrite {cause : Option CausedBy} {root h : ContentHash}
    (hh : h ∈ citedHashes (cause.map (rewriteRootReferences · root))) :
    h ∈ citedHashes cause := by
  rcases cause with _ | (_ | k | ks)
  · exact hh
  · exact hh
  · rw [Option.map_some, rewriteRootReferences] at hh
    split at hh
    · exact nomatch hh
    · exact hh
  · exact hh

/-- **Role-local verification of a simple payload is monotone.** -/
theorem verifySimple_mono (msg : Message) {simple : Message} (perf : String) (d : Dialect)
    (cast : Cast) (root : ContentHash) (hD : ∀ h ∈ citedHashes simple.causedBy, D h) :
    Le (verifySimple msg simple perf d cast S t root)
      (verifySimple msg simple perf d cast S' t root) := by
  have hmeet : ∀ conf : VerificationResult,
      Le ((conf.meet (rolePredecessors perf simple.causedBy d S t root)).meet
          (repeatOccupantFanin perf simple.causedBy d cast S t root))
        ((conf.meet (rolePredecessors perf simple.causedBy d S' t root)).meet
          (repeatOccupantFanin perf simple.causedBy d cast S' t root)) := by
    intro conf
    cases hcp : d.causal_protocol with
    | none =>
        have hfan : ∀ store, repeatOccupantFanin perf simple.causedBy d cast store t root
            = occupantFanin perf simple.causedBy d cast store t none := fun store =>
          repeatOccupantFanin_plain (by rw [hcp]; rfl)
        have hr5 : ∀ store, rolePredecessors perf simple.causedBy d store t root = .valid :=
          fun store => by unfold rolePredecessors; rw [hcp]
        rw [hfan, hfan, hr5, hr5]
        exact meet_mono (le_refl _) (occupantFanin_none_mono grow _ _ _ hD)
    | some cp =>
        by_cases hrep : hasRepeat cp = true
        · have hr5 : ∀ store, rolePredecessors perf simple.causedBy d store t root
              = CbclRepeat.verify perf simple.causedBy store cp t (some root) := fun store => by
            unfold rolePredecessors
            rw [hcp]
            exact if_pos hrep
          rw [hr5, hr5]
          have hmono := repeat_verify_mono grow.answers cp (some root) perf hD
          by_cases hne : candidates S cp perf simple.causedBy t root = []
          · -- no candidate yet: the verdict is the predecessor check's
            rw [repeatOccupantFanin_no_candidate hcp hrep cast hne, le_iff]
            constructor
            · intro hv
              obtain ⟨hleft, -⟩ := meet_eq_valid_iff.mp hv
              obtain ⟨hconf, hvalid⟩ := meet_eq_valid_iff.mp hleft
              rcases repeat_valid_cases hvalid with hsome | hnone
              · exact absurd hne hsome
              · rw [repeatOccupantFanin_no_candidate hcp hrep cast (hnone S'), hconf,
                  le_valid hmono hvalid]
                rfl
            · intro hv
              rw [isViolation_meet_iff, isViolation_meet_iff] at hv ⊢
              rcases hv with (hconf | hr) | hvalid
              · exact Or.inl (Or.inl hconf)
              · exact Or.inl (Or.inr (le_violation hmono hr))
              · exact absurd hvalid not_violation_valid
          · exact meet_mono (meet_mono (le_refl _) hmono)
              (repeatOccupantFanin_mono grow hcp hrep cast hD hne)
        · have hfan : ∀ store, repeatOccupantFanin perf simple.causedBy d cast store t root
              = occupantFanin perf simple.causedBy d cast store t none := fun store =>
            repeatOccupantFanin_plain (by rw [hcp, Option.filter_some, if_neg hrep])
          have hr5 : ∀ store, rolePredecessors perf simple.causedBy d store t root
              = verifyCausal perf (simple.causedBy.map (rewriteRootReferences · root)) store cp t :=
            fun store => by
              unfold rolePredecessors
              rw [hcp]
              exact if_neg hrep
          rw [hfan, hfan, hr5, hr5]
          exact meet_mono (meet_mono (le_refl _) (verifyCausal_mono grow.answers perf cp
              fun h hh => hD h (mem_cited_of_rewrite hh)))
            (occupantFanin_none_mono grow _ _ _ hD)
  unfold verifySimple
  dsimp only
  split
  · exact le_refl _
  · exact hmeet _

/-- Role-local verification is monotone, except for `with-roles` wrappers. -/
theorem verifyCausalForRole_mono (msg : Message) (endpoint : Endpoint) (d : Dialect)
    (cast : Cast) (root : ContentHash) (hwrap : msg.wrapperType ≠ some .withRoles)
    (hD : ∀ h ∈ citedHashes (msg.innermostSimple.bind Message.causedBy), D h) :
    Le (verifyCausalForRole msg endpoint d cast S t root)
      (verifyCausalForRole msg endpoint d cast S' t root) := by
  unfold verifyCausalForRole
  cases pinMismatch d cast with
  | some reason => exact le_refl _
  | none =>
      dsimp only
      rw [if_neg hwrap, if_neg hwrap]
      cases hs : msg.innermostSimple with
      | none => exact Le.valid
      | some simple =>
          rw [hs] at hD
          dsimp only
          cases simple.performative with
          | none => exact Le.valid
          | some p => exact verifySimple_mono grow msg p.name d cast root hD

end Occupants

/-- **Verdict stability.**  Over an extended store, both verifiers keep `Valid` and keep being
    in violation, for protocols with and without copies. -/
theorem verdict_stable {S S' : MessageStore} (ext : Extends S S') :
    (∀ (perf : String) (cause : Option CausedBy) (protocol : CausalProtocol) (t : ThreadId),
      (verifyCausal perf cause S protocol t = .valid →
        verifyCausal perf cause S' protocol t = .valid) ∧
      ((∃ v, verifyCausal perf cause S protocol t = .violation v) →
        ∃ v, verifyCausal perf cause S' protocol t = .violation v)) ∧
    (∀ (msg : Message) (endpoint : Endpoint) (d : Dialect) (cast : Cast) (t : ThreadId)
        (root : ContentHash), msg.wrapperType ≠ some .withRoles →
      (verifyCausalForRole msg endpoint d cast S t root = .valid →
        verifyCausalForRole msg endpoint d cast S' t root = .valid) ∧
      ((∃ v, verifyCausalForRole msg endpoint d cast S t root = .violation v) →
        ∃ v, verifyCausalForRole msg endpoint d cast S' t root = .violation v)) :=
  ⟨fun perf _ protocol t =>
      le_iff.mp (verifyCausal_mono (ext.grows t).answers perf protocol fun _ _ => trivial),
    fun msg endpoint d cast t root hwrap =>
      le_iff.mp (verifyCausalForRole_mono (ext.grows t) msg endpoint d cast root hwrap
        fun _ _ => trivial)⟩

/-- A threaded store without shelves is extended by one that keeps its messages. -/
theorem extends_of_lookup {s s' : ThreadedMessageStore} (henv : s.envelopes = ∅)
    (hopen : s.opened = ∅) (henv' : s'.envelopes = ∅) (hopen' : s'.opened = ∅)
    (hkeep : ∀ h t m, s.lookupInThread h t = some m → s'.lookupInThread h t = some m) :
    Extends s.toStore s'.toStore := by
  have hnamed : ∀ h t a, (Evidence.NamedBy s.toStore h t a ∨ Evidence.NamedBy s'.toStore h t a) →
      ∃ m, a = .full m ∧ s'.lookupInThread h t = some m := by
    intro h t a ha
    cases a with
    | full m => exact ⟨m, rfl, ha.elim (hkeep h t m) id⟩
    | redacted e =>
        simp [Evidence.NamedBy, ThreadedMessageStore.toStore,
          ThreadedMessageStore.envelopeInThread, henv', henv] at ha
    | opened o =>
        simp [Evidence.NamedBy, ThreadedMessageStore.toStore,
          ThreadedMessageStore.openedInThread, hopen', hopen] at ha
  refine ⟨⟨hkeep, ?_, ?_, ?_⟩, rfl⟩
  · intro h t e he
    simp [ThreadedMessageStore.toStore, ThreadedMessageStore.envelopeInThread, henv] at he
  · intro h t o ho
    simp [ThreadedMessageStore.toStore, ThreadedMessageStore.openedInThread, hopen] at ho
  · intro h t a b ha hb
    obtain ⟨m, rfl, hm⟩ := hnamed h t a ha
    obtain ⟨m', rfl, hm'⟩ := hnamed h t b hb
    rw [hm] at hm'
    injection hm' with hmm
    subst hmm
    refine ⟨fun p q hp hq => ?_, fun c c' hc hc' => ?_⟩
    · rw [hp] at hq
      exact Option.some.inj hq
    · rw [hc] at hc'
      exact Option.some.inj hc'

/-- A threaded store without shelves grows by appending. -/
theorem extends_append {s : ThreadedMessageStore} (henv : s.envelopes = ∅) (hopen : s.opened = ∅)
    (hash : ContentHash) (thread : ThreadId) (message : Message) :
    Extends s.toStore (s.append hash thread message).2.toStore := by
  obtain ⟨henv', hopen'⟩ := s.shelves_append hash thread message
  refine extends_of_lookup henv hopen (henv'.trans henv) (hopen'.trans hopen) ?_
  intro h t m hm
  by_cases hfresh : hash ∈ s.index
  · rw [ThreadedMessageStore.append, dif_pos hfresh]
    exact hm
  · rw [ThreadedMessageStore.lookupInThread_append hfresh, if_neg]
    · exact hm
    · rintro rfl
      exact hfresh (ThreadedMessageStore.mem_index_of_lookup hm)

/-- A thread with one tick. -/
def oneTick : ThreadedMessageStore :=
  (ThreadedMessageStore.new.append "h1" "t" (tick (.single "r"))).2

/-- Stability at a growing thread: the second tick stays valid, and a tick that cites nothing
    stays a violation. -/
theorem verdict_stable_ticks :
    verifyCausalForRole (tick (.single "h1")) ⟨"clock", none⟩ tickDialect tickCast
        (oneTick.append "h2" "t" (tick (.single "h1"))).2.toStore "t" "r" = .valid ∧
    ∃ v, verifyCausal "tick" none
      (oneTick.append "h2" "t" (tick (.single "h1"))).2.toStore tickProtocol "t" = .violation v :=
  ⟨((verdict_stable (extends_append rfl rfl "h2" "t" (tick (.single "h1")))).2
      (tick (.single "h1")) ⟨"clock", none⟩ tickDialect tickCast "t" "r" (by decide)).1
      (by decide),
    ((verdict_stable (extends_append rfl rfl "h2" "t" (tick (.single "h1")))).1
      "tick" none tickProtocol "t").2 ⟨.missingCausedBy, by decide⟩⟩

/-- The positions attested of a ticking thread: its root and its first tick. -/
def attestedTicks : Except String CbclPositions.CachedPositions :=
  CbclPositions.CachedPositions.restoreAttested CbclSha256.sha256 ⟨[], "r", "t"⟩ (some tickProtocol)
    [⟨"r", "hello", some .begin⟩, ⟨"h1", "tick", some (.single "r")⟩]

/-- An empty store behind a port with materialized positions. -/
def portOver (positions : Option MaterializedPositions) : MessageStore :=
  { ThreadedMessageStore.new.toStore with materializedPositions := positions }

/-- Ports over one store keep each other's evidence, whatever their positions. -/
theorem portOver_keeps (p p' : Option MaterializedPositions) :
    KeepsEvidence (portOver p) (portOver p') :=
  have hempty : Extends ThreadedMessageStore.new.toStore ThreadedMessageStore.new.toStore :=
    extends_of_lookup rfl rfl rfl rfl fun _ _ _ h => h
  have hsame := hempty.toKeepsEvidence
  ⟨hsame.lookup, hsame.envelope, hsame.opened, hsame.agree⟩

/-- **Kept evidence alone is not enough**: a second tick is valid where positions cover the first
    one, and unknown over the very same messages without them. -/
theorem verdict_not_stable :
    ∃ p, attestedTicks = .ok p ∧
      KeepsEvidence (portOver (some p.toMaterializedPositions)) (portOver none) ∧
      verifyCausal "tick" (some (.single "h1")) (portOver (some p.toMaterializedPositions))
        tickProtocol "t" = .valid ∧
      verifyCausal "tick" (some (.single "h1")) (portOver none) tickProtocol "t" = .unknown := by
  have hruns : attestedTicks.toOption.any (fun p => verifyCausal "tick" (some (.single "h1"))
      (portOver (some p.toMaterializedPositions)) tickProtocol "t" = .valid) = true := by
    decide +kernel
  obtain ⟨p, hp, hvalid⟩ := (Option.any_eq_true _ _).mp hruns
  exact ⟨p, CbclExcept.toOption_eq_some_iff.mp hp, portOver_keeps _ _, of_decide_eq_true hvalid,
    by decide⟩

-- ── Cast wrappers ────

section CastWrapper

variable {msg : Message} {d : Dialect} {cast : Cast} {t : ThreadId} {root : ContentHash}

/-- What a store holds under the root decides whether another wrapper is a second one. -/
theorem second_wrapper_iff {S : MessageStore} :
    (S.lookupInThread root t).any (· ≠ msg) = true
      ↔ ∃ held, S.lookupInThread root t = some held ∧ held ≠ msg := by
  cases S.lookupInThread root t with
  | none => simp
  | some held => simp

/-- A cast wrapper is valid iff a check that reads no store passes and the store holds no
    other message under the root. -/
theorem castWrapper_valid_iff (endpoint : Endpoint) (hwrap : msg.wrapperType = some .withRoles) :
    ∃ shape : Prop, ∀ S : MessageStore,
      (verifyCausalForRole msg endpoint d cast S t root = .valid
        ↔ shape ∧ ∀ held, S.lookupInThread root t = some held → held = msg) := by
  cases msg with
  | wrapped w params content =>
      refine ⟨pinMismatch d cast = none ∧ parseWrapperCast params d.roles = .ok cast ∧
        content.wrapperType = some .signed ∧
        content.innermostSimple.bind Message.causedBy = some .begin, fun S => ?_⟩
      have hroot : (¬ (S.lookupInThread root t).any (· ≠ .wrapped w params content) = true)
          ↔ ∀ held, S.lookupInThread root t = some held → held = .wrapped w params content := by
        rw [second_wrapper_iff]
        exact ⟨fun h held hh => by_contra fun hne => h ⟨held, hh, hne⟩,
          fun h ⟨held, hh, hne⟩ => hne (h held hh)⟩
      rw [← hroot]
      unfold verifyCausalForRole
      cases hpin : pinMismatch d cast with
      | some reason => simp [roleViolation]
      | none =>
          dsimp only
          rw [if_pos hwrap]
          unfold verifyCastWrapper
          dsimp only
          cases hparse : parseWrapperCast params d.roles with
          | error v => simp [roleViolation]
          | ok parsed =>
              dsimp only
              by_cases hcast : parsed = cast
              · by_cases hsigned : content.wrapperType = some .signed
                · by_cases hsecond : (S.lookupInThread root t).any
                      (· ≠ Message.wrapped w params content) = true
                  · rw [if_neg (not_not.mpr hcast), if_neg (not_not.mpr hsigned), if_pos hsecond]
                    exact ⟨(nomatch ·), fun h => absurd hsecond h.2⟩
                  · rw [if_neg (not_not.mpr hcast), if_neg (not_not.mpr hsigned), if_neg hsecond]
                    by_cases hbegin : content.innermostSimple.bind Message.causedBy = some .begin
                    · rw [if_pos hbegin]
                      exact ⟨fun _ => ⟨⟨rfl, hcast ▸ rfl, hsigned, hbegin⟩, hsecond⟩, fun _ => rfl⟩
                    · rw [if_neg hbegin]
                      exact ⟨(nomatch ·), fun h => absurd h.1.2.2.2 hbegin⟩
                · rw [if_neg (not_not.mpr hcast), if_pos hsigned]
                  exact ⟨(nomatch ·), fun h => absurd h.1.2.2.1 hsigned⟩
              · rw [if_pos hcast]
                exact ⟨(nomatch ·), fun h => absurd (Except.ok.inj h.1.2.1) hcast⟩
  | dialect n inner => exact nomatch hwrap
  | simple => exact nomatch hwrap
  | metaDef => exact nomatch hwrap

/-- **Stability of cast wrappers.**  A wrapper valid over a store stays valid over one that keeps
    what is held under the root exactly when no other message has arrived there; one that was held
    there itself is valid for good. -/
theorem castWrapper_stable_iff {S S' : MessageStore}
    (kept : ∀ held, S.lookupInThread root t = some held → S'.lookupInThread root t = some held)
    (endpoint : Endpoint) (hwrap : msg.wrapperType = some .withRoles)
    (hvalid : verifyCausalForRole msg endpoint d cast S t root = .valid) :
    (verifyCausalForRole msg endpoint d cast S' t root = .valid
        ↔ ∀ held, S'.lookupInThread root t = some held → held = msg) ∧
      (S.lookupInThread root t = some msg →
        verifyCausalForRole msg endpoint d cast S' t root = .valid) := by
  obtain ⟨shape, hiff⟩ := castWrapper_valid_iff
    endpoint hwrap
  have hshape := ((hiff S).mp hvalid).1
  refine ⟨⟨fun h => ((hiff S').mp h).2, fun h => (hiff S').mpr ⟨hshape, h⟩⟩, fun hheld => ?_⟩
  refine (hiff S').mpr ⟨hshape, fun held hh => ?_⟩
  rw [kept msg hheld] at hh
  exact (Option.some.inj hh).symm

/-- An opening of the ticking thread, signed by the named key. -/
def tickOpening (signer : String) : Message :=
  .wrapped .withRoles [.list [.list [.atom (.symbol "clock"), .atom (.symbol "@clock")]]]
    (.wrapped .signed [.atom (.symbol signer)]
      (.simple (.core .hello) none (.list []) [] (some "t") none (some .begin)))

/-- Before the root arrives every opening that carries the cast is valid, and the root itself
    stays so. -/
theorem castWrapper_stable_root :
    verifyCausalForRole (tickOpening "@clock") ⟨"clock", none⟩ tickDialect tickCast
      (ThreadedMessageStore.new.append "r" "t" (tickOpening "@clock")).2.toStore "t" "r"
        = .valid :=
  (castWrapper_stable_iff
    ((extends_append rfl rfl "r" "t" (tickOpening "@clock")).lookup "r" "t")
    ⟨"clock", none⟩ rfl (by decide)).1.mpr (by decide)

/-- A second opening, judged before the root arrives, is valid and then a violation. -/
theorem castWrapper_not_stable :
    ¬ ∀ (S S' : MessageStore) (msg : Message) (endpoint : Endpoint) (d : Dialect) (cast : Cast)
        (t : ThreadId) (root : ContentHash), Extends S S' →
      msg.wrapperType = some .withRoles →
      verifyCausalForRole msg endpoint d cast S t root = .valid →
      verifyCausalForRole msg endpoint d cast S' t root = .valid := by
  intro h
  have hv := h _ _ (tickOpening "@second") ⟨"clock", none⟩ tickDialect tickCast "t" "r"
    (extends_append (s := ThreadedMessageStore.new) rfl rfl "r" "t" (tickOpening "@clock")) rfl
    (by decide)
  exact absurd hv (by decide)

end CastWrapper

end CbclVerdictStability
