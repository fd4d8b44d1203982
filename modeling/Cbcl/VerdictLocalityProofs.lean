import Cbcl.VerdictStabilityProofs

/-!
# A verdict depends on the cited ancestry only

`SameOn S S' t D` says that two stores hold the same evidence about the hashes of `D`, a set
closed under citation.  The verdict on a message that cites only hashes of `D` is then the
same over both stores, violation details included (`verifyCausalForRole_local`).  When the
evidence about `D` is complete (every hash is held as a full message with a simple payload)
the verdict is decided (`verifyCausalForRole_decided`): nothing is left to wait for.
-/

namespace CbclVerdictLocality

open CbclMessage CbclProtocol CbclStore CbclRepeat CbclRepeatTable CbclStoreExtension
open CbclRole CbclVerifier CbclVerdictShape CbclVerdictStability

/-- **Two stores that agree on an ancestry.** -/
structure SameOn (S S' : MessageStore) (t : ThreadId) (D : ContentHash → Prop) : Prop where
  lookup : ∀ k, D k → S.lookupInThread k t = S'.lookupInThread k t
  envelope : ∀ k, D k → S.envelopeInThread k t = S'.envelopeInThread k t
  opened : ∀ k, D k → S.openedInThread k t = S'.openedInThread k t
  closed : ∀ k, D k → ∀ verb cause, metadata S k t = some (verb, cause) →
    ∀ c ∈ citedHashes cause, D c
  cache : S.materializedPositions = S'.materializedPositions

/-- A store that holds an ancestry in full. -/
def Complete (S : MessageStore) (t : ThreadId) (D : ContentHash → Prop) : Prop :=
  ∀ k, D k → ∃ message simple, S.lookupInThread k t = some message ∧
    message.innermostSimple = some simple

section Local

variable {S S' : MessageStore} {t : ThreadId} {D : ContentHash → Prop}

theorem SameOn.predecessorType (same : SameOn S S' t D) {k : ContentHash} (hk : D k) :
    predecessorType S k t = predecessorType S' k t := by
  unfold CbclStore.predecessorType
  rw [same.lookup k hk, same.envelope k hk, same.opened k hk]

theorem SameOn.metadata (same : SameOn S S' t D) {k : ContentHash} (hk : D k) :
    metadata S k t = metadata S' k t := by
  unfold CbclStore.metadata
  rw [same.lookup k hk, same.envelope k hk, same.opened k hk]

theorem SameOn.symm (same : SameOn S S' t D) : SameOn S' S t D :=
  ⟨fun k hk => (same.lookup k hk).symm, fun k hk => (same.envelope k hk).symm,
    fun k hk => (same.opened k hk).symm,
    fun k hk verb cause hm => same.closed k hk verb cause (by rw [same.metadata hk]; exact hm),
    same.cache.symm⟩

/-- Stores that agree grow into each other. -/
theorem SameOn.grows (same : SameOn S S' t D) : Grows S S' t D :=
  ⟨fun _ _ hk hp => by rw [← same.predecessorType hk]; exact hp,
    fun _ _ hk hm => by rw [← same.metadata hk]; exact hm,
    fun k _ hk hm => by rw [← same.lookup k hk]; exact hm, same.closed, same.cache⟩

section Resolutions

variable (same : SameOn S S' t D) (protocol : CausalProtocol) (root : Option ContentHash)
  (hashes : List String)
include same

theorem kind_same {k : String} (hk : D k) :
    (Resolution.new S protocol t root hashes).kind k
      = (Resolution.new S' protocol t root hashes).kind k := by
  obtain ⟨hs, -, ht, -, hc, -⟩ := new_spec S protocol t root hashes
  obtain ⟨hs', -, ht', -, hc', -⟩ := new_spec S' protocol t root hashes
  unfold Resolution.kind
  rw [hs, hs', ht, ht', hc, hc', same.grows.answers.usedCache, same.predecessorType hk]

/-- **Placements depend on the ancestry only.** -/
theorem at_same (hD : ∀ h ∈ hashes, D h) (hbegin : CbclStore.predecessorType S BEGIN_KEYWORD t
      = CbclStore.predecessorType S' BEGIN_KEYWORD t) (name : String) :
    ∀ k ∈ referencedClosure S t (usedCache S protocol t root) hashes,
      (Resolution.new S protocol t root hashes).at k name
        = (Resolution.new S' protocol t root hashes).at k name := by
  obtain ⟨hs, hp, ht, hr, hcache, -⟩ := new_spec S protocol t root hashes
  obtain ⟨hs', hp', ht', hr', hcache', -⟩ := new_spec S' protocol t root hashes
  have hkindBegin : (Resolution.new S protocol t root hashes).kind BEGIN_KEYWORD
      = (Resolution.new S' protocol t root hashes).kind BEGIN_KEYWORD := by
    unfold Resolution.kind
    rw [hs, hs', ht, ht', hcache, hcache', same.grows.answers.usedCache, hbegin]
  have hrepeated : ∀ b, (Resolution.new S protocol t root hashes).repeated b
      = (Resolution.new S' protocol t root hashes).repeated b := fun b => by
    unfold Resolution.repeated
    rw [hp, hp']
  refine (topo_protocolOrder protocol).induct (P := fun n =>
    ∀ k ∈ referencedClosure S t (usedCache S protocol t root) hashes,
      (Resolution.new S protocol t root hashes).at k n
        = (Resolution.new S' protocol t root hashes).at k n) ?_ name
  -- the induction is along the order of the table: a row reads only rows before it
  intro n ih k hk
  obtain ⟨hDk, hk'⟩ := same.grows.answers.closure hD hk
  have hkind := kind_same same protocol root hashes hDk
  have hwrong : (Resolution.new S protocol t root hashes).wrong k [n]
      = (Resolution.new S' protocol t root hashes).wrong k [n] := by
    unfold Resolution.wrong
    rw [hkind]
  cases hc : cachedFact (usedCache S protocol t root) k with
  | some fact =>
      rw [at_of_cached (by rw [hcache]; exact hc),
        at_of_cached (by rw [hcache', ← same.grows.answers.usedCache]; exact hc), hrepeated, hwrong]
  | none =>
      have hcR : cachedFact (Resolution.new S protocol t root hashes).materialized k = none := by
        rw [hcache]
        exact hc
      have hcR' : cachedFact (Resolution.new S' protocol t root hashes).materialized k = none := by
        rw [hcache', ← same.grows.answers.usedCache]
        exact hc
      cases hfound : (Resolution.new S protocol t root hashes).kind k with
      | none =>
          rw [at_of_kind_none hfound, at_of_kind_none (by rw [← hkind]; exact hfound)]
      | some found =>
          have hfound' : (Resolution.new S' protocol t root hashes).kind k = some found := by
            rw [← hkind]
            exact hfound
          by_cases heq : found = repeatBaseName n
          · -- an ordinary step is placed by its kind alone, a copy by its row
            by_cases hord : Ordinary (Resolution.new S protocol t root hashes) found n
            · have hord' : Ordinary (Resolution.new S' protocol t root hashes) found n :=
                ⟨hord.1, by rw [← hrepeated]; exact hord.2⟩
              rw [at_of_ordinary hcR hfound heq hord, at_of_ordinary hcR' hfound' heq hord']
            · have hord' : ¬ Ordinary (Resolution.new S' protocol t root hashes) found n :=
                fun h => hord ⟨h.1, by rw [hrepeated]; exact h.2⟩
              cases hm : CbclStore.metadata S k t with
              | none =>
                  rw [at_of_metadata_none hcR hfound heq hord (by rw [hs, ht]; exact hm),
                    at_of_metadata_none hcR' hfound' heq hord'
                      (by rw [hs', ht', ← same.metadata hDk]; exact hm)]
              | some data =>
                  obtain ⟨verb, cause⟩ := data
                  have hverb := verb_eq_of_kind hc hfound hm
                  subst hverb
                  have hm' : CbclStore.metadata S' k t = some (verb, cause) := by
                    rw [← same.metadata hDk]
                    exact hm
                  rw [same.grows.answers.usedCache] at hk'
                  rw [at_row hk hc hm heq hord,
                    at_row hk' (by rw [← same.grows.answers.usedCache]; exact hc) hm' heq hord', hwrong]
                  by_cases hn : n ∈ protocolOrder protocol ∧ n ≠ BEGIN_KEYWORD
                  · rw [if_pos hn, if_pos hn]
                    cases hdecl : protocol.steps[n]? with
                    | none => rfl
                    | some decl =>
                        have hcited := cited_mem_referencedClosure hk hc hm
                        refine step_congr (hr.trans hr'.symm) hkindBegin
                          (fun c hc' => kind_same same protocol root hashes
                            (same.closed k hDk verb cause hm c hc')) ?_
                        intro c hc' p hp
                        exact ih decl hn.1 hdecl p hp c (hcited c hc')
                  · rw [if_neg hn, if_neg hn]
          · rw [at_of_kind_ne hcR hfound heq, at_of_kind_ne hcR' hfound' heq, hwrong]

/-- Steps judge a reference into the ancestry alike. -/
theorem new_step_same {cause : Option CausedBy} (hD : ∀ h ∈ citedHashes cause, D h)
    (hbegin : CbclStore.predecessorType S BEGIN_KEYWORD t
      = CbclStore.predecessorType S' BEGIN_KEYWORD t) (decl : StepDecl) :
    (Resolution.new S protocol t root (citedHashes cause)).step decl cause
      = (Resolution.new S' protocol t root (citedHashes cause)).step decl cause := by
  obtain ⟨hs, -, ht, hr, hcache, -⟩ := new_spec S protocol t root (citedHashes cause)
  obtain ⟨hs', -, ht', hr', hcache', -⟩ := new_spec S' protocol t root (citedHashes cause)
  refine step_congr (hr.trans hr'.symm) ?_ (fun h hh => kind_same same protocol root _ (hD h hh))
    fun h hh p _ => at_same same protocol root _ hD hbegin p h (mem_referencedClosure_of_mem hh)
  unfold Resolution.kind
  rw [hs, hs', ht, ht', hcache, hcache', same.grows.answers.usedCache, hbegin]

/-- The verdict over a protocol with copies depends on the ancestry only. -/
theorem repeat_verify_same (verb : String) {cause : Option CausedBy}
    (hD : ∀ h ∈ citedHashes cause, D h) (hbegin : CbclStore.predecessorType S BEGIN_KEYWORD t
      = CbclStore.predecessorType S' BEGIN_KEYWORD t) :
    CbclRepeat.verify verb cause S protocol t root
      = CbclRepeat.verify verb cause S' protocol t root := by
  have hstep := new_step_same same protocol root hD hbegin
  obtain ⟨-, hp, -⟩ := new_spec S protocol t root (citedHashes cause)
  obtain ⟨-, hp', -⟩ := new_spec S' protocol t root (citedHashes cause)
  unfold CbclRepeat.verify
  split
  · unfold Resolution.verify
    rw [hp, hp']
    simp only [hstep]
  · rfl

end Resolutions

-- ── The kernel path and the occupant count ────

section Verifiers

variable (same : SameOn S S' t D)
include same

theorem verifyFanIn_same (perf : String) (all_decl : Option (BTreeSet String))
    {hashes : List String} (hD : ∀ h ∈ hashes, D h) :
    verifyFanIn S t perf all_decl hashes = verifyFanIn S' t perf all_decl hashes := by
  have hscan : ∀ (all_set : BTreeSet String) (scan : FanInScan),
      hashes.foldl (scanHash S t all_set) scan = hashes.foldl (scanHash S' t all_set) scan := by
    intro all_set scan
    refine List.foldl_ext _ _ scan fun scan h hh => ?_
    unfold scanHash
    rw [same.predecessorType (hD h hh)]
  unfold verifyFanIn
  cases all_decl with
  | none => rfl
  | some all_set => simp only [hscan all_set]

/-- Causal verification depends on the ancestry only. -/
theorem verifyCausal_same (perf : String) {cause : Option CausedBy} (protocol : CausalProtocol)
    (hD : ∀ h ∈ citedHashes cause, D h) (hbegin : CbclStore.predecessorType S BEGIN_KEYWORD t
      = CbclStore.predecessorType S' BEGIN_KEYWORD t) :
    verifyCausal perf cause S protocol t = verifyCausal perf cause S' protocol t := by
  unfold verifyCausal
  split
  · exact repeat_verify_same same protocol none perf hD hbegin
  · cases protocol.steps[perf]? with
    | none => rfl
    | some step =>
        show verifyStep step perf cause S t = verifyStep step perf cause S' t
        unfold verifyStep
        cases cause with
        | none => rfl
        | some cb =>
            cases cb with
            | begin => rfl
            | single h =>
                show verifySingle S t step h = verifySingle S' t step h
                unfold verifySingle
                rw [same.predecessorType (hD h (List.mem_singleton_self h))]
            | multiple hs => exact verifyFanIn_same same perf (firstAll step) hD

/-- The occupant count depends on the cited messages and their placements. -/
theorem occupantFanin_same {perf : String} {cause : Option CausedBy} {d : Dialect} {cast : Cast}
    {ρ ρ' : Option Resolution} (hD : ∀ h ∈ citedHashes cause, D h)
    (hinst : ∀ hs, cause = some (.multiple hs) → ∀ h ∈ hs, ∀ p simple,
      isInstance ρ p h simple = isInstance ρ' p h simple) :
    occupantFanin perf cause d cast S t ρ = occupantFanin perf cause d cast S' t ρ' := by
  by_cases hdecided : occupantFanin perf cause d cast S t ρ = .unknown
  · by_cases hdecided' : occupantFanin perf cause d cast S' t ρ' = .unknown
    · rw [hdecided, hdecided']
    · exact occupantFanin_stable same.symm.grows hD
        (fun hs hc h hh p simple => (hinst hs hc h hh p simple).symm) hdecided'
  · exact (occupantFanin_stable same.grows hD hinst hdecided).symm

/-- The candidates of a reference into the ancestry are the same. -/
theorem candidates_same {cp : CausalProtocol} {perf : String} {cause : Option CausedBy}
    {root : ContentHash} (hD : ∀ h ∈ citedHashes cause, D h)
    (hbegin : CbclStore.predecessorType S BEGIN_KEYWORD t
      = CbclStore.predecessorType S' BEGIN_KEYWORD t) :
    candidates S cp perf cause t root = candidates S' cp perf cause t root := by
  have hstep := new_step_same same cp (some root) hD hbegin
  unfold candidates
  simp only [hstep]

/-- **Role-local verification depends on the cited ancestry only.** -/
theorem verifySimple_same (msg : Message) {simple : Message} (perf : String) (d : Dialect)
    (cast : Cast) (root : ContentHash) (hD : ∀ h ∈ citedHashes simple.causedBy, D h)
    (hbegin : CbclStore.predecessorType S BEGIN_KEYWORD t
      = CbclStore.predecessorType S' BEGIN_KEYWORD t) :
    verifySimple msg simple perf d cast S t root
      = verifySimple msg simple perf d cast S' t root := by
  have hr5 : rolePredecessors perf simple.causedBy d S t root
      = rolePredecessors perf simple.causedBy d S' t root := by
    unfold rolePredecessors
    cases d.causal_protocol with
    | none => rfl
    | some cp =>
        dsimp only
        split
        · exact repeat_verify_same same cp (some root) perf hD hbegin
        · exact verifyCausal_same same perf cp (fun h hh => hD h (mem_cited_of_rewrite hh)) hbegin
  have hfan : repeatOccupantFanin perf simple.causedBy d cast S t root
      = repeatOccupantFanin perf simple.causedBy d cast S' t root := by
    cases hcp : d.causal_protocol with
    | none =>
        rw [repeatOccupantFanin_plain (by rw [hcp]; rfl), repeatOccupantFanin_plain (by rw [hcp]; rfl)]
        exact occupantFanin_same same hD fun _ _ _ _ _ _ => rfl
    | some cp =>
        by_cases hrep : hasRepeat cp = true
        · rw [repeatOccupantFanin_eq hcp hrep, repeatOccupantFanin_eq hcp hrep,
            candidates_same same hD hbegin]
          refine congrArg _ (List.map_congr_left fun entry _ => ?_)
          refine occupantFanin_same same hD fun hs hcause h hh p simple' => ?_
          have hcited : ∀ h ∈ hs, h ∈ citedHashes simple.causedBy := by
            rw [hcause]
            exact fun _ hh => hh
          unfold isInstance
          dsimp only
          rw [at_same same cp (some root) _ hD hbegin p h
            (mem_referencedClosure_of_mem (hcited h hh))]
        · rw [repeatOccupantFanin_plain (by rw [hcp, Option.filter_some, if_neg hrep]),
            repeatOccupantFanin_plain (by rw [hcp, Option.filter_some, if_neg hrep])]
          exact occupantFanin_same same hD fun _ _ _ _ _ _ => rfl
  unfold verifySimple
  rw [hr5, hfan]

/-- **Locality.**  A message that is no `with-roles` wrapper and cites an ancestry on which two
    stores agree gets the same verdict over both. -/
theorem verifyCausalForRole_local (msg : Message) (endpoint : Endpoint) (d : Dialect)
    (cast : Cast) (root : ContentHash) (hwrap : msg.wrapperType ≠ some .withRoles)
    (hD : ∀ h ∈ citedHashes (msg.innermostSimple.bind Message.causedBy), D h)
    (hbegin : CbclStore.predecessorType S BEGIN_KEYWORD t
      = CbclStore.predecessorType S' BEGIN_KEYWORD t) :
    verifyCausalForRole msg endpoint d cast S t root
      = verifyCausalForRole msg endpoint d cast S' t root := by
  unfold verifyCausalForRole
  cases pinMismatch d cast with
  | some reason => rfl
  | none =>
      dsimp only
      rw [if_neg hwrap, if_neg hwrap]
      cases hs : msg.innermostSimple with
      | none => rfl
      | some simple =>
          rw [hs] at hD
          dsimp only
          cases simple.performative with
          | none => rfl
          | some p => exact verifySimple_same same msg p.name d cast root hD hbegin

end Verifiers

end Local

-- ── Complete ancestries are decided ────

section Steps

variable {r : Resolution}

/-- A step is decided when the cited hashes are typed and placed or refused everywhere. -/
theorem step_decided {decl : StepDecl} {cause : Option CausedBy}
    (hkind : ∀ h ∈ citedHashes cause, r.kind h ≠ none)
    (hat : ∀ h ∈ citedHashes cause, ∀ p ∈ predecessorNames decl, r.at h p ≠ .unknown) :
    r.step decl cause ≠ .unknown := by
  unfold Resolution.step
  cases hrw : Resolution.rewriteRoot r.root cause with
  | none =>
      dsimp only
      split
      · exact fun h => nomatch h
      · exact fun h => nomatch h
  | some cb =>
      cases cb with
      | begin =>
          dsimp only
          split
          · exact fun h => nomatch h
          · exact fun h => nomatch h
      | single h =>
          have hcause := cause_of_rewriteRoot hrw (by simp)
          subst hcause
          have hmem : h ∈ citedHashes (some (.single h)) := List.mem_singleton_self h
          intro hunk
          by_cases hv : ∃ p ∈ allowedSinglePredecessors decl, r.at h p = .valid
          · have hvalid := alternatives_valid_iff.mpr hv
            exact nomatch hvalid.symm.trans hunk
          · have hviol := alternatives_violation_iff.mpr ⟨hkind h hmem, fun p hp =>
              isViolation_of_ne (fun hpv => hv ⟨p, hp, hpv⟩) (hat h hmem p (allowed_subset hp))⟩
            exact not_violation_unknown (hunk ▸ hviol)
      | multiple hs =>
          have hcause := cause_of_rewriteRoot hrw (by simp)
          subst hcause
          cases hall : firstAll decl with
          | none => exact fun h => nomatch h
          | some all =>
              have hat' : ∀ h ∈ hs, ∀ p ∈ all.toList, r.at h p ≠ .unknown :=
                fun h hh p hp => hat h hh p (firstAll_subset hall hp)
              show r.fanIn all.toList hs ≠ .unknown
              rcases fanIn_cases (r := r) all.toList hs with
                ⟨-, hviol⟩ | ⟨hopen, href, -⟩ | ⟨-, -, hv⟩ | ⟨-, -, -, hviol⟩
              · exact fun hunk => not_violation_unknown (hunk ▸ hviol)
              · rcases hopen with ⟨h, hh, hno⟩ | ⟨p, hp, -, h, hh, hun⟩
                · exact absurd ⟨h, hh, hkind h hh, fun p hp =>
                    isViolation_of_ne (hno p hp) (hat' h hh p hp)⟩ href
                · exact absurd hun (hat' h hh p hp)
              · exact fun hunk => nomatch hv.symm.trans hunk
              · exact fun hunk => not_violation_unknown (hunk ▸ hviol)

end Steps

section Decided

variable {S : MessageStore} {t : ThreadId} {D : ContentHash → Prop} (grow : Grows S S t D)
  (complete : Complete S t D)
include complete

theorem Complete.predecessorType {k : ContentHash} (hk : D k) :
    CbclStore.predecessorType S k t ≠ none := by
  obtain ⟨message, simple, hm, -⟩ := complete k hk
  unfold CbclStore.predecessorType
  rw [hm]
  exact fun h => nomatch h

theorem Complete.metadata {k : ContentHash} (hk : D k) : CbclStore.metadata S k t ≠ none := by
  obtain ⟨message, simple, hm, hs⟩ := complete k hk
  obtain ⟨p, hp⟩ := Message.performative_of_innermostSimple hs
  unfold CbclStore.metadata fullMetadata
  rw [hm]
  simp [hs, hp]

theorem Complete.kind (protocol : CausalProtocol) (root : Option ContentHash)
    (hashes : List String) {k : ContentHash} (hk : D k) :
    (Resolution.new S protocol t root hashes).kind k ≠ none := by
  obtain ⟨hs, -, ht, -⟩ := new_spec S protocol t root hashes
  unfold Resolution.kind
  rw [hs, ht]
  split
  · exact fun h => nomatch h
  · exact complete.predecessorType hk

include grow

/-- **Placements over a complete ancestry are decided.** -/
theorem at_decided (protocol : CausalProtocol) (root : Option ContentHash) (hashes : List String)
    (hD : ∀ h ∈ hashes, D h) (name : String) :
    ∀ k ∈ referencedClosure S t (usedCache S protocol t root) hashes,
      (Resolution.new S protocol t root hashes).at k name ≠ .unknown := by
  obtain ⟨hs, -, ht, -, hcache, -⟩ := new_spec S protocol t root hashes
  refine (topo_protocolOrder protocol).induct (P := fun n =>
    ∀ k ∈ referencedClosure S t (usedCache S protocol t root) hashes,
      (Resolution.new S protocol t root hashes).at k n ≠ .unknown) ?_ name
  intro n ih k hk
  obtain ⟨hDk, -⟩ := grow.answers.closure hD hk
  cases hc : cachedFact (usedCache S protocol t root) k with
  | some fact =>
      rw [at_of_cached (by rw [hcache]; exact hc)]
      split
      · exact fun h => nomatch h
      · exact fun h => nomatch h
  | none =>
      have hcR : cachedFact (Resolution.new S protocol t root hashes).materialized k = none := by
        rw [hcache]
        exact hc
      obtain ⟨found, hfound⟩ :=
        Option.ne_none_iff_exists'.mp (complete.kind protocol root hashes hDk)
      by_cases heq : found = repeatBaseName n
      · by_cases hord : Ordinary (Resolution.new S protocol t root hashes) found n
        · rw [at_of_ordinary hcR hfound heq hord]
          exact fun h => nomatch h
        · obtain ⟨⟨verb, cause⟩, hm⟩ := Option.ne_none_iff_exists'.mp (complete.metadata hDk)
          have hverb := verb_eq_of_kind hc hfound hm
          subst hverb
          rw [at_row hk hc hm heq hord]
          by_cases hn : n ∈ protocolOrder protocol ∧ n ≠ BEGIN_KEYWORD
          · rw [if_pos hn]
            cases hdecl : protocol.steps[n]? with
            | none => exact fun h => nomatch h
            | some decl =>
                refine step_decided
                  (fun c hc' => complete.kind protocol root hashes
                    (grow.closed k hDk verb cause hm c hc')) fun c hc' p hp => ?_
                exact ih decl hn.1 hdecl p hp c (cited_mem_referencedClosure hk hc hm c hc')
          · rw [if_neg hn]
            exact fun h => nomatch h
      · rw [at_of_kind_ne hcR hfound heq]
        exact fun h => nomatch h

theorem repeat_verify_decided (protocol : CausalProtocol) (root : Option ContentHash)
    (verb : String) {cause : Option CausedBy} (hD : ∀ h ∈ citedHashes cause, D h) :
    CbclRepeat.verify verb cause S protocol t root ≠ .unknown := by
  unfold CbclRepeat.verify
  split
  · intro hunk
    have hstep : ∀ decl,
        (Resolution.new S protocol t root (citedHashes cause)).step decl cause ≠ .unknown :=
      fun decl => step_decided (fun h hh => complete.kind protocol root _ (hD h hh))
        fun h hh p _ => at_decided grow complete protocol root _ hD p h
          (mem_referencedClosure_of_mem hh)
    by_cases hv : ∃ decl, IsCopyOf
        (Resolution.new S protocol t root (citedHashes cause)).protocol verb decl ∧
          (Resolution.new S protocol t root (citedHashes cause)).step decl cause = .valid
    · rw [verify_valid_iff.mpr hv] at hunk
      exact nomatch hunk
    · have hviol := verify_violation_iff.mpr fun decl hcopy =>
        isViolation_of_ne (fun h => hv ⟨decl, hcopy, h⟩) (hstep decl)
      exact not_violation_unknown (hunk ▸ hviol)
  · exact fun h => nomatch h

theorem verifyCausal_decided (perf : String) {cause : Option CausedBy}
    (protocol : CausalProtocol) (hD : ∀ h ∈ citedHashes cause, D h) :
    verifyCausal perf cause S protocol t ≠ .unknown := by
  unfold verifyCausal
  split
  · exact repeat_verify_decided grow complete protocol none perf hD
  · cases protocol.steps[perf]? with
    | none => exact fun h => nomatch h
    | some step =>
        show verifyStep step perf cause S t ≠ .unknown
        unfold verifyStep
        rcases cause with _ | (_ | h | hs)
        · cases hp : step.predecessors.isEmpty <;> simp [absent]
        · cases hb : beginAllowed step <;> simp [literalBegin]
        · obtain ⟨p, hp⟩ := Option.ne_none_iff_exists'.mp
            (complete.predecessorType (hD h (List.mem_singleton_self h)))
          intro hunk
          by_cases hmem : p ∈ allowedSinglePredecessors step
          · have hv := verifySingle_valid_iff.mpr ⟨p, hp, hmem⟩
            exact nomatch hv.symm.trans hunk
          · have hviol := verifySingle_violation_iff.mpr ⟨p, hp, hmem⟩
            exact not_violation_unknown (hunk ▸ hviol)
        · show verifyFanIn S t perf (firstAll step) hs ≠ .unknown
          cases hall : firstAll step with
          | none => exact fun h => nomatch h
          | some all_set =>
              rcases verifyFanIn_cases S t perf all_set hs with
                ⟨-, hviol⟩ | ⟨⟨h, hh, hnone⟩, -, -⟩ | ⟨-, -, hv⟩ | ⟨-, -, hviol⟩
              · exact fun hunk => not_violation_unknown (hunk ▸ hviol)
              · exact absurd hnone (complete.predecessorType (hD h hh))
              · exact fun hunk => nomatch hv.symm.trans hunk
              · exact fun hunk => not_violation_unknown (hunk ▸ hviol)

omit grow in
theorem occupantFanin_decided {perf : String} {cause : Option CausedBy} {d : Dialect}
    {cast : Cast} {ρ : Option Resolution} (hD : ∀ h ∈ citedHashes cause, D h) :
    occupantFanin perf cause d cast S t ρ ≠ .unknown := by
  have hresolve : ∀ hs : List String, (∀ h ∈ hs, D h) →
      ∃ resolved, (hs.mapM fun h => (S.lookupInThread h t).map (h, ·)) = some resolved := by
    intro hs
    induction hs with
    | nil => exact fun _ => ⟨[], rfl⟩
    | cons h rest ih =>
        intro hall
        obtain ⟨message, -, hm, -⟩ := complete h (hall h (List.mem_cons_self ..))
        obtain ⟨tail, htail⟩ := ih fun k hk => hall k (List.mem_cons_of_mem _ hk)
        exact ⟨(h, message) :: tail, by rw [List.mapM_cons, hm, htail]; rfl⟩
  unfold occupantFanin
  cases d.causal_protocol.bind (·.steps[perf]?) with
  | none => exact fun h => nomatch h
  | some step =>
      dsimp only
      split
      · exact fun h => nomatch h
      · rcases cause with _ | (_ | h | hs)
        · exact fun h => nomatch h
        · exact fun h => nomatch h
        · exact fun h => nomatch h
        · obtain ⟨resolved, hres⟩ := hresolve hs hD
          dsimp only
          rw [hres]
          dsimp only
          split
          · exact fun h => nomatch h
          · exact fun h => nomatch h

omit grow complete in
/-- Decided candidates are chosen decidedly. -/
theorem chooseCandidate_decided {values : List VerificationResult}
    (h : ∀ v ∈ values, v ≠ .unknown) : chooseCandidate none values ≠ .unknown := by
  intro hunk
  by_cases hv : .valid ∈ values ∨ (none : Option VerificationResult) = none ∧ values = []
  · rw [(chooseCandidate_valid_iff (by simp)).mpr hv] at hunk
    exact nomatch hunk
  · rw [not_or, not_and] at hv
    have hviol : IsViolation (chooseCandidate none values) :=
      (chooseCandidate_violation_iff (by simp)).mpr
        ⟨fun v hmem => isViolation_of_ne (fun hv' => hv.1 (hv' ▸ hmem)) (h v hmem), by simp, hv.2⟩
    exact not_violation_unknown (hunk ▸ hviol)

omit grow complete in
theorem meet_decided {a b : VerificationResult} (ha : a ≠ .unknown) (hb : b ≠ .unknown) :
    a.meet b ≠ .unknown := by
  cases a <;> cases b <;> simp_all [VerificationResult.meet]

omit grow complete in
/-- Role conformance never waits. -/
theorem checkConformance_decided (outer simple : Message) (ann : RoleAnnotation) (cast : Cast) :
    checkConformance outer simple ann cast ≠ .unknown := by
  unfold checkConformance
  cases signerOf outer with
  | none => exact fun h => nomatch h
  | some sender =>
      dsimp only
      split
      · exact fun h => nomatch h
      · split
        · exact fun h => nomatch h
        · exact fun h => nomatch h

/-- **A complete ancestry decides the verdict.** -/
theorem verifyCausalForRole_decided (msg : Message) (endpoint : Endpoint) (d : Dialect)
    (cast : Cast) (root : ContentHash) (hwrap : msg.wrapperType ≠ some .withRoles)
    (hD : ∀ h ∈ citedHashes (msg.innermostSimple.bind Message.causedBy), D h) :
    verifyCausalForRole msg endpoint d cast S t root ≠ .unknown := by
  unfold verifyCausalForRole
  cases pinMismatch d cast with
  | some reason => exact fun h => nomatch h
  | none =>
      dsimp only
      rw [if_neg hwrap]
      cases hs : msg.innermostSimple with
      | none => exact fun h => nomatch h
      | some simple =>
          rw [hs] at hD
          dsimp only
          cases simple.performative with
          | none => exact fun h => nomatch h
          | some p =>
              have hr5 : rolePredecessors p.name simple.causedBy d S t root ≠ .unknown := by
                unfold rolePredecessors
                cases d.causal_protocol with
                | none => exact fun h => nomatch h
                | some cp =>
                    dsimp only
                    split
                    · exact repeat_verify_decided grow complete cp (some root) p.name hD
                    · exact verifyCausal_decided grow complete p.name cp
                        fun h hh => hD h (mem_cited_of_rewrite hh)
              have hfan : repeatOccupantFanin p.name simple.causedBy d cast S t root
                  ≠ .unknown := by
                unfold repeatOccupantFanin
                cases d.causal_protocol.filter hasRepeat with
                | none => exact occupantFanin_decided complete hD
                | some cp =>
                    refine chooseCandidate_decided fun v hv => ?_
                    obtain ⟨entry, -, rfl⟩ := List.mem_map.mp hv
                    exact occupantFanin_decided complete hD
              show verifySimple msg simple p.name d cast S t root ≠ .unknown
              unfold verifySimple
              dsimp only
              split
              · exact fun h => nomatch h
              · refine meet_decided (meet_decided ?_ hr5) hfan
                split
                · exact checkConformance_decided _ _ _ _
                · exact fun h => nomatch h

end Decided

end CbclVerdictLocality
