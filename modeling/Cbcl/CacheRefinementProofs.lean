import Cbcl.BundleProofs
import Cbcl.PositionsProofs
import Cbcl.Sha256Proofs
import Cbcl.VerdictStabilityProofs

/-!
# The position cache refines full resolution

A cache decides the steps of a message once, from the facts of what it cites; the resolver over
a store of whole messages fills a table over the ancestry.  Along the order in which messages
were applied the two agree: a covered message is placed at a step by its fact as it is by its
row, because both judge the step on the message's own reference and what that cites was applied
before.

Two things a cache does are not in the table.  A cache reads a reference in the state spelling
under its native one, so the store has to hold a message under every spelling it is cited by,
a single reference to the root apart; and a cache judges every declared step, where the table
has no row for a step that is never ready.
-/

namespace CbclPositions

open CbclMessage CbclProtocol CbclStore CbclRepeat CbclRepeatTable CbclState CbclStateMeaning
  CbclStateProgress CbclAct CbclCanonical CbclTypedAddr CbclCodec CbclTreeMap CbclVerdictShape
  CbclVerifier CbclThreadedStore CbclBundle
open VerificationResult ThreadedMessageStore

-- ── Messages applied in turn ────

section Log

variable (sha256 : Octets → Digest)

/-- Apply accepted messages in turn; the first refusal ends. -/
def CachedPositions.applyAll (p : CachedPositions) (log : List Message) :
    Except String CachedPositions :=
  log.foldlM (fun p message => p.applyAccepted sha256 message) p

/-- What a cache keeps of a message. -/
def metadataOf (message : Message) : Option PositionMetadata := do
  let simple ← message.innermostSimple
  let performative ← simple.performative
  return ⟨typedRoot sha256 simple, performative.name, simple.causedBy⟩

/-- The ranks that records of a verb hold. -/
def recordRanks (protocol : CausalProtocol) (p : CachedPositions)
    (data : List PositionMetadata) (verb : String) : Set Nat :=
  {k | ∃ table, (ranksOf protocol)[verb]? = some table ∧ ∃ d ∈ data, d.verb = verb ∧
    ∃ s ∈ establishedSteps p.toMaterializedPositions d, table[s]? = some k}

/-- A cache records metadata: its facts are those of the records, every record cites records
    before it, and the progress of a verb is the greatest rank its records hold. -/
structure Records (protocol : CausalProtocol) (context : PositionContext) (p : CachedPositions)
    (data : List PositionMetadata) : Prop where
  context : p.context = context
  bound : p.protocol = some protocol
  ranks : p.ranks = ranksOf protocol
  sound : Sound (priorityOf sha256) p.entries
  facts : ∀ f, f ∈ values p.entries ↔
    ∃ d ∈ data, f = ⟨d, establishedSteps p.toMaterializedPositions d⟩
  causal : ∀ pre d post, data = pre ++ d :: post → ∀ h ∈ citedHashes d.cause,
    ∃ b ∈ pre, nativeReference h = b.id
  progress : ∀ verb, IsGreatest (insert 0 (recordRanks protocol p data verb)) (p.progressOf verb)

variable {sha256} {protocol : CausalProtocol} {context : PositionContext}
  {p p' : CachedPositions} {data : List PositionMetadata} {d : PositionMetadata}

/-- An empty cache records nothing. -/
theorem records_new (h : CachedPositions.new context (some protocol) = .ok p) :
    Records sha256 protocol context p [] := by
  unfold CachedPositions.new at h
  dsimp only at h
  split at h
  · exact nomatch h
  injection h with h
  subst h
  refine ⟨rfl, rfl, rfl, trivial, fun f => ?_, ?_, fun verb => ⟨?_, ?_⟩⟩
  · exact iff_of_false (fun hf => nomatch hf) fun ⟨d, hd, _⟩ => nomatch hd
  · intro pre d post hnil
    exact absurd hnil.symm (by simp)
  · left
    show (((∅ : BTreeMap String Nat)[verb]?).getD 0) = 0
    rw [Std.ExtTreeMap.getElem?_empty]
    rfl
  · rintro k (rfl | ⟨_, _, d, hd, _⟩)
    · exact Nat.zero_le _
    · exact nomatch hd

theorem Records.keeps (hr : Records sha256 protocol context p data) : Keeps sha256 p data :=
  ⟨hr.sound, hr.facts, hr.causal⟩

/-- What a cache finds under an identity. -/
theorem Records.get_iff (hr : Records sha256 protocol context p data) {id : String}
    {f : PositionFact} : p.entries.get id = some f ↔
      ∃ b ∈ data, b.id = id ∧ f = ⟨b, establishedSteps p.toMaterializedPositions b⟩ :=
  hr.keeps.get_iff

theorem Records.get (hr : Records sha256 protocol context p data) (hd : d ∈ data) :
    p.entries.get d.id = some ⟨d, establishedSteps p.toMaterializedPositions d⟩ :=
  hr.get_iff.mpr ⟨d, hd, rfl, rfl⟩

/-- Records are told apart by their identities. -/
theorem Records.unique (hr : Records sha256 protocol context p data) {b : PositionMetadata}
    (hd : d ∈ data) (hb : b ∈ data) (hid : d.id = b.id) : d = b := by
  have h := hr.get hd
  rw [hid, hr.get hb, Option.some_inj] at h
  exact (congrArg PositionFact.metadata h).symm

/-- The greatest of two sets of numbers with zero. -/
theorem isGreatest_union {A B : Set Nat} {a b : Nat} (ha : IsGreatest (insert 0 A) a)
    (hb : IsGreatest (insert 0 B) b) : IsGreatest (insert 0 (A ∪ B)) (max a b) := by
  rw [Set.insert_union_distrib]
  exact ha.union hb

/-- The greatest rank a set of steps has in a table, zero if it has none. -/
theorem isGreatest_tableRanks (table : BTreeMap String Nat) (steps : BTreeSet String) :
    IsGreatest (insert 0 {k | ∃ s ∈ steps, table[s]? = some k})
      (((steps.toList.filterMap fun s => table[s]?).max?).getD 0) := by
  have hmem : ∀ k, k ∈ (steps.toList.filterMap fun s => table[s]?) ↔
      ∃ s ∈ steps, table[s]? = some k := by
    intro k
    simp [List.mem_filterMap]
  cases hmax : (steps.toList.filterMap fun s => table[s]?).max? with
  | none =>
      rw [List.max?_eq_none_iff] at hmax
      refine ⟨Or.inl rfl, ?_⟩
      rintro k (rfl | hk)
      · exact Nat.le_refl _
      · have := (hmem k).mpr hk
        rw [hmax] at this
        exact nomatch this
  | some m =>
      obtain ⟨hm, hle⟩ := List.max?_eq_some_iff.mp hmax
      refine ⟨Or.inr ((hmem m).mp hm), ?_⟩
      rintro k (rfl | hk)
      · exact Nat.zero_le _
      · exact hle k ((hmem k).mpr hk)

/-- The progress of a verb after one more record. -/
theorem Records.advance (hr : Records sha256 protocol context p data)
    (hstable : ∀ b ∈ data, establishedSteps p'.toMaterializedPositions b
      = establishedSteps p.toMaterializedPositions b)
    (hprogress : p'.progress
      = p.advance d.verb (establishedSteps p'.toMaterializedPositions d)) (verb : String) :
    IsGreatest (insert 0 (recordRanks protocol p' (data ++ [d]) verb)) (p'.progressOf verb) := by
  have hpast : recordRanks protocol p' data verb = recordRanks protocol p data verb := by
    ext k
    refine exists_congr fun table => and_congr_right fun _ => exists_congr fun b =>
      and_congr_right fun hb => ?_
    rw [hstable b hb]
  have hsplit : recordRanks protocol p' (data ++ [d]) verb
      = recordRanks protocol p data verb ∪ recordRanks protocol p' [d] verb := by
    rw [← hpast]
    ext k
    simp only [recordRanks, Set.mem_ofPred_eq, Set.mem_union, List.mem_append, or_and_right,
      exists_or, and_or_left]
  have hnew : ∀ n, IsGreatest (insert 0 (recordRanks protocol p' [d] verb)) n →
      p'.progressOf verb = max (p.progressOf verb) n →
        IsGreatest (insert 0 (recordRanks protocol p' (data ++ [d]) verb)) (p'.progressOf verb) := by
    intro n hn hmax
    rw [hmax, hsplit]
    exact isGreatest_union (hr.progress verb) hn
  have hnone : recordRanks protocol p' [d] verb = ∅ → p'.progressOf verb = p.progressOf verb →
      IsGreatest (insert 0 (recordRanks protocol p' (data ++ [d]) verb)) (p'.progressOf verb) := by
    intro hempty hsame
    refine hnew 0 ?_ (by rw [hsame, Nat.max_zero])
    rw [hempty]
    exact ⟨Or.inl rfl, fun k hk => by rcases hk with rfl | hk; exact Nat.le_refl _; cases hk⟩
  have hread : ∀ n, (p.advance d.verb (establishedSteps p'.toMaterializedPositions d))[verb]?
      = some n → p'.progressOf verb = n := by
    intro n hn
    unfold CachedPositions.progressOf
    rw [hprogress, hn]
    rfl
  by_cases hverb : d.verb = verb
  · cases htable : (ranksOf protocol)[verb]? with
    | none =>
        refine hnone (Set.eq_empty_of_forall_notMem ?_) ?_
        · rintro k ⟨table, ht, -⟩
          rw [htable] at ht
          cases ht
        · unfold CachedPositions.progressOf
          rw [hprogress]
          unfold CachedPositions.advance
          rw [hr.ranks, hverb, htable]
    | some table =>
        have hset : recordRanks protocol p' [d] verb
            = {k | ∃ s ∈ establishedSteps p'.toMaterializedPositions d, table[s]? = some k} := by
          ext k
          simp [recordRanks, htable, hverb]
        refine hnew _ (hset ▸ isGreatest_tableRanks table _) (hread _ ?_)
        unfold CachedPositions.advance
        rw [hr.ranks, hverb, htable]
        dsimp only
        rw [getElem?_insert_eq, if_pos rfl]
  · refine hnone (Set.eq_empty_of_forall_notMem ?_) ?_
    · rintro k ⟨_, _, b, hb, hbv, _⟩
      rw [List.mem_singleton.mp hb] at hbv
      exact hverb hbv
    · unfold CachedPositions.progressOf
      rw [hprogress, advance_other hverb]

/-- **One record keeps the cache recording**: it is known already, or it comes last. -/
theorem Records.step (hr : Records sha256 protocol context p data)
    (h : p.applyMetadata sha256 d = .ok p') :
    (p' = p ∧ d ∈ data) ∨ Records sha256 protocol context p' (data ++ [d]) := by
  cases hold : p.entries.get d.id with
  | some old =>
      left
      obtain ⟨b, hb, -, rfl⟩ := hr.get_iff.mp hold
      unfold CachedPositions.applyMetadata at h
      rw [hold] at h
      dsimp only at h
      split at h
      · rename_i heq
        injection h with h
        exact ⟨h.symm, heq ▸ hb⟩
      · exact nomatch h
  | none =>
      right
      obtain ⟨-, hp'⟩ := applyMetadata_ok hold h
      obtain ⟨hkeeps, hstable⟩ := hr.keeps.step hold h
      refine ⟨?_, ?_, ?_, hkeeps.sound, hkeeps.facts, hkeeps.causal, ?_⟩
      · rw [← hr.context, hp']
        rfl
      · rw [← hr.bound, hp']
        rfl
      · rw [← hr.ranks, hp']
        rfl
      · refine hr.advance (fun b hb => hstable b (List.mem_append_left _ hb)) ?_
        rw [hstable d (by simp), hp']
        rfl

/-- Induction along the records. -/
theorem Records.induct (hr : Records sha256 protocol context p data)
    {P : PositionMetadata → Prop} (hstep : ∀ d ∈ data, (∀ k ∈ citedHashes d.cause, ∃ b ∈ data,
      nativeReference k = b.id ∧ P b) → P d) : ∀ d ∈ data, P d :=
  hr.keeps.induct hstep

/-- What an accepted message records. -/
theorem metadataOf_applied {message : Message} (h : p.applyAccepted sha256 message = .ok p') :
    ∃ d, metadataOf sha256 message = some d ∧ p.applyMetadata sha256 d = .ok p' := by
  unfold CachedPositions.applyAccepted at h
  cases hs : message.innermostSimple with
  | none => rw [hs] at h; exact nomatch h
  | some simple =>
      rw [hs] at h
      dsimp only at h
      split at h
      · exact nomatch h
      cases hperf : simple.performative with
      | none => rw [hperf] at h; exact nomatch h
      | some performative =>
          rw [hperf] at h
          exact ⟨_, by simp [metadataOf, hs, hperf], h⟩

/-- **Every run of applications records the messages applied.** -/
theorem records_applyAll {log : List Message} {p₀ : CachedPositions}
    (hnew : CachedPositions.new context (some protocol) = .ok p₀)
    (hlog : p₀.applyAll sha256 log = .ok p) :
    ∃ data, Records sha256 protocol context p data ∧
      (∀ d, d ∈ data ↔ ∃ m ∈ log, metadataOf sha256 m = some d) ∧
      ∀ m ∈ log, (metadataOf sha256 m).isSome := by
  unfold CachedPositions.applyAll at hlog
  refine CbclExcept.foldlM_inv (I := fun done p => ∃ data, Records sha256 protocol context p data ∧
      (∀ d, d ∈ data ↔ ∃ m ∈ done, metadataOf sha256 m = some d) ∧
      ∀ m ∈ done, (metadataOf sha256 m).isSome) ?_ ?_ hlog
  · rintro done m p p' - ⟨data, hr, hmem, hsome⟩ h
    obtain ⟨d, hd, happly⟩ := metadataOf_applied h
    have hsome' : ∀ x ∈ done ++ [m], (metadataOf sha256 x).isSome := by
      intro x hx
      rcases List.mem_append.mp hx with hx | hx
      · exact hsome x hx
      · rw [List.mem_singleton.mp hx, hd]
        rfl
    have hmore : ∀ e, (∃ x ∈ done ++ [m], metadataOf sha256 x = some e) ↔
        (∃ x ∈ done, metadataOf sha256 x = some e) ∨ e = d := by
      intro e
      simp [List.mem_append, or_and_right, exists_or, hd, eq_comm]
    rcases hr.step happly with ⟨rfl, hold⟩ | hr'
    · refine ⟨data, hr, fun e => ?_, hsome'⟩
      rw [hmore, ← hmem, or_iff_left_of_imp]
      rintro rfl
      exact hold
    · refine ⟨data ++ [d], hr', fun e => ?_, hsome'⟩
      rw [hmore, ← hmem, List.mem_append, List.mem_singleton]
  · exact ⟨[], records_new hnew, fun d => by simp, by rintro _ ⟨⟩⟩

end Log

-- ── The store of whole messages ────

/-- The store of the entries of one thread, filed in turn. -/
def filed (thread : ThreadId) (entries : List (ContentHash × Message)) : ThreadedMessageStore :=
  appendAll (entries.map fun e => (e.1, thread, e.2))

section Filed

variable {thread : ThreadId} {entries : List (ContentHash × Message)}

/-- A filed store finds the first entry of a hash. -/
theorem lookupInThread_filed (k : ContentHash) :
    (filed thread entries).lookupInThread k thread
      = (entries.find? fun e => e.1 = k).map Prod.snd := by
  have hindex : ∀ entries : List (ContentHash × Message), ∀ h, h ∈ (filed thread entries).index ↔
      h ∈ entries.map Prod.fst := by
    intro entries
    induction entries using List.reverseRecOn with
    | nil => intro h; simp [filed, appendAll, ThreadedMessageStore.new]
    | append_singleton entries e ih =>
        intro h
        unfold filed appendAll at ih ⊢
        rw [List.map_append, List.foldl_append, List.map_append, List.mem_append, ← ih h]
        show h ∈ ((filed thread entries).append e.1 thread e.2).2.index ↔ _
        by_cases hfresh : e.1 ∈ (filed thread entries).index
        · unfold ThreadedMessageStore.append
          rw [dif_pos hfresh]
          refine (or_iff_left_of_imp fun hh => ?_).symm
          rw [List.mem_singleton.mp hh]
          exact hfresh
        · rw [mem_index_append hfresh, or_comm]
          simp [filed, appendAll]
  induction entries using List.reverseRecOn with
  | nil => simp [filed, appendAll, ThreadedMessageStore.new, lookupInThread, indexLookup]
  | append_singleton entries e ih =>
      unfold filed appendAll at ih ⊢
      rw [List.map_append, List.foldl_append, List.find?_append]
      show ((filed thread entries).append e.1 thread e.2).2.lookupInThread k thread = _
      replace ih : (filed thread entries).lookupInThread k thread = _ := ih
      by_cases hfresh : e.1 ∈ (filed thread entries).index
      · unfold ThreadedMessageStore.append
        rw [dif_pos hfresh]
        show (filed thread entries).lookupInThread k thread = _
        rw [ih]
        by_cases hk : e.1 = k
        · rw [hk, hindex, List.mem_map] at hfresh
          obtain ⟨x, hx, hxk⟩ := hfresh
          have hfound : (entries.find? fun e => e.1 = k).isSome := by
            rw [List.find?_isSome]
            exact ⟨x, hx, decide_eq_true hxk⟩
          obtain ⟨y, hy⟩ := Option.isSome_iff_exists.mp hfound
          rw [hy]
          rfl
        · rw [List.find?_singleton, if_neg (by simpa using hk), Option.or_none]
      · rw [lookupInThread_append hfresh, if_pos rfl]
        by_cases hk : k = e.1
        · rw [if_pos hk]
          have hnone : (entries.find? fun e => e.1 = k) = none := by
            rw [List.find?_eq_none]
            intro x hx hxk
            refine hfresh ((hindex entries _).mpr ?_)
            rw [← hk, ← of_decide_eq_true hxk]
            exact List.mem_map_of_mem hx
          rw [hnone, List.find?_singleton, if_pos (by simpa using hk.symm)]
          rfl
        · rw [if_neg hk, ih, List.find?_singleton, if_neg (by simpa using Ne.symm hk),
            Option.or_none]

variable {sha256 : Octets → Digest} {data : List PositionMetadata} {d : PositionMetadata}

/-- A message whose metadata a cache keeps discloses it. -/
theorem fullMetadata_of_metadataOf {message : Message} (h : metadataOf sha256 message = some d) :
    fullMetadata message = some (d.verb, d.cause) := by
  unfold metadataOf at h
  unfold fullMetadata
  cases hs : message.innermostSimple with
  | none => rw [hs] at h; exact nomatch h
  | some simple =>
      rw [hs] at h
      simp only [Option.bind_eq_bind, Option.bind_some] at h ⊢
      cases hperf : simple.performative with
      | none => rw [hperf] at h; exact nomatch h
      | some performative =>
          rw [hperf] at h
          injection h with h
          subst h
          rfl

/-- **A hash the store holds discloses the record it spells.** -/
theorem metadata_filed
    (hentries : ∀ e ∈ entries, ∃ b ∈ data, metadataOf sha256 e.2 = some b ∧
      nativeReference e.1 = b.id)
    (hunique : ∀ b ∈ data, ∀ b' ∈ data, b.id = b'.id → b = b') (hd : d ∈ data) {k : ContentHash}
    (hk : k ∈ entries.map Prod.fst) (hid : nativeReference k = d.id) :
    metadata (filed thread entries).toStore k thread = some (d.verb, d.cause) := by
  have hfound : (entries.find? fun e => e.1 = k).isSome := by
    obtain ⟨x, hx, hxk⟩ := List.mem_map.mp hk
    rw [List.find?_isSome]
    exact ⟨x, hx, decide_eq_true hxk⟩
  obtain ⟨e, he⟩ := Option.isSome_iff_exists.mp hfound
  have hek : e.1 = k := by simpa using List.find?_some he
  obtain ⟨b, hb, hmeta, hbid⟩ := hentries e (List.mem_of_find?_eq_some he)
  have hbd : b = d := hunique b hb d hd (by rw [← hbid, hek, hid])
  have hlookup : (filed thread entries).toStore.lookupInThread k thread = some e.2 := by
    show (filed thread entries).lookupInThread k thread = some e.2
    rw [lookupInThread_filed, he]
    rfl
  unfold metadata
  rw [hlookup]
  exact fullMetadata_of_metadataOf (hbd ▸ hmeta)

end Filed

-- ── Verdicts of one class ────

/-- Both verdicts are valid, both are violations, or both are unknown. -/
def SameClass (v v' : VerificationResult) : Prop := Le v v' ∧ Le v' v

theorem SameClass.valid_iff {v v' : VerificationResult} (h : SameClass v v') :
    v = .valid ↔ v' = .valid :=
  ⟨le_valid h.1, le_valid h.2⟩

theorem SameClass.violation_iff {v v' : VerificationResult} (h : SameClass v v') :
    IsViolation v ↔ IsViolation v' :=
  ⟨le_violation h.1, le_violation h.2⟩

/-- Two refusals are of one class. -/
theorem sameClass_violation (v w : CausalViolation) : SameClass (.violation v) (.violation w) :=
  ⟨Le.violation v w, Le.violation w v⟩

theorem sameClass_refl (v : VerificationResult) : SameClass v v := ⟨le_refl v, le_refl v⟩

/-- A single reference root typing turns into `begin` is judged by the declaration alone. -/
theorem step_of_begin {r : Resolution} {decl : StepDecl} {cause : Option CausedBy}
    (h : Resolution.rewriteRoot r.root cause = some .begin) : r.step decl cause =
      if BEGIN_KEYWORD ∈ allowedSinglePredecessors decl then .valid
      else r.wrong BEGIN_KEYWORD (allowedSinglePredecessors decl) := by
  unfold Resolution.step
  rw [h]

/-- A step is decided where the placements of the cited hashes are. -/
theorem step_decided {r : Resolution} {decl : StepDecl} {cause : Option CausedBy}
    (h : ∀ k ∈ citedHashes cause, r.kind k ≠ none ∧ ∀ name, r.at k name ≠ .unknown) :
    r.step decl cause ≠ .unknown := by
  have hrefused : ∀ k ∈ citedHashes cause, ∀ names : List String,
      (¬ ∃ n ∈ names, r.at k n = .valid) →
        r.kind k ≠ none ∧ ∀ n ∈ names, IsViolation (r.at k n) := fun k hk names hno =>
    ⟨(h k hk).1, fun n hn => isViolation_of_ne (fun hv => hno ⟨n, hn, hv⟩) ((h k hk).2 n)⟩
  intro hunknown
  unfold Resolution.step at hunknown
  cases hrw : Resolution.rewriteRoot r.root cause with
  | none =>
      rw [hrw] at hunknown
      dsimp only at hunknown
      split at hunknown <;> cases hunknown
  | some cb =>
      rw [hrw] at hunknown
      cases cb with
      | begin =>
          dsimp only at hunknown
          split at hunknown <;> cases hunknown
      | single k =>
          have hcause := cause_of_rewriteRoot hrw (by simp)
          subst hcause
          have hk : k ∈ citedHashes (some (.single k)) := by simp [citedHashes, CausedBy.hashes]
          dsimp only at hunknown
          by_cases hv : ∃ n ∈ allowedSinglePredecessors decl, r.at k n = .valid
          · rw [alternatives_valid_iff.mpr hv] at hunknown
            cases hunknown
          · refine not_violation_unknown (hunknown ▸ alternatives_violation_iff.mpr ?_)
            exact hrefused k hk _ hv
      | multiple ks =>
          have hcause := cause_of_rewriteRoot hrw (by simp)
          subst hcause
          have hks : ∀ k ∈ ks, k ∈ citedHashes (some (.multiple ks)) := fun k hk => hk
          cases hall : firstAll decl with
          | none => rw [hall] at hunknown; cases hunknown
          | some all =>
              rw [hall] at hunknown
              dsimp only at hunknown
              rcases fanIn_cases (r := r) all.toList ks with
                ⟨-, hviol⟩ | ⟨hopen, hnone, -⟩ | ⟨-, -, hv⟩ | ⟨-, -, -, hviol⟩
              · exact not_violation_unknown (hunknown ▸ hviol)
              · rcases hopen with ⟨k, hk, hno⟩ | ⟨n, -, -, k, hk, hun⟩
                · refine hnone ⟨k, hk, hrefused k (hks k hk) _ ?_⟩
                  rintro ⟨n, hn, hv⟩
                  exact hno n hn hv
                · exact (h k (hks k hk)).2 n hun
              · rw [hunknown] at hv
                cases hv
              · exact not_violation_unknown (hunknown ▸ hviol)

/-- **A step is judged alike, and decided, where the cited hashes are placed alike and
    decided.** -/
theorem step_agrees {r r' : Resolution} (hroot : r.root = r'.root) {decl : StepDecl}
    {cause : Option CausedBy} (h : Resolution.rewriteRoot r.root cause = some .begin ∨
      ∀ k ∈ citedHashes cause, r.kind k ≠ none ∧ r'.kind k ≠ none ∧
        ∀ name, SameClass (r.at k name) (r'.at k name) ∧ r.at k name ≠ .unknown) :
    SameClass (r.step decl cause) (r'.step decl cause) ∧ r.step decl cause ≠ .unknown := by
  rcases h with hbegin | hcited
  · rw [step_of_begin hbegin, step_of_begin (hroot ▸ hbegin)]
    by_cases hb : BEGIN_KEYWORD ∈ allowedSinglePredecessors decl
    · rw [if_pos hb, if_pos hb]
      exact ⟨sameClass_refl _, fun h => nomatch h⟩
    · rw [if_neg hb, if_neg hb]
      exact ⟨sameClass_violation _ _, fun h => nomatch h⟩
  · refine ⟨⟨CbclVerdictStability.step_mono (Or.inl rfl) hroot (fun k hk _ => (hcited k hk).2.1)
      fun k hk name _ => ((hcited k hk).2.2 name).1.1, CbclVerdictStability.step_mono (Or.inl rfl)
      hroot.symm (fun k hk _ => (hcited k hk).1) fun k hk name _ => ((hcited k hk).2.2 name).1.2⟩, ?_⟩
    exact step_decided fun k hk => ⟨(hcited k hk).1, fun name => ((hcited k hk).2.2 name).2⟩

-- ── Placements by fact and by row ────

/-- Every declared step of a repeated verb is ready in some round. -/
def PlacesCopies (protocol : CausalProtocol) : Prop :=
  ∀ name ∈ protocol.steps, Copied protocol (repeatBaseName name) → name ∈ protocolOrder protocol

/-- A reference that needs no hash, being the root's, or only hashes the entries hold. -/
def Resolvable (root : ContentHash) (entries : List (ContentHash × Message))
    (cause : Option CausedBy) : Prop :=
  Resolution.rewriteRoot (some root) cause = some .begin ∨
    ∀ h ∈ citedHashes cause, h ∈ entries.map Prod.fst

section Refinement

variable {sha256 : Octets → Digest} {protocol : CausalProtocol} {context : PositionContext}
  {p : CachedPositions} {data : List PositionMetadata}
  {entries : List (ContentHash × Message)}

/-- The resolver over the filed messages. -/
abbrev fullResolution (protocol : CausalProtocol) (context : PositionContext)
    (entries : List (ContentHash × Message)) (hashes : List String) : Resolution :=
  Resolution.new (filed context.thread entries).toStore protocol context.thread
    (some context.root) hashes

/-- A resolver over a cache of its protocol and context fills no row. -/
theorem new_portStore {q : MaterializedPositions} (hbound : q.protocol = some protocol)
    (hashes : List String) : Resolution.new (portStore q) protocol q.context.thread
      (some q.context.root) hashes = portResolution q protocol := by
  have hcache : (portStore q).materializedPositions.filter
      (fun p => p.matchesContext protocol q.context.thread (some q.context.root)) = some q := by
    show (some q).filter _ = some q
    rw [Option.filter_some, if_pos]
    simp [MaterializedPositions.matchesContext, hbound]
  have hempty : (closureMessages (portStore q) q.context.thread (some q) hashes).isEmpty = true := by
    rw [Std.ExtTreeMap.isEmpty_iff]
    refine Std.ExtTreeMap.ext_getElem? fun h => ?_
    rw [closureMessages_getElem?, Std.ExtTreeMap.getElem?_empty]
    exact ite_self _
  unfold Resolution.new
  rw [hcache]
  dsimp only
  rw [if_pos hempty]
  rfl

/-- The rows of a record are judged by the steps of its verb. -/
theorem repeated_port (q : MaterializedPositions) (hashes : List String) (base : String) :
    (portResolution q protocol).repeated base
      = (fullResolution protocol context entries hashes).repeated base := by
  obtain ⟨-, hp, -⟩ := new_spec (filed context.thread entries).toStore protocol context.thread
    (some context.root) hashes
  unfold Resolution.repeated
  rw [hp]
  rfl

variable (hr : Records sha256 protocol context p data)
  (hentries : ∀ e ∈ entries, ∃ b ∈ data, metadataOf sha256 e.2 = some b ∧
    nativeReference e.1 = b.id)
  (hplaces : PlacesCopies protocol)
  (hcited : ∀ d ∈ data, Resolvable context.root entries d.cause) (hashes : List String)
include hr hentries

/-- The type of a held hash that spells a record. -/
theorem kind_filed {d : PositionMetadata} (hd : d ∈ data) {k : String}
    (hk : k ∈ entries.map Prod.fst) (hid : nativeReference k = d.id) :
    (fullResolution protocol context entries hashes).kind k = some d.verb := by
  obtain ⟨hs, -, ht, -, hc, -⟩ := new_spec (filed context.thread entries).toStore protocol
    context.thread (some context.root) hashes
  unfold Resolution.kind
  rw [hs, ht, hc]
  exact predecessorType_of_metadata
    (metadata_filed hentries (fun b hb b' hb' => hr.unique hb hb') hd hk hid)

omit hentries in
theorem cachedFact_port {d : PositionMetadata} (hd : d ∈ data) {k : String}
    (hid : nativeReference k = d.id) :
    cachedFact (portResolution p.toMaterializedPositions protocol).materialized k
      = some ⟨d, establishedSteps p.toMaterializedPositions d⟩ := by
  show p.entries.get (nativeReference k) = _
  rw [hid, hr.get hd]

/-- A resolver over the messages and a resolver over the facts place a record alike, and
    decidedly, under every held hash of a closure. -/
def PlacedAlike (protocol : CausalProtocol) (context : PositionContext) (p : CachedPositions)
    (entries : List (ContentHash × Message)) (hashes : List String) (d : PositionMetadata) : Prop :=
  ∀ k, nativeReference k = d.id → k ∈ entries.map Prod.fst →
    k ∈ referencedClosure (filed context.thread entries).toStore context.thread none hashes →
      ∀ name, SameClass ((fullResolution protocol context entries hashes).at k name)
          ((portResolution p.toMaterializedPositions protocol).at k name) ∧
        (fullResolution protocol context entries hashes).at k name ≠ .unknown

/-- A step is judged alike on references to records placed alike. -/
theorem step_filed {cause : Option CausedBy}
    (hcause : Resolution.rewriteRoot (some context.root) cause = some .begin ∨
      ∀ k ∈ citedHashes cause, k ∈ entries.map Prod.fst ∧ ∃ b ∈ data, nativeReference k = b.id ∧
        PlacedAlike protocol context p entries hashes b)
    (hclosure : ∀ k ∈ citedHashes cause, k ∈ referencedClosure
      (filed context.thread entries).toStore context.thread none hashes) (decl : StepDecl) :
    SameClass ((fullResolution protocol context entries hashes).step decl cause)
        ((portResolution p.toMaterializedPositions protocol).step decl cause) ∧
      (fullResolution protocol context entries hashes).step decl cause ≠ .unknown := by
  obtain ⟨-, -, -, hroot, -, -⟩ := new_spec (filed context.thread entries).toStore
    protocol context.thread (some context.root) hashes
  have hport : (portResolution p.toMaterializedPositions protocol).root = some context.root := by
    show some p.context.root = _
    rw [hr.context]
  refine step_agrees (hroot.trans hport.symm) ?_
  rcases hcause with hbegin | hplaced
  · exact Or.inl (by rw [hroot]; exact hbegin)
  · refine Or.inr fun k hk => ?_
    obtain ⟨hheld, b, hb, hid, hb'⟩ := hplaced k hk
    refine ⟨?_, ?_, hb' k hid hheld (hclosure k hk)⟩
    · rw [kind_filed hr hentries hashes hb hheld hid]
      exact fun h => nomatch h
    · unfold Resolution.kind
      rw [cachedFact_port hr hb hid]
      exact fun h => nomatch h

include hplaces hcited

/-- **A record is placed by its fact as it is by its row**, and its placement is decided. -/
theorem at_agrees : ∀ d ∈ data, PlacedAlike protocol context p entries hashes d := by
  obtain ⟨-, hprot, -, -, hcache, -⟩ := new_spec (filed context.thread entries).toStore
    protocol context.thread (some context.root) hashes
  -- the induction is on the log: what a record cites was placed before it
  refine hr.induct fun d hd hcites k hid hk hclosure name => ?_
  have hmeta : metadata (filed context.thread entries).toStore k context.thread
      = some (d.verb, d.cause) :=
    metadata_filed hentries (fun b hb b' hb' => hr.unique hb hb') hd hk hid
  have hkind := kind_filed hr hentries hashes hd hk hid
  have hnone : cachedFact (fullResolution protocol context entries hashes).materialized k
      = none := by
    rw [hcache]
    rfl
  rw [at_of_cached (cachedFact_port hr hd hid),
    @repeated_port protocol context entries p.toMaterializedPositions hashes]
  by_cases hbase : d.verb = repeatBaseName name
  · by_cases hord : Ordinary (fullResolution protocol context entries hashes) d.verb name
    · rw [at_of_ordinary hnone hkind hbase hord, if_pos (by
        rw [hord.1, hord.2, decide_eq_true hbase.symm]
        rfl)]
      exact ⟨sameClass_refl _, fun h => nomatch h⟩
    · -- the row and the fact are both the verdict of the step on the record's reference
      have hstep := step_filed hr hentries hashes
        ((hcited d hd).imp id fun hall k hk => ⟨hall k hk, hcites k hk⟩)
        (cited_mem_referencedClosure hclosure rfl hmeta)
      have hcopied : Copied protocol (repeatBaseName name) ∨ isCopyName name = true := by
        by_contra hno
        obtain ⟨hno, hcopy⟩ := not_or.mp hno
        refine hord ⟨Bool.not_eq_true _ ▸ hcopy, ?_⟩
        rw [← Bool.not_eq_true, repeated_iff, hprot, hbase]
        exact hno
      have hfact : name ∈ establishedSteps p.toMaterializedPositions d ↔
          ∃ decl, protocol.steps[name]? = some decl ∧ name ≠ BEGIN_KEYWORD ∧
            (fullResolution protocol context entries hashes).step decl d.cause = .valid := by
        rw [mem_establishedSteps]
        constructor
        · rintro ⟨_, hbound, decl, hdecl, hposition, hvalid⟩
          rw [hr.bound] at hbound
          injection hbound with hbound
          subst hbound
          exact ⟨decl, hdecl, (of_decide_eq_true hposition).1, (hstep decl).1.valid_iff.mpr hvalid⟩
        · rintro ⟨decl, hdecl, hne, hvalid⟩
          exact ⟨protocol, hr.bound, decl, hdecl, decide_eq_true ⟨hne, hbase.symm⟩,
            (hstep decl).1.valid_iff.mp hvalid⟩
      have htest : ((!isCopyName name && !(fullResolution protocol context entries hashes).repeated
          d.verb && decide (repeatBaseName name = d.verb))
            || (establishedSteps p.toMaterializedPositions d).contains name) = true ↔
          name ∈ establishedSteps p.toMaterializedPositions d := by
        rw [Bool.or_eq_true, Std.ExtTreeSet.contains_iff_mem, or_iff_right]
        intro htrue
        rw [Bool.and_eq_true, Bool.and_eq_true, Bool.not_eq_true', Bool.not_eq_true'] at htrue
        exact hord htrue.1
      -- a declared copy has a place in the order, so the table computes its row
      have hplace : ∀ decl, protocol.steps[name]? = some decl → name ∈ protocolOrder protocol := by
        intro decl hdecl
        have hmem : name ∈ protocol.steps := by
          rw [Std.ExtTreeMap.mem_iff_isSome_getElem?, hdecl]
          rfl
        refine hplaces name hmem (hcopied.elim id fun hcopy => ?_)
        exact ⟨name, Std.ExtTreeMap.mem_keys.mpr hmem, hcopy, rfl⟩
      rw [at_row hclosure rfl hmeta hbase hord]
      by_cases hrow : name ∈ protocolOrder protocol ∧ name ≠ BEGIN_KEYWORD
      · rw [if_pos hrow]
        cases hdecl : protocol.steps[name]? with
        | none =>
            rw [if_neg fun h => ?_]
            · exact ⟨sameClass_violation _ _, fun h => nomatch h⟩
            · obtain ⟨decl, hsome, -⟩ := hfact.mp (htest.mp h)
              rw [hdecl] at hsome
              exact nomatch hsome
        | some decl =>
            refine ⟨?_, (hstep decl).2⟩
            show SameClass ((fullResolution protocol context entries hashes).step decl d.cause) _
            by_cases hv : (fullResolution protocol context entries hashes).step decl d.cause = .valid
            · rw [hv, if_pos (htest.mpr (hfact.mpr ⟨decl, hdecl, hrow.2, hv⟩))]
              exact sameClass_refl _
            · obtain ⟨w, hw⟩ := isViolation_of_ne hv (hstep decl).2
              rw [hw, if_neg fun h => ?_]
              · exact sameClass_violation _ _
              · obtain ⟨decl', hsome, -, hv'⟩ := hfact.mp (htest.mp h)
                rw [hdecl] at hsome
                injection hsome with hsome
                exact hv (hsome ▸ hv')
      · rw [if_neg hrow, if_neg fun h => ?_]
        · exact ⟨sameClass_violation _ _, fun h => nomatch h⟩
        · obtain ⟨decl, hdecl, hne, -⟩ := hfact.mp (htest.mp h)
          exact hrow ⟨hplace decl hdecl, hne⟩
  · have hout : name ∉ establishedSteps p.toMaterializedPositions d := by
      rw [mem_establishedSteps]
      rintro ⟨_, _, _, _, hposition, _⟩
      exact hbase (of_decide_eq_true hposition).2.symm
    rw [at_of_kind_ne hnone hkind hbase, if_neg]
    · exact ⟨sameClass_violation _ _, fun h => nomatch h⟩
    · simp [hout, Ne.symm hbase]

/-- **A step is judged alike by the facts and by the table.** -/
theorem step_refined {cause : Option CausedBy} (hcause : Resolvable context.root entries cause)
    (decl : StepDecl) :
    SameClass ((fullResolution protocol context entries (citedHashes cause)).step decl cause)
        ((portResolution p.toMaterializedPositions protocol).step decl cause) ∧
      (fullResolution protocol context entries (citedHashes cause)).step decl cause ≠ .unknown := by
  refine step_filed hr hentries (citedHashes cause) (hcause.imp id fun hall k hk => ?_)
    (fun k hk => mem_referencedClosure_of_mem hk) decl
  obtain ⟨e, he, hek⟩ := List.mem_map.mp (hall k hk)
  obtain ⟨d, hd, -, hid⟩ := hentries e he
  exact ⟨hall k hk, d, hd, hek ▸ hid,
    at_agrees hr hentries hplaces hcited (citedHashes cause) d hd⟩

end Refinement

-- ── The two readings of a verb ────

/-- The expanded steps of a verb that accept a reference. -/
def validSteps (r : Resolution) (verb : String) (cause : Option CausedBy) : List String :=
  (r.protocol.steps.toList.filter fun (name, decl) =>
    (name ≠ BEGIN_KEYWORD ∧ repeatBaseName name = verb) ∧ r.step decl cause = .valid).map Prod.fst

theorem mem_validSteps {r : Resolution} {verb : String} {cause : Option CausedBy}
    {name : String} : name ∈ validSteps r verb cause ↔ ∃ decl, r.protocol.steps[name]? = some decl ∧
      isPosition verb name = true ∧ r.step decl cause = .valid := by
  unfold validSteps isPosition
  simp [List.mem_filter, Std.ExtTreeMap.mem_toList_iff_getElem?_eq_some, and_assoc]

/-- Resolutions that judge every step alike accept the same steps. -/
theorem validSteps_congr {r r' : Resolution} (hprotocol : r.protocol = r'.protocol)
    {cause : Option CausedBy} (h : ∀ decl, SameClass (r.step decl cause) (r'.step decl cause))
    (verb : String) : validSteps r verb cause = validSteps r' verb cause := by
  unfold validSteps
  rw [hprotocol]
  refine congrArg _ (List.filter_congr fun e _ => ?_)
  rw [decide_eq_decide, (h e.2).valid_iff]

/-- Resolutions that judge every step alike judge every verb alike. -/
theorem verify_congr {r r' : Resolution} (hprotocol : r.protocol = r'.protocol)
    {cause : Option CausedBy} (h : ∀ decl, SameClass (r.step decl cause) (r'.step decl cause))
    (verb : String) : SameClass (r.verify verb cause) (r'.verify verb cause) := by
  have hle : ∀ {r r' : Resolution}, r.protocol = r'.protocol →
      (∀ decl, SameClass (r.step decl cause) (r'.step decl cause)) →
        Le (r.verify verb cause) (r'.verify verb cause) := by
    intro r r' hprotocol h
    rw [le_iff, verify_valid_iff, verify_valid_iff, verify_violation_iff, verify_violation_iff,
      hprotocol]
    refine ⟨?_, fun hall decl hcopy => (h decl).violation_iff.mp (hall decl hcopy)⟩
    rintro ⟨decl, hcopy, hvalid⟩
    exact ⟨decl, hcopy, (h decl).valid_iff.mp hvalid⟩
  exact ⟨hle hprotocol h, hle hprotocol.symm fun decl => ⟨(h decl).2, (h decl).1⟩⟩

section Applied

variable (sha256 : Octets → Digest)

/-- The applied messages under their native hashes. -/
def nativeEntries (log : List Message) : List (ContentHash × Message) :=
  log.filterMap fun message =>
    message.innermostSimple.map fun simple => (typedRoot sha256 simple, message)

/-- Further entries of applied messages, each under a spelling of its native hash. -/
def SpellsApplied (log : List Message) (spelled : List (ContentHash × Message)) : Prop :=
  ∀ e ∈ spelled, e.2 ∈ log ∧ ∃ simple, e.2.innermostSimple = some simple ∧
    nativeReference e.1 = typedRoot sha256 simple

/-- The ranks of a chain that applied messages of its verb hold, as the full resolver places
    them. -/
def positionRanks (protocol : CausalProtocol) (context : PositionContext)
    (entries : List (ContentHash × Message)) (log : List Message) (verb : String) : Set Nat :=
  {rank | ∃ chain, positionChain protocol verb = .ok chain ∧ ∃ message ∈ log, ∃ simple performative,
    message.innermostSimple = some simple ∧ simple.performative = some performative ∧
    performative.name = verb ∧ ∃ i name, chain[i]? = some name ∧ rank = i + 1 ∧
    name ∈ validSteps (fullResolution protocol context entries (citedHashes simple.causedBy)) verb
      simple.causedBy}

/-- What it is for a cache to refine the resolver over some entries: further references get a
    verdict of the same class and the same valid steps, and the progress of a verb is the
    greatest rank of its chain that an applied message holds. -/
structure Refines (protocol : CausalProtocol) (context : PositionContext) (p : CachedPositions)
    (entries : List (ContentHash × Message)) (log : List Message) : Prop where
  verdict : ∀ verb cause, Resolvable context.root entries cause →
    SameClass
      (CbclRepeat.verify verb cause (portStore p.toMaterializedPositions) protocol context.thread
        (some context.root))
      (CbclRepeat.verify verb cause (filed context.thread entries).toStore protocol context.thread
        (some context.root))
  steps : ∀ verb cause, Resolvable context.root entries cause →
    validSteps (Resolution.new (portStore p.toMaterializedPositions) protocol context.thread
        (some context.root) (citedHashes cause)) verb cause
      = validSteps (fullResolution protocol context entries (citedHashes cause)) verb cause
  progress : ∀ verb, IsGreatest
    (insert 0 (positionRanks protocol context entries log verb)) (p.progressOf verb)

variable {sha256} {protocol : CausalProtocol} {context : PositionContext}
  {p₀ p : CachedPositions} {log : List Message} {spelled : List (ContentHash × Message)}

/-- A native hash is spelled natively. -/
theorem nativeReference_typedRoot (m : Message) :
    nativeReference (typedRoot sha256 m) = typedRoot sha256 m := by
  have hnone : stripStart "sha256-" (typedRoot sha256 m) = none := by
    rw [Option.eq_none_iff_forall_ne_some]
    intro rest hrest
    have h := congrArg String.toList (stripStart_eq_some_iff.mp hrest)
    unfold typedRoot at h
    rw [String.toList_append, String.toList_append] at h
    exact absurd (congrArg (·[6]?) h) (by simp)
  unfold nativeReference
  rw [hnone]

/-- The metadata of a message with a simple and a verb. -/
theorem metadataOf_eq {message simple : Message} {performative : Performative}
    (hs : message.innermostSimple = some simple) (hp : simple.performative = some performative) :
    metadataOf sha256 message
      = some ⟨typedRoot sha256 simple, performative.name, simple.causedBy⟩ := by
  simp [metadataOf, hs, hp]

theorem metadataOf_some {message : Message} {d : PositionMetadata}
    (h : metadataOf sha256 message = some d) : ∃ simple performative,
      message.innermostSimple = some simple ∧ simple.performative = some performative ∧
        d = ⟨typedRoot sha256 simple, performative.name, simple.causedBy⟩ := by
  unfold metadataOf at h
  cases hs : message.innermostSimple with
  | none => rw [hs] at h; exact nomatch h
  | some simple =>
      rw [hs] at h
      simp only [Option.bind_eq_bind, Option.bind_some] at h
      cases hp : simple.performative with
      | none => rw [hp] at h; exact nomatch h
      | some performative =>
          rw [hp] at h
          injection h with h
          exact ⟨simple, performative, rfl, hp, h.symm⟩

/-- **A cache refines full resolution**: over every protocol whose copies are placed and every run
    of applications, provided the store holds the applied messages under the spellings they are
    cited by. -/
theorem resolution_refined (sha256 : Octets → Digest) (hplaces : PlacesCopies protocol)
    (hnew : CachedPositions.new context (some protocol) = .ok p₀)
    (hlog : p₀.applyAll sha256 log = .ok p) (hspelled : SpellsApplied sha256 log spelled)
    (hcited : ∀ message ∈ log, ∀ simple, message.innermostSimple = some simple →
      Resolvable context.root (nativeEntries sha256 log ++ spelled) simple.causedBy) :
    Refines protocol context p (nativeEntries sha256 log ++ spelled) log := by
  obtain ⟨data, hr, hmem, hsome⟩ := records_applyAll hnew hlog
  have hrecord : ∀ message ∈ log, ∀ simple, message.innermostSimple = some simple →
      ∃ b ∈ data, metadataOf sha256 message = some b ∧ typedRoot sha256 simple = b.id := by
    intro message hm simple hs
    obtain ⟨b, hb⟩ := Option.isSome_iff_exists.mp (hsome message hm)
    obtain ⟨simple', performative, hs', -, rfl⟩ := metadataOf_some hb
    rw [hs] at hs'
    injection hs' with hs'
    exact ⟨_, (hmem _).mpr ⟨message, hm, hb⟩, hb, by rw [hs']⟩
  have hentries : ∀ e ∈ nativeEntries sha256 log ++ spelled,
      ∃ b ∈ data, metadataOf sha256 e.2 = some b ∧ nativeReference e.1 = b.id := by
    intro e he
    rcases List.mem_append.mp he with he | he
    · obtain ⟨message, hm, he⟩ := List.mem_filterMap.mp he
      obtain ⟨simple, hs, rfl⟩ := Option.map_eq_some_iff.mp he
      obtain ⟨b, hb, hmeta, hid⟩ := hrecord message hm simple hs
      exact ⟨b, hb, hmeta, (nativeReference_typedRoot simple).trans hid⟩
    · obtain ⟨hm, simple, hs, hid⟩ := hspelled e he
      obtain ⟨b, hb, hmeta, hid'⟩ := hrecord e.2 hm simple hs
      exact ⟨b, hb, hmeta, hid.trans hid'⟩
  have hdata : ∀ d ∈ data,
      Resolvable context.root (nativeEntries sha256 log ++ spelled) d.cause := by
    intro d hd
    obtain ⟨message, hm, hmeta⟩ := (hmem d).mp hd
    obtain ⟨simple, performative, hs, -, rfl⟩ := metadataOf_some hmeta
    exact hcited message hm simple hs
  have hstep : ∀ {cause : Option CausedBy},
      Resolvable context.root (nativeEntries sha256 log ++ spelled) cause → ∀ decl,
      SameClass ((portResolution p.toMaterializedPositions protocol).step decl cause)
        ((fullResolution protocol context (nativeEntries sha256 log ++ spelled)
          (citedHashes cause)).step decl cause) := fun hcause decl =>
    have h := (step_refined hr hentries hplaces hdata hcause decl).1
    ⟨h.2, h.1⟩
  have hport : ∀ hashes, Resolution.new (portStore p.toMaterializedPositions) protocol
      context.thread (some context.root) hashes
        = portResolution p.toMaterializedPositions protocol := by
    intro hashes
    have h := new_portStore (q := p.toMaterializedPositions) hr.bound hashes
    rw [hr.context] at h
    exact h
  have hfull : ∀ hashes, (portResolution p.toMaterializedPositions protocol).protocol
      = (fullResolution protocol context (nativeEntries sha256 log ++ spelled) hashes).protocol :=
    fun hashes => (new_spec (filed context.thread (nativeEntries sha256 log ++ spelled)).toStore
      protocol context.thread (some context.root) hashes).2.1.symm
  refine ⟨fun verb cause hcause => ?_, fun verb cause hcause => ?_, fun verb => ?_⟩
  · unfold CbclRepeat.verify
    split
    · rw [hport]
      exact verify_congr (hfull _) (hstep hcause) verb
    · exact sameClass_refl _
  · rw [hport]
    exact validSteps_congr (hfull _) (hstep hcause) verb
  · have hset : recordRanks protocol p data verb = positionRanks protocol context
        (nativeEntries sha256 log ++ spelled) log verb := by
      -- the steps of a record are those the full resolver accepts for its message
      have hsteps : ∀ d ∈ data, d.verb = verb → ∀ name,
          (name ∈ establishedSteps p.toMaterializedPositions d ↔ name ∈ validSteps
            (fullResolution protocol context (nativeEntries sha256 log ++ spelled)
              (citedHashes d.cause)) verb d.cause) := by
        rintro d hd rfl name
        rw [mem_establishedSteps, ← validSteps_congr (hfull _) (hstep (hdata d hd)),
          mem_validSteps, hr.bound]
        simp only [Option.some.injEq, exists_eq_left']
        exact Iff.rfl
      have hnodup : ∀ chain, positionChain protocol verb = .ok chain → chain.Nodup := by
        intro chain hchain
        rw [(positionChain_ok hchain).1]
        exact (Topo.nodup (topo_protocolOrder protocol)).filter _
      ext rank
      constructor
      · rintro ⟨table, htable, d, hd, hverb, name, hname, hrank⟩
        obtain ⟨chain, hchain, rfl⟩ := (getElem?_ranksOf protocol verb table).mp htable
        obtain ⟨i, hi, rfl⟩ := (getElem?_rankTable (hnodup chain hchain) name rank).mp hrank
        obtain ⟨message, hm, hmeta⟩ := (hmem d).mp hd
        have hvalid := (hsteps d hd hverb name).mp hname
        obtain ⟨simple, performative, hs, hp, rfl⟩ := metadataOf_some hmeta
        exact ⟨chain, hchain, message, hm, simple, performative, hs, hp, hverb, i, name, hi, rfl,
          hvalid⟩
      · rintro ⟨chain, hchain, message, hm, simple, performative, hs, hp, hverb, i, name, hi, rfl,
          hvalid⟩
        have hd := (hmem _).mpr ⟨message, hm, metadataOf_eq hs hp⟩
        exact ⟨_, (getElem?_ranksOf protocol verb _).mpr ⟨chain, hchain, rfl⟩, _, hd, hverb, name,
          (hsteps _ hd hverb name).mpr hvalid,
          (getElem?_rankTable (hnodup chain hchain) name _).mpr ⟨i, hi, rfl⟩⟩
    rw [← hset]
    exact hr.progress verb

end Applied

-- ── Bids ────

/-- The steps of three bids, of which the second joins the first. -/
def bidSteps (first : StepDecl) : BTreeMap String StepDecl :=
  ((((∅ : BTreeMap String StepDecl).insert "begin" ⟨"begin", [], [.single "bid#1"]⟩).insert "bid#1"
    first).insert "bid#2" ⟨"bid#2", [.all ((∅ : BTreeSet String).insert "bid#1")],
      [.single "bid#3"]⟩).insert "bid#3" ⟨"bid#3", [.single "bid#2"], []⟩

/-- The first bid follows `begin`. -/
def bidProtocol : CausalProtocol :=
  ⟨bidSteps ⟨"bid#1", [.single "begin"], [.single "bid#2"]⟩⟩

/-- The first bid may also follow a step that is not declared. -/
def strayProtocol : CausalProtocol :=
  ⟨bidSteps ⟨"bid#1", [.single "begin", .single "ask"], [.single "bid#2"]⟩⟩

/-- A bid with a causal reference. -/
def bid (content : String) (cause : CausedBy) : Message :=
  .simple (.custom "bid") none (.atom (.str content)) [] (some "t") (some "@alice") (some cause)

def firstBid : Message := bid "1" .begin

def firstHash : String :=
  "sha256:9777e7769f8533da11a7ed28e7e1b1d5b538811610c22de989f91a9a5a56eeeb"

/-- The first bid in the state spelling. -/
def firstAddress : String :=
  "sha256-9777e7769f8533da11a7ed28e7e1b1d5b538811610c22de989f91a9a5a56eeeb"

/-- A second bid that joins the first in the state spelling. -/
def secondBid : Message := bid "2" (.multiple [firstAddress])

def secondHash : String :=
  "sha256:f2a3db818e24efd8a2058c6aefa8aa87b3dfdffb5d37c882b1616feea5cb7a54"

theorem bid_hashes : typedRoot CbclSha256.sha256 firstBid = firstHash ∧
    typedRoot CbclSha256.sha256 secondBid = secondHash := by
  rw [CbclSha256Words.sha256_eq]
  exact ⟨by decide +kernel, by decide +kernel⟩

/-- The thread the first bid opens. -/
def bidContext : PositionContext := ⟨[], firstHash, "t"⟩

/-- What a cache of a bid protocol keeps after some records. -/
def bidRun (protocol : CausalProtocol) (data : List PositionMetadata) : Option CachedPositions :=
  (CachedPositions.new bidContext (some protocol)).toOption.bind fun p =>
    (data.foldlM (CachedPositions.applyMetadata CbclSha256.sha256) p).toOption

/-- The records of the two bids. -/
def firstRecord : PositionMetadata := ⟨firstHash, "bid", some .begin⟩

def secondRecord : PositionMetadata := ⟨secondHash, "bid", some (.multiple [firstAddress])⟩

/-- A bid is recorded by its hash. -/
theorem applyAccepted_bid {p : CachedPositions} (hthread : p.context.thread = "t")
    (content : String) (cause : CausedBy) :
    p.applyAccepted CbclSha256.sha256 (bid content cause) = p.applyMetadata CbclSha256.sha256
      ⟨typedRoot CbclSha256.sha256 (bid content cause), "bid", some cause⟩ := by
  unfold CachedPositions.applyAccepted
  show (if (bid content cause).thread ≠ some p.context.thread then _ else _) = _
  rw [hthread]
  exact if_neg fun h => h rfl

/-- A record does not change the thread of a cache. -/
theorem applyMetadata_context {p p' : CachedPositions} {d : PositionMetadata}
    (h : p.applyMetadata CbclSha256.sha256 d = .ok p') : p'.context = p.context := by
  cases hold : p.entries.get d.id with
  | some old =>
      unfold CachedPositions.applyMetadata at h
      rw [hold] at h
      dsimp only at h
      split at h
      · injection h with h
        rw [h]
      · exact nomatch h
  | none =>
      rw [(applyMetadata_ok hold h).2]
      rfl

/-- Runs over the records of the bids are runs over the bids. -/
theorem applyAll_bids {protocol : CausalProtocol} (bids : List (String × CausedBy))
    {p : CachedPositions} (h : bidRun protocol (bids.map fun b =>
      ⟨typedRoot CbclSha256.sha256 (bid b.1 b.2), "bid", some b.2⟩) = some p) :
    ∃ p₀, CachedPositions.new bidContext (some protocol) = .ok p₀ ∧
      p₀.applyAll CbclSha256.sha256 (bids.map fun b => bid b.1 b.2) = .ok p := by
  obtain ⟨p₀, hnew, hrun⟩ := Option.bind_eq_some_iff.mp h
  replace hnew := CbclExcept.toOption_eq_some_iff.mp hnew
  refine ⟨p₀, hnew, ?_⟩
  have hcontext : p₀.context.thread = "t" := by
    unfold CachedPositions.new at hnew
    dsimp only at hnew
    split at hnew
    · exact nomatch hnew
    · injection hnew with hnew
      rw [← hnew]
      rfl
  clear hnew h
  induction bids generalizing p₀ with
  | nil => exact CbclExcept.toOption_eq_some_iff.mp hrun
  | cons b rest ih =>
      replace hrun := CbclExcept.toOption_eq_some_iff.mp hrun
      rw [List.map_cons, List.foldlM_cons] at hrun
      obtain ⟨p₁, hfirst, hrest⟩ := CbclExcept.bind_ok_iff.mp hrun
      unfold CachedPositions.applyAll
      rw [List.map_cons, List.foldlM_cons, applyAccepted_bid hcontext, hfirst]
      exact ih p₁ (CbclExcept.toOption_eq_some_iff.mpr hrest)
        (by rw [applyMetadata_context hfirst]; exact hcontext)

/-- The cache judges the last reference valid, alias or stray step notwithstanding; the full resolver
    does not.  The copies of the bid protocol are placed. -/
theorem bid_runs :
    (bidRun bidProtocol [firstRecord, secondRecord]).any (fun p =>
      CbclRepeat.verify "bid" (some (.single secondHash)) (portStore p.toMaterializedPositions)
        bidProtocol "t" (some firstHash) = .valid) ∧
    (bidRun strayProtocol [firstRecord]).any (fun p =>
      CbclRepeat.verify "bid" (some (.multiple [firstHash])) (portStore p.toMaterializedPositions)
        strayProtocol "t" (some firstHash) = .valid) ∧
    CbclRepeat.verify "bid" (some (.single secondHash))
      (filed "t" [(firstHash, firstBid), (secondHash, secondBid)]).toStore bidProtocol "t"
      (some firstHash) = .unknown ∧
    CbclRepeat.verify "bid" (some (.multiple [firstHash]))
      (filed "t" [(firstHash, firstBid)]).toStore strayProtocol "t" (some firstHash) ≠ .valid ∧
    ∀ name ∈ bidProtocol.steps.keys, name ∈ protocolOrder bidProtocol := by
  unfold bidRun
  rw [CbclSha256Words.sha256_eq]
  refine ⟨?_, ?_, ?_, ?_, ?_⟩ <;> decide +kernel

theorem bidProtocol_places : PlacesCopies bidProtocol := fun name hname _ =>
  bid_runs.2.2.2.2 name (Std.ExtTreeMap.mem_keys.mpr hname)

theorem twoBids_applied : ∃ p₀ p, CachedPositions.new bidContext (some bidProtocol) = .ok p₀ ∧
    p₀.applyAll CbclSha256.sha256 [firstBid, secondBid] = .ok p ∧
    CbclRepeat.verify "bid" (some (.single secondHash)) (portStore p.toMaterializedPositions)
      bidProtocol "t" (some firstHash) = .valid := by
  obtain ⟨p, hrun, hvalid⟩ := (Option.any_eq_true _ _).mp bid_runs.1
  obtain ⟨p₀, hnew, hall⟩ := @applyAll_bids bidProtocol
    [("1", .begin), ("2", .multiple [firstAddress])] p (by
      show bidRun bidProtocol [⟨typedRoot CbclSha256.sha256 firstBid, _, _⟩,
        ⟨typedRoot CbclSha256.sha256 secondBid, _, _⟩] = some p
      rw [bid_hashes.1, bid_hashes.2]
      exact hrun)
  exact ⟨p₀, p, hnew, hall, of_decide_eq_true hvalid⟩

theorem oneBid_applied : ∃ p₀ p, CachedPositions.new bidContext (some strayProtocol) = .ok p₀ ∧
    p₀.applyAll CbclSha256.sha256 [firstBid] = .ok p ∧
    CbclRepeat.verify "bid" (some (.multiple [firstHash])) (portStore p.toMaterializedPositions)
      strayProtocol "t" (some firstHash) = .valid := by
  obtain ⟨p, hrun, hvalid⟩ := (Option.any_eq_true _ _).mp bid_runs.2.1
  obtain ⟨p₀, hnew, hall⟩ := @applyAll_bids strayProtocol [("1", .begin)] p (by
      show bidRun strayProtocol [⟨typedRoot CbclSha256.sha256 firstBid, _, _⟩] = some p
      rw [bid_hashes.1]
      exact hrun)
  exact ⟨p₀, p, hnew, hall, of_decide_eq_true hvalid⟩

/-- The native entries of the bids. -/
theorem nativeEntries_bids :
    nativeEntries CbclSha256.sha256 [firstBid, secondBid]
        = [(firstHash, firstBid), (secondHash, secondBid)] ∧
      nativeEntries CbclSha256.sha256 [firstBid] = [(firstHash, firstBid)] := by
  constructor
  · show [(typedRoot CbclSha256.sha256 firstBid, firstBid),
      (typedRoot CbclSha256.sha256 secondBid, secondBid)] = _
    rw [bid_hashes.1, bid_hashes.2]
  · show [(typedRoot CbclSha256.sha256 firstBid, firstBid)] = _
    rw [bid_hashes.1]

/-- The refinement where the store also holds the first bid as the second cites it. -/
theorem twoBids_refined : ∃ p₀ p, CachedPositions.new bidContext (some bidProtocol) = .ok p₀ ∧
    p₀.applyAll CbclSha256.sha256 [firstBid, secondBid] = .ok p ∧
    Refines bidProtocol bidContext p (nativeEntries CbclSha256.sha256 [firstBid, secondBid]
      ++ [(firstAddress, firstBid)]) [firstBid, secondBid] := by
  obtain ⟨p₀, p, hnew, hall, -⟩ := twoBids_applied
  refine ⟨p₀, p, hnew, hall, resolution_refined CbclSha256.sha256 bidProtocol_places hnew hall ?_ ?_⟩
  · intro e he
    rw [List.mem_singleton.mp he]
    refine ⟨List.mem_cons_self .., firstBid, rfl, ?_⟩
    rw [bid_hashes.1]
    decide
  · intro message hm simple hs
    rcases List.mem_cons.mp hm with rfl | hm
    · injection hs with hs
      rw [← hs]
      exact Or.inl rfl
    · rw [List.mem_singleton.mp hm] at hs
      injection hs with hs
      rw [← hs]
      refine Or.inr fun h hh => ?_
      rw [List.mem_singleton.mp hh]
      simp

/-- **Under the native hashes alone a cache refines neither a history that cites another
    spelling nor a protocol with a step that is never ready.** -/
theorem native_not_refined :
    (∃ p₀ p, CachedPositions.new bidContext (some bidProtocol) = .ok p₀ ∧
      p₀.applyAll CbclSha256.sha256 [firstBid, secondBid] = .ok p ∧
      ¬ Refines bidProtocol bidContext p
        (nativeEntries CbclSha256.sha256 [firstBid, secondBid]) [firstBid, secondBid]) ∧
    ∃ p₀ p, CachedPositions.new bidContext (some strayProtocol) = .ok p₀ ∧
      p₀.applyAll CbclSha256.sha256 [firstBid] = .ok p ∧
      ¬ Refines strayProtocol bidContext p
        (nativeEntries CbclSha256.sha256 [firstBid]) [firstBid] := by
  constructor
  · obtain ⟨p₀, p, hnew, hall, hvalid⟩ := twoBids_applied
    refine ⟨p₀, p, hnew, hall, fun href => ?_⟩
    rw [nativeEntries_bids.1] at href
    have hsame := href.verdict "bid" (some (.single secondHash)) (Or.inr fun h hh => by
      rw [List.mem_singleton.mp hh]
      simp)
    have hfull := bid_runs.2.2.1.symm.trans (hsame.valid_iff.mp hvalid)
    exact nomatch hfull
  · obtain ⟨p₀, p, hnew, hall, hvalid⟩ := oneBid_applied
    refine ⟨p₀, p, hnew, hall, fun href => ?_⟩
    rw [nativeEntries_bids.2] at href
    have hsame := href.verdict "bid" (some (.multiple [firstHash])) (Or.inr fun h hh => by
      rw [List.mem_singleton.mp hh]
      simp)
    exact bid_runs.2.2.2.1 (hsame.valid_iff.mp hvalid)

end CbclPositions
