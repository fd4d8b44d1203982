import Cbcl.EscrowObservationProofs
import Cbcl.StateSelectionProofs
import Cbcl.VerdictShapeProofs

/-!
# Progress is the greatest established position

`accepted_positions` rebuilds a store from the acts, files each message under both spellings of
its address and reads the resolution table of each thread.  Consistent acts with distinct
addresses have disjoint spellings (`names_unique`), so the store discloses the acts whatever
their order, and a row of the table is valid exactly when the act inhabits the occurrence
(`row_valid_iff`).  The induction runs along the acyclic order of the protocol steps.
-/

namespace CbclStateProgress

open CbclMessage CbclProtocol CbclStore CbclThreadedStore CbclRepeat CbclRepeatTable CbclAct
  CbclState CbclStateMeaning CbclStateSelection CbclEscrowObservation CbclVerdictShape
  CbclTreeMap
open scoped Classical

variable {contentHash : Message → String}

-- ── Names ────

/-- Either spelling of the address of an act. -/
def Spells (contentHash : Message → String) (h : String) (a : Act) : Prop :=
  h = contentHash a.simple ∨ h = a.address

/-- Stripping a lead splits a string. -/
theorem stripStart_eq_some_iff {lead s rest : String} :
    stripStart lead s = some rest ↔ s = lead ++ rest := by
  unfold stripStart
  rw [← String.toList_inj, String.toList_append]
  constructor
  · intro h
    split at h
    · rename_i hpre
      injection h with h
      obtain ⟨tail, htail⟩ := List.isPrefixOf_iff_prefix.mp hpre
      have hdrop : s.toList.drop lead.length = tail := by
        rw [← htail]
        exact List.drop_left
      rw [← h, hdrop, String.toList_ofList (l := tail)]
      exact htail.symm
    · cases h
  · intro h
    rw [if_pos (List.isPrefixOf_iff_prefix.mpr (by rw [h]; exact List.prefix_append _ _)), h,
      ← String.length_toList, List.drop_left]
    exact congrArg some (String.ofList_toList)

theorem wireAddress_cases (contentHash : Message → String) (m : Message) :
    (∃ hex, contentHash m = "sha256:" ++ hex ∧ wireAddress contentHash m = "sha256-" ++ hex) ∨
      ((∀ hex, contentHash m ≠ "sha256:" ++ hex) ∧
        wireAddress contentHash m = contentHash m) := by
  unfold wireAddress
  cases hs : stripStart "sha256:" (contentHash m) with
  | some hex => exact Or.inl ⟨hex, stripStart_eq_some_iff.mp hs, rfl⟩
  | none =>
      refine Or.inr ⟨fun hex heq => ?_, rfl⟩
      rw [stripStart_eq_some_iff.mpr heq] at hs
      exact nomatch hs

/-- **A spelling belongs to one act.** -/
theorem names_unique {a b : Act} (ha : Consistent contentHash a) (hb : Consistent contentHash b)
    {h : String} (hha : Spells contentHash h a) (hhb : Spells contentHash h b) :
    a.address = b.address := by
  have haddr := ha.metadata.1
  have haddr' := hb.metadata.1
  -- the native spelling of one act is never the wire spelling of another
  have hcross : ∀ {a b : Act}, a.address = wireAddress contentHash a.simple →
      b.address = wireAddress contentHash b.simple → contentHash a.simple = b.address →
      a.address = b.address := by
    intro a b haddr haddr' hab
    rcases wireAddress_cases contentHash a.simple with ⟨hex, hnat, hwire⟩ |
      ⟨-, hwire⟩
    · rcases wireAddress_cases contentHash b.simple with ⟨hex', hnat', hwire'⟩ |
        ⟨hno, hwire'⟩
      · rw [hnat, haddr', hwire', ← String.toList_inj, String.toList_append,
          String.toList_append] at hab
        exact absurd hab (by simp)
      · rw [haddr', hwire', hnat] at hab
        exact absurd hab.symm (hno hex)
    · rw [haddr, hwire, hab]
  rcases hha with rfl | rfl
  · rcases hhb with heq | heq
    · rw [haddr, haddr']
      unfold wireAddress
      rw [heq]
    · exact hcross haddr haddr' heq
  · rcases hhb with heq | heq
    · exact (hcross haddr' haddr heq.symm).symm
    · exact heq

-- ── The rebuilt store ────

/-- A store discloses exactly some acts. -/
structure Discloses (contentHash : Message → String) (store : ThreadedMessageStore)
    (xs : List Act) : Prop where
  lookup : ∀ h t m, store.lookupInThread h t = some m ↔
    ∃ a ∈ xs, a.simple.thread = some t ∧ Spells contentHash h a ∧ m = a.message
  index : ∀ h : ContentHash, h ∈ store.index →
    ∃ a ∈ xs, Spells contentHash h a
  envelopes : store.envelopes = ∅
  opened : store.opened = ∅

/-- Appending a message under a name that is fresh or already has it. -/
theorem lookup_append {store : ThreadedMessageStore} {hash : ContentHash} {thread : ThreadId}
    {message : Message}
    (hold : hash ∈ store.index → store.lookupInThread hash thread = some message)
    (h : ContentHash) (t : ThreadId) (m : Message) :
    (store.append hash thread message).2.lookupInThread h t = some m ↔
      (h = hash ∧ t = thread ∧ m = message) ∨ store.lookupInThread h t = some m := by
  by_cases hin : hash ∈ store.index
  · have hsame : (store.append hash thread message).2 = store := by
      unfold ThreadedMessageStore.append
      rw [dif_pos hin]
    rw [hsame]
    refine ⟨Or.inr, ?_⟩
    rintro (⟨rfl, rfl, rfl⟩ | hm)
    · exact hold hin
    · exact hm
  · rw [ThreadedMessageStore.lookupInThread_append hin]
    by_cases hh : h = hash
    · subst hh
      rw [if_pos rfl]
      have hnone : store.lookupInThread h t = none := by
        by_contra hsome
        obtain ⟨m', hm'⟩ := Option.ne_none_iff_exists'.mp hsome
        exact hin (ThreadedMessageStore.mem_index_of_lookup hm')
      rw [hnone]
      by_cases ht : t = thread
      · simp [ht, eq_comm]
      · simp [ht]
    · rw [if_neg hh]
      simp [hh]

/-- Filing one more act of a consistent list. -/
theorem Discloses.fileThreaded {store : ThreadedMessageStore} {xs : List Act} {a : Act}
    (h : Discloses contentHash store xs)
    (hfresh : ∀ b ∈ xs, ∀ k, Spells contentHash k a → Spells contentHash k b → False) :
    Discloses contentHash (fileThreaded contentHash store a) (xs ++ [a]) := by
  unfold CbclState.fileThreaded
  cases ht : a.simple.thread with
  | none =>
      refine ⟨fun k t m => ?_, fun k hk => ?_, h.envelopes, h.opened⟩
      · rw [h.lookup]
        constructor
        · rintro ⟨b, hb, rest⟩
          exact ⟨b, List.mem_append_left _ hb, rest⟩
        · rintro ⟨b, hb, hbt, rest⟩
          rcases List.mem_append.mp hb with hb | hb
          · exact ⟨b, hb, hbt, rest⟩
          · rw [List.mem_singleton.mp hb, ht] at hbt
            exact nomatch hbt
      · obtain ⟨b, hb, hspell⟩ := h.index k hk
        exact ⟨b, List.mem_append_left _ hb, hspell⟩
  | some thread =>
      dsimp only
      have hnew : ∀ k, Spells contentHash k a → k ∉ store.index := by
        intro k hk hin
        obtain ⟨b, hb, hspell⟩ := h.index k hin
        exact hfresh b hb k hk hspell
      have hfirst : ∀ k t m, (store.append (contentHash a.simple) thread a.message).2.lookupInThread
          k t = some m ↔ (k = contentHash a.simple ∧ t = thread ∧ m = a.message) ∨
            store.lookupInThread k t = some m :=
        lookup_append fun hin => absurd hin (hnew _ (Or.inl rfl))
      have hnative : contentHash a.simple ∉ store.index := hnew _ (Or.inl rfl)
      have hindex : ∀ k, k ∈ (store.append (contentHash a.simple) thread a.message).2.index ↔
          k = contentHash a.simple ∨ k ∈ store.index :=
        ThreadedMessageStore.mem_index_append hnative
      have hshelves := ThreadedMessageStore.shelves_append store (contentHash a.simple) thread
        a.message
      generalize (store.append (contentHash a.simple) thread a.message).2 = mid
        at hfirst hindex hshelves
      -- the second spelling is new, or it is the first one again
      have hold : a.address ∈ mid.index → mid.lookupInThread a.address thread = some a.message := by
        intro hin
        rcases (hindex _).mp hin with heq | hin
        · exact (hfirst _ _ _).mpr (Or.inl ⟨heq, rfl, rfl⟩)
        · exact absurd hin (hnew _ (Or.inr rfl))
      refine ⟨fun k t m => ?_, fun k hk => ?_, ?_, ?_⟩
      · rw [lookup_append hold, hfirst, h.lookup]
        constructor
        · rintro (⟨rfl, rfl, rfl⟩ | ⟨rfl, rfl, rfl⟩ | ⟨b, hb, rest⟩)
          · exact ⟨a, by simp, ht, Or.inr rfl, rfl⟩
          · exact ⟨a, by simp, ht, Or.inl rfl, rfl⟩
          · exact ⟨b, List.mem_append_left _ hb, rest⟩
        · rintro ⟨b, hb, hbt, hspell, rfl⟩
          rcases List.mem_append.mp hb with hb | hb
          · exact Or.inr (Or.inr ⟨b, hb, hbt, hspell, rfl⟩)
          · rw [List.mem_singleton.mp hb] at hbt hspell ⊢
            have hthread : t = thread := Option.some.inj (hbt.symm.trans ht)
            rcases hspell with hk | hk
            · exact Or.inr (Or.inl ⟨hk, hthread, rfl⟩)
            · exact Or.inl ⟨hk, hthread, rfl⟩
      · have hk' : k = a.address ∨ k ∈ mid.index := by
          by_cases hin : a.address ∈ mid.index
          · unfold ThreadedMessageStore.append at hk
            rw [dif_pos hin] at hk
            exact Or.inr hk
          · exact (ThreadedMessageStore.mem_index_append hin k).mp hk
        rcases hk' with rfl | hk'
        · exact ⟨a, by simp, Or.inr rfl⟩
        · rcases (hindex k).mp hk' with rfl | hk'
          · exact ⟨a, by simp, Or.inl rfl⟩
          · obtain ⟨b, hb, hspell⟩ := h.index k hk'
            exact ⟨b, List.mem_append_left _ hb, hspell⟩
      · rw [(ThreadedMessageStore.shelves_append mid a.address thread a.message).1, hshelves.1,
          h.envelopes]
      · rw [(ThreadedMessageStore.shelves_append mid a.address thread a.message).2, hshelves.2,
          h.opened]

/-- The acts of an enumeration have spellings of their own. -/
theorem spells_unique {xs : List Act} {S : Finset Act} (h : Enumerates xs S)
    (hcons : ∀ a ∈ xs, Consistent contentHash a) {a b : Act} (ha : a ∈ xs) (hb : b ∈ xs)
    {k : String} (hka : Spells contentHash k a) (hkb : Spells contentHash k b) : a = b :=
  h.same ha hb (names_unique (hcons a ha) (hcons b hb) hka hkb)

/-- **The rebuilt store discloses the acts.** -/
theorem discloses_foldl {xs : List Act} {S : Finset Act} (h : Enumerates xs S)
    (hcons : ∀ a ∈ xs, Consistent contentHash a) :
    Discloses contentHash (xs.foldl (fileThreaded contentHash) ThreadedMessageStore.new) xs := by
  have hfold : ∀ ys : List Act, ys <+: xs → Discloses contentHash
      (ys.foldl (fileThreaded contentHash) ThreadedMessageStore.new) ys := by
    intro ys
    induction ys using List.reverseRecOn with
    | nil =>
        intro _
        refine ⟨fun k t m => ?_, fun k hk => ?_, rfl, rfl⟩
        · simp [ThreadedMessageStore.new, ThreadedMessageStore.lookupInThread,
            ThreadedMessageStore.indexLookup]
        · exact absurd hk (by simp [ThreadedMessageStore.new])
    | append_singleton ys a ih =>
        intro hpre
        rw [List.foldl_append, List.foldl_cons, List.foldl_nil]
        refine (ih ((List.prefix_append ys [a]).trans hpre)).fileThreaded fun b hb k hka hkb => ?_
        have ha : a ∈ xs := hpre.subset (by simp)
        have hb' : b ∈ xs := hpre.subset (List.mem_append_left _ hb)
        have hab := spells_unique h hcons ha hb' hka hkb
        -- the act would stand twice in a prefix of a list without duplicates
        have hnodup : (ys ++ [a]).Nodup := h.nodup_self.sublist hpre.sublist
        rw [List.nodup_append] at hnodup
        exact hnodup.2.2 b hb a (List.mem_singleton.mpr rfl) hab.symm
  exact hfold xs (List.prefix_refl xs)

-- ── What the store tells of a reference ────

/-- What a consistent act's message is read as. -/
theorem fullMetadata_consistent {a : Act} (h : Consistent contentHash a) :
    fullMetadata a.message = some (a.verb, a.simple.causedBy) ∧ fullType a.message = a.verb := by
  obtain ⟨r, hr, -, hverb, -⟩ := h
  unfold Act.fromMessage at hr
  cases hs : a.message.innermostSimple with
  | none => rw [hs] at hr; exact nomatch hr
  | some simple =>
      have hsimple : a.simple = simple := by
        unfold Act.simple
        rw [hs]
        rfl
      rw [hs] at hr
      dsimp only at hr
      cases hp : simple.performative with
      | none => rw [hp] at hr; exact nomatch hr
      | some p =>
          rw [hp] at hr
          injection hr with hr
          have hname : a.verb = p.name := by rw [hverb, ← hr]
          unfold fullMetadata fullType
          simp [hs, hp, hsimple, hname]

section Store

variable {store : ThreadedMessageStore} {xs : List Act} {S : Finset Act}
  (disclosed : Discloses contentHash store xs) (h : Enumerates xs S)
  (hcons : ∀ a ∈ xs, Consistent contentHash a) {thread : ThreadId}
include h

theorem names_iff {k : String} {a : Act} : Names contentHash S thread k a ↔
    a ∈ xs ∧ a.simple.thread = some thread ∧ Spells contentHash k a := by
  unfold Names Spells
  rw [h.mem]

omit h in
include disclosed in
/-- The rebuilt store has empty shelves. -/
theorem shelves_none (k : String) : store.toStore.envelopeInThread k thread = none ∧
    store.toStore.openedInThread k thread = none := by
  constructor
  · show (store.envelopes[k]?).filter _ = none
    rw [disclosed.envelopes]
    simp
  · show (store.opened[k]?).filter _ = none
    rw [disclosed.opened]
    simp

include disclosed hcons

/-- The metadata of a reference is that of the act it names. -/
theorem metadata_iff {k verb : String} {cause : Option CausedBy} :
    metadata store.toStore k thread = some (verb, cause) ↔
      ∃ a, Names contentHash S thread k a ∧ verb = a.verb ∧ cause = a.simple.causedBy := by
  obtain ⟨henv, hopen⟩ := shelves_none disclosed k
  unfold metadata
  rw [henv, hopen]
  have hlookup : store.toStore.lookupInThread k thread = store.lookupInThread k thread := rfl
  rw [hlookup]
  constructor
  · intro hm
    cases hl : store.lookupInThread k thread with
    | none => rw [hl] at hm; cases hm
    | some m =>
        rw [hl] at hm
        obtain ⟨a, ha, hat, hspell, rfl⟩ := (disclosed.lookup k thread m).mp hl
        replace hm : fullMetadata a.message = some (verb, cause) := hm
        rw [(fullMetadata_consistent (hcons a ha)).1] at hm
        injection hm with hm
        injection hm with hv hc
        exact ⟨a, (names_iff h).mpr ⟨ha, hat, hspell⟩, hv.symm, hc.symm⟩
  · rintro ⟨a, hnames, rfl, rfl⟩
    obtain ⟨ha, hat, hspell⟩ := (names_iff h).mp hnames
    rw [(disclosed.lookup k thread a.message).mpr ⟨a, ha, hat, hspell, rfl⟩]
    exact (fullMetadata_consistent (hcons a ha)).1

/-- The type of a reference is the verb of the act it names. -/
theorem predecessorType_iff {k verb : String} :
    predecessorType store.toStore k thread = some verb ↔
      ∃ a, Names contentHash S thread k a ∧ verb = a.verb := by
  constructor
  · intro hp
    obtain ⟨henv, hopen⟩ := shelves_none disclosed k
    unfold predecessorType at hp
    rw [henv, hopen] at hp
    cases hl : store.toStore.lookupInThread k thread with
    | none => rw [hl] at hp; exact nomatch hp
    | some m =>
        rw [hl] at hp
        injection hp with hp
        obtain ⟨a, ha, hat, hspell, rfl⟩ := (disclosed.lookup k thread m).mp hl
        refine ⟨a, (names_iff h).mpr ⟨ha, hat, hspell⟩, ?_⟩
        rw [← hp, (fullMetadata_consistent (hcons a ha)).2]
  · rintro ⟨a, hnames, rfl⟩
    exact predecessorType_of_metadata
      ((metadata_iff disclosed h hcons).mpr ⟨a, hnames, rfl, rfl⟩)

end Store

-- ── Rows of the table ────

/-- **When a step accepts a causal reference.** -/
theorem step_valid_iff {r : Resolution} {decl : StepDecl} {cause : Option CausedBy} :
    r.step decl cause = .valid ↔
      (Resolution.rewriteRoot r.root cause = none ∧ decl.predecessors = []) ∨
      (Resolution.rewriteRoot r.root cause = some .begin ∧
        BEGIN_KEYWORD ∈ allowedSinglePredecessors decl) ∨
      (∃ g, Resolution.rewriteRoot r.root cause = some (.single g) ∧
        ∃ p ∈ allowedSinglePredecessors decl, r.at g p = .valid) ∨
      (∃ gs all, Resolution.rewriteRoot r.root cause = some (.multiple gs) ∧
        firstAll decl = some all ∧ (∀ g ∈ gs, ∃ p ∈ all.toList, r.at g p = .valid) ∧
        ∀ p ∈ all.toList, ∃ g ∈ gs, r.at g p = .valid) := by
  unfold Resolution.step
  cases hrw : Resolution.rewriteRoot r.root cause with
  | none =>
      by_cases hp : decl.predecessors = []
      · simp [hp]
      · simp [hp]
  | some cb =>
      cases cb with
      | begin =>
          by_cases hb : BEGIN_KEYWORD ∈ allowedSinglePredecessors decl
          · simp [hb]
          · simp [hb, Resolution.wrong]
      | single g => simp [alternatives_valid_iff]
      | multiple gs =>
          cases hall : firstAll decl with
          | none => simp
          | some all => simp [fanIn_valid_iff]

theorem repeated_iff {r : Resolution} {base : String} :
    r.repeated base = true ↔ Copied r.protocol base := by
  unfold Resolution.repeated Copied
  simp [List.any_eq_true]

/-- What inhabiting an occurrence and filling a name have in common: the verb of the act. -/
theorem inhabits_named {protocol : CausalProtocol} {S : Finset Act} {thread : ThreadId}
    {k name : String} (h : Inhabits contentHash protocol S thread k name) :
    ∃ a decl, Names contentHash S thread k a ∧ a.verb = repeatBaseName name ∧
      Occurrence protocol name decl := by
  cases h with
  | free named verb occurs _ _ => exact ⟨_, _, named, verb, occurs⟩
  | begins named verb occurs _ _ => exact ⟨_, _, named, verb, occurs⟩
  | follows named verb occurs _ _ _ => exact ⟨_, _, named, verb, occurs⟩
  | joins _ _ named verb occurs _ _ _ _ _ _ => exact ⟨_, _, named, verb, occurs⟩

section Rows

variable {store : ThreadedMessageStore} {xs : List Act} {S : Finset Act}
  (disclosed : Discloses contentHash store xs) (h : Enumerates xs S)
  (hcons : ∀ a ∈ xs, Consistent contentHash a) {thread : ThreadId} (protocol : CausalProtocol)
  (hashes : List String)

/-- The resolution of a thread over the rebuilt store. -/
noncomputable abbrev resolution (contentHash : Message → String) (store : ThreadedMessageStore)
    (S : Finset Act) (thread : ThreadId) (protocol : CausalProtocol) (hashes : List String) :
    Resolution :=
  Resolution.new store.toStore protocol thread (rootHash contentHash S thread) hashes

omit disclosed h hcons in
theorem kind_resolution (k : String) :
    (resolution contentHash store S thread protocol hashes).kind k
      = predecessorType store.toStore k thread := by
  obtain ⟨hs, -, ht, -, hc, -⟩ := new_spec store.toStore protocol thread
    (rootHash contentHash S thread) hashes
  unfold Resolution.kind
  rw [hs, ht, hc]
  rfl

omit disclosed in
include h hcons in
theorem names_functional {k : String} {a b : Act} (ha : Names contentHash S thread k a)
    (hb : Names contentHash S thread k b) : a = b := by
  obtain ⟨ha, -, hka⟩ := (names_iff h).mp ha
  obtain ⟨hb, -, hkb⟩ := (names_iff h).mp hb
  exact spells_unique h hcons ha hb hka hkb

omit disclosed in
include h hcons in
/-- A step accepts the cause of an act exactly when the act inhabits the occurrence, provided
    the table places the causes as the meaning does. -/
theorem inhabits_iff {r : Resolution} (hroot : r.root = rootHash contentHash S thread)
    {k name : String} {a : Act} {decl : StepDecl}
    (hnames : Names contentHash S thread k a) (hverb : a.verb = repeatBaseName name)
    (hoccurs : Occurrence protocol name decl)
    (hat : ∀ g ∈ citedHashes a.simple.causedBy, ∀ p ∈ predecessorNames decl,
      (r.at g p = .valid ↔ Fills contentHash protocol S thread g p)) :
    r.step decl a.simple.causedBy = .valid ↔
      Inhabits contentHash protocol S thread k name := by
  -- an inhabited occurrence has one declaration and its reference one act
  have hsame : ∀ {b : Act} {decl' : StepDecl}, Names contentHash S thread k b →
      Occurrence protocol name decl' → b = a ∧ decl' = decl := by
    intro b decl' hb hocc
    refine ⟨names_functional h hcons hb hnames, ?_⟩
    exact Option.some.inj (hocc.2.2.symm.trans hoccurs.2.2)
  have hsingle : ∀ {g : String}, Resolution.rewriteRoot (rootHash contentHash S thread)
      a.simple.causedBy = some (.single g) → g ∈ citedHashes a.simple.causedBy := by
    intro g hg
    rw [cause_of_rewriteRoot hg (by simp)]
    simp [citedHashes, CausedBy.hashes]
  have hmulti : ∀ {gs : List String}, Resolution.rewriteRoot (rootHash contentHash S thread)
      a.simple.causedBy = some (.multiple gs) → ∀ g ∈ gs, g ∈ citedHashes a.simple.causedBy := by
    intro gs hgs g hg
    rw [cause_of_rewriteRoot hgs (by simp)]
    simpa [citedHashes, CausedBy.hashes] using hg
  rw [step_valid_iff, hroot]
  constructor
  · rintro (⟨hc, hfit⟩ | ⟨hc, hfit⟩ | ⟨g, hc, p, hp, hv⟩ | ⟨gs, all, hc, hall, hm, hf⟩)
    · exact .free hnames hverb hoccurs hc hfit
    · exact .begins hnames hverb hoccurs hc hfit
    · exact .follows hnames hverb hoccurs hc hp
        ((hat g (hsingle hc) p (allowed_subset hp)).mp hv)
    · choose! place hplace hpv using hm
      choose! source hsource hsv using hf
      refine .joins place source hnames hverb hoccurs hc hall hplace (fun g hg => ?_) hsource
        fun p hp => ?_
      · exact (hat g (hmulti hc g hg) _ (firstAll_subset hall (hplace g hg))).mp (hpv g hg)
      · exact (hat _ (hmulti hc _ (hsource p hp)) p (firstAll_subset hall hp)).mp (hsv p hp)
  · intro hin
    cases hin with
    | free named _ occurs cause fits =>
        obtain ⟨rfl, rfl⟩ := hsame named occurs
        exact Or.inl ⟨cause, fits⟩
    | begins named _ occurs cause fits =>
        obtain ⟨rfl, rfl⟩ := hsame named occurs
        exact Or.inr (Or.inl ⟨cause, fits⟩)
    | follows named _ occurs cause allowed fits =>
        obtain ⟨rfl, rfl⟩ := hsame named occurs
        exact Or.inr (Or.inr (Or.inl ⟨_, cause, _, allowed,
          (hat _ (hsingle cause) _ (allowed_subset allowed)).mpr fits⟩))
    | joins place source named _ occurs cause declared placed fits found filled =>
        obtain ⟨rfl, rfl⟩ := hsame named occurs
        refine Or.inr (Or.inr (Or.inr ⟨_, _, cause, declared, fun g hg => ?_, fun p hp => ?_⟩))
        · exact ⟨place g, placed g hg, (hat g (hmulti cause g hg) _
            (firstAll_subset declared (placed g hg))).mpr (fits g hg)⟩
        · exact ⟨source p, found p hp, (hat _ (hmulti cause _ (found p hp)) p
            (firstAll_subset declared hp)).mpr (filled p hp)⟩

include disclosed h hcons in
/-- **The table places a reference as the meaning does.** -/
theorem at_valid_iff (name : String) :
    ∀ k ∈ referencedClosure store.toStore thread none hashes,
      ((resolution contentHash store S thread protocol hashes).at k name = .valid ↔
        Fills contentHash protocol S thread k name) := by
  refine (topo_protocolOrder protocol).induct (P := fun n =>
    ∀ k ∈ referencedClosure store.toStore thread none hashes,
      ((resolution contentHash store S thread protocol hashes).at k n = .valid ↔
        Fills contentHash protocol S thread k n)) ?_ name
  intro name ih k hk
  obtain ⟨-, hprotocol, -, hroot, hcache, -⟩ := new_spec store.toStore protocol thread
    (rootHash contentHash S thread) hashes
  have hcached : cachedFact (resolution contentHash store S thread protocol hashes).materialized k
      = none := by
    rw [hcache]
    rfl
  cases hkind : (resolution contentHash store S thread protocol hashes).kind k with
  | none =>
      rw [at_of_kind_none hkind]
      refine iff_of_false (by rintro ⟨⟩) fun hfills => ?_
      rw [kind_resolution] at hkind
      have hnone : ∀ a, ¬ Names contentHash S thread k a := by
        intro a ha
        have := (predecessorType_iff disclosed h hcons).mpr ⟨a, ha, rfl⟩
        rw [hkind] at this
        cases this
      cases hfills with
      | ordinary named _ _ _ => exact hnone _ named
      | copy inhabits =>
          obtain ⟨a, -, ha, -⟩ := inhabits_named inhabits
          exact hnone a ha
  | some found =>
      have hkind' := hkind
      rw [kind_resolution] at hkind'
      obtain ⟨a, hnames, rfl⟩ := (predecessorType_iff disclosed h hcons).mp hkind'
      have hmeta := (metadata_iff disclosed h hcons).mpr ⟨a, hnames, rfl, rfl⟩
      have hact : ∀ {b : Act}, Names contentHash S thread k b → b = a := fun hb =>
        names_functional h hcons hb hnames
      by_cases hverb : a.verb = repeatBaseName name
      · by_cases hord : Ordinary (resolution contentHash store S thread protocol hashes) a.verb name
        · -- an ordinary step is filled by every act of its verb
          rw [at_of_ordinary hcached hkind hverb hord]
          refine iff_of_true rfl (.ordinary hnames hverb hord.1 fun hcopied => ?_)
          rw [← hprotocol, ← repeated_iff, hord.2] at hcopied
          cases hcopied
        · -- a copy is filled where its row is valid, and the row asks the acts cited
          rw [at_row_valid_iff hk rfl hmeta hverb hord]
          have hcited : ∀ g ∈ citedHashes a.simple.causedBy,
              g ∈ referencedClosure store.toStore thread none hashes :=
            cited_mem_referencedClosure hk rfl hmeta
          have hfills : Fills contentHash protocol S thread k name ↔
              Inhabits contentHash protocol S thread k name := by
            constructor
            · intro hf
              cases hf with
              | ordinary named _ plain single =>
                  rw [hact named] at single
                  refine absurd ⟨plain, ?_⟩ hord
                  rw [← Bool.not_eq_true, repeated_iff, hprotocol]
                  exact single
              | copy inhabits => exact inhabits
            · exact .copy
          rw [hfills]
          constructor
          · rintro ⟨decl, hin, hne, hdecl, hv⟩
            exact (inhabits_iff h hcons protocol hroot hnames hverb ⟨hin, hne, hdecl⟩
              fun g hg p hp => ih decl hin hdecl p hp g (hcited g hg)).mp hv
          · intro hin
            obtain ⟨b, decl, -, -, hocc⟩ := inhabits_named hin
            exact ⟨decl, hocc.1, hocc.2.1, hocc.2.2,
              (inhabits_iff h hcons protocol hroot hnames hverb hocc
                fun g hg p hp => ih decl hocc.1 hocc.2.2 p hp g (hcited g hg)).mpr hin⟩
      · rw [at_of_kind_ne hcached hkind hverb]
        refine iff_of_false (by rintro ⟨⟩) fun hfills => ?_
        cases hfills with
        | ordinary named verb _ _ =>
            rw [hact named] at verb
            exact hverb verb
        | copy inhabits =>
            obtain ⟨b, -, hb, hbv, -⟩ := inhabits_named inhabits
            rw [hact hb] at hbv
            exact hverb hbv

include disclosed h hcons in
/-- **A row is valid exactly when its act inhabits the occurrence.** -/
theorem row_valid_iff {a : Act} (hnames : Names contentHash S thread a.address a)
    (hmem : a.address ∈ hashes) (name : String) :
    (resolution contentHash store S thread protocol hashes).rows[(a.address, name)]?
        = some .valid ↔ Inhabits contentHash protocol S thread a.address name := by
  obtain ⟨-, hprotocol, -, hroot, -, hfilled⟩ := new_spec store.toStore protocol thread
    (rootHash contentHash S thread) hashes
  have hk : a.address ∈ referencedClosure store.toStore thread none hashes :=
    mem_referencedClosure_of_mem hmem
  have hmeta := (metadata_iff disclosed h hcons).mpr ⟨a, hnames, rfl, rfl⟩
  have hmessage : (closureMessages store.toStore thread none hashes)[a.address]?
      = some (a.verb, a.simple.causedBy) := by
    rw [closureMessages_getElem?, if_pos ⟨hk, rfl⟩, hmeta]
  have hrow := hfilled a.address name
  rw [hrow, expectedRow, hprotocol]
  have hcited : ∀ g ∈ citedHashes a.simple.causedBy,
      g ∈ referencedClosure store.toStore thread none hashes :=
    cited_mem_referencedClosure hk rfl hmeta
  have hinhabits : ∀ {decl : StepDecl}, a.verb = repeatBaseName name →
      Occurrence protocol name decl →
      ((resolution contentHash store S thread protocol hashes).step decl a.simple.causedBy
        = .valid ↔ Inhabits contentHash protocol S thread a.address name) :=
    fun hverb hocc => inhabits_iff h hcons protocol hroot hnames hverb hocc
      fun g hg p _ => at_valid_iff disclosed h hcons protocol hashes p g (hcited g hg)
  constructor
  · intro hv
    split at hv
    · rename_i hin
      obtain ⟨decl, hdecl, hv⟩ := Option.bind_eq_some_iff.mp hv
      obtain ⟨data, hdata, hv⟩ := Option.bind_eq_some_iff.mp hv
      rw [show usedCache store.toStore protocol thread (rootHash contentHash S thread) = none
        from rfl, hmessage] at hdata
      injection hdata with hdata
      subst hdata
      split at hv
      · rename_i hverb
        injection hv with hv
        exact (hinhabits hverb ⟨hin.1, hin.2, hdecl⟩).mp hv
      · cases hv
    · cases hv
  · intro hin
    obtain ⟨b, decl, hb, hbv, hocc⟩ := inhabits_named hin
    rw [names_functional h hcons hb hnames] at hbv
    rw [if_pos ⟨hocc.1, hocc.2.1⟩, hocc.2.2, Option.bind_some]
    show ((closureMessages store.toStore thread none hashes)[a.address]?).bind _ = _
    rw [hmessage, Option.bind_some, if_pos hbv]
    exact congrArg some ((hinhabits hbv hocc).mpr hin)

end Rows

-- ── Threads ────

/-- The act of least address of a list. -/
theorem minByAddress_spec (xs : List Act) :
    (xs = [] ∧ minByAddress xs = none) ∨
      ∃ a ∈ xs, minByAddress xs = some a ∧ ∀ b ∈ xs, a.address ≤ b.address := by
  unfold minByAddress
  induction xs using List.reverseRecOn with
  | nil => exact Or.inl ⟨rfl, rfl⟩
  | append_singleton xs x ih =>
      rw [List.foldl_append, List.foldl_cons, List.foldl_nil]
      right
      rcases ih with ⟨rfl, hnone⟩ | ⟨a, ha, hbest, hmin⟩
      · exact ⟨x, List.mem_singleton.mpr rfl, by rw [hnone], fun b hb => by
          rw [List.mem_singleton.mp hb]⟩
      · rw [hbest]
        by_cases hlt : x.address < a.address
        · refine ⟨x, List.mem_append_right _ (List.mem_singleton.mpr rfl), if_pos hlt,
            fun b hb => ?_⟩
          rcases List.mem_append.mp hb with hb | hb
          · exact hlt.le.trans (hmin b hb)
          · rw [List.mem_singleton.mp hb]
        · refine ⟨a, List.mem_append_left _ ha, if_neg hlt, fun b hb => ?_⟩
          rcases List.mem_append.mp hb with hb | hb
          · exact hmin b hb
          · rw [List.mem_singleton.mp hb]
            exact not_lt.mp hlt

variable {xs : List Act} {S : Finset Act}

/-- The root of a thread is that of its members, in whatever order they came. -/
theorem rootOf_eq (h : Enumerates xs S) (thread : ThreadId) :
    rootOf contentHash (xs.filter (·.simple.thread = some thread))
      = rootHash contentHash S thread := by
  unfold rootOf
  rw [List.filter_filter]
  have hroot : ∀ a, a ∈ xs.filter (fun a => decide (a.message.wrapperType = some .withRoles ∧
      a.predecessors = []) && decide (a.simple.thread = some thread)) ↔
      a ∈ S ∧ a.simple.thread = some thread ∧ a.message.wrapperType = some .withRoles ∧
        a.predecessors = [] := by
    intro a
    rw [List.mem_filter, h.mem, Bool.and_eq_true, decide_eq_true_eq, decide_eq_true_eq,
      and_comm (b := a.simple.thread = some thread)]
  generalize xs.filter (fun a => decide (a.message.wrapperType = some .withRoles ∧
      a.predecessors = []) && decide (a.simple.thread = some thread)) = roots at hroot
  have hmem : ∀ a, a ∈ S.filter (fun a => a.simple.thread = some thread ∧
      a.message.wrapperType = some .withRoles ∧ a.predecessors = []) ↔ a ∈ roots := fun a => by
    rw [Finset.mem_filter, hroot]
  unfold rootHash
  rcases minByAddress_spec roots with ⟨hnil, hnone⟩ | ⟨a, ha, hbest, hmin⟩
  · rw [hnone, dif_neg]
    · rfl
    · rintro ⟨a, ha, -⟩
      rw [hmem, hnil] at ha
      exact nomatch ha
  · have hex : ∃ a, IsRoot S thread a :=
      ⟨a, (hmem a).mpr ha, fun b hb => hmin b ((hmem b).mp hb)⟩
    obtain ⟨hc, hcmin⟩ := hex.choose_spec
    have heq : hex.choose = a := by
      have hle := hcmin a ((hmem a).mpr ha)
      have hge := hmin _ ((hmem _).mp hc)
      exact h.same ((h.mem _).mpr (Finset.mem_filter.mp hc).1)
        ((h.mem a).mpr ((hroot a).mp ha).1) (le_antisymm hle hge)
    rw [hbest, dif_pos hex, heq]
    rfl

/-- The members of a thread. -/
theorem getElem?_addMember (xs : List Act) (thread : String) :
    (xs.foldl addMember ∅)[thread]? =
      if xs.filter (·.simple.thread = some thread) = [] then none
      else some (xs.filter (·.simple.thread = some thread)) := by
  have hstep : addMember = fileUnder fun a : Act => a.simple.thread := by
    funext out a
    unfold addMember fileUnder
    dsimp only
    cases a.simple.thread <;> rfl
  rw [hstep]
  exact getElem?_fileUnder (fun a : Act => a.simple.thread) xs thread

/-- **The accepted positions are the established ones.** -/
theorem mem_acceptedPositions (h : Enumerates xs S) (hcons : ∀ a ∈ xs, Consistent contentHash a)
    (protocol : CausalProtocol) (verb : String) (rank : Nat) :
    rank ∈ acceptedPositions contentHash protocol verb xs ↔
      Established contentHash protocol S verb rank := by
  unfold acceptedPositions Established
  cases hchain : positionChain protocol verb with
  | error e => simp
  | ok chain =>
      have disclosed := discloses_foldl h hcons
      dsimp only
      generalize xs.foldl (fileThreaded contentHash) ThreadedMessageStore.new = store
        at disclosed
      have hrow : ∀ {thread : ThreadId} {a : Act}, a ∈ xs → a.simple.thread = some thread →
          ∀ name, ((resolution contentHash store S thread protocol
            ((xs.filter (·.simple.thread = some thread)).map (·.address))).rows[(a.address,
              name)]? = some .valid ↔ Inhabits contentHash protocol S thread a.address name) := by
        intro thread a ha hat name
        refine row_valid_iff disclosed h hcons protocol _ ?_ ?_ name
        · exact (names_iff h).mpr ⟨ha, hat, Or.inr rfl⟩
        · exact List.mem_map.mpr ⟨a, List.mem_filter.mpr ⟨ha, by simp [hat]⟩, rfl⟩
      have hmember : ∀ {thread : ThreadId} {members : List Act},
          (thread, members) ∈ (xs.foldl addMember ∅).toList →
            members = xs.filter (·.simple.thread = some thread) := by
        intro thread members hmem
        rw [Std.ExtTreeMap.mem_toList_iff_getElem?_eq_some, getElem?_addMember] at hmem
        split at hmem
        · exact nomatch hmem
        · exact (Option.some.inj hmem).symm
      rw [List.mem_flatMap]
      constructor
      · rintro ⟨⟨thread, members⟩, hmem, hrank⟩
        have hmembers := hmember hmem
        subst hmembers
        unfold memberPositions at hrank
        obtain ⟨a, ha, hrank⟩ := List.mem_flatMap.mp hrank
        obtain ⟨⟨name, index⟩, hname, hrank⟩ := List.mem_filterMap.mp hrank
        obtain ⟨ha, hverb⟩ := List.mem_filter.mp ha
        obtain ⟨ha, hthread⟩ := List.mem_filter.mp ha
        rw [decide_eq_true_eq] at hverb hthread
        dsimp only at hrank
        rw [rootOf_eq h thread] at hrank
        split at hrank
        · rename_i hvalid
          exact ⟨chain, rfl, name, index, List.mem_zipIdx_iff_getElem?.mp hname,
            (Option.some.inj hrank).symm, a, (h.mem a).mp ha, hverb, thread, hthread,
            (hrow ha hthread name).mp hvalid⟩
        · exact nomatch hrank
      · rintro ⟨chain', hchain', name, index, hname, rfl, a, haS, hverb, thread, hthread, hin⟩
        injection hchain' with hchain'
        subst hchain'
        have ha : a ∈ xs := (h.mem a).mpr haS
        have hmem : a ∈ xs.filter (·.simple.thread = some thread) :=
          List.mem_filter.mpr ⟨ha, by simp [hthread]⟩
        refine ⟨(thread, xs.filter (·.simple.thread = some thread)), ?_, ?_⟩
        · rw [Std.ExtTreeMap.mem_toList_iff_getElem?_eq_some, getElem?_addMember,
            if_neg (List.ne_nil_of_mem hmem)]
        · unfold memberPositions
          refine List.mem_flatMap.mpr ⟨a, List.mem_filter.mpr ⟨hmem, by simp [hverb]⟩, ?_⟩
          refine List.mem_filterMap.mpr
            ⟨(name, index), List.mem_zipIdx_iff_getElem?.mpr hname, ?_⟩
          dsimp only
          rw [rootOf_eq h thread]
          exact if_pos ((hrow ha hthread name).mpr hin)

/-- The greatest member of a list of numbers. -/
theorem max?_eq_sSup (ns : List Nat) : (ns.max?).getD 0 = sSup {n | n ∈ ns} := by
  cases hmax : ns.max? with
  | none =>
      rw [List.max?_eq_none_iff] at hmax
      subst hmax
      simp
  | some m =>
      rw [List.max?_eq_some_iff] at hmax
      exact (IsGreatest.csSup_eq (show IsGreatest {n | n ∈ ns} m from
        ⟨hmax.1, fun n hn => hmax.2 n hn⟩)).symm

/-- **Progress.** -/
theorem progress_eq (h : Enumerates xs S) (hcons : ∀ a ∈ xs, Consistent contentHash a)
    (protocol : Option CausalProtocol) (verb : String) :
    (((protocol.map fun p => acceptedPositions contentHash p verb xs).getD []).max?).getD 0
      = progressOf contentHash protocol S verb := by
  rw [max?_eq_sSup]
  unfold progressOf
  congr 1
  ext rank
  cases protocol with
  | none => simp
  | some p =>
      show rank ∈ acceptedPositions contentHash p verb xs ↔ _
      rw [mem_acceptedPositions h hcons]
      constructor
      · exact fun hr => ⟨p, rfl, hr⟩
      · rintro ⟨p', hp', hr⟩
        injection hp' with hp'
        rw [hp']
        exact hr

end CbclStateProgress
