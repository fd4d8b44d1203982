import Cbcl.BundleModel
import Cbcl.TreeMapProofs

/-!
# What the graph walks see of wrapped messages

The typing of a predecessor looks through wrappers and scopes to the innermost simple message;
the walks over a thread do not.  A stored message that is not itself simple cites nothing for
them.  This file says exactly which threads the walks answer for as if they looked through,
and for which messages the bundle check is as strict as the check over a store.
-/

namespace CbclBundle

open CbclMessage CbclProtocol CbclStore CbclThreadedStore CbclVerifier CbclWorklist
open ThreadedMessageStore

-- ── Stores reached by appends ────

/-- The store after some appends, in order, to the empty store. -/
def appendAll (appends : List (ContentHash × ThreadId × Message)) : ThreadedMessageStore :=
  appends.foldl (fun s a => (s.append a.1 a.2.1 a.2.2).2) .new

/-- A message is filed after an append if it was filed before or is the one filed now. -/
theorem mem_messages_append {s : ThreadedMessageStore} {hash : ContentHash}
    (hfresh : hash ∉ s.index) (thread : ThreadId) (message : Message) (t : ThreadId)
    (h : ContentHash) (m : Message) :
    (h, m) ∈ (s.append hash thread message).2.messages t ↔
      (h, m) ∈ s.messages t ∨ t = thread ∧ h = hash ∧ m = message := by
  rw [← lookupInThread_iff, lookupInThread_append hfresh, ← lookupInThread_iff]
  by_cases hh : h = hash
  · have hnew : s.lookupInThread h t ≠ some m :=
      fun hl => hfresh (hh ▸ mem_index_of_lookup hl)
    rw [if_pos hh]
    by_cases ht : t = thread
    · rw [if_pos ht, Option.some_inj]
      exact ⟨fun hm => Or.inr ⟨ht, hh, hm.symm⟩, fun hm => (hm.resolve_left hnew).2.2.symm⟩
    · rw [if_neg ht]
      exact ⟨(fun hm => nomatch hm), fun hm => absurd (hm.resolve_left hnew).1 ht⟩
  · rw [if_neg hh]
    exact ⟨Or.inl, fun hm => hm.resolve_right fun hc => hh hc.2.1⟩

/-- The reference sets of a store hold what its messages cite. -/
def ReferencesKept (s : ThreadedMessageStore) : Prop :=
  ∀ (t : ThreadId) (g : ContentHash), g ∈ (s.referenced[t]?).getD ∅ ↔
    ∃ h m, (h, m) ∈ s.messages t ∧ g ∈ citedHashes m.causedBy

/-- The references after an append. -/
theorem mem_addReferences (s : ThreadedMessageStore) (thread : ThreadId) (message : Message)
    (t : ThreadId) (g : ContentHash) :
    g ∈ ((s.addReferences thread message)[t]?).getD ∅ ↔
      g ∈ (s.referenced[t]?).getD ∅ ∨ t = thread ∧ g ∈ citedHashes message.causedBy := by
  unfold addReferences
  cases hcb : message.causedBy with
  | none => simp [citedHashes]
  | some cb =>
      dsimp only
      rw [CbclTreeMap.getElem?_insert_eq]
      by_cases ht : t = thread
      · rw [if_pos ht, Option.getD_some, CbclTreeMap.mem_foldl_insert, ht]
        simp only [citedHashes, Option.map_some, Option.getD_some, true_and]
        exact Or.comm
      · rw [if_neg ht]
        simp [ht]

/-- **An append keeps the reference sets.** -/
theorem ReferencesKept.append {s : ThreadedMessageStore} (hs : ReferencesKept s)
    (hash : ContentHash) (thread : ThreadId) (message : Message) :
    ReferencesKept (s.append hash thread message).2 := by
  by_cases hfresh : hash ∈ s.index
  · have hsame : (s.append hash thread message).2 = s := by
      unfold ThreadedMessageStore.append
      rw [dif_pos hfresh]
    rw [hsame]
    exact hs
  · intro t g
    have href : (s.append hash thread message).2.referenced = s.addReferences thread message := by
      unfold ThreadedMessageStore.append
      rw [dif_neg hfresh]
    simp only [href, mem_addReferences, hs t g, mem_messages_append hfresh]
    constructor
    · rintro (⟨h, m, hm, hg⟩ | ⟨ht, hg⟩)
      · exact ⟨h, m, Or.inl hm, hg⟩
      · exact ⟨hash, message, Or.inr ⟨ht, rfl, rfl⟩, hg⟩
    · rintro ⟨h, m, hm | ⟨ht, -, rfl⟩, hg⟩
      · exact Or.inl ⟨h, m, hm, hg⟩
      · exact Or.inr ⟨ht, hg⟩

theorem referencesKept_appendAll (appends : List (ContentHash × ThreadId × Message)) :
    ReferencesKept (appendAll appends) := by
  unfold appendAll
  induction appends using List.reverseRecOn with
  | nil =>
      intro t g
      simp [ThreadedMessageStore.new, ThreadedMessageStore.messages]
  | append_singleton appends a ih =>
      rw [List.foldl_append]
      exact ih.append a.1 a.2.1 a.2.2

-- ── What the walks visit ────

variable {s : ThreadedMessageStore} {t : ThreadId}

/-- The walk over citations visits what is reachable by them. -/
theorem mem_walk_iff (store : MessageStore) {start : List ContentHash} {g : ContentHash} :
    g ∈ exploreWith (pushUnseen (citations store t))
        (potential (citations store t) store.hashes start []) start [] ↔
      ∃ h ∈ start, Reaches (citations store t) h g :=
  mem_exploreWith_iff (pushes_pushUnseen _) (citations_support store t)

theorem mem_causalClosure_iff {h g : ContentHash} (hstored : s.contains h t = true) :
    g ∈ causalClosure s h t ↔ Reaches (citations s.toStore t) h g := by
  unfold causalClosure
  rw [if_pos hstored, List.mem_reverse, mem_walk_iff]
  simp

theorem mem_frontier_iff {h : ContentHash} (hrefs : ReferencesKept s) :
    h ∈ frontier s t ↔ s.contains h t = true ∧
      ∀ h' m, (h', m) ∈ s.messages t → h ∉ citedHashes m.causedBy := by
  unfold frontier
  have hstored : s.contains h t = true ↔ ∃ m, (h, m) ∈ s.messages t := by
    rw [contains_iff, Option.isSome_iff_exists]
    simp only [lookupInThread_iff]
  simp only [List.mem_filter, List.mem_map, Prod.exists, exists_and_right, exists_eq_right,
    decide_eq_true_eq, hrefs t h, hstored, not_exists, not_and]

/-- What one visit of the first phase keeps: the messages and the missing hashes found are the
    visited hashes with and without a message. -/
structure CollectedOk (store : MessageStore) (thread : ThreadId) (c : Collected) : Prop where
  missing : ∀ h, h ∈ c.missing ↔ h ∈ c.visited ∧ store.lookupInThread h thread = none

/-- **The first phase is the walk**, and it records what is missing. -/
theorem collect_spec (store : MessageStore) : ∀ (fuel : Nat) (stack : List ContentHash)
    (c : Collected), CollectedOk store t c →
      (collect store t fuel stack c).visited
          = exploreWith (pushUnseen (citations store t)) fuel stack c.visited ∧
        CollectedOk store t (collect store t fuel stack c) := by
  intro fuel
  induction fuel with
  | zero => intro stack c hc; exact ⟨rfl, hc⟩
  | succ fuel ih =>
      intro stack c hc
      cases stack with
      | nil => exact ⟨rfl, hc⟩
      | cons current stack =>
          rw [collect, exploreWith]
          by_cases hseen : current ∈ c.visited
          · rw [if_pos hseen, if_pos hseen]
            exact ih stack c hc
          · rw [if_neg hseen, if_neg hseen]
            dsimp only
            cases hl : store.lookupInThread current t with
            | none =>
                have hpush : pushUnseen (citations store t) (current :: c.visited) current = [] := by
                  unfold pushUnseen citations
                  rw [hl]
                  rfl
                rw [hpush]
                refine ih stack _ ⟨fun h => ?_⟩
                rw [List.mem_append, List.mem_singleton, hc.missing, List.mem_cons]
                constructor
                · rintro (⟨hv, hn⟩ | rfl)
                  · exact ⟨Or.inr hv, hn⟩
                  · exact ⟨Or.inl rfl, hl⟩
                · rintro ⟨rfl | hv, hn⟩
                  · exact Or.inr rfl
                  · exact Or.inl ⟨hv, hn⟩
            | some m =>
                have hpush : pushUnseen (citations store t) (current :: c.visited) current
                    = ((citedHashes m.causedBy).filter (· ∉ current :: c.visited)).reverse := by
                  unfold pushUnseen citations
                  rw [hl]
                  rfl
                rw [hpush]
                refine ih _ _ ⟨fun h => ?_⟩
                rw [hc.missing, List.mem_cons]
                constructor
                · rintro ⟨hv, hn⟩
                  exact ⟨Or.inr hv, hn⟩
                · rintro ⟨rfl | hv, hn⟩
                  · rw [hl] at hn
                    cases hn
                  · exact ⟨hv, hn⟩

/-- The missing hashes of an extraction: reachable by citations and not stored. -/
theorem mem_missing_iff (store : MessageStore) {target g : ContentHash} :
    g ∈ (collectFrom store t target).missing ↔
      Reaches (citations store t) target g ∧ store.lookupInThread g t = none := by
  obtain ⟨hvisited, hok⟩ := collect_spec (t := t) store
    (potential (citations store t) store.hashes [target] []) [target] ⟨[], [], []⟩ ⟨by simp⟩
  have hmem : g ∈ (collectFrom store t target).visited ↔ Reaches (citations store t) target g := by
    unfold collectFrom
    rw [hvisited, mem_walk_iff]
    simp
  rw [← hmem]
  exact hok.missing g

/-- An extraction fails for want of messages exactly when a reachable hash is not stored. -/
theorem extract_incomplete_iff (store : MessageStore) {target : ContentHash}
    (hstored : (store.lookupInThread target t).isSome = true) :
    (∃ missing, CausalClosureBundle.extract target t store = .error (.incompleteStore missing)) ↔
      ∃ g, Reaches (citations store t) target g ∧ store.lookupInThread g t = none := by
  obtain ⟨m, hm⟩ := Option.isSome_iff_exists.mp hstored
  unfold CausalClosureBundle.extract
  rw [hm]
  dsimp only
  by_cases hmissing : (collectFrom store t target).missing = []
  · rw [if_neg (by simpa using hmissing)]
    refine ⟨(fun ⟨_, h⟩ => nomatch h), fun ⟨g, hg⟩ => ?_⟩
    have hin := (mem_missing_iff store).mpr hg
    rw [hmissing] at hin
    exact nomatch hin
  · rw [if_pos hmissing]
    refine ⟨fun _ => ?_, fun _ => ⟨_, rfl⟩⟩
    obtain ⟨g, hg⟩ := List.exists_mem_of_ne_nil _ hmissing
    exact ⟨g, (mem_missing_iff store).mp hg⟩

-- ── Looking through wrappers ────

/-- The hashes the innermost simple message of a message cites. -/
def innermostCites (m : Message) : List ContentHash :=
  citedHashes (m.innermostSimple.bind Message.causedBy)

/-- Citations of stored messages, read through wrappers and scopes. -/
def innermostCitations (s : ThreadedMessageStore) (thread : ThreadId) (hash : ContentHash) :
    List ContentHash :=
  ((s.lookupInThread hash thread).map innermostCites).getD []

/-- The walks over a thread answer as if they looked through wrappers. -/
structure SeesThroughWrappers (s : ThreadedMessageStore) (t : ThreadId) : Prop where
  closure : ∀ h, s.contains h t = true → ∀ g, Reaches (innermostCitations s t) h g →
    g ∈ causalClosure s h t
  frontier : ∀ h, h ∈ frontier s t ↔ s.contains h t = true ∧
    ∀ h' m, (h', m) ∈ s.messages t → h ∉ innermostCites m
  extract : ∀ h, s.contains h t = true →
    (∃ g, Reaches (innermostCitations s t) h g ∧ s.contains g t = false) →
      ∃ missing, CausalClosureBundle.extract h t s.toStore = .error (.incompleteStore missing)

/-- A message that is itself simple. -/
def isSimple : Message → Bool
  | .simple .. => true
  | _ => false

/-- Messages of a thread that are not simple cite nothing inside, or only themselves while a
    simple message cites them too. -/
def OnlySimpleCites (s : ThreadedMessageStore) (t : ThreadId) : Prop :=
  ∀ h m, (h, m) ∈ s.messages t → isSimple m = false → ∀ g ∈ innermostCites m,
    g = h ∧ ∃ h' m', (h', m') ∈ s.messages t ∧ isSimple m' = true ∧ h ∈ citedHashes m'.causedBy

theorem innermostCites_of_simple {m : Message} (h : isSimple m = true) :
    innermostCites m = citedHashes m.causedBy := by
  cases m with
  | simple => rfl
  | metaDef => exact nomatch h
  | dialect => exact nomatch h
  | wrapped => exact nomatch h

theorem causedBy_of_not_simple {m : Message} (h : isSimple m = false) : m.causedBy = none := by
  cases m with
  | simple => exact nomatch h
  | metaDef => rfl
  | dialect => rfl
  | wrapped => rfl

theorem citations_of_mem {h : ContentHash} {m : Message} (hm : (h, m) ∈ s.messages t) :
    citations s.toStore t h = citedHashes m.causedBy := by
  unfold citations
  rw [show s.toStore.lookupInThread h t = some m from lookupInThread_iff.mpr hm]
  rfl

theorem innermostCitations_of_mem {h : ContentHash} {m : Message} (hm : (h, m) ∈ s.messages t) :
    innermostCitations s t h = innermostCites m := by
  unfold innermostCitations
  rw [lookupInThread_iff.mpr hm]
  rfl

theorem contains_of_mem {h : ContentHash} {m : Message} (hm : (h, m) ∈ s.messages t) :
    s.contains h t = true := by
  rw [contains_iff, lookupInThread_iff.mpr hm]
  rfl

/-- A hash with citations inside is stored. -/
theorem mem_of_innermostCitations {h g : ContentHash} (hg : g ∈ innermostCitations s t h) :
    ∃ m, (h, m) ∈ s.messages t ∧ g ∈ innermostCites m := by
  cases hl : s.lookupInThread h t with
  | none =>
      unfold innermostCitations at hg
      rw [hl] at hg
      exact nomatch hg
  | some m =>
      have hm := lookupInThread_iff.mp hl
      rw [innermostCitations_of_mem hm] at hg
      exact ⟨m, hm, hg⟩

/-- What the walks cite is cited inside. -/
theorem innermostCites_of_cited {m : Message} {g : ContentHash}
    (hg : g ∈ citedHashes m.causedBy) : g ∈ innermostCites m := by
  cases hm : isSimple m with
  | true => rwa [innermostCites_of_simple hm]
  | false =>
      rw [causedBy_of_not_simple hm] at hg
      exact nomatch hg

/-- Where only simple messages cite, every step inside is a step of the walks. -/
theorem OnlySimpleCites.reaches (hs : OnlySimpleCites s t) {h g : ContentHash}
    (hr : Reaches (innermostCitations s t) h g) : Reaches (citations s.toStore t) h g := by
  induction hr with
  | refl => exact Relation.ReflTransGen.refl
  | tail _ hstep ih =>
      rename_i a b _
      obtain ⟨m, hm, hb⟩ := mem_of_innermostCitations hstep
      cases hsimple : isSimple m with
      | true =>
          refine ih.tail ?_
          rw [citations_of_mem hm, ← innermostCites_of_simple hsimple]
          exact hb
      | false =>
          -- the step stays where it is
          rw [(hs a m hm hsimple b hb).1]
          exact ih

theorem OnlySimpleCites.sees (hrefs : ReferencesKept s) (hs : OnlySimpleCites s t) :
    SeesThroughWrappers s t where
  closure := by
    intro h hstored g hr
    exact (mem_causalClosure_iff hstored).mpr (hs.reaches hr)
  frontier := by
    intro h
    rw [mem_frontier_iff hrefs]
    refine and_congr_right fun _ => ⟨fun hnot h' m hm hc => ?_, fun hnot h' m hm hc => ?_⟩
    · cases hsimple : isSimple m with
      | true =>
          rw [innermostCites_of_simple hsimple] at hc
          exact hnot h' m hm hc
      | false =>
          obtain ⟨heq, h'', m'', hm'', -, hcited⟩ := hs h' m hm hsimple h hc
          exact hnot h'' m'' hm'' (heq ▸ hcited)
    · exact hnot h' m hm (innermostCites_of_cited hc)
  extract := by
    rintro h hstored ⟨g, hr, hg⟩
    refine (extract_incomplete_iff s.toStore (contains_iff.mp hstored)).mpr
      ⟨g, hs.reaches hr, ?_⟩
    cases hl : s.toStore.lookupInThread g t with
    | none => rfl
    | some m =>
        rw [contains_of_mem (lookupInThread_iff.mp hl)] at hg
        cases hg

theorem SeesThroughWrappers.onlySimple (hrefs : ReferencesKept s)
    (hs : SeesThroughWrappers s t) : OnlySimpleCites s t := by
  intro h m hm hsimple g hg
  have hstored := contains_of_mem hm
  -- a message that is not simple is the end of the walk from it
  have hnone : citations s.toStore t h = [] := by
    rw [citations_of_mem hm, causedBy_of_not_simple hsimple]
    rfl
  have hwalk : Reaches (citations s.toStore t) h g := by
    rw [← mem_causalClosure_iff hstored]
    refine hs.closure h hstored g (Relation.ReflTransGen.single ?_)
    rw [innermostCitations_of_mem hm]
    exact hg
  have hgh : g = h := by
    rcases Relation.ReflTransGen.cases_head hwalk with heq | ⟨c, hc, -⟩
    · exact heq.symm
    · rw [hnone] at hc
      exact nomatch hc
  refine ⟨hgh, ?_⟩
  by_contra hno
  have hfront : h ∈ CbclBundle.frontier s t := by
    refine (mem_frontier_iff hrefs).mpr ⟨hstored, fun h' m' hm' hc => hno ⟨h', m', hm', ?_, hc⟩⟩
    cases hsimple' : isSimple m' with
    | true => rfl
    | false =>
        rw [causedBy_of_not_simple hsimple'] at hc
        exact nomatch hc
  exact ((hs.frontier h).mp hfront).2 h m hm (hgh ▸ hg)

/-- **When the walks see through wrappers**: in every store reached by appends, exactly for the
    threads where only simple messages cite. -/
theorem walks_see_through_iff (appends : List (ContentHash × ThreadId × Message))
    (t : ThreadId) :
    SeesThroughWrappers (appendAll appends) t ↔ OnlySimpleCites (appendAll appends) t :=
  ⟨SeesThroughWrappers.onlySimple (referencesKept_appendAll appends),
    OnlySimpleCites.sees (referencesKept_appendAll appends)⟩

/-- A signed message that cites another one. -/
def signedReply : Message :=
  .wrapped .signed [.atom (.symbol "@bob")]
    (.simple (.core .reply) none (.list []) [] (some "t") none (some (.single "sha256:ask")))

/-- A store with a signed reply to a message it does not hold: the closure stops at the
    wrapper. -/
theorem closure_stops_at_wrapper :
    ¬ ∀ (appends : List (ContentHash × ThreadId × Message)) (t : ThreadId),
      SeesThroughWrappers (appendAll appends) t := by
  intro hall
  have hs := hall [("sha256:reply", "t", signedReply)] "t"
  have hin := hs.closure "sha256:reply" (by decide +kernel) "sha256:ask"
    (Relation.ReflTransGen.single (by decide +kernel))
  exact absurd hin (by decide +kernel)

-- ── The bundle check and wrapped messages ────

namespace CausalClosureBundle

/-- The hashes of a bundle are distinct. -/
def Distinct (b : CausalClosureBundle) : Prop := (b.messages.map Prod.fst).Nodup

/-- The verdict over the bundle's store on the innermost simple message of a message, if there
    is one. -/
def innermostVerdict (b : CausalClosureBundle) (protocol : CausalProtocol) (m : Message) :
    Option VerificationResult :=
  m.innermostSimple.map fun s =>
    CbclVerifier.verifyCausal ((s.performative.map Performative.name).getD "") s.causedBy
      b.tempStore.toStore protocol b.thread

/-- An accepted bundle that holds a message holds no violation by its innermost simple
    message, whatever the bundle and the protocol. -/
def NoWeaker (m : Message) : Prop :=
  ∀ (b : CausalClosureBundle) (protocol : CausalProtocol), b.Distinct →
    (∃ h, (h, m) ∈ b.messages) → b.verifyCausal protocol = .ok () →
      ∀ v, b.innermostVerdict protocol m ≠ some (.violation v)

/-- An accepted bundle has no violation by a message as the check reads it. -/
theorem verdict_of_ok {b : CausalClosureBundle} {protocol : CausalProtocol}
    (hok : b.verifyCausal protocol = .ok ()) {h : ContentHash} {m : Message}
    (hm : (h, m) ∈ b.messages) (v : CausalViolation) :
    b.verdict protocol m ≠ .violation v := by
  intro hv
  unfold CausalClosureBundle.verifyCausal at hok
  dsimp only at hok
  split at hok
  · rename_i hnil
    have hnone := List.filterMap_eq_nil_iff.mp hnil (h, m) hm
    rw [hv] at hnone
    exact nomatch hnone
  · exact nomatch hok

/-- A bundle without violations is accepted. -/
theorem ok_of_verdicts {b : CausalClosureBundle} {protocol : CausalProtocol}
    (hall : ∀ h m, (h, m) ∈ b.messages → ∀ v, b.verdict protocol m ≠ .violation v) :
    b.verifyCausal protocol = .ok () := by
  unfold CausalClosureBundle.verifyCausal
  rw [if_pos]
  refine List.filterMap_eq_nil_iff.mpr ?_
  rintro ⟨h, m⟩ hm
  dsimp only
  split
  · rename_i v hv
    exact absurd hv (hall h m hm v)
  · rfl

/-- What the bundle check reads of a message is what its innermost simple message says, or
    that message has a copy name for its performative. -/
def ReadsInnermost (m : Message) : Prop :=
  ∀ s, m.innermostSimple = some s →
    (s.performative.map Performative.name).getD "" = (m.performative.map Performative.name).getD "" ∧
        s.causedBy = m.causedBy ∨
      isCopyName ((s.performative.map Performative.name).getD "") = true

/-- A base name is no copy name. -/
theorem isCopyName_repeatBaseName (name : String) : isCopyName (repeatBaseName name) = false := by
  unfold isCopyName repeatBaseName
  rw [String.toList_ofList]
  by_contra hc
  rw [Bool.not_eq_false, List.contains_iff_mem] at hc
  have := List.mem_takeWhile_imp hc
  simp at this

/-- **A copy name is never judged**: it is no base name, and no step of a protocol without
    copies. -/
theorem verifyCausal_of_copyName {name : String} (hcopy : isCopyName name = true)
    (caused_by : Option CausedBy) (store : MessageStore) (protocol : CausalProtocol)
    (thread : ThreadId) :
    CbclVerifier.verifyCausal name caused_by store protocol thread = .valid := by
  unfold CbclVerifier.verifyCausal
  by_cases hrep : CbclRepeat.hasRepeat protocol = true
  · rw [if_pos hrep]
    unfold CbclRepeat.verify
    rw [if_neg]
    rw [List.any_eq_true]
    rintro ⟨other, -, hbase⟩
    have hbase := of_decide_eq_true hbase
    rw [← hbase, isCopyName_repeatBaseName] at hcopy
    cases hcopy
  · rw [if_neg hrep]
    cases hstep : protocol.steps[name]? with
    | none => rfl
    | some step =>
        refine absurd (List.any_eq_true.mpr ⟨name, ?_, hcopy⟩) hrep
        rw [CbclTreeMap.mem_keys_iff]
        exact ⟨step, hstep⟩

/-- A message the check reads as its innermost simple message is checked. -/
theorem noWeaker_of_reads {m : Message} (hm : ReadsInnermost m) : NoWeaker m := by
  rintro b protocol - ⟨h, hmem⟩ hok v hv
  unfold innermostVerdict at hv
  obtain ⟨s, hs, hv⟩ := Option.map_eq_some_iff.mp hv
  rcases hm s hs with ⟨hname, hcause⟩ | hcopy
  · rw [hname, hcause] at hv
    exact verdict_of_ok hok hmem v hv
  · rw [verifyCausal_of_copyName hcopy] at hv
    exact nomatch hv

/-- A protocol of one step. -/
def oneStep (name : String) (predecessors : List NodeRef) : CausalProtocol :=
  ⟨(∅ : BTreeMap String StepDecl).insert name ⟨name, predecessors, []⟩⟩

theorem oneStep_steps (name : String) (predecessors : List NodeRef) (other : String) :
    (oneStep name predecessors).steps[other]?
      = if other = name then some ⟨name, predecessors, []⟩ else none := by
  unfold oneStep
  rw [CbclTreeMap.getElem?_insert_eq]
  simp

theorem verifyCausal_oneStep {name : String} (hcopy : isCopyName name = false)
    (predecessors : List NodeRef) (other : String) (caused_by : Option CausedBy)
    (store : MessageStore) (thread : ThreadId) :
    CbclVerifier.verifyCausal other caused_by store (oneStep name predecessors) thread
      = if other = name then verifyStep ⟨name, predecessors, []⟩ other caused_by store thread
        else .valid := by
  have hrep : CbclRepeat.hasRepeat (oneStep name predecessors) = false := by
    unfold CbclRepeat.hasRepeat
    by_contra hc
    rw [Bool.not_eq_false, List.any_eq_true] at hc
    obtain ⟨x, hx, hxc⟩ := hc
    rw [CbclTreeMap.mem_keys_iff, oneStep_steps] at hx
    split at hx
    · rename_i heq
      rw [heq, hcopy] at hxc
      cases hxc
    · obtain ⟨_, hw⟩ := hx
      cases hw
  unfold CbclVerifier.verifyCausal
  rw [if_neg (by rw [hrep]; exact Bool.false_ne_true), oneStep_steps]
  split
  · rename_i hnone
    split at hnone
    · cases hnone
    · rename_i hne
      rw [if_neg hne]
  · rename_i step hsome
    split at hsome
    · rename_i heq
      injection hsome with hsome
      rw [if_pos heq, hsome]
    · cases hsome

/-- A bundle of one message. -/
def alone (m : Message) : CausalClosureBundle := ⟨"m", "t", [("m", m)]⟩

/-- The answer of a message with another performative. -/
def other (name : String) : Message :=
  .simple (.custom (name ++ "x")) none (.list []) [] none none none

/-- A message and, under the hash it cites, a message of another type. -/
def citing (m : Message) (name : String) (h : ContentHash) : CausalClosureBundle :=
  ⟨h ++ "x", "t", [(h ++ "x", m), (h, other name)]⟩

theorem append_x_ne (s : String) : s ++ "x" ≠ s := by
  intro h
  have hlen := congrArg String.length h
  rw [String.length_append] at hlen
  have : ("x" : String).length = 1 := rfl
  omega

/-- The cited hash types as the other performative. -/
theorem predecessorType_citing (m : Message) (name : String) (h : ContentHash) :
    predecessorType (citing m name h).tempStore.toStore h "t" = some (name ++ "x") := by
  have hfresh : h ++ "x" ∉ ThreadedMessageStore.new.index := by
    simp [ThreadedMessageStore.new]
  have hfresh' : h ∉ (ThreadedMessageStore.new.append (h ++ "x") "t" m).2.index := by
    rw [mem_index_append hfresh]
    rintro (hc | hc)
    · exact append_x_ne h hc.symm
    · simp [ThreadedMessageStore.new] at hc
  have hlookup : (citing m name h).tempStore.toStore.lookupInThread h "t" = some (other name) := by
    show ThreadedMessageStore.lookupInThread (((ThreadedMessageStore.new.append (h ++ "x") "t"
      m).2.append h "t" (other name)).2) h "t" = _
    rw [lookupInThread_append hfresh', if_pos rfl, if_pos rfl]
  unfold predecessorType
  rw [hlookup]
  rfl

/-- A bundle and a protocol show that a message is checked less than its innermost simple
    message. -/
def Slips (m : Message) (b : CausalClosureBundle) (protocol : CausalProtocol) : Prop :=
  b.Distinct ∧ (∃ h, (h, m) ∈ b.messages) ∧ b.verifyCausal protocol = .ok () ∧
    ∃ v, b.innermostVerdict protocol m = some (.violation v)

/-- A wrapped message whose innermost one the check does not read slips through. -/
theorem exists_slips {m s : Message} (hs : m.innermostSimple = some s) (hm : isSimple m = false)
    (hcopy : isCopyName ((s.performative.map Performative.name).getD "") = false)
    (hread : ¬ ((s.performative.map Performative.name).getD "" = "" ∧ s.causedBy = none)) :
    ∃ b protocol, Slips m b protocol := by
  generalize hname : (s.performative.map Performative.name).getD "" = name at hcopy hread
  have hperf : m.performative = none := by
    cases m with
    | simple => exact nomatch hm
    | metaDef => rfl
    | dialect => rfl
    | wrapped => rfl
  have houter : ∀ (b : CausalClosureBundle) (preds : List NodeRef), (preds = [] ∨ name ≠ "") →
      b.verdict (oneStep name preds) m = .valid := by
    intro b preds hpreds
    unfold verdict
    rw [hperf, causedBy_of_not_simple hm, verifyCausal_oneStep hcopy]
    split
    · rename_i heq
      rcases hpreds with rfl | hne
      · rfl
      · exact absurd heq.symm hne
    · rfl
  have hinner : ∀ (b : CausalClosureBundle) (preds : List NodeRef),
      b.innermostVerdict (oneStep name preds) m
        = some (verifyStep ⟨name, preds, []⟩ name s.causedBy b.tempStore.toStore b.thread) := by
    intro b preds
    unfold innermostVerdict
    rw [hs, Option.map_some, hname, verifyCausal_oneStep hcopy, if_pos rfl]
  have halone : ∀ preds : List NodeRef, (preds = [] ∨ name ≠ "") →
      (∃ v, (alone m).innermostVerdict (oneStep name preds) m = some (.violation v)) →
        Slips m (alone m) (oneStep name preds) := by
    intro preds hpreds hv
    refine ⟨List.nodup_singleton _, ⟨"m", List.mem_singleton_self _⟩, ok_of_verdicts ?_, hv⟩
    intro h m' hm' v
    obtain ⟨-, rfl⟩ := Prod.mk.inj (List.mem_singleton.mp hm')
    rw [houter _ preds hpreds]
    exact fun hc => nomatch hc
  -- one protocol for each form of the citation, under which the innermost message is a violation
  cases hcb : s.causedBy with
  | none =>
      refine ⟨alone m, oneStep name [.single "x"],
        halone _ (Or.inr fun he => hread ⟨he, hcb⟩) ⟨.missingCausedBy, ?_⟩⟩
      rw [hinner, hcb]
      rfl
  | some cb =>
      cases cb with
      | begin =>
          refine ⟨alone m, oneStep name [], halone _ (Or.inl rfl)
            ⟨.invalidPredecessor BEGIN_KEYWORD [] BEGIN_KEYWORD, ?_⟩⟩
          rw [hinner, hcb]
          rfl
      | multiple hs =>
          refine ⟨alone m, oneStep name [], halone _ (Or.inl rfl) ⟨.fanInWithoutAllDecl name, ?_⟩⟩
          rw [hinner, hcb]
          rfl
      | single h =>
          refine ⟨citing m name h, oneStep name [], ?_, ⟨h ++ "x", List.mem_cons_self ..⟩,
            ok_of_verdicts ?_, .extraneousPredecessor h (name ++ "x"), ?_⟩
          · show [h ++ "x", h].Nodup
            simp
          · intro h' m' hm' v
            rcases List.mem_cons.mp hm' with heq | hm'
            · obtain ⟨-, rfl⟩ := Prod.mk.inj heq
              rw [houter _ [] (Or.inl rfl)]
              exact fun hc => nomatch hc
            · obtain ⟨-, rfl⟩ := Prod.mk.inj (List.mem_singleton.mp hm')
              unfold verdict
              rw [show ((other name).performative.map Performative.name).getD "" = name ++ "x"
                from rfl, verifyCausal_oneStep hcopy, if_neg (append_x_ne name)]
              exact fun hc => nomatch hc
          · rw [hinner, hcb]
            show some (verifySingle (citing m name h).tempStore.toStore "t" ⟨name, [], []⟩ h) = _
            unfold verifySingle
            rw [predecessorType_citing]
            rfl

/-- **For which messages the bundle check is no weaker than the check over its store**: exactly
    those it reads as it would read their innermost simple message. -/
theorem noWeaker_iff (m : Message) : NoWeaker m ↔ ReadsInnermost m := by
  refine ⟨fun hno s hs => ?_, noWeaker_of_reads⟩
  cases hm : isSimple m with
  | true =>
      cases m with
      | simple =>
          injection hs with hs
          rw [← hs]
          exact Or.inl ⟨rfl, rfl⟩
      | metaDef => exact nomatch hm
      | dialect => exact nomatch hm
      | wrapped => exact nomatch hm
  | false =>
      by_contra hread
      rw [not_or, Bool.not_eq_true] at hread
      obtain ⟨hread, hcopy⟩ := hread
      have hperf : m.performative = none := by
        cases m with
        | simple => exact nomatch hm
        | metaDef => rfl
        | dialect => rfl
        | wrapped => rfl
      rw [hperf, causedBy_of_not_simple hm] at hread
      obtain ⟨b, protocol, hdistinct, hmem, hok, v, hv⟩ := exists_slips hs hm hcopy hread
      exact hno b protocol hdistinct hmem hok v hv

/-- A signed `reply` that must follow an `ask` and cites nothing is in an accepted bundle. -/
theorem unsigned_reading_slips :
    ¬ ∀ m : Message, NoWeaker m := by
  intro hall
  have hno := hall (.wrapped .signed [.atom (.symbol "@bob")]
    (.simple (.core .reply) none (.list []) [] (some "t") none none))
  refine hno (alone _) (oneStep "reply" [.single "ask"]) (List.nodup_singleton _)
    ⟨"m", List.mem_singleton_self _⟩ ?_ .missingCausedBy ?_
  · decide +kernel
  · decide +kernel

end CausalClosureBundle

end CbclBundle
