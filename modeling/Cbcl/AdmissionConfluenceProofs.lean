import Cbcl.AdmissionSafetyProofs
import Cbcl.VerdictLocalityProofs

/-!
# Admission confluence

Two monitors of one context that receive the same messages, in any order and with any
duplicates and queue visits in between, and that are drained at the end, agree on every
hash.  Three facts carry the proof.

* Verdicts are justified by the *current* history (`Judged`): a decided candidate's citations
  are all accepted, and its verdict over the accepted store stays the one it was decided by,
  because a verdict depends on the cited ancestry only.
* A drained monitor is quiet (`drainReady_quiet`): every queued candidate misses a citation,
  since a complete ancestry decides the verdict.
* What is received is determined by the set of messages (`received_iff`).

Acceptance in one monitor is then carried over to the other along the accepted history.
-/

namespace CbclAdmissionConfluence

open CbclMessage CbclProtocol CbclStore CbclRole CbclVerifier CbclThreadedStore CbclAdmission
open CbclAdmissionSafety CbclVerdictLocality CbclStoreExtension

-- ── Verdicts over accepted histories ────

/-- Accepted stores have no envelopes. -/
def Shelfless (m : AdmissionMonitor) : Prop := m.accepted.envelopes = ∅ ∧ m.accepted.opened = ∅

theorem Changes.shelfless {m m' : AdmissionMonitor} (h : Changes m m') (hm : Shelfless m) :
    Shelfless m' := by
  induction h with
  | refl => exact hm
  | tail _ hchange ih =>
      cases hchange with
      | enqueue => exact ih
      | requeue => exact ih
      | reject => exact ih
      | @accept hash rest c _ _ _ =>
          obtain ⟨henv, hopen⟩ := ThreadedMessageStore.shelves_append _ hash _ c.message
          exact ⟨henv.trans ih.1, hopen.trans ih.2⟩

/-- An accepted message has a simple payload. -/
theorem Safe.simple {m : AdmissionMonitor} (safe : Safe m) {h : ContentHash} {message : Message}
    (hm : m.receivedMessage h = some message) : ∃ simple, message.innermostSimple = some simple :=
  (checkMessage_ok (safe.checked h message hm).2).imp fun _ hs => hs.choose_spec.1

/-- What an accepted message cites is accepted. -/
theorem Safe.cited_accepted {m : AdmissionMonitor} (safe : Safe m) {h : ContentHash}
    {message : Message} (hm : m.accepted.lookupInThread h m.thread = some message) :
    ∀ k ∈ cited message, m.accepted.contains k m.thread = true := by
  intro k hk
  by_cases hroot : h = m.root
  · subst hroot
    rw [safe.cited_root (safe.stored _ _ hm)] at hk
    exact nomatch hk
  · obtain ⟨i, hi⟩ := List.mem_iff_getElem?.mp (ThreadedMessageStore.lookupInThread_iff.mp hm)
    obtain ⟨j, message', -, hj⟩ := safe.history.precedes i h message hi hroot k hk
    exact mem_messages_iff.mp (List.mem_map.mpr ⟨(k, message'), List.mem_of_getElem? hj, rfl⟩)

/-- The metadata of an accepted hash is what its message discloses. -/
theorem metadata_accepted {m : AdmissionMonitor} {h : ContentHash} {message : Message}
    (hm : m.accepted.lookupInThread h m.thread = some message) {verb : String}
    {cause : Option CausedBy} (hmeta : metadata m.accepted.toStore h m.thread = some (verb, cause)) :
    citedHashes cause = cited message := by
  have hlook : m.accepted.toStore.lookupInThread h m.thread = some message := hm
  unfold metadata at hmeta
  rw [hlook] at hmeta
  simp only [fullMetadata, Option.bind_eq_bind, Option.pure_def, Option.bind_eq_some_iff,
    Option.some.injEq, Prod.mk.injEq] at hmeta
  obtain ⟨simple, hs, p, -, -, rfl⟩ := hmeta
  unfold cited
  rw [hs]
  rfl

/-- Two safe monitors of one context that received the same messages judge a message whose
    citations both have accepted alike. -/
theorem verify_agree {m m' : AdmissionMonitor} (safe : Safe m) (safe' : Safe m')
    (hctx : m'.toAdmissionContext = m.toAdmissionContext) (hshelf : Shelfless m)
    (hshelf' : Shelfless m') (hgate : ∀ message, m.gate message ≠ .ok BEGIN_KEYWORD)
    (hmsg : ∀ k a b, m.receivedMessage k = some a → m'.receivedMessage k = some b → a = b)
    {message : Message} (hwrap : message.wrapperType ≠ some .withRoles)
    (hcited : ∀ k ∈ cited message, m.accepted.contains k m.thread = true ∧
      m'.accepted.contains k m.thread = true) : m.verify message = m'.verify message := by
  have hthread : m'.thread = m.thread := congrArg AdmissionContext.thread hctx
  have hgate' : m'.gate = m.gate := congrArg AdmissionContext.gate hctx
  -- the common history: hashes both have accepted, with the same message
  have hcommon : ∀ k, m.accepted.contains k m.thread = true →
      m'.accepted.contains k m.thread = true →
        ∃ a, m.accepted.lookupInThread k m.thread = some a ∧
          m'.accepted.lookupInThread k m.thread = some a := by
    intro k hk hk'
    obtain ⟨a, ha⟩ := Option.isSome_iff_exists.mp (ThreadedMessageStore.contains_iff.mp hk)
    obtain ⟨b, hb⟩ := Option.isSome_iff_exists.mp (ThreadedMessageStore.contains_iff.mp hk')
    have hab := hmsg k a b (safe.stored k a ha)
      (safe'.stored k b (by rw [hthread]; exact hb))
    exact ⟨a, ha, by rw [hab]; exact hb⟩
  have hsame : SameOn m.accepted.toStore m'.accepted.toStore m.thread fun k =>
      ∃ a, m.accepted.lookupInThread k m.thread = some a ∧
        m'.accepted.lookupInThread k m.thread = some a := by
    refine ⟨?_, ?_, ?_, ?_, rfl⟩
    · rintro k ⟨a, ha, ha'⟩
      exact ha.trans ha'.symm
    · intro k _
      show m.accepted.envelopeInThread k m.thread = m'.accepted.envelopeInThread k m.thread
      rw [ThreadedMessageStore.envelopeInThread, ThreadedMessageStore.envelopeInThread, hshelf.1,
        hshelf'.1]
    · intro k _
      show m.accepted.openedInThread k m.thread = m'.accepted.openedInThread k m.thread
      rw [ThreadedMessageStore.openedInThread, ThreadedMessageStore.openedInThread, hshelf.2,
        hshelf'.2]
    · rintro k ⟨a, ha, ha'⟩ verb cause hmeta c hc
      rw [metadata_accepted ha hmeta] at hc
      refine hcommon c (Safe.cited_accepted safe ha c hc) ?_
      have hc' := Safe.cited_accepted safe' (by rw [hthread]; exact ha') c hc
      rw [hthread] at hc'
      exact hc'
  -- the reserved word is no content address
  have hnobegin : ∀ {n : AdmissionMonitor}, Safe n → Shelfless n →
      (∀ message, n.gate message ≠ .ok BEGIN_KEYWORD) →
        predecessorType n.accepted.toStore BEGIN_KEYWORD n.thread = none := by
    intro n sn hn hg
    have hlook : n.accepted.toStore.lookupInThread BEGIN_KEYWORD n.thread = none := by
      show n.accepted.lookupInThread BEGIN_KEYWORD n.thread = none
      cases hl : n.accepted.lookupInThread BEGIN_KEYWORD n.thread with
      | none => rfl
      | some a => exact absurd (sn.checked _ a (sn.stored _ a hl)).1 (hg a)
    have henv : n.accepted.toStore.envelopeInThread BEGIN_KEYWORD n.thread = none := by
      show n.accepted.envelopeInThread BEGIN_KEYWORD n.thread = none
      simp [ThreadedMessageStore.envelopeInThread, hn.1]
    have hopen : n.accepted.toStore.openedInThread BEGIN_KEYWORD n.thread = none := by
      show n.accepted.openedInThread BEGIN_KEYWORD n.thread = none
      simp [ThreadedMessageStore.openedInThread, hn.2]
    rw [predecessorType, hlook, henv, hopen]
    rfl
  have hbegin : predecessorType m.accepted.toStore BEGIN_KEYWORD m.thread
      = predecessorType m'.accepted.toStore BEGIN_KEYWORD m.thread := by
    have h' := hnobegin safe' hshelf' (by rw [hgate']; exact hgate)
    rw [hthread] at h'
    rw [hnobegin safe hshelf hgate, h']
  have hlocal := verifyCausalForRole_local hsame message m.endpoint m.dialect m.cast m.root hwrap
    (fun k hk => hcommon k (hcited k hk).1 (hcited k hk).2) hbegin
  unfold AdmissionMonitor.verify
  rw [hctx]
  exact hlocal

/-- A message whose citations are all accepted has a decided verdict. -/
theorem verify_decided {m : AdmissionMonitor} (safe : Safe m) {message : Message}
    (hwrap : message.wrapperType ≠ some .withRoles)
    (hcited : ∀ k ∈ cited message, m.accepted.contains k m.thread = true) :
    m.verify message ≠ .unknown := by
  have hgrow : Grows m.accepted.toStore m.accepted.toStore m.thread fun k =>
      ∃ a, m.accepted.lookupInThread k m.thread = some a := by
    refine ⟨fun _ _ _ h => h, fun _ _ _ h => h, fun _ _ _ h => h, ?_, rfl⟩
    rintro k ⟨a, ha⟩ verb cause hmeta c hc
    rw [metadata_accepted ha hmeta] at hc
    exact Option.isSome_iff_exists.mp
      (ThreadedMessageStore.contains_iff.mp (Safe.cited_accepted safe ha c hc))
  have hcomplete : Complete m.accepted.toStore m.thread fun k =>
      ∃ a, m.accepted.lookupInThread k m.thread = some a := by
    rintro k ⟨a, ha⟩
    obtain ⟨simple, hs⟩ := Safe.simple safe (safe.stored k a ha)
    exact ⟨a, simple, ha, hs⟩
  exact verifyCausalForRole_decided hgrow hcomplete message m.endpoint m.dialect m.cast m.root
    hwrap fun k hk => Option.isSome_iff_exists.mp (ThreadedMessageStore.contains_iff.mp (hcited k hk))

/-- Only the root carries a cast. -/
theorem Safe.not_cast {m : AdmissionMonitor} (safe : Safe m) {h : ContentHash}
    {message : Message} (hm : m.receivedMessage h = some message) (hroot : h ≠ m.root) :
    message.wrapperType ≠ some .withRoles := by
  obtain ⟨-, signer, -, -, hscan, -⟩ := checkMessage_ok (safe.checked h message hm).2
  intro hwrap
  cases message with
  | wrapped w params content =>
      injection hwrap with hw
      subst hw
      unfold scanWrappers at hscan
      rw [if_pos ⟨rfl, fun hc => hroot (of_decide_eq_true hc.1)⟩] at hscan
      exact nomatch hscan
  | simple => exact nomatch hwrap
  | metaDef => exact nomatch hwrap
  | dialect => exact nomatch hwrap

-- ── Decided candidates stay justified ────

/-- The verdict behind a recorded state. -/
def AdmissionState.verdict : AdmissionState → VerificationResult
  | .pending => .unknown
  | .accepted => .valid
  | .rejected v => .violation v

theorem AdmissionState.verdict_injective : Function.Injective AdmissionState.verdict := by
  intro a b h
  cases a <;> cases b <;> simp_all [AdmissionState.verdict]

/-- A visit that decides has resolved the candidate and follows its verdict. -/
theorem visit_decided {m : AdmissionMonitor} {hash : ContentHash} {message : Message}
    (h : m.visit hash message ≠ .pending) :
    m.resolved hash message = true ∧
      m.verify message = AdmissionState.verdict (m.visit hash message) := by
  unfold AdmissionMonitor.visit at h ⊢
  cases hr : m.resolved hash message with
  | false => rw [hr] at h; exact absurd rfl h
  | true =>
      rw [hr] at h
      refine ⟨rfl, ?_⟩
      cases hv : m.verify message with
      | valid => rfl
      | unknown => rw [hv] at h; exact absurd rfl h
      | violation e => rfl

/-- A candidate other than the root is resolved exactly when the root and everything it cites
    are accepted. -/
theorem Safe.resolved_iff {m : AdmissionMonitor} (safe : Safe m) {h : ContentHash}
    {message : Message} (hm : m.receivedMessage h = some message) (hroot : h ≠ m.root) :
    m.resolved h message = true ↔ m.state m.root = some .accepted ∧
      ∀ k ∈ cited message, m.state k = some .accepted := by
  constructor
  · intro hres
    rcases resolved_cases hres with heq | ⟨-, hacc, hcited⟩
    · exact absurd heq hroot
    · exact ⟨(safe.accepted_iff _).mp hacc, fun k hk => (safe.accepted_iff k).mp (hcited k hk)⟩
  · rintro ⟨hacc, hcited⟩
    obtain ⟨simple, signer, hs, -, -, -, hstep⟩ := checkMessage_ok (safe.checked h message hm).2
    have hnames : AdmissionContext.namesPredecessors simple.causedBy = true := by
      have hok := hstep hroot
      unfold AdmissionContext.checkStep at hok
      by_contra hne
      rw [if_pos (by simpa using hne)] at hok
      exact nomatch hok
    have hcited' : ∀ k ∈ citedHashes simple.causedBy, m.accepted.contains k m.thread = true := by
      intro k hk
      refine (safe.accepted_iff k).mpr (hcited k ?_)
      unfold cited
      rw [hs]
      exact hk
    unfold AdmissionMonitor.resolved
    rw [if_neg hroot, (safe.accepted_iff _).mpr hacc, hs, Option.bind_some]
    rcases hcause : simple.causedBy with _ | (_ | k | ks)
    · rw [hcause] at hnames
      exact nomatch hnames
    · rw [hcause] at hnames
      exact nomatch hnames
    · rw [hcause] at hcited'
      exact hcited' k (List.mem_singleton_self k)
    · rw [hcause] at hcited'
      exact List.all_eq_true.mpr hcited'

/-- The root opens the history; every other decided candidate is resolved by the current
    history, and its verdict over that history is the recorded one. -/
structure Judged (rootMessage : Message) (m : AdmissionMonitor) : Prop where
  root_message : m.receivedMessage m.root = some rootMessage
  root_valid : verifyCausalForRole rootMessage m.endpoint m.dialect m.cast
    ThreadedMessageStore.new.toStore m.thread m.root = .valid
  root_state : m.state m.root = some .accepted ∨
    (m.state m.root = some .pending ∧ m.accepted = ThreadedMessageStore.new)
  decided : ∀ h message st, h ≠ m.root → m.receivedMessage h = some message →
    m.state h = some st → st ≠ .pending →
      m.resolved h message = true ∧ m.verify message = AdmissionState.verdict st

/-- While the root is open, visiting it accepts it. -/
theorem Judged.visit_root {rootMessage : Message} {m : AdmissionMonitor}
    (judged : Judged rootMessage m) (hacc : m.accepted = ThreadedMessageStore.new) :
    m.visit m.root rootMessage = .accepted := by
  have hverify : m.verify rootMessage = .valid := by
    unfold AdmissionMonitor.verify
    rw [hacc]
    exact judged.root_valid
  have hres : m.resolved m.root rootMessage = true := by
    unfold AdmissionMonitor.resolved
    rw [if_pos rfl]
  unfold AdmissionMonitor.visit
  rw [hres, hverify]
  rfl

/-- A candidate a change decides was decided before, or is the one just visited. -/
theorem Change.decided_cases {m m' : AdmissionMonitor} (h : Change m m') {hash : ContentHash}
    {st : AdmissionState} (hst : m'.state hash = some st) (hne : st ≠ .pending) :
    m.state hash = some st ∨
      ∃ c, m.received[hash]? = some c ∧ m.visit hash c.message = st := by
  have hset : ∀ {hash' : ContentHash} {c : Candidate},
      ((m.received.insert hash' c)[hash]?).map (·.state) = some st →
        m.state hash = some st ∨ (hash = hash' ∧ c.state = st) := by
    intro hash' c hc
    rw [map_insert] at hc
    by_cases hh : hash = hash'
    · rw [if_pos hh] at hc
      exact Or.inr ⟨hh, Option.some.inj hc⟩
    · rw [if_neg hh] at hc
      exact Or.inl hc
  cases h with
  | enqueue hgate hnew hcheck =>
      rcases hset hst with hold | ⟨-, hst'⟩
      · exact Or.inl hold
      · exact absurd hst'.symm hne
  | requeue hqueue hc hvisit =>
      rcases hset hst with hold | ⟨-, hst'⟩
      · exact Or.inl hold
      · exact absurd hst'.symm hne
  | accept hqueue hc hvisit =>
      rcases hset hst with hold | ⟨rfl, hst'⟩
      · exact Or.inl hold
      · exact Or.inr ⟨_, hc, hvisit.trans hst'⟩
  | reject hqueue hc hvisit =>
      rcases hset hst with hold | ⟨rfl, hst'⟩
      · exact Or.inl hold
      · exact Or.inr ⟨_, hc, hvisit.trans hst'⟩

/-- One change keeps the root open or accepts it. -/
theorem Judged.root_change {rootMessage : Message} {m m' : AdmissionMonitor}
    (judged : Judged rootMessage m) (safe : Safe m) (h : Change m m') :
    m'.state m.root = some .accepted ∨
      (m'.state m.root = some .pending ∧ m'.accepted = ThreadedMessageStore.new) := by
  rcases judged.root_state with hacc | ⟨hpend, hnew⟩
  · exact Or.inl ((h.keeps safe).state _ _ hacc (by rintro ⟨⟩))
  · -- an open root: only its own visit can accept, and that visit cannot reject it
    have hcand : ∀ {c}, m.received[m.root]? = some c → c.message = rootMessage := by
      intro c hc
      have hmsg := judged.root_message
      rw [AdmissionMonitor.receivedMessage, hc] at hmsg
      exact Option.some.inj hmsg
    have hstate : ∀ {hash : ContentHash} (c : Candidate), m.root ≠ hash →
        ((m.received.insert hash c)[m.root]?).map (·.state) = some .pending := by
      intro hash c hne
      rw [map_insert, if_neg hne]
      exact hpend
    cases h with
    | @enqueue hash message hgate hfresh hcheck =>
        refine Or.inr ⟨hstate _ ?_, hnew⟩
        rintro rfl
        rw [AdmissionMonitor.state, hfresh] at hpend
        cases hpend
    | @requeue hash rest c hqueue hc hvisit =>
        refine Or.inr ⟨?_, hnew⟩
        show ((m.received.insert hash _)[m.root]?).map _ = _
        rw [map_insert]
        split
        · rfl
        · exact hpend
    | @accept hash rest c hqueue hc hvisit =>
        rcases resolved_cases (resolved_of_accepted hvisit).1 with hroot | ⟨-, hroot, -⟩
        · refine Or.inl ?_
          show ((m.received.insert hash _)[m.root]?).map _ = _
          rw [map_insert, if_pos hroot.symm]
        · rw [safe.accepted_iff, hpend] at hroot
          cases hroot
    | @reject hash rest c v hqueue hc hvisit =>
        refine Or.inr ⟨hstate _ ?_, hnew⟩
        rintro rfl
        rw [hcand hc, judged.visit_root hnew] at hvisit
        cases hvisit

/-- **Justification survives a change**: what is resolved stays resolved, with its verdict. -/
theorem Judged.change {rootMessage : Message} {m m' : AdmissionMonitor}
    (judged : Judged rootMessage m) (safe : Safe m) (hshelf : Shelfless m)
    (hgate : ∀ message, m.gate message ≠ .ok BEGIN_KEYWORD) (h : Change m m') :
    Judged rootMessage m' := by
  have hone : Changes m m' := Relation.ReflTransGen.single h
  have hctx := Changes.context hone
  have hroot' : m'.root = m.root := congrArg AdmissionContext.root hctx
  have safe' := h.safe safe
  have keeps := h.keeps safe
  have hmsg : ∀ k a b, m.receivedMessage k = some a → m'.receivedMessage k = some b → a = b := by
    intro k a b ha hb
    rw [keeps.message k a ha] at hb
    exact Option.some.inj hb
  -- a candidate resolved before the change is resolved after it, and judged alike
  have hmove : ∀ hash message, hash ≠ m.root → m.receivedMessage hash = some message →
      m.resolved hash message = true →
        m'.resolved hash message = true ∧ m'.verify message = m.verify message := by
    intro hash message hne hm hres
    obtain ⟨hrootacc, hcited⟩ := (Safe.resolved_iff safe hm hne).mp hres
    have hkept : ∀ k, m.state k = some .accepted → m'.state k = some .accepted :=
      fun k hk => keeps.state k _ hk (fun h => nomatch h)
    refine ⟨?_, ?_⟩
    · rw [Safe.resolved_iff safe' (keeps.message hash message hm) (by rw [hroot']; exact hne),
        hroot']
      exact ⟨hkept _ hrootacc, fun k hk => hkept k (hcited k hk)⟩
    · refine (verify_agree safe safe' hctx hshelf (Changes.shelfless hone hshelf) hgate hmsg
        (Safe.not_cast safe hm hne) fun k hk => ⟨(safe.accepted_iff k).mpr (hcited k hk), ?_⟩).symm
      have hk' := (safe'.accepted_iff k).mpr (hkept k (hcited k hk))
      rwa [show m'.thread = m.thread from congrArg AdmissionContext.thread hctx] at hk'
  refine ⟨?_, ?_, ?_, ?_⟩
  · rw [hroot']
    exact keeps.message _ _ judged.root_message
  · rw [hctx]
    exact judged.root_valid
  · rw [hroot']
    exact judged.root_change safe h
  · intro hash message st hne hm hst hnp
    rw [hroot'] at hne
    rcases Change.decided_cases h hst hnp with hold | ⟨c, hc, hvisit⟩
    · -- decided before: its message was received before as well
      obtain ⟨c, hc, -⟩ := Option.map_eq_some_iff.mp hold
      have hm₀ : m.receivedMessage hash = some c.message := by
        rw [AdmissionMonitor.receivedMessage, hc]; rfl
      have heq := hmsg hash c.message message hm₀ hm
      subst heq
      obtain ⟨hres, hver⟩ := judged.decided hash c.message st hne hm₀ hold hnp
      obtain ⟨hres', hver'⟩ := hmove hash c.message hne hm₀ hres
      exact ⟨hres', hver'.trans hver⟩
    · have hm₀ : m.receivedMessage hash = some c.message := by
        rw [AdmissionMonitor.receivedMessage, hc]; rfl
      have heq := hmsg hash c.message message hm₀ hm
      subst heq
      obtain ⟨hres, hver⟩ := visit_decided (by rw [hvisit]; exact hnp)
      obtain ⟨hres', hver'⟩ := hmove hash c.message hne hm₀ hres
      exact ⟨hres', by rw [hver', hver, hvisit]⟩

/-- Justification over any number of changes. -/
theorem Changes.judged {rootMessage : Message} {m m' : AdmissionMonitor} (h : Changes m m')
    (judged : Judged rootMessage m) (safe : Safe m) (hshelf : Shelfless m)
    (hgate : ∀ message, m.gate message ≠ .ok BEGIN_KEYWORD) : Judged rootMessage m' := by
  induction h with
  | refl => exact judged
  | @tail m1 m2 hpre hchange ih =>
      have hg : m1.gate = m.gate := congrArg AdmissionContext.gate (Changes.context hpre)
      exact ih.change (Changes.safe hpre safe) (Changes.shelfless hpre hshelf)
        (by rw [hg]; exact hgate) hchange

/-- A fresh monitor is justified. -/
theorem new_judged {dialectHash : Dialect → String} {dialect : Dialect} {endpoint : Endpoint}
    {rootMessage : Message} {gate : AdmissionGate} {m : AdmissionMonitor}
    (h : AdmissionMonitor.new dialectHash dialect endpoint rootMessage gate = .ok m) :
    Judged rootMessage m := by
  obtain ⟨hrec, -, hacc, -, -, -, -, -, -, -, hverify, -⟩ := new_spec h
  have hread : ∀ {α : Type} (f : Candidate → α) (k : ContentHash), (m.received[k]?).map f
      = if k = m.root then some (f ⟨rootMessage, .pending⟩) else none := by
    intro α f k
    rw [hrec, map_insert, Std.ExtTreeMap.getElem?_empty]
    rfl
  refine ⟨?_, ?_, Or.inr ⟨?_, hacc⟩, ?_⟩
  · rw [AdmissionMonitor.receivedMessage, hread, if_pos rfl]
  · unfold AdmissionMonitor.verify at hverify
    rw [hacc] at hverify
    exact hverify
  · rw [AdmissionMonitor.state, hread, if_pos rfl]
  · intro k message st hne _ hst _
    rw [AdmissionMonitor.state, hread, if_neg hne] at hst
    cases hst

-- ── A drained monitor is quiet ────

/-- No queued candidate can be decided. -/
def Quiet (m : AdmissionMonitor) : Prop :=
  ∀ h ∈ m.pending, ∀ message, m.receivedMessage h = some message → m.visit h message = .pending

/-- A visit depends on the context and the accepted history. -/
theorem visit_congr {m m' : AdmissionMonitor}
    (hctx : m'.toAdmissionContext = m.toAdmissionContext) (hacc : m'.accepted = m.accepted)
    (hash : ContentHash) (message : Message) : m'.visit hash message = m.visit hash message := by
  unfold AdmissionMonitor.visit AdmissionMonitor.resolved AdmissionMonitor.verify
  rw [hctx, hacc]

/-- Visits that decide nothing rotate the queue and leave history and messages alone. -/
theorem visits_idle (n : Nat) : ∀ m : AdmissionMonitor, Safe m → n ≤ m.pending.length →
    (AdmissionMonitor.visits n m).1 = [] →
      (AdmissionMonitor.visits n m).2.accepted = m.accepted ∧
      (∀ h, (AdmissionMonitor.visits n m).2.receivedMessage h = m.receivedMessage h) ∧
      (AdmissionMonitor.visits n m).2.pending = m.pending.drop n ++ m.pending.take n ∧
      ∀ h ∈ m.pending.take n, ∀ message, m.receivedMessage h = some message →
        m.visit h message = .pending := by
  induction n with
  | zero =>
      intro m _ _ _
      refine ⟨rfl, fun _ => rfl, by simp [AdmissionMonitor.visits], ?_⟩
      intro h hh
      exact nomatch hh
  | succ n ih =>
      intro m safe hlen hidle
      cases hqueue : m.pending with
      | nil => rw [hqueue] at hlen; exact absurd hlen (by simp)
      | cons hash rest =>
          obtain ⟨c, hc, hcst⟩ := Option.map_eq_some_iff.mp (safe.head_pending hqueue)
          change (m.step.1.toList.filter (·.state ≠ .pending)
            ++ (AdmissionMonitor.visits n m.step.2).1) = [] at hidle
          obtain ⟨hfirst, hlater⟩ := List.append_eq_nil_iff.mp hidle
          have hstep : m.step = (some ⟨hash, m.visit hash c.message⟩, m.step.2) := by
            unfold AdmissionMonitor.step
            rw [hqueue]
            dsimp only
            rw [hc]
          -- the first event is filtered away, so the head was requeued
          have hvisit : m.visit hash c.message = .pending := by
            rw [hstep] at hfirst
            by_contra hne
            simp [hne] at hfirst
          have hnext : m.step.2 = { m with
              received := m.received.insert hash ⟨c.message, .pending⟩
              pending := rest ++ [hash] } := by
            unfold AdmissionMonitor.step
            rw [hqueue]
            dsimp only
            rw [hc]
            dsimp only
            rw [hvisit]
            rfl
          have hmessages : ∀ h, m.step.2.receivedMessage h = m.receivedMessage h := by
            intro h
            rw [hnext]
            exact receivedMessage_insert hc .pending h
          have hvisits : ∀ h message, m.step.2.visit h message = m.visit h message :=
            fun h message => visit_congr (by rw [hnext]) (by rw [hnext]) h message
          have hpending : m.step.2.pending = rest ++ [hash] := by rw [hnext]
          have hn : n ≤ rest.length := by
            rw [hqueue, List.length_cons] at hlen
            omega
          obtain ⟨hacc, hmsgs, hpend, hquiet⟩ := ih m.step.2
            (Changes.safe (step_changes m) safe) (by rw [hpending, List.length_append]; omega) hlater
          rw [hpending] at hpend hquiet
          refine ⟨?_, fun h => (hmsgs h).trans (hmessages h), ?_, ?_⟩
          · exact hacc.trans (by rw [hnext])
          · show (AdmissionMonitor.visits n m.step.2).2.pending = _
            rw [hpend, List.drop_append_of_le_length hn, List.take_append_of_le_length hn,
              List.drop_succ_cons, List.take_succ_cons, List.append_assoc]
            rfl
          · intro h hh message hm
            rw [List.take_succ_cons, List.mem_cons] at hh
            rcases hh with rfl | hh
            · have hcm : c.message = message := by
                rw [AdmissionMonitor.receivedMessage, hc] at hm
                exact Option.some.inj hm
              rw [← hcm]
              exact hvisit
            · rw [← hvisits]
              refine hquiet h ?_ message ((hmessages h).trans hm)
              rw [List.take_append_of_le_length hn]
              exact hh

/-- Every reported event shortened the queue. -/
theorem visits_length (n : Nat) : ∀ m : AdmissionMonitor,
    (AdmissionMonitor.visits n m).2.pending.length + (AdmissionMonitor.visits n m).1.length
      ≤ m.pending.length := by
  induction n with
  | zero => intro m; exact Nat.le_refl _
  | succ n ih =>
      intro m
      have hone : m.step.2.pending.length
          + (m.step.1.toList.filter (·.state ≠ .pending)).length ≤ m.pending.length := by
        unfold AdmissionMonitor.step
        cases hqueue : m.pending with
        | nil => simp [hqueue]
        | cons hash rest =>
            dsimp only
            cases hc : m.received[hash]? with
            | none => simp [hqueue]
            | some c => by_cases hv : m.visit hash c.message = .pending <;> simp [hv]
      have hrest := ih m.step.2
      show (AdmissionMonitor.visits n m.step.2).2.pending.length
        + (m.step.1.toList.filter (·.state ≠ .pending)
            ++ (AdmissionMonitor.visits n m.step.2).1).length ≤ _
      rw [List.length_append]
      omega

/-- **Enough rounds drain the queue to a quiet monitor.** -/
theorem drainRounds_quiet (fuel : Nat) : ∀ m : AdmissionMonitor, Safe m →
    m.pending.length < fuel → Quiet (AdmissionMonitor.drainRounds fuel m).2 := by
  induction fuel with
  | zero => intro m _ hlt; exact absurd hlt (Nat.not_lt_zero _)
  | succ fuel ih =>
      intro m safe hlt
      rw [AdmissionMonitor.drainRounds]
      dsimp only
      by_cases hidle : (AdmissionMonitor.visits m.pending.length m).1 = []
      · rw [if_pos hidle]
        obtain ⟨hacc, hmsgs, hpend, hquiet⟩ := visits_idle _ m safe (Nat.le_refl _) hidle
        have hctx := Changes.context (visits_changes m.pending.length m)
        intro h hh message hm
        rw [hpend, List.drop_length, List.nil_append, List.take_length] at hh
        rw [List.take_length] at hquiet
        rw [visit_congr hctx hacc]
        exact hquiet h hh message ((hmsgs h).symm.trans hm)
      · rw [if_neg hidle]
        refine ih _ (Changes.safe (visits_changes _ m) safe) ?_
        have hlen := visits_length m.pending.length m
        have hpos := List.length_pos_of_ne_nil hidle
        omega

/-- Draining leaves a quiet monitor. -/
theorem drainReady_quiet {m : AdmissionMonitor} (safe : Safe m) : Quiet m.drainReady.2 :=
  drainRounds_quiet _ m safe (Nat.lt_succ_self _)

-- ── What a run receives ────

/-- Visits receive nothing. -/
theorem step_receivedMessage (m : AdmissionMonitor) (h : ContentHash) :
    m.step.2.receivedMessage h = m.receivedMessage h := by
  unfold AdmissionMonitor.step
  cases hqueue : m.pending with
  | nil => rfl
  | cons hash rest =>
      dsimp only
      cases hc : m.received[hash]? with
      | none => rfl
      | some c => exact receivedMessage_insert hc _ h

theorem visits_receivedMessage (n : Nat) : ∀ (m : AdmissionMonitor) (h : ContentHash),
    (AdmissionMonitor.visits n m).2.receivedMessage h = m.receivedMessage h := by
  induction n with
  | zero => intro m h; rfl
  | succ n ih => intro m h; exact (ih m.step.2 h).trans (step_receivedMessage m h)

theorem drainRounds_receivedMessage (fuel : Nat) : ∀ (m : AdmissionMonitor) (h : ContentHash),
    (AdmissionMonitor.drainRounds fuel m).2.receivedMessage h = m.receivedMessage h := by
  induction fuel with
  | zero => intro m h; rfl
  | succ fuel ih =>
      intro m h
      rw [AdmissionMonitor.drainRounds]
      dsimp only
      split
      · exact visits_receivedMessage _ m h
      · exact (ih _ h).trans (visits_receivedMessage _ m h)

/-- A receipt retains the first checked message of an address. -/
theorem receive_receivedMessage (m : AdmissionMonitor) (message : Message) (h : ContentHash) :
    (m.receive message).2.receivedMessage h =
      if m.gate message = .ok h ∧ m.receivedMessage h = none ∧ m.checkMessage h message = .ok ()
      then some message else m.receivedMessage h := by
  unfold AdmissionMonitor.receive
  cases hgate : m.gate message with
  | error reason => rw [if_neg (by rintro ⟨⟨⟩, _⟩)]
  | ok hash =>
      dsimp only
      cases hc : m.received[hash]? with
      | some existing =>
          have hold : ¬ ((Except.ok hash : Except String ContentHash) = .ok h ∧
              m.receivedMessage h = none ∧ m.checkMessage h message = .ok ()) := by
            rintro ⟨hh, hnone, -⟩
            injection hh with hh
            rw [← hh, AdmissionMonitor.receivedMessage, hc] at hnone
            cases hnone
          rw [if_neg hold]
          dsimp only
          split
          · rfl
          · rfl
      | none =>
          dsimp only
          cases hcheck : m.checkMessage hash message with
          | error e =>
              have hbad : ¬ ((Except.ok hash : Except String ContentHash) = .ok h ∧
                  m.receivedMessage h = none ∧ m.checkMessage h message = .ok ()) := by
                rintro ⟨hh, -, hok⟩
                injection hh with hh
                rw [← hh, hcheck] at hok
                cases hok
              rw [if_neg hbad]
          | ok u =>
              show ((m.received.insert hash _)[h]?).map _ = _
              rw [map_insert]
              by_cases hh : h = hash
              · subst hh
                have hnone : m.receivedMessage h = none := by
                  rw [AdmissionMonitor.receivedMessage, hc]
                  rfl
                rw [if_pos rfl, if_pos ⟨rfl, hnone, hcheck⟩]
              · rw [if_neg hh, if_neg fun hc' => hh (Except.ok.inj hc'.1).symm]
                rfl

/-- **What a run has received**: the root, and every checked message under its address. -/
theorem received_iff {dialectHash : Dialect → String} {dialect : Dialect} {endpoint : Endpoint}
    {rootMessage : Message} {gate : AdmissionGate} {m : AdmissionMonitor}
    (hnew : AdmissionMonitor.new dialectHash dialect endpoint rootMessage gate = .ok m)
    (calls : List Call) (hdistinct : ∀ a b hash, Call.receive a ∈ calls →
      Call.receive b ∈ calls → gate a = .ok hash → gate b = .ok hash → a = b)
    (h : ContentHash) (message : Message) :
    (run m calls).receivedMessage h = some message ↔
      if h = m.root then message = rootMessage
      else Call.receive message ∈ calls ∧ gate message = .ok h ∧
        m.checkMessage h message = .ok () := by
  obtain ⟨hrec, -, -, -, -, hgate, -⟩ := new_spec hnew
  induction calls using List.reverseRecOn generalizing message with
  | nil =>
      show (m.received[h]?).map _ = _ ↔ _
      rw [hrec, map_insert, Std.ExtTreeMap.getElem?_empty]
      by_cases hh : h = m.root
      · rw [if_pos hh, if_pos hh]
        exact ⟨fun he => (Option.some.inj he).symm, fun he => by rw [he]⟩
      · rw [if_neg hh, if_neg hh]
        exact iff_of_false (fun he => nomatch he) (fun hc => nomatch hc.1)
  | append_singleton past call ih =>
      have hrun : run m (past ++ [call]) = call.apply (run m past) := by
        unfold run
        rw [List.foldl_append]
        rfl
      have ihm := ih fun a b hash ha hb =>
        hdistinct a b hash (List.mem_append_left _ ha) (List.mem_append_left _ hb)
      have ih := ihm message
      have hctx := Changes.context (run_changes past m)
      rw [hrun]
      cases call with
      | step =>
          show (run m past).step.2.receivedMessage h = _ ↔ _
          rw [step_receivedMessage, ih]
          simp
      | drainReady =>
          show (run m past).drainReady.2.receivedMessage h = _ ↔ _
          unfold AdmissionMonitor.drainReady
          rw [drainRounds_receivedMessage, ih]
          simp
      | receive new =>
          show ((run m past).receive new).2.receivedMessage h = _ ↔ _
          rw [receive_receivedMessage, hctx, hgate]
          by_cases hh : h = m.root
          · -- the root is there from the start
            rw [if_pos hh] at ih ⊢
            have hsome : (run m past).receivedMessage h ≠ none := by
              have hkept := (Changes.keeps (run_changes past m) (new_safe hnew)).message m.root
                rootMessage (new_judged hnew).root_message
              rw [hh, hkept]
              exact fun hc => nomatch hc
            rw [if_neg fun hc => hsome hc.2.1]
            exact ih
          · rw [if_neg hh] at ih ⊢
            by_cases hin : gate new = .ok h ∧ (run m past).receivedMessage h = none ∧
                m.checkMessage h new = .ok ()
            · rw [if_pos hin]
              constructor
              · intro he
                injection he with he
                subst he
                exact ⟨List.mem_append_right _ (List.mem_singleton_self _), hin.1, hin.2.2⟩
              · rintro ⟨hmem, hg, -⟩
                rw [hdistinct new message h
                  (List.mem_append_right _ (List.mem_singleton_self _)) hmem hin.1 hg]
            · rw [if_neg hin, ih]
              refine and_congr_left fun hok => ?_
              rw [List.mem_append, List.mem_singleton]
              refine ⟨Or.inl, fun hor => hor.elim id fun heq => ?_⟩
              injection heq with heq
              subst heq
              -- a checked message whose address is taken: taken by itself
              cases hold : (run m past).receivedMessage h with
              | none => exact absurd ⟨hok.1, hold, hok.2⟩ hin
              | some old =>
                  have holdp := (ihm old).mp hold
                  rw [if_neg hh] at holdp
                  rw [hdistinct message old h
                    (List.mem_append_right _ (List.mem_singleton_self _))
                    (List.mem_append_left _ holdp.1) hok.1 holdp.2.1]
                  exact holdp.1

-- ── Confluence ────

/-- A drained monitor: all invariants of a run, and nothing left to decide. -/
structure Settled (rootMessage : Message) (m : AdmissionMonitor) : Prop where
  safe : Safe m
  shelfless : Shelfless m
  judged : Judged rootMessage m
  quiet : Quiet m
  addresses : ∀ message, m.gate message ≠ .ok BEGIN_KEYWORD

theorem state_of_received {m : AdmissionMonitor} {h : ContentHash} {message : Message}
    (hm : m.receivedMessage h = some message) : ∃ st, m.state h = some st := by
  obtain ⟨c, hc, -⟩ := Option.map_eq_some_iff.mp hm
  exact ⟨c.state, by rw [AdmissionMonitor.state, hc]; rfl⟩

section Settled

variable {rootMessage : Message} {m m' : AdmissionMonitor}

/-- A settled monitor has accepted its root. -/
theorem Settled.root_accepted (h : Settled rootMessage m) : m.state m.root = some .accepted := by
  rcases h.judged.root_state with hacc | ⟨hpend, hnew⟩
  · exact hacc
  · have hquiet := h.quiet m.root ((h.safe.queue_iff _).mpr hpend) rootMessage h.judged.root_message
    rw [h.judged.visit_root hnew] at hquiet
    exact nomatch hquiet

/-- A settled monitor leaves a candidate pending exactly when it is not resolved. -/
theorem Settled.pending_iff (h : Settled rootMessage m) {hash : ContentHash} {message : Message}
    (hm : m.receivedMessage hash = some message) (hne : hash ≠ m.root) :
    m.state hash = some .pending ↔ ¬ m.resolved hash message = true := by
  constructor
  · intro hpend hres
    have hvisit := h.quiet hash ((h.safe.queue_iff hash).mpr hpend) message hm
    have hcited := ((Safe.resolved_iff h.safe hm hne).mp hres).2
    have hver := verify_decided h.safe (Safe.not_cast h.safe hm hne)
      fun k hk => (h.safe.accepted_iff k).mpr (hcited k hk)
    unfold AdmissionMonitor.visit at hvisit
    rw [hres] at hvisit
    cases hv : m.verify message with
    | valid => rw [hv] at hvisit; exact nomatch hvisit
    | unknown => exact hver hv
    | violation e => rw [hv] at hvisit; exact nomatch hvisit
  · intro hres
    obtain ⟨st, hst⟩ := state_of_received hm
    by_cases hp : st = .pending
    · rw [hst, hp]
    · exact absurd (h.judged.decided hash message st hne hm hst hp).1 hres

variable (hm : Settled rootMessage m) (hm' : Settled rootMessage m')
  (hctx : m'.toAdmissionContext = m.toAdmissionContext)
  (hmsg : ∀ h, m'.receivedMessage h = m.receivedMessage h)
include hm hm' hctx hmsg

/-- A candidate both monitors have resolved gets the same state in both. -/
theorem Settled.state_agree {hash : ContentHash} {message : Message}
    (hrec : m.receivedMessage hash = some message) (hne : hash ≠ m.root)
    (hres : m.resolved hash message = true) (hres' : m'.resolved hash message = true) :
    m'.state hash = m.state hash := by
  have hroot : m'.root = m.root := congrArg AdmissionContext.root hctx
  have hthread : m'.thread = m.thread := congrArg AdmissionContext.thread hctx
  have hrec' : m'.receivedMessage hash = some message := (hmsg hash).trans hrec
  have hne' : hash ≠ m'.root := by rw [hroot]; exact hne
  obtain ⟨st, hst⟩ := state_of_received hrec
  obtain ⟨st', hst'⟩ := state_of_received hrec'
  have hdec : st ≠ .pending := fun hp =>
    (hm.pending_iff hrec hne).mp (by rw [hst, hp]) hres
  have hdec' : st' ≠ .pending := fun hp =>
    (hm'.pending_iff hrec' hne').mp (by rw [hst', hp]) hres'
  have hcited := ((Safe.resolved_iff hm.safe hrec hne).mp hres).2
  have hcited' := ((Safe.resolved_iff hm'.safe hrec' hne').mp hres').2
  have hagree : m.verify message = m'.verify message := by
    refine verify_agree hm.safe hm'.safe hctx hm.shelfless hm'.shelfless hm.addresses ?_
      (Safe.not_cast hm.safe hrec hne) fun k hk => ⟨(hm.safe.accepted_iff k).mpr (hcited k hk), ?_⟩
    · intro k a b ha hb
      rw [hmsg k, ha] at hb
      exact Option.some.inj hb
    · have hk' := (hm'.safe.accepted_iff k).mpr (hcited' k hk)
      rwa [hthread] at hk'
  rw [(hm.judged.decided hash message st hne hrec hst hdec).2,
    (hm'.judged.decided hash message st' hne' hrec' hst' hdec').2] at hagree
  rw [hst, hst', AdmissionState.verdict_injective hagree]

/-- **Acceptance carries over**, along the accepted history. -/
theorem Settled.accepted_of_accepted (i : Nat) : ∀ hash message,
    (m.accepted.messages m.thread)[i]? = some (hash, message) →
      m'.state hash = some .accepted := by
  have hroot : m'.root = m.root := congrArg AdmissionContext.root hctx
  induction i using Nat.strong_induction_on with
  | _ i ih =>
      intro hash message hi
      by_cases hne : hash = m.root
      · rw [hne, ← hroot]
        exact hm'.root_accepted
      · have hstored : m.accepted.lookupInThread hash m.thread = some message :=
          ThreadedMessageStore.lookupInThread_iff.mpr (List.mem_of_getElem? hi)
        have hrec := hm.safe.stored hash message hstored
        have hacc : m.state hash = some .accepted :=
          (hm.safe.accepted_iff hash).mp
            (ThreadedMessageStore.contains_iff.mpr (by rw [hstored]; rfl))
        have hres := (hm.judged.decided hash message _ hne hrec hacc (fun h => nomatch h)).1
        have hres' : m'.resolved hash message = true := by
          rw [Safe.resolved_iff hm'.safe ((hmsg hash).trans hrec) (by rw [hroot]; exact hne)]
          refine ⟨hm'.root_accepted, fun k hk => ?_⟩
          -- the citation stands earlier in the history
          obtain ⟨j, message', hj, hget⟩ := hm.safe.history.precedes i hash message hi hne k hk
          exact ih j hj k message' hget
        rw [Settled.state_agree hm hm' hctx hmsg hrec hne hres hres', hacc]

end Settled

/-- The accepted candidates of one settled monitor are accepted in the other. -/
theorem Settled.accepted_mono {rootMessage : Message} {m m' : AdmissionMonitor}
    (hm : Settled rootMessage m) (hm' : Settled rootMessage m')
    (hctx : m'.toAdmissionContext = m.toAdmissionContext)
    (hmsg : ∀ h, m'.receivedMessage h = m.receivedMessage h) {h : ContentHash}
    (hacc : m.state h = some .accepted) : m'.state h = some .accepted := by
  have hcontains := (hm.safe.accepted_iff h).mpr hacc
  obtain ⟨message, hmem⟩ := Option.isSome_iff_exists.mp
    (ThreadedMessageStore.contains_iff.mp hcontains)
  obtain ⟨i, hi⟩ := List.mem_iff_getElem?.mp (ThreadedMessageStore.lookupInThread_iff.mp hmem)
  exact Settled.accepted_of_accepted hm hm' hctx hmsg i h message hi

/-- **Two settled monitors of the same messages agree on every hash.** -/
theorem Settled.agree {rootMessage : Message} {m m' : AdmissionMonitor}
    (hm : Settled rootMessage m) (hm' : Settled rootMessage m')
    (hctx : m'.toAdmissionContext = m.toAdmissionContext)
    (hmsg : ∀ h, m'.receivedMessage h = m.receivedMessage h) (h : ContentHash) :
    m'.state h = m.state h := by
  have hroot : m'.root = m.root := congrArg AdmissionContext.root hctx
  have hacc : ∀ k, m'.state k = some .accepted ↔ m.state k = some .accepted :=
    fun k => ⟨hm'.accepted_mono hm hctx.symm fun h => (hmsg h).symm, hm.accepted_mono hm' hctx hmsg⟩
  cases hrec : m.receivedMessage h with
  | none =>
      have hnone : m.received[h]? = none := Option.map_eq_none_iff.mp hrec
      have hnone' : m'.received[h]? = none := Option.map_eq_none_iff.mp ((hmsg h).trans hrec)
      rw [AdmissionMonitor.state, AdmissionMonitor.state, hnone, hnone']
  | some message =>
      have hrec' := (hmsg h).trans hrec
      by_cases hne : h = m.root
      · rw [hne, hm.root_accepted, ← hroot, hm'.root_accepted]
      · have hne' : h ≠ m'.root := by rw [hroot]; exact hne
        have hres_iff : m'.resolved h message = true ↔ m.resolved h message = true := by
          rw [Safe.resolved_iff hm'.safe hrec' hne', Safe.resolved_iff hm.safe hrec hne, hroot]
          simp only [hacc]
        by_cases hres : m.resolved h message = true
        · exact Settled.state_agree hm hm' hctx hmsg hrec hne hres (hres_iff.mpr hres)
        · rw [(hm.pending_iff hrec hne).mpr hres,
            (hm'.pending_iff hrec' hne').mpr fun hc => hres (hres_iff.mp hc)]

/-- In a settled monitor a candidate is pending exactly when its ancestry is incomplete. -/
theorem Settled.pending_cited {rootMessage : Message} {m : AdmissionMonitor}
    (hm : Settled rootMessage m) {h : ContentHash} {message : Message}
    (hrec : m.receivedMessage h = some message) :
    m.state h = some .pending ↔ m.state m.root ≠ some .accepted ∨
      ∃ k ∈ cited message, m.state k ≠ some .accepted := by
  by_cases hne : h = m.root
  · subst hne
    rw [hm.root_accepted, hm.safe.cited_root hrec]
    refine iff_of_false (fun hc => nomatch hc) ?_
    rintro (hc | ⟨k, hk, -⟩)
    · exact hc rfl
    · exact nomatch hk
  · rw [hm.pending_iff hrec hne, Safe.resolved_iff hm.safe hrec hne, not_and_or]
    simp only [not_forall, exists_prop]

/-- A drained run is settled. -/
theorem run_settled {dialectHash : Dialect → String} {dialect : Dialect} {endpoint : Endpoint}
    {rootMessage : Message} {gate : AdmissionGate} {m : AdmissionMonitor}
    (hnew : AdmissionMonitor.new dialectHash dialect endpoint rootMessage gate = .ok m)
    (haddress : ∀ message, gate message ≠ .ok BEGIN_KEYWORD) (calls : List Call) :
    Settled rootMessage (run m (calls ++ [.drainReady])) := by
  obtain ⟨-, -, hacc, -, -, hgate, -⟩ := new_spec hnew
  have hchanges := run_changes (calls ++ [.drainReady]) m
  have hshelf : Shelfless m := by
    unfold Shelfless
    rw [hacc]
    exact ⟨rfl, rfl⟩
  have haddress' : ∀ message, m.gate message ≠ .ok BEGIN_KEYWORD := by
    rw [hgate]
    exact haddress
  refine ⟨Changes.safe hchanges (new_safe hnew), Changes.shelfless hchanges hshelf,
    Changes.judged hchanges (new_judged hnew) (new_safe hnew) hshelf haddress', ?_, ?_⟩
  · have hlast : run m (calls ++ [.drainReady]) = (run m calls).drainReady.2 := by
      unfold run
      rw [List.foldl_append]
      rfl
    rw [hlast]
    exact drainReady_quiet (run_safe hnew calls)
  · rw [show (run m (calls ++ [.drainReady])).gate = m.gate from
      congrArg AdmissionContext.gate (Changes.context hchanges)]
    exact haddress'

/-- **Admission confluence.**  `haddress` is the gate's contract: it returns content addresses,
    which are never the reserved word. -/
theorem admission_confluent {dialectHash : Dialect → String} {dialect : Dialect}
    {endpoint : Endpoint} {rootMessage : Message} {gate : AdmissionGate}
    {m₁ m₂ : AdmissionMonitor}
    (hnew₁ : AdmissionMonitor.new dialectHash dialect endpoint rootMessage gate = .ok m₁)
    (hnew₂ : AdmissionMonitor.new dialectHash dialect endpoint rootMessage gate = .ok m₂)
    (haddress : ∀ message, gate message ≠ .ok BEGIN_KEYWORD)
    (M : List Message) (hdistinct : ∀ a ∈ M, ∀ b ∈ M, ∀ hash, gate a = .ok hash →
      gate b = .ok hash → a = b)
    (calls₁ calls₂ : List Call) (hcalls₁ : ∀ message, Call.receive message ∈ calls₁ ↔ message ∈ M)
    (hcalls₂ : ∀ message, Call.receive message ∈ calls₂ ↔ message ∈ M) :
    let f₁ := run m₁ (calls₁ ++ [.drainReady])
    let f₂ := run m₂ (calls₂ ++ [.drainReady])
    (∀ h, f₁.state h = f₂.state h) ∧
    (∀ h message, f₁.receivedMessage h = some message →
      (f₁.state h = some .pending ↔ f₁.state f₁.root ≠ some .accepted ∨
        ∃ k ∈ cited message, f₁.state k ≠ some .accepted)) ∧
    (∀ h message, f₂.receivedMessage h = some message →
      (f₂.state h = some .pending ↔ f₂.state f₂.root ≠ some .accepted ∨
        ∃ k ∈ cited message, f₂.state k ≠ some .accepted)) := by
  intro f₁ f₂
  have hsame : m₂ = m₁ := Except.ok.inj (hnew₂.symm.trans hnew₁)
  subst hsame
  have settled₁ : Settled rootMessage f₁ := run_settled hnew₁ haddress calls₁
  have settled₂ : Settled rootMessage f₂ := run_settled hnew₁ haddress calls₂
  have hctx : f₂.toAdmissionContext = f₁.toAdmissionContext :=
    (Changes.context (run_changes _ m₂)).trans (Changes.context (run_changes _ m₂)).symm
  -- both runs have received the members of `M`
  have hreceived : ∀ calls : List Call, (∀ message, Call.receive message ∈ calls ↔ message ∈ M) →
      ∀ h message, (run m₂ (calls ++ [.drainReady])).receivedMessage h = some message ↔
        if h = m₂.root then message = rootMessage
        else message ∈ M ∧ gate message = .ok h ∧ m₂.checkMessage h message = .ok () := by
    intro calls hcalls h message
    have hmem : ∀ a, Call.receive a ∈ calls ++ [.drainReady] ↔ a ∈ M := by
      intro a
      rw [List.mem_append, hcalls]
      simp
    rw [received_iff hnew₁ _ fun a b hash ha hb =>
      hdistinct a ((hmem a).mp ha) b ((hmem b).mp hb) hash, hmem]
  have hmsg : ∀ h, f₂.receivedMessage h = f₁.receivedMessage h := by
    intro h
    refine Option.ext fun message => ?_
    rw [hreceived calls₂ hcalls₂ h message, hreceived calls₁ hcalls₁ h message]
  exact ⟨fun h => (settled₁.agree settled₂ hctx hmsg h).symm,
    fun h message hrec => settled₁.pending_cited hrec,
    fun h message hrec => settled₂.pending_cited hrec⟩

/-- Two ticks delivered in either order end in the same states. -/
theorem admission_confluent_ticks :
    ∃ m₀, AdmissionMonitor.new (fun _ => tickPin) pinnedTicks ⟨"clock", none⟩ tickRoot tickGate
        = .ok m₀ ∧
      ∀ h, (run m₀ ([.receive (tick (.single "r")), .receive (tick (.single "h1"))]
          ++ [.drainReady])).state h
        = (run m₀ ([.receive (tick (.single "h1")), .step, .receive (tick (.single "r"))]
          ++ [.drainReady])).state h := by
  have haddress : ∀ message, tickGate message ≠ .ok BEGIN_KEYWORD := by
    intro message
    unfold tickGate
    split
    · decide
    · split
      · decide
      · split
        · decide
        · exact fun h => nomatch h
  cases hnew : AdmissionMonitor.new (fun _ => tickPin) pinnedTicks ⟨"clock", none⟩ tickRoot
      tickGate with
  | error e =>
      have hok : (AdmissionMonitor.new (fun _ => tickPin) pinnedTicks ⟨"clock", none⟩ tickRoot
          tickGate).isOk = true := by decide
      rw [hnew] at hok
      exact nomatch hok
  | ok m₀ =>
      refine ⟨m₀, rfl, (admission_confluent hnew hnew haddress
        [tick (.single "r"), tick (.single "h1")] ?_ _ _ ?_ ?_).1⟩
      · intro a ha b hb hash hga hgb
        simp only [List.mem_cons, List.not_mem_nil, or_false] at ha hb
        have hr : tickGate (tick (.single "r")) = .ok "h1" := by decide
        have hh : tickGate (tick (.single "h1")) = .ok "h2" := by decide
        rcases ha with rfl | rfl <;> rcases hb with rfl | rfl
        · rfl
        · rw [hr] at hga
          rw [hh] at hgb
          exact absurd (hga.trans hgb.symm) (by decide)
        · rw [hh] at hga
          rw [hr] at hgb
          exact absurd (hga.trans hgb.symm) (by decide)
        · rfl
      · intro message
        simp
      · intro message
        simp [or_comm]

end CbclAdmissionConfluence
