import Cbcl.StoreExtensionProofs
import Cbcl.ThreadedStoreModel
import Cbcl.TreeMapProofs
import Cbcl.TypedAddrProofs

/-!
# The three shelves of a store

A threaded store keeps, for one content hash, at most one full message, one redacted envelope
and one opened envelope, each the first that came.  They are authenticated in three ways: the
address of a message is computed from its fields, an opened field is checked against the
address, but the header of a redacted envelope merely names an address, and its signature says
who named it.

    Accepts.shelved_iff         : what one accepted call does to the shelves
    Run.shelved, Run.filed      : what stands on the shelves after a run of calls

So the shelves of a hash agree as long as every header is the header of the message it names
(`shelves_agree`), and one signed header that is not makes them disagree
(`shelves_disagree_header`).
-/

namespace CbclShelves

open CbclMessage CbclProtocol CbclCanonical CbclRecogniser CbclTypedAddr CbclEnvelope CbclStore
open CbclStoreExtension CbclThreadedStore

-- ── Evidence and its shelf ────

/-- The shelves. -/
inductive Shelf where
  | messages
  | envelopes
  | opened

/-- The shelf a piece of evidence goes to. -/
def shelf : Evidence → Shelf
  | .full _ => .messages
  | .redacted _ => .envelopes
  | .opened _ => .opened

/-- The hash a piece of evidence is filed under. -/
def address (sha256 : Octets → Digest) : Evidence → ContentHash
  | .full m => typedRoot sha256 m
  | .redacted e => e.header.content_hash
  | .opened o => o.root

/-- The thread a piece of evidence names. -/
def threadOf : Evidence → Option ThreadId
  | .full m => m.thread
  | .redacted e => some e.header.thread
  | .opened o => openedThread o

/-- Evidence stored under a hash. -/
def Shelved (s : ThreadedMessageStore) (h : ContentHash) : Evidence → Prop
  | .full m => ∃ t, s.lookupInThread h t = some m
  | .redacted e => s.envelopes[h]? = some e
  | .opened o => s.opened[h]? = some o

/-- A call that returns `Ok`: a simple message appended under its own address in its own thread,
    a redacted envelope, or an opened one. -/
inductive Accepts (sha256 : Octets → Digest) (s : ThreadedMessageStore) :
    Evidence → ThreadedMessageStore → Prop
  | message (m : Message) (t : ThreadId) (hsimple : isSimple m = true)
      (hthread : m.thread = some t) :
      Accepts sha256 s (.full m) (s.append (typedRoot sha256 m) t m).2
  | envelope (e : RedactedEnvelope) (signer : Signer) (new : Bool) (s' : ThreadedMessageStore)
      (hok : s.appendEnvelope e signer = .ok (new, s')) : Accepts sha256 s (.redacted e) s'
  | opened (o : OpenedEnvelope) (signer : Signer) (new : Bool) (s' : ThreadedMessageStore)
      (hok : s.appendOpened sha256 o signer = .ok (new, s')) : Accepts sha256 s (.opened o) s'

/-- A run of accepted calls from the empty store, and the store it reaches. -/
inductive Run (sha256 : Octets → Digest) : List Evidence → ThreadedMessageStore → Prop
  | nil : Run sha256 [] ThreadedMessageStore.new
  | snoc (evs : List Evidence) (a : Evidence) (s s' : ThreadedMessageStore)
      (run : Run sha256 evs s) (step : Accepts sha256 s a s') : Run sha256 (evs ++ [a]) s'

section Hashing

variable {sha256 : Octets → Digest} {s s' : ThreadedMessageStore} {a : Evidence}

-- ── One call ────

/-- An accepted redacted envelope goes to a free place of its shelf, or nothing happens. -/
theorem appendEnvelope_ok {e : RedactedEnvelope} {signer : Signer} {new : Bool}
    (h : s.appendEnvelope e signer = .ok (new, s')) :
    (e.header.content_hash ∈ s.envelopes ∧ s' = s) ∨
      (e.header.content_hash ∉ s.envelopes ∧
        s' = { s with envelopes := s.envelopes.insert e.header.content_hash e }) := by
  unfold ThreadedMessageStore.appendEnvelope at h
  split at h
  · cases h
  · split at h
    · rename_i hmem
      simp only [Except.ok.injEq, Prod.mk.injEq] at h
      exact Or.inl ⟨hmem, h.2.symm⟩
    · rename_i hmem
      simp only [Except.ok.injEq, Prod.mk.injEq] at h
      exact Or.inr ⟨hmem, h.2.symm⟩

/-- Every opening of a verified envelope verifies against its root. -/
theorem verifyOpened_ok {o : OpenedEnvelope} {signer : Signer}
    (h : verifyOpened sha256 o signer = .ok ()) :
    ∀ op ∈ o.openings, verifyOpening sha256 o.root op.field op.value op = true := by
  unfold verifyOpened at h
  split at h
  · exact nomatch h
  · split at h
    · exact nomatch h
    · rename_i hnone
      intro op hop
      have hall := List.find?_eq_none.mp hnone op hop
      simpa using hall

/-- An accepted opened envelope is verified and names its thread; it goes to a free place of its
    shelf, or nothing happens. -/
theorem appendOpened_ok {o : OpenedEnvelope} {signer : Signer} {new : Bool}
    (h : s.appendOpened sha256 o signer = .ok (new, s')) :
    verifyOpened sha256 o signer = .ok () ∧ (openedThread o).isSome = true ∧
      ((o.root ∈ s.opened ∧ s' = s) ∨
        (o.root ∉ s.opened ∧ s' = { s with opened := s.opened.insert o.root o })) := by
  unfold ThreadedMessageStore.appendOpened at h
  split at h
  · cases h
  · rename_i hverify
    split at h
    · cases h
    · rename_i hthread
      refine ⟨hverify, by simpa [Option.isSome_iff_ne_none] using hthread, ?_⟩
      split at h
      · rename_i hmem
        simp only [Except.ok.injEq, Prod.mk.injEq] at h
        exact Or.inl ⟨hmem, h.2.symm⟩
      · rename_i hmem
        simp only [Except.ok.injEq, Prod.mk.injEq] at h
        exact Or.inr ⟨hmem, h.2.symm⟩

/-- What the store has checked of the evidence it accepts. -/
def Checked (sha256 : Octets → Digest) : Evidence → Prop
  | .full m => isSimple m = true ∧ m.thread.isSome = true
  | .redacted _ => True
  | .opened o => (∀ op ∈ o.openings, verifyOpening sha256 o.root op.field op.value op = true) ∧
      (openedThread o).isSome = true

theorem Accepts.checked (h : Accepts sha256 s a s') : Checked sha256 a := by
  cases h with
  | message m t hsimple hthread => exact ⟨hsimple, by rw [hthread]; rfl⟩
  | envelope => trivial
  | opened o signer new s' hok =>
      obtain ⟨hverify, hthread, -⟩ := appendOpened_ok hok
      exact ⟨verifyOpened_ok hverify, hthread⟩

/-- A hash in the index is the hash of a full message. -/
theorem mem_index_iff {h : ContentHash} : h ∈ s.index ↔ ∃ m, Shelved s h (.full m) := by
  constructor
  · intro hmem
    obtain ⟨⟨t, i⟩, hi⟩ := Option.isSome_iff_exists.mp
      (Std.ExtTreeMap.mem_iff_isSome_getElem?.mp hmem)
    obtain ⟨m, hm⟩ := s.placed h t i hi
    exact ⟨m, t, ThreadedMessageStore.lookupInThread_iff.mpr (List.mem_of_getElem? hm)⟩
  · rintro ⟨m, t, hm⟩
    exact ThreadedMessageStore.mem_index_of_lookup hm

/-- The entries of a map after an insertion at a free key. -/
theorem insert_eq_some_iff {ν : Type} {m : BTreeMap ContentHash ν} {h k : ContentHash} {v w : ν}
    (hfree : h ∉ m) :
    (m.insert h v)[k]? = some w ↔ m[k]? = some w ∨ (w = v ∧ k = h) := by
  rw [CbclTreeMap.getElem?_insert_eq]
  by_cases hk : k = h
  · subst hk
    rw [if_pos rfl, Std.ExtTreeMap.getElem?_eq_none hfree]
    simp [eq_comm]
  · rw [if_neg hk]
    simp [hk]

/-- A key is taken exactly when there is an entry. -/
theorem mem_iff_entry {ν : Type} {m : BTreeMap ContentHash ν} {h : ContentHash} :
    h ∈ m ↔ ∃ w, m[h]? = some w := by
  rw [Std.ExtTreeMap.mem_iff_isSome_getElem?, Option.isSome_iff_exists]

/-- A shelf is free at a hash when its map has no such key. -/
theorem free_iff {h : ContentHash} :
    ((∀ c, shelf c = .messages → ¬ Shelved s h c) ↔ h ∉ s.index) ∧
    ((∀ c, shelf c = .envelopes → ¬ Shelved s h c) ↔ h ∉ s.envelopes) ∧
    ((∀ c, shelf c = .opened → ¬ Shelved s h c) ↔ h ∉ s.opened) := by
  refine ⟨⟨fun hfree hmem => ?_, fun hfree c hc hold => ?_⟩,
    ⟨fun hfree hmem => ?_, fun hfree c hc hold => ?_⟩,
    ⟨fun hfree hmem => ?_, fun hfree c hc hold => ?_⟩⟩
  · obtain ⟨m, hm⟩ := mem_index_iff.mp hmem
    exact hfree (.full m) rfl hm
  · cases c with
    | full m => exact hfree (mem_index_iff.mpr ⟨m, hold⟩)
    | redacted e => exact nomatch hc
    | opened o => exact nomatch hc
  · obtain ⟨e, he⟩ := mem_iff_entry.mp hmem
    exact hfree (.redacted e) rfl he
  · cases c with
    | full m => exact nomatch hc
    | redacted e => exact hfree (mem_iff_entry.mpr ⟨e, hold⟩)
    | opened o => exact nomatch hc
  · obtain ⟨o, ho⟩ := mem_iff_entry.mp hmem
    exact hfree (.opened o) rfl ho
  · cases c with
    | full m => exact nomatch hc
    | redacted e => exact nomatch hc
    | opened o => exact hfree (mem_iff_entry.mpr ⟨o, hold⟩)

/-- A free place gains exactly the evidence offered. -/
theorem gain_iff {P : Prop} {b : Evidence} {h k : ContentHash}
    (hfree : ∀ c, shelf c = shelf a → ¬ Shelved s h c) :
    (P ∨ (b = a ∧ k = h)) ↔
      (P ∨ (b = a ∧ k = h ∧ ∀ c, shelf c = shelf a → ¬ Shelved s k c)) := by
  constructor
  · rintro (hp | ⟨hb, rfl⟩)
    · exact Or.inl hp
    · exact Or.inr ⟨hb, rfl, hfree⟩
  · rintro (hp | ⟨hb, hk, -⟩)
    · exact Or.inl hp
    · exact Or.inr ⟨hb, hk⟩

/-- **One call**: the shelves keep what they have, and gain the evidence if its place is free. -/
theorem Accepts.shelved_iff (h : Accepts sha256 s a s') (k : ContentHash) (b : Evidence) :
    Shelved s' k b ↔ Shelved s k b ∨ (b = a ∧ k = address sha256 a ∧
      ∀ c, shelf c = shelf a → ¬ Shelved s k c) := by
  -- a taken place: the call does nothing
  have htaken : ∀ c, shelf c = shelf a → Shelved s (address sha256 a) c →
      (Shelved s k b ↔ Shelved s k b ∨ (b = a ∧ k = address sha256 a ∧
        ∀ c, shelf c = shelf a → ¬ Shelved s k c)) := by
    intro c hc hold
    refine ⟨Or.inl, ?_⟩
    rintro (hb | ⟨-, rfl, hfree⟩)
    · exact hb
    · exact absurd hold (hfree c hc)
  cases h with
  | message m t hsimple hthread =>
      by_cases hmem : typedRoot sha256 m ∈ s.index
      · obtain ⟨m', hm'⟩ := mem_index_iff.mp hmem
        have hsame : (s.append (typedRoot sha256 m) t m).2 = s := by
          unfold ThreadedMessageStore.append
          rw [dif_pos hmem]
        rw [hsame]
        exact htaken (.full m') rfl hm'
      · obtain ⟨henv, hop⟩ := s.shelves_append (typedRoot sha256 m) t m
        cases b with
        | full m' =>
            refine Iff.trans ?_ (gain_iff (free_iff.1.mpr hmem))
            constructor
            · rintro ⟨t', ht'⟩
              rw [ThreadedMessageStore.lookupInThread_append hmem] at ht'
              split at ht'
              · rename_i hk
                split at ht'
                · injection ht' with ht'
                  exact Or.inr ⟨by rw [ht'], hk⟩
                · exact nomatch ht'
              · exact Or.inl ⟨t', ht'⟩
            · rintro (⟨t', ht'⟩ | ⟨hm', rfl⟩)
              · refine ⟨t', ?_⟩
                rw [ThreadedMessageStore.lookupInThread_append hmem, if_neg, ht']
                rintro rfl
                exact hmem (ThreadedMessageStore.mem_index_of_lookup ht')
              · injection hm' with hm'
                refine ⟨t, ?_⟩
                show ThreadedMessageStore.lookupInThread _ (typedRoot sha256 m) t = some m'
                rw [ThreadedMessageStore.lookupInThread_append hmem, if_pos rfl, if_pos rfl, hm']
        | redacted e =>
            unfold Shelved
            rw [henv]
            simp
        | opened o =>
            unfold Shelved
            rw [hop]
            simp
  | envelope e signer new s' hok =>
      obtain ⟨hmem, rfl⟩ | ⟨hfree, rfl⟩ := appendEnvelope_ok hok
      · obtain ⟨e', he'⟩ := mem_iff_entry.mp hmem
        exact htaken (.redacted e') rfl he'
      · cases b with
        | full m' => simp [Shelved]; rfl
        | redacted e' =>
            show (s.envelopes.insert _ e)[k]? = some e' ↔ _
            rw [insert_eq_some_iff hfree]
            refine Iff.trans ?_ (gain_iff (free_iff.2.1.mpr hfree))
            simp [Shelved, address]
        | opened o => simp [Shelved]
  | opened o signer new s' hok =>
      obtain ⟨-, -, ⟨hmem, rfl⟩ | ⟨hfree, rfl⟩⟩ := appendOpened_ok hok
      · obtain ⟨o', ho'⟩ := mem_iff_entry.mp hmem
        exact htaken (.opened o') rfl ho'
      · cases b with
        | full m' => simp [Shelved]; rfl
        | redacted e' => simp [Shelved]
        | opened o' =>
            show (s.opened.insert _ o)[k]? = some o' ↔ _
            rw [insert_eq_some_iff hfree]
            refine Iff.trans ?_ (gain_iff (free_iff.2.2.mpr hfree))
            simp [Shelved, address]

/-- Full messages stay in the thread they name. -/
theorem Accepts.threaded (h : Accepts sha256 s a s')
    (hs : ∀ k t m, s.lookupInThread k t = some m → m.thread = some t) :
    ∀ k t m, s'.lookupInThread k t = some m → m.thread = some t := by
  intro k t m hm
  cases h with
  | message m₀ t₀ hsimple hthread =>
      by_cases hmem : typedRoot sha256 m₀ ∈ s.index
      · unfold ThreadedMessageStore.append at hm
        rw [dif_pos hmem] at hm
        exact hs k t m hm
      · rw [ThreadedMessageStore.lookupInThread_append hmem] at hm
        split at hm
        · split at hm
          · rename_i ht
            injection hm with hm
            rw [← hm, ht, hthread]
          · exact nomatch hm
        · exact hs k t m hm
  | envelope e signer new s' hok =>
      obtain ⟨-, rfl⟩ | ⟨-, rfl⟩ := appendEnvelope_ok hok
      · exact hs k t m hm
      · exact hs k t m hm
  | opened o signer new s' hok =>
      obtain ⟨-, -, ⟨-, rfl⟩ | ⟨-, rfl⟩⟩ := appendOpened_ok hok
      · exact hs k t m hm
      · exact hs k t m hm

-- ── A run of calls ────

/-- What stands in a store is evidence some call offered, filed under the hash it names. -/
theorem Run.shelved {evs : List Evidence} (run : Run sha256 evs s) {k : ContentHash}
    (ha : Shelved s k a) : a ∈ evs ∧ k = address sha256 a := by
  induction run with
  | nil =>
      cases a with
      | full m =>
          obtain ⟨t, ht⟩ := ha
          simp [ThreadedMessageStore.new, ThreadedMessageStore.lookupInThread,
            ThreadedMessageStore.indexLookup] at ht
      | redacted e => simp [Shelved, ThreadedMessageStore.new] at ha
      | opened o => simp [Shelved, ThreadedMessageStore.new] at ha
  | snoc evs b s s' run step ih =>
      rcases (step.shelved_iff k a).mp ha with hold | ⟨rfl, hk, -⟩
      · exact ⟨List.mem_append_left _ (ih hold).1, (ih hold).2⟩
      · exact ⟨List.mem_append_right _ (List.mem_singleton.mpr rfl), hk⟩

/-- Whatever was offered, its shelf has evidence under its hash. -/
theorem Run.filed {evs : List Evidence} (run : Run sha256 evs s) (ha : a ∈ evs) :
    ∃ b, shelf b = shelf a ∧ Shelved s (address sha256 a) b := by
  induction run with
  | nil => exact nomatch ha
  | snoc evs c s s' run step ih =>
      rcases List.mem_append.mp ha with hold | hnew
      · obtain ⟨b, hb, hshelved⟩ := ih hold
        exact ⟨b, hb, (step.shelved_iff _ _).mpr (Or.inl hshelved)⟩
      · rw [List.mem_singleton.mp hnew]
        by_cases htaken : ∃ b, shelf b = shelf c ∧ Shelved s (address sha256 c) b
        · obtain ⟨b, hb, hshelved⟩ := htaken
          exact ⟨b, hb, (step.shelved_iff _ _).mpr (Or.inl hshelved)⟩
        · refine ⟨c, rfl, (step.shelved_iff _ _).mpr (Or.inr ⟨rfl, rfl, fun b hb hold => ?_⟩)⟩
          exact htaken ⟨b, hb, hold⟩

theorem Run.checked {evs : List Evidence} (run : Run sha256 evs s) (ha : a ∈ evs) :
    Checked sha256 a := by
  induction run with
  | nil => exact nomatch ha
  | snoc evs c s s' run step ih =>
      rcases List.mem_append.mp ha with hold | hnew
      · exact ih hold
      · rw [List.mem_singleton.mp hnew]
        exact step.checked

/-- Full messages stand in the thread they name. -/
theorem Run.threaded {evs : List Evidence} (run : Run sha256 evs s) :
    ∀ k t m, s.lookupInThread k t = some m → m.thread = some t := by
  induction run with
  | nil =>
      intro k t m hm
      simp [ThreadedMessageStore.new, ThreadedMessageStore.lookupInThread,
        ThreadedMessageStore.indexLookup] at hm
  | snoc evs c s s' run step ih => exact step.threaded ih

/-- The readers of a store find in a thread what stands under the hash and names the thread. -/
theorem Run.namedBy_iff {evs : List Evidence} (run : Run sha256 evs s) {k : ContentHash}
    {t : ThreadId} : Evidence.NamedBy s.toStore k t a ↔ Shelved s k a ∧ threadOf a = some t := by
  cases a with
  | full m =>
      constructor
      · intro hm
        exact ⟨⟨t, hm⟩, run.threaded k t m hm⟩
      · rintro ⟨⟨t', ht'⟩, ht⟩
        have hthread := run.threaded k t' m ht'
        rw [show m.thread = some t from ht] at hthread
        injection hthread with hthread
        rw [hthread]
        exact ht'
  | redacted e =>
      show (s.envelopes[k]?).filter _ = some e ↔ s.envelopes[k]? = some e ∧ some e.header.thread = _
      simp [Option.filter_eq_some_iff]
  | opened o =>
      show (s.opened[k]?).filter _ = some o ↔ s.opened[k]? = some o ∧ openedThread o = _
      simp [Option.filter_eq_some_iff]

-- ── Evidence about a message ────

/-- The causal reference of a message is read from its spelling as itself, or not at all. -/
def ReadsBack (m : Message) : Prop :=
  ∀ cb cb', m.causedBy = some cb → parseCausedRef (causedBySexpr cb) = some cb' → cb' = cb

/-- Evidence that says of a message what is so: the message, a header with its fields, or openings
    of its address that show the performative. -/
def Truthful (sha256 : Octets → Digest) (m : Message) : Evidence → Prop
  | .full m' => m' = m
  | .redacted e => e.header.content_hash = typedRoot sha256 m ∧
      e.header.performative = headName m ∧ some e.header.thread = m.thread ∧
      e.header.caused_by = m.causedBy
  | .opened o => o.root = typedRoot sha256 m ∧ (o.opening .performative).isSome = true

/-- The octet strings hashed for some messages and for the openings of some evidence. -/
def hashed (sha256 : Octets → Digest) (ms : List Message) (evs : List Evidence) : Set Octets :=
  {os | (∃ m ∈ ms, os ∈ hashedMessage sha256 m) ∨
    ∃ o, Evidence.opened o ∈ evs ∧ ∃ op ∈ o.openings,
      os ∈ hashedOpening sha256 op.field op.value op.path}

/-- What a piece of evidence discloses is so of a message. -/
structure Tells (m : Message) (a : Evidence) : Prop where
  performative : a.performative = some (some (headName m))
  thread : threadOf a = m.thread
  cause : ∀ c, a.cause = some c → c = m.causedBy

theorem fieldSexpr_thread {m : Message} :
    fieldSexpr m .thread = opt (m.thread.map fun t => .atom (.str t)) := by
  cases m <;> rfl

theorem fieldSexpr_causedBy {m : Message} :
    fieldSexpr m .causedBy = opt (m.causedBy.map causedBySexpr) := by
  cases m <;> rfl

/-- What an envelope opens of an address is the field of the message. -/
theorem opening_value {ms : List Message} {evs : List Evidence} {m : Message} {o : OpenedEnvelope}
    (hinj : Set.InjOn sha256 (hashed sha256 ms evs)) (hm : m ∈ ms) (ho : .opened o ∈ evs)
    (hroot : o.root = typedRoot sha256 m) (hchecked : Checked sha256 (.opened o))
    {f : FieldId} {op : Opening} (hop : o.opening f = some op) : op.value = fieldSexpr m f := by
  have hmem : op ∈ o.openings := List.mem_of_find?_eq_some hop
  have hfield : op.field = f := by simpa using List.find?_some hop
  have hverify := hchecked.1 op hmem
  rw [hroot, hfield] at hverify
  refine verifyOpening_binds (hinj.mono ?_) hverify
  rintro os (hos | hos)
  · exact Or.inl ⟨m, hm, hos⟩
  · refine Or.inr ⟨o, ho, op, hmem, ?_⟩
    rw [hfield]
    exact hos

/-- **Truthful evidence tells the message**, whatever the shelf. -/
theorem tells_of_truthful {ms : List Message} {evs : List Evidence} {m : Message}
    (hinj : Set.InjOn sha256 (hashed sha256 ms evs)) (hm : m ∈ ms) (hsimple : isSimple m = true)
    (hread : ReadsBack m) (ha : a ∈ evs) (hchecked : Checked sha256 a)
    (htrue : Truthful sha256 m a) : Tells m a := by
  cases a with
  | full m' =>
      subst htrue
      cases m' with
      | simple p r c ps t sd cb =>
          refine ⟨rfl, rfl, fun c hc => ?_⟩
          injection hc with hc
          exact hc.symm
      | metaDef => exact nomatch hsimple
      | dialect => exact nomatch hsimple
      | wrapped => exact nomatch hsimple
  | redacted e =>
      obtain ⟨-, hperf, hthread, hcause⟩ := htrue
      refine ⟨by rw [← hperf]; rfl, hthread, fun c hc => ?_⟩
      injection hc with hc
      rw [← hc, hcause]
  | opened o =>
      obtain ⟨hroot, hperf⟩ := htrue
      have hvalue : ∀ {f : FieldId} {op : Opening}, o.opening f = some op →
          op.value = fieldSexpr m f :=
        fun hop => opening_value hinj hm ha hroot hchecked hop
      refine ⟨?_, ?_, fun c hc => ?_⟩
      · obtain ⟨op, hop⟩ := Option.isSome_iff_exists.mp hperf
        have hv := hvalue hop
        rw [fieldSexpr_performative] at hv
        simp [Evidence.performative, OpenedEnvelope.performative, hop, hv]
      · obtain ⟨t, ht⟩ := Option.isSome_iff_exists.mp hchecked.2
        show openedThread o = m.thread
        cases hop : o.opening .thread with
        | none => simp [openedThread, hop] at ht
        | some op =>
            have hv := hvalue hop
            rw [fieldSexpr_thread] at hv
            cases hthread : m.thread with
            | none => simp [openedThread, hop, hv, hthread, opt] at ht
            | some t' => simp [openedThread, hop, hv, hthread, opt]
      · cases hop : o.opening .causedBy with
        | none => simp [Evidence.cause, OpenedEnvelope.causalReference, hop] at hc
        | some op =>
            have hv := hvalue hop
            rw [fieldSexpr_causedBy] at hv
            cases hcb : m.causedBy with
            | none =>
                simp [Evidence.cause, OpenedEnvelope.causalReference, hop, hv, hcb, opt] at hc
                exact hc.symm
            | some cb =>
                simp [Evidence.cause, OpenedEnvelope.causalReference, hop, hv, hcb, opt] at hc
                obtain ⟨cb', hcb', rfl⟩ := hc
                rw [hread cb cb' hcb hcb']

/-- References that read back are told apart by their spelling. -/
theorem causedBy_eq_of_spelling {m m' : Message} (h : ReadsBack m) (h' : ReadsBack m')
    (heq : m.causedBy.map causedBySexpr = m'.causedBy.map causedBySexpr) :
    m.causedBy = m'.causedBy := by
  cases hcb : m.causedBy with
  | none =>
      rw [hcb] at heq
      exact (Option.map_eq_none_iff.mp heq.symm).symm
  | some cb =>
      rw [hcb] at heq
      obtain ⟨cb', hcb', hspell⟩ := Option.map_eq_some_iff.mp heq.symm
      rw [hcb']
      -- `begin` is the one spelling of two references, and only one of them reads back
      have hbegin : ∀ {x : Message} {s : String}, ReadsBack x → x.causedBy = some (.single s) →
          s ≠ BEGIN_KEYWORD := by
        rintro x s hx hs rfl
        exact nomatch hx _ .begin hs rfl
      cases cb with
      | begin =>
          cases cb' with
          | begin => rfl
          | single s =>
              injection hspell with hspell
              injection hspell with hspell
              exact absurd hspell (hbegin h' hcb')
          | multiple hs => exact nomatch hspell
      | single s =>
          cases cb' with
          | begin =>
              injection hspell with hspell
              injection hspell with hspell
              exact absurd hspell.symm (hbegin h hcb)
          | single s' =>
              injection hspell with hspell
              injection hspell with hspell
              rw [hspell]
          | multiple hs => exact nomatch hspell
      | multiple hs =>
          cases cb' with
          | begin => exact nomatch hspell
          | single s => exact nomatch hspell
          | multiple hs' =>
              injection hspell with hspell
              rw [symbols_injective hspell]

/-- **Honest evidence**: all of it is about simple messages whose causal references read back, and
    says of them what is so. -/
structure Honest (sha256 : Octets → Digest) (ms : List Message) (evs : List Evidence) : Prop where
  simple : ∀ m ∈ ms, isSimple m = true
  readsBack : ∀ m ∈ ms, ReadsBack m
  truthful : ∀ a ∈ evs, ∃ m ∈ ms, Truthful sha256 m a

section Honesty

variable {ms : List Message} {evs : List Evidence}
  (hinj : Set.InjOn sha256 (hashed sha256 ms evs)) (honest : Honest sha256 ms evs)

include hinj honest

/-- Evidence tells of a message whose address it names. -/
theorem Honest.tells (ha : a ∈ evs) (hchecked : Checked sha256 a) :
    ∃ m ∈ ms, address sha256 a = typedRoot sha256 m ∧ Tells m a := by
  obtain ⟨m, hm, htrue⟩ := honest.truthful a ha
  refine ⟨m, hm, ?_, tells_of_truthful hinj hm (honest.simple m hm) (honest.readsBack m hm) ha
    hchecked htrue⟩
  cases a with
  | full m' => rw [show m' = m from htrue]; rfl
  | redacted e => exact htrue.1
  | opened o => exact htrue.1

/-- Messages of one address have the same disclosed fields. -/
theorem Honest.same {m m' : Message} (hm : m ∈ ms) (hm' : m' ∈ ms)
    (hroot : typedRoot sha256 m = typedRoot sha256 m') :
    headName m = headName m' ∧ m.thread = m'.thread ∧ m.causedBy = m'.causedBy := by
  have hfields := fields_of_root (hinj.mono (by
    rintro os (hos | hos)
    · exact Or.inl ⟨m, hm, hos⟩
    · exact Or.inl ⟨m', hm', hos⟩)) hroot
  refine ⟨?_, ?_, ?_⟩
  · have h := hfields .performative
    rw [fieldSexpr_performative, fieldSexpr_performative] at h
    injection h with h
    injection h
  · have h := hfields .thread
    rw [fieldSexpr_thread, fieldSexpr_thread] at h
    have h := opt_injective h
    cases ht : m.thread <;> cases ht' : m'.thread <;> simp_all
  · have h := hfields .causedBy
    rw [fieldSexpr_causedBy, fieldSexpr_causedBy] at h
    exact causedBy_eq_of_spelling (honest.readsBack m hm) (honest.readsBack m' hm')
      (opt_injective h)

/-- **Honest evidence under one hash agrees.** -/
theorem Honest.agree {b : Evidence} (ha : a ∈ evs) (hb : b ∈ evs) (hca : Checked sha256 a)
    (hcb : Checked sha256 b) (haddr : address sha256 a = address sha256 b) :
    Evidence.Agree a b ∧ a.performative = b.performative ∧ threadOf a = threadOf b := by
  obtain ⟨m, hm, hroot, htells⟩ := honest.tells hinj ha hca
  obtain ⟨m', hm', hroot', htells'⟩ := honest.tells hinj hb hcb
  obtain ⟨hname, hthread, hcause⟩ := honest.same hinj hm hm' (by rw [← hroot, ← hroot', haddr])
  have hperf : a.performative = b.performative := by
    rw [htells.performative, htells'.performative, hname]
  refine ⟨⟨fun p q hp hq => ?_, fun c c' hc hc' => ?_⟩, hperf, ?_⟩
  · rw [hperf, hq] at hp
    injection hp with hp
    exact hp.symm
  · rw [htells.cause c hc, htells'.cause c' hc', hcause]
  · rw [htells.thread, htells'.thread, hthread]

end Honesty

-- ── The type of a reference ────

/-- What the readers find types the reference, if all they find is of one type. -/
theorem predecessorType_of_named {S : MessageStore} {k : ContentHash} {t : ThreadId} {p : String}
    (ha : Evidence.NamedBy S k t a)
    (hall : ∀ b, Evidence.NamedBy S k t b → b.performative = some (some p)) :
    predecessorType S k t = some p := by
  unfold predecessorType
  cases hl : S.lookupInThread k t with
  | some m =>
      have h := hall (.full m) hl
      injection h with h
      simp only [fullType_of_performative h]
  | none =>
      cases he : S.envelopeInThread k t with
      | some e =>
          exact Option.some.inj (hall (.redacted e) he)
      | none =>
          cases a with
          | full m => exact absurd (hl.symm.trans ha) (by simp)
          | redacted e => exact absurd (he.symm.trans ha) (by simp)
          | opened o =>
              have h := hall (.opened o) ha
              simp only [Evidence.performative, Option.map_eq_some_iff, Option.some.injEq,
                exists_eq_right] at h
              show (S.openedInThread k t).bind _ = some p
              rw [show S.openedInThread k t = some o from ha, Option.bind_some, h]

/-- A typed reference names evidence that discloses the type, if full messages have one. -/
theorem named_of_predecessorType {S : MessageStore} {k : ContentHash} {t : ThreadId} {p : String}
    (hfull : ∀ m, S.lookupInThread k t = some m → isSimple m = true)
    (h : predecessorType S k t = some p) :
    ∃ a, Evidence.NamedBy S k t a ∧ a.performative = some (some p) := by
  unfold predecessorType at h
  cases hl : S.lookupInThread k t with
  | some m =>
      rw [hl] at h
      injection h with h
      refine ⟨.full m, hl, ?_⟩
      have hsimple := hfull m hl
      cases m with
      | simple pf r c ps t sd cb => rw [← h]; rfl
      | metaDef => exact nomatch hsimple
      | dialect => exact nomatch hsimple
      | wrapped => exact nomatch hsimple
  | none =>
      rw [hl] at h
      cases he : S.envelopeInThread k t with
      | some e =>
          rw [he] at h
          injection h with h
          exact ⟨.redacted e, he, by rw [← h]; rfl⟩
      | none =>
          rw [he] at h
          obtain ⟨o, ho, hp⟩ := Option.bind_eq_some_iff.mp h
          exact ⟨.opened o, ho, by simp [Evidence.performative, hp]⟩

/-- **The type of a reference is what the honest evidence offered says**, in any order. -/
theorem Run.predecessorType_iff {ms : List Message} {evs : List Evidence}
    (hinj : Set.InjOn sha256 (hashed sha256 ms evs)) (honest : Honest sha256 ms evs)
    (run : Run sha256 evs s) {k : ContentHash} {t : ThreadId} {p : String} :
    predecessorType s.toStore k t = some p ↔ ∃ a ∈ evs, address sha256 a = k ∧
      threadOf a = some t ∧ a.performative = some (some p) := by
  constructor
  · intro h
    obtain ⟨a, ha, hp⟩ := named_of_predecessorType
      (fun m hm => (run.checked (run.shelved (a := .full m) ⟨t, hm⟩).1).1) h
    obtain ⟨hshelved, hthread⟩ := run.namedBy_iff.mp ha
    obtain ⟨hmem, haddr⟩ := run.shelved hshelved
    exact ⟨a, hmem, haddr.symm, hthread, hp⟩
  · rintro ⟨a, hmem, rfl, hthread, hp⟩
    -- whatever stands under the hash agrees with the evidence offered
    have hagree : ∀ b, Shelved s (address sha256 a) b →
        b.performative = some (some p) ∧ threadOf b = some t := by
      intro b hb
      obtain ⟨hbmem, haddr⟩ := run.shelved hb
      obtain ⟨-, hperf, hth⟩ := honest.agree hinj hmem hbmem (run.checked hmem)
        (run.checked hbmem) haddr
      exact ⟨by rw [← hperf, hp], by rw [← hth, hthread]⟩
    obtain ⟨b, -, hb⟩ := run.filed hmem
    exact predecessorType_of_named (run.namedBy_iff.mpr ⟨hb, (hagree b hb).2⟩)
      fun c hc => (hagree c (run.namedBy_iff.mp hc).1).1

/-- Honesty and distinct hashes pass to part of the evidence. -/
theorem hashed_mono {ms : List Message} {evs evs' : List Evidence} (h : evs' ⊆ evs) :
    hashed sha256 ms evs' ⊆ hashed sha256 ms evs := by
  rintro os (hos | ⟨o, ho, hos⟩)
  · exact Or.inl hos
  · exact Or.inr ⟨o, h ho, hos⟩

/-- **The shelves agree on honest evidence.**  In every store a run of accepted calls reaches, if
    the evidence is honest: whatever stands under one hash agrees on performative, thread and
    causal reference; a run of the same evidence in any other order gives every reference the
    same type; and a type known after part of the evidence is the type. -/
theorem shelves_agree (sha256 : Octets → Digest) (ms : List Message) (evs : List Evidence)
    (s : ThreadedMessageStore) (hinj : Set.InjOn sha256 (hashed sha256 ms evs))
    (honest : Honest sha256 ms evs) (run : Run sha256 evs s) :
    (∀ h a b, Shelved s h a → Shelved s h b →
      Evidence.Agree a b ∧ threadOf a = threadOf b) ∧
    (∀ evs' s', evs.Perm evs' → Run sha256 evs' s' → ∀ h t,
      predecessorType s'.toStore h t = predecessorType s.toStore h t) ∧
    (∀ evs' s', evs' ⊆ evs → Run sha256 evs' s' → ∀ h t p,
      predecessorType s'.toStore h t = some p → predecessorType s.toStore h t = some p) := by
  have hpart : ∀ evs' s', evs' ⊆ evs → Run sha256 evs' s' → ∀ h t p,
      (predecessorType s'.toStore h t = some p ↔ ∃ a ∈ evs', address sha256 a = h ∧
        threadOf a = some t ∧ a.performative = some (some p)) := by
    intro evs' s' hsub run' h t p
    exact run'.predecessorType_iff (hinj.mono (hashed_mono hsub))
      ⟨honest.simple, honest.readsBack, fun a ha => honest.truthful a (hsub ha)⟩
  have hmono : ∀ evs' s', evs' ⊆ evs → Run sha256 evs' s' → ∀ h t p,
      predecessorType s'.toStore h t = some p → predecessorType s.toStore h t = some p := by
    intro evs' s' hsub run' h t p hp
    obtain ⟨a, ha, hrest⟩ := (hpart evs' s' hsub run' h t p).mp hp
    exact (run.predecessorType_iff hinj honest).mpr ⟨a, hsub ha, hrest⟩
  refine ⟨fun h a b ha hb => ?_, fun evs' s' hperm run' h t => ?_, hmono⟩
  · obtain ⟨hamem, rfl⟩ := run.shelved ha
    obtain ⟨hbmem, haddr⟩ := run.shelved hb
    obtain ⟨hagree, -, hthread⟩ := honest.agree hinj hamem hbmem (run.checked hamem)
      (run.checked hbmem) haddr
    exact ⟨hagree, hthread⟩
  · refine Option.ext fun p => ?_
    constructor
    · exact hmono evs' s' hperm.symm.subset run' h t p
    · intro hp
      obtain ⟨a, ha, hrest⟩ := (run.predecessorType_iff hinj honest).mp hp
      exact (hpart evs' s' hperm.symm.subset run' h t p).mpr ⟨a, hperm.subset ha, hrest⟩

/-- A verified redacted envelope is accepted. -/
theorem exists_accepts_redacted {e : RedactedEnvelope} {signer : Signer}
    (hverify : e.verify signer = .ok ()) : ∃ s', Accepts sha256 s (.redacted e) s' := by
  have hok : ∃ new s', s.appendEnvelope e signer = .ok (new, s') := by
    unfold ThreadedMessageStore.appendEnvelope
    rw [hverify]
    dsimp only
    split
    · exact ⟨_, _, rfl⟩
    · exact ⟨_, _, rfl⟩
  obtain ⟨new, s', hok⟩ := hok
  exact ⟨s', .envelope e signer new s' hok⟩

/-- A verified opened envelope with a thread is accepted. -/
theorem exists_accepts_opened {o : OpenedEnvelope} {signer : Signer}
    (hverify : verifyOpened sha256 o signer = .ok ()) (hthread : (openedThread o).isSome = true) :
    ∃ s', Accepts sha256 s (.opened o) s' := by
  have hok : ∃ new s', s.appendOpened sha256 o signer = .ok (new, s') := by
    unfold ThreadedMessageStore.appendOpened
    rw [hverify]
    dsimp only
    rw [if_neg (by simpa [Option.isSome_iff_ne_none] using hthread)]
    split
    · exact ⟨_, _, rfl⟩
    · exact ⟨_, _, rfl⟩
  obtain ⟨new, s', hok⟩ := hok
  exact ⟨s', .opened o signer new s' hok⟩

end Hashing

-- ── A greeting on three shelves ────

/-- A signer that accepts the codes it makes, and nothing else. -/
def keyed (code : Octets → Octets) : Signer := ⟨code, fun octets sig => sig = code octets⟩

theorem keyed_verify (code : Octets → Octets) (octets : Octets) :
    (keyed code).verify octets ((keyed code).sign octets) = true :=
  decide_eq_true rfl

/-- A header signed by its own key verifies. -/
theorem verify_keyed (code : Octets → Octets) {header : AttestationHeader}
    (hsuite : header.from.suite = .ed25519) :
    RedactedEnvelope.verify ⟨header, (keyed code).sign (attestationPreimage header)⟩ (keyed code)
      = .ok () := by
  unfold RedactedEnvelope.verify verifyAttestationV2
  rw [hsuite]
  simp only [ne_eq, not_true_eq_false, if_false, keyed_verify, if_true]

/-- An address signed by a key verifies. -/
theorem verifyV3_keyed (code : Octets → Octets) (root : String) :
    verifyAttestationV3 .ed25519 root ((keyed code).sign (attestationV3Preimage .ed25519 root))
      (keyed code) = .ok () := by
  unfold verifyAttestationV3
  exact if_pos (keyed_verify code _)

/-- An envelope that opens two fields of a message under the key of its sender verifies. -/
theorem verifyOpened_built (sha256 : Octets → Digest) (m : Message) (code : Octets → Octets) :
    verifyOpened sha256
      { root := typedRoot sha256 m
        suite := .ed25519
        signature := (keyed code).sign (attestationV3Preimage .ed25519 (typedRoot sha256 m))
        openings := [openField sha256 m .performative, openField sha256 m .thread] }
      (keyed code) = .ok () := by
  have hsig := verifyV3_keyed code (typedRoot sha256 m)
  have hfind : [openField sha256 m .performative, openField sha256 m .thread].find? (fun op =>
      !verifyOpening sha256 (typedRoot sha256 m) op.field op.value op) = none := by
    rw [List.find?_eq_none]
    intro op hop
    rw [Bool.not_eq_true, Bool.not_eq_false']
    rcases List.mem_pair.mp hop with rfl | rfl
    · exact verifyOpening_openField m .performative
    · exact verifyOpening_openField m .thread
  unfold verifyOpened
  dsimp only
  rw [hsig]
  dsimp only
  rw [hfind]

/-- The code of a key holder. -/
def aliceCode (octets : Octets) : Octets := (CbclSha256.sha256 (0x2a :: octets)).toList

/-- A header that names the address of the greeting, with some performative. -/
def greetingHeader (performative : String) : AttestationHeader where
  content_hash := typedRoot CbclSha256.sha256 greeting
  performative
  «from» := ⟨.ed25519, "alice"⟩
  «to» := ∅
  thread := "t"
  caused_by := none

/-- The header, signed by the key it names. -/
def greetingEnvelope (performative : String) : RedactedEnvelope :=
  ⟨greetingHeader performative,
    (keyed aliceCode).sign (attestationPreimage (greetingHeader performative))⟩

/-- The greeting with its performative and its thread opened. -/
def greetingOpened : OpenedEnvelope where
  root := typedRoot CbclSha256.sha256 greeting
  suite := .ed25519
  signature := (keyed aliceCode).sign
    (attestationV3Preimage .ed25519 (typedRoot CbclSha256.sha256 greeting))
  openings := [openField CbclSha256.sha256 greeting .performative,
    openField CbclSha256.sha256 greeting .thread]

theorem greetingOpened_verify :
    verifyOpened CbclSha256.sha256 greetingOpened (keyed aliceCode) = .ok () :=
  verifyOpened_built CbclSha256.sha256 greeting aliceCode

theorem greeting_readsBack : ReadsBack greeting :=
  fun _ _ h => nomatch h

/-- SHA-256 tells apart what is hashed for the greeting and its openings. -/
theorem greeting_hashed {evs : List Evidence}
    (h : ∀ o, Evidence.opened o ∈ evs → o = greetingOpened) :
    Set.InjOn CbclSha256.sha256 (hashed CbclSha256.sha256 [greeting] evs) := by
  refine greeting_distinct.mono ?_
  rintro os (⟨m, hm, hos⟩ | ⟨o, ho, op, hop, hos⟩)
  · rw [List.mem_singleton.mp hm] at hos
    exact hos
  · rw [h o ho] at hop
    rcases List.mem_pair.mp hop with rfl | rfl
    · exact hashedOpening_openField CbclSha256.sha256 greeting .performative os hos
    · exact hashedOpening_openField CbclSha256.sha256 greeting .thread os hos

theorem shelves_agree_greeting :
    ∃ s, Run CbclSha256.sha256
        [.full greeting, .redacted (greetingEnvelope "tell"), .opened greetingOpened] s ∧
      ∀ h a b, Shelved s h a → Shelved s h b →
        Evidence.Agree a b ∧ threadOf a = threadOf b := by
  have step1 : Accepts CbclSha256.sha256 ThreadedMessageStore.new (.full greeting) _ :=
    .message greeting "t" rfl rfl
  have h1 := Run.snoc _ _ _ _ Run.nil step1
  obtain ⟨s2, step2⟩ := exists_accepts_redacted (e := greetingEnvelope "tell")
    (verify_keyed aliceCode rfl)
  have h2 := Run.snoc _ _ _ s2 h1 step2
  obtain ⟨s3, step3⟩ := exists_accepts_opened greetingOpened_verify rfl
  have h3 := Run.snoc _ _ _ s3 h2 step3
  refine ⟨s3, h3, (shelves_agree CbclSha256.sha256 [greeting] _ s3 (greeting_hashed ?_) ?_ h3).1⟩
  · intro o ho
    simpa using ho
  · refine ⟨fun m hm => ?_, fun m hm => ?_, fun a ha => ⟨greeting, List.mem_singleton.mpr rfl, ?_⟩⟩
    · rw [List.mem_singleton.mp hm]
      rfl
    · rw [List.mem_singleton.mp hm]
      exact greeting_readsBack
    · simp only [List.nil_append, List.cons_append, List.mem_cons, List.not_mem_nil, or_false] at ha
      rcases ha with rfl | rfl | rfl
      · rfl
      · exact ⟨rfl, rfl, rfl, rfl⟩
      · exact ⟨rfl, rfl⟩

/-- **A signed header that misnames its message.**  The key holder signs a header with the address
    of the greeting and another performative; the store shelves it beside the greeting, and the
    type of the reference changes when the greeting arrives. -/
theorem shelves_disagree_header :
    ∃ s₀ s, Run CbclSha256.sha256 [.redacted (greetingEnvelope "ask")] s₀ ∧
      Run CbclSha256.sha256 [.redacted (greetingEnvelope "ask"), .full greeting] s ∧
      Set.InjOn CbclSha256.sha256
        (hashed CbclSha256.sha256 [greeting] [.redacted (greetingEnvelope "ask"), .full greeting]) ∧
      (∃ h a b, Shelved s h a ∧ Shelved s h b ∧ ¬ Evidence.Agree a b) ∧
      predecessorType s₀.toStore (typedRoot CbclSha256.sha256 greeting) "t" = some "ask" ∧
      predecessorType s.toStore (typedRoot CbclSha256.sha256 greeting) "t" = some "tell" := by
  obtain ⟨s₀, step₀⟩ : ∃ s₀, Accepts CbclSha256.sha256 ThreadedMessageStore.new
      (.redacted (greetingEnvelope "ask")) s₀ :=
    exists_accepts_redacted (verify_keyed aliceCode rfl)
  have run₀ := Run.snoc _ _ _ s₀ Run.nil step₀
  have step : Accepts CbclSha256.sha256 s₀ (.full greeting) _ := .message greeting "t" rfl rfl
  have run := Run.snoc _ _ _ _ run₀ step
  -- each shelf holds what was offered for it
  have hask₀ : Shelved s₀ (typedRoot CbclSha256.sha256 greeting)
      (.redacted (greetingEnvelope "ask")) := by
    obtain ⟨b, -, hb⟩ := run₀.filed (List.mem_singleton.mpr rfl)
    rw [List.mem_singleton.mp (run₀.shelved hb).1] at hb
    exact hb
  have hask := (step.shelved_iff _ _).mpr (Or.inl hask₀)
  have htell : (s₀.append (typedRoot CbclSha256.sha256 greeting) "t" greeting).2.lookupInThread
      (typedRoot CbclSha256.sha256 greeting) "t" = some greeting := by
    rw [ThreadedMessageStore.lookupInThread_append, if_pos rfl, if_pos rfl]
    intro hmem
    obtain ⟨m, hm⟩ := mem_index_iff.mp hmem
    exact nomatch List.mem_singleton.mp (run₀.shelved hm).1
  refine ⟨s₀, _, run₀, run, greeting_hashed fun o ho => ?_,
    ⟨_, .full greeting, .redacted (greetingEnvelope "ask"), ⟨"t", htell⟩, hask, fun hagree => ?_⟩,
    ?_, ?_⟩
  · simp at ho
  · exact absurd (hagree.performative (some "tell") (some "ask") rfl rfl) (by decide)
  · refine predecessorType_of_named (run₀.namedBy_iff.mpr ⟨hask₀, rfl⟩) fun b hb => ?_
    rw [List.mem_singleton.mp (run₀.shelved (run₀.namedBy_iff.mp hb).1).1]
    rfl
  · unfold predecessorType
    rw [show MessageStore.lookupInThread _ _ _ = _ from htell]
    rfl

end CbclShelves
