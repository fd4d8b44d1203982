import Cbcl.StoreModel

/-!
# The threaded message store

`ThreadedMessageStore` (`store.rs`): messages per thread in arrival order, a global index
from hash to thread and position, the hashes some stored message cites, and the two shelves
of envelopes.  A hash is filed once; appending it again changes nothing.  Hash maps of the
source appear as ordered maps, since no modelled operation depends on their iteration order.
-/

namespace CbclThreadedStore

open CbclMessage CbclProtocol CbclStore CbclEnvelope

/-- The authenticated thread of an opened envelope. -/
def openedThread (e : OpenedEnvelope) : Option String := do
  match (← e.opening .thread).value with
  | .list [.atom (.symbol s)] => some s
  | .list [.atom (.str s)] => some s
  | _ => none

/-- A store whose index and threads name the same places. -/
structure ThreadedMessageStore where
  threads : BTreeMap ThreadId (List (ContentHash × Message))
  index : BTreeMap ContentHash (ThreadId × Nat)
  referenced : BTreeMap ThreadId (BTreeSet ContentHash)
  envelopes : BTreeMap ContentHash RedactedEnvelope
  opened : BTreeMap ContentHash OpenedEnvelope
  placed : ∀ (h : ContentHash) (t : ThreadId) (i : Nat), index[h]? = some (t, i) →
    ∃ m, ((threads[t]?).getD [])[i]? = some (h, m)
  indexed : ∀ (h : ContentHash) (t : ThreadId) (i : Nat) (m : Message),
    ((threads[t]?).getD [])[i]? = some (h, m) → index[h]? = some (t, i)

namespace ThreadedMessageStore

/-- The empty store. -/
def new : ThreadedMessageStore :=
  ⟨∅, ∅, ∅, ∅, ∅, fun h t i hi => by simp at hi, fun h t i m hm => by simp at hm⟩

/-- The messages of a thread, in arrival order. -/
def messages (s : ThreadedMessageStore) (thread : ThreadId) : List (ContentHash × Message) :=
  (s.threads[thread]?).getD []

/-- The position of a hash, if it is filed under the thread. -/
def indexLookup (s : ThreadedMessageStore) (hash : ContentHash) (thread : ThreadId) :
    Option Nat :=
  (s.index[hash]?).bind fun (t, i) => if t = thread then some i else none

/-- The full message of a hash in a thread. -/
def lookupInThread (s : ThreadedMessageStore) (hash : ContentHash) (thread : ThreadId) :
    Option Message :=
  (s.indexLookup hash thread).bind fun i => ((s.messages thread)[i]?).map Prod.snd

/-- Whether a hash is filed under a thread. -/
def contains (s : ThreadedMessageStore) (hash : ContentHash) (thread : ThreadId) : Bool :=
  (s.indexLookup hash thread).isSome

/-- The redacted envelope of a hash, in its authenticated thread. -/
def envelopeInThread (s : ThreadedMessageStore) (hash : ContentHash) (thread : ThreadId) :
    Option RedactedEnvelope :=
  (s.envelopes[hash]?).filter fun e => e.header.thread = thread

/-- The opened envelope of a hash, in its authenticated thread. -/
def openedInThread (s : ThreadedMessageStore) (hash : ContentHash) (thread : ThreadId) :
    Option OpenedEnvelope :=
  (s.opened[hash]?).filter fun e => openedThread e = some thread

/-- The references a stored message adds to its thread. -/
def addReferences (s : ThreadedMessageStore) (thread : ThreadId) (message : Message) :
    BTreeMap ThreadId (BTreeSet ContentHash) :=
  match message.causedBy with
  | none => s.referenced
  | some cb =>
      s.referenced.insert thread (cb.hashes.foldl (·.insert ·) ((s.referenced[thread]?).getD ∅))

/-- Filing a message keeps the index truthful. -/
theorem placed_append (s : ThreadedMessageStore) (hash : ContentHash) (thread : ThreadId)
    (message : Message) : ∀ (h : ContentHash) (t : ThreadId) (i : Nat),
      (s.index.insert hash (thread, (s.messages thread).length))[h]? = some (t, i) →
        ∃ m, (((s.threads.insert thread (s.messages thread ++ [(hash, message)]))[t]?).getD
          [])[i]? = some (h, m) := by
  intro h t i hi
  rw [Std.ExtTreeMap.getElem?_insert] at hi
  by_cases hh : hash = h
  · subst hh
    rw [if_pos Std.ReflCmp.compare_self] at hi
    injection hi with hi
    injection hi with ht hi
    subst ht hi
    refine ⟨message, ?_⟩
    rw [Std.ExtTreeMap.getElem?_insert_self, Option.getD_some]
    simp
  · rw [if_neg (by rwa [Std.LawfulEqCmp.compare_eq_iff_eq])] at hi
    obtain ⟨m, hm⟩ := s.placed h t i hi
    refine ⟨m, ?_⟩
    rw [Std.ExtTreeMap.getElem?_insert]
    by_cases ht : thread = t
    · subst ht
      rw [if_pos Std.ReflCmp.compare_self, Option.getD_some]
      have hlt : i < (s.messages thread).length := by
        obtain ⟨hlt, -⟩ := List.getElem?_eq_some_iff.mp hm
        exact hlt
      rw [List.getElem?_append_left hlt]
      exact hm
    · rw [if_neg (by rwa [Std.LawfulEqCmp.compare_eq_iff_eq])]
      exact hm

/-- Filing a message under a fresh hash keeps every filed message indexed. -/
theorem indexed_append (s : ThreadedMessageStore) {hash : ContentHash} (hfresh : hash ∉ s.index)
    (thread : ThreadId) (message : Message) :
    ∀ (h : ContentHash) (t : ThreadId) (i : Nat) (m : Message),
      (((s.threads.insert thread (s.messages thread ++ [(hash, message)]))[t]?).getD [])[i]?
          = some (h, m) →
        (s.index.insert hash (thread, (s.messages thread).length))[h]? = some (t, i) := by
  intro h t i m hm
  -- an entry of the old threads is indexed already, under another hash than the fresh one
  have hold : ((s.threads[t]?).getD [])[i]? = some (h, m) →
      (s.index.insert hash (thread, (s.messages thread).length))[h]? = some (t, i) := by
    intro hin
    have hi := s.indexed h t i m hin
    rw [Std.ExtTreeMap.getElem?_insert, if_neg]
    · exact hi
    · rw [Std.LawfulEqCmp.compare_eq_iff_eq]
      rintro rfl
      exact hfresh (Std.ExtTreeMap.mem_iff_isSome_getElem?.mpr (by rw [hi]; rfl))
  rw [Std.ExtTreeMap.getElem?_insert] at hm
  by_cases ht : thread = t
  · subst ht
    rw [if_pos Std.ReflCmp.compare_self, Option.getD_some] at hm
    by_cases hlt : i < (s.messages thread).length
    · rw [List.getElem?_append_left hlt] at hm
      exact hold hm
    · rw [List.getElem?_append_right (Nat.not_lt.mp hlt)] at hm
      obtain ⟨hlen, hget⟩ := List.getElem?_eq_some_iff.mp hm
      have hi : i = (s.messages thread).length := by
        simp only [List.length_cons, List.length_nil] at hlen
        omega
      subst hi
      simp only [Nat.sub_self, List.getElem_cons_zero, Prod.mk.injEq] at hget
      rw [← hget.1, Std.ExtTreeMap.getElem?_insert_self]
  · rw [if_neg (by rwa [Std.LawfulEqCmp.compare_eq_iff_eq])] at hm
    exact hold hm

/-- Append a message; `false` and nothing filed when the hash is known already. -/
def append (s : ThreadedMessageStore) (hash : ContentHash) (thread : ThreadId)
    (message : Message) : Bool × ThreadedMessageStore :=
  if h : hash ∈ s.index then
    -- the source has created the (empty) thread entry by now; no reader sees it
    (false, s)
  else
    (true, { s with
      threads := s.threads.insert thread (s.messages thread ++ [(hash, message)])
      index := s.index.insert hash (thread, (s.messages thread).length)
      referenced := s.addReferences thread message
      placed := placed_append s hash thread message
      indexed := indexed_append s h thread message })

/-- Accept a redacted envelope: verify it from its own fields, then shelve it under the hash its
    header names, unless an envelope is there already. -/
def appendEnvelope (s : ThreadedMessageStore) (envelope : RedactedEnvelope) (signer : Signer) :
    Except AttestError (Bool × ThreadedMessageStore) :=
  match envelope.verify signer with
  | .error e => .error e
  | .ok () =>
      if envelope.header.content_hash ∈ s.envelopes then .ok (false, s)
      else .ok (true, { s with
        envelopes := s.envelopes.insert envelope.header.content_hash envelope })

/-- Accept an opened envelope: verify it, demand its thread, then shelve it under its root,
    unless an opened envelope is there already. -/
def appendOpened (sha256 : CbclCanonical.Octets → CbclTypedAddr.Digest) (s : ThreadedMessageStore)
    (envelope : OpenedEnvelope) (signer : Signer) :
    Except OpenedError (Bool × ThreadedMessageStore) :=
  match verifyOpened sha256 envelope signer with
  | .error e => .error e
  | .ok () =>
      if (openedThread envelope).isNone then .error (.missingField .thread)
      else if envelope.root ∈ s.opened then .ok (false, s)
      else .ok (true, { s with opened := s.opened.insert envelope.root envelope })

variable {s : ThreadedMessageStore} {hash : ContentHash} {thread : ThreadId} {message : Message}

/-- A hash is filed under a thread exactly when its message is found there. -/
theorem contains_iff : s.contains hash thread = true ↔ (s.lookupInThread hash thread).isSome := by
  unfold contains lookupInThread indexLookup
  cases hi : s.index[hash]? with
  | none => simp
  | some entry =>
      obtain ⟨t, i⟩ := entry
      by_cases ht : t = thread
      · subst ht
        obtain ⟨m, hm⟩ := s.placed hash t i hi
        have hm' : (s.messages t)[i]? = some (hash, m) := hm
        simp [hm']
      · simp [ht]

/-- A message found by lookup has its hash in the index. -/
theorem mem_index_of_lookup (h : s.lookupInThread hash thread = some message) :
    hash ∈ s.index := by
  unfold lookupInThread indexLookup at h
  rw [Std.ExtTreeMap.mem_iff_isSome_getElem?]
  cases hi : s.index[hash]? with
  | none => rw [hi] at h; exact nomatch h
  | some _ => rfl

/-- **Lookup after an append**: a fresh hash is found in its thread, the rest is unchanged. -/
theorem lookupInThread_append (hfresh : hash ∉ s.index) (h : ContentHash) (t : ThreadId) :
    (s.append hash thread message).2.lookupInThread h t =
      if h = hash then (if t = thread then some message else none)
      else s.lookupInThread h t := by
  unfold append lookupInThread indexLookup messages
  rw [dif_neg hfresh]
  dsimp only
  rw [Std.ExtTreeMap.getElem?_insert]
  by_cases hh : h = hash
  · subst hh
    rw [if_pos Std.ReflCmp.compare_self, if_pos rfl, Option.bind_some]
    by_cases ht : t = thread
    · subst ht
      rw [if_pos rfl, if_pos rfl, Std.ExtTreeMap.getElem?_insert_self]
      simp
    · rw [if_neg (Ne.symm ht), if_neg ht]
      rfl
  · rw [if_neg (by rw [Std.LawfulEqCmp.compare_eq_iff_eq]; exact Ne.symm hh), if_neg hh]
    cases hi : s.index[h]? with
    | none => rfl
    | some entry =>
        obtain ⟨t', i⟩ := entry
        simp only [Option.bind_some]
        by_cases ht : t' = t
        · subst ht
          rw [if_pos rfl, Option.bind_some, Option.bind_some, Std.ExtTreeMap.getElem?_insert]
          by_cases hthread : thread = t'
          · subst hthread
            obtain ⟨m, hm⟩ := s.placed h thread i hi
            have hlt : i < ((s.threads[thread]?).getD []).length := by
              obtain ⟨hlt, -⟩ := List.getElem?_eq_some_iff.mp hm
              exact hlt
            rw [if_pos Std.ReflCmp.compare_self, Option.getD_some,
              List.getElem?_append_left hlt]
          · rw [if_neg (by rwa [Std.LawfulEqCmp.compare_eq_iff_eq])]
        · rw [if_neg ht]
          rfl

/-- The thread of an append grows at its end by a fresh hash. -/
theorem messages_append (hfresh : hash ∉ s.index) :
    (s.append hash thread message).2.messages thread
      = s.messages thread ++ [(hash, message)] := by
  unfold append
  rw [dif_neg hfresh]
  unfold messages
  rw [Std.ExtTreeMap.getElem?_insert_self]
  rfl

/-- The index after an append of a fresh hash. -/
theorem mem_index_append (hfresh : hash ∉ s.index) (h : ContentHash) :
    h ∈ (s.append hash thread message).2.index ↔ h = hash ∨ h ∈ s.index := by
  unfold append
  rw [dif_neg hfresh, Std.ExtTreeMap.mem_insert, Std.LawfulEqCmp.compare_eq_iff_eq, eq_comm]

/-- The messages of a thread are the ones lookup finds there. -/
theorem lookupInThread_iff {h : ContentHash} {t : ThreadId} {m : Message} :
    s.lookupInThread h t = some m ↔ (h, m) ∈ s.messages t := by
  unfold lookupInThread indexLookup
  rw [List.mem_iff_getElem?]
  constructor
  · intro hm
    cases hi : s.index[h]? with
    | none => rw [hi] at hm; exact nomatch hm
    | some entry =>
        obtain ⟨t', i⟩ := entry
        rw [hi] at hm
        simp only [Option.bind_some] at hm
        by_cases ht : t' = t
        · subst ht
          rw [if_pos rfl, Option.bind_some] at hm
          obtain ⟨m', hm'⟩ := s.placed h t' i hi
          refine ⟨i, ?_⟩
          unfold messages at hm ⊢
          rw [hm'] at hm ⊢
          exact congrArg some (Prod.ext rfl (Option.some.inj hm))
        · rw [if_neg ht] at hm
          exact nomatch hm
  · rintro ⟨i, hi⟩
    rw [s.indexed h t i m hi]
    simp only [Option.bind_some, if_true]
    rw [hi]
    rfl

/-- The shelves are untouched by an append. -/
theorem shelves_append (s : ThreadedMessageStore) (hash : ContentHash) (thread : ThreadId)
    (message : Message) : (s.append hash thread message).2.envelopes = s.envelopes ∧
    (s.append hash thread message).2.opened = s.opened := by
  unfold append
  split
  · exact ⟨rfl, rfl⟩
  · exact ⟨rfl, rfl⟩

/-- The store as the verifiers read it: no position cache. -/
def toStore (s : ThreadedMessageStore) : MessageStore where
  lookupInThread := s.lookupInThread
  envelopeInThread := s.envelopeInThread
  openedInThread := s.openedInThread
  materializedPositions := none
  hashes := s.index.keys ++ s.envelopes.keys ++ s.opened.keys
  finite := by
    intro h t hh
    simp only [List.mem_append, Std.ExtTreeMap.mem_keys, not_or] at hh
    obtain ⟨⟨h1, h2⟩, h3⟩ := hh
    refine ⟨?_, ?_, ?_⟩
    · unfold lookupInThread indexLookup
      rw [Std.ExtTreeMap.getElem?_eq_none h1]
      rfl
    · unfold envelopeInThread
      rw [Std.ExtTreeMap.getElem?_eq_none h2]
      rfl
    · unfold openedInThread
      rw [Std.ExtTreeMap.getElem?_eq_none h3]
      rfl

end ThreadedMessageStore

end CbclThreadedStore
