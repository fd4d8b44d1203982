import Cbcl.BundleProofs

/-!
# The store as a grow-only set

`append` files a hash once and ignores it afterwards.  What a store answers is therefore the
first filing of each hash (`filed_apply`, `filed_run`), whatever happened in between; the
walks depend on those answers only.  Appends that agree on what each hash stands for may come
in any order and any number of times.
-/

namespace CbclStoreUnion

open CbclMessage CbclProtocol CbclStore CbclThreadedStore CbclEnvelope CbclBundle CbclWorklist
open ThreadedMessageStore

-- ── What a store answers ────

/-- The message of a hash, in whatever thread it is filed. -/
def lookup (s : ThreadedMessageStore) (hash : ContentHash) : Option Message :=
  (s.index[hash]?).bind fun (t, i) => ((s.messages t)[i]?).map Prod.snd

/-- Where and as what a hash is filed. -/
def filed (s : ThreadedMessageStore) (hash : ContentHash) : Option (ThreadId × Message) :=
  (s.index[hash]?).bind fun (t, i) => ((s.messages t)[i]?).map fun entry => (t, entry.2)

section Answers

variable (s : ThreadedMessageStore) (h : ContentHash) (t : ThreadId)

/-- **The index and the threads name the same places.** -/
theorem index_iff (i : Nat) :
    s.index[h]? = some (t, i) ↔ ∃ m, (s.messages t)[i]? = some (h, m) :=
  ⟨s.placed h t i, fun ⟨m, hm⟩ => s.indexed h t i m hm⟩

/-- Lookup forgets the thread of the filing. -/
theorem lookup_eq : lookup s h = (filed s h).map Prod.snd := by
  unfold lookup filed
  cases s.index[h]? with
  | none => rfl
  | some entry =>
      obtain ⟨t, i⟩ := entry
      simp only [Option.bind_some, Option.map_map]
      rfl

/-- Lookup in a thread asks for it. -/
theorem lookupInThread_eq :
    s.lookupInThread h t = ((filed s h).filter fun f => f.1 = t).map Prod.snd := by
  unfold lookupInThread indexLookup filed
  cases s.index[h]? with
  | none => rfl
  | some entry =>
      obtain ⟨t', i⟩ := entry
      simp only [Option.bind_some]
      by_cases ht : t' = t
      · subst ht
        rw [if_pos rfl, Option.bind_some]
        cases (s.messages t')[i]? with
        | none => rfl
        | some entry => simp
      · rw [if_neg ht]
        cases (s.messages t')[i]? with
        | none => rfl
        | some entry => simp [ht]

/-- A hash is filed exactly when the index knows it. -/
theorem filed_isSome_iff : (filed s h).isSome = true ↔ h ∈ s.index := by
  unfold filed
  rw [Std.ExtTreeMap.mem_iff_isSome_getElem?]
  cases hi : s.index[h]? with
  | none => rfl
  | some entry =>
      obtain ⟨t, i⟩ := entry
      obtain ⟨m, hm⟩ := s.placed h t i hi
      have hm' : (s.messages t)[i]? = some (h, m) := hm
      simp [hm']

end Answers

/-- Two stores that a reader cannot tell apart: lookups and membership agree, and frontiers and
    closures have the same members. -/
structure SameReadings (s s' : ThreadedMessageStore) : Prop where
  lookup : ∀ h, lookup s h = lookup s' h
  lookupInThread : ∀ h t, s.lookupInThread h t = s'.lookupInThread h t
  contains : ∀ h t, s.contains h t = s'.contains h t
  frontier : ∀ t h, h ∈ frontier s t ↔ h ∈ frontier s' t
  causalClosure : ∀ h t g, g ∈ causalClosure s h t ↔ g ∈ causalClosure s' h t

/-- **The filings decide every reading.** -/
theorem sameReadings_of_filed {s s' : ThreadedMessageStore} (hrefs : ReferencesKept s)
    (hrefs' : ReferencesKept s') (hfiled : ∀ h, filed s h = filed s' h) : SameReadings s s' := by
  have hin : ∀ h t, s.lookupInThread h t = s'.lookupInThread h t := by
    intro h t
    rw [lookupInThread_eq, lookupInThread_eq, hfiled h]
  have hcontains : ∀ h t, s.contains h t = s'.contains h t := by
    intro h t
    rw [Bool.eq_iff_iff, contains_iff, contains_iff, hin h t]
  have hmessages : ∀ t h m, (h, m) ∈ s.messages t ↔ (h, m) ∈ s'.messages t := by
    intro t h m
    rw [← lookupInThread_iff, ← lookupInThread_iff, hin h t]
  have hcites : ∀ t, citations s.toStore t = citations s'.toStore t := by
    intro t
    funext h
    unfold citations
    exact congrArg (fun m : Option Message => (m.map fun m => citedHashes m.causedBy).getD [])
      (hin h t)
  refine ⟨fun h => ?_, hin, hcontains, fun t h => ?_, fun h t g => ?_⟩
  · rw [lookup_eq, lookup_eq, hfiled h]
  · rw [mem_frontier_iff hrefs, mem_frontier_iff hrefs', hcontains h t]
    simp only [hmessages t]
  · by_cases hstored : s.contains h t = true
    · rw [mem_causalClosure_iff hstored, mem_causalClosure_iff (hcontains h t ▸ hstored), hcites t]
    · -- nothing is walked from a hash that is not stored
      have hnil : ∀ s : ThreadedMessageStore, s.contains h t ≠ true → causalClosure s h t = [] := by
        intro s hs
        refine List.eq_nil_iff_forall_not_mem.mpr fun g hg => ?_
        unfold causalClosure at hg
        rw [if_neg hs, List.mem_reverse, mem_walk_iff] at hg
        obtain ⟨k, hk, -⟩ := hg
        exact nomatch hk
      rw [hnil s hstored, hnil s' (hcontains h t ▸ hstored)]

-- ── Runs ────

/-- The operations that change a store. -/
inductive StoreOp where
  | append (hash : ContentHash) (thread : ThreadId) (message : Message)
  | appendEnvelope (envelope : RedactedEnvelope) (signer : Signer)
  | appendOpened (envelope : OpenedEnvelope) (signer : Signer)

variable (sha256 : CbclCanonical.Octets → CbclTypedAddr.Digest)

/-- The store an operation leaves; a refused one leaves it as it was. -/
def StoreOp.apply (s : ThreadedMessageStore) : StoreOp → ThreadedMessageStore
  | append hash thread message => (s.append hash thread message).2
  | appendEnvelope envelope signer =>
      ((s.appendEnvelope envelope signer).toOption.map Prod.snd).getD s
  | appendOpened envelope signer =>
      ((s.appendOpened sha256 envelope signer).toOption.map Prod.snd).getD s

/-- The store after some operations on the empty store. -/
def run (ops : List StoreOp) : ThreadedMessageStore := ops.foldl (StoreOp.apply sha256) .new

/-- What an operation files a hash as, if it names it. -/
def StoreOp.files (hash : ContentHash) : StoreOp → Option (ThreadId × Message)
  | append h thread message => if h = hash then some (thread, message) else none
  | _ => none

/-- A store differs from another in its shelves at most. -/
structure SameFilings (s s' : ThreadedMessageStore) : Prop where
  threads : s.threads = s'.threads
  index : s.index = s'.index

/-- Shelving an envelope files nothing. -/
theorem sameFilings_shelf (s : ThreadedMessageStore) (envelope : RedactedEnvelope)
    (signer : Signer) : SameFilings ((StoreOp.appendEnvelope envelope signer).apply sha256 s) s := by
  have hshelf : ∀ r, s.appendEnvelope envelope signer = .ok r → SameFilings r.2 s := by
    intro r hr
    unfold ThreadedMessageStore.appendEnvelope at hr
    split at hr
    · exact nomatch hr
    · split at hr
      · rw [← Except.ok.inj hr]
        exact ⟨rfl, rfl⟩
      · rw [← Except.ok.inj hr]
        exact ⟨rfl, rfl⟩
  unfold StoreOp.apply
  dsimp only
  cases hr : s.appendEnvelope envelope signer with
  | error e => exact ⟨rfl, rfl⟩
  | ok r => exact hshelf r hr

theorem sameFilings_opened (s : ThreadedMessageStore) (envelope : OpenedEnvelope)
    (signer : Signer) : SameFilings ((StoreOp.appendOpened envelope signer).apply sha256 s) s := by
  have hshelf : ∀ r, s.appendOpened sha256 envelope signer = .ok r → SameFilings r.2 s := by
    intro r hr
    unfold ThreadedMessageStore.appendOpened at hr
    split at hr
    · cases hr
    · split at hr
      · cases hr
      · split at hr
        · rw [← Except.ok.inj hr]
          exact ⟨rfl, rfl⟩
        · rw [← Except.ok.inj hr]
          exact ⟨rfl, rfl⟩
  unfold StoreOp.apply
  dsimp only
  cases hr : s.appendOpened sha256 envelope signer with
  | error e => exact ⟨rfl, rfl⟩
  | ok r => exact hshelf r hr

theorem SameFilings.filed {s s' : ThreadedMessageStore} (h : SameFilings s s')
    (hash : ContentHash) : filed s hash = filed s' hash := by
  unfold CbclStoreUnion.filed ThreadedMessageStore.messages
  rw [h.threads, h.index]

/-- An append files a fresh hash and nothing else. -/
theorem filed_append (s : ThreadedMessageStore) (hash : ContentHash) (thread : ThreadId)
    (message : Message) (h : ContentHash) : filed (s.append hash thread message).2 h
      = (filed s h).or (if hash = h then some (thread, message) else none) := by
  by_cases hknown : hash ∈ s.index
  · rw [ThreadedMessageStore.append, dif_pos hknown]
    by_cases hh : hash = h
    · subst hh
      obtain ⟨f, hf⟩ := Option.isSome_iff_exists.mp ((filed_isSome_iff s hash).mpr hknown)
      rw [hf]
      rfl
    · rw [if_neg hh, Option.or_none]
  · have hmsgs := @messages_append s hash thread message hknown
    have hother : ∀ t, t ≠ thread → (s.append hash thread message).2.messages t = s.messages t := by
      intro t ht
      unfold ThreadedMessageStore.append ThreadedMessageStore.messages
      rw [dif_neg hknown]
      dsimp only
      rw [CbclTreeMap.getElem?_insert_eq, if_neg ht]
    have hindex : (s.append hash thread message).2.index[h]?
        = if h = hash then some (thread, (s.messages thread).length) else s.index[h]? := by
      unfold ThreadedMessageStore.append
      rw [dif_neg hknown]
      exact CbclTreeMap.getElem?_insert_eq ..
    unfold filed
    rw [hindex]
    by_cases hh : h = hash
    · subst hh
      rw [if_pos rfl, if_pos rfl, getElem?_neg _ _ hknown, Option.bind_some]
      dsimp only
      rw [hmsgs]
      simp
    · rw [if_neg hh, if_neg (Ne.symm hh), Option.or_none]
      cases hi : s.index[h]? with
      | none => rfl
      | some entry =>
          obtain ⟨t, i⟩ := entry
          simp only [Option.bind_some]
          by_cases ht : t = thread
          · subst ht
            obtain ⟨m, hm⟩ := s.placed h t i hi
            obtain ⟨hlt, -⟩ := List.getElem?_eq_some_iff.mp hm
            have hlt : i < (s.messages t).length := hlt
            rw [hmsgs, List.getElem?_append_left hlt]
          · rw [hother t ht]

/-- **One operation** files what it names, unless it is filed already. -/
theorem filed_apply (op : StoreOp) (s : ThreadedMessageStore) (h : ContentHash) :
    filed (op.apply sha256 s) h = (filed s h).or (op.files h) := by
  cases op with
  | append hash thread message => exact filed_append s hash thread message h
  | appendEnvelope envelope signer =>
      rw [(sameFilings_shelf sha256 s envelope signer).filed]
      exact Option.or_none.symm
  | appendOpened envelope signer =>
      rw [(sameFilings_opened sha256 s envelope signer).filed]
      exact Option.or_none.symm

/-- **A run** answers with the first filing of a hash. -/
theorem filed_run (ops : List StoreOp) (h : ContentHash) :
    filed (run sha256 ops) h = ops.findSome? (StoreOp.files h) := by
  have hrun : ∀ (ops : List StoreOp) (s : ThreadedMessageStore),
      filed (ops.foldl (StoreOp.apply sha256) s) h
        = (filed s h).or (ops.findSome? (StoreOp.files h)) := by
    intro ops
    induction ops with
    | nil => exact fun s => Option.or_none.symm
    | cons op ops ih =>
        intro s
        rw [List.foldl_cons, ih, filed_apply, Option.or_assoc, List.findSome?_cons]
        cases op.files h with
        | none => rfl
        | some f => rfl
  rw [run, hrun]
  rfl

/-- Appends only. -/
theorem run_appends (appends : List (ContentHash × ThreadId × Message)) :
    run sha256 (appends.map fun a => .append a.1 a.2.1 a.2.2) = appendAll appends := by
  unfold run appendAll
  rw [List.foldl_map]
  rfl

/-- What a store of appends files a hash as. -/
theorem filed_appendAll (appends : List (ContentHash × ThreadId × Message)) (h : ContentHash) :
    filed (appendAll appends) h = (appends.find? fun a => a.1 = h).map Prod.snd := by
  rw [← run_appends fun _ => Vector.replicate 32 0, filed_run]
  induction appends with
  | nil => rfl
  | cons a appends ih =>
      rw [List.map_cons, List.findSome?_cons, List.find?_cons, ih]
      by_cases hh : a.1 = h
      · simp [StoreOp.files, hh]
      · simp [StoreOp.files, hh]

/-- Equal hashes stand for one message in one thread. -/
def Consistent (appends : List (ContentHash × ThreadId × Message)) : Prop :=
  ∀ a ∈ appends, ∀ b ∈ appends, a.1 = b.1 → a = b

/-- Consistent appends file a hash as any of them names it. -/
theorem filed_appendAll_iff {appends : List (ContentHash × ThreadId × Message)}
    (hcons : Consistent appends) (h : ContentHash) (f : ThreadId × Message) :
    filed (appendAll appends) h = some f ↔ (h, f) ∈ appends := by
  rw [filed_appendAll, Option.map_eq_some_iff]
  constructor
  · rintro ⟨a, ha, rfl⟩
    have hh : a.1 = h := by simpa using List.find?_some ha
    rw [← hh]
    exact List.mem_of_find?_eq_some ha
  · intro hin
    cases hfind : appends.find? fun a => a.1 = h with
    | none =>
        have hnone := List.find?_eq_none.mp hfind (h, f) hin
        simp at hnone
    | some a =>
        have hh : a.1 = h := by simpa using List.find?_some hfind
        have ha := hcons a (List.mem_of_find?_eq_some hfind) (h, f) hin hh
        exact ⟨a, rfl, by rw [ha]⟩

/-- **The store is a grow-only set.**  Consistent appends in any order and number leave stores
    that read alike; and after any operations the index and the threads name the same places,
    and a lookup answers with the message of the first append of its hash. -/
theorem store_growOnly :
    (∀ xs ys : List (ContentHash × ThreadId × Message), Consistent xs → (∀ a, a ∈ xs ↔ a ∈ ys) →
      SameReadings (appendAll xs) (appendAll ys)) ∧
    ∀ ops : List StoreOp,
      (∀ (h : ContentHash) (t : ThreadId) (i : Nat), (run sha256 ops).index[h]? = some (t, i)
        ↔ ∃ m, ((run sha256 ops).messages t)[i]? = some (h, m)) ∧
      ∀ h, lookup (run sha256 ops) h = (ops.findSome? (StoreOp.files h)).map Prod.snd := by
  refine ⟨fun xs ys hcons hsame => ?_, fun ops => ⟨fun h t i => index_iff _ h t i, fun h => ?_⟩⟩
  · have hcons' : Consistent ys := fun a ha b hb hab =>
      hcons a ((hsame a).mpr ha) b ((hsame b).mpr hb) hab
    refine sameReadings_of_filed (referencesKept_appendAll xs) (referencesKept_appendAll ys) ?_
    intro h
    refine Option.ext fun f => ?_
    rw [filed_appendAll_iff hcons, filed_appendAll_iff hcons', hsame]
  · rw [lookup_eq, filed_run]

/-- Two ticks filed in either order, one of them twice. -/
theorem store_growOnly_ticks :
    SameReadings
      (appendAll [("h1", "t", CbclVerifier.tick .begin), ("h2", "t", CbclVerifier.tick (.single "h1"))])
      (appendAll [("h2", "t", CbclVerifier.tick (.single "h1")), ("h1", "t", CbclVerifier.tick .begin),
        ("h2", "t", CbclVerifier.tick (.single "h1"))]) := by
  refine (store_growOnly fun _ => Vector.replicate 32 0).1 _ _ ?_ ?_
  · unfold Consistent
    decide
  · intro a
    simp only [List.mem_cons, List.not_mem_nil, or_false]
    tauto

end CbclStoreUnion
