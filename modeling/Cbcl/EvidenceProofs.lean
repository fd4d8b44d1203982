import Cbcl.EvidenceArchiveProofs
import Cbcl.SignedMessageProofs
import Cbcl.CacheRefinementProofs

/-!
# Evidence under whole programs

A program creates, copies and changes evidence in variables, and saves it in an archive that other
octets go to as well.  The same program run on plain maps from keys to messages is what the trees
are compared with.  There a message replaces the message of its key unless both have records that
hash alike: then the one that is there stays, and what is kept at every key has the record of the
last message inserted.
-/

namespace CbclEvidence

open CbclMessage CbclCanonical CbclCodec CbclTypedAddr CbclSigned
open CbclAvl (SearchTree)

-- ── Programs ────

/-- What can be done with maps from keys to messages. -/
structure Maps (α : Type) where
  new : α
  insert : Key → SignedMessage → α → α
  extend : List (Key × SignedMessage) → α → α
  retaining : α → α → α

/-- A step of a program over numbered variables. -/
inductive Op where
  | create
  | clone (source : Nat)
  | insert (target : Nat) (key : Key) (value : SignedMessage)
  | extend (target : Nat) (rows : List (Key × SignedMessage))
  | retaining (delta previous : Nat)

namespace Maps

variable {α β : Type}

/-- Run a step; new values go to a new variable. -/
def step (M : Maps α) (vars : List α) : Op → List α
  | .create => vars ++ [M.new]
  | .clone i => vars ++ (vars[i]?).toList
  | .insert i key value => vars.modify i (M.insert key value)
  | .extend i rows => vars.modify i (M.extend rows)
  | .retaining i j =>
      vars ++ ((vars[i]?).bind fun e => (vars[j]?).map fun previous => M.retaining e previous).toList

def run (M : Maps α) (ops : List Op) : List α := ops.foldl M.step []

/-- One kind of map simulates another. -/
structure Simulates (M : Maps α) (N : Maps β) (R : α → β → Prop) : Prop where
  new : R M.new N.new
  insert : ∀ {a b} key value, R a b → R (M.insert key value a) (N.insert key value b)
  extend : ∀ {a b} rows, R a b → R (M.extend rows a) (N.extend rows b)
  retaining : ∀ {a b a' b'}, R a b → R a' b' → R (M.retaining a a') (N.retaining b b')

variable {M : Maps α} {N : Maps β} {R : α → β → Prop}

theorem forall₂_get {xs : List α} {ys : List β} (h : List.Forall₂ R xs ys) (i : Nat) :
    Option.Rel R xs[i]? ys[i]? := by
  induction h generalizing i with
  | nil => exact .none
  | cons hab _ ih =>
      cases i with
      | zero => exact .some hab
      | succ i => exact ih i

theorem forall₂_toList {x : Option α} {y : Option β} (h : Option.Rel R x y) :
    List.Forall₂ R x.toList y.toList := by
  cases h with
  | some hab => exact .cons hab .nil
  | none => exact .nil

theorem forall₂_modify {xs : List α} {ys : List β} (h : List.Forall₂ R xs ys) (i : Nat) {f : α → α}
    {g : β → β} (hfg : ∀ {a b}, R a b → R (f a) (g b)) :
    List.Forall₂ R (xs.modify i f) (ys.modify i g) := by
  induction h generalizing i with
  | nil => cases i <;> exact .nil
  | cons hxy hrest ih =>
      cases i with
      | zero => exact .cons (hfg hxy) hrest
      | succ i => exact .cons hxy (ih i)

/-- One step keeps the variables related. -/
theorem Simulates.step (h : Simulates M N R) {xs : List α} {ys : List β}
    (hxy : List.Forall₂ R xs ys) (op : Op) : List.Forall₂ R (M.step xs op) (N.step ys op) := by
  cases op with
  | create => exact List.rel_append hxy (.cons h.new .nil)
  | clone i => exact List.rel_append hxy (forall₂_toList (forall₂_get hxy i))
  | insert i key value => exact forall₂_modify hxy i (h.insert key value)
  | extend i rows => exact forall₂_modify hxy i (h.extend rows)
  | retaining i j =>
      refine List.rel_append hxy (forall₂_toList ?_)
      have hi := forall₂_get hxy i
      have hj := forall₂_get hxy j
      revert hi hj
      generalize xs[i]? = x
      generalize ys[i]? = y
      generalize xs[j]? = x'
      generalize ys[j]? = y'
      rintro (⟨hab⟩ | _) (⟨hab'⟩ | _)
      · exact .some (h.retaining hab hab')
      · exact .none
      · exact .none
      · exact .none

/-- **A simulation holds at the end of every program.** -/
theorem Simulates.run (h : Simulates M N R) (ops : List Op) :
    List.Forall₂ R (M.run ops) (N.run ops) := by
  unfold Maps.run
  generalize hxs : ([] : List α) = xs
  generalize hys : ([] : List β) = ys
  have hxy : List.Forall₂ R xs ys := by
    rw [← hxs, ← hys]
    exact .nil
  clear hxs hys
  induction ops generalizing xs ys with
  | nil => exact hxy
  | cons op ops ih => exact ih _ _ (h.step hxy op)

end Maps

-- ── Plain maps ────

/-- Messages by key. -/
abbrev Reference := Key → Option SignedMessage

namespace Reference

variable (keep : SignedMessage → SignedMessage → Bool)

/-- Set the message of a key, where `keep` may keep the one that is there. -/
def set (key : Key) (value : SignedMessage) (m : Reference) : Reference := fun k =>
  if k = key then some (SearchTree.chosen keep value (m key)) else m k

theorem set_self (key : Key) (value : SignedMessage) (m : Reference) :
    m.set keep key value key = some (SearchTree.chosen keep value (m key)) := if_pos rfl

/-- The messages of a map over those of another. -/
def overlay (m previous : Reference) : Reference := fun k =>
  match m k with
  | none => previous k
  | some value => some (SearchTree.chosen keep value (previous k))

end Reference

/-- Programs over plain maps. -/
def references (keep : SignedMessage → SignedMessage → Bool) : Maps Reference where
  new := fun _ => none
  insert := Reference.set keep
  extend := fun rows m => rows.foldl (fun m row => Reference.set keep row.1 row.2 m) m
  retaining := Reference.overlay keep

/-- The last message of a key wins. -/
def lastWins : SignedMessage → SignedMessage → Bool := fun _ _ => false

section Trees

variable (sha256 : Octets → Digest)

/-- Programs over trees. -/
def trees : Maps Evidence where
  new := .new
  insert := fun key value e => (e.insert sha256 key value).1
  extend := fun rows e => e.extend sha256 rows
  retaining := fun e previous => e.retaining sha256 previous

/-- The hash of the record of a message. -/
def recordHash (m : SignedMessage) : Digest := hash sha256 BLOB m.encode

/-- Two messages whose records hash alike. -/
def sameRecord (value old : SignedMessage) : Bool := recordHash sha256 value = recordHash sha256 old

/-- Two maps whose records hash alike at every key. -/
def Alike (m m' : Reference) : Prop :=
  ∀ key, (m key).map (recordHash sha256) = (m' key).map (recordHash sha256)

variable {sha256}

/-- Whatever is chosen has the record that came last. -/
theorem recordHash_chosen (value : SignedMessage) (old : Option SignedMessage) :
    recordHash sha256 (SearchTree.chosen (sameRecord sha256) value old)
      = recordHash sha256 value := by
  unfold SearchTree.chosen
  cases old with
  | none => rfl
  | some old =>
      dsimp only
      split
      · rename_i h
        exact (of_decide_eq_true h).symm
      · rfl

theorem alike_set {m m' : Reference} (h : Alike sha256 m m') (key : Key) (value : SignedMessage) :
    Alike sha256 (m.set (sameRecord sha256) key value) (m'.set lastWins key value) := by
  intro k
  unfold Reference.set
  by_cases hk : k = key
  · rw [if_pos hk, if_pos hk, Option.map_some, Option.map_some, recordHash_chosen]
    cases m' key with
    | none => rfl
    | some old => rfl
  · rw [if_neg hk, if_neg hk]
    exact h k

/-- **Records are those of the last messages**, whatever is kept. -/
theorem references_simulate :
    Maps.Simulates (references (sameRecord sha256)) (references lastWins) (Alike sha256) where
  new := fun _ => rfl
  insert := fun key value h => alike_set h key value
  extend := fun {a b} rows h => by
    show Alike sha256 (rows.foldl _ a) (rows.foldl _ b)
    induction rows generalizing a b with
    | nil => exact h
    | cons row rows ih => exact ih (alike_set h row.1 row.2)
  retaining := fun {a b a' b'} h h' => by
    intro k
    show Option.map _ (Reference.overlay _ a a' k) = Option.map _ (Reference.overlay _ b b' k)
    have hk := h k
    unfold Reference.overlay
    cases ha : a k with
    | none =>
        rw [ha] at hk
        rw [Option.map_eq_none_iff.mp hk.symm]
        exact h' k
    | some value =>
        rw [ha] at hk
        obtain ⟨value', hvalue', heq⟩ := Option.map_eq_some_iff.mp hk.symm
        rw [hvalue', Option.map_some, Option.map_some, recordHash_chosen, ← heq]
        cases b' k with
        | none => rfl
        | some old => rfl

-- ── Trees as maps ────

/-- Evidence that is a balanced search tree, and the map it stands for. -/
structure Represents (sha256 : Octets → Digest) (e : Evidence) (m : Reference) : Prop where
  built : Built sha256 e.root
  balanced : (shape e.root).Balanced
  ordered : (shape e.root).Ordered rank
  get_eq : ∀ key, e.get key = m key

theorem Built.entry {n : Link} (h : Built sha256 n) {e : Entry} (he : e ∈ (shape n).toList) :
    entryOf sha256 e.key e.value = e := by
  revert he
  refine h.rules (P := fun n => e ∈ (shape n).toList → _) (fun he => nomatch he) ?_
  intro entry left right hentry _ _ ihl ihr he
  rw [shape_make, SearchTree.toList, List.mem_append, List.mem_cons] at he
  rcases he with he | rfl | he
  · exact ihl he
  · exact hentry
  · exact ihr he

theorem Represents.find_eq {e : Evidence} {m : Reference} (h : Represents sha256 e m) (key : Key) :
    ((shape e.root).find rank (keyRank key)).map Entry.value = m key := by
  rw [← search_eq]
  exact h.get_eq key

/-- What an insertion of an entry makes of a tree that stands for a map. -/
theorem Represents.insertEntry {e : Evidence} {m : Reference} (h : Represents sha256 e m)
    {entry : Entry} (hentry : entryOf sha256 entry.key entry.value = entry) :
    Represents sha256 ⟨(insertEntry sha256 entry e.root).tree⟩
        (m.set (sameRecord sha256) entry.key entry.value) ∧
      (CbclEvidence.insertEntry sha256 entry e.root).old.map Entry.value = m entry.key := by
  obtain ⟨hbuilt, hshape, -, hold⟩ := insertEntry_spec hentry h.built h.balanced
  refine ⟨⟨hbuilt, ?_, ?_, fun key => ?_⟩, ?_⟩
  · rw [hshape]
    exact (SearchTree.balanced_insert h.balanced).1
  · rw [hshape]
    exact SearchTree.ordered_insert h.ordered
  · show (Evidence.search key _).map Entry.value = _
    rw [search_eq, hshape, SearchTree.find_insert h.ordered]
    unfold Reference.set
    by_cases hkey : key = entry.key
    · rw [if_pos (keyRank_inj.mpr hkey), if_pos hkey, Option.map_some, ← h.find_eq entry.key]
      refine congrArg some ?_
      cases hfind : (shape e.root).find rank (keyRank entry.key) with
      | none => rfl
      | some old =>
          -- an entry keeps its place by its record, and so does a message
          have hmem := ((SearchTree.find_eq_some_iff h.ordered).mp hfind).1
          have hkeep : keep entry old = sameRecord sha256 entry.value old.value := by
            have hnew : entry.blob = recordHash sha256 entry.value :=
              (congrArg Entry.blob hentry).symm
            have hheld : old.blob = recordHash sha256 old.value :=
              (congrArg Entry.blob (h.built.entry hmem)).symm
            unfold keep sameRecord
            rw [hnew, hheld]
          show (if keep entry old then old else entry).value
            = if sameRecord sha256 entry.value old.value then old.value else entry.value
          rw [hkeep]
          split
          · rfl
          · rfl
    · rw [if_neg (fun hrank => hkey (keyRank_inj.mp hrank)), if_neg hkey]
      exact h.find_eq key
  · rw [hold]
    exact h.find_eq entry.key

theorem Represents.insert {e : Evidence} {m : Reference} (h : Represents sha256 e m) (key : Key)
    (value : SignedMessage) : Represents sha256 (e.insert sha256 key value).1
      (m.set (sameRecord sha256) key value) :=
  (@Represents.insertEntry sha256 e m h (entryOf sha256 key value) rfl).1

/-- The message that comes back from an insertion is the one there was. -/
theorem Represents.insert_old {e : Evidence} {m : Reference} (h : Represents sha256 e m) (key : Key)
    (value : SignedMessage) : (e.insert sha256 key value).2 = m key :=
  (@Represents.insertEntry sha256 e m h (entryOf sha256 key value) rfl).2

/-- Inserting entries of different keys in turn sets the messages of those keys. -/
theorem Represents.insertAll {xs : List Entry} {e : Evidence} {m : Reference}
    (h : Represents sha256 e m) (hxs : ∀ x ∈ xs, entryOf sha256 x.key x.value = x)
    (hkeys : xs.Pairwise fun x y => rank x < rank y) :
    ∃ m', Represents sha256
        (xs.foldl (fun out entry => ⟨(CbclEvidence.insertEntry sha256 entry out.root).tree⟩) e) m' ∧
      (∀ x ∈ xs, m' x.key = some (SearchTree.chosen (sameRecord sha256) x.value (m x.key))) ∧
      ∀ key, (∀ x ∈ xs, x.key ≠ key) → m' key = m key := by
  induction xs generalizing e m with
  | nil => exact ⟨m, h, (fun _ hx => nomatch hx), fun _ _ => rfl⟩
  | cons x xs ih =>
      obtain ⟨hx, hrest⟩ := List.pairwise_cons.mp hkeys
      obtain ⟨m', hm', hin, hout⟩ := ih (h.insertEntry (hxs x (List.mem_cons_self ..))).1
        (fun y hy => hxs y (List.mem_cons_of_mem _ hy)) hrest
      have hne : ∀ y ∈ xs, y.key ≠ x.key := fun y hy heq =>
        absurd (hx y hy) (by unfold rank; rw [heq]; exact lt_irrefl _)
      refine ⟨m', hm', ?_, fun key hkey => ?_⟩
      · intro y hy
        rcases List.mem_cons.mp hy with rfl | hy
        · rw [hout y.key hne]
          exact if_pos rfl
        · rw [hin y hy]
          exact congrArg (fun o => some (SearchTree.chosen _ y.value o)) (if_neg (hne y hy))
      · rw [hout key fun y hy => hkey y (List.mem_cons_of_mem _ hy)]
        exact if_neg fun heq => hkey x (List.mem_cons_self ..) heq.symm

/-- **The trees simulate plain maps.** -/
theorem trees_simulate : Maps.Simulates (trees sha256) (references (sameRecord sha256))
    (Represents sha256) where
  new := ⟨trivial, trivial, .nil, fun _ => rfl⟩
  insert := fun key value h => h.insert key value
  extend := fun {a b} rows h => by
    show Represents sha256 (rows.foldl _ a) (rows.foldl _ b)
    induction rows generalizing a b with
    | nil => exact h
    | cons row rows ih => exact ih (h.insert row.1 row.2)
  retaining := fun {a b a' b'} h h' => by
    show Represents sha256 ((entries a.root).foldl _ a') (Reference.overlay _ b b')
    rw [entries_eq]
    obtain ⟨m, hm, hin, hout⟩ := h'.insertAll (fun x hx => h.built.entry hx) h.ordered
    have heq : m = Reference.overlay (sameRecord sha256) b b' := by
      funext key
      unfold Reference.overlay
      cases hfind : (shape a.root).find rank (keyRank key) with
      | none =>
          have hnone : b key = none := by
            rw [← h.find_eq key, hfind]
            rfl
          rw [hnone]
          refine hout key fun x hx hkey => ?_
          have hsome := (SearchTree.find_eq_some_iff h.ordered).mpr ⟨hx, rfl⟩
          rw [show rank x = keyRank key from congrArg keyRank hkey, hfind] at hsome
          exact nomatch hsome
      | some x =>
          have hsome : b key = some x.value := by
            rw [← h.find_eq key, hfind]
            rfl
          obtain ⟨hx, hkey⟩ := (SearchTree.find_eq_some_iff h.ordered).mp hfind
          obtain rfl := keyRank_inj.mp hkey
          rw [hsome]
          exact hin x hx
    rw [← heq]
    exact hm

end Trees

-- ── Programs with an archive ────

/-- The variables of a program and its archive. -/
structure System where
  vars : List Evidence
  archive : Cache

/-- What happens: a step of the program, a variable is saved, or other octets are archived. -/
inductive Event where
  | op (o : Op)
  | persist (source : Nat)
  | put (bytes : Octets)

/-- The variable an event writes. -/
def Event.target : Event → Option Nat
  | .op (.insert i _ _) => some i
  | .op (.extend i _) => some i
  | _ => none

/-- The steps of the program among some events. -/
def opsOf (events : List Event) : List Op :=
  events.filterMap fun event => match event with
    | .op o => some o
    | _ => none

namespace System

variable (sha256 : Octets → Digest)

def start : System := ⟨[], .empty⟩

def step (s : System) : Event → System
  | .op o => { s with vars := (trees sha256).step s.vars o }
  | .persist i =>
      { s with archive := (s.vars[i]?).elim s.archive fun e => (e.persist sha256 s.archive).1 }
  | .put bytes => { s with archive := (s.archive.put sha256 bytes).1 }

def run (s : System) (events : List Event) : System := events.foldl (step sha256) s

/-- The octets an event may archive. -/
def offered (s : System) : Event → List Octets
  | .op _ => []
  | .persist i => (s.vars[i]?).elim [] fun e => octetsOf e.root
  | .put bytes => [bytes]

/-- The octets some events may archive. -/
def offeredIn (s : System) : List Event → List Octets
  | [] => []
  | event :: events => s.offered event ++ offeredIn (s.step sha256 event) events

variable {sha256}

theorem run_vars (events : List Event) (s : System) :
    (s.run sha256 events).vars = (opsOf events).foldl (trees sha256).step s.vars := by
  unfold run
  induction events generalizing s with
  | nil => rfl
  | cons event events ih =>
      rw [List.foldl_cons, ih]
      cases event with
      | op o => rfl
      | persist i => rfl
      | put bytes => rfl

theorem offeredIn_append (events events' : List Event) (s : System) :
    s.offeredIn sha256 (events ++ events')
      = s.offeredIn sha256 events ++ (s.run sha256 events).offeredIn sha256 events' := by
  induction events generalizing s with
  | nil => rfl
  | cons event events ih =>
      rw [List.cons_append, offeredIn, offeredIn, ih, List.append_assoc]
      rfl

/-- **Every event keeps the archive closed.** -/
theorem closed_step {S : Set Octets} (hinj : Set.InjOn (hash sha256 BLOB) S) {s : System}
    (hvars : ∀ e ∈ s.vars, Built sha256 e.root) (h : Closed sha256 S s.archive) {event : Event}
    (hS : ∀ os ∈ s.offered event, os ∈ S) (hplain : ∀ os, event = .put os → Plain os) :
    Closed sha256 S (s.step sha256 event).archive := by
  cases event with
  | op o => exact h
  | put os =>
      exact h.put (hS os (List.mem_singleton_self os))
        fun key r hrecord => absurd hrecord (hplain os rfl key r)
  | persist i =>
      show Closed sha256 S ((s.vars[i]?).elim s.archive fun e => (e.persist sha256 s.archive).1)
      have hS' : ∀ os ∈ (s.vars[i]?).elim [] (fun e => octetsOf e.root), os ∈ S := hS
      cases hi : s.vars[i]? with
      | none => exact h
      | some e =>
          rw [hi] at hS'
          show Closed sha256 S (e.persist sha256 s.archive).1
          cases hover : overBudget e.root with
          | true =>
              unfold Evidence.persist
              rw [hover]
              exact h
          | false =>
              obtain ⟨c, hpersist, hclosed, -⟩ := persist_spec hinj
                (hvars e (List.mem_of_getElem? hi)) (overBudget_eq_false_iff.mp hover) hS' h
              rw [hpersist]
              exact hclosed

/-- The trees of a run are built, whatever else happens. -/
theorem built_run (events : List Event) :
    ∀ e ∈ (start.run sha256 events).vars, Built sha256 e.root := by
  intro e he
  rw [run_vars] at he
  obtain ⟨i, hi⟩ := List.mem_iff_getElem?.mp he
  have hrel := Maps.forall₂_get ((@trees_simulate sha256).run (opsOf events)) i
  unfold Maps.run at hrel
  rw [show start.vars = [] from rfl] at hi
  rw [hi] at hrel
  generalize (List.foldl _ _ _ : List Reference)[i]? = y at hrel
  cases hrel with
  | some hab => exact hab.built

/-- **The archive of a run is closed.** -/
theorem closed_run {S : Set Octets} (hinj : Set.InjOn (hash sha256 BLOB) S) (events : List Event)
    (hS : ∀ os ∈ start.offeredIn sha256 events, os ∈ S)
    (hplain : ∀ os, Event.put os ∈ events → Plain os) :
    Closed sha256 S (start.run sha256 events).archive := by
  induction events using List.reverseRecOn with
  | nil => exact closed_empty
  | append_singleton events event ih =>
      rw [offeredIn_append] at hS
      have hclosed := ih (fun os hos => hS os (List.mem_append_left _ hos))
        fun os hos => hplain os (List.mem_append_left _ hos)
      have hrun : start.run sha256 (events ++ [event])
          = (start.run sha256 events).step sha256 event := List.foldl_append ..
      rw [hrun]
      refine closed_step hinj (built_run events) hclosed (fun os hos => ?_) ?_
      · refine hS os (List.mem_append_right _ ?_)
        rw [offeredIn, offeredIn, List.append_nil]
        exact hos
      · rintro os rfl
        exact hplain os (List.mem_append_right _ (List.mem_singleton_self _))

end System

/-- The subtrees of a tree. -/
def subtrees : Link → List Link
  | .nil => []
  | .node entry left right h s b rec bytes blob =>
      .node entry left right h s b rec bytes blob :: (subtrees left ++ subtrees right)

theorem subtrees_make {sha256 : Octets → Digest} (entry : Entry) (left right : Link) :
    subtrees (make sha256 entry left right)
      = make sha256 entry left right :: (subtrees left ++ subtrees right) := rfl

/-- Evidence that is a balanced map: `m` is the map it stands for, `last` the one in which the last
    message of a key wins. -/
structure Faithful (sha256 : Octets → Digest) (e : Evidence) (m last : Reference) : Prop where
  ordered : e.iter.Pairwise fun a b => keyRank a.1 < keyRank b.1
  balanced : ∀ n ∈ subtrees e.root, height (children n).1 ≤ height (children n).2 + 1 ∧
    height (children n).2 ≤ height (children n).1 + 1
  summed : ∀ n ∈ subtrees e.root, Summed n
  get_eq : ∀ key, e.get key = m key
  iter_iff : ∀ key value, (key, value) ∈ e.iter ↔ m key = some value
  records : ∀ key, (e.get key).map (recordHash sha256) = (last key).map (recordHash sha256)
  insert_old : ∀ key value, (e.insert sha256 key value).2 = m key

section Claims

variable {sha256 : Octets → Digest}

theorem Built.summed_subtrees {n : Link} (h : Built sha256 n) : ∀ t ∈ subtrees n, Summed t := by
  refine h.rules (P := fun n => ∀ t ∈ subtrees n, Summed t) (fun t ht => nomatch ht) ?_
  intro entry left right hentry hl hr ihl ihr t ht
  rw [subtrees_make, List.mem_cons, List.mem_append] at ht
  rcases ht with rfl | ht | ht
  · exact (built_make hentry hl hr).summed
  · exact ihl t ht
  · exact ihr t ht

theorem Built.balanced_subtrees {n : Link} (h : Built sha256 n) (hbal : (shape n).Balanced) :
    ∀ t ∈ subtrees n, height (children t).1 ≤ height (children t).2 + 1 ∧
      height (children t).2 ≤ height (children t).1 + 1 := by
  revert hbal
  refine h.rules (P := fun n => (shape n).Balanced → ∀ t ∈ subtrees n,
    height (children t).1 ≤ height (children t).2 + 1 ∧
      height (children t).2 ≤ height (children t).1 + 1) (fun _ t ht => nomatch ht) ?_
  intro entry left right _ hl hr ihl ihr ⟨hlr, hrl, hbl, hbr⟩ t ht
  rw [subtrees_make, List.mem_cons, List.mem_append] at ht
  rcases ht with rfl | ht | ht
  · rw [height_shape hl, height_shape hr] at hlr hrl
    exact ⟨hlr, hrl⟩
  · exact ihl hbl t ht
  · exact ihr hbr t ht

theorem Represents.faithful {e : Evidence} {m last : Reference} (h : Represents sha256 e m)
    (halike : Alike sha256 m last) : Faithful sha256 e m last := by
  have hiter : e.iter = (shape e.root).toList.map fun entry => (entry.key, entry.value) := by
    unfold Evidence.iter
    rw [entries_eq]
  refine ⟨?_, h.built.balanced_subtrees h.balanced, h.built.summed_subtrees, h.get_eq, ?_, ?_,
    h.insert_old⟩
  · rw [hiter, List.pairwise_map]
    exact h.ordered
  · intro key value
    rw [hiter, List.mem_map, ← h.find_eq key, Option.map_eq_some_iff]
    constructor
    · rintro ⟨entry, hmem, heq⟩
      obtain ⟨rfl, rfl⟩ := Prod.mk.inj heq
      exact ⟨entry, (SearchTree.find_eq_some_iff h.ordered).mpr ⟨hmem, rfl⟩, rfl⟩
    · rintro ⟨entry, hfind, rfl⟩
      obtain ⟨hmem, hkey⟩ := (SearchTree.find_eq_some_iff h.ordered).mp hfind
      exact ⟨entry, hmem, by rw [keyRank_inj.mp hkey]⟩
  · intro key
    rw [h.get_eq]
    exact halike key

/-- A variable that an event does not write is unchanged. -/
theorem step_other {s : System} {event : Event} {i : Nat} {e : Evidence}
    (hi : s.vars[i]? = some e) (hother : event.target ≠ some i) :
    (s.step sha256 event).vars[i]? = some e := by
  have hlt : i < s.vars.length := (List.getElem?_eq_some_iff.mp hi).1
  cases event with
  | persist => exact hi
  | put => exact hi
  | op o =>
      cases o with
      | create => exact (List.getElem?_append_left hlt).trans hi
      | clone => exact (List.getElem?_append_left hlt).trans hi
      | retaining => exact (List.getElem?_append_left hlt).trans hi
      | insert j key value =>
          show (s.vars.modify j _)[i]? = some e
          rw [List.getElem?_modify, hi]
          exact congrArg some (if_neg fun heq => hother (congrArg some heq))
      | extend j rows =>
          show (s.vars.modify j _)[i]? = some e
          rw [List.getElem?_modify, hi]
          exact congrArg some (if_neg fun heq => hother (congrArg some heq))

/-- **Evidence is a balanced map that survives persistence.**  After any events, every variable is a
    balanced map that agrees with the plain map of the same program, in which a message replaces
    that of its key unless both have records that hash alike; so the records are those of the last
    messages.  An event leaves the other variables alone.  And what `persist` reports as saved is
    recovered, provided that no two octets offered to the archive share a hash and none that were
    archived otherwise look like the record of a node. -/
theorem evidence_kept (sha256 : Octets → Digest) (verify : String → Octets → Octets → Bool)
    (events : List Event) :
    (∀ (i : Nat) (e : Evidence), (System.start.run sha256 events).vars[i]? = some e →
      (∃ m last, ((references (sameRecord sha256)).run (opsOf events))[i]? = some m ∧
        ((references lastWins).run (opsOf events))[i]? = some last ∧ Faithful sha256 e m last) ∧
      (∀ event : Event, event.target ≠ some i →
        ((System.start.run sha256 events).step sha256 event).vars[i]? = some e) ∧
      (Set.InjOn (hash sha256 BLOB)
          {os | os ∈ System.start.offeredIn sha256 (events ++ [.persist i])} →
        (∀ os, Event.put os ∈ events → Plain os) →
        (∀ row ∈ e.iter, Readable sha256 verify row.2) →
        ∀ c root, e.persist sha256 (System.start.run sha256 events).archive = (c, .ok root) →
          recover sha256 verify c root = .ok e)) := by
  intro i e hi
  have hvars := @System.run_vars sha256 events System.start
  have htrees := Maps.forall₂_get ((@trees_simulate sha256).run (opsOf events)) i
  have hrecords := Maps.forall₂_get ((@references_simulate sha256).run (opsOf events)) i
  have hrun : ((trees sha256).run (opsOf events))[i]? = some e := by
    rw [← hi, hvars]
    rfl
  rw [hrun] at htrees
  cases hm : ((references (sameRecord sha256)).run (opsOf events))[i]? with
  | none =>
      rw [hm] at htrees
      exact nomatch htrees
  | some m =>
  cases hlast : ((references lastWins).run (opsOf events))[i]? with
  | none =>
      rw [hm, hlast] at hrecords
      exact nomatch hrecords
  | some last =>
  rw [hm] at htrees
  rw [hm, hlast] at hrecords
  obtain ⟨hrep⟩ := htrees
  obtain ⟨halike⟩ := hrecords
  refine ⟨⟨m, last, rfl, rfl, hrep.faithful halike⟩, fun event hother => step_other hi hother, ?_⟩
  intro hinj hplain hread c root hpersist
  have hoffered := @System.offeredIn_append sha256 events [.persist i] System.start
  have hclosed := System.closed_run hinj events (fun os hos => by
    show os ∈ System.start.offeredIn sha256 (events ++ [.persist i])
    rw [hoffered]
    exact List.mem_append_left _ hos) hplain
  have hS : ∀ os ∈ octetsOf e.root,
      os ∈ System.start.offeredIn sha256 (events ++ [.persist i]) := by
    intro os hos
    rw [hoffered]
    refine List.mem_append_right _ ?_
    rw [System.offeredIn, System.offeredIn, List.append_nil, System.offered, hi]
    exact hos
  cases hover : overBudget e.root with
  | true =>
      unfold Evidence.persist at hpersist
      rw [hover, if_pos rfl] at hpersist
      exact nomatch hpersist
  | false =>
      have hwithin := overBudget_eq_false_iff.mp hover
      obtain ⟨c', hsave, -, hsaved⟩ := persist_spec hinj hrep.built hwithin hS hclosed
      obtain ⟨rfl, hroot⟩ := Prod.mk.inj (hsave.symm.trans hpersist)
      injection hroot with hroot
      rw [← hroot]
      refine recover_saved hrep.built hwithin hsaved hrep.balanced hrep.ordered ?_
      intro entry hentry
      refine hread (entry.key, entry.value) ?_
      unfold Evidence.iter
      rw [entries_eq]
      exact List.mem_map_of_mem hentry

end Claims

-- ── A signed bid ────

/-- What the host knows of a message by its address does not decide whether it authenticates. -/
theorem authenticate_any {contentHash contentHash' : Message → String}
    {verify : String → Octets → Octets → Bool} {m : SignedMessage} {a : CbclAct.Act}
    (h : m.authenticate contentHash verify = .ok a) :
    ∃ a', m.authenticate contentHash' verify = .ok a' := by
  unfold SignedMessage.authenticate at h ⊢
  obtain ⟨⟨⟩, hbound, h⟩ := CbclExcept.bind_ok_iff.mp h
  rw [hbound]
  dsimp only [bind, Except.bind]
  split at h
  · exact nomatch h
  · rename_i hlen
    unfold SignedMessage.signedAct at h ⊢
    obtain ⟨⟨unsigned, key, sig⟩, hparts, h⟩ := CbclExcept.bind_ok_iff.mp h
    rw [if_neg hlen, hparts]
    dsimp only [bind, Except.bind] at h ⊢
    split at h
    · exact nomatch h
    · rename_i hverify
      rw [if_neg hverify]
      unfold CbclAct.Act.fromMessage at h ⊢
      cases hsimple : m.message.innermostSimple with
      | none =>
          rw [hsimple] at h
          exact nomatch h
      | some simple =>
          rw [hsimple] at h
          cases hperformative : simple.performative with
          | none =>
              simp only [hperformative] at h
              exact nomatch h
          | some performative =>
              simp only [hperformative] at h ⊢
              obtain ⟨⟨⟩, hsender, -⟩ := CbclExcept.bind_ok_iff.mp h
              exact ⟨_, CbclExcept.bind_ok_iff.mpr ⟨⟨⟩, hsender, rfl⟩⟩

/-- The first bid of `@alice`, signed. -/
def signedBid : SignedMessage :=
  ⟨.wrapped .signed [.atom (.symbol "@alice"), .atom (.str "")]
    (.dialect "auction" CbclPositions.firstBid)⟩

/-- Her second bid, signed. -/
def secondSigned : SignedMessage :=
  ⟨.wrapped .signed [.atom (.symbol "@alice"), .atom (.str "")]
    (.dialect "auction" CbclPositions.secondBid)⟩

/-- The keys of the signed bids. -/
def bidKey : Key := (CbclPositions.firstHash, hash CbclSha256.sha256 WIRE signedBid.encode)

def secondKey : Key := (CbclPositions.secondHash, hash CbclSha256.sha256 WIRE secondSigned.encode)

/-- The tree that holds the first signed bid alone. -/
def bidTree : Link :=
  make CbclSha256.sha256 (entryOf CbclSha256.sha256 bidKey signedBid) .nil .nil

def secondTree : Link :=
  make CbclSha256.sha256 (entryOf CbclSha256.sha256 secondKey secondSigned) .nil .nil

/-- The tree of both. -/
def bothTree : Link :=
  make CbclSha256.sha256 (entryOf CbclSha256.sha256 bidKey signedBid) .nil secondTree

/-- A signed message is read back and authenticated, and is short. -/
def Checked (m : SignedMessage) : Prop :=
  (SignedMessage.decode m.encode).toOption = some m ∧
    (m.authenticate (fun _ => "") verifyAlice).toOption.isSome = true ∧ m.encode.length ≤ 200

/-- What is computed of the signed bids. -/
theorem checked_bids : Checked signedBid ∧ Checked secondSigned := by
  unfold Checked
  decide +kernel

/-- What is computed of their keys: how long they are, and which comes first. -/
theorem bidKeys_runs : (octets CbclPositions.firstHash).length = 71 ∧
    (octets CbclPositions.secondHash).length = 71 ∧ keyRank bidKey < keyRank secondKey := by
  refine ⟨?_, ?_, ?_⟩ <;> decide

/-- The records of the trees and of their messages, and a note, have different hashes. -/
theorem records_nodup : ([nodeBytes bidTree, signedBid.encode, octets "note", nodeBytes bothTree,
    nodeBytes secondTree, secondSigned.encode].map (hash CbclSha256.sha256 BLOB)).Nodup := by
  unfold bothTree secondTree bidTree secondKey bidKey
  rw [CbclSha256Words.sha256_eq]
  decide +kernel

theorem Checked.readable {m : SignedMessage} (h : Checked m) :
    Readable CbclSha256.sha256 verifyAlice m := by
  obtain ⟨hdecode, hauth, -⟩ := h
  refine ⟨?_, ?_⟩
  · cases h : SignedMessage.decode m.encode with
    | error e =>
        rw [h] at hdecode
        exact nomatch hdecode
    | ok m' =>
        rw [h] at hdecode
        rw [Option.some.inj hdecode]
  · cases h : m.authenticate (fun _ => "") verifyAlice with
    | error e =>
        rw [h] at hauth
        exact nomatch hauth
    | ok a => exact authenticate_any h

/-- A key of the address and of the hash of the encoding is valid. -/
theorem keyValid_of_id {sha256 : Octets → Digest} {id : String} {m : SignedMessage}
    (h : idOf sha256 m = .ok id) : keyValid sha256 (id, hash sha256 WIRE m.encode) m = true := by
  unfold keyValid
  rw [h]
  simp only [decide_true, Bool.and_self]

/-- The valid keys of the bids. -/
theorem keyValid_bids : keyValid CbclSha256.sha256 bidKey signedBid = true ∧
    keyValid CbclSha256.sha256 secondKey secondSigned = true := by
  obtain ⟨hfirst, hsecond⟩ := CbclPositions.bid_hashes
  refine ⟨keyValid_of_id ?_, keyValid_of_id ?_⟩
  · show Except.ok (typedRoot CbclSha256.sha256 CbclPositions.firstBid) = _
    rw [hfirst]
  · show Except.ok (typedRoot CbclSha256.sha256 CbclPositions.secondBid) = _
    rw [hsecond]

theorem length_putLink_le (h : Option Digest) : (putLink h).length ≤ 33 := by
  cases h with
  | none => exact Nat.le_add_left 1 32
  | some d => exact Nat.le_of_eq (congrArg (· + 1) d.length_toList)

theorem length_madeBody_le (entry : Entry) (left right : Link) :
    (madeBody entry left right).length ≤ (octets entry.key.1).length + 174 := by
  have hmagic : (octets MAGIC).length = 32 := rfl
  have hleft := length_putLink_le (nodeHash left)
  have hright := length_putLink_le (nodeHash right)
  show (octets MAGIC ++ (putU32 (octets entry.key.1).length ++ octets entry.key.1)
    ++ entry.key.2.toList ++ entry.blob.toList ++ putLink (nodeHash left)
    ++ putLink (nodeHash right) ++ putU32 _ ++ putU32 _).length ≤ _
  simp only [List.length_append, length_putU32, hmagic, Vector.length_toList]
  omega

/-- What the recovery of a node reads is at most the sum of what it reads for the parts. -/
theorem recoveryBytes_make_le (sha256 : Octets → Digest) (entry : Entry) (left right : Link) :
    recoveryBytes (make sha256 entry left right) ≤ (madeBody entry left right).length + 8
      + entry.encoded_len + recoveryBytes left + recoveryBytes right := by
  rw [recoveryBytes_make]
  simp only [saturatingAdd_saturatingAdd]
  rw [saturatingAdd_eq]
  exact Nat.min_le_left _ _

/-- A short message under a valid key over two small trees. -/
theorem withinBounds_make {sha256 : Octets → Digest} {key : Key} {m : SignedMessage}
    {left right : Link} (hvalid : keyValid sha256 key m = true)
    (hid : (octets key.1).length = 71) (hlen : m.encode.length ≤ 200) (hl : WithinBounds left)
    (hr : WithinBounds right) (hheight : max (height left) (height right) ≤ 1)
    (hsize : size left + size right ≤ 1)
    (hbytes : recoveryBytes left + recoveryBytes right ≤ 1000) :
    WithinBounds (make sha256 (entryOf sha256 key m) left right) := by
  have hbody := length_madeBody_le (entryOf sha256 key m) left right
  have htotal := recoveryBytes_make_le sha256 (entryOf sha256 key m) left right
  rw [entryOf_key, hid] at hbody
  rw [entryOf_encoded_len] at htotal
  refine ⟨?_, ?_, ?_⟩
  · rw [recoverable_make, length_nodeBytes_make, entryOf_key_valid, hvalid, entryOf_key,
      entryOf_encoded_len, hl.recoverable, hr.recoverable, hid]
    have hheight' : height (make sha256 (entryOf sha256 key m) left right) ≤ MAX_DEPTH :=
      (Nat.add_le_add_left hheight 1).trans (by decide)
    have hrecord : (madeBody (entryOf sha256 key m) left right).length + 8 ≤ MAX_NODE_BYTES :=
      (Nat.add_le_add_right hbody 8).trans (by decide)
    simp only [Bool.and_eq_true, decide_eq_true_eq]
    exact ⟨⟨⟨⟨⟨⟨trivial, by decide⟩, hlen.trans (by decide)⟩, hrecord⟩, hheight'⟩, trivial⟩, trivial⟩
  · rw [size_make, saturatingAdd_saturatingAdd, saturatingAdd_eq]
    exact (Nat.min_le_left _ _).trans (le_trans (by omega : _ ≤ 2) (by decide))
  · exact htotal.trans (le_trans (by omega : _ ≤ 1453) (by decide))

theorem bidTrees_within : WithinBounds bidTree ∧ WithinBounds bothTree := by
  obtain ⟨hfirst, hsecond⟩ := keyValid_bids
  obtain ⟨⟨-, -, hfirstLen⟩, -, -, hsecondLen⟩ := checked_bids
  obtain ⟨hfirstId, hsecondId, -⟩ := bidKeys_runs
  have hnil : WithinBounds .nil := ⟨rfl, Nat.zero_le _, Nat.zero_le _⟩
  have hleaf : WithinBounds secondTree :=
    withinBounds_make hsecond hsecondId hsecondLen hnil hnil (by decide) (by decide) (by decide)
  have hbytes : recoveryBytes secondTree ≤ 453 := by
    have hbody := length_madeBody_le (entryOf CbclSha256.sha256 secondKey secondSigned) .nil .nil
    have htotal := recoveryBytes_make_le CbclSha256.sha256
      (entryOf CbclSha256.sha256 secondKey secondSigned) .nil .nil
    rw [entryOf_key, show (octets secondKey.1).length = 71 from hsecondId] at hbody
    rw [entryOf_encoded_len] at htotal
    have hzero : recoveryBytes .nil = 0 := rfl
    unfold secondTree
    omega
  refine ⟨withinBounds_make hfirst hfirstId hfirstLen hnil hnil (by decide) (by decide) (by decide),
    withinBounds_make hfirst hfirstId hfirstLen hnil hleaf (Nat.le_refl 1) (Nat.le_refl 1) ?_⟩
  rw [show recoveryBytes .nil = 0 from rfl, Nat.zero_add]
  exact hbytes.trans (by decide)

/-- A tree is saved by a shortcut if the record of its root is in the archive. -/
theorem persist_shortcut {sha256 : Octets → Digest} {e : Evidence} {c : Cache} {id : Digest}
    (hwithin : WithinBounds e.root) (hroot : nodeHash e.root = some id)
    (hheld : c.containsTrusted id = true) : e.persist sha256 c = (c, .ok (some id)) := by
  unfold Evidence.persist
  rw [overBudget_eq_false_iff.mpr hwithin, if_neg Bool.false_ne_true]
  cases e with
  | mk root =>
  cases root with
  | nil => exact nomatch hroot
  | node entry left right h s b rec bytes blob =>
      obtain rfl := Option.some.inj hroot
      have hsave : save sha256 (.node entry left right h s b rec bytes blob) c = (c, .ok ()) := by
        unfold save
        exact if_pos hheld
      dsimp only
      rw [hsave]
      rfl

/-- A tree whose message is not in the archive is not recovered. -/
theorem recover_fails {sha256 : Octets → Digest} {verify : String → Octets → Octets → Bool}
    {c : Cache} {entry : Entry} {left right : Link}
    (hwithin : WithinBounds (make sha256 entry left right)) (hnone : c.lookup entry.blob = none)
    (hlookup : c.lookup (hash sha256 BLOB (nodeBytes (make sha256 entry left right)))
      = some (nodeBytes (make sha256 entry left right))) (e : Evidence) :
    recover sha256 verify c (nodeHash (make sha256 entry left right)) ≠ .ok e := by
  intro hrecover
  rw [nodeHash_make] at hrecover
  obtain ⟨⟨node, b⟩, hload, -⟩ := CbclExcept.bind_ok_iff.mp hrecover
  obtain ⟨rest, hkey, hrest⟩ := isRecord_make hwithin
  have hdepth : MAX_DEPTH = 63 + 1 := rfl
  rw [hdepth] at hload
  unfold load at hload
  rw [if_neg (by decide)] at hload
  obtain ⟨bytes, hread, hload⟩ := CbclExcept.bind_ok_iff.mp hload
  obtain rfl := Except.ok.inj ((readOnce_ok hlookup hwithin.node.record_le).symm.trans hread)
  dsimp only at hload
  split at hload
  · cases hload
  rw [if_neg (not_not_intro rfl)] at hload
  obtain ⟨⟨key, rest'⟩, hkey', hload⟩ := CbclExcept.bind_ok_iff.mp hload
  obtain ⟨rfl, rfl⟩ := Prod.mk.inj (Except.ok.inj (hkey.symm.trans hkey'))
  dsimp only at hload
  split at hload
  · cases hload
  obtain ⟨r, hrest', hload⟩ := CbclExcept.bind_ok_iff.mp hload
  obtain rfl := Except.ok.inj (hrest.symm.trans hrest')
  obtain ⟨⟨l, b₁⟩, -, hload⟩ := CbclExcept.bind_ok_iff.mp hload
  obtain ⟨⟨r, b₂⟩, -, hload⟩ := CbclExcept.bind_ok_iff.mp hload
  dsimp only at hload
  split at hload
  · cases hload
  -- the message is asked for last, and is not there
  obtain ⟨⟨entry', b₃⟩, hvalue, -⟩ := CbclExcept.bind_ok_iff.mp hload
  unfold loadValue at hvalue
  split at hvalue
  · cases hvalue
  obtain ⟨body, hbody, -⟩ := CbclExcept.bind_ok_iff.mp hvalue
  unfold Cache.readOnce at hbody
  rw [hnone] at hbody
  cases hbody

/-- A tell, and a message of a performative of that name. -/
def tell : SignedMessage := ⟨.simple (.core .tell) none (.atom (.str "x")) [] none none none⟩

def customTell : SignedMessage :=
  ⟨.simple (.custom "tell") none (.atom (.str "x")) [] none none none⟩

/-- Both under one key. -/
def bothTells : List Event :=
  [.op .create, .op (.insert 0 bidKey tell), .op (.insert 0 bidKey customTell)]

/-- The first signed bid is inserted. -/
def bidEvents : List Event := [.op .create, .op (.insert 0 bidKey signedBid)]

/-- The first signed bid is inserted, and the record of its tree archived. -/
def recordOnly : List Event := bidEvents ++ [.put (nodeBytes bidTree)]

/-- The first bid is saved, the evidence is cloned, a note is archived, and the second bid inserted. -/
def savedOnce : List Event :=
  bidEvents ++ [.persist 0, .op (.clone 0), .put (octets "note"),
    .op (.insert 0 secondKey secondSigned)]

theorem bidTree_readable :
    ∀ row ∈ (Evidence.mk bidTree).iter, Readable CbclSha256.sha256 verifyAlice row.2 := by
  intro row hrow
  have hiter : (Evidence.mk bidTree).iter = [(bidKey, signedBid)] := rfl
  rw [hiter, List.mem_singleton] at hrow
  rw [hrow]
  exact checked_bids.1.readable

theorem lookup_record : Cache.lookup ⟨[(hash CbclSha256.sha256 BLOB (nodeBytes bidTree),
    nodeBytes bidTree)]⟩ (hash CbclSha256.sha256 BLOB (nodeBytes bidTree))
      = some (nodeBytes bidTree) :=
  (lookup_insert Cache.empty _ _ _).trans (if_pos rfl)

theorem length_bidRecord : (nodeBytes bidTree).length ≤ MAX_NODE_BYTES :=
  bidTrees_within.1.node.record_le

/-- Octets that are not there yet are archived. -/
theorem put_fresh {sha256 : Octets → Digest} {c : Cache} {bytes : Octets}
    (hlen : bytes.length ≤ MAX_BLOB_BYTES) (hnone : c.lookup (hash sha256 BLOB bytes) = none) :
    c.put sha256 bytes
      = (⟨(hash sha256 BLOB bytes, bytes) :: c.files⟩, .ok (hash sha256 BLOB bytes)) := by
  unfold Cache.put
  rw [if_neg (Nat.not_lt.mpr hlen), hnone]

theorem recordOnly_run : System.start.run CbclSha256.sha256 recordOnly
    = ⟨[⟨bidTree⟩], ⟨[(hash CbclSha256.sha256 BLOB (nodeBytes bidTree), nodeBytes bidTree)]⟩⟩ := by
  have hbid : System.start.run CbclSha256.sha256 bidEvents = ⟨[⟨bidTree⟩], Cache.empty⟩ := rfl
  unfold recordOnly System.run
  rw [List.foldl_append]
  change List.foldl _ (System.start.run CbclSha256.sha256 bidEvents) _ = _
  rw [hbid, List.foldl_cons, List.foldl_nil]
  show System.mk [⟨bidTree⟩] (Cache.empty.put CbclSha256.sha256 (nodeBytes bidTree)).1 = _
  rw [put_fresh (length_bidRecord.trans (by decide)) rfl]
  rfl

/-- Two messages under one key. -/
theorem run_twice (keep : SignedMessage → SignedMessage → Bool) (key : Key)
    (value value' : SignedMessage) :
    ((references keep).run [.create, .insert 0 key value, .insert 0 key value'])[0]?
      = some (Reference.set keep key value' (Reference.set keep key value fun _ => none)) := rfl

/-- What is kept of two messages whose records hash alike. -/
theorem get_insert_twice {sha256 : Octets → Digest} {key : Key} {value value' : SignedMessage}
    (h : sameRecord sha256 value' value = true) :
    ((Evidence.new.insert sha256 key value).1.insert sha256 key value').1.get key = some value := by
  have htrees := @trees_simulate sha256
  have hone := htrees.insert key value htrees.new
  have htwo := htrees.insert key value' hone
  refine (htwo.get_eq key).trans ?_
  show Reference.set _ key value' (Reference.set _ key value fun _ => none) key = _
  rw [Reference.set_self, Reference.set_self]
  exact congrArg some (if_pos h)

/-- Evidence keeps the former of two messages whose records hash alike; and `persist` reports a tree
    as saved that is not recovered, where the archive has the record of its root alone. -/
theorem evidence_not_kept :
    (∃ e last, (System.start.run CbclSha256.sha256 bothTells).vars[0]? = some e ∧
      ((references lastWins).run (opsOf bothTells))[0]? = some last ∧
        e.get bidKey = some tell ∧ last bidKey = some customTell ∧ tell ≠ customTell) ∧
    (∃ c root, (System.start.run CbclSha256.sha256 recordOnly).vars = [⟨bidTree⟩] ∧
      (∀ row ∈ (Evidence.mk bidTree).iter, Readable CbclSha256.sha256 verifyAlice row.2) ∧
      (Evidence.mk bidTree).persist CbclSha256.sha256
          (System.start.run CbclSha256.sha256 recordOnly).archive = (c, .ok root) ∧
        ∀ e, recover CbclSha256.sha256 verifyAlice c root ≠ .ok e) := by
  constructor
  · have hrecord : tell.encode = customTell.encode := rfl
    have hkept : sameRecord CbclSha256.sha256 customTell tell = true := by
      unfold sameRecord recordHash
      rw [hrecord]
      exact decide_eq_true rfl
    refine ⟨((Evidence.new.insert CbclSha256.sha256 bidKey tell).1.insert CbclSha256.sha256 bidKey
      customTell).1, _, rfl, run_twice lastWins bidKey tell customTell,
      get_insert_twice hkept, ?_, by decide⟩
    · rw [Reference.set_self, Reference.set_self]
      rfl
  · rw [recordOnly_run]
    have hroot : nodeHash bidTree = some (hash CbclSha256.sha256 BLOB (nodeBytes bidTree)) :=
      nodeHash_make _ _ _
    refine ⟨_, _, rfl, bidTree_readable, persist_shortcut bidTrees_within.1 hroot ?_, ?_⟩
    · unfold Cache.containsTrusted
      rw [lookup_record]
      rfl
    · rw [← hroot]
      refine recover_fails bidTrees_within.1 ?_ lookup_record
      refine (lookup_insert Cache.empty _ _ _).trans ?_
      rw [if_neg]
      · rfl
      · intro heq
        exact (List.pairwise_cons.mp records_nodup).1 _ (List.mem_cons_self ..) heq.symm

/-- The second bid is put to the right of the first. -/
theorem insert_second : ((Evidence.mk bidTree).insert CbclSha256.sha256 secondKey secondSigned).1
      = ⟨bothTree⟩ := by
  obtain ⟨-, -, hrank⟩ := bidKeys_runs
  have htree : (insertEntry CbclSha256.sha256 (entryOf CbclSha256.sha256 secondKey secondSigned)
      bidTree).tree = bothTree := by
    unfold bidTree make insertEntry
    dsimp only
    rw [entryOf_key, entryOf_key, if_neg hrank.asymm, if_pos hrank]
    rfl
  exact congrArg Evidence.mk htree

theorem savedOnce_vars :
    (System.start.run CbclSha256.sha256 savedOnce).vars = [⟨bothTree⟩, ⟨bidTree⟩] := by
  rw [System.run_vars]
  show [((Evidence.mk bidTree).insert CbclSha256.sha256 secondKey secondSigned).1,
    Evidence.mk bidTree] = _
  rw [insert_second]

/-- What the program offers to the archive until the evidence is saved again. -/
theorem savedOnce_offered :
    System.start.offeredIn CbclSha256.sha256 (savedOnce ++ [.persist 0])
      = octetsOf bidTree ++ octets "note" :: octetsOf bothTree := by
  have hlast : (System.start.run CbclSha256.sha256 savedOnce).offeredIn CbclSha256.sha256
      [.persist 0] = octetsOf bothTree := by
    rw [System.offeredIn, System.offeredIn, List.append_nil, System.offered, savedOnce_vars]
    rfl
  have hfirst : System.start.offeredIn CbclSha256.sha256 savedOnce
      = octetsOf bidTree ++ [octets "note"] := rfl
  rw [System.offeredIn_append, hlast, hfirst, List.append_assoc]
  rfl

/-- No two of these octets have one hash. -/
theorem savedOnce_injOn : Set.InjOn (hash CbclSha256.sha256 BLOB)
      {os | os ∈ System.start.offeredIn CbclSha256.sha256 (savedOnce ++ [.persist 0])} := by
  have hinj := List.inj_on_of_nodup_map records_nodup
  -- the first bid is offered twice
  have hsub : ∀ a b c d e f : Octets, [a, b, c, d, b, e, f] ⊆ [a, b, c, d, e, f] := by simp
  intro os hos os' hos' heq
  rw [savedOnce_offered] at hos hos'
  exact hinj (hsub _ _ _ _ _ _ hos) (hsub _ _ _ _ _ _ hos') heq

theorem savedOnce_plain : ∀ os, Event.put os ∈ savedOnce → Plain os := by
  intro os hos
  have hos' : Event.put os = Event.put (octets "note") := by
    simpa [savedOnce, bidEvents] using hos
  injection hos' with hos'
  rw [hos', show octets "note" = [110, 111, 116, 101] from rfl]
  exact plain_of_head (by decide)

theorem both_readable :
    ∀ row ∈ (Evidence.mk bothTree).iter, Readable CbclSha256.sha256 verifyAlice row.2 := by
  obtain ⟨hfirst, hsecond⟩ := checked_bids
  have hiter : (Evidence.mk bothTree).iter = [(bidKey, signedBid), (secondKey, secondSigned)] := rfl
  rw [hiter, List.forall_mem_cons, List.forall_mem_singleton]
  exact ⟨hfirst.readable, hsecond.readable⟩

/-- The signed bids, the first saved before the second was inserted, are recovered. -/
theorem evidence_kept_bid : ∃ c, (Evidence.mk bothTree).persist CbclSha256.sha256
      (System.start.run CbclSha256.sha256 savedOnce).archive = (c, .ok (nodeHash bothTree)) ∧
    (Evidence.mk bothTree).iter = [(bidKey, signedBid), (secondKey, secondSigned)] ∧
    recover CbclSha256.sha256 verifyAlice c (nodeHash bothTree) = .ok ⟨bothTree⟩ := by
  have hvar : (System.start.run CbclSha256.sha256 savedOnce).vars[0]? = some ⟨bothTree⟩ := by
    rw [savedOnce_vars]
    rfl
  have hinj := savedOnce_injOn
  have hclosed := System.closed_run hinj savedOnce (fun os hos => by
    show os ∈ System.start.offeredIn CbclSha256.sha256 (savedOnce ++ [.persist 0])
    rw [System.offeredIn_append]
    exact List.mem_append_left _ hos) savedOnce_plain
  obtain ⟨c, hpersist, -⟩ := persist_spec (e := ⟨bothTree⟩) hinj
    (System.built_run savedOnce _ (List.mem_of_getElem? hvar)) bidTrees_within.2 (fun os hos => by
      show os ∈ System.start.offeredIn CbclSha256.sha256 (savedOnce ++ [.persist 0])
      rw [savedOnce_offered]
      exact List.mem_append_right _ (List.mem_cons_of_mem _ hos)) hclosed
  have hkept := (evidence_kept CbclSha256.sha256 verifyAlice savedOnce 0 ⟨bothTree⟩ hvar).2.2
  exact ⟨c, hpersist, rfl, hkept hinj savedOnce_plain both_readable c _ hpersist⟩

end CbclEvidence
