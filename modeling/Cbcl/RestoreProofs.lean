import Cbcl.MultiKahnProofs
import Cbcl.PositionsProofs
import Cbcl.Sha256Model

/-!
# The cache of a set of records

Applying the same records in two orders gives the same cache: what the cache keeps of a record
is decided by its parents, the treap by its facts, and the progress of a verb is a maximum.  A
restoration applies its records in one order of its own, parents first, and finds one whenever
there is one, because the acceptance of a record depends on its parents only.
-/

namespace CbclPositions

open CbclMessage CbclProtocol CbclStore CbclRepeat CbclCanonical CbclTypedAddr CbclTreeMap
  CbclExcept CbclMultiKahn

variable {sha256 : Octets → Digest}

-- ── What records leave ────

/-- The progress after a record of a verb with its steps. -/
def advanced (p : CachedPositions) (progress : BTreeMap String Nat) (d : PositionMetadata) :
    BTreeMap String Nat :=
  { p with progress }.advance d.verb (establishedSteps p.toMaterializedPositions d)

/-- A cache has been built from an empty one by applying records of distinct identities. -/
structure Applied (sha256 : Octets → Digest) (p₀ p : CachedPositions)
    (data : List PositionMetadata) : Prop extends Keeps sha256 p data where
  context : p.context = p₀.context
  protocol : p.protocol = p₀.protocol
  ranks : p.ranks = p₀.ranks
  rooted : p.protocol.isSome = true → data ≠ [] → (p.entries.get p.context.root).isSome = true
  progress : p.progress = data.foldl (advanced p) p₀.progress

section Apply

variable {p₀ p p' q : CachedPositions} {data data' : List PositionMetadata}
  {d : PositionMetadata}

theorem applied_nil (h : p₀.entries = .nil) : Applied sha256 p₀ p₀ [] := by
  refine ⟨⟨by rw [h]; trivial, fun f => ?_, fun pre d post hnil => ?_⟩, rfl, rfl, rfl,
    fun _ hne => absurd rfl hne, rfl⟩
  · rw [h]
    exact iff_of_false (nomatch ·) fun ⟨d, hd, _⟩ => nomatch hd
  · exact absurd hnil.symm (by simp)

/-- A record of a declared verb, other than the root, has no step. -/
abbrev Refused (p : CachedPositions) (d : PositionMetadata) : Prop :=
  (p.protocol.any fun protocol => declarations protocol d.verb ≠ []) ∧ d.id ≠ p.context.root
    ∧ establishedSteps p.toMaterializedPositions d = ∅

/-- **One new record** is applied when its causes are in order and it has a step. -/
theorem applyMetadata_fresh (hold : p.entries.get d.id = none) :
    p.applyMetadata sha256 d = .ok p' ↔ p.checkCauses d = .ok () ∧ ¬ Refused p d ∧
      p' = CachedPositions.insert sha256
        { p with progress := p.advance d.verb (establishedSteps p.toMaterializedPositions d) }
        ⟨d, establishedSteps p.toMaterializedPositions d⟩ := by
  unfold CachedPositions.applyMetadata
  rw [hold]
  dsimp only
  rw [bind_ok_iff]
  constructor
  · rintro ⟨⟨⟩, hcauses, h⟩
    refine ⟨hcauses, ?_⟩
    by_cases hrefused : Refused p d
    · rw [if_pos hrefused] at h
      exact nomatch h
    · rw [if_neg hrefused] at h
      exact ⟨hrefused, (Except.ok.inj h).symm⟩
  · rintro ⟨hcauses, hrefused, rfl⟩
    exact ⟨⟨⟩, hcauses, if_neg hrefused⟩

/-- What the causes of a new record must be. -/
theorem checkCauses_ok_iff : p.checkCauses d = .ok () ↔
    (∀ k ∈ citedHashes d.cause, p.contains k = true) ∧
      (d.id = p.context.root → d.cause = some .begin) ∧
      (d.id ≠ p.context.root → p.protocol.isSome = true →
        citedHashes d.cause ≠ [] ∧ (p.entries.get p.context.root).isSome = true) := by
  unfold CachedPositions.checkCauses
  by_cases hcited : (citedHashes d.cause).any fun h => !p.contains h
  · rw [if_pos hcited]
    obtain ⟨k, hk, hno⟩ := List.any_eq_true.mp hcited
    refine iff_of_false (nomatch ·) fun h => ?_
    rw [h.1 k hk] at hno
    exact nomatch hno
  · rw [if_neg hcited, and_iff_right fun k hk => by
      by_contra hno
      exact hcited (List.any_eq_true.mpr ⟨k, hk, by simpa using hno⟩)]
    by_cases hroot : d.id = p.context.root
    · rw [if_pos hroot]
      by_cases hbegin : d.cause = some .begin
      · rw [if_pos hbegin]
        exact iff_of_true rfl ⟨fun _ => hbegin, fun hne => absurd hroot hne⟩
      · rw [if_neg hbegin]
        exact iff_of_false (nomatch ·) fun h => hbegin (h.1 hroot)
    · rw [if_neg hroot]
      by_cases hbad : p.protocol.isSome = true ∧
          (citedHashes d.cause = [] ∨ (p.entries.get p.context.root).isNone = true)
      · rw [if_pos hbad]
        refine iff_of_false (nomatch ·) fun h => ?_
        obtain ⟨hcites, hget⟩ := h.2 hroot hbad.1
        rcases hbad.2 with hnil | hnone
        · exact hcites hnil
        · rw [Option.isNone_iff_eq_none.mp hnone] at hget
          exact nomatch hget
      · rw [if_neg hbad]
        refine iff_of_true rfl ⟨fun h => absurd h hroot, fun _ hprotocol => ⟨fun hnil => ?_, ?_⟩⟩
        · exact hbad ⟨hprotocol, Or.inl hnil⟩
        · by_contra hnone
          refine hbad ⟨hprotocol, Or.inr ?_⟩
          rw [Option.isNone_iff_eq_none, ← Option.not_isSome_iff_eq_none]
          exact hnone

/-- **One record** more. -/
theorem Applied.step (h : Applied sha256 p₀ p data) (hold : p.entries.get d.id = none)
    (hd : p.applyMetadata sha256 d = .ok p') : Applied sha256 p₀ p' (data ++ [d]) := by
  obtain ⟨hcauses, -, hp'⟩ := (applyMetadata_fresh hold).mp hd
  obtain ⟨hkeeps, hstable⟩ := h.toKeeps.step hold hd
  have hself : p'.entries.get d.id
      = some ⟨d, establishedSteps p'.toMaterializedPositions d⟩ := hkeeps.get (by simp)
  have hsome : ∀ id, (p.entries.get id).isSome = true → (p'.entries.get id).isSome = true := by
    intro id hid
    obtain ⟨f, hf⟩ := Option.isSome_iff_exists.mp hid
    obtain ⟨b, hb, rfl, -⟩ := h.get_iff.mp hf
    rw [hkeeps.get (List.mem_append_left _ hb)]
    rfl
  have hcontext : p'.context = p.context := by rw [hp']; rfl
  have hprotocol : p'.protocol = p.protocol := by rw [hp']; rfl
  have hranks : p'.ranks = p.ranks := by rw [hp']; rfl
  refine ⟨hkeeps, hcontext.trans h.context, hprotocol.trans h.protocol, hranks.trans h.ranks,
    fun hsomep _ => ?_, ?_⟩
  · rw [hcontext]
    by_cases hroot : d.id = p.context.root
    · rw [← hroot, hself]
      rfl
    · rw [hprotocol] at hsomep
      exact hsome _ ((checkCauses_ok_iff.mp hcauses).2.2 hroot hsomep).2
  · -- the steps did not change, so neither did what they advanced
    have hsame : ∀ b ∈ data ++ [d], ∀ progress, advanced p' progress b = advanced p progress b := by
      intro b hb progress
      unfold advanced
      rw [hstable b hb]
      unfold CachedPositions.advance CachedPositions.progressOf
      rw [hranks]
    have hfold : ∀ (bs : List PositionMetadata) (m : BTreeMap String Nat),
        (∀ b ∈ bs, b ∈ data ++ [d]) → bs.foldl (advanced p') m = bs.foldl (advanced p) m := by
      intro bs m hbs
      exact List.foldl_ext _ _ m fun progress b hb => hsame b (hbs b hb) progress
    rw [hfold _ _ fun _ hb => hb, List.foldl_append, ← h.progress, hp']
    rfl

end Apply

namespace CachedPositions

/-- Apply records in turn; the first refusal ends. -/
def applyRecords (sha256 : Octets → Digest) (p : CachedPositions)
    (order : List PositionMetadata) : Except String CachedPositions :=
  order.foldlM (fun p d => p.applyMetadata sha256 d) p

end CachedPositions

section Order

variable {p₀ p q : CachedPositions} {data data' : List PositionMetadata} {d : PositionMetadata}

theorem applyRecords_concat : p₀.applyRecords sha256 (data ++ [d]) = .ok q ↔
    ∃ p, p₀.applyRecords sha256 data = .ok p ∧ p.applyMetadata sha256 d = .ok q := by
  unfold CachedPositions.applyRecords
  rw [List.foldlM_append, bind_ok_iff]
  refine exists_congr fun p => and_congr_right fun _ => ?_
  rw [List.foldlM_cons, bind_ok_iff]
  exact ⟨fun ⟨p', hp', hq⟩ => (Except.ok.inj hq) ▸ hp', fun h => ⟨q, h, rfl⟩⟩

/-- A record that was not applied is not found. -/
theorem Applied.get_none (h : Applied sha256 p₀ p data) (hd : d.id ∉ data.map (·.id)) :
    p.entries.get d.id = none := by
  refine Option.eq_none_iff_forall_ne_some.mpr fun f hf => hd ?_
  obtain ⟨b, hb, hid, -⟩ := h.get_iff.mp hf
  exact hid ▸ List.mem_map_of_mem hb

/-- **A run over records of distinct identities** applies them. -/
theorem applied_run (hempty : p₀.entries = .nil) :
    ∀ {p : CachedPositions} {data : List PositionMetadata}, (data.map (·.id)).Nodup →
      p₀.applyRecords sha256 data = .ok p → Applied sha256 p₀ p data := by
  intro p data
  induction data using List.reverseRecOn generalizing p with
  | nil =>
      intro _ hrun
      rw [← Except.ok.inj hrun]
      exact applied_nil hempty
  | append_singleton data d ih =>
      intro hnodup hrun
      obtain ⟨q, hq, hd⟩ := applyRecords_concat.mp hrun
      rw [List.map_append] at hnodup
      obtain ⟨hdata, -, hsep⟩ := List.nodup_append.mp hnodup
      have hq' := ih hdata hq
      refine hq'.step (hq'.get_none fun hin => ?_) hd
      exact hsep _ hin d.id (by simp) rfl

/-- Records are told apart by their identities. -/
def Distinct (data data' : List PositionMetadata) : Prop :=
  ∀ d ∈ data, ∀ d' ∈ data', d.id = d'.id → d = d'

/-- The parents of a record have been applied. -/
def ParentsIn (d : PositionMetadata) (data : List PositionMetadata) : Prop :=
  ∀ k ∈ citedHashes d.cause, ∃ b ∈ data, nativeReference k = b.id

/-- Every record comes after its parents. -/
def RespectsAncestry (data : List PositionMetadata) : Prop :=
  ∀ pre d post, data = pre ++ d :: post → ParentsIn d pre

theorem Applied.steps_of_parents (h : Applied sha256 p₀ p data) (h' : Applied sha256 p₀ q data')
    (hd : ∀ k ∈ citedHashes d.cause, ∃ b ∈ data, b ∈ data' ∧ nativeReference k = b.id ∧
      establishedSteps p.toMaterializedPositions b = establishedSteps q.toMaterializedPositions b) :
    establishedSteps p.toMaterializedPositions d
      = establishedSteps q.toMaterializedPositions d := by
  refine establishedSteps_congr (h.protocol.trans h'.protocol.symm)
    (congrArg (·.root) (h.context.trans h'.context.symm)) fun k hk => ?_
  obtain ⟨b, hb, hb', hkb, hsteps⟩ := hd k hk
  rw [hkb, h.get hb, h'.get hb', hsteps]

/-- **The steps of a record are the same in every cache that has it.** -/
theorem Applied.steps_agree (h : Applied sha256 p₀ p data) (h' : Applied sha256 p₀ q data')
    (hdistinct : Distinct data data') : ∀ d ∈ data, d ∈ data' →
      establishedSteps p.toMaterializedPositions d
        = establishedSteps q.toMaterializedPositions d := by
  refine h.induct fun d hd hparents hd' => h.steps_of_parents h' fun k hk => ?_
  obtain ⟨b, hb, hkb, hsteps⟩ := hparents k hk
  obtain ⟨pre, post, hsplit⟩ := List.append_of_mem hd'
  obtain ⟨b', hb', hkb'⟩ := h'.causal pre d post hsplit k hk
  have hmem : b' ∈ data' := hsplit ▸ List.mem_append_left _ hb'
  have heq : b = b' := hdistinct b hb b' hmem (hkb.symm.trans hkb')
  exact ⟨b, hb, heq ▸ hmem, hkb, hsteps (heq ▸ hmem)⟩

/-- The progress of a verb is a maximum, so the order of two records does not matter. -/
theorem advanced_comm (p : CachedPositions) (m : BTreeMap String Nat) (d d' : PositionMetadata) :
    advanced p (advanced p m d) d' = advanced p (advanced p m d') d := by
  unfold advanced CachedPositions.advance CachedPositions.progressOf
  dsimp only
  refine Std.ExtTreeMap.ext_getElem? fun verb => ?_
  cases hr : p.ranks[d.verb]? with
  | none => cases hr' : p.ranks[d'.verb]? <;> rfl
  | some table =>
      cases hr' : p.ranks[d'.verb]? with
      | none => rfl
      | some table' =>
          simp only [getElem?_insert_eq]
          by_cases hsame : d.verb = d'.verb
          · rw [hsame] at hr ⊢
            rw [hr] at hr'
            rw [Option.some.inj hr', if_pos rfl, if_pos rfl]
            by_cases hverb : verb = d'.verb
            · rw [if_pos hverb, if_pos hverb]
              exact congrArg some (max_right_comm _ _ _)
            · rw [if_neg hverb, if_neg hverb, if_neg hverb, if_neg hverb]
          · rw [if_neg hsame, if_neg (Ne.symm hsame)]
            by_cases hverb : verb = d'.verb
            · rw [if_pos hverb, hverb, if_neg (Ne.symm hsame), if_pos rfl]
            · rw [if_neg hverb, if_neg hverb]

/-- **Two caches of the same records are equal.** -/
theorem Applied.unique (h : Applied sha256 p₀ p data) (h' : Applied sha256 p₀ q data')
    (hperm : data.Perm data') (hdistinct : Distinct data data') : p = q := by
  have hmem : ∀ d, d ∈ data ↔ d ∈ data' := fun d => hperm.mem_iff
  have hsteps : ∀ d ∈ data, establishedSteps p.toMaterializedPositions d
      = establishedSteps q.toMaterializedPositions d := fun d hd =>
    h.steps_agree h' hdistinct d hd ((hmem d).mp hd)
  have hentries : p.entries = q.entries := by
    refine treap_unique h.sound h'.sound fun f => ?_
    rw [h.facts, h'.facts]
    constructor
    · rintro ⟨d, hd, rfl⟩
      exact ⟨d, (hmem d).mp hd, by rw [hsteps d hd]⟩
    · rintro ⟨d, hd, rfl⟩
      exact ⟨d, (hmem d).mpr hd, by rw [hsteps d ((hmem d).mpr hd)]⟩
  have hprogress : p.progress = q.progress := by
    rw [h.progress, h'.progress]
    have hsame : data.foldl (advanced p) p₀.progress = data.foldl (advanced q) p₀.progress := by
      refine List.foldl_ext _ _ _ fun progress d hd => ?_
      unfold advanced CachedPositions.advance CachedPositions.progressOf
      rw [hsteps d hd, h.ranks, h'.ranks]
    rw [hsame]
    exact hperm.foldl_eq' (fun d _ d' _ m => advanced_comm q m d d') _
  have hcontext := h.context.trans h'.context.symm
  have hprotocol := h.protocol.trans h'.protocol.symm
  have hranks := h.ranks.trans h'.ranks.symm
  obtain ⟨⟨c, pr, e⟩, r, g⟩ := p
  obtain ⟨⟨c', pr', e'⟩, r', g'⟩ := q
  subst hcontext hprotocol hentries hranks hprogress
  rfl

/-- **The acceptance of a record depends on its parents.** -/
theorem Applied.applies (h : Applied sha256 p₀ p data) (h' : Applied sha256 p₀ q data')
    (hdistinct : Distinct data data') (hd : d.id ∉ data.map (·.id))
    (hd' : d.id ∉ data'.map (·.id)) (hparents : ParentsIn d data')
    {p' : CachedPositions} (hok : p.applyMetadata sha256 d = .ok p') :
    ∃ q', q.applyMetadata sha256 d = .ok q' := by
  obtain ⟨hcauses, hrefused, -⟩ := (applyMetadata_fresh (h.get_none hd)).mp hok
  obtain ⟨hcited, hbegin, hroot⟩ := checkCauses_ok_iff.mp hcauses
  have hcontext := h.context.trans h'.context.symm
  have hprotocol := h.protocol.trans h'.protocol.symm
  have hsteps : establishedSteps p.toMaterializedPositions d
      = establishedSteps q.toMaterializedPositions d := by
    refine h.steps_of_parents h' fun k hk => ?_
    obtain ⟨f, hf⟩ := Option.isSome_iff_exists.mp (hcited k hk)
    obtain ⟨b, hb, hkb, -⟩ := h.get_iff.mp hf
    obtain ⟨b', hb', hkb'⟩ := hparents k hk
    have heq : b = b' := hdistinct b hb b' hb' (hkb.trans hkb')
    exact ⟨b, hb, heq ▸ hb', hkb.symm, h.steps_agree h' hdistinct b hb (heq ▸ hb')⟩
  refine ⟨_, (applyMetadata_fresh (h'.get_none hd')).mpr ⟨?_, ?_, rfl⟩⟩
  · refine checkCauses_ok_iff.mpr ⟨fun k hk => ?_, fun hid => ?_, fun hid hsome => ?_⟩
    · obtain ⟨b, hb, hkb⟩ := hparents k hk
      unfold CachedPositions.contains
      rw [hkb, h'.get hb]
      rfl
    · exact hbegin (hcontext ▸ hid)
    · obtain ⟨hne, -⟩ := hroot (hcontext ▸ hid) (hprotocol ▸ hsome)
      refine ⟨hne, h'.rooted hsome fun hnil => ?_⟩
      obtain ⟨k, hk⟩ := List.exists_mem_of_ne_nil _ hne
      obtain ⟨b, hb, -⟩ := hparents k hk
      rw [hnil] at hb
      exact nomatch hb
  · unfold Refused at hrefused ⊢
    rw [← hprotocol, ← hcontext, ← hsteps]
    exact hrefused

end Order

-- ── Filing and waiting ────

/-- Records of distinct identities, each under its own. -/
structure Filed (records : List PositionMetadata) (todo : BTreeMap String PositionMetadata) :
    Prop where
  nodup : (records.map (·.id)).Nodup
  read : ∀ id r, todo[id]? = some r ↔ r ∈ records ∧ r.id = id

section Filing

variable {records : List PositionMetadata} {todo : BTreeMap String PositionMetadata}
  {r : PositionMetadata}

theorem Filed.mem_iff (h : Filed records todo) {id : String} :
    id ∈ todo ↔ id ∈ records.map (·.id) := by
  rw [Std.ExtTreeMap.mem_iff_isSome_getElem?, Option.isSome_iff_exists, List.mem_map]
  exact exists_congr fun r => h.read id r

/-- One record more. -/
theorem Filed.snoc (h : Filed records todo) (hr : r.id ∉ todo) :
    Filed (records ++ [r]) (todo.insert r.id r) := by
  have hnot : r.id ∉ records.map (·.id) := fun hin => hr (h.mem_iff.mpr hin)
  refine ⟨?_, fun id x => ?_⟩
  · rw [List.map_append, List.map_singleton]
    refine List.nodup_append.mpr ⟨h.nodup, List.nodup_singleton _, fun a ha b hb hab => hnot ?_⟩
    rw [← List.mem_singleton.mp hb, ← hab]
    exact ha
  · rw [getElem?_insert_eq, List.mem_append, List.mem_singleton]
    by_cases hid : id = r.id
    · rw [if_pos hid, Option.some.injEq]
      constructor
      · rintro rfl
        exact ⟨Or.inr rfl, hid.symm⟩
      · rintro ⟨hx | rfl, hxid⟩
        · exact absurd (List.mem_map.mpr ⟨x, hx, hxid.trans hid⟩) hnot
        · rfl
    · rw [if_neg hid, h.read]
      refine and_congr_left fun hxid => (or_iff_left ?_).symm
      rintro rfl
      exact hid hxid.symm

theorem filed_nil : Filed [] ∅ := by
  refine ⟨List.nodup_nil, fun id r => ?_⟩
  rw [Std.ExtTreeMap.getElem?_empty]
  exact iff_of_false (nomatch ·) fun h => nomatch h.1

/-- What filing returned. -/
theorem fileRecords_ok (h : fileRecords records = .ok todo) : Filed records todo := by
  refine foldlM_inv (I := Filed) (fun done r m m' _ hm hr => ?_) filed_nil h
  by_cases hin : r.id ∈ m
  · rw [if_pos hin] at hr
    exact nomatch hr
  · rw [if_neg hin] at hr
    exact Except.ok.inj hr ▸ hm.snoc hin

/-- Distinct identities are filed. -/
theorem fileRecords_total (hnodup : (records.map (·.id)).Nodup) :
    ∃ todo, fileRecords records = .ok todo := by
  have hstep : ∀ (done : List PositionMetadata) (r : PositionMetadata)
      (m : BTreeMap String PositionMetadata), (∃ rest, done ++ r :: rest = records) → Filed done m →
        ∃ m', (if r.id ∈ m then Except.error "duplicate resume identity"
          else .ok (m.insert r.id r)) = .ok m' ∧ Filed (done ++ [r]) m' := by
    intro done r m ⟨rest, hxs⟩ hm
    have hnot : r.id ∉ m := by
      rw [hm.mem_iff]
      intro hin
      rw [← hxs, List.map_append, List.map_cons] at hnodup
      exact (List.nodup_append.mp hnodup).2.2 _ hin r.id List.mem_cons_self rfl
    exact ⟨_, if_neg hnot, hm.snoc hnot⟩
  obtain ⟨todo, htodo, -⟩ := foldlM_total hstep filed_nil
  exact ⟨todo, htodo⟩

end Filing

-- ── Waiting ────

/-- The parents of the record under an identity. -/
def predsOf (todo : BTreeMap String PositionMetadata) (id : String) : List String :=
  ((todo[id]?).map parentsOf).getD []

/-- How often an identity waits for another. -/
def waits (waiting : BTreeMap String (List String)) (parent child : String) : Nat :=
  ((waiting[parent]?).getD []).count child

/-- Waiting for the parents of a record. -/
theorem waits_foldl (id : String) : ∀ (parents : List String)
    (waiting : BTreeMap String (List String)) (parent child : String),
    waits (parents.foldl (fun m parent => m.insert parent ((m[parent]?).getD [] ++ [id])) waiting)
      parent child
        = waits waiting parent child + if child = id then parents.count parent else 0 := by
  intro parents
  induction parents with
  | nil => simp
  | cons p parents ih =>
      intro waiting parent child
      have hone : waits (waiting.insert p ((waiting[p]?).getD [] ++ [id])) parent child
          = waits waiting parent child + if child = id ∧ parent = p then 1 else 0 := by
        unfold waits
        rw [getElem?_insert_eq]
        by_cases hp : parent = p
        · rw [if_pos hp, hp, Option.getD_some, List.count_append, List.count_singleton]
          by_cases hc : child = id
          · rw [if_pos (beq_iff_eq.mpr hc.symm), if_pos ⟨hc, rfl⟩]
          · rw [if_neg (by rw [beq_iff_eq]; exact Ne.symm hc), if_neg fun h => hc h.1]
        · rw [if_neg hp, if_neg fun h => hp h.2]
          rfl
      rw [List.foldl_cons, ih, hone, List.count_cons]
      by_cases hc : child = id
      · rw [if_pos hc, if_pos hc]
        by_cases hp : parent = p
        · rw [if_pos ⟨hc, hp⟩, if_pos (beq_iff_eq.mpr hp.symm)]
          omega
        · rw [if_neg fun h => hp h.2, if_neg (by rw [beq_iff_eq]; exact Ne.symm hp)]
          omega
      · rw [if_neg hc, if_neg hc, if_neg fun h => hc h.1]

/-- What waits after some records have entered. -/
structure Entered (todo : BTreeMap String PositionMetadata)
    (done : List (String × PositionMetadata)) (w : Restoring) : Prop where
  kept : w.todo = todo
  closed : ∀ entry ∈ done, ∀ parent ∈ parentsOf entry.2, parent ∈ todo
  remaining : ∀ entry ∈ done, w.remaining[entry.1]? = some (parentsOf entry.2).length
  waiting : ∀ entry ∈ done, ∀ parent, waits w.waiting parent entry.1
    = (parentsOf entry.2).count parent
  others : ∀ child, child ∉ done.map Prod.fst → ∀ parent, waits w.waiting parent child = 0
  ready_nodup : w.ready.Nodup
  ready_iff : ∀ id, id ∈ w.ready ↔ ∃ r, (id, r) ∈ done ∧ parentsOf r = []

section Entering

variable {todo : BTreeMap String PositionMetadata} {done : List (String × PositionMetadata)}
  {w w' : Restoring} {entry : String × PositionMetadata}

/-- A record enters when its parents are there. -/
theorem enter_ok_iff : w.enter entry = .ok w' ↔
    (∀ parent ∈ parentsOf entry.2, parent ∈ w.todo) ∧ w' = { w with
      waiting := (parentsOf entry.2).foldl
        (fun m parent => m.insert parent ((m[parent]?).getD [] ++ [entry.1])) w.waiting
      remaining := w.remaining.insert entry.1 (parentsOf entry.2).length
      ready := if parentsOf entry.2 = [] then w.ready ++ [entry.1] else w.ready } := by
  obtain ⟨id, r⟩ := entry
  have hany : (parentsOf r).any (· ∉ w.todo) = true ↔
      ¬ ∀ parent ∈ parentsOf r, parent ∈ w.todo := by
    simp
  unfold Restoring.enter
  dsimp only
  by_cases hmissing : (parentsOf r).any (· ∉ w.todo) = true
  · rw [if_pos hmissing]
    exact iff_of_false (nomatch ·) fun h => hany.mp hmissing h.1
  · rw [if_neg hmissing, and_iff_right (not_not.mp fun h => hmissing (hany.mpr h))]
    exact ⟨fun h => (Except.ok.inj h).symm, fun h => congrArg _ h.symm⟩

/-- One record more waits. -/
theorem Entered.snoc (h : Entered todo done w) (hnew : entry.1 ∉ done.map Prod.fst)
    (hw : w.enter entry = .ok w') : Entered todo (done ++ [entry]) w' := by
  obtain ⟨hparents, rfl⟩ := enter_ok_iff.mp hw
  have hne : ∀ e ∈ done, e.1 ≠ entry.1 := fun e he heq =>
    hnew (List.mem_map.mpr ⟨e, he, heq⟩)
  refine ⟨h.kept, fun e he => ?_, fun e he => ?_, fun e he parent => ?_, fun child hc parent => ?_,
    ?_, fun id => ?_⟩
  · rcases List.mem_append.mp he with he | he
    · exact h.closed e he
    · rw [List.mem_singleton.mp he, ← h.kept]
      exact hparents
  · dsimp only
    rw [getElem?_insert_eq]
    rcases List.mem_append.mp he with he | he
    · rw [if_neg (hne e he)]
      exact h.remaining e he
    · rw [List.mem_singleton.mp he, if_pos rfl]
  · dsimp only
    rw [waits_foldl]
    rcases List.mem_append.mp he with he | he
    · rw [if_neg (hne e he)]
      exact h.waiting e he parent
    · rw [List.mem_singleton.mp he, if_pos rfl, h.others _ hnew, Nat.zero_add]
  · rw [List.map_append, List.map_singleton, List.mem_append, List.mem_singleton, not_or] at hc
    dsimp only
    rw [waits_foldl, h.others child hc.1, if_neg hc.2]
  · dsimp only
    by_cases hnil : parentsOf entry.2 = []
    · rw [if_pos hnil]
      refine List.nodup_append.mpr ⟨h.ready_nodup, List.nodup_singleton _, fun a ha b hb hab => ?_⟩
      rw [hab, List.mem_singleton.mp hb] at ha
      obtain ⟨r, hr, -⟩ := (h.ready_iff _).mp ha
      exact hnew (List.mem_map.mpr ⟨_, hr, rfl⟩)
    · rw [if_neg hnil]
      exact h.ready_nodup
  · dsimp only
    have hsplit : (∃ r, (id, r) ∈ done ++ [entry] ∧ parentsOf r = []) ↔
        (∃ r, (id, r) ∈ done ∧ parentsOf r = []) ∨ id = entry.1 ∧ parentsOf entry.2 = [] := by
      simp only [List.mem_append, List.mem_singleton, or_and_right, exists_or]
      refine or_congr_right ⟨?_, ?_⟩
      · rintro ⟨r, rfl, hnil⟩
        exact ⟨rfl, hnil⟩
      · rintro ⟨hid, hnil⟩
        exact ⟨entry.2, by rw [hid], hnil⟩
    rw [hsplit, ← h.ready_iff]
    by_cases hnil : parentsOf entry.2 = []
    · rw [if_pos hnil, List.mem_append, List.mem_singleton, and_iff_left hnil]
    · rw [if_neg hnil, or_iff_left fun hh => hnil hh.2]

theorem entered_nil : Entered todo [] ⟨todo, ∅, ∅, []⟩ :=
  ⟨rfl, (nomatch ·, ·), (nomatch ·, ·), (nomatch ·, ·), fun child _ parent => by simp [waits],
    List.nodup_nil, fun id => by simp⟩

/-- **Records whose parents are there all enter.** -/
theorem entered_all (hclosed : ∀ (id : String) (r : PositionMetadata), todo[id]? = some r →
      ∀ parent ∈ parentsOf r, parent ∈ todo) :
    ∃ w, todo.toList.foldlM Restoring.enter ⟨todo, ∅, ∅, []⟩ = .ok w ∧
      Entered todo todo.toList w := by
  have hkeys : (todo.toList.map Prod.fst).Nodup := by
    rw [Std.ExtTreeMap.map_fst_toList_eq_keys]
    exact nodup_keys todo
  refine foldlM_total (fun done entry w ⟨rest, hxs⟩ hw => ?_) entered_nil
  have hin : entry ∈ todo.toList := by
    rw [← hxs]
    simp
  have hparents : ∀ parent ∈ parentsOf entry.2, parent ∈ w.todo := by
    rw [hw.kept]
    exact hclosed entry.1 entry.2 (Std.ExtTreeMap.mem_toList_iff_getElem?_eq_some.mp hin)
  have hok := enter_ok_iff.mpr ⟨hparents, rfl⟩
  refine ⟨_, hok, hw.snoc (fun hdone => ?_) hok⟩
  rw [← hxs, List.map_append, List.map_cons] at hkeys
  exact (List.nodup_append.mp hkeys).2.2 _ hdone entry.1 List.mem_cons_self rfl

end Entering

-- ── The loop ────

section Loop

variable {p₀ out out' : CachedPositions} {todo : BTreeMap String PositionMetadata}
  {order : List PositionMetadata} {w w' : Restoring} {r : PositionMetadata}

/-- The records taken so far have been applied, and the others are still to take. -/
structure Taken (sha256 : Octets → Digest) (p₀ : CachedPositions)
    (todo : BTreeMap String PositionMetadata) (order : List PositionMetadata)
    (out : CachedPositions) (w : Restoring) : Prop where
  run : p₀.applyRecords sha256 order = .ok out
  left : ∀ id, w.todo[id]? = if id ∈ order.map (·.id) then none else todo[id]?
  found : ∀ r ∈ order, todo[r.id]? = some r
  nodup : (order.map (·.id)).Nodup

theorem taken_nil (hw : w.todo = todo) : Taken sha256 p₀ todo [] p₀ w :=
  ⟨rfl, fun id => by rw [hw]; rfl, (nomatch ·, ·), List.nodup_nil⟩

/-- Releasing waiting records takes none. -/
theorem release_todo {children : List String} (h : children.foldlM Restoring.release w = .ok w') :
    w'.todo = w.todo := by
  refine foldlM_inv (I := fun _ (v : Restoring) => v.todo = w.todo) (fun _ c v v' _ hv hc => ?_)
    rfl h
  unfold Restoring.release at hc
  cases hcount : v.remaining[c]? with
  | none =>
      rw [hcount] at hc
      exact nomatch hc
  | some count =>
      rw [hcount] at hc
      rw [← Except.ok.inj hc, ← hv]
      dsimp only
      split <;> rfl

/-- Every record is under its own identity. -/
def Keyed (todo : BTreeMap String PositionMetadata) : Prop :=
  ∀ (id : String) (r : PositionMetadata), todo[id]? = some r → r.id = id

/-- One record is taken. -/
theorem Taken.step (h : Taken sha256 p₀ todo order out w) (hkeyed : Keyed todo)
    {id : String} (hid : w.todo[id]? = some r) (hr : out.applyMetadata sha256 r = .ok out')
    (hw : w'.todo = w.todo.erase id) : Taken sha256 p₀ todo (order ++ [r]) out' w' := by
  have hleft := h.left id
  rw [hid] at hleft
  have hnot : id ∉ order.map (·.id) := by
    intro hin
    rw [if_pos hin] at hleft
    exact nomatch hleft
  rw [if_neg hnot] at hleft
  have hrid : r.id = id := hkeyed id r hleft.symm
  refine ⟨applyRecords_concat.mpr ⟨out, h.run, hr⟩, fun k => ?_, fun x hx => ?_, ?_⟩
  · rw [hw, getElem?_erase_eq, h.left, List.map_append, List.map_singleton]
    by_cases hk : k = id
    · rw [if_pos hk, if_pos (by rw [hk, hrid]; simp)]
    · rw [if_neg hk]
      refine if_congr ?_ rfl rfl
      rw [List.mem_append, List.mem_singleton, or_iff_left (fun h => hk (h.trans hrid))]
  · rcases List.mem_append.mp hx with hx | hx
    · exact h.found x hx
    · rw [List.mem_singleton.mp hx, hrid]
      exact hleft.symm
  · rw [List.map_append, List.map_singleton]
    refine List.nodup_append.mpr ⟨h.nodup, List.nodup_singleton _, fun a ha b hb hab => hnot ?_⟩
    rw [← hrid, ← List.mem_singleton.mp hb, ← hab]
    exact ha

/-- **The loop applies what it takes.** -/
theorem restoreLoop_taken (hkeyed : Keyed todo) :
    ∀ (fuel : Nat) {order : List PositionMetadata} {out : CachedPositions} {w : Restoring},
      Taken sha256 p₀ todo order out w →
        ∀ {out' w'}, CachedPositions.restoreLoop sha256 fuel out w = .ok (out', w') →
          ∃ order', Taken sha256 p₀ todo order' out' w' := by
  intro fuel
  induction fuel with
  | zero =>
      intro order out w h out' w' hok
      injection hok with hok
      injection hok with hout hw
      subst hout hw
      exact ⟨order, h⟩
  | succ fuel ih =>
      intro order out w h out' w' hok
      rw [CachedPositions.restoreLoop] at hok
      cases hlast : w.ready.getLast? with
      | none =>
          rw [hlast] at hok
          injection hok with hok
          injection hok with hout hw
          subst hout hw
          exact ⟨order, h⟩
      | some id =>
          rw [hlast] at hok
          dsimp only at hok
          cases hid : w.todo[id]? with
          | none =>
              rw [hid] at hok
              exact nomatch hok
          | some r =>
              rw [hid] at hok
              obtain ⟨out₁, hr, hok⟩ := bind_ok_iff.mp hok
              obtain ⟨w₁, hw₁, hok⟩ := bind_ok_iff.mp hok
              exact ih (h.step hkeyed hid hr (release_todo hw₁)) hok

-- ── Nothing is left waiting ────

/-- How many parents of a record are still to restore, as a restoration counts them. -/
def degrees (w : Restoring) (id : String) : Nat := (w.remaining[id]?).getD 0

/-- A record that waits for nothing more is put on top. -/
def onTop (ready : List String) (_ : String) : Nat := ready.length

/-- **Releasing waiting records** takes edges off and does nothing else. -/
theorem release_total : ∀ (children : List String) (w : Restoring),
    (∀ child ∈ children, (w.remaining[child]?).isSome = true) →
      ∃ w', children.foldlM Restoring.release w = .ok w' ∧ w'.waiting = w.waiting ∧
        (degrees w', w'.ready) = children.foldl (release onTop) (degrees w, w.ready) ∧
        ∀ id : String, (w.remaining[id]?).isSome = true →
          (w'.remaining[id]?).isSome = true := by
  intro children
  induction children with
  | nil => exact fun w _ => ⟨w, rfl, rfl, rfl, fun _ h => h⟩
  | cons child children ih =>
      intro w hsome
      obtain ⟨count, hcount⟩ := Option.isSome_iff_exists.mp (hsome child List.mem_cons_self)
      -- the restoration after this child
      obtain ⟨v, hv, hwaiting, hremaining, hready⟩ : ∃ v, w.release child = .ok v ∧
          v.waiting = w.waiting ∧ v.remaining = w.remaining.insert child (count - 1) ∧
          v.ready = if count - 1 = 0 then w.ready ++ [child] else w.ready := by
        refine ⟨_, by unfold Restoring.release; rw [hcount], ?_, ?_, ?_⟩ <;>
          by_cases hzero : count - 1 = 0
        · rw [if_pos hzero]
        · rw [if_neg hzero]
        · rw [if_pos hzero]
        · rw [if_neg hzero]
        · rw [if_pos hzero, if_pos hzero]
        · rw [if_neg hzero, if_neg hzero]
      have hkept : ∀ id : String, (w.remaining[id]?).isSome = true →
          (v.remaining[id]?).isSome = true := by
        intro id hid
        rw [hremaining, getElem?_insert_eq]
        by_cases hc : id = child
        · rw [if_pos hc]
          rfl
        · rw [if_neg hc]
          exact hid
      have hedge : (degrees v, v.ready) = release onTop (degrees w, w.ready) child := by
        have hdeg : degrees w child = count := by
          unfold degrees
          rw [hcount]
          rfl
        have hupdate : degrees v = Function.update (degrees w) child (count - 1) := by
          funext id
          rw [Function.update_apply]
          unfold degrees
          rw [hremaining, getElem?_insert_eq]
          by_cases hc : id = child
          · rw [if_pos hc, if_pos hc]
            rfl
          · rw [if_neg hc, if_neg hc]
        unfold release
        dsimp only
        rw [hdeg, Function.update_self, hready, hupdate]
        by_cases hzero : count - 1 = 0
        · rw [if_pos hzero, if_pos hzero]
          unfold onTop
          rw [List.insertIdx_length_self]
        · rw [if_neg hzero, if_neg hzero]
      obtain ⟨w', hw', hwaiting', hrun, hkept'⟩ := ih v fun c hc =>
        hkept c (hsome c (List.mem_cons_of_mem child hc))
      refine ⟨w', ?_, hwaiting'.trans hwaiting, ?_, fun id hid => hkept' id (hkept id hid)⟩
      · rw [List.foldlM_cons, bind_ok_iff]
        exact ⟨v, hv, hw'⟩
      · rw [List.foldl_cons, ← hedge]
        exact hrun

/-- The counters of a restoration are those of the traversal of its records. -/
structure Counted (todo : BTreeMap String PositionMetadata) (w : Restoring)
    (sorted : List String) : Prop where
  tracks : Tracks todo.keys (predsOf todo) (degrees w) w.ready sorted
  waiting : ∀ parent, parent ∉ sorted → ∀ child, waits w.waiting parent child
    = if child ∈ todo.keys then (predsOf todo child).count parent else 0
  counts : ∀ id ∈ todo.keys, (w.remaining[id]?).isSome = true

theorem Entered.counted (h : Entered todo todo.toList w) : Counted todo w [] := by
  have hmem : ∀ id, id ∈ todo.keys ↔
      ∃ r, (id, r) ∈ todo.toList ∧ predsOf todo id = parentsOf r := by
    intro id
    rw [Std.ExtTreeMap.mem_keys, Std.ExtTreeMap.mem_iff_isSome_getElem?, Option.isSome_iff_exists]
    refine exists_congr fun r => ?_
    rw [Std.ExtTreeMap.mem_toList_iff_getElem?_eq_some]
    refine ⟨fun hr => ⟨hr, ?_⟩, fun hr => hr.1⟩
    unfold predsOf
    rw [hr]
    rfl
  refine ⟨tracks_start (fun id hid => ?_) h.ready_nodup fun id => ?_, fun parent _ child => ?_,
    fun id hid => ?_⟩
  · obtain ⟨r, hr, hpreds⟩ := (hmem id).mp hid
    unfold degrees
    rw [h.remaining (id, r) hr, hpreds]
    rfl
  · rw [h.ready_iff]
    constructor
    · rintro ⟨r, hr, hnil⟩
      have hpreds : predsOf todo id = parentsOf r := by
        unfold predsOf
        rw [Std.ExtTreeMap.mem_toList_iff_getElem?_eq_some.mp hr]
        rfl
      exact ⟨(hmem id).mpr ⟨r, hr, hpreds⟩, hpreds.trans hnil⟩
    · rintro ⟨hid, hnil⟩
      obtain ⟨r, hr, hpreds⟩ := (hmem id).mp hid
      exact ⟨r, hr, hpreds.symm.trans hnil⟩
  · by_cases hid : child ∈ todo.keys
    · obtain ⟨r, hr, hpreds⟩ := (hmem child).mp hid
      rw [if_pos hid, hpreds]
      exact h.waiting (child, r) hr parent
    · rw [if_neg hid]
      refine h.others child ?_ parent
      rw [Std.ExtTreeMap.map_fst_toList_eq_keys]
      exact hid
  · obtain ⟨r, hr, -⟩ := (hmem id).mp hid
    rw [h.remaining (id, r) hr]
    rfl

/-- **One round** of the counters. -/
theorem Counted.step {sorted init : List String} {id : String} (h : Counted todo w sorted)
    (hready : w.ready = init ++ [id]) :
    ∃ w', ((w.waiting[id]?).getD []).foldlM Restoring.release (w.take id) = .ok w' ∧
      Counted todo w' (sorted ++ [id]) := by
  have htracks := h.tracks
  rw [hready] at htracks
  have hnew : id ∉ sorted := htracks.disjoint id (by simp)
  have hcount : ∀ i, ((w.waiting[id]?).getD []).count i
      = if i ∈ todo.keys then (predsOf todo i).count id else 0 := h.waiting id hnew
  obtain ⟨w', hw', hwaiting, hrun, hkept⟩ := release_total ((w.waiting[id]?).getD []) (w.take id)
    fun child hc => by
      refine h.counts child ?_
      by_contra hout
      have hzero := hcount child
      rw [if_neg hout] at hzero
      exact List.count_eq_zero.mp hzero hc
  refine ⟨w', hw', ?_, fun parent hp child => ?_, fun i hi => hkept i (h.counts i hi)⟩
  · have hround := htracks.round onTop (fun q _ => Nat.le_refl q.length) hcount
    have htake : (w.take id).ready = init := by
      unfold Restoring.take
      dsimp only
      rw [hready, List.dropLast_concat]
    rw [htake] at hrun
    have hrun' : (degrees w', w'.ready)
        = ((w.waiting[id]?).getD []).foldl (release onTop) (degrees w, init) := hrun
    rw [← hrun'] at hround
    exact hround
  · rw [List.mem_append, List.mem_singleton, not_or] at hp
    rw [← h.waiting parent hp.1 child, hwaiting]
    unfold waits Restoring.take
    dsimp only
    rw [getElem?_erase_eq, if_neg hp.2]

/-- **The loop ends with nothing ready** when every record is accepted once its parents are. -/
theorem restoreLoop_total (hkeyed : Keyed todo)
    (haccepts : ∀ {order : List PositionMetadata} {out : CachedPositions} {w : Restoring}
      {id : String} {r : PositionMetadata}, Taken sha256 p₀ todo order out w → todo[id]? = some r →
        id ∉ order.map (·.id) → (∀ parent ∈ parentsOf r, parent ∈ order.map (·.id)) →
          ∃ out', out.applyMetadata sha256 r = .ok out') :
    ∀ (fuel : Nat) {order : List PositionMetadata} {out : CachedPositions} {w : Restoring},
      Taken sha256 p₀ todo order out w → Counted todo w (order.map (·.id)) →
        todo.keys.length + 1 ≤ order.length + fuel →
          ∃ out' w' order', CachedPositions.restoreLoop sha256 fuel out w = .ok (out', w') ∧
            Taken sha256 p₀ todo order' out' w' ∧ Counted todo w' (order'.map (·.id)) ∧
            w'.ready = [] := by
  intro fuel
  induction fuel with
  | zero =>
      intro order out w _ hcounted hfuel
      have hlen := hcounted.tracks.length_le
      rw [List.length_map] at hlen
      omega
  | succ fuel ih =>
      intro order out w htaken hcounted hfuel
      rw [CachedPositions.restoreLoop]
      cases hlast : w.ready.getLast? with
      | none =>
          exact ⟨out, w, order, rfl, htaken, hcounted, List.getLast?_eq_none_iff.mp hlast⟩
      | some id =>
          obtain ⟨init, hready⟩ := List.getLast?_eq_some_iff.mp hlast
          have hin : id ∈ w.ready := by
            rw [hready]
            simp
          have hnew := hcounted.tracks.disjoint id hin
          have hid := hcounted.tracks.bound id (Or.inl hin)
          rw [Std.ExtTreeMap.mem_keys, Std.ExtTreeMap.mem_iff_isSome_getElem?,
            Option.isSome_iff_exists] at hid
          obtain ⟨r, hr⟩ := hid
          have hleft : w.todo[id]? = some r := by rw [htaken.left, if_neg hnew, hr]
          have hparents : ∀ parent ∈ parentsOf r, parent ∈ order.map (·.id) := by
            have hzero := (hcounted.tracks.ready id
              (hcounted.tracks.bound id (Or.inl hin))).mp (Or.inl hin)
            have hpreds : predsOf todo id = parentsOf r := by
              unfold predsOf
              rw [hr]
              rfl
            rw [openCount_eq_zero_iff, hpreds] at hzero
            exact hzero
          obtain ⟨out₁, hout⟩ := haccepts htaken hr hnew hparents
          obtain ⟨w₁, hw₁, hcounted₁⟩ := hcounted.step hready
          have htaken₁ := htaken.step hkeyed hleft hout (release_todo hw₁)
          dsimp only
          rw [hleft]
          dsimp only
          rw [hout]
          show ∃ out' w' order', (((w.waiting[id]?).getD []).foldlM Restoring.release (w.take id)
            >>= fun w => CachedPositions.restoreLoop sha256 fuel out₁ w) = .ok (out', w') ∧ _
          rw [hw₁]
          refine ih htaken₁ ?_ ?_
          · rw [List.map_append, List.map_singleton, hkeyed id r hr]
            exact hcounted₁
          · rw [List.length_append, List.length_singleton]
            omega

end Loop

-- ── The cache of a set ────

section Canonical

variable {context : PositionContext} {protocol : Option CausalProtocol}
  {records records' order : List PositionMetadata} {p₀ p : CachedPositions}
  {todo : BTreeMap String PositionMetadata}

/-- Build a cache by applying records in an order. -/
def buildFrom (sha256 : Octets → Digest) (context : PositionContext)
    (protocol : Option CausalProtocol) (order : List PositionMetadata) :
    Except String CachedPositions :=
  CachedPositions.new context protocol >>= fun p₀ => p₀.applyRecords sha256 order

theorem new_entries (h : CachedPositions.new context protocol = .ok p₀) : p₀.entries = .nil := by
  unfold CachedPositions.new at h
  cases protocol with
  | none =>
      rw [← Except.ok.inj h]
  | some protocol =>
      dsimp only at h
      split at h
      · exact nomatch h
      · rw [← Except.ok.inj h]

theorem Filed.keyed (h : Filed records todo) : Keyed todo := fun id r hr => ((h.read id r).mp hr).2

/-- Filing does not depend on the order of the records. -/
theorem fileRecords_perm (hnodup : (records.map (·.id)).Nodup) (hperm : records'.Perm records) :
    fileRecords records' = fileRecords records := by
  have hnodup' : (records'.map (·.id)).Nodup := (hperm.map _).nodup_iff.mpr hnodup
  obtain ⟨todo, htodo⟩ := fileRecords_total hnodup
  obtain ⟨todo', htodo'⟩ := fileRecords_total hnodup'
  rw [htodo, htodo']
  refine congrArg _ (Std.ExtTreeMap.ext_getElem? fun id => Option.ext fun r => ?_)
  rw [(fileRecords_ok htodo).read, (fileRecords_ok htodo').read, hperm.mem_iff]

/-- **A restoration depends on the set of its records.** -/
theorem restoreAttested_perm (hnodup : (records.map (·.id)).Nodup)
    (hperm : records'.Perm records) :
    CachedPositions.restoreAttested sha256 context protocol records'
      = CachedPositions.restoreAttested sha256 context protocol records := by
  unfold CachedPositions.restoreAttested
  rw [fileRecords_perm hnodup hperm, hperm.length_eq]

/-- Entering takes no record. -/
theorem enterAll_todo {entries : List (String × PositionMetadata)} {w w' : Restoring}
    (h : entries.foldlM Restoring.enter w = .ok w') : w'.todo = w.todo := by
  refine foldlM_inv (I := fun _ (v : Restoring) => v.todo = w.todo) (fun _ e v v' _ hv he => ?_)
    rfl h
  rw [(enter_ok_iff.mp he).2]
  exact hv

/-- What a restoration is made of. -/
theorem restoreAttested_ok_iff :
    CachedPositions.restoreAttested sha256 context protocol records = .ok p ↔
      ∃ p₀ todo w w', CachedPositions.new context protocol = .ok p₀ ∧
        fileRecords records = .ok todo ∧
        todo.toList.foldlM Restoring.enter ⟨todo, ∅, ∅, []⟩ = .ok w ∧
        CachedPositions.restoreLoop sha256 (records.length + 1) p₀ w = .ok (p, w') ∧
        w'.todo.isEmpty = true := by
  unfold CachedPositions.restoreAttested
  rw [bind_ok_iff]
  refine exists_congr fun p₀ => ?_
  constructor
  · rintro ⟨hnew, h⟩
    obtain ⟨todo, htodo, h⟩ := bind_ok_iff.mp h
    obtain ⟨w, hw, h⟩ := bind_ok_iff.mp h
    obtain ⟨⟨p', w'⟩, hloop, h⟩ := bind_ok_iff.mp h
    dsimp only at h
    by_cases hempty : w'.todo.isEmpty = true
    · rw [if_pos hempty] at h
      rw [Except.ok.inj h] at hloop
      exact ⟨todo, w, w', hnew, htodo, hw, hloop, hempty⟩
    · rw [if_neg hempty] at h
      exact nomatch h
  · rintro ⟨todo, w, w', hnew, htodo, hw, hloop, hempty⟩
    refine ⟨hnew, bind_ok_iff.mpr ⟨todo, htodo, bind_ok_iff.mpr ⟨w, hw, bind_ok_iff.mpr
      ⟨(p, w'), hloop, ?_⟩⟩⟩⟩
    dsimp only
    rw [if_pos hempty]
    rfl

/-- Records taken until none is left are all of them. -/
theorem Taken.perm {w : Restoring} (h : Taken sha256 p₀ todo order p w)
    (hfiled : Filed records todo) (hempty : ∀ id ∈ todo.keys, id ∈ order.map (·.id)) :
    order.Perm records := by
  refine (List.perm_ext_iff_of_nodup h.nodup.of_map hfiled.nodup.of_map).mpr fun r => ?_
  constructor
  · exact fun hr => ((hfiled.read r.id r).mp (h.found r hr)).1
  · intro hr
    have hread := (hfiled.read r.id r).mpr ⟨hr, rfl⟩
    have hkey : r.id ∈ todo.keys := by
      rw [Std.ExtTreeMap.mem_keys, Std.ExtTreeMap.mem_iff_isSome_getElem?, hread]
      rfl
    obtain ⟨x, hx, hid⟩ := List.mem_map.mp (hempty r.id hkey)
    have hfound := h.found x hx
    rw [hid, hread] at hfound
    exact Option.some.inj hfound ▸ hx

/-- **What a restoration restores**: a cache built in an order of its records, parents first. -/
theorem restore_builds
    (h : CachedPositions.restoreAttested sha256 context protocol records = .ok p) :
    ∃ order, order.Perm records ∧ RespectsAncestry order ∧
      buildFrom sha256 context protocol order = .ok p := by
  obtain ⟨p₀, todo, w, w', hnew, htodo, hw, hloop, hempty⟩ := restoreAttested_ok_iff.mp h
  have hfiled := fileRecords_ok htodo
  obtain ⟨order, htaken⟩ := restoreLoop_taken hfiled.keyed _ (taken_nil (enterAll_todo hw)) hloop
  have hall : ∀ id ∈ todo.keys, id ∈ order.map (·.id) := by
    intro id hid
    by_contra hnot
    have hleft := htaken.left id
    rw [if_neg hnot, Std.ExtTreeMap.isEmpty_iff.mp hempty, Std.ExtTreeMap.getElem?_empty] at hleft
    rw [Std.ExtTreeMap.mem_keys, Std.ExtTreeMap.mem_iff_isSome_getElem?, ← hleft] at hid
    exact nomatch hid
  exact ⟨order, htaken.perm hfiled hall,
    (applied_run (new_entries hnew) htaken.nodup htaken.run).causal,
    bind_ok_iff.mpr ⟨p₀, hnew, htaken.run⟩⟩

/-- A run that succeeds is, at each of its records, a run that succeeds and an application. -/
theorem applyRecords_split {r : PositionMetadata} {pre post : List PositionMetadata}
    (h : p₀.applyRecords sha256 (pre ++ r :: post) = .ok p) :
    ∃ q q', p₀.applyRecords sha256 pre = .ok q ∧ q.applyMetadata sha256 r = .ok q' := by
  unfold CachedPositions.applyRecords at h ⊢
  rw [List.foldlM_append, bind_ok_iff] at h
  obtain ⟨q, hq, h⟩ := h
  rw [List.foldlM_cons, bind_ok_iff] at h
  obtain ⟨q', hq', -⟩ := h
  exact ⟨q, q', hq, hq'⟩

/-- **A restoration succeeds** where some order does. -/
theorem restore_of_build (hnodup : (records.map (·.id)).Nodup) (hperm : order.Perm records)
    (h : buildFrom sha256 context protocol order = .ok p) :
    ∃ p', CachedPositions.restoreAttested sha256 context protocol records = .ok p' := by
  obtain ⟨p₀, hnew, hrun⟩ := bind_ok_iff.mp h
  obtain ⟨todo, htodo⟩ := fileRecords_total hnodup
  have hfiled := fileRecords_ok htodo
  have hids : (order.map (·.id)).Nodup := (hperm.map _).nodup_iff.mpr hnodup
  have hempty := new_entries hnew
  have happlied := applied_run hempty hids hrun
  have hread : ∀ {id : String} {r : PositionMetadata}, todo[id]? = some r → r ∈ order ∧ r.id = id :=
    fun hr => ⟨hperm.mem_iff.mpr ((hfiled.read _ _).mp hr).1, hfiled.keyed _ _ hr⟩
  have hunique : ∀ x ∈ order, ∀ y ∈ order, x.id = y.id → x = y := fun x hx y hy hid =>
    List.inj_on_of_nodup_map hids hx hy hid
  have hclosed : ∀ (id : String) (r : PositionMetadata), todo[id]? = some r →
      ∀ parent ∈ parentsOf r, parent ∈ todo := by
    intro id r hr parent hparent
    obtain ⟨k, hk, rfl⟩ := List.mem_map.mp hparent
    obtain ⟨pre, post, hsplit⟩ := List.append_of_mem (hread hr).1
    obtain ⟨b, hb, hkb⟩ := happlied.causal pre r post hsplit k hk
    rw [hkb, hfiled.mem_iff]
    refine List.mem_map_of_mem (hperm.mem_iff.mp ?_)
    rw [hsplit]
    exact List.mem_append_left _ hb
  obtain ⟨w, hw, hentered⟩ := entered_all hclosed
  have hfuel : todo.keys.length + 1
      ≤ ([] : List PositionMetadata).length + (records.length + 1) := by
    have hle : todo.keys.length ≤ (records.map (·.id)).length :=
      (List.subperm_of_subset (nodup_keys todo) fun id hid =>
        hfiled.mem_iff.mp (Std.ExtTreeMap.mem_keys.mp hid)).length_le
    rw [List.length_map] at hle
    simp only [List.length_nil]
    omega
  have haccepts : ∀ {done : List PositionMetadata} {out : CachedPositions} {w : Restoring}
      {id : String} {r : PositionMetadata}, Taken sha256 p₀ todo done out w → todo[id]? = some r →
        id ∉ done.map (·.id) → (∀ parent ∈ parentsOf r, parent ∈ done.map (·.id)) →
          ∃ out', out.applyMetadata sha256 r = .ok out' := by
    intro done out w id r htaken hr hnew hparents
    -- the record was accepted where it stands in the given order
    obtain ⟨hrin, rfl⟩ := hread hr
    obtain ⟨pre, post, hsplit⟩ := List.append_of_mem hrin
    obtain ⟨q, q', hq, hq'⟩ := applyRecords_split (hsplit ▸ hrun)
    have hidpre : (pre.map (·.id)).Nodup ∧ r.id ∉ pre.map (·.id) := by
      rw [hsplit, List.map_append, List.map_cons] at hids
      obtain ⟨h1, -, hsep⟩ := List.nodup_append.mp hids
      exact ⟨h1, fun hin => hsep _ hin r.id List.mem_cons_self rfl⟩
    have hdone : ∀ x ∈ done, x ∈ order := fun x hx => (hread (htaken.found x hx)).1
    refine (applied_run hempty hidpre.1 hq).applies (applied_run hempty htaken.nodup htaken.run)
      (fun x hx y hy => hunique x ?_ y (hdone y hy)) hidpre.2 hnew (fun k hk => ?_) hq'
    · rw [hsplit]
      exact List.mem_append_left _ hx
    · obtain ⟨b, hb, hkb⟩ := List.mem_map.mp (hparents _ (List.mem_map_of_mem hk))
      exact ⟨b, hb, hkb.symm⟩
  obtain ⟨out, w', order', hloop, htaken, hcounted, hready⟩ :=
    restoreLoop_total hfiled.keyed haccepts
      (records.length + 1) (taken_nil (enterAll_todo hw)) hentered.counted hfuel
  -- nothing ready means that every record was taken, by induction along the given order
  have hall : ∀ r ∈ order, r.id ∈ order'.map (·.id) := by
    refine happlied.induct fun r hr hparents => ?_
    have hrin := (hfiled.read r.id r).mpr ⟨hperm.mem_iff.mp hr, rfl⟩
    have hkey : r.id ∈ todo.keys := by
      rw [Std.ExtTreeMap.mem_keys, Std.ExtTreeMap.mem_iff_isSome_getElem?, hrin]
      rfl
    have hzero : openCount (predsOf todo) (order'.map (·.id)) r.id = 0 := by
      refine openCount_eq_zero_iff.mpr fun parent hparent => ?_
      have hpreds : predsOf todo r.id = parentsOf r := by
        unfold predsOf
        rw [hrin]
        rfl
      rw [hpreds] at hparent
      obtain ⟨k, hk, rfl⟩ := List.mem_map.mp hparent
      obtain ⟨b, -, hkb, hb⟩ := hparents k hk
      exact hkb ▸ hb
    refine ((hcounted.tracks.ready r.id hkey).mpr hzero).resolve_left ?_
    rw [hready]
    exact List.not_mem_nil
  refine ⟨out, restoreAttested_ok_iff.mpr ⟨p₀, todo, w, w', hnew, htodo, hw, hloop, ?_⟩⟩
  refine Std.ExtTreeMap.isEmpty_iff.mpr (Std.ExtTreeMap.ext_getElem? fun id => ?_)
  rw [htaken.left, Std.ExtTreeMap.getElem?_empty]
  cases hr : todo[id]? with
  | none => exact ite_self _
  | some r =>
      obtain ⟨hrin, rfl⟩ := hread hr
      exact if_pos (hall r hrin)

/-- The records decide the cache: orders that succeed build one, a restoration of the records in
    any order gives that one, and it succeeds exactly when some order that respects ancestry
    does. -/
structure Canonical (sha256 : Octets → Digest) (context : PositionContext)
    (protocol : Option CausalProtocol) (records : List PositionMetadata) : Prop where
  built : ∀ order order' p p', order.Perm records → order'.Perm records →
    buildFrom sha256 context protocol order = .ok p →
      buildFrom sha256 context protocol order' = .ok p' → p = p'
  restored : ∀ records' order p p', records'.Perm records → order.Perm records →
    CachedPositions.restoreAttested sha256 context protocol records' = .ok p →
      buildFrom sha256 context protocol order = .ok p' → p = p'
  permuted : ∀ records', records'.Perm records →
    CachedPositions.restoreAttested sha256 context protocol records'
      = CachedPositions.restoreAttested sha256 context protocol records
  succeeds : (∃ p, CachedPositions.restoreAttested sha256 context protocol records = .ok p) ↔
    ∃ order, order.Perm records ∧ RespectsAncestry order ∧
      ∃ p, buildFrom sha256 context protocol order = .ok p

/-- **Cache construction is independent of the order** of records of distinct identities. -/
theorem restore_canonical (sha256 : Octets → Digest) (context : PositionContext)
    (protocol : Option CausalProtocol) (records : List PositionMetadata)
    (hdistinct : (records.map (·.id)).Nodup) : Canonical sha256 context protocol records := by
  have hbuilt : ∀ order order' p p', order.Perm records → order'.Perm records →
      buildFrom sha256 context protocol order = .ok p →
        buildFrom sha256 context protocol order' = .ok p' → p = p' := by
    intro order order' p p' hperm hperm' h h'
    obtain ⟨p₀, hnew, hrun⟩ := bind_ok_iff.mp h
    obtain ⟨q₀, hnew', hrun'⟩ := bind_ok_iff.mp h'
    obtain rfl : p₀ = q₀ := Except.ok.inj (hnew.symm.trans hnew')
    have hids := (hperm.map (·.id)).nodup_iff.mpr hdistinct
    have hids' := (hperm'.map (·.id)).nodup_iff.mpr hdistinct
    have hsame := hperm.trans hperm'.symm
    exact (applied_run (new_entries hnew) hids hrun).unique
      (applied_run (new_entries hnew) hids' hrun') hsame fun x hx y hy hid =>
        List.inj_on_of_nodup_map hids hx (hsame.mem_iff.mpr hy) hid
  refine ⟨hbuilt, fun records' order p p' hperm hperm' h h' => ?_,
    fun records' hperm => restoreAttested_perm hdistinct hperm, ?_⟩
  · obtain ⟨order', hperm'', -, hbuild⟩ := restore_builds h
    exact hbuilt order' order p p' (hperm''.trans hperm) hperm' hbuild h'
  · constructor
    · rintro ⟨p, h⟩
      obtain ⟨order, hperm, hrespects, hbuild⟩ := restore_builds h
      exact ⟨order, hperm, hrespects, p, hbuild⟩
    · rintro ⟨order, hperm, -, p, hbuild⟩
      exact restore_of_build hdistinct hperm hbuild

/-- A root, a record that cites it twice in two spellings, and one that cites both. -/
def diamondRecords : List PositionMetadata :=
  [⟨"tip", "tick", some (.multiple ["sha256:root", "mid"])⟩,
    ⟨"mid", "tick", some (.multiple ["sha256-root", "sha256:root"])⟩,
    ⟨"sha256:root", "open", some .begin⟩]

theorem restore_canonical_diamond :
    Canonical CbclSha256.sha256 ⟨[], "sha256:root", "t"⟩ none diamondRecords :=
  restore_canonical CbclSha256.sha256 ⟨[], "sha256:root", "t"⟩ none diamondRecords (by decide)

end Canonical

end CbclPositions
