import Cbcl.ActSetProofs
import Cbcl.ContextModel
import Cbcl.EscrowObservationProofs

/-!
# Contexts are well founded

Every founding that succeeds has what a `Context` carries: a committee of `3f + 1` validators, one
scope of resources for each actor or one pool, and no account below zero.  `fromInstance` is the
constructor built on that.  The resources it gives out are those of the opener, together with the
floor no more and no less than the ceiling, and the context it builds is a function of the genesis:
no later act of the history has any part in it.
-/

namespace CbclContext

open CbclMessage CbclProtocol CbclAct CbclCanonical CbclDialectCanonical CbclTypedAddr
open CbclCertification CbclDialect CbclEscrow CbclEscrowSolvency CbclEscrowHistory
open CbclEscrowStage CbclEscrowObservation CbclExports CbclIntend CbclQuorum CbclTreeMap
open CbclExcept CbclActSet CbclStateSelection CbclShape
open CbclRole hiding Dialect PerformativeDef

-- ── Committees ────

/-- A committee has `3f + 1` different validators and a quorum of `2f + 1`. -/
structure Seated (committee : Committee) : Prop where
  nodup : committee.validators.Nodup
  length : committee.validators.length = 3 * committee.faults.toNat + 1
  quorum : committee.quorum = 2 * committee.faults.toNat + 1

theorem roster_nodup {keys sorted : List String} (h : roster keys = .ok sorted) :
    sorted.Nodup := by
  unfold roster at h
  by_cases hnil : keys = []
  · rw [if_pos hnil] at h
    cases h
  · rw [if_neg hnil] at h
    by_cases hkeys : (keys.any fun k => !isKeySymbol k) = true
    · rw [if_pos hkeys] at h
      cases h
    · rw [if_neg hkeys] at h
      by_cases hdup : (keys.insertionSort (· ≤ ·)).Nodup
      · rw [if_neg (not_not.mpr hdup)] at h
        exact Except.ok.inj h ▸ hdup
      · rw [if_pos hdup] at h
        cases h

theorem Committee.new_seated {keys : List String} {faults : Option UInt32} {c : Committee}
    (h : Committee.new keys faults = .ok c) : Seated c := by
  unfold Committee.new at h
  obtain ⟨validators, hroster, h⟩ := bind_ok_iff.mp h
  have hseated : ∀ f : UInt32, (if f.toNat * 3 + 1 ≠ validators.length then
      Except.error "quorum-budget requires exactly 3f+1 validators"
      else Except.ok (⟨validators, f, 2 * f.toNat + 1⟩ : Committee)) = .ok c → Seated c := by
    intro f h
    by_cases hlen : f.toNat * 3 + 1 ≠ validators.length
    · rw [if_pos hlen] at h
      cases h
    · rw [if_neg hlen] at h
      cases h
      refine ⟨roster_nodup hroster, ?_, rfl⟩
      dsimp only
      omega
  cases faults with
  | some f => exact hseated f h
  | none =>
      dsimp only at h
      by_cases hsize : (validators.length - 1) / 3 < UInt32.size
      · rw [if_pos hsize] at h
        exact hseated _ h
      · rw [if_neg hsize] at h
        cases h

/-- A resolved committee is seated. -/
theorem resolve_seated {certification : Certification} {validators : Option (List String)}
    {c : Committee} (h : certification.resolve validators = .ok c) : Seated c := by
  cases certification with
  | hostGate => cases h
  | quorumBudget own faults =>
      unfold Certification.resolve at h
      dsimp only at h
      cases hkeys : own.or validators with
      | none =>
          rw [hkeys] at h
          cases h
      | some keys =>
          rw [hkeys] at h
          obtain ⟨c', hnew, h⟩ := bind_ok_iff.mp h
          have hc : c' = c := by
            cases own with
            | none => exact Except.ok.inj h
            | some own =>
                cases validators with
                | none => exact Except.ok.inj h
                | some bound =>
                    obtain ⟨sorted, -, h⟩ := bind_ok_iff.mp h
                    by_cases hsame : sorted ≠ c'.validators
                    · rw [if_pos hsame] at h
                      cases h
                    · rw [if_neg hsame] at h
                      exact Except.ok.inj h
          exact hc ▸ Committee.new_seated hnew

-- ── Endowments ────

/-- The rights of all accounts together. -/
def totalRights (initial : BTreeMap String Resources) : ℤ :=
  ((valuesOf initial).map (·.rights)).sum

/-- The headroom of all accounts together. -/
def totalHeadroom (initial : BTreeMap String Resources) : ℤ :=
  ((valuesOf initial).map (·.headroom)).sum

/-- What the endowment of a counter must be. -/
structure Endowed (rule : CounterRule) (e : Endowment) : Prop where
  account_actors : rule.ownership = .account → ∀ a, a ∈ e.actors ↔ a ∈ e.initial
  collective_pool : rule.ownership = .collective → ∀ a, a ∈ e.initial ↔ a = COLLECTIVE_POOL
  nonnegative : ∀ (a : String) (b : Resources), e.initial[a]? = some b → b.nonnegative = true
  /-- Rights and headroom add up to what the ceiling leaves over the floor. -/
  ceiling : ∀ cap, rule.ceiling = some cap →
    rule.floor.toInt + totalRights e.initial + totalHeadroom e.initial = cap.toInt

theorem nonnegative_iff {b : Resources} : b.nonnegative = true ↔ 0 ≤ b.rights ∧ 0 ≤ b.headroom := by
  unfold Resources.nonnegative
  rw [Bool.and_eq_true, decide_eq_true_eq, decide_eq_true_eq]

theorem getElem?_poolOf (b : Resources) (a : String) :
    (poolOf b)[a]? = if a = COLLECTIVE_POOL then some b else none := by
  unfold poolOf
  rw [getElem?_insert_eq, Std.ExtTreeMap.getElem?_empty]

theorem mem_poolOf (b : Resources) (a : String) : a ∈ poolOf b ↔ a = COLLECTIVE_POOL := by
  unfold poolOf
  rw [Std.ExtTreeMap.mem_insert, compare_eq_iff_eq, eq_comm]
  simp

/-- A quantity of a pool is that of its one account. -/
theorem sum_poolOf (b : Resources) (f : Resources → ℤ) :
    ((valuesOf (poolOf b)).map f).sum = f b := by
  have hkeys : (poolOf b).keys.toFinset = {COLLECTIVE_POOL} := by
    ext a
    rw [List.mem_toFinset, Std.ExtTreeMap.mem_keys, mem_poolOf, Finset.mem_singleton]
  rw [sum_valuesOf, hkeys, Finset.sum_singleton, getElem?_poolOf, if_pos rfl]
  rfl

theorem collectiveEndowment_endowed {rule : CounterRule} (hown : rule.ownership = .collective)
    {thread : ThreadId} {g : Genesis} {cast_keys : BTreeSet String} {e : Endowment}
    (h : collectiveEndowment rule thread g cast_keys = .ok e) : Endowed rule e := by
  unfold collectiveEndowment at h
  by_cases hpool : COLLECTIVE_POOL ∈ cast_keys
  · rw [if_pos hpool] at h
    cases h
  rw [if_neg hpool] at h
  by_cases hcontext : g.root.verb ≠ "hello" ∨ g.root.simple.thread ≠ some thread
      ∨ g.root.predecessors ≠ [] ∨ g.opener.predecessors ≠ [g.root.address]
  · rw [if_pos hcontext] at h
    cases h
  rw [if_neg hcontext] at h
  cases hamount : (g.opener.fields[rule.initial_key]?).bind naturalAmount with
  | none =>
      rw [hamount] at h
      cases h
  | some amount =>
      rw [hamount] at h
      dsimp only at h
      obtain ⟨x, -, hx⟩ := Option.bind_eq_some_iff.mp hamount
      have hnat : 0 ≤ amount := by
        simpa using (Option.filter_eq_some_iff.mp hx).2
      by_cases hroom : headroomOf rule amount < 0
      · rw [if_pos hroom] at h
        cases h
      · rw [if_neg hroom] at h
        cases h
        refine ⟨fun h => absurd (hown.symm.trans h) (by decide), fun _ => mem_poolOf _,
          fun a b hb => ?_, fun cap hcap => ?_⟩
        · rw [getElem?_poolOf] at hb
          by_cases ha : a = COLLECTIVE_POOL
          · rw [if_pos ha] at hb
            cases hb
            exact nonnegative_iff.mpr ⟨hnat, not_lt.mp hroom⟩
          · rw [if_neg ha] at hb
            cases hb
        · unfold totalRights totalHeadroom
          rw [sum_poolOf, sum_poolOf]
          unfold headroomOf
          rw [hcap]
          dsimp only
          omega

/-- The accounts of a snapshot hold its rights. -/
theorem totalRights_allocated (s : Snapshot) : totalRights (allocated s) = sumOf s.rights := by
  unfold totalRights allocated valuesOf sumOf valuesOf
  rw [Std.ExtTreeMap.toList_map, List.map_map, List.map_map]
  rfl

/-- The accounts of a snapshot hold its headroom, where each has an entry. -/
theorem totalHeadroom_allocated {s : Snapshot} {m : BTreeMap String Int}
    (hm : s.headroom = some m) (hkeys : m.keys.toFinset = s.rights.keys.toFinset) :
    totalHeadroom (allocated s) = sumOf m := by
  unfold totalHeadroom allocated valuesOf
  rw [Std.ExtTreeMap.toList_map, List.map_map, List.map_map, hm,
    sumOf_eq_sum hkeys.le, List.sum_toFinset _ (nodup_keys s.rights),
    ← Std.ExtTreeMap.map_fst_toList_eq_keys, List.map_map]
  rfl

theorem getElem?_allocated (s : Snapshot) (a : String) :
    (allocated s)[a]? = (s.rights[a]?).map fun n => ⟨n, (s.headroom.bind (·[a]?)).getD 0⟩ := by
  unfold allocated
  rw [Std.ExtTreeMap.getElem?_map]

/-- What a ready observation of a counter says of its balances. -/
theorem observe_balanced {contentHash : Message → String} {c : CounterRule} {acts : List Act}
    {s : Snapshot} (h : observe contentHash c acts = .ready s) :
    Natural s.rights ∧
      (∀ m, s.headroom = some m → Natural m ∧ m.keys.toFinset = s.rights.keys.toFinset) ∧
      ∀ cap, c.ceiling = some cap → ∃ m, s.headroom = some m ∧
        c.floor.toInt + sumOf s.rights + sumOf m = cap.toInt := by
  obtain ⟨all, hf, hsettle⟩ := observe_ready h
  obtain ⟨o, ops, hpass, hconclude⟩ := passed_of_ok hsettle
  unfold conclude at hconclude
  obtain ⟨⟨rights, headroom⟩, hb, hconclude⟩ := bind_ok_iff.mp hconclude
  have hs : s.rights = rights ∧ s.headroom = headroom := by
    dsimp only at hconclude
    split at hconclude
    · cases hconclude
    · split at hconclude
      · cases hconclude
      · split at hconclude
        · cases hconclude
        · cases hconclude
          exact ⟨rfl, rfl⟩
  have final := hpass.final hb
  obtain ⟨hr, hh⟩ := balances_ok hb
  rw [hs.1, hs.2]
  refine ⟨final.rights_nonneg, fun m hm => ⟨final.headroom_nonneg m hm, ?_⟩, final.ceiling⟩
  subst hm
  cases hoh : o.headroom with
  | none =>
      rw [hoh] at hh
      exact hh.elim
  | some m₀ =>
      rw [hoh] at hh
      have hh : Shifted m₀ m _ := hh
      rw [hh.keys, hr.keys, (hpass.checked.opened.headroom m₀ hoh).1]

variable {sha256 : Octets → Digest}

theorem mem_keySet {ν : Type} (m : BTreeMap String ν) (a : String) :
    a ∈ m.keys.foldl (fun s k => s.insert k) (∅ : BTreeSet String) ↔ a ∈ m := by
  rw [mem_foldl_insert, Std.ExtTreeMap.mem_keys]
  simp

theorem accountEndowment_endowed {d : Dialect} {thread : ThreadId} {rule : CounterRule}
    (hown : rule.ownership = .account) {g : Genesis} {e : Endowment}
    (h : accountEndowment sha256 d thread rule g = .ok e) : Endowed rule e := by
  unfold accountEndowment at h
  cases hobserve : observeIn (typedRoot sha256) d thread { rule with certification := .hostGate }
      g.acts with
  | pending evidence => rw [hobserve] at h; cases h
  | fault reason evidence => rw [hobserve] at h; cases h
  | ready s =>
      rw [hobserve] at h
      cases h
      obtain ⟨-, -, hready⟩ := observeIn_ready_iff.mp hobserve
      obtain ⟨hrights, hheadroom, hceiling⟩ := observe_balanced hready
      refine ⟨fun _ => mem_keySet _, fun h => absurd (hown.symm.trans h) (by decide),
        fun a b hb => ?_, fun cap hcap => ?_⟩
      · rw [getElem?_allocated] at hb
        obtain ⟨n, hn, rfl⟩ := Option.map_eq_some_iff.mp hb
        refine nonnegative_iff.mpr ⟨hrights a n hn, ?_⟩
        cases hm : s.headroom with
        | none => exact le_refl 0
        | some m =>
            cases hv : m[a]? with
            | none =>
                rw [Option.bind_some, hv]
                exact le_refl 0
            | some v =>
                rw [Option.bind_some, hv]
                exact (hheadroom m hm).1 a v hv
      · obtain ⟨m, hm, hsum⟩ := hceiling cap hcap
        rw [totalRights_allocated, totalHeadroom_allocated hm (hheadroom m hm).2]
        exact hsum

/-- **Every endowment is what a context needs.** -/
theorem endow_endowed {d : Dialect} {thread : ThreadId} {rule : CounterRule} {g : Genesis}
    {cast : Cast} {e : Endowment} (h : endow sha256 d thread rule g cast = .ok e) :
    Endowed rule e := by
  unfold endow at h
  by_cases hown : rule.ownership = .collective
  · rw [if_pos hown] at h
    exact collectiveEndowment_endowed hown h
  · rw [if_neg hown] at h
    have haccount : rule.ownership = .account := by
      cases hcase : rule.ownership with
      | account => rfl
      | collective => exact absurd hcase hown
    exact accountEndowment_endowed haccount h

-- ── Foundings ────

/-- What a founding has found. -/
structure Founded (sha256 : Octets → Digest) (auth : Authentication) (inst : Instance)
    (field : String) (validators : Option (List String)) (f : Founding) : Prop where
  dialect : f.dialect = inst.dialect
  thread : f.thread = inst.thread
  typed : CbclR7.r7Violations sha256 inst.dialect = []
  rule : counterOf inst.dialect field = .ok f.rule
  committee : f.rule.certification.resolve validators = .ok f.committee
  genesis : ∃ accepted, Instance.new inst.dialect inst.thread inst.acts = .ok accepted ∧
    genesisOf accepted f.rule = .ok f.genesis
  authentic : ∀ a ∈ f.genesis.acts, authenticGenesis sha256 auth a = .ok ()
  endowment : ∃ bound keys, Instance.new inst.dialect inst.thread f.genesis.acts = .ok bound ∧
    bound.cast = some keys ∧
    endow sha256 inst.dialect inst.thread f.rule f.genesis keys = .ok f.endowment ∧
    f.issuers = issuersOf keys f.rule f.endowment.actors
  named : f.field = field
  identity : f.id = CbclQuorum.digest sha256 (contextParts (dialectHash sha256 inst.dialect)
    inst.thread f.genesis field f.committee)

variable {auth : Authentication} {inst : Instance} {field : String}
  {validators : Option (List String)} {f : Founding}

/-- **A founding succeeds exactly with what it finds.** -/
theorem found_ok_iff : found sha256 auth inst field validators = .ok f ↔
    Founded sha256 auth inst field validators f := by
  unfold found
  rw [bind_ok_iff]
  constructor
  · rintro ⟨accepted, haccepted, h⟩
    by_cases htyped : CbclR7.r7Violations sha256 inst.dialect = []
    · rw [if_neg (not_not.mpr htyped)] at h
      obtain ⟨rule, hrule, h⟩ := bind_ok_iff.mp h
      obtain ⟨committee, hcommittee, h⟩ := bind_ok_iff.mp h
      obtain ⟨g, hg, h⟩ := bind_ok_iff.mp h
      obtain ⟨_, hauth, h⟩ := bind_ok_iff.mp h
      obtain ⟨bound, hbound, h⟩ := bind_ok_iff.mp h
      cases hcast : bound.cast with
      | none =>
          rw [hcast] at h
          cases h
      | some keys =>
          rw [hcast] at h
          obtain ⟨e, he, h⟩ := bind_ok_iff.mp h
          cases h
          exact ⟨rfl, rfl, htyped, hrule, hcommittee, ⟨accepted, haccepted, hg⟩,
            forM_ok_iff.mp hauth, ⟨bound, keys, hbound, hcast, he, rfl⟩, rfl, rfl⟩
    · rw [if_pos htyped] at h
      cases h
  · intro h
    obtain ⟨accepted, haccepted, hg⟩ := h.genesis
    obtain ⟨bound, keys, hbound, hcast, he, hissuers⟩ := h.endowment
    refine ⟨accepted, haccepted, ?_⟩
    rw [if_neg (not_not.mpr h.typed), h.rule]
    refine bind_ok_iff.mpr ⟨f.rule, rfl, bind_ok_iff.mpr ⟨f.committee, h.committee,
      bind_ok_iff.mpr ⟨f.genesis, hg, bind_ok_iff.mpr ⟨(), forM_ok_iff.mpr h.authentic,
        bind_ok_iff.mpr ⟨bound, hbound, ?_⟩⟩⟩⟩⟩
    rw [hcast]
    refine bind_ok_iff.mpr ⟨f.endowment, he, ?_⟩
    rw [← hissuers, ← h.identity, ← h.dialect, ← h.thread, ← h.named]
    rfl
-- ── Contexts ────

/-- What is filed under a key was filed by an item of that key. -/
theorem of_getElem?_filed {α κ ν : Type} [DecidableEq κ] [Ord κ] [Std.TransOrd κ]
    [Std.LawfulEqOrd κ] {key : α → κ} {value : α → ν} {k : κ} {v : ν} (xs : List α)
    (h : (xs.foldl (fun m x => m.insert (key x) (value x)) (∅ : BTreeMap κ ν))[k]? = some v) :
    ∃ x ∈ xs, key x = k ∧ value x = v := by
  induction xs using List.reverseRecOn with
  | nil =>
      rw [List.foldl_nil, Std.ExtTreeMap.getElem?_empty] at h
      cases h
  | append_singleton xs x ih =>
      rw [List.foldl_append, List.foldl_cons, List.foldl_nil, getElem?_insert_eq] at h
      by_cases hk : k = key x
      · rw [if_pos hk] at h
        exact ⟨x, List.mem_append_right _ (List.mem_singleton_self x), hk.symm,
          Option.some.inj h⟩
      · rw [if_neg hk] at h
        obtain ⟨y, hy, hkey⟩ := ih h
        exact ⟨y, List.mem_append_left _ hy, hkey⟩

/-- Every item files something under its key. -/
theorem mem_filed {α κ ν : Type} [DecidableEq κ] [Ord κ] [Std.TransOrd κ]
    [Std.LawfulEqOrd κ] (key : α → κ) (value : α → ν) {x : α} {xs : List α} (h : x ∈ xs) :
    key x ∈ xs.foldl (fun m x => m.insert (key x) (value x)) (∅ : BTreeMap κ ν) := by
  induction xs using List.reverseRecOn with
  | nil => exact absurd h List.not_mem_nil
  | append_singleton xs y ih =>
      rw [List.foldl_append, List.foldl_cons, List.foldl_nil, Std.ExtTreeMap.mem_insert]
      rcases List.mem_append.mp h with h | h
      · exact Or.inr (ih h)
      · rw [List.mem_singleton.mp h]
        exact Or.inl Std.ReflCmp.compare_self

namespace Founding

theorem rootIds_iff (f : Founding) (a id' : String) : (f.rootIds sha256)[a]? = some id' ↔
    a ∈ f.endowment.initial ∧ id' = CbclQuorum.digest sha256 (rootParts f.id a) := by
  unfold rootIds
  rw [Std.ExtTreeMap.getElem?_map, Option.map_eq_some_iff]
  constructor
  · rintro ⟨b, hb, rfl⟩
    exact ⟨Std.ExtTreeMap.mem_iff_isSome_getElem?.mpr (by rw [hb]; rfl), rfl⟩
  · rintro ⟨hmem, rfl⟩
    obtain ⟨b, hb⟩ := Option.isSome_iff_exists.mp (Std.ExtTreeMap.mem_iff_isSome_getElem?.mp hmem)
    exact ⟨b, hb, rfl⟩

theorem mem_rootManifests {f : Founding} {a id' : String}
    (h : (f.rootIds sha256)[a]? = some id') : id' ∈ f.rootManifests sha256 := by
  obtain ⟨hmem, rfl⟩ := (f.rootIds_iff a id').mp h
  obtain ⟨b, hb⟩ := Option.isSome_iff_exists.mp (Std.ExtTreeMap.mem_iff_isSome_getElem?.mp hmem)
  unfold rootManifests
  exact mem_filed (fun e : String × Resources => CbclQuorum.digest sha256 (rootParts f.id e.1))
    (fun e => genesisManifest e.1 e.2) (x := (a, b))
    (Std.ExtTreeMap.mem_toList_iff_getElem?_eq_some.mpr hb)

theorem of_rootManifests {f : Founding} {id' : String} {m : VersionManifest}
    (h : (f.rootManifests sha256)[id']? = some m) :
    ∃ (a : String) (b : Resources), f.endowment.initial[a]? = some b ∧
      (f.rootIds sha256)[a]? = some id' ∧ m = genesisManifest a b := by
  obtain ⟨⟨a, b⟩, hmem, hid, hm⟩ := of_getElem?_filed _ h
  have hb := Std.ExtTreeMap.mem_toList_iff_getElem?_eq_some.mp hmem
  exact ⟨a, b, hb, (f.rootIds_iff a id').mpr
    ⟨Std.ExtTreeMap.mem_iff_isSome_getElem?.mpr (by rw [hb]; rfl), hid.symm⟩, hm.symm⟩

/-- The context of a founding. -/
def toContext (sha256 : Octets → Digest) (f : Founding) (seated : Seated f.committee)
    (endowed : Endowed f.rule f.endowment) : Context where
  sha256
  id := f.id
  dialect := f.dialect
  thread := f.thread
  genesis := f.genesis.acts
  rule := f.rule
  committee := f.committee
  initial := f.endowment.initial
  root_ids := f.rootIds sha256
  root_manifests := f.rootManifests sha256
  issuers := f.issuers
  actors := f.endowment.actors
  validators_nodup := seated.nodup
  validators_length := seated.length
  quorum_eq := seated.quorum
  account_actors := endowed.account_actors
  collective_pool := endowed.collective_pool
  initial_nonnegative := endowed.nonnegative
  root_id_iff := f.rootIds_iff
  root_known := fun _ _ => mem_rootManifests
  root_manifest := fun _ _ => of_rootManifests

end Founding

theorem Founded.seated (h : Founded sha256 auth inst field validators f) : Seated f.committee :=
  resolve_seated h.committee

theorem Founded.endowed (h : Founded sha256 auth inst field validators f) :
    Endowed f.rule f.endowment := by
  obtain ⟨bound, keys, -, -, he, -⟩ := h.endowment
  exact endow_endowed he

/-- The last check of a context: the opener of a collective counter is an act of the context. -/
def admitOpener (c : Context) (opener : Act) : Except String Context :=
  if c.rule.ownership = .collective then do
    c.structural opener
    return c
  else .ok c

/-- The context of an instance. -/
def fromInstance (sha256 : Octets → Digest) (auth : Authentication) (inst : Instance)
    (field : String) (validators : Option (List String)) : Except String Context :=
  match h : found sha256 auth inst field validators with
  | .error e => .error e
  | .ok f =>
      admitOpener (f.toContext sha256 (found_ok_iff.mp h).seated (found_ok_iff.mp h).endowed)
        f.genesis.opener

/-- A context is that of a founding, whose opener passes the last check. -/
theorem fromInstance_ok_iff {c : Context} :
    fromInstance sha256 auth inst field validators = .ok c ↔
      ∃ f, ∃ h : Founded sha256 auth inst field validators f,
        c = f.toContext sha256 h.seated h.endowed ∧
        admitOpener c f.genesis.opener = .ok c := by
  unfold fromInstance
  split
  · rename_i e he
    constructor
    · intro h
      cases h
    · rintro ⟨f, h, -⟩
      rw [found_ok_iff.mpr h] at he
      cases he
  · rename_i f hf
    constructor
    · intro h
      have hc : f.toContext sha256 (found_ok_iff.mp hf).seated (found_ok_iff.mp hf).endowed
          = c := by
        unfold admitOpener at h
        split at h
        · obtain ⟨_, -, h⟩ := bind_ok_iff.mp h
          exact Except.ok.inj h
        · exact Except.ok.inj h
      exact ⟨f, found_ok_iff.mp hf, hc.symm, hc ▸ h⟩
    · rintro ⟨f', h, rfl, hlast⟩
      obtain rfl : f = f' := Except.ok.inj (hf.symm.trans (found_ok_iff.mpr h))
      exact hlast
-- ── Genesis ────

theorem genesisOf_ok_iff {i : Instance} {rule : CounterRule} {g : Genesis} :
    genesisOf i rule = .ok g ↔ i.opener = some g.opener ∧ i.root = some g.root ∧
      ∀ a ∈ i.acts, a.verb = rule.initial_verb → a.address = g.opener.address := by
  unfold genesisOf
  cases hopener : i.opener with
  | none =>
      constructor
      · intro h
        cases h
      · rintro ⟨h, -⟩
        cases h
  | some o =>
      cases hroot : i.root with
      | none =>
          constructor
          · intro h
            cases h
          · rintro ⟨-, h, -⟩
            cases h
      | some r =>
          dsimp only
          by_cases hsecond : (i.acts.any fun a =>
              a.verb = rule.initial_verb && a.address ≠ o.address) = true
          · rw [if_pos hsecond]
            constructor
            · intro h
              cases h
            · rintro ⟨ho, -, hall⟩
              obtain ⟨a, ha, hboth⟩ := List.any_eq_true.mp hsecond
              rw [Bool.and_eq_true, decide_eq_true_eq, decide_eq_true_eq] at hboth
              exact absurd (Option.some.inj ho ▸ hall a ha hboth.1) hboth.2
          · rw [if_neg hsecond]
            constructor
            · intro h
              cases h
              refine ⟨rfl, rfl, fun a ha hverb => ?_⟩
              by_contra hne
              exact hsecond (List.any_eq_true.mpr ⟨a, ha, by simp [hverb, hne]⟩)
            · rintro ⟨ho, hr, -⟩
              rw [Option.some.inj ho, Option.some.inj hr]

/-- The opener and the root an instance reads off its acts. -/
theorem instance_genesis {d : Dialect} {thread : ThreadId} {acts : List Act} {i : Instance}
    (h : Instance.new d thread acts = .ok i) :
    i.acts = acts ∧ (i.opener = d.causal_protocol.bind fun p => CbclExports.opener p acts) ∧
      i.root = if d.roles.isEmpty then none else root acts := by
  unfold Instance.new at h
  dsimp only at h
  by_cases hroles : d.roles.isEmpty = true
  · rw [if_pos hroles] at h
    cases h
    exact ⟨rfl, rfl, (if_pos hroles).symm⟩
  · rw [if_neg hroles] at h ⊢
    cases hroot : root acts with
    | none =>
        rw [hroot] at h
        cases h
        exact ⟨rfl, rfl, rfl⟩
    | some r =>
        rw [hroot] at h
        dsimp only at h
        cases hcast : castOf d r.message with
        | error e =>
            rw [hcast] at h
            cases h
        | ok parsed =>
            rw [hcast] at h
            cases h
            exact ⟨rfl, rfl, rfl⟩

/-- An act that is least in a set is least in every part that holds it. -/
theorem leastAct_part {acts part : List Act} (hkeyed : Keyed acts) (hpart : part ⊆ acts) {a : Act}
    (hleast : leastAct acts = some a) (ha : a ∈ part) : leastAct part = some a := by
  cases hfound : leastAct part with
  | none =>
      cases part with
      | nil => exact absurd ha List.not_mem_nil
      | cons b rest => cases hfound
  | some b =>
      have hb := mem_of_leastAct hfound
      have hle := leastAct_le hfound a ha
      have hge := leastAct_le hleast b (hpart hb)
      exact congrArg some (hkeyed b (hpart hb) a (hpart ha) (le_antisymm hle hge))

theorem filter_part {acts part : List Act} (hpart : part ⊆ acts) (p : Act → Bool) :
    part.filter p ⊆ acts.filter p := by
  intro a ha
  rw [List.mem_filter] at ha ⊢
  exact ⟨hpart ha.1, ha.2⟩

/-- The root of a history is the root of every part that holds it. -/
theorem root_part {acts part : List Act} (hkeyed : Keyed acts) (hpart : part ⊆ acts) {r : Act}
    (hroot : root acts = some r) (hr : r ∈ part) : root part = some r := by
  have hmem := List.mem_filter.mp (mem_of_leastAct hroot)
  exact leastAct_part (Keyed.filter hkeyed _) (filter_part hpart _) hroot
    (List.mem_filter.mpr ⟨hr, hmem.2⟩)

/-- The opener of a history is the opener of every part that holds it and the root. -/
theorem opener_part {protocol : CausalProtocol} {acts part : List Act} (hkeyed : Keyed acts)
    (hpart : part ⊆ acts) {r o : Act} (hroot : root acts = some r) (hr : r ∈ part)
    (hopener : opener protocol acts = some o) (ho : o ∈ part) :
    opener protocol part = some o := by
  unfold opener at hopener ⊢
  rw [root_part hkeyed hpart hroot hr]
  obtain ⟨verb, hverb, hleast⟩ := Option.bind_eq_some_iff.mp hopener
  rw [hroot] at hleast
  rw [hverb]
  have hmem := List.mem_filter.mp (mem_of_leastAct hleast)
  exact leastAct_part (Keyed.filter hkeyed _) (filter_part hpart _) hleast
    (List.mem_filter.mpr ⟨ho, hmem.2⟩)

/-- The genesis of a founding is the root and the opener of the history. -/
theorem Founded.read (h : Founded sha256 auth inst field validators f) :
    ¬ inst.dialect.roles.isEmpty = true ∧ root inst.acts = some f.genesis.root ∧
      ∃ p, inst.dialect.causal_protocol = some p ∧
        opener p inst.acts = some f.genesis.opener := by
  obtain ⟨accepted, haccepted, hg⟩ := h.genesis
  obtain ⟨hopener, hroot, -⟩ := genesisOf_ok_iff.mp hg
  obtain ⟨-, hao, har⟩ := instance_genesis haccepted
  rw [hao] at hopener
  rw [har] at hroot
  by_cases hroles : inst.dialect.roles.isEmpty = true
  · rw [if_pos hroles] at hroot
    cases hroot
  · rw [if_neg hroles] at hroot
    exact ⟨hroles, hroot, Option.bind_eq_some_iff.mp hopener⟩

theorem Founded.genesis_part (h : Founded sha256 auth inst field validators f) :
    f.genesis.acts ⊆ inst.acts := by
  obtain ⟨-, hroot, p, -, hopener⟩ := h.read
  intro a ha
  rcases List.mem_cons.mp ha with rfl | ha
  · exact (List.mem_filter.mp (mem_of_leastAct hroot)).1
  · rw [List.mem_singleton.mp ha]
    obtain ⟨verb, -, hleast⟩ := Option.bind_eq_some_iff.mp hopener
    exact (List.mem_filter.mp (mem_of_leastAct hleast)).1

/-- What is found in a history is found in its genesis alone. -/
theorem Founded.of_genesis (hkeyed : Keyed inst.acts)
    (h : Founded sha256 auth inst field validators f) :
    Founded sha256 auth { inst with acts := f.genesis.acts } field validators f := by
  refine { h with genesis := ?_, endowment := h.endowment }
  have hpart := h.genesis_part
  obtain ⟨hroles, hroot, p, hp, hopener⟩ := h.read
  have hr : f.genesis.root ∈ f.genesis.acts := List.mem_cons_self ..
  have ho : f.genesis.opener ∈ f.genesis.acts := List.mem_cons_of_mem _ (List.mem_cons_self ..)
  obtain ⟨accepted, haccepted, hg⟩ := h.genesis
  obtain ⟨-, -, hsecond⟩ := genesisOf_ok_iff.mp hg
  obtain ⟨bound, keys, hbound, -⟩ := h.endowment
  obtain ⟨hacts, -, -⟩ := instance_genesis haccepted
  obtain ⟨hbacts, hbo, hbr⟩ := instance_genesis hbound
  refine ⟨bound, hbound, genesisOf_ok_iff.mpr ⟨?_, ?_, fun a ha hverb => ?_⟩⟩
  · rw [hbo, hp]
    exact opener_part hkeyed hpart hroot hr hopener ho
  · rw [hbr, if_neg hroles]
    exact root_part hkeyed hpart hroot hr
  · exact hsecond a (hacts ▸ hpart (hbacts ▸ ha)) hverb

/-- Histories of one dialect and thread with one genesis give one founding. -/
theorem Founded.unique {inst' : Instance} {f' : Founding}
    (h : Founded sha256 auth inst field validators f)
    (h' : Founded sha256 auth inst' field validators f') (hd : inst'.dialect = inst.dialect)
    (ht : inst'.thread = inst.thread) (hg : f'.genesis = f.genesis) : f' = f := by
  have hrule : f'.rule = f.rule :=
    Except.ok.inj ((h'.rule.symm.trans (by rw [hd])).trans h.rule)
  have hcommittee : f'.committee = f.committee :=
    Except.ok.inj ((h'.committee.symm.trans (by rw [hrule])).trans h.committee)
  obtain ⟨bound, keys, hbound, hkeys, hendow, hissuers⟩ := h.endowment
  obtain ⟨bound', keys', hbound', hkeys', hendow', hissuers'⟩ := h'.endowment
  rw [hd, ht, hg, hbound] at hbound'
  obtain rfl := Except.ok.inj hbound'
  obtain rfl : keys = keys' := Option.some.inj (hkeys.symm.trans hkeys')
  rw [hd, ht, hrule, hg, hendow] at hendow'
  have hendowment := (Except.ok.inj hendow').symm
  have hid : f'.id = f.id := by
    rw [h'.identity, h.identity, hd, ht, hg, hcommittee]
  have hall : f'.issuers = f.issuers := by
    rw [hissuers', hissuers, hrule, hendowment]
  have hfield : f'.field = f.field := h'.named.trans h.named.symm
  have hdialect : f'.dialect = f.dialect := h'.dialect.trans (hd.trans h.dialect.symm)
  have hthread : f'.thread = f.thread := h'.thread.trans (ht.trans h.thread.symm)
  cases f
  cases f'
  simp only at hrule hcommittee hendowment hid hall hfield hdialect hthread hg
  subst hrule hcommittee hendowment hid hall hfield hdialect hthread hg
  rfl

variable {c : Context}

/-- **A context gives out what its ceiling allows, from authentic acts of the history.** -/
theorem fromInstance_funds (h : fromInstance sha256 auth inst field validators = .ok c) :
    (∀ cap, c.rule.ceiling = some cap →
      c.rule.floor.toInt + totalRights c.initial + totalHeadroom c.initial = cap.toInt) ∧
    (∀ a ∈ c.issuers, a ∈ c.actors) ∧
    ∀ a ∈ c.genesis, a ∈ inst.acts ∧ auth.authenticateAct a = true ∧
      Act.fromMessage (typedRoot sha256) a.message a.signer = .ok a := by
  obtain ⟨f, hf, rfl, -⟩ := fromInstance_ok_iff.mp h
  refine ⟨hf.endowed.ceiling, fun a ha => ?_, fun a ha => ⟨hf.genesis_part ha, ?_⟩⟩
  · obtain ⟨bound, keys, -, -, -, hissuers⟩ := hf.endowment
    have ha : a ∈ issuersOf keys f.rule f.endowment.actors := hissuers ▸ ha
    exact Std.ExtTreeSet.mem_of_mem_filter ha
  · obtain ⟨built, hbuilt, hcheck⟩ := bind_ok_iff.mp (hf.authentic a ha)
    by_cases hbad : built ≠ a ∨ auth.authenticateAct a = false
    · rw [if_pos hbad] at hcheck
      cases hcheck
    · rw [not_or, not_not, Bool.not_eq_false] at hbad
      exact ⟨hbad.2, hbad.1 ▸ hbuilt⟩

/-- **A context is a function of its genesis.**  Where equal addresses carry equal acts, the genesis
    alone gives the context again, and every other history of the dialect and the thread that gives
    a context of the same genesis gives the same one. -/
theorem fromInstance_genesis (hkeyed : Keyed inst.acts)
    (h : fromInstance sha256 auth inst field validators = .ok c) :
    fromInstance sha256 auth { inst with acts := c.genesis } field validators = .ok c ∧
      ∀ acts c', fromInstance sha256 auth { inst with acts } field validators = .ok c' →
        c'.genesis = c.genesis → c' = c := by
  obtain ⟨f, hf, rfl, hlast⟩ := fromInstance_ok_iff.mp h
  refine ⟨fromInstance_ok_iff.mpr ⟨f, hf.of_genesis hkeyed, rfl, hlast⟩, ?_⟩
  intro acts c' h' hgenesis
  obtain ⟨f', hf', rfl, -⟩ := fromInstance_ok_iff.mp h'
  have hg : f'.genesis = f.genesis := by
    have hacts : [f'.genesis.root, f'.genesis.opener] = [f.genesis.root, f.genesis.opener] :=
      hgenesis
    rw [List.cons.injEq, List.cons.injEq] at hacts
    cases hfg : f.genesis
    cases hfg' : f'.genesis
    rw [hfg, hfg'] at hacts
    rw [Genesis.mk.injEq]
    exact ⟨hacts.1, hacts.2.1⟩
  obtain rfl := hf.unique hf' rfl rfl hg
  rfl

-- ── A vault ────

/-- A digest that is quick to compute: one octet of what is hashed, thirty-two times. -/
def sample (os : Octets) : Digest := Vector.replicate 32 (os.getD 38 0)

/-- A vault: one pool of at most twenty, certified by a quorum. -/
def vaultRule : CounterRule := { tillRule with
  ownership := .collective
  certification := .quorumBudget none none
  ceiling := some 20
  transfer := none }

/-- The dialect of a vault, whose tellers open it, put and take. -/
def vault : Dialect :=
  { CbclRegistry.plainDialect "vault" (["open", "put", "take"].map fun verb =>
      ⟨verb, [], effectTemplate verb, some ⟨"bank", ∅⟩⟩) with
    roles := [⟨"bank", .indexed⟩]
    shapes := [⟨"open", [.require "alloc" (some .number) []]⟩,
      ⟨"put", [.require "n" (some .number) []]⟩, ⟨"take", [.require "n" (some .number) []]⟩]
    causal_protocol := some ⟨((∅ : BTreeMap String StepDecl).insert "begin"
      ⟨"begin", [], [.single "open"]⟩).insert "open" ⟨"open", [.single "begin"], []⟩⟩
    state := some ⟨[.field "budget" (.boundedCounter vaultRule)]⟩ }

/-- The root of a vault without its cast. -/
def vaultHello : Message := .simple (.core .hello) none (.list []) [] (some "t") none (some .begin)

/-- The root of a vault and its opener. -/
def vaultMessages : List Message :=
  [.wrapped .withRoles [.list [.list [.atom (.symbol "bank"), .atom (.symbol "@a"),
      .atom (.symbol "@b")]]] vaultHello,
    .dialect "vault" (.simple (.custom "open") none (.list [])
      [.atom (.keyword "alloc"), .atom (.num 12), .atom (.keyword "from"), .atom (.symbol "@a")]
      (some "t") none (some (.single (resourceStateId (typedRoot sample vaultHello)))))]

/-- The acts of a vault, signed by one teller. -/
def vaultActs : List Act :=
  vaultMessages.filterMap fun m => (Act.fromMessage (typedRoot sample) m "@a").toOption

/-- A host that admits every act. -/
def vaultHost : Authentication := ⟨fun _ _ _ => true, fun _ => true⟩

/-- The instance of a vault. -/
def vaultInstance : Instance := ⟨vault, "t", vaultActs, none, none, none⟩
/-- The vault is founded, and the addresses of its acts differ. -/
theorem vault_runs :
    (fromInstance sample vaultHost vaultInstance "budget" (some ["@v"])).isOk = true ∧
      (vaultActs.map (·.address)).Nodup := by
  decide +kernel

/-- The context of the vault. -/
theorem vault_context :
    ∃ c, fromInstance sample vaultHost vaultInstance "budget" (some ["@v"]) = .ok c := by
  cases h : fromInstance sample vaultHost vaultInstance "budget" (some ["@v"]) with
  | ok c => exact ⟨c, rfl⟩
  | error e =>
      have hruns := vault_runs.1
      rw [h] at hruns
      cases hruns

theorem fromInstance_funds_vault :
    ∃ c, fromInstance sample vaultHost vaultInstance "budget" (some ["@v"]) = .ok c ∧
      (∀ cap, c.rule.ceiling = some cap →
        c.rule.floor.toInt + totalRights c.initial + totalHeadroom c.initial = cap.toInt) ∧
      (∀ a ∈ c.issuers, a ∈ c.actors) ∧
      ∀ a ∈ c.genesis, a ∈ vaultInstance.acts ∧ vaultHost.authenticateAct a = true ∧
        Act.fromMessage (typedRoot sample) a.message a.signer = .ok a := by
  obtain ⟨c, hc⟩ := vault_context
  exact ⟨c, hc, fromInstance_funds hc⟩

theorem fromInstance_genesis_vault :
    Keyed vaultInstance.acts ∧
      ∃ c, fromInstance sample vaultHost vaultInstance "budget" (some ["@v"]) = .ok c ∧
        fromInstance sample vaultHost { vaultInstance with acts := c.genesis } "budget"
          (some ["@v"]) = .ok c ∧
        ∀ acts c', fromInstance sample vaultHost { vaultInstance with acts } "budget"
          (some ["@v"]) = .ok c' → c'.genesis = c.genesis → c' = c := by
  have hkeyed : Keyed vaultInstance.acts := by
    intro a ha b hb heq
    exact List.inj_on_of_nodup_map vault_runs.2 ha hb heq
  obtain ⟨c, hc⟩ := vault_context
  exact ⟨hkeyed, c, hc, fromInstance_genesis hkeyed hc⟩

end CbclContext
