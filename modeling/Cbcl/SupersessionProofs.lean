import Cbcl.KernelGrowthProofs
import Cbcl.RegisterProofs

/-!
# A bound write supersedes what it saw

The fields of the state that keep current writes are multi-value registers: a rule names the writer,
the deleter and the scope in which writes compete.  The binder collects, rule by rule, the addresses
that are not yet named in the scope of the act it builds.  Where they fit, a write is therefore the
one current write of its scope, a deletion leaves none, and other scopes keep theirs.
-/

namespace CbclSupersession

open CbclMessage CbclProtocol CbclAct CbclShape CbclStateShape CbclDialect CbclDialectParser
open CbclState CbclStateMeaning CbclStateSelection CbclEscrow CbclEscrowObservation CbclExports
open CbclIntend CbclR7 CbclExcept CbclTreeMap CbclKernelGrowth CbclRegister CbclGraphSearch
open CbclRole hiding Dialect PerformativeDef

-- ── Fields with current writes ────

/-- The current writes a rule reads its field from. -/
def currentOf (k : Kernel) : Rule → List Act
  | .lwwPerSigner writer _ _ => k.currentBySigner writer
  | .values writer _ => k.current writer none none
  | .valuesPerKey writer key _ delete => k.current writer (some key) delete
  | .lwwMap writer key _ _ delete => k.current writer (some key) delete
  | .observedSet add remove key => k.current add (some key) (some remove)
  | _ => []

/-- The key field in which the writes of a rule compete. -/
def keyField : Rule → Option String
  | .valuesPerKey _ key _ _ => some key
  | .lwwMap _ key _ _ _ => some key
  | .observedSet _ _ key => some key
  | _ => none

/-- What the writes of a rule compete for: the rendered key, or the signer. -/
def scopeOf : Rule → Act → String
  | .lwwPerSigner _ _ _, a => a.signer
  | rule, a => keyOf (keyField rule) a

/-- Whether acts of a verb delete or write under a rule; none where they do neither. -/
def deletesUnder (verb : String) : Rule → Option Bool
  | .lwwPerSigner writer _ _ => if writer = verb then some false else none
  | rule => (bindingOf verb rule).map (·.2.2.2)

/-- The acts of a verb, as a set. -/
def actsOf (k : Kernel) (verb : String) : Set Act := {a | a ∈ k.acts verb}

/-- The acts of two verbs, as a set. -/
def actsOfBoth (k : Kernel) (verb : String) (delete : Option String) : Set Act :=
  {a | a ∈ k.acts verb ++ (delete.map k.acts).getD []}

theorem mem_of_actsOfBoth {contentHash : Message → String} {clause : StateClause} {acts : List Act}
    {verb : String} {delete : Option String} {a : Act}
    (h : a ∈ actsOfBoth (kernelFor contentHash clause acts) verb delete) : a ∈ acts := by
  have hacts : ∀ v, ∀ x ∈ (kernelFor contentHash clause acts).acts v, x ∈ acts := fun v x hx =>
    (dedupByAddress_spec acts).2.1 x (List.mem_of_mem_filter (List.mem_of_mem_filter hx))
  rcases List.mem_append.mp h with h | h
  · exact hacts verb a h
  · cases delete with
    | none => exact nomatch h
    | some dv => exact hacts dv a h

theorem finite_actsOfBoth (k : Kernel) (verb : String) (delete : Option String) :
    (actsOfBoth k verb delete).Finite := List.finite_toSet _

/-- The live acts among writes and their replacers. -/
abbrev liveActs (rule : Rule) (W R : Set Act) : Set Act :=
  live Act.address CbclState.replacedBy (scopeOf rule) W R

theorem mem_currentBySigner_iff {k : Kernel} {verb : String} {w : Act} :
    w ∈ k.currentBySigner verb ↔ w ∈ k.acts verb ∧
      ∀ r ∈ k.acts verb, r.signer = w.signer → w.address ∉ CbclState.replacedBy r := by
  unfold Kernel.currentBySigner
  simp only [List.mem_filter, decide_eq_true_eq, List.mem_flatMap, List.mem_map, Prod.mk.injEq,
    not_exists, not_and]
  refine and_congr_right fun _ => ⟨fun h r hr hkey haddr => ?_, fun h r hr a ha hkey haddr => ?_⟩
  · exact h r hr _ haddr hkey rfl
  · exact h r hr hkey (haddr ▸ ha)

/-- The current writes of a signer's field are its live acts. -/
theorem mem_signed {k : Kernel} {writer key clock : String} {a : Act} :
    a ∈ k.currentBySigner writer ↔ a ∈ liveActs (.lwwPerSigner writer key clock)
      (actsOf k writer) (actsOfBoth k writer none) := by
  rw [mem_currentBySigner_iff]
  refine and_congr Iff.rfl ⟨?_, fun h r hr hsame hnames => ?_⟩
  · rintro h ⟨r, hr, hsame, hnames⟩
    exact h r (by simpa [actsOfBoth] using hr) hsame hnames
  · exact h ⟨r, by simpa [actsOfBoth] using hr, hsame, hnames⟩

/-- The current writes of a keyed field are its live acts. -/
theorem mem_keyed {k : Kernel} {rule : Rule} {writer : String} {key delete : Option String} {a : Act}
    (hscope : ∀ x, scopeOf rule x = keyOf key x) :
    a ∈ k.current writer key delete ↔
      a ∈ liveActs rule (actsOf k writer) (actsOfBoth k writer delete) := by
  rw [mem_current_iff]
  refine and_congr Iff.rfl ⟨?_, fun h r hr hsame hnames => ?_⟩
  · rintro h ⟨r, hr, hsame, hnames⟩
    exact h r hr (by rwa [hscope, hscope] at hsame) hnames
  · exact h ⟨r, hr, by rwa [hscope, hscope], hnames⟩

/-- A rule with current writes: who writes, who deletes. -/
inductive Registers : Rule → String → Option String → Prop where
  | perSigner {writer key clock : String} : Registers (.lwwPerSigner writer key clock) writer none
  | values {writer key : String} : Registers (.values writer key) writer none
  | valuesPerKey {writer key value : String} {delete : Option String} :
      Registers (.valuesPerKey writer key value delete) writer delete
  | lwwMap {writer key value clock : String} {delete : Option String} :
      Registers (.lwwMap writer key value clock delete) writer delete
  | observedSet {add remove key : String} :
      Registers (.observedSet add remove key) add (some remove)

/-- The current writes of a rule are its live acts. -/
theorem mem_currentOf {k : Kernel} {rule : Rule} {writer : String} {delete : Option String}
    (h : Registers rule writer delete) {a : Act} :
    a ∈ currentOf k rule ↔
      a ∈ liveActs rule (actsOf k writer) (actsOfBoth k writer delete) := by
  cases h with
  | perSigner => exact mem_signed
  | values => exact mem_keyed fun _ => rfl
  | valuesPerKey => exact mem_keyed fun _ => rfl
  | lwwMap => exact mem_keyed fun _ => rfl
  | observedSet => exact mem_keyed fun _ => rfl

-- ── What the binder wants to replace ────

section Wanted

variable (k : Kernel) (signer verb : String) (fields : BTreeMap String SExpr)

/-- The addresses of some acts with the supplied key. -/
def keyedAddresses (key : Option String) (acts : List Act) : List String :=
  (acts.filter (sameKey fields key)).map (·.address)

/-- The addresses of the current writes with the supplied key, and of the current deletions where
    the act writes. -/
def boundAddresses : String × Option String × Option String × Bool → List String
  | (writer, key, delete, deletes) =>
      keyedAddresses fields key (k.current writer key delete) ++
        if deletes then [] else (delete.map fun dv =>
          keyedAddresses fields key (k.current dv key (some writer))).getD []

/-- The addresses an act of the verb wants to replace under a rule. -/
def wantedUnder : Rule → List String
  | .lwwPerSigner writer _ _ =>
      if writer = verb then
        ((k.currentBySigner writer).filter (·.signer = signer)).map (·.address)
      else []
  | rule => ((bindingOf verb rule).map (boundAddresses k fields)).getD []

/-- The addresses an act of the verb wants to replace. -/
def wanted (clause : StateClause) : List String :=
  clause.fields.flatMap fun f => wantedUnder k signer verb fields f.2

end Wanted

/-- Settled addresses are the given ones, where they fit. -/
theorem mem_settleAddresses {bound : UInt32} {xs : List String}
    (hfits : xs.toFinset.card ≤ bound.toNat) {h : String} :
    h ∈ settleAddresses bound xs ↔ h ∈ xs := by
  have hsorted : (xs.insertionSort (· ≤ ·)).destutter (· ≠ ·)
      = CbclKeyedSort.sortBy id xs.toFinset :=
    CbclKeyedSort.destutter_insertionSort (f := id) fun _ _ _ _ heq => heq
  have hlength : (CbclKeyedSort.sortBy id xs.toFinset).length = xs.toFinset.card := by
    unfold CbclKeyedSort.sortBy
    simp
  unfold settleAddresses
  rw [hsorted, List.take_of_length_le (hlength.trans_le hfits), CbclKeyedSort.mem_sortBy,
    List.mem_toFinset]

section Binder

variable {contentHash : Message → String} {clause : StateClause} {acts : List Act} {bound : UInt32}
  {signer verb : String} {fields : BTreeMap String SExpr}

/-- Addresses joined to the settled ones, where they fit. -/
theorem mem_settled {replaces replaces' : Option (List String)} {addresses : List String}
    (h : (match replaces with
      | none => Except.ok (some (settleAddresses bound addresses))
      | some existing =>
          .ok (some (settleAddresses bound (existing ++ settleAddresses bound addresses))))
      = (Except.ok replaces' : Except Reject (Option (List String))))
    (hfits : (replaces.getD [] ++ addresses).toFinset.card ≤ bound.toNat) {x : String} :
    x ∈ replaces'.getD [] ↔ x ∈ replaces.getD [] ∨ x ∈ addresses := by
  have hsub : addresses.toFinset.card ≤ bound.toNat := by
    refine (Finset.card_le_card ?_).trans hfits
    rw [List.toFinset_append]
    exact Finset.subset_union_right
  cases replaces with
  | none =>
      obtain rfl := Except.ok.inj h
      rw [Option.getD_some, mem_settleAddresses hsub]
      simp
  | some existing =>
      obtain rfl := Except.ok.inj h
      have hsame : (existing ++ settleAddresses bound addresses).toFinset
          = (existing ++ addresses).toFinset := by
        ext y
        simp only [List.mem_toFinset, List.mem_append, mem_settleAddresses hsub]
      rw [Option.getD_some, mem_settleAddresses (hsame ▸ hfits), List.mem_append,
        mem_settleAddresses hsub, Option.getD_some]

/-- What one rule adds to the replaced addresses, where they fit. -/
theorem replacedUnder_spec {replaces replaces' : Option (List String)} {rule : Rule}
    (hfits : (replaces.getD [] ++ wantedUnder (kernelFor contentHash clause acts) signer verb fields
      rule).toFinset.card ≤ bound.toNat)
    (h : replacedUnder contentHash clause acts bound signer verb fields replaces rule
      = .ok replaces') :
    (∀ x, x ∈ replaces'.getD [] ↔ x ∈ replaces.getD [] ∨
      x ∈ wantedUnder (kernelFor contentHash clause acts) signer verb fields rule) ∧
    (replaces.isSome = true ∨ (deletesUnder verb rule).isSome = true → replaces'.isSome = true) ∧
    (deletesUnder verb rule = some true →
      wantedUnder (kernelFor contentHash clause acts) signer verb fields rule ≠ []) := by
  unfold replacedUnder at h
  split at h
  · -- the per-signer rule: the written verb replaces what the signer wrote before
    rename_i writer key clock
    unfold deletesUnder
    unfold wantedUnder at hfits ⊢
    dsimp only at hfits ⊢
    by_cases hw : writer = verb
    · rw [if_pos hw] at h hfits ⊢
      obtain rfl := Except.ok.inj h
      refine ⟨fun x => ?_, fun _ => rfl, fun hd => ?_⟩
      · rw [Option.getD_some, mem_settleAddresses hfits, List.mem_append]
      · cases Option.some.inj ((if_pos hw).symm.trans hd)
    · rw [if_neg hw] at h hfits ⊢
      obtain rfl := Except.ok.inj h
      refine ⟨fun x => by simp, fun hsome => ?_, fun hd => ?_⟩
      · rcases hsome with hsome | hsome
        · exact hsome
        · rw [if_neg hw] at hsome
          cases hsome
      · cases (if_neg hw).symm.trans hd
  · -- every other rule goes through its binding, and without one leaves the addresses alone
    rename_i hkeyed
    have hwanted : wantedUnder (kernelFor contentHash clause acts) signer verb fields rule
        = ((bindingOf verb rule).map
          (boundAddresses (kernelFor contentHash clause acts) fields)).getD [] := by
      unfold wantedUnder
      split
      · exact (hkeyed _ _ _ rfl).elim
      · rfl
    have hdeletes : deletesUnder verb rule = (bindingOf verb rule).map (·.2.2.2) := by
      unfold deletesUnder
      split
      · exact (hkeyed _ _ _ rfl).elim
      · rfl
    rw [hwanted] at hfits ⊢
    rw [hdeletes]
    cases hb : bindingOf verb rule with
    | none =>
        rw [hb] at h
        obtain rfl := Except.ok.inj h
        refine ⟨fun x => by simp, fun hsome => ?_, by rintro ⟨⟩⟩
        exact hsome.resolve_right (by rintro ⟨⟩)
    | some binding =>
        obtain ⟨writer, key, delete, deletes⟩ := binding
        rw [hb] at h hfits
        dsimp only at h
        have hparts : boundAddresses (kernelFor contentHash clause acts) fields
            (writer, key, delete, deletes)
          = ((((kernelFor contentHash clause acts).current writer key delete).filter
              (sameKey fields key)).map (·.address)) ++
            if deletes = true then [] else (delete.map fun dv =>
              (((kernelFor contentHash clause acts).current dv key (some writer)).filter
                (sameKey fields key)).map (·.address)).getD [] := rfl
        rw [Option.map_some, Option.getD_some, hparts] at hfits ⊢
        generalize ((((kernelFor contentHash clause acts).current writer key delete).filter
          (sameKey fields key)).map (·.address)) = written at h hfits ⊢
        generalize (if deletes = true then [] else (delete.map fun dv =>
          (((kernelFor contentHash clause acts).current dv key (some writer)).filter
            (sameKey fields key)).map (·.address)).getD []) = deleted at h hfits ⊢
        by_cases hnothing : (deletes && written.isEmpty) = true
        · rw [if_pos hnothing] at h
          cases h
        · rw [if_neg hnothing] at h
          refine ⟨fun x => ?_, fun _ => ?_, fun hd hnil => ?_⟩
          · exact mem_settled h hfits
          · cases replaces with
            | none => obtain rfl := Except.ok.inj h; rfl
            | some existing => obtain rfl := Except.ok.inj h; rfl
          · refine hnothing ?_
            have hd : deletes = true := Option.some.inj hd
            rw [hd, (List.append_eq_nil_iff.mp hnil).1]
            rfl

/-- What the binder replaces, where it fits: what some rule wants; a deletion finds something. -/
theorem replacedBy_spec {replaces : Option (List String)}
    (hfits : (wanted (kernelFor contentHash clause acts) signer verb fields
      clause).toFinset.card ≤ bound.toNat)
    (h : CbclIntend.replacedBy contentHash clause acts bound signer verb fields = .ok replaces) :
    (∀ x, x ∈ replaces.getD [] ↔
      x ∈ wanted (kernelFor contentHash clause acts) signer verb fields clause) ∧
    ∀ f ∈ clause.fields, (deletesUnder verb f.2).isSome = true → replaces.isSome = true ∧
      (deletesUnder verb f.2 = some true →
        wantedUnder (kernelFor contentHash clause acts) signer verb fields f.2 ≠ []) := by
  have hmem : ∀ x, x ∈ wanted (kernelFor contentHash clause acts) signer verb fields clause ↔
      ∃ rule ∈ clause.fields.map (·.2),
        x ∈ wantedUnder (kernelFor contentHash clause acts) signer verb fields rule := by
    intro x
    unfold wanted
    rw [List.mem_flatMap]
    exact ⟨fun ⟨f, hf, hx⟩ => ⟨f.2, List.mem_map_of_mem hf, hx⟩, fun ⟨rule, hrule, hx⟩ => by
      obtain ⟨f, hf, rfl⟩ := List.mem_map.mp hrule
      exact ⟨f, hf, hx⟩⟩
  unfold CbclIntend.replacedBy at h
  have hrun := foldlM_inv (I := fun (done : List Rule) (r : Option (List String)) =>
    (∀ rule ∈ done, rule ∈ clause.fields.map (·.2)) ∧
    (∀ x, x ∈ r.getD [] ↔ ∃ rule ∈ done,
      x ∈ wantedUnder (kernelFor contentHash clause acts) signer verb fields rule) ∧
    ∀ rule ∈ done, (deletesUnder verb rule).isSome = true → r.isSome = true ∧
      (deletesUnder verb rule = some true →
        wantedUnder (kernelFor contentHash clause acts) signer verb fields rule ≠ []))
    (fun done rule r r' hrule hI hstep => ?_)
    ⟨fun _ h => (nomatch h), fun x => by simp, fun _ h => (nomatch h)⟩ h
  · refine ⟨fun x => (hrun.2.1 x).trans (hmem x).symm, fun f hf hsome => ?_⟩
    exact hrun.2.2 f.2 (List.mem_map_of_mem hf) hsome
  · obtain ⟨hdone, hreplaced, hkinds⟩ := hI
    have hstepfits : (r.getD [] ++ wantedUnder (kernelFor contentHash clause acts) signer verb fields
        rule).toFinset.card ≤ bound.toNat := by
      refine (Finset.card_le_card fun x hx => ?_).trans hfits
      rw [List.mem_toFinset, List.mem_append, hreplaced] at hx
      rw [List.mem_toFinset, hmem]
      rcases hx with ⟨rule', hrule', hx⟩ | hx
      · exact ⟨rule', hdone rule' hrule', hx⟩
      · exact ⟨rule, hrule, hx⟩
    obtain ⟨hadded, hkept, hfound⟩ := replacedUnder_spec hstepfits hstep
    refine ⟨fun x hx => ?_, fun x => ?_, fun x hx hsome => ?_⟩
    · rcases List.mem_append.mp hx with hx | hx
      · exact hdone x hx
      · exact List.mem_singleton.mp hx ▸ hrule
    · rw [hadded, hreplaced]
      simp only [List.mem_append, List.mem_singleton, or_and_right, exists_or, exists_eq_left]
    · rcases List.mem_append.mp hx with hx | hx
      · exact ⟨hkept (.inl (hkinds x hx hsome).1), (hkinds x hx hsome).2⟩
      · obtain rfl := List.mem_singleton.mp hx
        exact ⟨hkept (.inr hsome), hfound⟩

end Binder

-- ── The addresses of a scope ────

theorem mem_keyedAddresses {fields : BTreeMap String SExpr} {key : Option String} {acts : List Act}
    {x : String} : x ∈ keyedAddresses fields key acts ↔
      ∃ a ∈ acts, sameKey fields key a = true ∧ a.address = x := by
  unfold keyedAddresses
  simp only [List.mem_map, List.mem_filter, and_assoc]

theorem keyOf_field {a : Act} {k : String} (value : Option SExpr) (h : a.fields[k]? = value) :
    keyOf (some k) a = (value.map fun v => (Value.fromSExpr v).render).getD "" := by
  show (((a.fields[k]?).map Value.fromSExpr).map Value.render).getD "" = _
  rw [h, Option.map_map]
  rfl

/-- An act has the supplied key exactly when it competes with the new act. -/
theorem sameKey_iff {fields : BTreeMap String SExpr} {key : Option String} {n a : Act}
    (hkey : ∀ k, key = some k → ∃ v, fields[k]? = some v ∧ n.fields[k]? = some v) :
    sameKey fields key a = true ↔ keyOf key a = keyOf key n := by
  cases key with
  | none => exact ⟨fun _ => rfl, fun _ => rfl⟩
  | some k =>
      obtain ⟨v, hv, hn⟩ := hkey k rfl
      unfold sameKey
      dsimp only
      rw [keyOf_field _ hn, hv]
      cases ha : a.fields[k]? with
      | none =>
          rw [keyOf_field _ ha]
          exact ⟨fun h => (nomatch h), fun h => absurd h.symm (render_ne_empty v)⟩
      | some x =>
          rw [keyOf_field _ ha]
          exact decide_eq_true_iff

/-- How a verb is bound under a rule with current writes. -/
theorem bindingOf_registers {verb : String} {rule : Rule} {writer : String} {delete : Option String}
    {binding : String × Option String × Option String × Bool} (h : Registers rule writer delete)
    (hb : bindingOf verb rule = some binding) :
    binding = (writer, keyField rule, delete, binding.2.2.2) ∧
      (binding.2.2.2 = false → writer = verb) ∧
      (binding.2.2.2 = true → delete = some verb) := by
  unfold bindingOf at hb
  cases h with
  | perSigner => exact nomatch hb
  | values =>
      dsimp only at hb
      split at hb
      · rename_i hw
        obtain rfl := Option.some.inj hb
        exact ⟨rfl, fun _ => hw, fun h => nomatch h⟩
      · exact nomatch hb
  | valuesPerKey =>
      dsimp only at hb
      split at hb
      · rename_i hw
        obtain rfl := Option.some.inj hb
        exact ⟨rfl, fun _ => hw, fun h => nomatch h⟩
      · split at hb
        · rename_i hd
          obtain rfl := Option.some.inj hb
          exact ⟨rfl, fun h => (nomatch h), fun _ => hd⟩
        · exact nomatch hb
  | lwwMap =>
      dsimp only at hb
      split at hb
      · rename_i hw
        obtain rfl := Option.some.inj hb
        exact ⟨rfl, fun _ => hw, fun h => nomatch h⟩
      · split at hb
        · rename_i hd
          obtain rfl := Option.some.inj hb
          exact ⟨rfl, fun h => (nomatch h), fun _ => hd⟩
        · exact nomatch hb
  | observedSet =>
      dsimp only at hb
      split at hb
      · rename_i hw
        obtain rfl := Option.some.inj hb
        exact ⟨rfl, fun h => (nomatch h), fun _ => congrArg some hw⟩
      · exact nomatch hb

/-- A verb that writes or deletes does so under a rule with current writes. -/
theorem registers_of_deletes {verb : String} {rule : Rule} {deletes : Bool}
    (h : deletesUnder verb rule = some deletes) : ∃ writer delete, Registers rule writer delete := by
  cases rule with
  | lwwPerSigner => exact ⟨_, _, .perSigner⟩
  | values => exact ⟨_, _, .values⟩
  | valuesPerKey => exact ⟨_, _, .valuesPerKey⟩
  | lwwMap => exact ⟨_, _, .lwwMap⟩
  | observedSet => exact ⟨_, _, .observedSet⟩
  | _ => exact nomatch h

/-- A verb that is bound under a rule writes or deletes under it. -/
theorem binding_of_deletes {verb : String} {rule : Rule} {writer : String} {delete : Option String}
    {deletes : Bool} (hr : Registers rule writer delete)
    (h : deletesUnder verb rule = some deletes)
    (hkeyed : ∀ w key clock, rule ≠ .lwwPerSigner w key clock) :
    bindingOf verb rule = some (writer, keyField rule, delete, deletes) ∧
    (deletes = false → writer = verb) ∧ (deletes = true → delete = some verb) := by
  have hbound : (bindingOf verb rule).map (·.2.2.2) = some deletes := by
    cases hr with
    | perSigner => exact absurd rfl (hkeyed _ _ _)
    | _ => exact h
  obtain ⟨binding, hb, rfl⟩ := Option.map_eq_some_iff.mp hbound
  obtain ⟨heq, hverbs⟩ := bindingOf_registers hr hb
  exact ⟨hb.trans (congrArg some heq), hverbs⟩

/-- The wanted addresses of a keyed rule. -/
theorem wantedUnder_keyed {k : Kernel} {signer verb : String} {fields : BTreeMap String SExpr}
    {rule : Rule} {writer : String} {delete : Option String} {deletes : Bool}
    (hr : Registers rule writer delete) (h : deletesUnder verb rule = some deletes)
    (hkeyed : ∀ w key clock, rule ≠ .lwwPerSigner w key clock) :
    wantedUnder k signer verb fields rule
      = boundAddresses k fields (writer, keyField rule, delete, deletes) := by
  have hwanted : wantedUnder k signer verb fields rule
      = ((bindingOf verb rule).map (boundAddresses k fields)).getD [] := by
    cases hr with
    | perSigner => exact absurd rfl (hkeyed _ _ _)
    | _ => rfl
  rw [hwanted, (binding_of_deletes hr h hkeyed).1, Option.map_some, Option.getD_some]

/-- A rule by signer has no deletions. -/
theorem not_perSigner {verb : String} {rule : Rule} (h : deletesUnder verb rule = some true) :
    ∀ w key clock, rule ≠ .lwwPerSigner w key clock := by
  intro signed key clock heq
  rw [heq] at h
  by_cases hsigned : signed = verb
  · cases Option.some.inj ((if_pos hsigned).symm.trans h)
  · cases (if_neg hsigned).symm.trans h

/-- The scope of a keyed rule is the key. -/
theorem scopeOf_keyed {rule : Rule} {writer : String} {delete : Option String}
    (hr : Registers rule writer delete)
    (hkeyed : ∀ w key clock, rule ≠ .lwwPerSigner w key clock) (x : Act) :
    scopeOf rule x = keyOf (keyField rule) x := by
  cases hr with
  | perSigner => exact absurd rfl (hkeyed _ _ _)
  | _ => rfl

section Names

variable {k : Kernel} {signer verb : String} {fields : BTreeMap String SExpr} {rule : Rule}
  {writer : String} {delete : Option String} {n : Act} (hr : Registers rule writer delete)
  (hkey : ∀ key, keyField rule = some key → ∃ v, fields[key]? = some v ∧ n.fields[key]? = some v)
include hr hkey

/-- A write wants the writes and deletions of its scope that are not named. -/
theorem wanted_of_live (hsigner : n.signer = signer) (h : deletesUnder verb rule = some false)
    {y : Act} (hy : y ∈ liveActs rule (actsOfBoth k writer delete) (actsOfBoth k writer delete))
    (hscope : scopeOf rule y = scopeOf rule n) :
    y.address ∈ wantedUnder k signer verb fields rule := by
  by_cases hkeyed : ∀ w key clock, rule ≠ .lwwPerSigner w key clock
  · have hscopes := scopeOf_keyed hr hkeyed
    have hsame : sameKey fields (keyField rule) y = true := by
      rw [sameKey_iff hkey, ← hscopes, ← hscopes, hscope]
    rw [wantedUnder_keyed hr h hkeyed]
    unfold boundAddresses
    dsimp only
    rw [List.mem_append, if_neg Bool.false_ne_true]
    obtain ⟨hmem, hunnamed⟩ := hy
    rcases List.mem_append.mp hmem with hw | hd
    · exact .inl (mem_keyedAddresses.mpr ⟨y, (mem_keyed hscopes).mpr ⟨hw, hunnamed⟩, hsame, rfl⟩)
    · right
      cases delete with
      | none => exact nomatch hd
      | some dv =>
          refine mem_keyedAddresses.mpr ⟨y, mem_current_iff.mpr ⟨hd, fun r hr' heq hnames => ?_⟩,
            hsame, rfl⟩
          refine hunnamed ⟨r, ?_, by rwa [hscopes, hscopes], hnames⟩
          rcases List.mem_append.mp hr' with h' | h'
          · exact List.mem_append_right _ h'
          · exact List.mem_append_left _ h'
  · push Not at hkeyed
    obtain ⟨w, key, clock, rfl⟩ := hkeyed
    cases hr with
    | perSigner =>
        have hw : writer = verb := by
          by_contra hne
          exact nomatch ((if_neg hne).symm.trans h : none = some false)
        unfold wantedUnder
        dsimp only
        rw [if_pos hw]
        obtain ⟨hmem, hunnamed⟩ := hy
        have hcurrent : y ∈ k.currentBySigner writer :=
          (@mem_signed k writer key clock y).mpr
            ⟨(List.mem_append.mp hmem).resolve_right List.not_mem_nil, hunnamed⟩
        exact List.mem_map_of_mem (List.mem_filter.mpr ⟨hcurrent,
          decide_eq_true (hscope.trans hsigner)⟩)

/-- A deletion wants the current writes of its scope. -/
theorem wanted_of_current (h : deletesUnder verb rule = some true) {w : Act}
    (hw : w ∈ liveActs rule (actsOf k writer) (actsOfBoth k writer delete))
    (hscope : scopeOf rule w = scopeOf rule n) :
    w.address ∈ wantedUnder k signer verb fields rule := by
  have hkeyed := not_perSigner h
  have hscopes := scopeOf_keyed hr hkeyed
  have hsame : sameKey fields (keyField rule) w = true := by
    rw [sameKey_iff hkey, ← hscopes, ← hscopes, hscope]
  rw [wantedUnder_keyed hr h hkeyed]
  exact List.mem_append_left _ (mem_keyedAddresses.mpr ⟨w, (mem_keyed hscopes).mpr hw, hsame, rfl⟩)

end Names

-- ── The key of the new act ────

/-- A field scanned from pairs is one of them, and no routing keyword. -/
theorem mem_of_foldl_pairs {k : String} {v : SExpr} : ∀ (pairs : List (String × SExpr))
    (out : BTreeMap String SExpr),
      (pairs.foldl (fun out (e : String × SExpr) =>
        if e.1 ∈ ROUTING_KEYWORDS then out else out.insert e.1 e.2) out)[k]? = some v →
      (k, v) ∈ pairs ∧ k ∉ ROUTING_KEYWORDS ∨ out[k]? = some v := by
  intro pairs
  induction pairs with
  | nil => exact fun out h => .inr h
  | cons e pairs ih =>
      intro out h
      rcases ih _ h with ⟨hmem, hfree⟩ | hout
      · exact .inl ⟨List.mem_cons_of_mem e hmem, hfree⟩
      · dsimp only at hout
        by_cases hrouting : e.1 ∈ ROUTING_KEYWORDS
        · rw [if_pos hrouting] at hout
          exact .inr hout
        · rw [if_neg hrouting, getElem?_insert_eq] at hout
          by_cases hk : k = e.1
          · rw [if_pos hk] at hout
            refine .inl ⟨?_, hk ▸ hrouting⟩
            rw [hk, ← Option.some.inj hout]
            exact List.mem_cons_self ..
          · rw [if_neg hk] at hout
            exact .inr hout

section Clean

variable {sha256 : CbclCanonical.Octets → CbclTypedAddr.Digest} {d : Dialect} {clause : StateClause}
  (hclean : r7Violations sha256 d = []) (hstate : d.state = some clause)
include hclean hstate

/-- The rules of a clean clause read no keyword the binder adds. -/
theorem data_of_clean {f : String × Rule} (hf : f ∈ clause.fields) {verb key : String}
    (hdata : (verb, key) ∈ ruleDataFields f.2) :
    key ≠ RESERVED_REPLACES ∧ isBookkeeping key = false := by
  unfold r7Violations at hclean
  rw [hstate] at hclean
  simp only [List.append_eq_nil_iff] at hclean
  obtain ⟨⟨⟨hdeclared, -⟩, hclause⟩, -⟩ := hclean
  constructor
  · rintro rfl
    unfold clauseViolations at hclause
    simp only [List.append_eq_nil_iff] at hclause
    have hfields : dataFieldViolations d clause = [] := hclause.1.1.1.1.1.2
    have hmem : (verb, RESERVED_REPLACES) ∈ (dataFieldSet clause).toList := by
      unfold dataFieldSet
      rw [Std.ExtTreeSet.mem_toList, mem_foldl_insert]
      exact .inl (List.mem_append_left _ (List.mem_flatMap.mpr ⟨f, hf, hdata⟩))
    have hnone := List.flatMap_eq_nil_iff.mp hfields _ hmem
    dsimp only at hnone
    rw [if_pos rfl] at hnone
    exact nomatch hnone
  · by_contra hbook
    have hbook : isBookkeeping key = true := by simpa using hbook
    unfold declarationErrors at hdeclared
    rw [hstate] at hdeclared
    simp only [List.map_eq_nil_iff, List.append_eq_nil_iff] at hdeclared
    have hnone := List.filter_eq_nil_iff.mp hdeclared.1.2 (verb, key)
      (List.mem_flatMap.mpr ⟨f, hf, hdata⟩)
    exact hnone hbook

/-- A key of the new act is supplied. -/
theorem supplied_of_key {contentHash : Message → String} {inst : Instance} {signer : AgentKey}
    {verb : String} {fields : BTreeMap String SExpr} {m : Message}
    (b : Built contentHash inst signer verb fields m) {f : String × Rule} (hf : f ∈ clause.fields)
    {key : String} (hkey : keyField f.2 = some key) {v : SExpr}
    (hv : b.act.fields[key]? = some v) : fields[key]? = some v := by
  have hdata : ∃ writer, (writer, key) ∈ ruleDataFields f.2 := by
    cases hrule : f.2 <;> rw [hrule] at hkey <;> first
      | (cases hkey; done)
      | (obtain rfl := Option.some.inj hkey; exact ⟨_, List.mem_cons_self ..⟩)
  obtain ⟨writer, hdata⟩ := hdata
  obtain ⟨hreplaces, hbook⟩ := data_of_clean hclean hstate hf hdata
  have hscan : (scanFields (pairItems b.allPairs) ∅)[key]? = some v := hv
  rw [scanFields_pairItems] at hscan
  rcases mem_of_foldl_pairs _ _ hscan with ⟨hmem, hrouting⟩ | hnone
  · rcases b.mem_allPairs hmem with hsupplied | hbooked | ⟨addresses, -, heq⟩ | heq
    · exact hsupplied
    · rcases bookkeeping_cases b.booked with hnil | ⟨prev, deps, -, hpairs⟩
      · rw [hnil] at hbooked
        exact nomatch hbooked
      · rw [hpairs] at hbooked
        rcases List.mem_pair.mp hbooked with heq | heq
        · obtain rfl := (Prod.mk.inj heq).1
          exact absurd hbook (by decide)
        · obtain rfl := (Prod.mk.inj heq).1
          exact absurd hbook (by decide)
    · exact absurd (Prod.mk.inj heq).1 hreplaces
    · exact absurd ((Prod.mk.inj heq).1 ▸ (by decide : "from" ∈ ROUTING_KEYWORDS)) hrouting
  · simp at hnone

end Clean

/-- The act of a message names what the binder found. -/
theorem replacedBy_act {contentHash : Message → String} {inst : Instance} {signer : AgentKey}
    {verb : String} {fields : BTreeMap String SExpr} {m : Message}
    (b : Built contentHash inst signer verb fields m) {addresses : List String}
    (h : b.replaces = some addresses) : CbclState.replacedBy b.act = addresses := by
  have hmem : (RESERVED_REPLACES, addressList addresses) ∈ b.allPairs := by
    unfold Built.allPairs pairsOf addedPairs
    simp [h]
  have hfield : b.act.fields[RESERVED_REPLACES]? = some (addressList addresses) :=
    b.field hmem (by decide)
  unfold CbclState.replacedBy
  rw [hfield]
  unfold addressList
  dsimp only
  rw [List.filterMap_map]
  exact (List.filterMap_congr fun _ _ => rfl).trans List.filterMap_some

-- ── Supersession ────

section Superseded

variable {contentHash : Message → String} {sha256 : CbclCanonical.Octets → CbclTypedAddr.Digest}
  {d : Dialect} {clause : StateClause} {thread : String} {acts : List Act} {inst : Instance}
  {signer : AgentKey} {verb : String} {fields : BTreeMap String SExpr} {m : Message} {n : Act}
  {name : String} {rule : Rule} {deletes : Bool}

/-- Whether the new act has the key its writes compete for, where there is one. -/
def HasKey (rule : Rule) (n : Act) : Prop :=
  ∀ key, keyField rule = some key → (n.fields[key]?).isSome = true

/-- Whether acts of one address carry what the state reads of the new act. -/
def SameActs (acts : List Act) (n : Act) : Prop :=
  ∀ a ∈ acts, a.address = n.address → a.simple = n.simple ∧ a.signer = n.signer

/-- An accepted act of the address of the new one is among the acts of its verb. -/
theorem selected_of_known (hacts : FromMessages contentHash acts)
    (hn : Act.fromMessage contentHash (signedBy signer m) signer = .ok n)
    (hsame : SameActs acts n)
    (hadmitted : ∀ dom ∈ (kernelFor contentHash clause acts).domains, admits dom n.verb n = true)
    {a : Act} (ha : a ∈ acts) (haddress : a.address = n.address) :
    ∃ a' ∈ (kernelFor contentHash clause acts).acts n.verb, a'.address = n.address ∧
      a'.fields = n.fields ∧ a'.signer = n.signer := by
  obtain ⟨a', ha', heq⟩ := (dedupByAddress_spec acts).2.2 a ha
  have hmem := (dedupByAddress_spec acts).2.1 a' ha'
  obtain ⟨hsimple, hsigner⟩ := hsame a' hmem (heq.trans haddress)
  obtain ⟨message, who, hmessage⟩ := hacts a' hmem
  obtain ⟨-, ⟨p, hp, hverb⟩, -, hfields⟩ := (consistent_fromMessage hmessage).metadata
  obtain ⟨-, ⟨p', hp', hverb'⟩, -, hfields'⟩ := (consistent_fromMessage hn).metadata
  rw [hsimple] at hp hfields
  obtain rfl : p = p' := Option.some.inj (hp.symm.trans hp')
  have hsamefields : a'.fields = n.fields := hfields.trans hfields'.symm
  refine ⟨a', ?_, heq.trans haddress, hsamefields, hsigner⟩
  refine List.mem_filter.mpr ⟨List.mem_filter.mpr
    ⟨ha', decide_eq_true (hverb.trans hverb'.symm)⟩, List.all_eq_true.mpr fun dom hdom => ?_⟩
  have hok := hadmitted dom hdom
  rw [admits_iff] at hok ⊢
  unfold Allowed fieldOf at hok ⊢
  rwa [hsamefields]

/-- An act of a known address changes nothing. -/
theorem kernel_known (h : ∃ a ∈ acts, a.address = n.address) :
    kernelFor contentHash clause (acts ++ [n]) = kernelFor contentHash clause acts := by
  unfold kernelFor
  rw [dedupByAddress_known h]

/-- Who writes or deletes under a rule. -/
theorem verb_of_deletes {writer : String} {delete : Option String} (hr : Registers rule writer delete)
    (h : deletesUnder verb rule = some deletes) :
    deletes = false ∧ writer = verb ∨ deletes = true ∧ delete = some verb := by
  by_cases hkeyed : ∀ w key clock, rule ≠ .lwwPerSigner w key clock
  · obtain ⟨-, hwrites, hdeletes⟩ := binding_of_deletes hr h hkeyed
    cases deletes with
    | false => exact .inl ⟨rfl, hwrites rfl⟩
    | true => exact .inr ⟨rfl, hdeletes rfl⟩
  · push Not at hkeyed
    obtain ⟨w, key, clock, rfl⟩ := hkeyed
    cases hr with
    | perSigner =>
        by_cases hw : writer = verb
        · exact .inl ⟨(Option.some.inj ((if_pos hw).symm.trans h)).symm, hw⟩
        · exact nomatch ((if_neg hw).symm.trans h : none = some deletes)

/-- Writers do not delete under a clean clause. -/
theorem delete_ne (hclean : r7Violations sha256 d = []) (hstate : d.state = some clause)
    (hfield : (name, rule) ∈ clause.fields) (hremove : ∀ v key, rule ≠ .observedSet v v key)
    {writer dv : String} (hr : Registers rule writer (some dv)) : dv ≠ writer := by
  have hmaps : ∀ key, deleteVerb rule = some (writer, key, dv) → dv ≠ writer := by
    intro key hdelete heq
    unfold r7Violations at hclean
    rw [hstate] at hclean
    simp only [List.append_eq_nil_iff] at hclean
    obtain ⟨⟨-, hclause⟩, -⟩ := hclean
    unfold clauseViolations at hclause
    simp only [List.append_eq_nil_iff] at hclause
    have hnone := List.flatMap_eq_nil_iff.mp hclause.1.1.1.1.2 _ hfield
    simp only [List.append_eq_nil_iff] at hnone
    have hviolations := hnone.2
    unfold deleteViolations at hviolations
    rw [hdelete] at hviolations
    dsimp only at hviolations
    rw [if_pos heq] at hviolations
    exact nomatch hviolations
  cases hr with
  | valuesPerKey => exact hmaps _ rfl
  | lwwMap => exact hmaps _ rfl
  | observedSet =>
      rintro rfl
      exact hremove _ _ rfl

section New

variable (hclean : r7Violations sha256 d = []) (hstate : d.state = some clause)
  (hfresh : ∀ a ∈ acts, a.address ≠ n.address)
  (hadmitted : ∀ dom ∈ (kernelFor contentHash clause acts).domains, admits dom n.verb n = true)
include hclean hstate hfresh hadmitted

/-- A new act joins the acts of its verb. -/
theorem mem_acts_append {v : String}
    (hkept : some n.verb ≠ openerOf d ∨ ∀ dom ∈ clause.domains, dom.1 ≠ v) {a : Act} :
    a ∈ (kernelFor contentHash clause (acts ++ [n])).acts v ↔
      n.verb = v ∧ a = n ∨ a ∈ (kernelFor contentHash clause acts).acts v := by
  rw [acts_append hclean hstate hfresh hadmitted hkept, List.mem_append, or_comm]
  by_cases hv : n.verb = v
  · simp [hv]
  · simp [hv]

/-- A new act of a rule joins its writes and deletions. -/
theorem actsOfBoth_append {writer : String} {delete : Option String}
    (hverb : writer = n.verb ∨ delete = some n.verb)
    (hkept : some n.verb ≠ openerOf d ∨ ∀ dom ∈ clause.domains,
      dom.1 ≠ writer ∧ delete ≠ some dom.1) :
    actsOfBoth (kernelFor contentHash clause (acts ++ [n])) writer delete
      = insert n (actsOfBoth (kernelFor contentHash clause acts) writer delete) := by
  have hwriter := @mem_acts_append contentHash sha256 d clause acts n hclean hstate hfresh hadmitted
    writer (hkept.imp_right fun h dom hdom => (h dom hdom).1)
  ext a
  unfold actsOfBoth
  cases delete with
  | none =>
      have hverb : n.verb = writer := (hverb.resolve_right fun h => nomatch h).symm
      simp [hwriter, hverb]
  | some dv =>
      have hdelete := @mem_acts_append contentHash sha256 d clause acts n hclean hstate hfresh
        hadmitted dv (hkept.imp_right fun h dom hdom heq => (h dom hdom).2 (congrArg some heq.symm))
      simp only [Option.map_some, Option.getD_some, List.mem_append, Set.mem_ofPred_eq, hwriter,
        hdelete, Set.mem_insert_iff]
      rcases hverb with hv | hv
      · simp only [hv, true_and]
        tauto
      · simp only [Option.some.inj hv, true_and]
        tauto

end New

theorem scopeOf_congr {a b : Act} (hfields : a.fields = b.fields) (hsigner : a.signer = b.signer) :
    scopeOf rule a = scopeOf rule b := by
  have hkey : ∀ key, keyOf key a = keyOf key b := fun key => by
    unfold keyOf fieldOf
    rw [hfields]
  cases rule with
  | lwwPerSigner => exact hsigner
  | _ => unfold scopeOf; exact hkey _

theorem replacedBy_congr {a b : Act} (hfields : a.fields = b.fields) :
    CbclState.replacedBy a = CbclState.replacedBy b := by
  unfold CbclState.replacedBy
  rw [hfields]

/-- The verbs of a rule with current writes. -/
theorem ruleVerbs_of_registers {writer : String} {delete : Option String}
    (hr : Registers rule writer delete) :
    writer ∈ ruleVerbs rule ∧ ∀ dv, delete = some dv → dv ∈ ruleVerbs rule := by
  cases hr <;> simp +contextual [ruleVerbs]

/-- What a deletion wants is current in its scope. -/
theorem current_of_wanted {k : Kernel} {writer : String} {delete : Option String}
    (hr : Registers rule writer delete) (h : deletesUnder verb rule = some true)
    (hkey : ∀ key, keyField rule = some key → ∃ v, fields[key]? = some v ∧ n.fields[key]? = some v)
    {x : String} (hx : x ∈ wantedUnder k signer verb fields rule) :
    ∃ w ∈ liveActs rule (actsOf k writer) (actsOfBoth k writer delete),
      scopeOf rule w = scopeOf rule n ∧ w.address = x := by
  have hkeyed := not_perSigner h
  have hscopes := scopeOf_keyed hr hkeyed
  rw [wantedUnder_keyed hr h hkeyed] at hx
  rcases List.mem_append.mp hx with hx | hx
  · obtain ⟨w, hw, hsame, heq⟩ := mem_keyedAddresses.mp hx
    refine ⟨w, (mem_keyed hscopes).mp hw, ?_, heq⟩
    rw [hscopes, hscopes]
    exact (sameKey_iff hkey).mp hsame
  · exact nomatch hx

/-- An act is bound over a kernel: it names all that a rule wants, and a deletion something. -/
structure Binds (k : Kernel) (rule : Rule) (deletes : Bool) (signer : AgentKey) (verb : String)
    (fields : BTreeMap String SExpr) (n : Act) : Prop where
  signed : n.signer = signer
  bound : deletesUnder verb rule = some deletes
  named : ∀ x ∈ wantedUnder k signer verb fields rule, x ∈ CbclState.replacedBy n
  found : deletes = true → wantedUnder k signer verb fields rule ≠ []

/-- The act of a message the binder builds is bound over the acts it saw. -/
theorem binds_of_built (b : Built contentHash inst signer verb fields m)
    (hstate : inst.dialect.state = some clause) (hfield : (name, rule) ∈ clause.fields)
    (hdeletes : deletesUnder verb rule = some deletes)
    (hfits : (wanted (kernelFor contentHash clause inst.acts) signer verb fields
      clause).toFinset.card ≤ (boundsOf inst.dialect).max_list.toNat) :
    Binds (kernelFor contentHash clause inst.acts) rule deletes signer verb fields b.act := by
  have hclause : b.clause = clause := Option.some.inj (b.state.symm.trans hstate)
  obtain ⟨hreplaced, hkinds⟩ := replacedBy_spec hfits (hclause ▸ b.replaced)
  obtain ⟨hsome, hfound⟩ := hkinds _ hfield (by rw [hdeletes]; rfl)
  obtain ⟨addresses, haddresses⟩ := Option.isSome_iff_exists.mp hsome
  refine ⟨rfl, hdeletes, fun x hx => ?_, fun h => hfound (h ▸ hdeletes)⟩
  rw [replacedBy_act b haddresses]
  have hwanted := (hreplaced x).mpr (List.mem_flatMap.mpr ⟨_, hfield, hx⟩)
  rwa [haddresses] at hwanted

section Binds

variable {k : Kernel} {writer : String} {delete : Option String}
  (hb : Binds k rule deletes signer verb fields n) (hr : Registers rule writer delete)
  (hkey : ∀ key, keyField rule = some key → ∃ v, fields[key]? = some v ∧ n.fields[key]? = some v)
include hb hr hkey

/-- A bound write names what is not named in its scope. -/
theorem Binds.superseded (hwrites : deletes = false) :
    ∀ y ∈ liveActs rule (actsOfBoth k writer delete) (actsOfBoth k writer delete),
      scopeOf rule y = scopeOf rule n → y.address ∈ CbclState.replacedBy n :=
  fun _ hy heq => hb.named _ (wanted_of_live hr hkey hb.signed (hwrites ▸ hb.bound) hy heq)

/-- **A bound act is new**: one that was among the acts would have superseded what it names. -/
theorem Binds.not_mem
    (hacyclic : Acyclic (Names Act.address CbclState.replacedBy (actsOfBoth k writer delete)))
    {c : Act} (hfields : c.fields = n.fields) (hsigner : c.signer = n.signer) :
    c ∉ k.acts verb := by
  intro hc
  have hscope : scopeOf rule c = scopeOf rule n := scopeOf_congr hfields hsigner
  have hnames := replacedBy_congr hfields
  rcases verb_of_deletes hr hb.bound with ⟨hwrites, rfl⟩ | ⟨hdeletes, rfl⟩
  · -- a write names whatever is live in its scope, so also itself
    have hsuperseded : ∀ y ∈ liveActs rule (actsOfBoth k writer delete)
        (actsOfBoth k writer delete), scopeOf rule y = scopeOf rule c →
          y.address ∈ CbclState.replacedBy c := by
      intro y hy heq
      rw [hnames]
      exact hb.superseded hr hkey hwrites y hy (heq.trans hscope)
    exact fresh_of_names (finite_actsOfBoth k writer delete) hsuperseded hacyclic
      (List.mem_append_left _ hc)
  · -- a deletion names a current write, which it would have deleted
    obtain ⟨x, hx⟩ := List.exists_mem_of_ne_nil _ (hb.found hdeletes)
    obtain ⟨w, hw, heq, rfl⟩ := current_of_wanted hr (hdeletes ▸ hb.bound) hkey hx
    refine hw.2 ⟨c, List.mem_append_right _ hc, hscope.trans heq.symm, ?_⟩
    rw [hnames]
    exact hb.named _ hx

/-- After a bound write the act is the one current write of its scope. -/
theorem Binds.written (hwrites : deletes = false) (hacyclic : Acyclic (Names Act.address
      CbclState.replacedBy (insert n (actsOfBoth k writer delete))))
    {a : Act} (hscope : scopeOf rule a = scopeOf rule n) :
    a ∈ liveActs rule (insert n (actsOf k writer)) (insert n (actsOfBoth k writer delete)) ↔
      a = n :=
  live_written (finite_actsOfBoth k writer delete) (hb.superseded hr hkey hwrites) hacyclic
    (fun _ hy => List.mem_append_left _ hy) hscope

/-- After a bound deletion its scope has no current write. -/
theorem Binds.deleted (hdeletes : deletes = true) {a : Act}
    (hscope : scopeOf rule a = scopeOf rule n) :
    a ∉ liveActs rule (actsOf k writer) (insert n (actsOfBoth k writer delete)) :=
  live_deleted (fun _ hw heq =>
    hb.named _ (wanted_of_current hr hkey (hdeletes ▸ hb.bound) hw heq)) hscope

end Binds

/-- **A bound write supersedes what it saw.**  Over the acts and the new act, the current writes of a
    field for the key of the act (for its signer in a field by signer) are the act alone, none where
    it deletes; those of other keys and signers stay as they are. -/
theorem bound_write_supersedes (hclean : r7Violations sha256 d = []) (hstate : d.state = some clause)
    (hfield : (name, rule) ∈ clause.fields) (hdeletes : deletesUnder verb rule = some deletes)
    (hremove : ∀ v key, rule ≠ .observedSet v v key)
    (hopener : some verb ≠ openerOf d ∨ ∀ dom ∈ clause.domains, dom.1 ∉ ruleVerbs rule)
    (hinst : Instance.new d thread acts = .ok inst) (hacts : FromMessages contentHash acts)
    (h : intend contentHash inst signer verb fields = .ok m)
    (hn : Act.fromMessage contentHash (signedBy signer m) signer = .ok n) (hsame : SameActs acts n)
    (hacyclic : Acyclic (Names Act.address CbclState.replacedBy {a | a ∈ acts ++ [n]}))
    (hfits : (wanted (kernelFor contentHash clause acts) signer verb fields clause).toFinset.card
      ≤ (boundsOf d).max_list.toNat) :
    (HasKey rule n → ∀ a, scopeOf rule a = scopeOf rule n →
      (a ∈ currentOf (kernelFor contentHash clause (acts ++ [n])) rule ↔ deletes = false ∧ a = n)) ∧
    ∀ a, scopeOf rule a ≠ scopeOf rule n →
      (a ∈ currentOf (kernelFor contentHash clause (acts ++ [n])) rule ↔
        a ∈ currentOf (kernelFor contentHash clause acts) rule) := by
  obtain ⟨rfl, rfl, rfl, -⟩ := instance_new_ok hinst
  obtain ⟨b⟩ := built_of_intend h
  obtain rfl : b.act = n := Except.ok.inj (b.act_fromMessage.symm.trans hn)
  obtain ⟨writer, delete, hr⟩ := registers_of_deletes hdeletes
  have hadmitted := admits_of_gate hclean hstate (domainGate_of_intend h hstate) (supplied_fields b)
  have hbinds := binds_of_built b hstate hfield hdeletes hfits
  have hkey : HasKey rule b.act → ∀ key, keyField rule = some key →
      ∃ v, fields[key]? = some v ∧ b.act.fields[key]? = some v := by
    intro hhas key hkey
    obtain ⟨v, hv⟩ := Option.isSome_iff_exists.mp (hhas key hkey)
    exact ⟨v, supplied_of_key hclean hstate b hfield hkey hv, hv⟩
  have hall : Acyclic (Names Act.address CbclState.replacedBy (insert b.act
      (actsOfBoth (kernelFor contentHash clause inst.acts) writer delete))) := by
    refine fun x hx => hacyclic x (Relation.TransGen.mono (fun _ _ => Names.mono ?_) _ _ hx)
    rintro a (rfl | ha)
    · exact List.mem_append_right _ (List.mem_singleton_self _)
    · exact List.mem_append_left _ (mem_of_actsOfBoth ha)
  by_cases hknown : ∃ a ∈ inst.acts, a.address = b.act.address
  · -- the kernel keeps the old act, and no act with a key can be an old one
    rw [kernel_known hknown]
    refine ⟨fun hhas a _ => ?_, fun _ _ => Iff.rfl⟩
    obtain ⟨a', ha', haddress⟩ := hknown
    obtain ⟨c, hc, -, hfields, hsigner⟩ := selected_of_known hacts hn hsame hadmitted ha' haddress
    have hold := fun x hx => hall x (Relation.TransGen.mono
      (fun _ _ => Names.mono (Set.subset_insert _ _)) _ _ hx)
    exact absurd hc (hbinds.not_mem hr (hkey hhas) hold hfields hsigner)
  · have hfresh : ∀ a ∈ inst.acts, a.address ≠ b.act.address := fun a ha heq => hknown ⟨a, ha, heq⟩
    have hverbs := ruleVerbs_of_registers hr
    have hkept : some b.act.verb ≠ openerOf inst.dialect ∨ ∀ dom ∈ clause.domains,
        dom.1 ≠ writer ∧ delete ≠ some dom.1 := by
      refine hopener.imp_right fun h dom hdom => ⟨fun heq => ?_, fun heq => ?_⟩
      · exact h dom hdom (heq ▸ hverbs.1)
      · exact h dom hdom (hverbs.2 _ heq)
    -- the act joins the writes and deletions, and the writes alone where it writes
    simp only [mem_currentOf hr]
    rw [actsOfBoth_append hclean hstate hfresh hadmitted
      (by rcases verb_of_deletes hr hdeletes with ⟨-, rfl⟩ | ⟨-, rfl⟩
          · exact .inl rfl
          · exact .inr rfl) hkept]
    have hwrites : ∀ a, a ∈ actsOf (kernelFor contentHash clause (inst.acts ++ [b.act])) writer ↔
        verb = writer ∧ a = b.act ∨ a ∈ actsOf (kernelFor contentHash clause inst.acts) writer :=
      fun a => mem_acts_append hclean hstate hfresh hadmitted
        (hkept.imp_right fun h dom hdom => (h dom hdom).1)
    rcases verb_of_deletes hr hdeletes with ⟨rfl, rfl⟩ | ⟨rfl, rfl⟩
    · have hinsert : actsOf (kernelFor contentHash clause (inst.acts ++ [b.act])) writer
          = insert b.act (actsOf (kernelFor contentHash clause inst.acts) writer) := by
        ext a
        rw [hwrites, Set.mem_insert_iff]
        simp
      rw [hinsert]
      refine ⟨fun hhas a hscope => ?_, fun a hscope => live_other hscope ?_⟩
      · exact (hbinds.written hr (hkey hhas) rfl hall hscope).trans (and_iff_right rfl).symm
      · rw [Set.mem_insert_iff]
        exact or_iff_right fun heq => hscope (congrArg _ heq)
    · have hold : actsOf (kernelFor contentHash clause (inst.acts ++ [b.act])) writer
          = actsOf (kernelFor contentHash clause inst.acts) writer := by
        ext a
        rw [hwrites]
        exact or_iff_right fun heq => delete_ne hclean hstate hfield hremove hr heq.1
      rw [hold]
      refine ⟨fun hhas a hscope => ?_, fun a hscope => live_other hscope Iff.rfl⟩
      exact iff_of_false (hbinds.deleted hr (hkey hhas) rfl hscope) (by rintro ⟨⟨⟩, _⟩)

end Superseded

-- ── A tag is removed ────

/-- Where acts name one other act only, which names none, no act names itself. -/
theorem acyclic_of_edge {R : Set Act} {x y : String} (hne : y ≠ x)
    (h : ∀ r ∈ R, ∀ z ∈ CbclState.replacedBy r, r.address = x ∧ z = y) :
    Acyclic (Names Act.address CbclState.replacedBy R) := by
  have hedge : ∀ {h₁ h₂ : String}, Names Act.address CbclState.replacedBy R h₁ h₂ →
      h₁ = x ∧ h₂ = y := by
    rintro h₁ h₂ ⟨r, hr, rfl, hz⟩
    exact h r hr _ hz
  intro z hz
  obtain ⟨w, hfirst, hrest⟩ := Relation.TransGen.head'_iff.mp hz
  obtain ⟨w', -, hlast⟩ := Relation.TransGen.tail'_iff.mp hz
  exact hne ((hedge hlast).2.symm.trans (hedge hfirst).1)

/-- What is computed of a removal: its address is new, what it names, its field, and its bound. -/
theorem remove_runs :
    (∀ a ∈ tagActs [openTags, addTag], a.address ≠ tagAddress '3') ∧
    (∀ r ∈ tagActs ([openTags, addTag] ++ [removeTag]), ∀ z ∈ CbclState.replacedBy r,
      r.address = tagAddress '3' ∧ z = tagAddress '2') ∧
    (∀ r ∈ tagActs ([openTags, addTag] ++ [removeTag]), r.address = tagAddress '3' →
      (r.fields["tag"]?).isSome) ∧
    (wanted (kernelFor tagHash tagClause (tagActs [openTags, addTag])) "@alice" "remove" tagFields
      tagClause).toFinset.card ≤ (boundsOf tagDialect).max_list.toNat := by
  decide +kernel

/-- A removed tag has no current add. -/
theorem bound_write_supersedes_tag : ∃ n,
    Act.fromMessage tagHash (signedBy "@alice" removeTag) "@alice" = .ok n ∧
      ∀ a, scopeOf (.observedSet "add" "remove" "tag") a
          = scopeOf (.observedSet "add" "remove" "tag") n →
        a ∉ currentOf (kernelFor tagHash tagClause (tagActs [openTags, addTag] ++ [n]))
          (.observedSet "add" "remove" "tag") := by
  obtain ⟨-, hrun, hsome, -, -⟩ := readd_runs
  obtain ⟨hother, hnames, hkeyed, hbound⟩ := remove_runs
  obtain ⟨inst, hinst, hm⟩ := tagIntent hrun
  obtain ⟨n, hact, haddress, happend⟩ := tagActs_append [openTags, addTag] hsome
  have hkey : (n.fields["tag"]?).isSome = true :=
    hkeyed n (happend ▸ List.mem_append_right _ (List.mem_singleton_self n)) haddress
  have hresult := @bound_write_supersedes tagHash CbclSha256.sha256 tagDialect tagClause "t"
    (tagActs [openTags, addTag]) inst "@alice" "remove" tagFields removeTag n "tags"
    (.observedSet "add" "remove" "tag") true add_runs.1 rfl (List.mem_singleton_self _) rfl
    (fun v key h => by injection h with h₁ h₂; exact absurd (h₁.trans h₂.symm) (by decide))
    (.inr (by rintro _ ⟨⟩)) hinst (tagActs_fromMessages _) hm hact
    (fun a ha heq => absurd (heq.trans haddress) (hother a ha))
    (acyclic_of_edge (by decide : tagAddress '2' ≠ tagAddress '3') fun r hr => by
      rw [happend] at hr
      exact hnames r hr) hbound
  refine ⟨n, hact, fun a hscope hmem => ?_⟩
  have hhas : HasKey (.observedSet "add" "remove" "tag") n := by
    rintro key hkeyed
    obtain rfl := Option.some.inj hkeyed
    exact hkey
  cases ((hresult.1 hhas a hscope).mp hmem).1

-- ── Slots ────

/-- The contents of slots, written by openers. -/
def slotRule : Rule := .valuesPerKey "open" "slot" "content" (some "drop")

/-- The slots; only those the opener lists can be dropped. -/
def slotClause : StateClause :=
  ⟨[.field "eligible" (.initial "open" "eligible"), .field "slots" slotRule,
    .domain "drop" "slot" "eligible"]⟩

/-- A dialect with two openers of slots, `open#1` after `begin` and `open#2` after it. -/
def slotDialect : Dialect :=
  { CbclRegistry.plainDialect "slots"
      [⟨"open", [], effectTemplate "open-slot", none⟩,
        ⟨"drop", [], effectTemplate "drop-slot", none⟩] with
    causal_protocol := some ⟨((((∅ : BTreeMap String StepDecl).insert "begin"
      ⟨"begin", [], [.single "open#1"]⟩).insert "open#1"
        ⟨"open#1", [.single "begin"], [.single "open#2", .single "drop"]⟩).insert "open#2"
          ⟨"open#2", [.single "open#1"], []⟩).insert "drop" ⟨"drop", [.single "open#1"], []⟩⟩
    shapes := [⟨"open", [.require "eligible" (some .list) [], .require "slot" (some .string) [],
        .require "content" (some .string) [], .require "replaces" (some .list) []]⟩,
      ⟨"drop", [.require "slot" (some .string) [], .require "replaces" (some .list) []]⟩]
    state := some slotClause }

/-- An act of Alice on slots, with what it replaces. -/
def slotMessage (verb : String) (fields : List (String × SExpr)) (replaces : List String)
    (cause : CausedBy) : Message :=
  .dialect "slots" (.simple (.custom verb) none (.list [])
    (pairItems (fields ++ [("replaces", addressList replaces), ("from", .atom (.symbol "@alice"))]))
    (some "t") none (some cause))

/-- The fields of an opener of a slot. -/
def slotFields (slot content : String) : List (String × SExpr) :=
  [("content", .atom (.str content)), ("eligible", .list [.atom (.str "x")]),
    ("slot", .atom (.str slot))]

/-- The first opener fills the slot `x`. -/
def openX : Message := slotMessage "open" (slotFields "x" "a") [] .begin

/-- The slot `x` is dropped. -/
def dropX : Message :=
  slotMessage "drop" [("slot", .atom (.str "x"))] [tagAddress '1'] (.single (tagAddress '1'))

/-- The second opener fills the slot `y`. -/
def openY : Message := slotMessage "open" (slotFields "y" "b") [] (.single (tagAddress '1'))

/-- What is computed of a second opener: the act the binder returns, what it names, its bound, and
    the current writes before and after it. -/
theorem slot_runs :
    r7Violations CbclSha256.sha256 slotDialect = [] ∧
    ((Instance.new slotDialect "t" (tagActs [openX, dropX])).toOption.bind fun inst =>
      (intend tagHash inst "@alice" "open"
        (Std.ExtTreeMap.ofList (slotFields "y" "b"))).toOption) = some openY ∧
    ((Act.fromMessage tagHash (signedBy "@alice" openY) "@alice").toOption.map
      (·.address)) = some (tagAddress '4') ∧
    (∃ a ∈ currentOf (kernelFor tagHash slotClause
        (tagActs ([openX, dropX] ++ [openY]))) slotRule,
      some (scopeOf slotRule a) ≠ (Act.fromMessage tagHash (signedBy "@alice" openY)
        "@alice").toOption.map (scopeOf slotRule)) ∧
    (∀ a ∈ tagActs [openX, dropX], a.address ≠ tagAddress '4') ∧
    (∀ r ∈ tagActs ([openX, dropX] ++ [openY]), ∀ z ∈ CbclState.replacedBy r,
      r.address = tagAddress '3' ∧ z = tagAddress '1') ∧
    (wanted (kernelFor tagHash slotClause (tagActs [openX, dropX])) "@alice" "open"
      (Std.ExtTreeMap.ofList (slotFields "y" "b")) slotClause).toFinset.card
        ≤ (boundsOf slotDialect).max_list.toNat ∧
    (currentOf (kernelFor tagHash slotClause (tagActs [openX, dropX])) slotRule).length = 0 := by
  refine ⟨?_, ?_, ?_, ?_, ?_, ?_, ?_⟩ <;> decide +kernel

-- ── Votes ────

/-- The last vote of each signer. -/
def voteRule : Rule := .lwwPerSigner "vote" "choice" "at"

def voteClause : StateClause := ⟨[.field "choice" voteRule]⟩

/-- A dialect of votes after an opener. -/
def voteDialect : Dialect :=
  { CbclRegistry.plainDialect "votes"
      [⟨"open", [], effectTemplate "open-votes", none⟩,
        ⟨"vote", [], effectTemplate "cast-vote", none⟩] with
    causal_protocol := some ⟨(((∅ : BTreeMap String StepDecl).insert "begin"
      ⟨"begin", [], [.single "open"]⟩).insert "open"
        ⟨"open", [.single "begin"], [.single "vote"]⟩).insert "vote"
          ⟨"vote", [.single "open"], []⟩⟩
    shapes := [⟨"vote", [.require "choice" (some .string) [], .require "at" (some .hlc) [],
      .require "replaces" (some .list) []]⟩]
    state := some voteClause }

/-- The choice of Alice, with its clock. -/
def voteFields : List (String × SExpr) :=
  [("at", .atom (.str "hlc-0000000000000001-00000000")), ("choice", .atom (.str "x"))]

/-- The vote of Alice. -/
def aliceVote : Message :=
  .dialect "votes" (.simple (.custom "vote") none (.list [])
    (pairItems (voteFields ++
      [("replaces", addressList []), ("from", .atom (.symbol "@alice"))]))
    (some "t") none (some (.single (tagAddress '1'))))

/-- The opener of the votes. -/
def openVotes : Message :=
  .dialect "votes" (.simple (.custom "open") none (.list [])
    (pairItems [("from", .atom (.symbol "@alice"))]) (some "t") none (some .begin))

/-- An opener of Alice, and her vote with the signature of Bob. -/
def bobSigned : List Act :=
  tagActs [openVotes] ++
    (Act.fromMessage tagHash (signedBy "@bob" aliceVote) "@bob").toOption.toList

/-- What is computed of the vote: the act the binder returns, and who is current with it. -/
theorem vote_runs :
    r7Violations CbclSha256.sha256 voteDialect = [] ∧
    ((Instance.new voteDialect "t" bobSigned).toOption.bind fun inst =>
      (intend tagHash inst "@alice" "vote" (Std.ExtTreeMap.ofList voteFields)).toOption)
        = some aliceVote ∧
    (Act.fromMessage tagHash (signedBy "@alice" aliceVote) "@alice").toOption.any fun n =>
      (currentOf (kernelFor tagHash voteClause (bobSigned ++ [n])) voteRule).map Act.signer
        = ["@bob"] := by
  refine ⟨?_, ?_, ?_⟩ <;> decide +kernel

/-- **A bound write need not supersede what it saw.**  With two openers the eligible slots have no
    value, so the domain excludes the deletion, and the write it named is current again.  And
    addresses do not cover the signer: the vote Alice is bound to has the address of the one Bob has
    signed, and his alone is current. -/
theorem bound_write_not_superseding :
    (r7Violations CbclSha256.sha256 slotDialect = [] ∧
     ¬ ∀ (acts : List Act) (inst : Instance) (signer : AgentKey) (verb : String)
       (fields : BTreeMap String SExpr) (m : Message) (n : Act) (name : String) (rule : Rule)
       (deletes : Bool), (name, rule) ∈ slotClause.fields → deletesUnder verb rule = some deletes →
       Instance.new slotDialect "t" acts = .ok inst → FromMessages tagHash acts →
       intend tagHash inst signer verb fields = .ok m →
       Act.fromMessage tagHash (signedBy signer m) signer = .ok n → SameActs acts n →
       Acyclic (Names Act.address CbclState.replacedBy {a | a ∈ acts ++ [n]}) →
       (wanted (kernelFor tagHash slotClause acts) signer verb fields slotClause).toFinset.card
         ≤ (boundsOf slotDialect).max_list.toNat →
       ∀ a, scopeOf rule a ≠ scopeOf rule n →
         (a ∈ currentOf (kernelFor tagHash slotClause (acts ++ [n])) rule ↔
           a ∈ currentOf (kernelFor tagHash slotClause acts) rule)) ∧
    (r7Violations CbclSha256.sha256 voteDialect = [] ∧
     ∃ inst n, Instance.new voteDialect "t" bobSigned = .ok inst ∧
       intend tagHash inst "@alice" "vote" (Std.ExtTreeMap.ofList voteFields) = .ok aliceVote ∧
       Act.fromMessage tagHash (signedBy "@alice" aliceVote) "@alice" = .ok n ∧
       (currentOf (kernelFor tagHash voteClause (bobSigned ++ [n])) voteRule).map Act.signer
         = ["@bob"]) := by
  constructor
  · obtain ⟨hclean, hrun, hsome, ⟨a, ha, hscope⟩, hother, hnames, hbound, hnone⟩ := slot_runs
    refine ⟨hclean, fun hclaim => ?_⟩
    obtain ⟨inst, hinst, hm⟩ := tagIntent hrun
    obtain ⟨n, hact, haddress, happend⟩ := tagActs_append [openX, dropX] hsome
    rw [hact] at hscope
    have hiff := hclaim (tagActs [openX, dropX]) inst "@alice" "open" _ openY n "slots" slotRule false
      (.tail _ (.head _)) rfl hinst (tagActs_fromMessages _) hm hact
      (fun a ha heq => absurd (heq.trans haddress) (hother a ha))
      (acyclic_of_edge (by decide : tagAddress '1' ≠ tagAddress '3') fun r hr => by
        rw [happend] at hr
        exact hnames r hr) hbound a fun heq => hscope (congrArg some heq)
    rw [happend] at hiff
    have hmem := hiff.mp ha
    rw [List.length_eq_zero_iff.mp hnone] at hmem
    exact nomatch hmem
  · obtain ⟨hclean, hrun, hcurrent⟩ := vote_runs
    obtain ⟨inst, hinst, hm⟩ := Option.bind_eq_some_iff.mp hrun
    obtain ⟨n, hn, hsigners⟩ := (Option.any_eq_true _ _).mp hcurrent
    exact ⟨hclean, inst, n, toOption_eq_some_iff.mp hinst, toOption_eq_some_iff.mp hm,
      toOption_eq_some_iff.mp hn, of_decide_eq_true hsigners⟩

end CbclSupersession
