import Cbcl.SummaryRowProofs

/-!
# Rendering rows

A row renders to the value the fold gives for its field.  Rows that keep contributions are
rendered by folding acts made from them, so the point is that a contribution and the act it
came from are read alike: same address, same key and value, same stamp.  The last needs the
clock to be a field of its own: a clock keyword that is also the key or the value would let a
stored symbol pass for a clock.
-/

namespace CbclSummary

open CbclMessage CbclProtocol CbclAct CbclEscrow CbclState CbclStateMeaning CbclStateSelection
  CbclStateFold CbclStateRender CbclCanonical CbclTypedAddr CbclCodec CbclPositions CbclKeyedSort
  CbclTreeMap CbclResourceResume
open scoped Classical

-- ── Stored values ────

mutual
theorem fromSExpr_native : ∀ x, Value.fromSExpr (native x) = Value.fromSExpr x
  | .atom (.symbol s) => by rw [native, Value.fromSExpr, Value.fromSExpr]
  | .atom (.keyword s) => by rw [native, Value.fromSExpr, Value.fromSExpr]
  | .atom (.str s) => by rw [native]
  | .atom (.num n) => by rw [native]
  | .atom (.bool b) => by rw [native]
  | .list xs => by rw [native, Value.fromSExpr, Value.fromSExpr, fromItems_nativeItems]
theorem fromItems_nativeItems : ∀ xs, Value.fromItems (nativeItems xs) = Value.fromItems xs
  | [] => by rw [nativeItems]
  | x :: xs => by
      rw [nativeItems, Value.fromItems, Value.fromItems, fromSExpr_native, fromItems_nativeItems]
end

mutual
/-- The stored form of a value that was read from a field. -/
def unread : Value → SExpr
  | .str s => .atom (.str s)
  | .int n => .atom (.num (Int64.ofInt n))
  | .bool b => .atom (.bool b)
  | .list xs => .list (unreadItems xs)
  | _ => .list []
/-- The stored form of the items of a list. -/
def unreadItems : List Value → List SExpr
  | [] => []
  | x :: xs => unread x :: unreadItems xs
end

mutual
theorem unread_fromSExpr : ∀ x, unread (Value.fromSExpr x) = native x
  | .atom (.symbol s) => by rw [Value.fromSExpr, unread, native]
  | .atom (.keyword s) => by rw [Value.fromSExpr, unread, native]
  | .atom (.str s) => by rw [Value.fromSExpr, unread, native]
  | .atom (.num n) => by rw [Value.fromSExpr, unread, native, Int64.ofInt_toInt]
  | .atom (.bool b) => by rw [Value.fromSExpr, unread, native]
  | .list xs => by rw [Value.fromSExpr, unread, native, unreadItems_fromItems]
theorem unreadItems_fromItems : ∀ xs, unreadItems (Value.fromItems xs) = nativeItems xs
  | [] => by rw [Value.fromItems, unreadItems, nativeItems]
  | x :: xs => by
      rw [Value.fromItems, unreadItems, nativeItems, unread_fromSExpr, unreadItems_fromItems]
end

theorem fieldOf_eq (a : Act) (k : String) : fieldOf a k = (field a k).map Value.fromSExpr := by
  unfold fieldOf field
  cases a.fields[k]? with
  | none => rfl
  | some x => exact congrArg some (fromSExpr_native x).symm

theorem field_eq (a : Act) (k : String) : field a k = (fieldOf a k).map unread := by
  unfold fieldOf field
  cases a.fields[k]? with
  | none => rfl
  | some x => exact congrArg some (unread_fromSExpr x).symm

theorem encode_injective {x y : SExpr} (h : encode x = encode y) : x = y :=
  (encode_split x y [] [] (by rw [List.append_nil, List.append_nil, h])).1

/-- A stored field is the stored form of what it is read as. -/
theorem stored {a : Act} {k : String} {x : SExpr} (h : field a k = some x) :
    x = unread (Value.fromSExpr x) := by
  have heq := field_eq a k
  rw [fieldOf_eq, h] at heq
  exact Option.some.inj heq

/-- Stored keys are equal when their renderings are. -/
theorem key_scope_iff {a b : Act} {k : String} :
    ((field a k).map encode).getD [] = ((field b k).map encode).getD [] ↔
      keyOf (some k) a = keyOf (some k) b := by
  have hencode : ∀ x : SExpr, encode x ≠ [] := by
    intro x hx
    obtain ⟨_, _, h, -⟩ := encode_head x
    rw [hx] at h
    exact nomatch h
  have hrender : ∀ x : SExpr, (Value.fromSExpr x).render ≠ "" := by
    intro x hx
    obtain ⟨_, _, h, -⟩ := head_render x
    have hnil : (Value.fromSExpr x).renderInto = [] := by
      rw [← String.toList_ofList (l := (Value.fromSExpr x).renderInto)]
      show (Value.fromSExpr x).render.toList = []
      rw [hx]
      rfl
    rw [hnil] at h
    exact nomatch h
  unfold keyOf
  dsimp only
  rw [fieldOf_eq, fieldOf_eq]
  cases hx : field a k with
  | none =>
      cases field b k with
      | none => simp
      | some y => exact iff_of_false (fun h => hencode y h.symm) (fun h => hrender y h.symm)
  | some x =>
      cases hy : field b k with
      | none => exact iff_of_false (hencode x) (hrender x)
      | some y =>
          refine ⟨fun h => ?_, fun h => ?_⟩
          · rw [encode_injective h]
          · rw [stored hx, stored hy, render_injective h]

/-- The fields a contribution stands for. -/
theorem getElem?_setField (m : BTreeMap String SExpr) (key k : String) (v : Option SExpr) :
    (setField m key v)[k]? = if k = key then v.or m[k]? else m[k]? := by
  unfold setField
  cases v with
  | none => simp
  | some v => rw [getElem?_insert_eq]; rfl

/-- A canonical clock is stored as it stands. -/
theorem clock_field {a : Act} {k s : String} (h : clockText a k = some s) :
    field a k = some (.atom (.str s)) := by
  unfold clockText at h
  split at h
  · rename_i t ht
    split at h
    · injection h with h
      unfold field
      rw [ht, ← h, Option.map_some, native]
    · cases h
  · cases h

theorem clock_or_field (a : Act) (k : String) :
    ((clockText a k).map fun s => SExpr.atom (.str s)).or (field a k) = field a k := by
  cases h : clockText a k with
  | none => rfl
  | some s => rw [clock_field h]; rfl

-- ── Restored acts ────

/-- The act a rule reads in place of an act. -/
def restore (r : Rule) (a : Act) : Act := synthetic r (project r a)

theorem restore_address (r : Rule) (a : Act) : (restore r a).address = a.address := project_id r a

/-- The fields a rule keeps. -/
def kept : Rule → List String
  | .initial _ key => [key]
  | .values _ key => [key]
  | .observedSet _ _ key => [key]
  | .valuesPerKey _ key value _ => [key, value]
  | .lwwMap _ key value _ _ => [key, value]
  | .lwwRegister _ key _ => [key]
  | .lwwPerSigner _ key _ => [key]
  | _ => []

/-- The clock a rule compares. -/
def clockOf : Rule → Option String
  | .lwwMap _ _ _ clock _ => some clock
  | .lwwRegister _ _ clock => some clock
  | .lwwPerSigner _ _ clock => some clock
  | _ => none

/-- A restored act has no fields of its own. -/
theorem field_of_restored {r : Rule} {a : Act} {k : String} {v : SExpr}
    (h : (restore r a).fields[k]? = some v) : field a k = some v := by
  have hor : ∀ {x y : Option SExpr}, x.or y = some v → x = some v ∨ y = some v := by
    intro x y hxy
    cases x with
    | none => exact Or.inr hxy
    | some x => exact Or.inl hxy
  have hset : ∀ {m : BTreeMap String SExpr} {key : String} {w : Option SExpr},
      (setField m key w)[k]? = some v → (k = key ∧ w = some v) ∨ m[k]? = some v := by
    intro m key w hm
    rw [getElem?_setField] at hm
    split at hm
    · rename_i hk
      exact (hor hm).imp (fun hw => ⟨hk, hw⟩) id
    · exact Or.inr hm
  have hempty : (∅ : BTreeMap String SExpr)[k]? ≠ some v := by simp
  have hclock : ∀ {clk : String}, (clockText a clk).map (fun s => SExpr.atom (.str s)) = some v →
      field a clk = some v := by
    intro clk hc
    obtain ⟨s, hs, rfl⟩ := Option.map_eq_some_iff.mp hc
    exact clock_field hs
  change (restored r (project r a)).2[k]? = some v at h
  cases r with
  | initial verb key =>
      rcases hset h with ⟨rfl, hv⟩ | h
      · exact hv
      · exact absurd h hempty
  | values verb key =>
      rcases hset h with ⟨rfl, hv⟩ | h
      · exact hv
      · exact absurd h hempty
  | observedSet add remove key =>
      rcases hset h with ⟨rfl, hv⟩ | h
      · exact hv
      · exact absurd h hempty
  | valuesPerKey verb key value delete =>
      rcases hset h with ⟨rfl, hv⟩ | h
      · exact hv
      rcases hset h with ⟨rfl, hv⟩ | h
      · exact hv
      · exact absurd h hempty
  | lwwMap verb key value clock delete =>
      rcases hset h with ⟨rfl, hv⟩ | h
      · exact hclock hv
      rcases hset h with ⟨rfl, hv⟩ | h
      · exact hv
      rcases hset h with ⟨rfl, hv⟩ | h
      · exact hv
      · exact absurd h hempty
  | lwwRegister verb key clock =>
      rcases hset h with ⟨rfl, hv⟩ | h
      · exact hclock hv
      rcases hset h with ⟨rfl, hv⟩ | h
      · exact hv
      · exact absurd h hempty
  | lwwPerSigner verb key clock =>
      rcases hset h with ⟨rfl, hv⟩ | h
      · exact hclock hv
      rcases hset h with ⟨rfl, hv⟩ | h
      · exact hv
      · exact absurd h hempty
  | _ => exact absurd h hempty

/-- **A restored act carries the fields its rule keeps.** -/
theorem fields_restore {r : Rule} {a : Act} {k : String} (hk : k ∈ kept r) :
    (restore r a).fields[k]? = field a k := by
  cases hv : field a k with
  | none =>
      by_contra hsome
      obtain ⟨v, hsome⟩ := Option.ne_none_iff_exists'.mp hsome
      rw [field_of_restored hsome] at hv
      exact nomatch hv
  | some v =>
      rw [← hv]
      have hput : ∀ {m : BTreeMap String SExpr}, (setField m k (field a k))[k]? = field a k := by
        intro m
        rw [getElem?_setField, if_pos rfl, hv]
        rfl
      have hset : ∀ {m : BTreeMap String SExpr} {key : String},
          m[k]? = field a k → (setField m key (field a key))[k]? = field a k := by
        intro m key hm
        rw [getElem?_setField]
        split
        · rename_i hkey
          rw [hm, hkey, Option.or_self]
        · exact hm
      have hclock : ∀ {m : BTreeMap String SExpr} {clk : String}, m[k]? = field a k →
          (setField m clk ((clockText a clk).map fun s => SExpr.atom (.str s)))[k]?
            = field a k := by
        intro m clk hm
        rw [getElem?_setField]
        split
        · rename_i hkey
          rw [hm, hkey, clock_or_field]
        · exact hm
      change (restored r (project r a)).2[k]? = field a k
      cases r with
      | initial verb key =>
          rw [kept, List.mem_singleton] at hk
          subst hk
          exact hput
      | values verb key =>
          rw [kept, List.mem_singleton] at hk
          subst hk
          exact hput
      | observedSet add remove key =>
          rw [kept, List.mem_singleton] at hk
          subst hk
          exact hput
      | valuesPerKey verb key value delete =>
          rw [kept, List.mem_pair] at hk
          rcases hk with rfl | rfl
          · exact hset hput
          · exact hput
      | lwwMap verb key value clock delete =>
          rw [kept, List.mem_pair] at hk
          rcases hk with rfl | rfl
          · exact hclock (hset hput)
          · exact hclock hput
      | lwwRegister verb key clock =>
          rw [kept, List.mem_singleton] at hk
          subst hk
          exact hclock hput
      | lwwPerSigner verb key clock =>
          rw [kept, List.mem_singleton] at hk
          subst hk
          exact hclock hput
      | _ => exact nomatch hk

theorem fieldOf_restore {r : Rule} {a : Act} {k : String} (hk : k ∈ kept r) :
    fieldOf (restore r a) k = fieldOf a k := by
  rw [fieldOf_eq a k]
  unfold fieldOf
  rw [fields_restore hk]

/-- The stamp of an act is made of its canonical clock. -/
theorem stampOf_eq (clk : String) (a : Act) : stampOf clk a
    = ((clockText a clk).bind Hlc.parse).map fun t => toLex (t, toLex (a.signer, a.address)) := by
  unfold stampOf clockText
  match a.fields[clk]? with
  | some (.atom (.str s)) =>
      dsimp only
      cases hparse : Hlc.parse s with
      | none => simp
      | some t => simp [hparse]
  | some (.atom (.symbol _)) => rfl
  | some (.atom (.num _)) => rfl
  | some (.atom (.bool _)) => rfl
  | some (.atom (.keyword _)) => rfl
  | some (.list _) => rfl
  | none => rfl

/-- The stamp of a contribution is the stamp of its act. -/
theorem stamp_project {r : Rule} {clk : String} (h : clockOf r = some clk) (a : Act) :
    stamp (project r a) = stampOf clk a := by
  have hclock : (project r a).clock = clockText a clk ∧ (project r a).signer = a.signer := by
    cases r with
    | lwwMap => injection h with h; subst h; exact ⟨rfl, rfl⟩
    | lwwRegister => injection h with h; subst h; exact ⟨rfl, rfl⟩
    | lwwPerSigner => injection h with h; subst h; exact ⟨rfl, rfl⟩
    | _ => exact nomatch h
  rw [stampOf_eq]
  unfold stamp
  rw [hclock.1, hclock.2, project_id]

/-- The clock of a restored act is set last. -/
theorem restore_clock {r : Rule} {clk : String} (h : clockOf r = some clk) (a : Act) :
    (restore r a).signer = a.signer ∧ ∃ m, (restore r a).fields
        = setField m clk ((clockText a clk).map fun s => SExpr.atom (.str s)) ∧
      (clk ∉ kept r → m[clk]? = none) := by
  have hempty : (∅ : BTreeMap String SExpr)[clk]? = none := by simp
  have hset : ∀ {m : BTreeMap String SExpr} {key : String} {v : Option SExpr},
      clk ≠ key → m[clk]? = none → (setField m key v)[clk]? = none := by
    intro m key v hne hm
    rw [getElem?_setField, if_neg hne]
    exact hm
  cases r with
  | lwwMap verb key value clock delete =>
      injection h with h
      subst h
      refine ⟨rfl, _, rfl, fun hk => ?_⟩
      rw [kept, List.mem_pair, not_or] at hk
      exact hset hk.2 (hset hk.1 hempty)
  | lwwRegister verb key clock =>
      injection h with h
      subst h
      refine ⟨rfl, _, rfl, fun hk => ?_⟩
      rw [kept, List.mem_singleton] at hk
      exact hset hk hempty
  | lwwPerSigner verb key clock =>
      injection h with h
      subst h
      refine ⟨rfl, _, rfl, fun hk => ?_⟩
      rw [kept, List.mem_singleton] at hk
      exact hset hk hempty
  | _ => exact nomatch h

/-- **A restored act is stamped as its act**, if its clock is a field of its own or it has one. -/
theorem stampOf_restore {r : Rule} {clk : String} (h : clockOf r = some clk) {a : Act}
    (hclock : clk ∉ kept r ∨ (stampOf clk a).isSome = true) :
    stampOf clk (restore r a) = stampOf clk a := by
  obtain ⟨hsigner, m, hfields, hnone⟩ := restore_clock h a
  have htext : clockText (restore r a) clk = clockText a clk := by
    unfold clockText
    rw [hfields, getElem?_setField, if_pos rfl]
    cases hc : clockText a clk with
    | none =>
        have hnot : clk ∉ kept r := hclock.resolve_right (by rw [stampOf_eq, hc]; simp)
        have hkept : m[clk]? = none := hnone hnot
        simp only [Option.map_none, hkept]
        exact hc.symm
    | some s =>
        have hparse : (Hlc.parse s).isSome = true := by
          unfold clockText at hc
          split at hc
          · split at hc
            · rename_i hp
              rw [← Option.some.inj hc]
              exact hp
            · cases hc
          · cases hc
        show (if (Hlc.parse s).isSome = true then some s else none) = _
        rw [if_pos hparse]
        exact hc.symm
  rw [stampOf_eq, stampOf_eq, htext, hsigner, restore_address]

/-- A restored act replaces no more than its act. -/
theorem replacedBy_restore {r : Rule} {a : Act} (hreplacing : replacing r a = true)
    (hrefs : checkReferences r a = .ok ()) {id : String} (h : id ∈ replacedBy (restore r a)) :
    id ∈ replacedBy a := by
  unfold replacedBy at h
  split at h
  · rename_i items hitems
    have hfield := field_of_restored hitems
    unfold field at hfield
    obtain ⟨x, hx, hnative⟩ := Option.map_eq_some_iff.mp hfield
    unfold checkReferences at hrefs
    rw [if_pos hreplacing, hx] at hrefs
    cases x with
    | atom s => cases s <;> rw [native] at hnative <;> exact nomatch hnative
    | list xs =>
        dsimp only at hrefs
        split at hrefs
        · rename_i hall
          rw [native] at hnative
          injection hnative with hnative
          unfold replacedBy
          rw [hx]
          dsimp only
          rw [← hnative] at h
          have hsame : ∀ ys : List SExpr, ys.all namesWire = true →
              (nativeItems ys).filterMap text = ys.filterMap text := by
            intro ys
            induction ys with
            | nil => intro _; rw [nativeItems]
            | cons y ys ih =>
                intro hys
                rw [List.all_cons, Bool.and_eq_true] at hys
                have hy : text (native y) = text y := by
                  have hwire := hys.1
                  unfold namesWire at hwire
                  cases y with
                  | list zs => exact absurd hwire (by simp [text])
                  | atom s =>
                      cases s with
                      | symbol s => rw [native]; rfl
                      | str s => rw [native]
                      | keyword s => exact absurd hwire (by simp [text])
                      | num n => exact absurd hwire (by simp [text])
                      | bool b => exact absurd hwire (by simp [text])
                rw [nativeItems, List.filterMap_cons, List.filterMap_cons, hy, ih hys.2]
          rw [hsame xs hall] at h
          exact h
        · exact nomatch hrefs
  · exact nomatch h

-- ── Sets of restored acts ────

section Images

variable {r : Rule} {W : Finset Act}

theorem valuesIn_restore {key : String} (hkey : key ∈ kept r) :
    valuesIn (W.image (restore r)) key = valuesIn W key := by
  ext v
  rw [mem_valuesIn, mem_valuesIn]
  constructor
  · rintro ⟨b, hb, hv⟩
    obtain ⟨a, ha, rfl⟩ := Finset.mem_image.mp hb
    exact ⟨a, ha, by rw [← fieldOf_restore hkey]; exact hv⟩
  · rintro ⟨a, ha, hv⟩
    exact ⟨restore r a, Finset.mem_image_of_mem _ ha, by rw [fieldOf_restore hkey]; exact hv⟩

theorem withKey_restore {key : String} (hkey : key ∈ kept r) (v : Value) :
    withKey (W.image (restore r)) key v = (withKey W key v).image (restore r) := by
  unfold withKey
  rw [Finset.filter_image]
  exact congrArg _ (Finset.filter_congr fun a _ => by rw [fieldOf_restore hkey])

theorem signers_restore {clk : String} (hclk : clockOf r = some clk) :
    (W.image (restore r)).image (·.signer) = W.image (·.signer) := by
  rw [Finset.image_image]
  exact Finset.image_congr fun a _ => (restore_clock hclk a).1

theorem signedBy_restore {clk : String} (hclk : clockOf r = some clk) (s : String) :
    (W.image (restore r)).filter (·.signer = s) = (W.filter (·.signer = s)).image (restore r) := by
  rw [Finset.filter_image]
  exact congrArg _ (Finset.filter_congr fun a _ => by rw [(restore_clock hclk a).1])

theorem lww_restore {key clk : String} (hkey : key ∈ kept r) (hclk : clockOf r = some clk)
    (hkeyed : ∀ a ∈ W, ∀ b ∈ W, a.address = b.address → a = b)
    (hown : clk ∉ kept r ∨ ∀ a ∈ W, (stampOf clk a).isSome = true) :
    lww (W.image (restore r)) key clk = lww W key clk := by
  have hstamp : ∀ a ∈ W, stampOf clk (restore r a) = stampOf clk a := fun a ha =>
    stampOf_restore hclk (hown.imp_right fun h => h a ha)
  have hlatest : ∀ a ∈ W, Latest (W.image (restore r)) clk (restore r a) ↔ Latest W clk a := by
    intro a ha
    unfold Latest
    rw [hstamp a ha]
    refine and_congr (iff_of_true (Finset.mem_image_of_mem _ ha) ha) ?_
    refine exists_congr fun t => and_congr_right fun _ => ?_
    constructor
    · intro hmax b hb u hu
      exact hmax _ (Finset.mem_image_of_mem _ hb) u (by rw [hstamp b hb]; exact hu)
    · intro hmax b hb u hu
      obtain ⟨b', hb', rfl⟩ := Finset.mem_image.mp hb
      exact hmax b' hb' u (by rw [← hstamp b' hb']; exact hu)
  unfold lww
  by_cases hex : ∃ a, Latest W clk a
  · have hchosen := hex.choose_spec
    have hex' : ∃ b, Latest (W.image (restore r)) clk b :=
      ⟨_, (hlatest _ hchosen.1).mpr hchosen⟩
    rw [dif_pos hex, dif_pos hex']
    obtain ⟨a, ha, hra⟩ := Finset.mem_image.mp hex'.choose_spec.1
    have hlast : Latest W clk a := by
      rw [← hlatest a ha, hra]
      exact hex'.choose_spec
    rw [← hra, fieldOf_restore hkey, Latest.unique hkeyed hlast hchosen]
  · rw [dif_neg hex, dif_neg]
    rintro ⟨b, hb⟩
    obtain ⟨a, ha, rfl⟩ := Finset.mem_image.mp hb.1
    exact hex ⟨a, (hlatest a ha).mp hb⟩

end Images

-- ── Live writes ────

/-- The scope of an act, as the fold reads it. -/
def scopeText : Rule → Act → String
  | .valuesPerKey _ key _ _ => keyOf (some key)
  | .lwwMap _ key _ _ _ => keyOf (some key)
  | .observedSet _ _ key => keyOf (some key)
  | .lwwPerSigner .. => (·.signer)
  | _ => fun _ => ""

theorem scope_iff {r : Rule} (hscopes : scopes r = true) {a b : Act} :
    scope r (project r a) = scope r (project r b) ↔ scopeText r a = scopeText r b := by
  cases r with
  | valuesPerKey verb key value delete => exact key_scope_iff
  | lwwMap verb key value clock delete => exact key_scope_iff
  | observedSet add remove key => exact key_scope_iff
  | lwwPerSigner verb key clock =>
      refine ⟨fun h => ?_, fun h => congrArg (fun s => encode (.atom (.str s))) h⟩
      have hstr := encode_injective h
      injection hstr with hstr
      injection hstr
  | values verb key => exact iff_of_true rfl rfl
  | _ => exact nomatch hscopes

/-- The writes of a set nobody in it replaces. -/
def liveIn (r : Rule) (S : Finset Act) : Finset Act :=
  S.filter fun a => writer r a = true ∧
    ¬ ∃ b ∈ S, replacing r b = true ∧ scopeText r b = scopeText r a ∧ a.address ∈ replacedBy b

/-- A restored act is in the scope of its act. -/
theorem scopeText_restore {r : Rule} (hscopes : scopes r = true) (a : Act) :
    scopeText r (restore r a) = scopeText r a := by
  have hkey : ∀ {k : String}, k ∈ kept r → keyOf (some k) (restore r a) = keyOf (some k) a := by
    intro k hk
    unfold keyOf
    dsimp only
    rw [fieldOf_restore hk]
  cases r with
  | valuesPerKey verb key value delete => exact hkey (by simp [kept])
  | lwwMap verb key value clock delete => exact hkey (by simp [kept])
  | observedSet add remove key => exact hkey (by simp [kept])
  | lwwPerSigner verb key clock => rfl
  | values verb key => rfl
  | _ => exact nomatch hscopes

theorem replacing_of_writer {r : Rule} (hscopes : scopes r = true) {a : Act}
    (h : writer r a = true) : replacing r a = true := by
  unfold replacing
  rw [hscopes, Bool.true_and]
  cases r with
  | observedSet add remove key =>
      have hverb : a.verb = add := of_decide_eq_true h
      simp [verbs, hverb]
  | values verb key => simpa [writer, verbs, eq_comm] using h
  | valuesPerKey verb key value delete =>
      have hverb : some verb = some a.verb := of_decide_eq_true h
      simp [verbs, Option.some.inj hverb]
  | lwwMap verb key value clock delete =>
      have hverb : some verb = some a.verb := of_decide_eq_true h
      simp [verbs, Option.some.inj hverb]
  | lwwPerSigner verb key clock => simpa [writer, verbs, eq_comm] using h
  | _ => exact nomatch hscopes

theorem writer_restore {r : Rule} (hscopes : scopes r = true) (a : Act) :
    writer r (restore r a) = true := by
  cases r with
  | observedSet add remove key => exact decide_eq_true rfl
  | values verb key => exact decide_eq_true rfl
  | valuesPerKey verb key value delete => exact decide_eq_true rfl
  | lwwMap verb key value clock delete => exact decide_eq_true rfl
  | lwwPerSigner verb key clock => exact decide_eq_true rfl
  | _ => exact nomatch hscopes

/-- **Restored live writes are all live.** -/
theorem liveIn_restore {r : Rule} (hscopes : scopes r = true) {S : Finset Act}
    (hrefs : ∀ a ∈ S, checkReferences r a = .ok ()) :
    liveIn r ((liveIn r S).image (restore r)) = (liveIn r S).image (restore r) := by
  refine Finset.filter_true_of_mem fun w hw => ?_
  obtain ⟨a, ha, rfl⟩ := Finset.mem_image.mp hw
  refine ⟨writer_restore hscopes a, ?_⟩
  rintro ⟨b', hb', -, hscope, hid⟩
  obtain ⟨b, hb, rfl⟩ := Finset.mem_image.mp hb'
  obtain ⟨haS, -, hlive⟩ := Finset.mem_filter.mp ha
  obtain ⟨hbS, hwriter, -⟩ := Finset.mem_filter.mp hb
  have hreplacing := replacing_of_writer hscopes hwriter
  rw [scopeText_restore hscopes, scopeText_restore hscopes] at hscope
  rw [restore_address] at hid
  exact hlive ⟨b, hbS, hreplacing, hscope, replacedBy_restore hreplacing (hrefs b hbS) hid⟩

-- ── Live writes as the fold selects them ────

theorem mem_selected {S : Finset Act} {verb : String} {a : Act} :
    a ∈ selected [] S verb ↔ a ∈ S ∧ a.verb = verb := by
  unfold selected
  simp

/-- The current writes of the fold, without domains. -/
theorem currentWrites_eq {r : Rule} {verb : String} {key delete : Option String}
    (hwriter : ∀ a : Act, writer r a = true ↔ a.verb = verb)
    (hreplacing : ∀ a : Act, replacing r a = true ↔ a.verb = verb ∨ delete = some a.verb)
    (hscope : ∀ a, scopeText r a = keyOf key a) (S : Finset Act) :
    currentWrites [] S verb key delete = liveIn r S := by
  have hreplacers : ∀ b : Act, b ∈ selected [] S verb ∪ (delete.map (selected [] S)).getD ∅ ↔
      b ∈ S ∧ replacing r b = true := by
    intro b
    rw [Finset.mem_union, mem_selected, hreplacing]
    cases delete with
    | none => simp
    | some d =>
        rw [Option.map_some, Option.getD_some, mem_selected, Option.some.injEq, @eq_comm _ d]
        exact and_or_left.symm
  ext a
  unfold currentWrites unreplaced liveIn
  rw [Finset.mem_filter, Finset.mem_filter, mem_selected, hwriter, and_assoc]
  refine and_congr_right fun _ => and_congr_right fun _ => not_congr ?_
  refine exists_congr fun b => ?_
  rw [hreplacers, hscope, hscope, and_assoc]

theorem currentOwn_eq (verb key clock : String) (S : Finset Act) :
    currentOwn [] S verb = liveIn (.lwwPerSigner verb key clock) S := by
  have hwriter : ∀ a : Act, writer (.lwwPerSigner verb key clock) a = true ↔ a.verb = verb := by
    intro a
    simp [writer, verbs, eq_comm]
  have hreplacing : ∀ a : Act,
      replacing (.lwwPerSigner verb key clock) a = true ↔ a.verb = verb := by
    intro a
    simp [replacing, scopes, verbs]
  ext a
  unfold currentOwn unreplaced liveIn
  rw [Finset.mem_filter, Finset.mem_filter, mem_selected, hwriter, and_assoc]
  refine and_congr_right fun _ => and_congr_right fun _ => not_congr ?_
  refine exists_congr fun b => ?_
  rw [mem_selected, hreplacing, and_assoc]
  rfl

theorem current_values (verb key : String) (S : Finset Act) :
    currentWrites [] S verb none none = liveIn (.values verb key) S :=
  currentWrites_eq (fun a => by simp [writer, verbs, eq_comm])
    (fun a => by simp [replacing, scopes, verbs]) (fun _ => rfl) S

/-- A rule with a deleting verb replaces with both verbs. -/
theorem mem_verbs_delete {verb v : String} {delete : Option String} :
    (verb :: delete.toList).contains v = true ↔ v = verb ∨ delete = some v := by
  cases delete with
  | none => simp
  | some d => simp [@eq_comm _ d]

theorem current_valuesPerKey (verb key value : String) (delete : Option String)
    (S : Finset Act) :
    currentWrites [] S verb (some key) delete = liveIn (.valuesPerKey verb key value delete) S :=
  currentWrites_eq (fun a => by simp [writer, verbs, eq_comm]) (fun _ => by exact mem_verbs_delete)
    (fun _ => rfl) S

theorem current_lwwMap (verb key value clock : String) (delete : Option String)
    (S : Finset Act) :
    currentWrites [] S verb (some key) delete = liveIn (.lwwMap verb key value clock delete) S :=
  currentWrites_eq (fun a => by simp [writer, verbs, eq_comm]) (fun _ => by exact mem_verbs_delete)
    (fun _ => rfl) S

theorem current_observedSet (add remove key : String) (S : Finset Act) :
    currentWrites [] S add (some key) (some remove) = liveIn (.observedSet add remove key) S :=
  currentWrites_eq (fun a => by simp [writer])
    (fun a => by simp [replacing, scopes, verbs, @eq_comm _ remove]) (fun _ => rfl) S

/-- The clock of a rule with observed replacement is a field of its own. -/
def SeparateClock (r : Rule) : Prop := scopes r = true → ∀ clk ∈ clockOf r, clk ∉ kept r

instance (r : Rule) : Decidable (SeparateClock r) := by
  unfold SeparateClock
  infer_instance

/-- **A rule with observed replacement reads its live writes only**, and reads them alike when
    they are restored. -/
theorem ruleMeaning_restore {contentHash : Message → String} {r : Rule} {S : Finset Act}
    (hscopes : scopes r = true) (hseparate : SeparateClock r)
    (hkeyed : ∀ a ∈ S, ∀ b ∈ S, a.address = b.address → a = b)
    (hrefs : ∀ a ∈ S, checkReferences r a = .ok ()) (done done' : State)
    (protocol protocol' : Option CausalProtocol) :
    ruleMeaning contentHash [] ((liveIn r S).image (restore r)) done' protocol' r
      = ruleMeaning contentHash [] S done protocol r := by
  have hlive := liveIn_restore hscopes hrefs
  have hsub : ∀ a ∈ liveIn r S, a ∈ S := fun a ha => (Finset.mem_filter.mp ha).1
  have hkeyedLive : ∀ {T : Finset Act}, (∀ a ∈ T, a ∈ liveIn r S) →
      ∀ a ∈ T, ∀ b ∈ T, a.address = b.address → a = b := fun hT a ha b hb =>
    hkeyed a (hsub a (hT a ha)) b (hsub b (hT b hb))
  cases r with
  | values verb key =>
      simp only [ruleMeaning]
      rw [current_values verb key, current_values verb key, hlive,
        valuesIn_restore (by simp [kept])]
  | observedSet add remove key =>
      simp only [ruleMeaning]
      rw [current_observedSet, current_observedSet, hlive, valuesIn_restore (by simp [kept])]
  | valuesPerKey verb key value delete =>
      simp only [ruleMeaning]
      rw [current_valuesPerKey verb key value, current_valuesPerKey verb key value, hlive,
        valuesIn_restore (by simp [kept])]
      refine congrArg (mapValue _) (funext fun v => ?_)
      rw [withKey_restore (by simp [kept]), valuesIn_restore (by simp [kept])]
  | lwwMap verb key value clock delete =>
      simp only [ruleMeaning]
      rw [current_lwwMap verb key value clock, current_lwwMap verb key value clock, hlive,
        valuesIn_restore (by simp [kept])]
      refine congrArg (mapValue _) (funext fun v => ?_)
      rw [withKey_restore (by simp [kept])]
      exact lww_restore (by simp [kept]) rfl
        (hkeyedLive fun a ha => (Finset.mem_filter.mp ha).1) (Or.inl (hseparate rfl clock rfl))
  | lwwPerSigner verb key clock =>
      simp only [ruleMeaning]
      rw [currentOwn_eq verb key clock, currentOwn_eq verb key clock,
        hlive, signers_restore rfl]
      refine congrArg Value.map (List.map_congr_left fun s _ => ?_)
      rw [signedBy_restore rfl]
      refine congrArg (Value.str s, ·) (lww_restore (by simp [kept]) rfl
        (hkeyedLive fun a ha => (Finset.mem_filter.mp ha).1) (Or.inl (hseparate rfl clock rfl)))
  | _ => exact nomatch hscopes

-- ── Folding contributions ────

section Render

variable {sha256 : Octets → Digest} {protocolCode : Option CausalProtocol → List UInt8}
  {protocol : Option CausalProtocol} {name : String} {r : Rule} {xs : List Act} {S : Finset Act}

/-- A fold over contributions is the meaning of their acts. -/
theorem foldLive_eq (hreads : readsMessages r = false) {cs : List Contribution}
    (hids : ∀ c ∈ cs, ∀ d ∈ cs, c.id = d.id → c = d) :
    foldLive sha256 name r cs = ruleMeaning (typedRoot sha256) [] (cs.map (synthetic r)).toFinset
      [] none r := by
  have hkeyed : Keyed (cs.map (synthetic r)) := by
    intro a ha b hb hab
    obtain ⟨c, hc, rfl⟩ := List.mem_map.mp ha
    obtain ⟨d, hd, rfl⟩ := List.mem_map.mp hb
    rw [hids c hc d hd hab]
  have hfaithful : Faithful (typedRoot sha256) ⟨[.field name r]⟩ (cs.map (synthetic r)) := by
    rintro ⟨f, hf, hf'⟩
    have hf : f ∈ [(name, r)] := hf
    rw [List.mem_singleton.mp hf, hreads] at hf'
    cases hf'
  exact fieldValue_eq hkeyed hfaithful (f := (name, r)) (List.mem_singleton.mpr rfl) [] none

/-- A set of acts a contribution list stands for. -/
theorem toFinset_synthetic {cs : List Contribution} {W : Finset Act}
    (h : ∀ c, c ∈ cs ↔ ∃ a ∈ W, project r a = c) :
    (cs.map (synthetic r)).toFinset = W.image (restore r) := by
  ext b
  rw [List.mem_toFinset, List.mem_map, Finset.mem_image]
  constructor
  · rintro ⟨c, hc, rfl⟩
    obtain ⟨a, ha, rfl⟩ := (h c).mp hc
    exact ⟨a, ha, rfl⟩
  · rintro ⟨a, ha, rfl⟩
    exact ⟨project r a, (h _).mpr ⟨a, ha, rfl⟩, rfl⟩

/-- **Live writes render as the fold.** -/
theorem render_scoped {row : ScopedRow} (h : Scoped r xs row) (hscopes : scopes r = true)
    (hseparate : SeparateClock r) (henum : Enumerates xs S)
    (hrefs : ∀ a ∈ xs, checkReferences r a = .ok ()) (done : State) :
    foldLive sha256 name r (valuesOf row.live)
      = ruleMeaning (typedRoot sha256) [] S done protocol r := by
  have hmem : ∀ c, c ∈ valuesOf row.live ↔ ∃ a ∈ liveIn r S, project r a = c := by
    intro c
    rw [mem_valuesOf_iff]
    constructor
    · rintro ⟨k, hk⟩
      obtain ⟨hc, hid, hlive⟩ := (h.live k c).mp hk
      obtain ⟨a, ha, rfl⟩ := List.mem_map.mp hc
      obtain ⟨haxs, hwriter⟩ := List.mem_filter.mp ha
      refine ⟨a, Finset.mem_filter.mpr ⟨(henum.mem a).mp haxs, hwriter, ?_⟩, rfl⟩
      rintro ⟨b, hb, hrep, hscope, hrefs⟩
      refine hlive ⟨b, (henum.mem b).mpr hb, hrep, (scope_iff hscopes).mpr hscope, ?_⟩
      rw [← hid, project_id]
      exact hrefs
    · rintro ⟨a, ha, rfl⟩
      obtain ⟨haS, hwriter, hlive⟩ := Finset.mem_filter.mp ha
      refine ⟨a.address, (h.live _ _).mpr ⟨List.mem_map_of_mem
        (List.mem_filter.mpr ⟨(henum.mem a).mpr haS, hwriter⟩), project_id r a, ?_⟩⟩
      rintro ⟨b, hb, hrep, hscope, hid⟩
      exact hlive ⟨b, (henum.mem b).mp hb, hrep, (scope_iff hscopes).mp hscope, hid⟩
  have hwritten : ∀ c ∈ valuesOf row.live, c ∈ written r xs := by
    intro c hc
    obtain ⟨k, hk⟩ := (mem_valuesOf_iff _ _).mp hc
    exact ((h.live k c).mp hk).1
  have hreads : readsMessages r = false := by
    cases r <;> first | rfl | exact nomatch hscopes
  rw [foldLive_eq hreads fun c hc d hd =>
    written_injective henum.nodup (hwritten c hc) (hwritten d hd), toFinset_synthetic hmem]
  refine ruleMeaning_restore hscopes hseparate (fun a ha b hb => ?_) (fun a ha => ?_) done []
    protocol none
  · exact henum.same ((henum.mem a).mpr ha) ((henum.mem b).mpr hb)
  · exact hrefs a ((henum.mem a).mpr ha)

/-- **The only opener.**  Two least openers tell whether there is one. -/
theorem render_initial {verb key : String} (henum : Enumerates xs S) (done : State) :
    foldLive sha256 name (.initial verb key) ((byId (written (.initial verb key) xs)).take 2)
      = ruleMeaning (typedRoot sha256) [] S done protocol (.initial verb key) := by
  have hwriter : ∀ a : Act, writer (.initial verb key) a = decide (a.verb = verb) := by
    intro a
    simp [writer, verbs, eq_comm]
  have hwritten : written (.initial verb key) xs
      = (xs.filter fun a => a.verb = verb).map (project (.initial verb key)) := by
    unfold written
    rw [funext hwriter]
  have hsub : ∀ c ∈ (byId (written (.initial verb key) xs)).take 2,
      c ∈ written (.initial verb key) xs := fun c hc =>
    (List.mem_insertionSort _).mp ((List.take_sublist 2 _).subset hc)
  have hinj := fun c hc d hd => written_injective henum.nodup (hsub c hc) (hsub d hd)
  rw [foldLive_eq rfl hinj]
  simp only [ruleMeaning]
  have hfilter : Enumerates (xs.filter fun a => a.verb = verb) (S.filter (·.verb = verb)) :=
    henum.filter fun a => by rw [Finset.mem_filter, decide_eq_true_eq]
  rw [← initialOf_eq hfilter]
  generalize hcs : (byId (written (.initial verb key) xs)).take 2 = cs at *
  have hrestored : Enumerates (cs.map (synthetic (.initial verb key)))
      ((cs.map (synthetic (.initial verb key))).toFinset.filter (·.verb = verb)) := by
    refine ⟨fun a => ?_, ?_⟩
    · rw [Finset.mem_filter, List.mem_toFinset, iff_self_and]
      intro ha
      obtain ⟨c, -, rfl⟩ := List.mem_map.mp ha
      rfl
    · rw [List.map_map]
      refine (List.nodup_map_iff_inj_on ?_).mpr hinj
      rw [← hcs]
      exact (((List.perm_insertionSort _ _).nodup_iff.mpr
        (nodup_written henum.nodup).of_map).sublist (List.take_sublist 2 _))
  rw [← initialOf_eq hrestored]
  rw [hwritten] at hcs
  clear hinj hrestored hfilter hwritten hsub
  generalize (xs.filter fun a => a.verb = verb) = ws at hcs ⊢
  match ws with
  | [] =>
      rw [← hcs]
      rfl
  | [a] =>
      rw [← hcs]
      show (fieldOf (restore (.initial verb key) a) key).getD .absent = (fieldOf a key).getD .absent
      rw [fieldOf_restore (by simp [kept])]
  | a :: b :: rest =>
      have hlength : cs.length = 2 := by
        rw [← hcs, List.length_take]
        unfold byId
        rw [List.length_insertionSort]
        simp
      match cs, hlength with
      | [c, d], _ => rfl

theorem lww_of_latest {W : Finset Act} {key clk : String} {a : Act}
    (hkeyed : ∀ a ∈ W, ∀ b ∈ W, a.address = b.address → a = b) (h : Latest W clk a) :
    lww W key clk = (fieldOf a key).getD .absent := by
  have hex : ∃ a, Latest W clk a := ⟨a, h⟩
  unfold lww
  rw [dif_pos hex, Latest.unique hkeyed hex.choose_spec h]

/-- **The winner of a register.** -/
theorem render_register {verb key clock : String} {winner : Option Contribution}
    (h : Register (.lwwRegister verb key clock) xs winner) (henum : Enumerates xs S)
    (done : State) :
    foldLive sha256 name (.lwwRegister verb key clock) winner.toList
      = ruleMeaning (typedRoot sha256) [] S done protocol (.lwwRegister verb key clock) := by
  have hwritten : ∀ a ∈ selected [] S verb,
      project (.lwwRegister verb key clock) a ∈ written (.lwwRegister verb key clock) xs := by
    intro a ha
    obtain ⟨haS, hverb⟩ := mem_selected.mp ha
    exact List.mem_map_of_mem (List.mem_filter.mpr ⟨(henum.mem a).mpr haS,
      decide_eq_true (congrArg some hverb.symm)⟩)
  have hstamp := fun a => stamp_project (r := .lwwRegister verb key clock) rfl a
  rw [foldLive_eq rfl (by cases winner <;> simp)]
  simp only [ruleMeaning]
  cases winner with
  | none =>
      have hempty : ∀ T : Finset Act, (∀ a ∈ T, stampOf clock a = none) →
          lww T key clock = .absent := by
        intro T hT
        unfold lww
        rw [dif_neg]
        rintro ⟨a, ha, t, ht, -⟩
        rw [hT a ha] at ht
        exact nomatch ht
      rw [hempty _ fun a ha => by simpa using (mem_selected.mp ha).1, hempty]
      intro a ha
      rw [← hstamp]
      exact h _ (hwritten a ha)
  | some c =>
      obtain ⟨hc, t, ht, hmax⟩ := h
      obtain ⟨a, ha, rfl⟩ := List.mem_map.mp hc
      obtain ⟨haxs, hwriter⟩ := List.mem_filter.mp ha
      have hverb : a.verb = verb := (Option.some.inj (of_decide_eq_true hwriter)).symm
      rw [hstamp] at ht
      have hlatest : Latest (selected [] S verb) clock a := by
        refine ⟨mem_selected.mpr ⟨(henum.mem a).mp haxs, hverb⟩, t, ht, fun b hb u hu => ?_⟩
        exact hmax _ (hwritten b hb) u (by rw [hstamp]; exact hu)
      have hone : selected [] ([project (.lwwRegister verb key clock) a].map
          (synthetic (.lwwRegister verb key clock))).toFinset verb
          = ({a} : Finset Act).image (restore (.lwwRegister verb key clock)) := by
        ext b
        rw [mem_selected, List.mem_toFinset, Finset.image_singleton, Finset.mem_singleton,
          List.map_singleton, List.mem_singleton]
        refine and_iff_left_of_imp fun hb => ?_
        rw [hb]
        rfl
      have hsingle : Latest {a} clock a :=
        ⟨Finset.mem_singleton_self a, t, ht, fun b hb u hu => by
          rw [Finset.mem_singleton.mp hb, ht] at hu
          exact le_of_eq (Option.some.inj hu).symm⟩
      show lww (selected [] _ verb) key clock = _
      rw [Option.toList_some, hone, lww_restore (by simp [kept]) rfl (by simp)
        (Or.inr fun b hb => by rw [Finset.mem_singleton.mp hb, ht]; rfl),
        lww_of_latest (by simp) hsingle, lww_of_latest _ hlatest]
      intro b hb d hd
      exact henum.same ((henum.mem b).mpr (mem_selected.mp hb).1)
        ((henum.mem d).mpr (mem_selected.mp hd).1)

-- ── Totals, unions and events ────

theorem render_exists {verb : String} (henum : Enumerates xs S) :
    (xs.any fun a => a.verb = verb) = decide (selected [] S verb).Nonempty := by
  rw [Bool.eq_iff_iff, List.any_eq_true, decide_eq_true_eq]
  unfold Finset.Nonempty
  simp only [mem_selected, henum.mem, decide_eq_true_eq]

theorem render_count {verb : String} (henum : Enumerates xs S) :
    (xs.countP fun a => a.verb = verb) = (selected [] S verb).card := by
  have hacts : Enumerates (xs.filter fun a => a.verb = verb) (selected [] S verb) :=
    henum.filter fun a => by rw [mem_selected, decide_eq_true_eq]
  rw [List.countP_eq_length_filter, hacts.length]

theorem render_counter {inc dec key : String} (henum : Enumerates xs S) :
    (xs.map (integerDelta (.counter inc dec key))).sum
      = ∑ a ∈ selected [] S inc, amountOf key a - ∑ a ∈ selected [] S dec, amountOf key a := by
  have hset : xs.toFinset = S := by
    ext a
    rw [List.mem_toFinset, henum.mem]
  have hselected : ∀ verb, ∑ a ∈ selected [] S verb, amountOf key a
      = ∑ a ∈ S, if a.verb = verb then amountOf key a else 0 := by
    intro verb
    rw [← Finset.sum_filter]
    refine Finset.sum_congr (Finset.ext fun a => ?_) fun _ _ => rfl
    rw [mem_selected, Finset.mem_filter]
  rw [← List.sum_toFinset _ henum.nodup_self, hset, hselected, hselected,
    ← Finset.sum_sub_distrib]
  rfl

/-- **A union reads back what it stored.** -/
theorem render_setUnion {verb key : String} {s : BTreeSet Octets}
    (h : ∀ os, os ∈ s ↔ United verb key xs os) (henum : Enumerates xs S)
    (hdata : ∀ a ∈ xs, checkData (.setUnion verb key) a = .ok ()) :
    Value.set (sortedValues (s.toList.map readBack))
      = setValue (valuesIn (selected [] S verb) key) := by
  have hread : ∀ a ∈ xs, a.verb = verb → ∀ v, field a key = some v →
      readBack (encode v) = Value.fromSExpr v := by
    intro a ha hverb v hv
    have hchecked := hdata a ha
    unfold checkData dataFields at hchecked
    obtain ⟨_, hfirst, -⟩ := CbclExcept.bind_ok_iff.mp hchecked
    dsimp only at hfirst
    rw [if_pos hverb.symm, hv] at hfirst
    obtain ⟨y, hy, -⟩ := CbclExcept.map_ok_iff.mp hfirst
    unfold readBack
    rw [hy, decodeSexpr_encode hy]
  have hmem : ∀ v, v ∈ s.toList.map readBack ↔ v ∈ valuesIn (selected [] S verb) key := by
    intro v
    rw [List.mem_map, mem_valuesIn]
    constructor
    · rintro ⟨os, hos, rfl⟩
      obtain ⟨a, ha, hverb, x, hx, rfl⟩ := (h os).mp (Std.ExtTreeSet.mem_toList.mp hos)
      refine ⟨a, mem_selected.mpr ⟨(henum.mem a).mp ha, hverb⟩, ?_⟩
      rw [hread a ha hverb x hx, fieldOf_eq, hx]
      rfl
    · rintro ⟨a, ha, hv⟩
      obtain ⟨haS, hverb⟩ := mem_selected.mp ha
      have haxs := (henum.mem a).mpr haS
      rw [fieldOf_eq] at hv
      obtain ⟨x, hx, rfl⟩ := Option.map_eq_some_iff.mp hv
      exact ⟨encode x, Std.ExtTreeSet.mem_toList.mpr ((h _).mpr ⟨a, haxs, hverb, x, hx, rfl⟩),
        hread a haxs hverb x hx⟩
  unfold sortedValues sortedDistinct setValue
  rw [destutter_insertionSort (f := Value.render)]
  · refine congrArg (fun t => Value.set (sortBy Value.render t)) (Finset.ext fun v => ?_)
    rw [List.mem_toFinset, hmem]
  · intro v hv w hw hvw
    obtain ⟨a, -, ha⟩ := mem_valuesIn.mp ((hmem v).mp hv)
    obtain ⟨b, -, hb⟩ := mem_valuesIn.mp ((hmem w).mp hw)
    exact fieldOf_injective ha hb hvw

/-- Characters without an escape. -/
theorem jsonChar_plain {c : Char} (h : 45 ≤ c.toNat) (h' : c.toNat < 92 ∨ 92 < c.toNat) :
    jsonChar c = [c] := by
  have hne : ∀ d : Char, d.toNat < 45 ∨ d.toNat = 92 → c ≠ d := by
    rintro d hd rfl
    omega
  unfold jsonChar
  rw [if_neg (hne '"' (by decide)), if_neg (hne '\\' (by decide)), if_neg (hne '\n' (by decide)),
    if_neg (hne '\r' (by decide)), if_neg (hne '\t' (by decide)), if_neg (by omega),
    if_neg (by omega), if_neg (by omega)]

/-- Wire addresses render between quotes, character by character. -/
theorem render_wire {s : String} (h : isAddress s = true) :
    (Value.str s).render = String.ofList ('"' :: (s.toList ++ ['"'])) ∧ s.toList.length = 71 := by
  unfold isAddress at h
  obtain ⟨hex, hstrip, hhex⟩ := (Option.any_eq_true _ _).mp h
  have hs := CbclStateProgress.stripStart_eq_some_iff.mp hstrip
  unfold isHex64 at hhex
  rw [Bool.and_eq_true, decide_eq_true_eq] at hhex
  have hplain : ∀ c ∈ s.toList, jsonChar c = [c] := by
    intro c hc
    rw [hs, String.toList_append, List.mem_append] at hc
    rcases hc with hc | hc
    · have hlead : ∀ d ∈ ['s', 'h', 'a', '2', '5', '6', '-'],
          45 ≤ d.toNat ∧ (d.toNat < 92 ∨ 92 < d.toNat) := by simp
      have hc : c ∈ ['s', 'h', 'a', '2', '5', '6', '-'] := by simpa using hc
      exact jsonChar_plain (hlead c hc).1 (hlead c hc).2
    · have hdigit := List.all_eq_true.mp hhex.2 c hc
      rw [Bool.or_eq_true, Bool.and_eq_true, decide_eq_true_eq, decide_eq_true_eq] at hdigit
      rcases hdigit with hdigit | ⟨ha, hf⟩
      · unfold Char.isDigit at hdigit
        rw [Bool.and_eq_true, decide_eq_true_eq, decide_eq_true_eq] at hdigit
        have h0 : 48 ≤ c.toNat := hdigit.1
        have h9 : c.toNat ≤ 57 := hdigit.2
        exact jsonChar_plain (by omega) (by omega)
      · have ha : 97 ≤ c.toNat := ha
        have hf : c.toNat ≤ 102 := hf
        exact jsonChar_plain (by omega) (by omega)
  have hmap : s.toList.flatMap jsonChar = s.toList := by
    rw [List.flatMap_congr hplain]
    simp
  refine ⟨?_, ?_⟩
  · unfold Value.render
    rw [Value.renderInto, jsonString, hmap]
    rfl
  · rw [hs, String.toList_append, List.length_append, String.length_toList, String.length_toList,
      hhex.1]
    rfl

/-- Texts of one length keep their order under a common ending. -/
theorem append_lt_append {l : List Char} : ∀ {xs ys : List Char}, xs.length = ys.length →
    xs < ys → xs ++ l < ys ++ l := by
  intro xs
  induction xs with
  | nil =>
      intro ys hlength hlt
      rw [List.length_eq_zero_iff.mp hlength.symm] at hlt
      exact absurd hlt (lt_irrefl _)
  | cons x xs ih =>
      intro ys hlength hlt
      cases ys with
      | nil => exact nomatch hlength
      | cons y ys =>
          rw [List.cons_append, List.cons_append, List.cons_lt_cons_iff]
          refine (List.cons_lt_cons_iff.mp hlt).imp id fun ⟨hxy, hrest⟩ => ⟨hxy, ?_⟩
          exact ih (Nat.succ.inj hlength) hrest

theorem render_wire_lt {s t : String} (hs : isAddress s = true) (ht : isAddress t = true)
    (h : s < t) : (Value.str s).render < (Value.str t).render := by
  obtain ⟨hrs, hls⟩ := render_wire hs
  obtain ⟨hrt, hlt⟩ := render_wire ht
  rw [hrs, hrt, String.lt_iff_toList_lt, String.toList_ofList, String.toList_ofList,
    List.cons_lt_cons_iff]
  exact Or.inr ⟨rfl, append_lt_append (hls.trans hlt.symm) (String.lt_iff_toList_lt.mp h)⟩

/-- **Events by address**: the order of identities is the order of their renderings. -/
theorem render_events {verb key : String} {m : BTreeMap String Event}
    (h : ∀ (k : String) (e : Event), m[k]? = some e ↔ Happened verb key xs k e)
    (henum : Enumerates xs S) (hder : ∀ a ∈ xs, Derived sha256 a) :
    Value.map ((valuesOf m).map fun e =>
        (.str e.id, .pair e.signer (Value.fromSExpr e.selected_value)))
      = eventsOf (selected [] S verb) key := by
  have hwire : ∀ e ∈ valuesOf m, isAddress e.id = true := by
    intro e he
    obtain ⟨k, hk⟩ := (mem_valuesOf_iff _ _).mp he
    obtain ⟨a, ha, -, -, v, -, rfl⟩ := (h k e).mp hk
    exact (hder a ha).isAddress
  have hstrict : Strict Event.id (valuesOf m) := by
    refine strict_valuesOf m fun k e hk => ?_
    obtain ⟨a, -, -, hak, v, -, rfl⟩ := (h k e).mp hk
    exact hak
  have hinj : ∀ a ∈ S, ∀ b ∈ S,
      (Value.str a.address).render = (Value.str b.address).render → a = b := fun a ha b hb hab =>
    henum.same ((henum.mem a).mpr ha) ((henum.mem b).mpr hb) (render_str_injective hab)
  unfold eventsOf
  refine congrArg Value.map (Strict.eq (f := fun e : Value × Value => e.1.render) ?_ ?_ ?_)
  · refine List.pairwise_map.mpr ?_
    exact hstrict.imp_of_mem fun ha hb hab => render_wire_lt (hwire _ ha) (hwire _ hb) hab
  · refine List.pairwise_map.mpr (strict_sortBy ?_)
    intro a ha b hb
    exact hinj a (mem_selected.mp (Finset.mem_filter.mp ha).1).1 b
      (mem_selected.mp (Finset.mem_filter.mp hb).1).1
  · intro e
    rw [List.mem_map, List.mem_map]
    constructor
    · rintro ⟨e, he, rfl⟩
      obtain ⟨k, hk⟩ := (mem_valuesOf_iff _ _).mp he
      obtain ⟨a, ha, hverb, -, v, hv, rfl⟩ := (h k e).mp hk
      have hfield : fieldOf a key = some (Value.fromSExpr v) := by
        rw [fieldOf_eq, hv]
        rfl
      refine ⟨a, mem_sortBy.mpr (Finset.mem_filter.mpr ⟨mem_selected.mpr
        ⟨(henum.mem a).mp ha, hverb⟩, by rw [hfield]; rfl⟩), ?_⟩
      rw [hfield]
      rfl
    · rintro ⟨a, ha, rfl⟩
      obtain ⟨hsel, hsome⟩ := Finset.mem_filter.mp (mem_sortBy.mp ha)
      obtain ⟨haS, hverb⟩ := mem_selected.mp hsel
      obtain ⟨v, hv⟩ := Option.isSome_iff_exists.mp hsome
      rw [fieldOf_eq] at hv
      obtain ⟨x, hx, rfl⟩ := Option.map_eq_some_iff.mp hv
      refine ⟨⟨a.address, a.signer, x⟩, (mem_valuesOf_iff _ _).mpr ⟨a.address, (h _ _).mpr
        ⟨a, (henum.mem a).mpr haS, hverb, rfl, x, hx, rfl⟩⟩, ?_⟩
      rw [fieldOf_eq, hx]
      rfl

/-- **A row renders to the value of its rule.** -/
theorem Holds.render {data : RowData} (h : Holds sha256 protocolCode protocol xs r data)
    (henum : Enumerates xs S) (hder : ∀ a ∈ xs, Derived sha256 a) (hseparate : SeparateClock r)
    (hrefs : ∀ a ∈ xs, checkReferences r a = .ok ())
    (hdata : ∀ a ∈ xs, checkData r a = .ok ()) (done : State) :
    renderRow sha256 name r data done
      = ruleMeaning (typedRoot sha256) [] S done protocol r := by
  cases h with
  | initial => exact render_initial henum done
  | lwwRegister h => exact render_register h henum done
  | replaceable hscopes h => exact render_scoped h hscopes hseparate henum hrefs done
  | «exists» => exact congrArg Value.bool (render_exists henum)
  | count => exact congrArg (fun n : Nat => Value.int n) (render_count henum)
  | counter => exact congrArg Value.int (render_counter henum)
  | setUnion h => exact render_setUnion h henum hdata
  | events h => exact render_events h henum hder
  | histogram => exact eval_eq henum [] (.histogram _) (fun h => nomatch h) done protocol
  | sum => exact eval_eq henum [] (.sum _) (fun h => nomatch h) done protocol
  | progress h => exact congrArg (fun n : Nat => Value.int n) (h.progress henum hder)
  | @resource c s h =>
      have hkeyed : Keyed xs := fun a ha b hb => henum.same ha hb
      show s.render c = outcomeValue _
      rw [h.render hkeyed hder]
      refine congrArg outcomeValue (observe_congr c hkeyed
        (fun a ha => (hder a ha).consistent) fun a => ?_)
      rw [Finset.mem_toList, henum.mem]

end Render

end CbclSummary
