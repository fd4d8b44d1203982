import Cbcl.RecogniserModel
import Cbcl.TreeMapProofs
import Cbcl.ExceptProofs

/-!
# What the recogniser accepts, and the round trip

A message the recogniser returns is well formed: its positional items are no addresses, its
parameters are keyword pairs and positional items, its causal reference is canonical, and
the head of a simple message names none of the other forms.  Writing a well-formed message
and reading it back gives the message again, so writing is injective on what is recognised.
-/

namespace CbclRecogniser

open CbclMessage

-- ── Well-formed messages ────

/-- A positional item: no keyword and no address group. -/
def Positional (x : SExpr) : Prop :=
  (∀ k, x ≠ .atom (.keyword k)) ∧ isAddressGroup x = false

/-- Keywords that the argument loop keeps for itself. -/
def reservedKeys : List String := ["thread", "sender", "caused-by"]

/-- Parameters: keyword pairs and positional items. -/
inductive ParamsOk : List SExpr → Prop
  | nil : ParamsOk []
  | pair {k : String} {v : SExpr} {rest : List SExpr} : k ∉ reservedKeys → ParamsOk rest →
      ParamsOk (.atom (.keyword k) :: v :: rest)
  | positional {x : SExpr} {rest : List SExpr} : Positional x → ParamsOk rest →
      ParamsOk (x :: rest)

theorem ParamsOk.append {xs ys : List SExpr} (h : ParamsOk xs) (h' : ParamsOk ys) :
    ParamsOk (xs ++ ys) := by
  induction h with
  | nil => exact h'
  | pair hk _ ih => exact .pair hk ih
  | positional hx _ ih => exact .positional hx ih

/-- A recipient position made of addresses. -/
def RecipientOk : Option Recipients → Prop
  | none => True
  | some (.one r) => startsAt r = true
  | some (.set rs) => rs.toList ≠ [] ∧ ∀ r ∈ rs, startsAt r = true

/-- A causal reference in canonical form. -/
def CausedByOk : Option CausedBy → Prop
  | none => True
  | some .begin => True
  | some (.single h) => h ≠ BEGIN_KEYWORD
  | some (.multiple hs) => hs ≠ [] ∧ hs.Pairwise (· ≤ ·)

/-- A name that heads none of the other forms. -/
def SimpleHead (s : String) : Prop := s ≠ "meta" ∧ s ≠ "lang" ∧ wrapperParse s = none

/-- What the recogniser returns. -/
def WellFormed : Message → Prop
  | .simple p r c ps _ _ cb =>
      SimpleHead p.name ∧ p = ((coreParse p.name).map .core).getD (.custom p.name) ∧
        RecipientOk r ∧ Positional c ∧ ParamsOk ps ∧ CausedByOk cb
  | .metaDef _ => True
  | .dialect _ inner => WellFormed inner
  | .wrapped _ _ content => WellFormed content

-- ── Reading gives well-formed messages ────

/-- The members of a set read from address tokens. -/
theorem mem_foldl_addAddress {r : String} : ∀ (items : List SExpr) (rs : BTreeSet String),
    r ∈ items.foldl addAddress rs ↔ .atom (.symbol r) ∈ items ∨ r ∈ rs := by
  intro items
  induction items with
  | nil => intro rs; simp
  | cons x items ih =>
      intro rs
      rw [List.foldl_cons, ih, List.mem_cons]
      unfold addAddress
      split
      · rename_i s
        rw [CbclTreeMap.mem_insert_iff]
        simp only [SExpr.atom.injEq, Atom.symbol.injEq]
        tauto
      · rename_i hne
        have hx : .atom (.symbol r) ≠ x := fun h => hne r h.symm
        simp [hx]

theorem parseRecipient_ok (tail : List SExpr) : RecipientOk (parseRecipient tail).1 := by
  unfold parseRecipient
  split
  · rename_i s rest
    split
    · rename_i hs
      exact hs
    · trivial
  · rename_i items rest
    split
    · rename_i hitems
      rw [Bool.and_eq_true, List.all_eq_true] at hitems
      obtain ⟨hne, hall⟩ := hitems
      refine ⟨fun hnil => ?_, fun r hr => ?_⟩
      · cases items with
        | nil => exact nomatch hne
        | cons x items =>
            have hx := hall x (List.mem_cons_self ..)
            unfold isAddress at hx
            split at hx
            · rename_i s
              have hin : s ∈ ((SExpr.atom (.symbol s)) :: items).foldl addAddress ∅ :=
                (mem_foldl_addAddress _ _).mpr (Or.inl (List.mem_cons_self ..))
              rw [← Std.ExtTreeSet.mem_toList, hnil] at hin
              exact nomatch hin
            · exact nomatch hx
      · rcases (mem_foldl_addAddress items ∅).mp hr with hr | hr
        · exact hall _ hr
        · exact absurd hr Std.ExtTreeSet.not_mem_empty
    · trivial
  · trivial

theorem parseHashes_ne_nil {x : SExpr} {items : List SExpr} {hs : List String}
    (h : parseHashes (x :: items) = .ok hs) : hs ≠ [] := by
  unfold parseHashes at h
  split at h
  · rename_i heq
    exact nomatch heq
  · obtain ⟨rest, -, h⟩ := CbclExcept.bind_ok_iff.mp h
    injection h with h
    rw [← h]
    simp
  · obtain ⟨rest, -, h⟩ := CbclExcept.bind_ok_iff.mp h
    injection h with h
    rw [← h]
    simp
  · exact nomatch h

theorem parseCausedBy_ok {x : SExpr} {cb : CausedBy} (h : parseCausedBy x = .ok cb) :
    CausedByOk (some cb) := by
  have hsingle : ∀ s, CausedByOk (some (singleOrBegin s)) := by
    intro s
    unfold singleOrBegin
    split
    · trivial
    · rename_i hs
      exact hs
  unfold parseCausedBy at h
  split at h
  · injection h with h
    rw [← h]
    exact hsingle _
  · injection h with h
    rw [← h]
    exact hsingle _
  · exact nomatch h
  · rename_i items hne
    obtain ⟨hashes, hhashes, h⟩ := CbclExcept.bind_ok_iff.mp h
    injection h with h
    rw [← h]
    refine ⟨fun hnil => ?_, List.pairwise_insertionSort _ _⟩
    cases items with
    | nil => exact hne rfl
    | cons x items =>
        refine parseHashes_ne_nil hhashes ?_
        have hlen := congrArg List.length hnil
        rw [List.length_insertionSort] at hlen
        exact List.length_eq_zero_iff.mp hlen
  · exact nomatch h

/-- What the argument loop keeps true. -/
structure ArgsOk (args : Args) : Prop where
  content : ∀ c, args.content = some c → Positional c
  params : ParamsOk args.params
  caused_by : CausedByOk args.caused_by

/-- An item the loop does not read as a keyword is positional, if it is no address group. -/
theorem positional_of_loop {x : SExpr} {rest : List SExpr}
    (hnone : ∀ k : String, x = .atom (.keyword k) → rest = [] → False)
    (hsome : ∀ (k : String) (v : SExpr) (r : List SExpr), x = .atom (.keyword k) →
      rest = v :: r → False) (hgroup : ¬ isAddressGroup x = true) : Positional x := by
  refine ⟨fun k hk => ?_, by simpa using hgroup⟩
  cases rest with
  | nil => exact hnone k hk rfl
  | cons v r => exact hsome k v r hk rfl

/-- A positional item becomes the content, or a parameter if there is content. -/
theorem parseArgs_positional {x : SExpr} (hx : Positional x) (rest : List SExpr) (args : Args) :
    parseArgs (x :: rest) args = match args.content with
      | none => parseArgs rest { args with content := some x }
      | some _ => parseArgs rest { args with params := args.params ++ [x] } := by
  rw [parseArgs]
  · exact if_neg (by rw [hx.2]; exact Bool.false_ne_true)
  · exact fun k h _ => hx.1 k h
  · exact fun k v r h _ => hx.1 k h

/-- **The argument loop keeps its parts well formed.** -/
theorem parseArgs_ok : ∀ (tail : List SExpr) (args args' : Args), ArgsOk args →
    parseArgs tail args = .ok args' → ArgsOk args' := by
  intro tail args
  induction tail, args using parseArgs.induct with
  | case1 args =>
      intro args' hok h
      rw [parseArgs] at h
      injection h with h
      rw [← h]
      exact hok
  | case2 k args =>
      intro args' _ h
      exact nomatch h
  | case3 val rest args ih =>
      intro args' hok h
      rw [parseArgs, if_pos rfl] at h
      exact ih args' ⟨hok.content, hok.params, hok.caused_by⟩ h
  | case4 val rest args hk ih =>
      intro args' hok h
      rw [parseArgs, if_neg hk, if_pos rfl] at h
      exact ih args' ⟨hok.content, hok.params, hok.caused_by⟩ h
  | case5 val rest args e he hk hk' =>
      intro args' _ h
      rw [parseArgs, if_neg hk, if_neg hk', if_pos rfl, he] at h
      exact nomatch h
  | case6 val rest args cb hcb hk hk' ih =>
      intro args' hok h
      rw [parseArgs, if_neg hk, if_neg hk', if_pos rfl, hcb] at h
      exact ih args' ⟨hok.content, hok.params, parseCausedBy_ok hcb⟩ h
  | case7 k val rest args hk hk' hk'' ih =>
      intro args' hok h
      rw [parseArgs, if_neg hk, if_neg hk', if_neg hk''] at h
      refine ih args' ⟨hok.content, hok.params.append (.pair ?_ .nil), hok.caused_by⟩ h
      simp [reservedKeys, hk, hk', hk'']
  | case8 x rest args hnone hsome hgroup =>
      intro args' _ h
      rw [parseArgs, if_pos hgroup] at h
      · exact nomatch h
      · exact hnone
      · exact hsome
  | case9 x rest args hnone hsome hgroup hc ih =>
      intro args' hok h
      have hx : Positional x := positional_of_loop hnone hsome hgroup
      rw [parseArgs_positional hx, hc] at h
      refine ih args' ⟨fun c hc' => ?_, hok.params, hok.caused_by⟩ h
      injection hc' with hc'
      rw [← hc']
      exact hx
  | case10 x rest args hnone hsome hgroup c hc ih =>
      intro args' hok h
      have hx : Positional x := positional_of_loop hnone hsome hgroup
      rw [parseArgs_positional hx, hc] at h
      rw [hc] at ih
      refine ih args' ⟨fun c' hc' => ?_, hok.params.append (.positional hx .nil),
        hok.caused_by⟩ h
      exact hok.content c' (hc.trans hc')

theorem coreParse_name {s : String} {c : CorePerformative} (h : coreParse s = some c) :
    c.asStr = s := by
  unfold coreParse at h
  repeat' split at h
  all_goals first
    | (injection h with h; subst h; symm; assumption)
    | cases h

theorem parseSimple_ok {head : String} {tail : List SExpr} {scope : LangScope} {m : Message}
    (hhead : SimpleHead head) (h : parseSimple head tail scope = .ok m) : WellFormed m := by
  unfold parseSimple at h
  split at h
  · exact nomatch h
  split at h
  · exact nomatch h
  rename_i args hargs
  injection h with h
  subst h
  have hstart : ArgsOk ⟨none, [], none, none, none⟩ := ⟨(fun c hc => nomatch hc), .nil, trivial⟩
  have hok := parseArgs_ok _ _ _ hstart hargs
  have hname : (((coreParse head).map Performative.core).getD (.custom head)).name = head := by
    cases hc : coreParse head with
    | none => rfl
    | some c => exact coreParse_name hc
  refine ⟨?_, ?_, parseRecipient_ok tail, ?_, hok.params, hok.caused_by⟩
  · rw [hname]
    exact hhead
  · rw [hname]
  · cases hc : args.content with
    | none => exact ⟨(fun k hk => nomatch hk), rfl⟩
    | some c => exact hok.content c hc

theorem parseInner_some {scope : LangScope} : ∀ {tail params : List SExpr}
    {inner : Except String Message}, parseInner scope tail = some (params, inner) →
      ∃ items, inner = parseItems scope items := by
  intro tail
  induction tail with
  | nil => intro params inner h; rw [parseInner] at h; exact nomatch h
  | cons x xs ih =>
      intro params inner h
      rw [parseInner] at h
      cases hin : parseInner scope xs with
      | some found =>
          rw [hin] at h
          injection h with h
          injection h with _ h
          rw [← h]
          have hfound : parseInner scope xs = some (found.1, found.2) := hin
          exact ih hfound
      | none =>
          rw [hin, Option.map_none, Option.none_or] at h
          cases x with
          | atom a => rw [parseIfList] at h; exact nomatch h
          | list items =>
              rw [parseIfList] at h
              injection h with h
              injection h with _ h
              exact ⟨items, h.symm⟩

/-- **What reading a message can do**: the head picks the form, and the form says which of the
    items are read. -/
theorem parseItems_inv {scope : LangScope} {items : List SExpr} {m : Message}
    (h : parseItems scope items = .ok m) : ∃ head tail, items = .atom (.symbol head) :: tail ∧
      ((head = "meta" ∧ ∃ d rest, tail = d :: rest ∧ m = .metaDef d) ∨
       (head = "lang" ∧ ∃ name items' rest inner, tail = .atom (.symbol name) :: .list items' :: rest ∧
          m = .dialect name inner ∧ parseItems .scoped items' = .ok inner) ∨
       (∃ wrapper params inner, head ≠ "meta" ∧ head ≠ "lang" ∧ wrapperParse head = some wrapper ∧
          m = .wrapped wrapper params inner ∧ parseInner scope tail = some (params, .ok inner)) ∨
       SimpleHead head ∧ parseSimple head tail scope = .ok m) := by
  cases items with
  | nil => rw [parseItems] at h; exact nomatch h
  | cons x tail =>
      by_cases hx : ∃ head, x = .atom (.symbol head)
      · obtain ⟨head, rfl⟩ := hx
        refine ⟨head, tail, rfl, ?_⟩
        rw [parseItems] at h
        by_cases hm : head = "meta"
        · rw [if_pos hm] at h
          cases tail with
          | nil => exact nomatch h
          | cons d rest =>
              injection h with h
              exact Or.inl ⟨hm, d, rest, rfl, h.symm⟩
        rw [if_neg hm] at h
        by_cases hl : head = "lang"
        · rw [if_pos hl] at h
          unfold parseDialectMsg at h
          split at h
          · rename_i name y rest
            cases y with
            | atom a => exact nomatch h
            | list items' =>
                rw [parseMessage] at h
                obtain ⟨inner, hinner, h⟩ := CbclExcept.bind_ok_iff.mp h
                injection h with h
                exact Or.inr (Or.inl ⟨hl, name, items', rest, inner, rfl, h.symm, hinner⟩)
          · exact nomatch h
          · exact nomatch h
        rw [if_neg hl] at h
        cases hw : wrapperParse head with
        | some wrapper =>
            rw [hw] at h
            dsimp only at h
            cases hin : parseInner scope tail with
            | none => rw [hin] at h; exact nomatch h
            | some found =>
                obtain ⟨params, r⟩ := found
                rw [hin] at h
                obtain ⟨inner, hinner, h⟩ := CbclExcept.bind_ok_iff.mp h
                injection h with h
                exact Or.inr (Or.inr (Or.inl ⟨wrapper, params, inner, hm, hl, rfl, h.symm,
                  by rw [hinner]⟩))
        | none =>
            rw [hw] at h
            exact Or.inr (Or.inr (Or.inr ⟨⟨hm, hl, hw⟩, h⟩))
      · rw [parseItems] at h
        · exact nomatch h
        · exact fun head hhead => hx ⟨head, hhead⟩

/-- Reading a message: which form its head picked. -/
theorem parseItems_cases {scope : LangScope} {items : List SExpr} {m : Message}
    (h : parseItems scope items = .ok m) :
    (∃ d, m = .metaDef d) ∨
    (∃ name inner scope' items', m = .dialect name inner ∧
      parseItems scope' items' = .ok inner) ∨
    (∃ wrapper params inner items', m = .wrapped wrapper params inner ∧
      parseItems scope items' = .ok inner) ∨
    (∃ head tail, SimpleHead head ∧ parseSimple head tail scope = .ok m) := by
  obtain ⟨head, tail, -, ⟨-, d, -, -, hm⟩ | ⟨-, name, items', -, inner, -, hm, hinner⟩ |
    ⟨wrapper, params, inner, -, -, -, hm, hin⟩ | hsimple⟩ := parseItems_inv h
  · exact Or.inl ⟨d, hm⟩
  · exact Or.inr (Or.inl ⟨name, inner, _, items', hm, hinner⟩)
  · obtain ⟨items', hitems⟩ := parseInner_some hin
    exact Or.inr (Or.inr (Or.inl ⟨wrapper, params, inner, items', hm, hitems.symm⟩))
  · exact Or.inr (Or.inr (Or.inr ⟨head, tail, hsimple⟩))

theorem parseSimple_simple {head : String} {tail : List SExpr} {scope : LangScope} {m : Message}
    (h : parseSimple head tail scope = .ok m) : ∃ p r c ps t sd cb, m = .simple p r c ps t sd cb := by
  unfold parseSimple at h
  split at h
  · exact nomatch h
  split at h
  · exact nomatch h
  injection h with h
  exact ⟨_, _, _, _, _, _, _, h.symm⟩

/-- **What the recogniser returns is well formed.** -/
theorem parseItems_ok : ∀ (m : Message) (scope : LangScope) (items : List SExpr),
    parseItems scope items = .ok m → WellFormed m := by
  intro m
  induction m with
  | simple p r c ps t sd cb =>
      intro scope items h
      rcases parseItems_cases h with ⟨d, hm⟩ | ⟨_, _, _, _, hm, -⟩ | ⟨_, _, _, _, hm, -⟩ |
        ⟨head, tail, hhead, hsimple⟩
      · exact nomatch hm
      · exact nomatch hm
      · exact nomatch hm
      · exact parseSimple_ok hhead hsimple
  | metaDef d => exact fun _ _ _ => trivial
  | dialect n inner ih =>
      intro scope items h
      rcases parseItems_cases h with ⟨d, hm⟩ | ⟨_, _, scope', items', hm, hin⟩ |
        ⟨_, _, _, _, hm, -⟩ | ⟨head, tail, -, hsimple⟩
      · exact nomatch hm
      · injection hm with _ hm
        rw [← hm] at hin
        exact ih scope' items' hin
      · exact nomatch hm
      · obtain ⟨_, _, _, _, _, _, _, hm⟩ := parseSimple_simple hsimple
        exact nomatch hm
  | wrapped w ps content ih =>
      intro scope items h
      rcases parseItems_cases h with ⟨d, hm⟩ | ⟨_, _, _, _, hm, -⟩ |
        ⟨_, _, _, items', hm, hin⟩ | ⟨head, tail, -, hsimple⟩
      · exact nomatch hm
      · exact nomatch hm
      · injection hm with _ _ hm
        rw [← hm] at hin
        exact ih scope items' hin
      · obtain ⟨_, _, _, _, _, _, _, hm⟩ := parseSimple_simple hsimple
        exact nomatch hm

theorem parseMessage_ok {scope : LangScope} {x : SExpr} {m : Message}
    (h : parseMessage scope x = .ok m) : WellFormed m := by
  cases x with
  | atom a => rw [parseMessage] at h; exact nomatch h
  | list items =>
      rw [parseMessage] at h
      exact parseItems_ok m scope items h

-- ── Writing and reading back ────

theorem wrapperParse_name (w : WrapperType) : wrapperParse (wrapperName w) = some w := by
  cases w <;> decide

theorem wrapperName_ne (w : WrapperType) : wrapperName w ≠ "meta" ∧ wrapperName w ≠ "lang" := by
  cases w <;> decide

/-- A written recipient position is read back, whatever follows it. -/
theorem parseRecipient_items {r : Option Recipients} (h : RecipientOk r) {c : SExpr}
    (hc : Positional c) (rest : List SExpr) :
    parseRecipient (recipientItems r ++ c :: rest) = (r, c :: rest) := by
  cases r with
  | none =>
      -- content is no address group, so it is not taken for the recipient
      show parseRecipient (c :: rest) = _
      unfold parseRecipient
      split
      · rename_i s rest' heq
        injection heq with heq hrest
        have hgroup := hc.2
        rw [heq] at hgroup
        have hstart : startsAt s = false := hgroup
        rw [if_neg (by rw [hstart]; exact Bool.false_ne_true), heq, hrest]
      · rename_i items rest' heq
        injection heq with heq hrest
        have hgroup := hc.2
        rw [heq] at hgroup
        have hitems : (!items.isEmpty && items.all isAddress) = false := hgroup
        rw [if_neg (by rw [hitems]; exact Bool.false_ne_true), heq, hrest]
      · rfl
  | some r =>
      cases r with
      | one s =>
          show parseRecipient (.atom (.symbol s) :: c :: rest) = _
          have hs : startsAt s = true := h
          rw [parseRecipient, if_pos hs]
      | set rs =>
          show parseRecipient (.list (symbols rs.toList) :: c :: rest) = _
          have hitems : (!(symbols rs.toList).isEmpty && (symbols rs.toList).all isAddress)
              = true := by
            rw [Bool.and_eq_true]
            constructor
            · cases hl : rs.toList with
              | nil => exact absurd hl h.1
              | cons s ss => rfl
            · rw [List.all_eq_true]
              intro x hx
              obtain ⟨s, hs, rfl⟩ := List.mem_map.mp hx
              exact h.2 s (Std.ExtTreeSet.mem_toList.mp hs)
          have hset : (symbols rs.toList).foldl addAddress ∅ = rs := by
            refine Std.ExtTreeSet.ext_mem fun s => ?_
            rw [mem_foldl_addAddress]
            unfold symbols
            simp
          rw [parseRecipient, if_pos hitems, hset]

/-- Parameters are read back as they were written. -/
theorem parseArgs_params {ps : List SExpr} (h : ParamsOk ps) (rest : List SExpr) :
    ∀ args : Args, args.content.isSome = true →
      parseArgs (ps ++ rest) args = parseArgs rest { args with params := args.params ++ ps } := by
  induction h with
  | nil => intro args _; rw [List.nil_append, List.append_nil]
  | pair hk _ ih =>
      rename_i k v tail _
      intro args hc
      simp only [reservedKeys, List.mem_cons, List.not_mem_nil, or_false, not_or] at hk
      show parseArgs (.atom (.keyword k) :: v :: (tail ++ rest)) args = _
      rw [parseArgs, if_neg hk.1, if_neg hk.2.1, if_neg hk.2.2]
      refine (ih { args with params := args.params ++ [.atom (.keyword k), v] } hc).trans ?_
      rw [List.append_assoc]
      rfl
  | positional hx _ ih =>
      rename_i x tail _
      intro args hc
      obtain ⟨c, hc'⟩ := Option.isSome_iff_exists.mp hc
      show parseArgs (x :: (tail ++ rest)) args = _
      rw [parseArgs_positional hx, hc']
      dsimp only
      rw [ih ⟨some c, _, args.thread, args.sender, args.caused_by⟩ rfl, List.append_assoc]
      rfl

theorem parseHashes_symbols (hs : List String) : parseHashes (symbols hs) = .ok hs := by
  induction hs with
  | nil => rfl
  | cons s hs ih =>
      show (do return s :: (← parseHashes (symbols hs)) : Except String (List String)) = _
      rw [ih]
      rfl

theorem parseCausedBy_sexpr {cb : CausedBy} (h : CausedByOk (some cb)) :
    parseCausedBy (causedBySexpr cb) = .ok cb := by
  cases cb with
  | begin => rfl
  | single s =>
      show Except.ok (singleOrBegin s) = _
      unfold singleOrBegin
      rw [if_neg h]
  | multiple hs =>
      obtain ⟨hne, hsorted⟩ := h
      cases hs with
      | nil => exact absurd rfl hne
      | cons s hs =>
          show (do
            let hashes ← parseHashes (symbols (s :: hs))
            return .multiple (hashes.insertionSort (· ≤ ·)) : Except String CausedBy) = _
          rw [parseHashes_symbols]
          show Except.ok (CausedBy.multiple _) = _
          rw [hsorted.insertionSort_eq]

/-- Written thread and sender keywords are read back, whatever follows them. -/
theorem parseArgs_strings (t sd : Option String) (rest : List SExpr) (args : Args)
    (ht : args.thread = none) (hs : args.sender = none) :
    parseArgs (stringItems "thread" t ++ (stringItems "sender" sd ++ rest)) args
      = parseArgs rest { args with thread := t, sender := sd } := by
  obtain ⟨c, ps, t0, s0, cb⟩ := args
  dsimp only at ht hs
  subst ht hs
  have hsender : ∀ t, parseArgs (stringItems "sender" sd ++ rest) ⟨c, ps, t, none, cb⟩
      = parseArgs rest ⟨c, ps, t, sd, cb⟩ := by
    intro t
    cases sd with
    | none => rfl
    | some s =>
        show parseArgs (.atom (.keyword "sender") :: .atom (.str s) :: rest) _ = _
        rw [parseArgs, if_neg (by decide), if_pos rfl]
        rfl
  cases t with
  | none => exact hsender none
  | some s =>
      show parseArgs (.atom (.keyword "thread") :: .atom (.str s) ::
        (stringItems "sender" sd ++ rest)) _ = _
      rw [parseArgs, if_pos rfl]
      exact hsender (some s)

/-- The routing keywords are read back as they were written. -/
theorem parseArgs_routing (t sd : Option String) {cb : Option CausedBy} (h : CausedByOk cb)
    (args : Args) (ht : args.thread = none) (hs : args.sender = none)
    (hcb : args.caused_by = none) :
    parseArgs (stringItems "thread" t ++ (stringItems "sender" sd ++ causedByItems cb)) args
      = .ok { args with thread := t, sender := sd, caused_by := cb } := by
  rw [parseArgs_strings t sd _ args ht hs]
  obtain ⟨c, ps, t0, s0, cb0⟩ := args
  dsimp only at hcb
  subst hcb
  cases cb with
  | none => rw [causedByItems, parseArgs]
  | some cb =>
      rw [causedByItems, parseArgs, if_neg (by decide), if_neg (by decide), if_pos rfl,
        parseCausedBy_sexpr h]
      dsimp only
      rw [parseArgs]

/-- The last list is the inner message. -/
theorem parseInner_last (scope : LangScope) (items : List SExpr) : ∀ params : List SExpr,
    parseInner scope (params ++ [.list items]) = some (params, parseItems scope items) := by
  intro params
  induction params with
  | nil =>
      show parseInner scope [.list items] = _
      rw [parseInner, parseInner, parseIfList]
      rfl
  | cons x params ih =>
      show parseInner scope (x :: (params ++ [.list items])) = _
      rw [parseInner, ih]
      rfl

/-- A scope admits a message: outside a `(lang …)` scope the performative is a core one. -/
def InScope : LangScope → Message → Prop
  | scope, .simple p _ _ _ _ _ _ => scope = .unscoped → (coreParse p.name).isSome = true
  | _, .metaDef _ => True
  | _, .dialect _ _ => True
  | scope, .wrapped _ _ content => InScope scope content

theorem inScope_of_ne {scope : LangScope} (hne : scope ≠ .unscoped) (m : Message) :
    InScope scope m := by
  induction m with
  | simple => exact fun h => absurd h hne
  | metaDef => trivial
  | dialect => trivial
  | wrapped w ps content ih => exact ih

theorem parseSimple_inScope {head : String} {tail : List SExpr} {scope : LangScope} {m : Message}
    (h : parseSimple head tail scope = .ok m) : InScope scope m := by
  unfold parseSimple at h
  split at h
  · exact nomatch h
  rename_i hscope
  split at h
  · exact nomatch h
  injection h with h
  rw [← h]
  intro hun
  cases hc : coreParse head with
  | none => exact absurd hun (hscope hc)
  | some c =>
      show (coreParse c.asStr).isSome = true
      rw [coreParse_name hc, hc]
      rfl

/-- **What is read in a scope, the scope admits.** -/
theorem parseItems_inScope : ∀ (m : Message) (scope : LangScope) (items : List SExpr),
    parseItems scope items = .ok m → InScope scope m := by
  intro m
  induction m with
  | metaDef d => exact fun _ _ _ => trivial
  | dialect n inner ih => exact fun _ _ _ => trivial
  | simple p r c ps t sd cb =>
      intro scope items h
      rcases parseItems_cases h with ⟨d, hm⟩ | ⟨_, _, _, _, hm, -⟩ | ⟨_, _, _, _, hm, -⟩ |
        ⟨head, tail, -, hsimple⟩
      · exact nomatch hm
      · exact nomatch hm
      · exact nomatch hm
      · exact parseSimple_inScope hsimple
  | wrapped w ps content ih =>
      intro scope items h
      rcases parseItems_cases h with ⟨d, hm⟩ | ⟨_, _, _, _, hm, -⟩ |
        ⟨_, _, _, items', hm, hin⟩ | ⟨head, tail, -, hsimple⟩
      · exact nomatch hm
      · exact nomatch hm
      · injection hm with _ _ hm
        rw [← hm] at hin
        exact ih scope items' hin
      · obtain ⟨_, _, _, _, _, _, _, hm⟩ := parseSimple_simple hsimple
        exact nomatch hm

/-- A written simple message is read back in a scope that admits it. -/
theorem parseSimple_items {p : Performative} {r : Option Recipients} {c : SExpr}
    {ps : List SExpr} {t sd : Option String} {cb : Option CausedBy} {scope : LangScope}
    (h : WellFormed (.simple p r c ps t sd cb)) (hscope : InScope scope (.simple p r c ps t sd cb)) :
    parseSimple p.name (recipientItems r ++ c :: (ps ++ (stringItems "thread" t
      ++ (stringItems "sender" sd ++ causedByItems cb)))) scope
        = .ok (.simple p r c ps t sd cb) := by
  obtain ⟨-, hp, hr, hc, hps, hcb⟩ := h
  have hargs : parseArgs (c :: (ps ++ (stringItems "thread" t
      ++ (stringItems "sender" sd ++ causedByItems cb)))) ⟨none, [], none, none, none⟩
        = .ok ⟨some c, ps, t, sd, cb⟩ := by
    rw [parseArgs_positional hc]
    dsimp only
    rw [parseArgs_params hps _ _ rfl, parseArgs_routing t sd hcb _ rfl rfl rfl]
    rfl
  unfold parseSimple
  rw [parseRecipient_items hr hc]
  split
  · rename_i hnone
    have hsome := hscope rfl
    rw [hnone] at hsome
    exact nomatch hsome
  · dsimp only
    rw [hargs, ← hp]
    rfl

/-- **The round trip**: a well-formed message is read back from what is written of it, in every
    scope that admits it. -/
theorem parseMessage_toSExpr_of_inScope {m : Message} (h : WellFormed m) :
    ∀ {scope : LangScope}, InScope scope m → parseMessage scope (toSExpr m) = .ok m := by
  induction m with
  | simple p r c ps t sd cb =>
      intro scope hscope
      obtain ⟨⟨hm, hl, hw⟩, -⟩ := id h
      rw [toSExpr, parseMessage, parseItems, if_neg hm, if_neg hl, hw]
      exact parseSimple_items h hscope
  | metaDef d =>
      intro scope _
      rw [toSExpr, parseMessage, parseItems, if_pos rfl]
      rfl
  | dialect n inner ih =>
      intro scope _
      have hinner : parseMessage .scoped (toSExpr inner) = .ok inner :=
        ih h (inScope_of_ne (by decide) inner)
      rw [toSExpr, parseMessage, parseItems, if_neg (by decide), if_pos rfl, parseDialectMsg,
        hinner]
      rfl
  | wrapped w ps content ih =>
      intro scope hscope
      rw [toSExpr, parseMessage, parseItems, if_neg (wrapperName_ne w).1,
        if_neg (wrapperName_ne w).2, wrapperParse_name]
      dsimp only
      have hlist : ∃ items, toSExpr content = .list items := by
        cases content with
        | simple => exact ⟨_, rfl⟩
        | metaDef => exact ⟨_, rfl⟩
        | dialect => exact ⟨_, rfl⟩
        | wrapped => exact ⟨_, rfl⟩
      obtain ⟨items, hitems⟩ := hlist
      have hinner := ih h hscope
      rw [hitems, parseMessage] at hinner
      rw [hitems, parseInner_last, hinner]
      rfl

theorem parseMessage_toSExpr {m : Message} (h : WellFormed m) :
    parseMessage .scoped (toSExpr m) = .ok m :=
  parseMessage_toSExpr_of_inScope h (inScope_of_ne (by decide) m)

/-- Reading what was written of a message read in the same scope. -/
theorem parseMessage_again {scope : LangScope} {x : SExpr} {m : Message}
    (h : parseMessage scope x = .ok m) : parseMessage scope (toSExpr m) = .ok m := by
  refine parseMessage_toSExpr_of_inScope (parseMessage_ok h) ?_
  cases x with
  | atom a => rw [parseMessage] at h; exact nomatch h
  | list items =>
      rw [parseMessage] at h
      exact parseItems_inScope m scope items h

/-- **Recognised messages survive writing**: either recogniser returns the message again from
    the S-expression written of what it returned. -/
theorem recognisers_round_trip :
    (∀ (s : SExpr) (m : Message), tryFrom s = .ok m → tryFrom (toSExpr m) = .ok m) ∧
      ∀ (s : SExpr) (m : Message), parseLax s = .ok m → parseLax (toSExpr m) = .ok m :=
  ⟨fun _ _ h => parseMessage_again h, fun _ _ h => parseMessage_again h⟩

/-- **Writing is injective on recognised messages.** -/
theorem toSExpr_injective {m m' : Message} (h : WellFormed m) (h' : WellFormed m')
    (heq : toSExpr m = toSExpr m') : m = m' := by
  have hread := parseMessage_toSExpr h
  rw [heq, parseMessage_toSExpr h'] at hread
  injection hread with hread
  exact hread.symm

end CbclRecogniser
