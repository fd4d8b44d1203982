import Cbcl.RecogniserProofs
import Cbcl.TextProofs

/-!
# Messages as text

A message read from text and recognised is made of lexically valid parts, with one exception:
a causal reference may have been given as a string, and is written as a bare symbol.  So the
text written of a recognised message is read back to it exactly when every hash it cites is a
symbol of the grammar.
-/

namespace CbclMessageText

open CbclMessage CbclRecogniser CbclText

-- ── Lexically valid messages ────

/-- A name that is read as one symbol. -/
def SymbolName (s : String) : Prop := isSymbolText s.toList = true

/-- The addresses of a recipient position are symbols. -/
def LexicalRecipient : Option Recipients → Prop
  | none => True
  | some (.one r) => SymbolName r
  | some (.set rs) => ∀ r ∈ rs, SymbolName r

/-- A message whose parts are lexically valid, causal references apart. -/
def LexicalMessage : Message → Prop
  | .simple p r c ps _ _ _ =>
      SymbolName p.name ∧ LexicalRecipient r ∧ Lexical c ∧ LexicalItems ps
  | .metaDef d => Lexical d
  | .dialect name inner => SymbolName name ∧ LexicalMessage inner
  | .wrapped _ ps content => LexicalItems ps ∧ LexicalMessage content

/-- The hashes the innermost simple message of a message cites. -/
def citedNames (m : Message) : List String :=
  citedHashes (m.innermostSimple.bind Message.causedBy)

-- ── Recognising keeps lexical validity ────

/-- What the argument loop keeps. -/
structure LexicalArgs (args : Args) : Prop where
  content : ∀ c, args.content = some c → Lexical c
  params : LexicalItems args.params

theorem lexicalItems_append {xs ys : List SExpr} (hx : LexicalItems xs) (hy : LexicalItems ys) :
    LexicalItems (xs ++ ys) := by
  rw [lexicalItems_iff] at hx hy ⊢
  intro x hmem
  rcases List.mem_append.mp hmem with h | h
  · exact hx x h
  · exact hy x h

theorem parseArgs_lexical : ∀ (tail : List SExpr) (args args' : Args), LexicalItems tail →
    LexicalArgs args → parseArgs tail args = .ok args' → LexicalArgs args' := by
  intro tail args
  induction tail, args using parseArgs.induct with
  | case1 args =>
      intro args' _ hok h
      rw [parseArgs] at h
      injection h with h
      rw [← h]
      exact hok
  | case2 k args =>
      intro args' _ _ h
      cases h
  | case3 val rest args ih =>
      intro args' htail hok h
      rw [parseArgs, if_pos rfl] at h
      exact ih args' htail.2.2 ⟨hok.content, hok.params⟩ h
  | case4 val rest args hk ih =>
      intro args' htail hok h
      rw [parseArgs, if_neg hk, if_pos rfl] at h
      exact ih args' htail.2.2 ⟨hok.content, hok.params⟩ h
  | case5 val rest args e he hk hk' =>
      intro args' _ _ h
      rw [parseArgs, if_neg hk, if_neg hk', if_pos rfl, he] at h
      cases h
  | case6 val rest args cb hcb hk hk' ih =>
      intro args' htail hok h
      rw [parseArgs, if_neg hk, if_neg hk', if_pos rfl, hcb] at h
      exact ih args' htail.2.2 ⟨hok.content, hok.params⟩ h
  | case7 k val rest args hk hk' hk'' ih =>
      intro args' htail hok h
      rw [parseArgs, if_neg hk, if_neg hk', if_neg hk''] at h
      exact ih args' htail.2.2
        ⟨hok.content, lexicalItems_append hok.params ⟨htail.1, htail.2.1, trivial⟩⟩ h
  | case8 x rest args hnone hsome hgroup =>
      intro args' _ _ h
      rw [parseArgs, if_pos hgroup] at h
      · cases h
      · exact hnone
      · exact hsome
  | case9 x rest args hnone hsome hgroup hc ih =>
      intro args' htail hok h
      rw [parseArgs_positional (positional_of_loop hnone hsome hgroup), hc] at h
      refine ih args' htail.2 ⟨fun c hc' => ?_, hok.params⟩ h
      injection hc' with hc'
      rw [← hc']
      exact htail.1
  | case10 x rest args hnone hsome hgroup c hc ih =>
      intro args' htail hok h
      rw [parseArgs_positional (positional_of_loop hnone hsome hgroup), hc] at h
      rw [hc] at ih
      exact ih args' htail.2 ⟨fun c' hc' => hok.content c' (hc.trans hc'),
        lexicalItems_append hok.params ⟨htail.1, trivial⟩⟩ h

theorem parseRecipient_lexical {tail : List SExpr} (htail : LexicalItems tail) :
    LexicalRecipient (parseRecipient tail).1 ∧ LexicalItems (parseRecipient tail).2 := by
  unfold parseRecipient
  split
  · rename_i s rest
    split
    · exact ⟨htail.1, htail.2⟩
    · exact ⟨trivial, htail⟩
  · rename_i items rest
    split
    · refine ⟨fun r hr => ?_, htail.2⟩
      rcases (mem_foldl_addAddress items ∅).mp hr with hr | hr
      · exact lexicalItems_iff.mp htail.1 _ hr
      · exact absurd hr Std.ExtTreeSet.not_mem_empty
    · exact ⟨trivial, htail⟩
  · exact ⟨trivial, htail⟩

theorem coreName_symbol (c : CorePerformative) : SymbolName c.asStr := by
  unfold SymbolName
  cases c <;> decide

theorem parseSimple_lexical {head : String} {tail : List SExpr} {scope : LangScope} {m : Message}
    (hhead : SymbolName head) (htail : LexicalItems tail)
    (h : parseSimple head tail scope = .ok m) : LexicalMessage m := by
  unfold parseSimple at h
  split at h
  · exact nomatch h
  split at h
  · exact nomatch h
  rename_i args hargs
  injection h with h
  subst h
  obtain ⟨hrecipient, hrest⟩ := parseRecipient_lexical htail
  have hstart : LexicalArgs ⟨none, [], none, none, none⟩ := ⟨(fun c hc => nomatch hc), trivial⟩
  have hok := parseArgs_lexical _ _ _ hrest hstart hargs
  refine ⟨?_, hrecipient, ?_, hok.params⟩
  · cases coreParse head with
    | none => exact hhead
    | some c => exact coreName_symbol c
  · cases hc : args.content with
    | none => exact trivial
    | some c => exact hok.content c hc

/-- What the wrapper form finds is among the lexically valid arguments. -/
theorem parseInner_lexical {scope : LangScope} : ∀ {tail params : List SExpr}
    {inner : Except String Message}, LexicalItems tail →
      parseInner scope tail = some (params, inner) →
        LexicalItems params ∧ ∃ items, LexicalItems items ∧ inner = parseItems scope items := by
  intro tail
  induction tail with
  | nil => intro params inner _ h; rw [parseInner] at h; cases h
  | cons x xs ih =>
      intro params inner htail h
      rw [parseInner] at h
      cases hin : parseInner scope xs with
      | some found =>
          rw [hin] at h
          injection h with h
          obtain ⟨hparams, hinner⟩ := Prod.mk.inj h
          have hfound : parseInner scope xs = some (found.1, found.2) := hin
          obtain ⟨hp, hitems⟩ := ih htail.2 hfound
          rw [← hparams, ← hinner]
          exact ⟨⟨htail.1, hp⟩, hitems⟩
      | none =>
          rw [hin, Option.map_none, Option.none_or] at h
          cases x with
          | atom a => rw [parseIfList] at h; cases h
          | list items =>
              rw [parseIfList] at h
              injection h with h
              obtain ⟨hparams, hinner⟩ := Prod.mk.inj h
              rw [← hparams, ← hinner]
              exact ⟨trivial, items, htail.1, rfl⟩

/-- **What is recognised in lexically valid text is made of lexically valid parts.** -/
theorem parseItems_lexical : ∀ (m : Message) (scope : LangScope) (items : List SExpr),
    LexicalItems items → parseItems scope items = .ok m → LexicalMessage m := by
  intro m
  induction m with
  | simple p r c ps t sd cb =>
      intro scope items hitems h
      obtain ⟨head, tail, rfl, ⟨-, d, -, -, hm⟩ | ⟨-, _, _, -, _, -, hm, -⟩ |
        ⟨_, _, _, -, -, -, hm, -⟩ | ⟨-, hsimple⟩⟩ := parseItems_inv h
      · exact nomatch hm
      · exact nomatch hm
      · exact nomatch hm
      · exact parseSimple_lexical hitems.1 hitems.2 hsimple
  | metaDef d =>
      intro scope items hitems h
      obtain ⟨head, tail, rfl, ⟨-, d', rest, rfl, hm⟩ | ⟨-, _, _, -, _, -, hm, -⟩ |
        ⟨_, _, _, -, -, -, hm, -⟩ | ⟨-, hsimple⟩⟩ := parseItems_inv h
      · injection hm with hm
        rw [hm]
        exact hitems.2.1
      · exact nomatch hm
      · exact nomatch hm
      · obtain ⟨_, _, _, _, _, _, _, hm⟩ := parseSimple_simple hsimple
        exact nomatch hm
  | dialect n inner ih =>
      intro scope items hitems h
      obtain ⟨head, tail, rfl, ⟨-, d, -, -, hm⟩ | ⟨-, name, items', rest, inner', rfl, hm, hin⟩ |
        ⟨_, _, _, -, -, -, hm, -⟩ | ⟨-, hsimple⟩⟩ := parseItems_inv h
      · exact nomatch hm
      · injection hm with hn hm
        subst hn hm
        exact ⟨hitems.2.1, ih .scoped items' hitems.2.2.1 hin⟩
      · exact nomatch hm
      · obtain ⟨_, _, _, _, _, _, _, hm⟩ := parseSimple_simple hsimple
        exact nomatch hm
  | wrapped w ps content ih =>
      intro scope items hitems h
      obtain ⟨head, tail, rfl, ⟨-, d, -, -, hm⟩ | ⟨-, _, _, -, _, -, hm, -⟩ |
        ⟨w', ps', inner, -, -, -, hm, hin⟩ | ⟨-, hsimple⟩⟩ := parseItems_inv h
      · exact nomatch hm
      · exact nomatch hm
      · injection hm with _ hps hinner
        subst hps hinner
        obtain ⟨hps, items', hitems', heq⟩ := parseInner_lexical hitems.2 hin
        exact ⟨hps, ih scope items' hitems' heq.symm⟩
      · obtain ⟨_, _, _, _, _, _, _, hm⟩ := parseSimple_simple hsimple
        exact nomatch hm

theorem parseMessage_lexical {scope : LangScope} {x : SExpr} {m : Message} (hx : Lexical x)
    (h : parseMessage scope x = .ok m) : LexicalMessage m := by
  cases x with
  | atom a => rw [parseMessage] at h; cases h
  | list items =>
      rw [parseMessage] at h
      exact parseItems_lexical m scope items hx h

-- ── Written messages ────

theorem lexicalItems_symbols {names : List String} (h : ∀ n ∈ names, SymbolName n) :
    LexicalItems (symbols names) := by
  rw [lexicalItems_iff]
  intro x hx
  obtain ⟨n, hn, rfl⟩ := List.mem_map.mp hx
  exact h n hn

theorem lexicalItems_recipient {r : Option Recipients} (h : LexicalRecipient r) :
    LexicalItems (recipientItems r) := by
  cases r with
  | none => trivial
  | some r =>
      cases r with
      | one r => exact ⟨h, trivial⟩
      | set rs => exact ⟨lexicalItems_symbols fun n hn => h n (Std.ExtTreeSet.mem_toList.mp hn), trivial⟩

theorem lexicalItems_strings {key : String} (hkey : isKeywordText key.toList = true)
    (s : Option String) : LexicalItems (stringItems key s) := by
  cases s with
  | none => trivial
  | some s => exact ⟨hkey, trivial, trivial⟩

theorem lexical_causedBy {cb : CausedBy} (h : ∀ n ∈ cb.hashes, SymbolName n) :
    Lexical (causedBySexpr cb) := by
  cases cb with
  | begin =>
      show isSymbolText BEGIN_KEYWORD.toList = true
      decide
  | single n => exact h n (List.mem_singleton_self n)
  | multiple ns => exact lexicalItems_symbols h

/-- The items of a written simple message before its causal reference. -/
def headItems (p : Performative) (r : Option Recipients) (c : SExpr) (ps : List SExpr)
    (t sd : Option String) : List SExpr :=
  .atom (.symbol p.name) :: (recipientItems r ++ c :: (ps ++ (stringItems "thread" t
    ++ stringItems "sender" sd)))

theorem toSExpr_simple (p : Performative) (r : Option Recipients) (c : SExpr) (ps : List SExpr)
    (t sd : Option String) (cb : Option CausedBy) :
    toSExpr (.simple p r c ps t sd cb) = .list (headItems p r c ps t sd ++ causedByItems cb) := by
  rw [toSExpr]
  unfold headItems
  simp only [List.cons_append, List.append_assoc]

theorem lexicalItems_head {p : Performative} {r : Option Recipients} {c : SExpr} {ps : List SExpr}
    {t sd : Option String} {cb : Option CausedBy} (h : LexicalMessage (.simple p r c ps t sd cb)) :
    LexicalItems (headItems p r c ps t sd) := by
  obtain ⟨hp, hr, hc, hps⟩ := h
  refine ⟨hp, lexicalItems_append (lexicalItems_recipient hr) ⟨hc, lexicalItems_append hps ?_⟩⟩
  exact lexicalItems_append (lexicalItems_strings (by decide) t)
    (lexicalItems_strings (by decide) sd)

theorem wrapperName_symbol (w : WrapperType) : SymbolName (wrapperName w) := by
  unfold SymbolName
  cases w <;> decide

/-- **A message of lexically valid parts that cites symbols is lexically valid when written.** -/
theorem lexical_toSExpr {m : Message} (hm : LexicalMessage m)
    (hcited : ∀ n ∈ citedNames m, SymbolName n) : Lexical (toSExpr m) := by
  induction m with
  | simple p r c ps t sd cb =>
      rw [toSExpr_simple]
      refine lexicalItems_append (lexicalItems_head hm) ?_
      cases cb with
      | none => trivial
      | some cb =>
          refine ⟨?_, lexical_causedBy hcited, trivial⟩
          show isKeywordText _ = true
          decide
  | metaDef d =>
      rw [toSExpr]
      refine ⟨?_, hm, trivial⟩
      show isSymbolText _ = true
      decide
  | dialect name inner ih =>
      rw [toSExpr]
      refine ⟨?_, hm.1, ih hm.2 hcited, trivial⟩
      show isSymbolText _ = true
      decide
  | wrapped w ps content ih =>
      rw [toSExpr]
      exact ⟨wrapperName_symbol w, lexicalItems_append hm.1 ⟨ih hm.2 hcited, trivial⟩⟩

-- ── What a written message can be read as ────

/-- The causal reference the argument loop returns was there before or is read from an item. -/
theorem parseArgs_causedBy : ∀ (tail : List SExpr) (args args' : Args),
    parseArgs tail args = .ok args' → args'.caused_by = args.caused_by ∨
      ∃ v ∈ tail, ∃ cb, parseCausedBy v = .ok cb ∧ args'.caused_by = some cb := by
  intro tail args
  induction tail, args using parseArgs.induct with
  | case1 args =>
      intro args' h
      rw [parseArgs] at h
      injection h with h
      exact Or.inl (by rw [h])
  | case2 k args =>
      intro args' h
      cases h
  | case3 val rest args ih =>
      intro args' h
      rw [parseArgs, if_pos rfl] at h
      obtain heq | ⟨v, hv, hcb⟩ := ih args' h
      · exact Or.inl heq
      · exact Or.inr ⟨v, by simp [hv], hcb⟩
  | case4 val rest args hk ih =>
      intro args' h
      rw [parseArgs, if_neg hk, if_pos rfl] at h
      obtain heq | ⟨v, hv, hcb⟩ := ih args' h
      · exact Or.inl heq
      · exact Or.inr ⟨v, by simp [hv], hcb⟩
  | case5 val rest args e he hk hk' =>
      intro args' h
      rw [parseArgs, if_neg hk, if_neg hk', if_pos rfl, he] at h
      cases h
  | case6 val rest args cb hcb hk hk' ih =>
      intro args' h
      rw [parseArgs, if_neg hk, if_neg hk', if_pos rfl, hcb] at h
      rcases ih args' h with heq | ⟨v, hv, hcb'⟩
      · exact Or.inr ⟨val, by simp, cb, hcb, heq⟩
      · exact Or.inr ⟨v, by simp [hv], hcb'⟩
  | case7 k val rest args hk hk' hk'' ih =>
      intro args' h
      rw [parseArgs, if_neg hk, if_neg hk', if_neg hk''] at h
      obtain heq | ⟨v, hv, hcb⟩ := ih args' h
      · exact Or.inl heq
      · exact Or.inr ⟨v, by simp [hv], hcb⟩
  | case8 x rest args hnone hsome hgroup =>
      intro args' h
      rw [parseArgs, if_pos hgroup] at h
      · cases h
      · exact hnone
      · exact hsome
  | case9 x rest args hnone hsome hgroup hc ih =>
      intro args' h
      rw [parseArgs_positional (positional_of_loop hnone hsome hgroup), hc] at h
      obtain heq | ⟨v, hv, hcb⟩ := ih args' h
      · exact Or.inl heq
      · exact Or.inr ⟨v, by simp [hv], hcb⟩
  | case10 x rest args hnone hsome hgroup c hc ih =>
      intro args' h
      rw [parseArgs_positional (positional_of_loop hnone hsome hgroup), hc] at h
      rw [hc] at ih
      obtain heq | ⟨v, hv, hcb⟩ := ih args' h
      · exact Or.inl heq
      · exact Or.inr ⟨v, by simp [hv], hcb⟩

/-- The quotes of some texts. -/
def quotesIn (names : List String) : Nat := (names.map fun n => quotes n.toList).sum

theorem quotesOf_symbols (names : List String) : quotesOf (symbols names) = quotesIn names := by
  unfold quotesOf quotesIn symbols
  rw [List.map_map]
  rfl

/-- Hashes given as strings cost quotes that hashes given as symbols do not. -/
theorem parseHashes_quotes : ∀ {items : List SExpr} {names : List String},
    parseHashes items = .ok names →
      quotesIn names ≤ quotesOf items ∧ (quotesOf items ≤ quotesIn names → items = symbols names) := by
  intro items
  induction items with
  | nil =>
      intro names h
      injection h with h
      rw [← h]
      exact ⟨Nat.le_refl _, fun _ => rfl⟩
  | cons x items ih =>
      intro names h
      have hcons : ∀ (x : SExpr) (items : List SExpr),
          quotesOf (x :: items) = quotes (writeSexpr x) + quotesOf items := by
        intro x items
        unfold quotesOf
        rw [List.map_cons, List.sum_cons]
      have hin : ∀ (n : String) (names : List String),
          quotesIn (n :: names) = quotes n.toList + quotesIn names := by
        intro n names
        unfold quotesIn
        rw [List.map_cons, List.sum_cons]
      unfold parseHashes at h
      split at h
      · rename_i heq
        exact nomatch heq
      · rename_i s rest heq
        injection heq with hx hrest
        subst hx hrest
        obtain ⟨names', hnames, h⟩ := CbclExcept.bind_ok_iff.mp h
        injection h with h
        obtain ⟨hle, heq⟩ := ih hnames
        rw [← h, hcons, hin]
        have hsym : quotes (writeSexpr (.atom (.symbol s))) = quotes s.toList := rfl
        refine ⟨by omega, fun hge => ?_⟩
        rw [heq (by omega)]
        rfl
      · rename_i s rest heq
        injection heq with hx hrest
        subst hx hrest
        obtain ⟨names', hnames, h⟩ := CbclExcept.bind_ok_iff.mp h
        injection h with h
        obtain ⟨hle, -⟩ := ih hnames
        rw [← h, hcons, hin]
        have hstr : quotes (writeSexpr (.atom (.str s))) = quotes s.toList + 2 := by
          rw [writeSexpr, quotes_writeStr]
        exact ⟨by omega, fun hge => by omega⟩
      · exact nomatch h

/-- **A reference that costs no more quotes than its symbols cites symbols.** -/
theorem cited_of_quotes {v : SExpr} {cb : CausedBy} (hv : Lexical v) (h : parseCausedBy v = .ok cb)
    (hquotes : quotes (writeSexpr v) ≤ quotes (writeSexpr (causedBySexpr cb))) :
    ∀ n ∈ cb.hashes, SymbolName n := by
  unfold parseCausedBy at h
  split at h
  · rename_i s
    injection h with h
    rw [← h]
    unfold singleOrBegin
    split
    · rintro _ ⟨⟩
    · intro n hn
      rw [List.mem_singleton.mp hn]
      exact hv
  · rename_i s
    injection h with h
    rw [← h] at hquotes ⊢
    unfold singleOrBegin at hquotes ⊢
    split
    · rintro _ ⟨⟩
    · rename_i hs
      rw [if_neg hs, writeSexpr, quotes_writeStr] at hquotes
      have hsym : quotes (writeSexpr (causedBySexpr (.single s))) = quotes s.toList := rfl
      omega
  · exact nomatch h
  · rename_i items _
    obtain ⟨names, hnames, h⟩ := CbclExcept.bind_ok_iff.mp h
    injection h with h
    obtain ⟨-, heq⟩ := parseHashes_quotes hnames
    have hperm := List.perm_insertionSort (· ≤ ·) names
    rw [← h] at hquotes ⊢
    have hsorted : quotes (writeSexpr (causedBySexpr (.multiple (names.insertionSort (· ≤ ·)))))
        = quotesIn names := by
      rw [causedBySexpr, quotes_writeList, quotesOf_symbols]
      exact (hperm.map _).sum_eq
    rw [hsorted, quotes_writeList] at hquotes
    intro n hn
    have hmem : .atom (.symbol n) ∈ items := by
      rw [heq hquotes]
      exact List.mem_map.mpr ⟨n, hperm.mem_iff.mp hn, rfl⟩
    exact lexicalItems_iff.mp hv _ hmem
  · exact nomatch h

theorem quotes_le_quotesOf {v : SExpr} {xs : List SExpr} (h : v ∈ xs) :
    quotes (writeSexpr v) ≤ quotesOf xs :=
  List.single_le_sum (by simp) _ (List.mem_map.mpr ⟨v, h, rfl⟩)

/-- A simple message read off more items than were written before its reference takes the
    reference from those items. -/
theorem causedBy_of_items {p : Performative} {r : Option Recipients} {c : SExpr} {ps : List SExpr}
    {t sd : Option String} {cb : CausedBy} {scope : LangScope} {xs : List SExpr}
    (hm : WellFormed (.simple p r c ps t sd (some cb)))
    (h : parseMessage scope (.list (headItems p r c ps t sd ++ .atom (.keyword "caused-by") :: xs))
      = .ok (.simple p r c ps t sd (some cb))) :
    ∃ v ∈ xs, parseCausedBy v = .ok cb := by
  obtain ⟨⟨hmeta, hlang, hw⟩, -, hr, hc, hps, -⟩ := hm
  rw [headItems, List.cons_append, parseMessage, parseItems, if_neg hmeta, if_neg hlang, hw] at h
  dsimp only at h
  rw [show (recipientItems r ++ c :: (ps ++ (stringItems "thread" t ++ stringItems "sender" sd)))
      ++ .atom (.keyword "caused-by") :: xs
    = recipientItems r ++ c :: (ps ++ (stringItems "thread" t ++ (stringItems "sender" sd
      ++ .atom (.keyword "caused-by") :: xs))) by simp] at h
  unfold parseSimple at h
  rw [parseRecipient_items hr hc] at h
  split at h
  · cases h
  · rw [parseArgs_positional hc] at h
    dsimp only at h
    rw [parseArgs_params hps _ _ rfl, parseArgs_strings t sd _ _ rfl rfl] at h
    split at h
    · cases h
    · rename_i args hargs
      injection h with h
      injection h with _ _ _ _ _ _ hcb
      rcases parseArgs_causedBy _ _ _ hargs with heq | ⟨v, hv, cb', hcb', heq⟩
      · rw [hcb] at heq
        cases heq
      · rw [hcb] at heq
        injection heq with heq
        rcases List.mem_cons.mp hv with rfl | hv
        · cases hcb'
        · exact ⟨v, hv, by rw [hcb', heq]⟩

/-- The inner message of a wrapper stands right after its parameters. -/
theorem parseInner_at {scope : LangScope} {items : List SExpr} {r : Except String Message}
    (tail : List SExpr) : ∀ {ps ps' : List SExpr},
      parseInner scope (ps ++ .list items :: tail) = some (ps', r) → ps'.length = ps.length →
        r = parseItems scope items := by
  intro ps
  induction ps with
  | nil =>
      intro ps' h hlen
      rw [List.nil_append, parseInner] at h
      cases hin : parseInner scope tail with
      | some found =>
          rw [hin] at h
          injection h with h
          rw [← (Prod.mk.inj h).1] at hlen
          cases hlen
      | none =>
          rw [hin, Option.map_none, Option.none_or, parseIfList] at h
          injection h with h
          exact (Prod.mk.inj h).2.symm
  | cons x ps ih =>
      intro ps' h hlen
      rw [List.cons_append, parseInner] at h
      cases hin : parseInner scope (ps ++ .list items :: tail) with
      | some found =>
          rw [hin] at h
          injection h with h
          obtain ⟨hps, hr⟩ := Prod.mk.inj h
          have hfound : parseInner scope (ps ++ .list items :: tail) = some (found.1, r) := by
            rw [hin, ← hr]
          refine ih hfound ?_
          rw [← hps] at hlen
          simpa using hlen
      | none =>
          rw [hin, Option.map_none, Option.none_or] at h
          cases x with
          | atom a => rw [parseIfList] at h; cases h
          | list items' =>
              rw [parseIfList] at h
              injection h with h
              rw [← (Prod.mk.inj h).1] at hlen
              cases hlen

theorem toSExpr_list (m : Message) : ∃ items, toSExpr m = .list items := by
  cases m with
  | simple => exact ⟨_, rfl⟩
  | metaDef => exact ⟨_, rfl⟩
  | dialect => exact ⟨_, rfl⟩
  | wrapped => exact ⟨_, rfl⟩

/-- A list whose last written item is a message: what is read of it has a list in the place of
    the message, read from the message's text. -/
theorem read_inner {pre : List SExpr} (hpre : LexicalItems pre) (hne : pre ≠ []) {inner : Message}
    {rest : List Char} {bound pos fuel : Nat} {x : SExpr} {st' : ParserState}
    (h : parseExpr bound ⟨writeSexpr (.list (pre ++ [toSExpr inner])) ++ rest, pos, fuel⟩
      = .ok (x, st')) :
    ∃ items tail bound' pos' fuel' st₁, x = .list (pre ++ .list items :: tail) ∧
      parseExpr bound' ⟨writeSexpr (toSExpr inner) ++ ')' :: rest, pos', fuel'⟩
        = .ok (.list items, st₁) := by
  obtain ⟨bound₁, pos₁, fuel₁, h⟩ := parseList_of_last hpre hne h
  obtain ⟨written, hwritten⟩ := toSExpr_list inner
  cases bound₁ with
  | zero => cases h
  | succ bound₁ =>
      have htext : writeSexpr (toSExpr inner) ++ ')' :: rest
          = '(' :: ((writeItems written ++ [')']) ++ ')' :: rest) := by
        rw [hwritten, writeSexpr]
        rfl
      obtain ⟨pos₂, hround⟩ := parseList_solid solid_open (Or.inr rfl)
        ((writeItems written ++ [')']) ++ ')' :: rest) bound₁ pos₁ fuel₁ pre
      rw [← htext] at hround
      rw [show ' ' :: (writeSexpr (toSExpr inner) ++ ')' :: rest)
        = [' '] ++ (writeSexpr (toSExpr inner) ++ ')' :: rest) from rfl, hround] at h
      split at h
      · cases h
      · rename_i y st₁ hy
        obtain ⟨tail, rfl, -, -⟩ := (parse_read _).2 _ _ _ _ h
        have hopen := hy
        rw [htext] at hopen
        obtain ⟨_, _, _, hopen⟩ := parseList_of_open hopen
        obtain ⟨items, hitems, -, -⟩ := (parse_read _).2 _ _ _ _ hopen
        rw [List.nil_append] at hitems
        subst hitems
        refine ⟨items, tail, _, _, _, _, ?_, hy⟩
        rw [List.append_assoc]
        rfl

/-- **What is recognised again cites symbols**: if the text of a message, followed by text
    without quotes, is read as something recognised as the message, every hash it cites is a
    symbol.  A hash that is none would have to be given as a string, and the text written has
    no quotes to spare for one. -/
theorem cited_of_read : ∀ (m : Message), WellFormed m → LexicalMessage m →
    ∀ (scope : LangScope) (rest : List Char), quotes rest = 0 → ∀ (bound pos fuel : Nat) (x : SExpr)
      (st' : ParserState),
        parseExpr bound ⟨writeSexpr (toSExpr m) ++ rest, pos, fuel⟩ = .ok (x, st') →
          parseMessage scope x = .ok m → ∀ n ∈ citedNames m, SymbolName n := by
  intro m
  induction m with
  | metaDef d => rintro _ _ _ _ _ _ _ _ _ _ _ _ _ ⟨⟩
  | simple p r c ps t sd cb =>
      intro hwf hlex scope rest hrest bound pos fuel x st' hparse hmsg
      cases cb with
      | none => rintro _ ⟨⟩
      | some cb =>
          -- the citation is the last item, so it costs the quotes left after the others
          have hpre : LexicalItems (headItems p r c ps t sd ++ [.atom (.keyword "caused-by")]) := by
            refine lexicalItems_append (lexicalItems_head hlex) ⟨?_, trivial⟩
            show isKeywordText _ = true
            decide
          rw [toSExpr_simple, causedByItems, show headItems p r c ps t sd
              ++ [.atom (.keyword "caused-by"), causedBySexpr cb]
            = (headItems p r c ps t sd ++ [.atom (.keyword "caused-by")]) ++ [causedBySexpr cb] by
              simp] at hparse
          obtain ⟨bound', pos', fuel', h⟩ := parseList_of_last hpre (by simp) hparse
          obtain ⟨xs, rfl, hread, -⟩ := (parse_read _).2 _ _ _ _ h
          rw [List.append_assoc] at hmsg
          obtain ⟨v, hv, hcb⟩ := causedBy_of_items hwf hmsg
          refine cited_of_quotes (lexicalItems_iff.mp hread.lexical v hv) hcb ?_
          have hquotes := hread.quotes
          have hle : quotes (writeSexpr v) ≤ quotesOf xs := quotes_le_quotesOf hv
          have hclose : quotes (')' :: rest) = 0 := by
            rw [quotes_cons, hrest]
            rfl
          rw [quotes_cons, quotes_append, hclose, if_neg (by decide)] at hquotes
          omega
  | dialect name inner ih =>
      intro hwf hlex scope rest hrest bound pos fuel x st' hparse hmsg
      have hpre : LexicalItems [.atom (.symbol "lang"), .atom (.symbol name)] := by
        refine ⟨?_, hlex.1, trivial⟩
        show isSymbolText _ = true
        decide
      rw [toSExpr] at hparse
      obtain ⟨items, tail, bound', pos', fuel', st₁, rfl, hinner⟩ := read_inner hpre (by simp) hparse
      rw [parseMessage] at hmsg
      obtain ⟨head, tail', hitems, ⟨-, d, -, -, hm⟩ | ⟨-, name', items', rest', inner', htail, hm, hin⟩ |
        ⟨_, _, _, -, -, -, hm, -⟩ | ⟨-, hsimple⟩⟩ := parseItems_inv hmsg
      · cases hm
      · injection hm with _ hm
        subst hm
        rw [htail] at hitems
        simp only [List.cons_append, List.nil_append, List.cons.injEq, SExpr.list.injEq] at hitems
        rw [← hitems.2.2.1] at hin
        refine ih hwf hlex.2 .scoped (')' :: rest) (by rw [quotes_cons, hrest]; rfl) _ _ _ _ _ hinner ?_
        rw [parseMessage]
        exact hin
      · cases hm
      · obtain ⟨_, _, _, _, _, _, _, hm⟩ := parseSimple_simple hsimple
        cases hm
  | wrapped w ps content ih =>
      intro hwf hlex scope rest hrest bound pos fuel x st' hparse hmsg
      have hpre : LexicalItems (.atom (.symbol (wrapperName w)) :: ps) :=
        ⟨wrapperName_symbol w, hlex.1⟩
      rw [toSExpr] at hparse
      obtain ⟨items, tail, bound', pos', fuel', st₁, rfl, hinner⟩ := read_inner hpre (by simp) hparse
      rw [parseMessage] at hmsg
      obtain ⟨head, tail', hitems, ⟨-, d, -, -, hm⟩ | ⟨-, _, _, -, _, -, hm, -⟩ |
        ⟨w', ps', content', -, -, -, hm, hin⟩ | ⟨-, hsimple⟩⟩ := parseItems_inv hmsg
      · cases hm
      · cases hm
      · injection hm with _ hps hm
        subst hps hm
        injection hitems with _ hitems
        rw [← hitems] at hin
        refine ih hwf hlex.2 scope (')' :: rest) (by rw [quotes_cons, hrest]; rfl) _ _ _ _ _ hinner ?_
        rw [parseMessage]
        exact (parseInner_at tail hin rfl).symm
      · obtain ⟨_, _, _, _, _, _, _, hm⟩ := parseSimple_simple hsimple
        cases hm

-- ── The round trip ────

/-- A text is read and recognised as a message. -/
def ReadAs (text : String) (m : Message) : Prop := ∃ s, parse text = .ok s ∧ tryFrom s = .ok m

/-- **The text round trip**: the text written of a message read from a text is read as the
    message again exactly when every hash its innermost simple message cites is a symbol. -/
theorem text_round_trip_iff {input : String} {s : SExpr} {m : Message} (hs : parse input = .ok s)
    (hm : tryFrom s = .ok m) :
    ReadAs (serialize (toSExpr m)) m ↔ ∀ n ∈ citedNames m, SymbolName n := by
  have hlex := parseMessage_lexical (lexical_of_parse hs) hm
  constructor
  · rintro ⟨s', hs', hm'⟩
    obtain ⟨items, hitems⟩ := toSExpr_list m
    unfold parse parseWithFuel serialize at hs'
    dsimp only at hs'
    rw [String.toList_ofList, show writeSexpr (toSExpr m) = '(' :: (writeItems items ++ [')']) by
      rw [hitems, writeSexpr], skipWhitespace_solid solid_open] at hs'
    split at hs'
    · cases hs'
    · rename_i y st hy
      split at hs'
      · injection hs' with hs'
        subst hs'
        rw [show '(' :: (writeItems items ++ [')']) = writeSexpr (toSExpr m) ++ [] by
          rw [hitems, writeSexpr, List.append_nil]] at hy
        exact cited_of_read m (parseMessage_ok hm) hlex .unscoped [] rfl _ _ _ _ _ hy hm'
      · cases hs'
  · intro hcited
    exact ⟨toSExpr m, parse_serialize (lexical_toSExpr hlex hcited), parseMessage_again hm⟩

/-- A greeting that cites a message by a symbol or a string. -/
def greeting (reference : Atom) : SExpr :=
  .list [.atom (.symbol "tell"), .atom (.symbol "hi"), .atom (.keyword "caused-by"), .atom reference]

/-- The message of a greeting. -/
def greetingMessage (hash : String) : Message :=
  .simple (.core .tell) none (.atom (.symbol "hi")) [] none none (some (.single hash))

/-- What is computed of two greetings: how they are read, and what the text of the second reads
    as. -/
theorem greeting_runs :
    parse "(tell hi :caused-by m1)" = .ok (greeting (.symbol "m1")) ∧
    tryFrom (greeting (.symbol "m1")) = .ok (greetingMessage "m1") ∧ isSymbolText "m1".toList = true ∧
    parse "(tell hi :caused-by \"sha256:ab\")" = .ok (greeting (.str "sha256:ab")) ∧
    tryFrom (greeting (.str "sha256:ab")) = .ok (greetingMessage "sha256:ab") ∧
    parse (serialize (toSExpr (greetingMessage "sha256:ab")))
      = .ok (.list [.atom (.symbol "tell"), .atom (.symbol "hi"), .atom (.keyword "caused-by"),
        .atom (.symbol "sha256"), .atom (.keyword "ab")]) ∧
    tryFrom (.list [.atom (.symbol "tell"), .atom (.symbol "hi"), .atom (.keyword "caused-by"),
        .atom (.symbol "sha256"), .atom (.keyword "ab")]) ≠ .ok (greetingMessage "sha256:ab") := by
  decide +kernel

/-- A reference that is a symbol survives the trip through text. -/
theorem text_round_trip_symbol :
    parse "(tell hi :caused-by m1)" = .ok (greeting (.symbol "m1")) ∧
      ReadAs (serialize (toSExpr (greetingMessage "m1"))) (greetingMessage "m1") := by
  obtain ⟨hs, hm, hsymbol, -⟩ := greeting_runs
  refine ⟨hs, (text_round_trip_iff hs hm).mpr fun n hn => ?_⟩
  rw [List.mem_singleton.mp hn]
  exact hsymbol

/-- A content address given as a string is written as text that is no message. -/
theorem text_round_trip_loses_address :
    ¬ ∀ (input : String) (s : SExpr) (m : Message), parse input = .ok s → tryFrom s = .ok m →
      ReadAs (serialize (toSExpr m)) m := by
  intro hall
  obtain ⟨-, -, -, hparse, hmessage, hread, hlost⟩ := greeting_runs
  obtain ⟨s', hs', hm'⟩ := hall "(tell hi :caused-by \"sha256:ab\")" (greeting (.str "sha256:ab"))
    (greetingMessage "sha256:ab") hparse hmessage
  rw [hread] at hs'
  injection hs' with hs'
  rw [← hs'] at hm'
  exact hlost hm'

end CbclMessageText
