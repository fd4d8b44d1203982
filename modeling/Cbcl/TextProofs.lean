import Cbcl.TextModel

/-!
# Reading and writing text

What the parser returns is lexically valid, it pays one unit of fuel for every node, and the
quotes of what it returns stand in what it read (`Read`).  More fuel changes nothing but the
fuel left over (`parseExpr_more`).  A lexically valid S-expression is read back from its text,
whatever follows it after a space or a closing parenthesis (`parseExpr_write`).
-/

namespace CbclText

open CbclMessage

-- ── Lexical validity ────

/-- Whether characters would be read as a number, from their first one or two. -/
def startsNumber : List Char → Bool
  | [] => false
  | c :: cs => c.isDigit || (c = '-' && cs.head?.any Char.isDigit)

/-- A text the parser reads as one symbol. -/
def isSymbolText (cs : List Char) : Bool :=
  !cs.isEmpty && cs.all isSymbolChar && !startsNumber cs

/-- A text the parser reads, after a colon, as one keyword. -/
def isKeywordText (cs : List Char) : Bool := !cs.isEmpty && cs.all isSymbolChar

/-- An atom whose text is read as that atom. -/
def LexicalAtom : Atom → Prop
  | .symbol s => isSymbolText s.toList = true
  | .keyword k => isKeywordText k.toList = true
  | .str _ => True
  | .num _ => True
  | .bool _ => True

mutual
/-- Lexically valid S-expressions: all symbols and keywords are. -/
def Lexical : SExpr → Prop
  | .atom a => LexicalAtom a
  | .list items => LexicalItems items
/-- All items are lexically valid. -/
def LexicalItems : List SExpr → Prop
  | [] => True
  | x :: xs => Lexical x ∧ LexicalItems xs
end

theorem lexicalItems_iff {xs : List SExpr} : LexicalItems xs ↔ ∀ x ∈ xs, Lexical x := by
  induction xs with
  | nil => simp [LexicalItems]
  | cons x xs ih => simp [LexicalItems, ih]

mutual
/-- The number of expressions in an S-expression, itself included. -/
def nodes : SExpr → Nat
  | .atom _ => 1
  | .list items => 1 + nodesOf items
/-- The number of expressions in a list of items. -/
def nodesOf : List SExpr → Nat
  | [] => 0
  | x :: xs => nodes x + nodesOf xs
end

theorem one_le_nodes (x : SExpr) : 1 ≤ nodes x := by
  cases x with
  | atom a => exact Nat.le_refl _
  | list xs => rw [nodes]; omega

theorem nodesOf_append (xs ys : List SExpr) : nodesOf (xs ++ ys) = nodesOf xs + nodesOf ys := by
  induction xs with
  | nil => simp [nodesOf]
  | cons x xs ih =>
      rw [List.cons_append, nodesOf, nodesOf, ih]
      omega

/-- The quotes of a text. -/
def quotes (cs : List Char) : Nat := cs.count '"'

theorem quotes_append (cs ds : List Char) : quotes (cs ++ ds) = quotes cs + quotes ds :=
  List.count_append

theorem quotes_cons (c : Char) (cs : List Char) :
    quotes (c :: cs) = (if c = '"' then 1 else 0) + quotes cs := by
  rw [show c :: cs = [c] ++ cs from rfl, quotes_append]
  unfold quotes
  rw [List.count_singleton]
  by_cases hc : c = '"'
  · subst hc
    rfl
  · rw [if_neg hc, if_neg (by simpa using hc)]

/-- The quotes in the texts of some items. -/
def quotesOf (xs : List SExpr) : Nat := (xs.map fun x => quotes (writeSexpr x)).sum

theorem quotesOf_append (xs ys : List SExpr) : quotesOf (xs ++ ys) = quotesOf xs + quotesOf ys := by
  unfold quotesOf
  rw [List.map_append, List.sum_append]

theorem quotes_writeRest (xs : List SExpr) : quotes (writeRest xs) = quotesOf xs := by
  induction xs with
  | nil => rfl
  | cons x xs ih =>
      rw [writeRest, quotes_cons, if_neg (by decide), quotes_append, ih, Nat.zero_add]
      unfold quotesOf
      rw [List.map_cons, List.sum_cons]

theorem quotes_writeList (xs : List SExpr) : quotes (writeSexpr (.list xs)) = quotesOf xs := by
  rw [writeSexpr, quotes_cons, if_neg (by decide), quotes_append]
  show 0 + (quotes (writeItems xs) + 0) = _
  cases xs with
  | nil => rfl
  | cons x xs =>
      rw [writeItems, quotes_append, quotes_writeRest]
      unfold quotesOf
      rw [List.map_cons, List.sum_cons]
      omega

-- ── What a successful read keeps ────

/-- What is known of an atom read between two states. -/
structure Read (st : ParserState) (x : SExpr) (st' : ParserState) : Prop where
  single : nodes x = 1
  lexical : Lexical x
  quotes : quotes (writeSexpr x) + quotes st'.rest ≤ quotes st.rest
  fuel : st'.fuel = st.fuel
  length : st'.rest.length + 1 ≤ st.rest.length

/-- What is skipped is a part of the text at its front. -/
theorem skipFrom_suffix : ∀ (cs : List Char) (comment : Bool) (pos : Nat),
    (skipFrom comment cs pos).1 <:+ cs := by
  intro cs
  induction cs with
  | nil => intro comment pos; cases comment <;> exact List.suffix_refl _
  | cons c cs ih =>
      intro comment pos
      have hcons : cs <:+ c :: cs := List.suffix_cons c cs
      cases comment with
      | true => exact (ih _ _).trans hcons
      | false =>
          rw [skipFrom]
          split
          · exact (ih _ _).trans hcons
          · split
            · exact (ih _ _).trans hcons
            · exact List.suffix_refl _

theorem quotes_le_of_suffix {cs ds : List Char} (h : cs <:+ ds) : quotes cs ≤ quotes ds := by
  obtain ⟨pre, rfl⟩ := h
  rw [quotes_append]
  omega

/-- Skipping keeps the fuel and drops characters at the front only. -/
theorem skipWhitespace_spec (st : ParserState) : st.skipWhitespace.fuel = st.fuel ∧
    quotes st.skipWhitespace.rest ≤ quotes st.rest ∧
      st.skipWhitespace.rest.length ≤ st.rest.length := by
  have hsuf := skipFrom_suffix st.rest false st.pos
  exact ⟨rfl, quotes_le_of_suffix hsuf, hsuf.length_le⟩

/-- The text of a signed integer has no quotes. -/
theorem quotes_toString (n : Int) : quotes (toString n).toList = 0 := by
  have hnat : ∀ k : Nat, '"' ∉ (toString k).toList := by
    intro k hk
    rw [Nat.toString_eq_repr, Nat.toList_repr] at hk
    exact absurd (Nat.isDigit_of_mem_toDigits (by decide) (by decide) hk) (by decide)
  unfold quotes
  refine List.count_eq_zero.mpr ?_
  cases n with
  | ofNat k => exact hnat k
  | negSucc k =>
      show '"' ∉ ("-" ++ toString (k + 1)).toList
      rw [String.toList_append, List.mem_append]
      rintro (h | h)
      · exact absurd h (by decide)
      · exact hnat (k + 1) h

/-- Characters taken off the front. -/
theorem takeWhile_append_drop (p : Char → Bool) (cs : List Char) :
    cs.takeWhile p ++ cs.drop (cs.takeWhile p).length = cs := by
  have h := List.takeWhile_append_dropWhile (p := p) (l := cs)
  have hdrop : cs.drop (cs.takeWhile p).length = cs.dropWhile p := by
    have hlen := @List.drop_left _ (cs.takeWhile p) (cs.dropWhile p)
    rwa [h] at hlen
  rw [hdrop, h]

theorem quotes_takeWhile {p : Char → Bool} (hp : p '"' = false) (cs : List Char) :
    quotes (cs.takeWhile p) = 0 := by
  refine List.count_eq_zero.mpr fun hmem => ?_
  have := List.mem_takeWhile_imp hmem
  rw [hp] at this
  exact nomatch this

/-- Reading an atom that is a run of characters without quotes. -/
theorem read_of_takeWhile {p : Char → Bool} (st : ParserState) {a : Atom} (hlex : LexicalAtom a)
    (hquotes : quotes (writeAtom a) = 0) (hne : st.rest.takeWhile p ≠ []) :
    Read st (.atom a) (st.past (st.rest.takeWhile p)) := by
  have hsplit := takeWhile_append_drop p st.rest
  refine ⟨rfl, hlex, ?_, rfl, ?_⟩
  · show quotes (writeSexpr (.atom a)) + quotes (st.rest.drop _) ≤ _
    rw [writeSexpr, hquotes]
    conv_rhs => rw [← hsplit]
    rw [quotes_append]
    omega
  · show (st.rest.drop _).length + 1 ≤ _
    have hpos : 0 < (st.rest.takeWhile p).length := List.length_pos_iff.mpr hne
    have hlen := congrArg List.length hsplit
    rw [List.length_append] at hlen
    omega

theorem isSymbolChar_quote : isSymbolChar '"' = false := by decide

/-- A token starts as the text does, or is shorter. -/
theorem startsNumber_takeWhile {p : Char → Bool} {cs : List Char}
    (h : startsNumber cs = false) : startsNumber (cs.takeWhile p) = false := by
  cases cs with
  | nil => rfl
  | cons c cs =>
      simp only [startsNumber, Bool.or_eq_false_iff, Bool.and_eq_false_iff] at h
      rw [List.takeWhile_cons]
      split
      · simp only [startsNumber, Bool.or_eq_false_iff, Bool.and_eq_false_iff]
        refine ⟨h.1, h.2.imp_right fun hd => ?_⟩
        cases cs with
        | nil => exact hd
        | cons d ds =>
            rw [List.takeWhile_cons]
            split
            · exact hd
            · rfl
      · rfl

theorem parseSymbol_read {st st' : ParserState} {x : SExpr}
    (hstart : startsNumber st.rest = false) (h : parseSymbol st = .ok (x, st')) :
    Read st x st' := by
  unfold parseSymbol at h
  dsimp only at h
  split at h
  · exact nomatch h
  · rename_i hne
    injection h with h
    obtain ⟨rfl, rfl⟩ := Prod.mk.inj h
    refine read_of_takeWhile st ?_ ?_ hne
    · show isSymbolText (String.ofList _).toList = true
      rw [String.toList_ofList]
      unfold isSymbolText
      rw [Bool.and_eq_true, Bool.and_eq_true]
      refine ⟨⟨by simpa using hne, List.all_takeWhile⟩, ?_⟩
      rw [startsNumber_takeWhile hstart]
      rfl
    · show quotes (String.ofList _).toList = 0
      rw [String.toList_ofList]
      exact quotes_takeWhile isSymbolChar_quote _

theorem parseKeyword_read {st st' : ParserState} {x : SExpr}
    (h : parseKeyword st = .ok (x, st')) : Read st x st' := by
  unfold parseKeyword at h
  dsimp only at h
  split at h
  · exact nomatch h
  · rename_i hne
    injection h with h
    obtain ⟨rfl, rfl⟩ := Prod.mk.inj h
    refine read_of_takeWhile st ?_ ?_ hne
    · show isKeywordText (String.ofList _).toList = true
      rw [String.toList_ofList]
      unfold isKeywordText
      rw [Bool.and_eq_true]
      exact ⟨by simpa using hne, List.all_takeWhile⟩
    · show quotes (':' :: (String.ofList _).toList) = 0
      rw [String.toList_ofList, quotes_cons, quotes_takeWhile isSymbolChar_quote]
      rfl

theorem parseInteger_read {st st' : ParserState} {x : SExpr}
    (h : parseInteger st = .ok (x, st')) : Read st x st' := by
  unfold parseInteger at h
  dsimp only at h
  split at h
  · rename_i n hn
    injection h with h
    obtain ⟨rfl, rfl⟩ := Prod.mk.inj h
    refine read_of_takeWhile st trivial (quotes_toString _) fun hnil => ?_
    rw [hnil] at hn
    exact nomatch hn
  · exact nomatch h

theorem parseNumberOrSymbol_read {st st' : ParserState} {x : SExpr}
    (h : parseNumberOrSymbol st = .ok (x, st')) : Read st x st' := by
  unfold parseNumberOrSymbol at h
  split at h
  · rename_i c cs hrest
    split at h
    · exact parseInteger_read h
    · rename_i hc
      refine parseSymbol_read ?_ h
      rw [hrest]
      simpa [startsNumber] using hc
  · rename_i hrest
    refine parseSymbol_read ?_ h
    rw [hrest]
    rfl
  · exact parseInteger_read h

theorem parseBool_read {st st' : ParserState} {x : SExpr}
    (h : parseBool st = .ok (x, st')) : Read st x st' := by
  unfold parseBool at h
  split at h
  · exact nomatch h
  · rename_i c cs hrest
    have hpast : ∀ b : Bool, ∀ d : Char, Read st (.atom (.bool b)) (st.past [d]) := by
      intro b d
      refine ⟨rfl, trivial, ?_, rfl, ?_⟩
      · have hb : quotes (writeSexpr (.atom (.bool b))) = 0 := by cases b <;> rfl
        rw [hb]
        show 0 + quotes (st.rest.drop 1) ≤ _
        have := quotes_le_of_suffix (List.drop_suffix 1 st.rest)
        omega
      · show (st.rest.drop 1).length + 1 ≤ _
        rw [hrest]
        exact Nat.le_refl _
    split at h
    · injection h with h
      obtain ⟨rfl, rfl⟩ := Prod.mk.inj h
      exact hpast true 't'
    · split at h
      · injection h with h
        obtain ⟨rfl, rfl⟩ := Prod.mk.inj h
        exact hpast false 'f'
      · exact nomatch h

/-- The quotes of a character as the serializer writes it. -/
theorem quotes_escapeChar (c : Char) : quotes (escapeChar c) = if c = '"' then 1 else 0 := by
  by_cases hc : c = '"'
  · subst hc
    rfl
  · rw [if_neg hc]
    refine List.count_eq_zero.mpr ?_
    unfold escapeChar
    rw [if_neg hc]
    split
    · decide
    · split
      · decide
      · split
        · decide
        · split
          · decide
          · simpa using Ne.symm hc

/-- The quotes of a string as the serializer writes its characters. -/
theorem quotes_escaped (cs : List Char) : quotes (cs.flatMap escapeChar) = quotes cs := by
  induction cs with
  | nil => rfl
  | cons c cs ih =>
      rw [List.flatMap_cons, quotes_append, ih, quotes_escapeChar, quotes_cons]

/-- An escape stands for a quote only if it is one. -/
theorem unescape_quote {e d : Char} (h : unescape e = some d) :
    (if d = '"' then 1 else 0 : Nat) ≤ if e = '"' then 1 else 0 := by
  unfold unescape at h
  repeat' split at h
  all_goals first
    | (injection h with h; subst h; simp_all)
    | exact nomatch h

/-- The string loop reads its closing quote, and a quote for every quote it returns. -/
theorem stringLoop_spec : ∀ (cs : List Char) (pos : Nat) (s s' rest : List Char) (pos' : Nat),
    stringLoop cs pos s = .ok (s', rest, pos') →
      quotes s' + 1 + quotes rest ≤ quotes s + quotes cs ∧ rest.length + 1 ≤ cs.length := by
  intro cs
  induction cs using List.twoStepInduction with
  | nil => intro pos s s' rest pos' h; exact nomatch h
  | singleton c =>
      intro pos s s' rest pos' h
      rw [stringLoop] at h
      split at h
      · rename_i hc
        simp only [Except.ok.injEq, Prod.mk.injEq] at h
        obtain ⟨rfl, rfl, -⟩ := h
        rw [quotes_cons, if_pos hc]
        exact ⟨by omega, Nat.le_refl _⟩
      · split at h
        · exact nomatch h
        · exact nomatch h
  | cons_cons c e cs ih₂ ih₁ =>
      intro pos s s' rest pos' h
      rw [stringLoop] at h
      split at h
      · rename_i hc
        simp only [Except.ok.injEq, Prod.mk.injEq] at h
        obtain ⟨rfl, rfl, -⟩ := h
        rw [quotes_cons c, if_pos hc]
        exact ⟨by omega, Nat.le_refl _⟩
      · split at h
        · split at h
          · rename_i d hd
            obtain ⟨hq, hlen⟩ := ih₂ _ _ _ _ _ h
            have hle := unescape_quote hd
            rw [quotes_append, quotes_cons d] at hq
            rw [quotes_cons c, quotes_cons e]
            have hnil : quotes [] = 0 := rfl
            exact ⟨by omega, by simp only [List.length_cons]; omega⟩
          · exact nomatch h
        · obtain ⟨hq, hlen⟩ := ih₁ _ _ _ _ _ _ h
          rw [quotes_append, quotes_cons c []] at hq
          rw [quotes_cons c]
          have hnil : quotes [] = 0 := rfl
          exact ⟨by omega, by simp only [List.length_cons] at hlen ⊢; omega⟩

/-- A string literal costs the quotes around it. -/
theorem quotes_writeStr (s : String) : quotes (writeAtom (.str s)) = quotes s.toList + 2 := by
  rw [writeAtom, quotes_cons, quotes_append, quotes_escaped, if_pos rfl]
  show 1 + (quotes s.toList + 1) = _
  omega

theorem parseString_read {st st' : ParserState} {x : SExpr} {cs : List Char}
    (hrest : st.rest = '"' :: cs) (h : parseString (st.past ['"']) = .ok (x, st')) :
    Read st x st' := by
  unfold parseString at h
  split at h
  · exact nomatch h
  · rename_i s rest pos hloop
    injection h with h
    obtain ⟨rfl, rfl⟩ := Prod.mk.inj h
    have hpast : (st.past ['"']).rest = cs := by
      show st.rest.drop 1 = cs
      rw [hrest]
      rfl
    rw [hpast] at hloop
    obtain ⟨hq, hlen⟩ := stringLoop_spec _ _ _ _ _ _ hloop
    refine ⟨rfl, trivial, ?_, rfl, ?_⟩
    · rw [writeSexpr, quotes_writeStr, String.toList_ofList, hrest, quotes_cons, if_pos rfl]
      have hnil : quotes [] = 0 := rfl
      show quotes s + 2 + quotes rest ≤ _
      omega
    · show rest.length + 1 ≤ _
      rw [hrest, List.length_cons]
      omega

/-- Reading from further on in the text. -/
theorem Read.of_past {st st' : ParserState} {x : SExpr} {c : Char}
    (h : Read (st.past [c]) x st') : Read st x st' := by
  refine ⟨h.single, h.lexical, ?_, h.fuel, ?_⟩
  · have hdrop := quotes_le_of_suffix (List.drop_suffix 1 st.rest)
    exact h.quotes.trans hdrop
  · have hlen : (st.past [c]).rest.length ≤ st.rest.length := by
      show (st.rest.drop 1).length ≤ _
      rw [List.length_drop]
      omega
    exact h.length.trans hlen

/-- **What is known of an atom read.** -/
theorem parseAtom_read {st st' : ParserState} {x : SExpr} (h : parseAtom st = .ok (x, st')) :
    Read st x st' := by
  unfold parseAtom at h
  split at h
  · exact nomatch h
  · rename_i c cs hrest
    split at h
    · rename_i hc
      subst hc
      exact parseString_read hrest h
    split at h
    · exact (parseBool_read h).of_past
    split at h
    · exact (parseKeyword_read h).of_past
    split at h
    · exact parseNumberOrSymbol_read h
    · rename_i hnum
      refine parseSymbol_read ?_ h
      rw [hrest]
      simp only [Bool.or_eq_true, decide_eq_true_eq, not_or, Bool.not_eq_true] at hnum
      simp [startsNumber, hnum.1, hnum.2]

/-- What is known of expressions read between two states: they pay one unit of fuel and at
    least one character for every node. -/
structure ReadAll (st : ParserState) (xs : List SExpr) (st' : ParserState) : Prop where
  lexical : LexicalItems xs
  quotes : quotesOf xs + quotes st'.rest ≤ quotes st.rest
  fuel : st'.fuel + nodesOf xs = st.fuel
  length : st'.rest.length + nodesOf xs ≤ st.rest.length

theorem ReadAll.append {st st₁ st' : ParserState} {xs ys : List SExpr} (h : ReadAll st xs st₁)
    (h' : ReadAll st₁ ys st') : ReadAll st (xs ++ ys) st' := by
  refine ⟨?_, ?_, ?_, ?_⟩
  · rw [lexicalItems_iff]
    intro x hx
    rcases List.mem_append.mp hx with hx | hx
    · exact lexicalItems_iff.mp h.lexical x hx
    · exact lexicalItems_iff.mp h'.lexical x hx
  · rw [quotesOf_append]
    have := h.quotes
    have := h'.quotes
    omega
  · rw [nodesOf_append]
    have := h.fuel
    have := h'.fuel
    omega
  · rw [nodesOf_append]
    have := h.length
    have := h'.length
    omega

/-- Skipping white space reads nothing. -/
theorem readAll_skip (st : ParserState) : ReadAll st [] st.skipWhitespace := by
  obtain ⟨hfuel, hquotes, hlen⟩ := skipWhitespace_spec st
  exact ⟨trivial, by simpa [quotesOf] using hquotes, hfuel, hlen⟩

/-- An atom read after paying for it. -/
theorem readAll_of_read {st st' : ParserState} {x : SExpr}
    (h : Read { st with fuel := st.fuel - 1 } x st') (hfuel : st.fuel ≠ 0) :
    ReadAll st [x] st' := by
  refine ⟨⟨h.lexical, trivial⟩, ?_, ?_, ?_⟩
  · have := h.quotes
    simpa [quotesOf] using this
  · have := h.fuel
    dsimp only at this
    rw [nodesOf, nodesOf, h.single]
    omega
  · have := h.length
    rw [nodesOf, nodesOf, h.single]
    exact this

/-- **What is known of an expression read, and of the items of a list.** -/
theorem parse_read : ∀ bound : Nat,
    (∀ st x st', parseExpr bound st = .ok (x, st') → ReadAll st [x] st') ∧
      ∀ st items x st', parseList bound st items = .ok (x, st') →
        ∃ xs, x = .list (items ++ xs) ∧ ReadAll st xs st' ∧
          st'.rest.length + nodesOf xs + 1 ≤ st.rest.length := by
  intro bound
  induction bound with
  | zero => exact ⟨fun st x st' h => (nomatch h), fun st items x st' h => (nomatch h)⟩
  | succ bound ih =>
      refine ⟨fun st x st' h => ?_, fun st items x st' h => ?_⟩
      · rw [parseExpr] at h
        split at h
        · exact nomatch h
        · rename_i hfuel
          dsimp only at h
          generalize hskip : ({ st with fuel := st.fuel - 1 } : ParserState).skipWhitespace = st₁
            at h
          obtain ⟨hf, hq, hl⟩ := skipWhitespace_spec { st with fuel := st.fuel - 1 }
          rw [hskip] at hf hq hl
          dsimp only at hf hq hl
          split at h
          · -- a list: the items pay for themselves, the parentheses for the list
            rename_i hhead
            obtain ⟨xs, rfl, hxs, hlen⟩ := ih.2 _ _ _ _ h
            have hpast : (st₁.past ['(']).rest.length + 1 = st₁.rest.length ∧
                quotes (st₁.past ['(']).rest ≤ quotes st₁.rest := by
              refine ⟨?_, quotes_le_of_suffix (List.drop_suffix 1 st₁.rest)⟩
              show (st₁.rest.drop 1).length + 1 = _
              cases hr : st₁.rest with
              | nil => rw [hr] at hhead; exact nomatch hhead
              | cons c cs => rfl
            have hfuel' : (st₁.past ['(']).fuel = st₁.fuel := rfl
            refine ⟨⟨hxs.lexical, trivial⟩, ?_, ?_, ?_⟩
            · have := hxs.quotes
              rw [List.nil_append, quotesOf, List.map_singleton, List.sum_singleton,
                quotes_writeList]
              omega
            · have := hxs.fuel
              rw [List.nil_append, nodesOf, nodesOf, nodes]
              omega
            · rw [List.nil_append, nodesOf, nodesOf, nodes]
              omega
          · -- an atom costs one unit of fuel and at least one character
            have hread := @readAll_of_read { st₁ with fuel := st₁.fuel + 1 } _ _
              (parseAtom_read h) (by simp)
            refine ⟨hread.lexical, hread.quotes.trans hq, ?_, hread.length.trans hl⟩
            have := hread.fuel
            dsimp only at this
            omega
      · rw [parseList] at h
        obtain ⟨hf, hq, hl⟩ := skipWhitespace_spec st
        split at h
        · exact nomatch h
        · rename_i c cs hrest
          split at h
          · -- the closing parenthesis ends the items
            simp only [Except.ok.injEq, Prod.mk.injEq] at h
            obtain ⟨rfl, rfl⟩ := h
            have hpast : (st.skipWhitespace.past [c]).rest = cs := by
              show st.skipWhitespace.rest.drop 1 = cs
              rw [hrest]
              rfl
            have hquotes : quotes cs ≤ quotes st.rest := by
              rw [hrest] at hq
              exact (quotes_le_of_suffix (List.suffix_cons c cs)).trans hq
            have hlen : cs.length + 1 ≤ st.rest.length := by
              rw [hrest] at hl
              exact hl
            refine ⟨[], by rw [List.append_nil], ⟨trivial, ?_, rfl, ?_⟩, ?_⟩
            · rw [hpast]
              simpa [quotesOf] using hquotes
            · rw [hpast, nodesOf]
              omega
            · rw [hpast, nodesOf]
              omega
          · split at h
            · exact nomatch h
            · rename_i y st₁ hy
              -- one more item, then the rest of the list
              have hread := ih.1 _ _ _ hy
              obtain ⟨xs, rfl, hxs, hlen⟩ := ih.2 _ _ _ _ h
              refine ⟨y :: xs, by simp, ?_, ?_⟩
              · exact (readAll_skip st).append (hread.append hxs)
              · have hlen' := hread.length
                rw [nodesOf, nodesOf] at hlen'
                rw [nodesOf]
                omega

/-- A parsed text is lexically valid. -/
theorem lexical_of_parse {input : String} {x : SExpr} (h : parse input = .ok x) : Lexical x := by
  unfold parse parseWithFuel at h
  dsimp only at h
  split at h
  · exact nomatch h
  · rename_i y st hy
    split at h
    · injection h with h
      rw [← h]
      exact ((parse_read _).1 _ _ _ hy).lexical.1
    · exact nomatch h

/-- **The bound is no limit**: an expression costs a unit of fuel, so a bound of twice the fuel is
    never reached. -/
theorem parse_bound (more : Nat) : ∀ bound : Nat,
    (∀ st : ParserState, 2 * st.fuel + 1 ≤ bound →
      parseExpr (bound + more) st = parseExpr bound st) ∧
    ∀ (st : ParserState) (items : List SExpr), 2 * st.fuel + 2 ≤ bound →
      parseList (bound + more) st items = parseList bound st items := by
  intro bound
  induction bound with
  | zero => exact ⟨fun st h => by omega, fun st items h => by omega⟩
  | succ bound ih =>
      refine ⟨fun st h => ?_, fun st items h => ?_⟩
      · rw [Nat.succ_add, parseExpr, parseExpr]
        by_cases hfuel : st.fuel = 0
        · rw [if_pos hfuel, if_pos hfuel]
        · rw [if_neg hfuel, if_neg hfuel]
          dsimp only
          rw [ih.2 _ [] (by show 2 * (st.fuel - 1) + 2 ≤ bound; omega)]
      · rw [Nat.succ_add, parseList, parseList, ih.1 _ (by show 2 * st.fuel + 1 ≤ bound; omega)]
        split
        · rfl
        · split
          · rfl
          · cases hx : parseExpr bound st.skipWhitespace with
            | error e => rfl
            | ok r =>
                obtain ⟨x, st'⟩ := r
                have hread := ((parse_read bound).1 _ _ _ hx).fuel
                have hone := one_le_nodes x
                rw [nodesOf, nodesOf] at hread
                have hskip : st.skipWhitespace.fuel = st.fuel := rfl
                exact ih.2 _ _ (by omega)

-- ── More fuel ────

/-- A state with more fuel. -/
def ParserState.more (st : ParserState) (k : Nat) : ParserState := { st with fuel := st.fuel + k }

/-- An outcome with more fuel left over. -/
def moreFuel (k : Nat) : Parsed SExpr → Parsed SExpr
  | .error e => .error e
  | .ok (x, st) => .ok (x, st.more k)

theorem parseString_more (st : ParserState) (k : Nat) :
    parseString (st.more k) = moreFuel k (parseString st) := by
  unfold parseString
  rw [show (st.more k).rest = st.rest from rfl, show (st.more k).pos = st.pos from rfl]
  cases stringLoop st.rest st.pos [] with
  | error e => rfl
  | ok r => rfl

theorem parseBool_more (st : ParserState) (k : Nat) :
    parseBool (st.more k) = moreFuel k (parseBool st) := by
  obtain ⟨rest, pos, fuel⟩ := st
  cases rest with
  | nil => rfl
  | cons c cs =>
      show (if c = 't' then _ else if c = 'f' then _ else _) = moreFuel k (if c = 't' then _ else
        if c = 'f' then _ else _)
      rw [apply_ite (moreFuel k), apply_ite (moreFuel k)]
      rfl

theorem parseKeyword_more (st : ParserState) (k : Nat) :
    parseKeyword (st.more k) = moreFuel k (parseKeyword st) := by
  unfold parseKeyword
  dsimp only
  rw [apply_ite (moreFuel k)]
  rfl

theorem parseSymbol_more (st : ParserState) (k : Nat) :
    parseSymbol (st.more k) = moreFuel k (parseSymbol st) := by
  unfold parseSymbol
  dsimp only
  rw [apply_ite (moreFuel k)]
  rfl

theorem parseInteger_more (st : ParserState) (k : Nat) :
    parseInteger (st.more k) = moreFuel k (parseInteger st) := by
  unfold parseInteger
  rw [show (st.more k).rest = st.rest from rfl]
  dsimp only
  cases parseI64 (st.rest.takeWhile isIntegerChar) with
  | none => rfl
  | some n => rfl

theorem parseNumberOrSymbol_more (st : ParserState) (k : Nat) :
    parseNumberOrSymbol (st.more k) = moreFuel k (parseNumberOrSymbol st) := by
  unfold parseNumberOrSymbol
  rw [show (st.more k).rest = st.rest from rfl]
  split
  · rw [apply_ite (moreFuel k), parseInteger_more, parseSymbol_more]
  · exact parseSymbol_more st k
  · exact parseInteger_more st k

/-- Atoms do not look at the fuel. -/
theorem parseAtom_more (st : ParserState) (k : Nat) :
    parseAtom (st.more k) = moreFuel k (parseAtom st) := by
  have hpast : ∀ c : Char, (st.more k).past [c] = (st.past [c]).more k := fun c => rfl
  unfold parseAtom
  rw [show (st.more k).rest = st.rest from rfl]
  split
  · rfl
  · rename_i c cs hrest
    rw [hpast, parseString_more, parseBool_more, parseKeyword_more, parseNumberOrSymbol_more,
      parseSymbol_more]
    split
    · rfl
    split
    · rfl
    split
    · rfl
    split
    · rfl
    · rfl

/-- **A success stands with more fuel and a larger bound**, and leaves the more over. -/
theorem parse_more : ∀ bound : Nat,
    (∀ st x st', parseExpr bound st = .ok (x, st') → ∀ more k,
      parseExpr (bound + more) (st.more k) = .ok (x, st'.more k)) ∧
    ∀ st items x st', parseList bound st items = .ok (x, st') → ∀ more k,
      parseList (bound + more) (st.more k) items = .ok (x, st'.more k) := by
  intro bound
  induction bound with
  | zero => exact ⟨fun st x st' h => (nomatch h), fun st items x st' h => (nomatch h)⟩
  | succ bound ih =>
      refine ⟨fun st x st' h more k => ?_, fun st items x st' h more k => ?_⟩
      · rw [Nat.succ_add, parseExpr]
        rw [parseExpr] at h
        split at h
        · exact nomatch h
        · rename_i hfuel
          have hpay : ({ st.more k with fuel := (st.more k).fuel - 1 } : ParserState)
              = ({ st with fuel := st.fuel - 1 } : ParserState).more k := by
            show ({ rest := st.rest, pos := st.pos, fuel := st.fuel + k - 1 } : ParserState)
              = { rest := st.rest, pos := st.pos, fuel := st.fuel - 1 + k }
            congr 1
            omega
          rw [if_neg (by show st.fuel + k ≠ 0; omega), hpay]
          dsimp only at h ⊢
          rw [show (ParserState.more { st with fuel := st.fuel - 1 } k).skipWhitespace
            = (ParserState.skipWhitespace { st with fuel := st.fuel - 1 }).more k from rfl]
          generalize ParserState.skipWhitespace { st with fuel := st.fuel - 1 } = st₁ at h ⊢
          split at h
          · rename_i hhead
            rw [if_pos (show (st₁.more k).rest.head? = some '(' from hhead)]
            exact ih.2 _ _ _ _ h more k
          · rename_i hhead
            rw [if_neg (show (st₁.more k).rest.head? ≠ some '(' from hhead), parseAtom_more, h]
            rfl
      · rw [Nat.succ_add, parseList]
        rw [parseList] at h
        rw [show (st.more k).skipWhitespace = (st.skipWhitespace).more k from rfl]
        generalize st.skipWhitespace = st₁ at h ⊢
        rw [show (st₁.more k).rest = st₁.rest from rfl]
        split at h
        · exact nomatch h
        · rename_i c cs hrest
          split at h
          · rename_i hc
            simp only [Except.ok.injEq, Prod.mk.injEq] at h
            obtain ⟨rfl, rfl⟩ := h
            rw [if_pos hc]
            rfl
          · rename_i hc
            rw [if_neg hc]
            split at h
            · exact nomatch h
            · rename_i y st₂ hy
              rw [ih.1 _ _ _ hy more k]
              exact ih.2 _ _ _ _ h more k

-- ── Reading back what was written ────

/-- A text that starts with a space or a closing parenthesis, or is empty. -/
def Delimited (cs : List Char) : Prop := ∀ c, cs.head? = some c → c = ' ' ∨ c = ')'

theorem delimited_space (cs : List Char) : Delimited (' ' :: cs) := by
  intro c hc
  injection hc with hc
  exact Or.inl hc.symm

theorem delimited_close (cs : List Char) : Delimited (')' :: cs) := by
  intro c hc
  injection hc with hc
  exact Or.inr hc.symm

/-- A run of characters ends where the text is delimited. -/
theorem takeWhile_delimited {p : Char → Bool} (hspace : p ' ' = false) (hclose : p ')' = false)
    {cs rest : List Char} (hcs : cs.all p = true) (hrest : Delimited rest) :
    (cs ++ rest).takeWhile p = cs := by
  rw [List.takeWhile_append_of_pos (List.all_eq_true.mp hcs)]
  have hnil : rest.takeWhile p = [] := by
    cases rest with
    | nil => rfl
    | cons c rest =>
        have hc : p c = false := by
          rcases hrest c rfl with rfl | rfl
          · exact hspace
          · exact hclose
        rw [List.takeWhile_cons, hc]
        rfl
  rw [hnil, List.append_nil]

theorem past_append (cs rest : List Char) (pos fuel : Nat) :
    ParserState.past ⟨cs ++ rest, pos, fuel⟩ cs = ⟨rest, pos + byteLength cs, fuel⟩ := by
  unfold ParserState.past
  rw [List.drop_left]

theorem parseSymbol_write {cs rest : List Char} (hcs : isSymbolText cs = true)
    (hrest : Delimited rest) (pos fuel : Nat) :
    parseSymbol ⟨cs ++ rest, pos, fuel⟩
      = .ok (.atom (.symbol (String.ofList cs)), ⟨rest, pos + byteLength cs, fuel⟩) := by
  unfold isSymbolText at hcs
  rw [Bool.and_eq_true, Bool.and_eq_true] at hcs
  unfold parseSymbol
  dsimp only
  rw [takeWhile_delimited (by decide) (by decide) hcs.1.2 hrest,
    if_neg (by simpa using hcs.1.1), past_append]

/-- A symbol is read as one whatever its first characters are. -/
theorem parseAtom_symbol {cs rest : List Char} (hcs : isSymbolText cs = true)
    (hrest : Delimited rest) (pos fuel : Nat) :
    parseAtom ⟨cs ++ rest, pos, fuel⟩
      = .ok (.atom (.symbol (String.ofList cs)), ⟨rest, pos + byteLength cs, fuel⟩) := by
  have hwrite := parseSymbol_write hcs hrest pos fuel
  simp only [isSymbolText, Bool.and_eq_true, Bool.not_eq_true'] at hcs
  obtain ⟨⟨hne, hall⟩, hstart⟩ := hcs
  cases cs with
  | nil => exact nomatch hne
  | cons c cs =>
      have hc := List.all_eq_true.mp hall c (List.mem_cons_self ..)
      have hnot : ∀ d : Char, isSymbolChar d = false → c ≠ d := by
        rintro d hd rfl
        rw [hd] at hc
        exact nomatch hc
      simp only [startsNumber, Bool.or_eq_false_iff, Bool.and_eq_false_iff,
        decide_eq_false_iff_not] at hstart
      show parseAtom ⟨c :: (cs ++ rest), pos, fuel⟩ = _
      unfold parseAtom
      dsimp only
      rw [if_neg (hnot '"' (by decide)), if_neg (hnot '#' (by decide)), if_neg (hnot ':' (by decide))]
      split
      · rename_i hnum
        rw [hstart.1, Bool.or_false, decide_eq_true_eq] at hnum
        subst hnum
        -- a minus sign that no digit follows
        unfold parseNumberOrSymbol
        dsimp only
        cases hcs' : cs ++ rest with
        | nil =>
            rw [List.cons_append, hcs'] at hwrite
            exact hwrite
        | cons d ds =>
            have hd : d.isDigit = false := by
              cases cs with
              | nil =>
                  rcases hrest d (by rw [List.nil_append] at hcs'; rw [hcs']; rfl) with rfl | rfl
                  · decide
                  · decide
              | cons e es =>
                  injection hcs' with he _
                  rw [← he]
                  simpa using hstart.2
            rw [List.cons_append, hcs'] at hwrite
            show (if d.isDigit = true then _ else _) = _
            rw [hd]
            exact hwrite
      · exact hwrite

/-- A signed 64-bit integer is in range. -/
theorem toI64_toInt (n : Int64) : toI64 n.toInt = some n := by
  unfold toI64
  rw [if_pos ⟨n.le_toInt, n.toInt_lt⟩, Int64.ofInt_toInt]

/-- The digits of a number spell it. -/
theorem parseDigits_toDigits (k : Nat) : parseDigits (Nat.toDigits 10 k) = some k := by
  unfold parseDigits
  rw [if_pos, Nat.ofDigitChars_ten_toDigits]
  refine ⟨Nat.toDigits_ne_nil, List.all_eq_true.mpr fun c hc => ?_⟩
  exact Nat.isDigit_of_mem_toDigits (by decide) (by decide) hc

/-- The text of an integer: an optional minus sign and digits. -/
theorem toString_cases (n : Int) :
    (∃ k : Nat, n = k ∧ (toString n).toList = Nat.toDigits 10 k) ∨
      ∃ k : Nat, n = -(k : Int) ∧ (toString n).toList = '-' :: Nat.toDigits 10 k := by
  cases n with
  | ofNat k =>
      refine Or.inl ⟨k, rfl, ?_⟩
      show (toString k).toList = _
      rw [Nat.toString_eq_repr, Nat.toList_repr]
  | negSucc k =>
      refine Or.inr ⟨k + 1, rfl, ?_⟩
      show ("-" ++ toString (k + 1)).toList = _
      rw [String.toList_append, Nat.toString_eq_repr, Nat.toList_repr]
      rfl

/-- The digits of a number start with a digit. -/
theorem toDigits_cons (k : Nat) : ∃ c cs, Nat.toDigits 10 k = c :: cs ∧ c.isDigit = true := by
  cases h : Nat.toDigits 10 k with
  | nil => exact absurd h Nat.toDigits_ne_nil
  | cons c cs =>
      refine ⟨c, cs, rfl, ?_⟩
      exact Nat.isDigit_of_mem_toDigits (by decide) (by decide) (h ▸ List.mem_cons_self ..)

theorem parseI64_toString (n : Int64) : parseI64 (toString n.toInt).toList = some n := by
  rcases toString_cases n.toInt with ⟨k, hk, htext⟩ | ⟨k, hk, htext⟩
  · rw [htext]
    obtain ⟨c, cs, hcs, hc⟩ := toDigits_cons k
    have hdigits := parseDigits_toDigits k
    rw [hcs] at hdigits ⊢
    unfold parseI64
    split
    · rename_i heq
      injection heq with heq _
      rw [heq] at hc
      exact absurd hc (by decide)
    · rename_i heq
      injection heq with heq _
      rw [heq] at hc
      exact absurd hc (by decide)
    · rw [hdigits, Option.bind_some, ← hk, toI64_toInt]
  · rw [htext, parseI64, parseDigits_toDigits, Option.bind_some, ← hk, toI64_toInt]

theorem parseInteger_write (n : Int64) {rest : List Char} (hrest : Delimited rest)
    (pos fuel : Nat) :
    parseInteger ⟨(toString n.toInt).toList ++ rest, pos, fuel⟩
      = .ok (.atom (.num n), ⟨rest, pos + byteLength (toString n.toInt).toList, fuel⟩) := by
  have hdigits : ∀ k : Nat, (Nat.toDigits 10 k).all isIntegerChar = true := by
    intro k
    refine List.all_eq_true.mpr fun c hc => ?_
    unfold isIntegerChar
    rw [Nat.isDigit_of_mem_toDigits (by decide) (by decide) hc, Bool.or_true]
  have hall : (toString n.toInt).toList.all isIntegerChar = true := by
    rcases toString_cases n.toInt with ⟨k, -, htext⟩ | ⟨k, -, htext⟩
    · rw [htext]
      exact hdigits k
    · rw [htext, List.all_cons, hdigits k]
      rfl
  unfold parseInteger
  dsimp only
  rw [takeWhile_delimited (by decide) (by decide) hall hrest, parseI64_toString]
  dsimp only
  rw [past_append]

/-- A number is read as one. -/
theorem parseAtom_num (n : Int64) {rest : List Char} (hrest : Delimited rest) (pos fuel : Nat) :
    parseAtom ⟨(toString n.toInt).toList ++ rest, pos, fuel⟩
      = .ok (.atom (.num n), ⟨rest, pos + byteLength (toString n.toInt).toList, fuel⟩) := by
  have hwrite := parseInteger_write n hrest pos fuel
  rw [← hwrite]
  rcases toString_cases n.toInt with ⟨k, -, htext⟩ | ⟨k, -, htext⟩
  · obtain ⟨c, cs, hcs, hc⟩ := toDigits_cons k
    have hnot : ∀ d : Char, d.isDigit = false → c ≠ d := by
      rintro d hd rfl
      rw [hd] at hc
      exact nomatch hc
    rw [htext, hcs]
    show parseAtom ⟨c :: (cs ++ rest), pos, fuel⟩ = _
    unfold parseAtom
    dsimp only
    rw [if_neg (hnot '"' (by decide)), if_neg (hnot '#' (by decide)), if_neg (hnot ':' (by decide)),
      if_pos (by rw [hc, Bool.or_true])]
    unfold parseNumberOrSymbol
    dsimp only
    split
    · rename_i heq
      injection heq with heq _
      exact absurd heq (hnot '-' (by decide))
    · rename_i heq
      injection heq with heq _
      exact absurd heq (hnot '-' (by decide))
    · rfl
  · obtain ⟨c, cs, hcs, hc⟩ := toDigits_cons k
    rw [htext, hcs]
    show parseNumberOrSymbol ⟨'-' :: c :: (cs ++ rest), pos, fuel⟩ = _
    show (if c.isDigit = true then _ else _) = _
    rw [if_pos hc]
    rfl

theorem stringLoop_quote (rest : List Char) (pos : Nat) (s : List Char) :
    stringLoop ('"' :: rest) pos s = .ok (s, rest, pos + 1) := by
  rw [stringLoop.eq_def]
  rfl

theorem stringLoop_escape {e d : Char} (h : unescape e = some d) (rest : List Char) (pos : Nat)
    (s : List Char) :
    stringLoop ('\\' :: e :: rest) pos s = stringLoop rest (pos + 1 + e.utf8Size) (s ++ [d]) := by
  rw [stringLoop.eq_def]
  dsimp only
  rw [if_neg (by decide), if_pos rfl, h]

theorem stringLoop_plain {c : Char} (hquote : c ≠ '"') (hescape : c ≠ '\\') (rest : List Char)
    (pos : Nat) (s : List Char) :
    stringLoop (c :: rest) pos s = stringLoop rest (pos + c.utf8Size) (s ++ [c]) := by
  rw [stringLoop.eq_def]
  dsimp only
  rw [if_neg hquote, if_neg hescape]

/-- The string loop undoes the escapes. -/
theorem stringLoop_write (rest : List Char) : ∀ (cs : List Char) (pos : Nat) (s : List Char),
    ∃ pos', stringLoop (cs.flatMap escapeChar ++ '"' :: rest) pos s = .ok (s ++ cs, rest, pos') := by
  intro cs
  induction cs with
  | nil =>
      intro pos s
      exact ⟨pos + 1, by rw [List.flatMap_nil, List.nil_append, List.append_nil, stringLoop_quote]⟩
  | cons c cs ih =>
      intro pos s
      -- one character: written with an escape, or as it is
      have hstep : ∀ pos' : Nat, ∃ pos'',
          stringLoop (escapeChar c ++ (cs.flatMap escapeChar ++ '"' :: rest)) pos' s
            = stringLoop (cs.flatMap escapeChar ++ '"' :: rest) pos'' (s ++ [c]) := by
        intro pos'
        unfold escapeChar
        repeat' split
        all_goals first
          | (rename_i hc; subst hc; exact ⟨_, stringLoop_escape rfl _ _ _⟩)
          | skip
        rename_i hquote hescape _ _ _
        exact ⟨_, stringLoop_plain hquote hescape _ _ _⟩
      rw [List.flatMap_cons, List.append_assoc]
      obtain ⟨pos₁, hpos₁⟩ := hstep pos
      obtain ⟨pos₂, hpos₂⟩ := ih pos₁ (s ++ [c])
      refine ⟨pos₂, ?_⟩
      rw [hpos₁, hpos₂, List.append_assoc]
      rfl

/-- **A lexically valid atom is read back.** -/
theorem parseAtom_write {a : Atom} (ha : LexicalAtom a) {rest : List Char}
    (hrest : Delimited rest) (pos fuel : Nat) :
    ∃ pos', parseAtom ⟨writeAtom a ++ rest, pos, fuel⟩ = .ok (.atom a, ⟨rest, pos', fuel⟩) := by
  cases a with
  | symbol s =>
      have hread := @parseAtom_symbol s.toList _ ha hrest pos fuel
      rw [String.ofList_toList] at hread
      exact ⟨_, hread⟩
  | num n => exact ⟨_, parseAtom_num n hrest pos fuel⟩
  | bool b => cases b <;> exact ⟨_, rfl⟩
  | str s =>
      obtain ⟨pos', hloop⟩ := stringLoop_write rest s.toList (pos + byteLength ['"']) []
      refine ⟨pos', ?_⟩
      show parseString ⟨(s.toList.flatMap escapeChar ++ ['"']) ++ rest, _, fuel⟩ = _
      unfold parseString
      dsimp only
      rw [List.append_assoc, List.singleton_append, hloop, List.nil_append]
      dsimp only
      rw [String.ofList_toList]
  | keyword k =>
      have hk : isKeywordText k.toList = true := ha
      unfold isKeywordText at hk
      rw [Bool.and_eq_true] at hk
      refine ⟨pos + byteLength [':'] + byteLength k.toList, ?_⟩
      show parseKeyword ⟨k.toList ++ rest, pos + byteLength [':'], fuel⟩ = _
      unfold parseKeyword
      dsimp only
      rw [takeWhile_delimited (by decide) (by decide) hk.2 hrest, if_neg (by simpa using hk.1),
        past_append, String.ofList_toList]

/-- A character that is neither skipped nor a closing parenthesis. -/
def Solid (c : Char) : Prop := isAsciiWhitespace c = false ∧ c ≠ ';' ∧ c ≠ ')'

theorem solid_of_symbolChar {c : Char} (h : isSymbolChar c = true) : Solid c := by
  have hnot : ∀ d : Char, isSymbolChar d = false → c ≠ d := by
    rintro d hd rfl
    rw [hd] at h
    exact nomatch h
  refine ⟨?_, hnot ';' (by decide), hnot ')' (by decide)⟩
  unfold isAsciiWhitespace
  simp [hnot ' ' (by decide), hnot '\t' (by decide), hnot '\n' (by decide),
    hnot '\x0c' (by decide), hnot '\r' (by decide)]

/-- The text of an atom starts with a solid character that opens no list. -/
theorem writeAtom_head {a : Atom} (ha : LexicalAtom a) :
    ∃ c cs, writeAtom a = c :: cs ∧ Solid c ∧ c ≠ '(' := by
  cases a with
  | symbol s =>
      simp only [LexicalAtom, isSymbolText, Bool.and_eq_true, Bool.not_eq_true'] at ha
      rw [writeAtom]
      cases hs : s.toList with
      | nil => rw [hs] at ha; exact nomatch ha.1.1
      | cons c cs =>
          have hc : isSymbolChar c = true :=
            List.all_eq_true.mp ha.1.2 c (by rw [hs]; exact List.mem_cons_self ..)
          refine ⟨c, cs, rfl, solid_of_symbolChar hc, ?_⟩
          rintro rfl
          exact absurd hc (by decide)
  | str s => exact ⟨_, _, rfl, ⟨by decide, by decide, by decide⟩, by decide⟩
  | bool b => cases b <;> exact ⟨_, _, rfl, ⟨by decide, by decide, by decide⟩, by decide⟩
  | keyword k => exact ⟨_, _, rfl, ⟨by decide, by decide, by decide⟩, by decide⟩
  | num n =>
      have hdigit : ∀ c : Char, c.isDigit = true → Solid c ∧ c ≠ '(' := by
        intro c hc
        refine ⟨solid_of_symbolChar ?_, ?_⟩
        · unfold isSymbolChar Char.isAlphanum
          rw [hc]
          simp
        · rintro rfl
          exact absurd hc (by decide)
      rw [writeAtom]
      rcases toString_cases n.toInt with ⟨k, -, htext⟩ | ⟨k, -, htext⟩
      · obtain ⟨c, cs, hcs, hc⟩ := toDigits_cons k
        exact ⟨c, cs, htext.trans hcs, hdigit c hc⟩
      · exact ⟨_, _, htext, ⟨by decide, by decide, by decide⟩, by decide⟩

theorem writeSexpr_head {x : SExpr} (hx : Lexical x) : ∃ c cs, writeSexpr x = c :: cs ∧ Solid c := by
  cases x with
  | list items => exact ⟨_, _, by rw [writeSexpr], by decide, by decide, by decide⟩
  | atom a =>
      obtain ⟨c, cs, hcs, hc, -⟩ := writeAtom_head hx
      exact ⟨c, cs, by rw [writeSexpr, hcs], hc⟩

/-- Nothing is skipped in front of a solid character. -/
theorem skipWhitespace_solid {c : Char} (hc : Solid c) (cs : List Char) (pos fuel : Nat) :
    ParserState.skipWhitespace ⟨c :: cs, pos, fuel⟩ = ⟨c :: cs, pos, fuel⟩ := by
  have hskip : skipFrom false (c :: cs) pos = (c :: cs, pos) := by
    rw [skipFrom, if_neg (by rw [hc.1]; exact Bool.false_ne_true), if_neg hc.2.1]
  unfold ParserState.skipWhitespace
  dsimp only
  rw [hskip]

theorem skipWhitespace_space (cs : List Char) (pos fuel : Nat) :
    ParserState.skipWhitespace ⟨' ' :: cs, pos, fuel⟩
      = ParserState.skipWhitespace ⟨cs, pos + 1, fuel⟩ := rfl

theorem skipWhitespace_write {x : SExpr} (hx : Lexical x) (rest : List Char) (pos fuel : Nat) :
    ParserState.skipWhitespace ⟨writeSexpr x ++ rest, pos, fuel⟩
      = ⟨writeSexpr x ++ rest, pos, fuel⟩ := by
  obtain ⟨c, cs, hcs, hc⟩ := writeSexpr_head hx
  rw [hcs]
  exact skipWhitespace_solid hc _ pos fuel

/-- A space or nothing. -/
def Blank (sp : List Char) : Prop := sp = [] ∨ sp = [' ']

/-- The text of items with a given text in front of the first. -/
def writeAfter (sp : List Char) : List SExpr → List Char
  | [] => []
  | x :: xs => sp ++ (writeSexpr x ++ writeRest xs)

theorem writeItems_eq (xs : List SExpr) : writeItems xs = writeAfter [] xs := by
  cases xs with
  | nil => rfl
  | cons x xs => rfl

theorem writeRest_eq (xs : List SExpr) : writeRest xs = writeAfter [' '] xs := by
  cases xs with
  | nil => rfl
  | cons x xs => rfl

/-- What follows an item is delimited. -/
theorem delimited_writeRest (xs : List SExpr) (rest : List Char) :
    Delimited (writeRest xs ++ ')' :: rest) := by
  cases xs with
  | nil => exact delimited_close rest
  | cons x xs => exact delimited_space _

/-- One round of the list loop in front of a solid character. -/
theorem parseList_solid {c : Char} (hc : Solid c) {sp : List Char} (hsp : Blank sp)
    (cs : List Char) (bound pos fuel : Nat) (items : List SExpr) :
    ∃ pos', parseList (bound + 1) ⟨sp ++ c :: cs, pos, fuel⟩ items
      = match parseExpr bound ⟨c :: cs, pos', fuel⟩ with
        | .error e => .error e
        | .ok (x, st) => parseList bound st (items ++ [x]) := by
  have hskip : ∃ pos', ParserState.skipWhitespace ⟨sp ++ c :: cs, pos, fuel⟩
      = ⟨c :: cs, pos', fuel⟩ := by
    rcases hsp with rfl | rfl
    · exact ⟨pos, skipWhitespace_solid hc cs pos fuel⟩
    · refine ⟨pos + 1, ?_⟩
      rw [List.singleton_append, skipWhitespace_space, skipWhitespace_solid hc]
  obtain ⟨pos', hskip⟩ := hskip
  refine ⟨pos', ?_⟩
  rw [parseList, hskip]
  exact if_neg hc.2.2

/-- One round of the list loop over a written item. -/
theorem parseList_item {x : SExpr} (hx : Lexical x) {sp : List Char} (hsp : Blank sp)
    (rest : List Char) (bound pos fuel : Nat) (items : List SExpr) :
    ∃ pos', parseList (bound + 1) ⟨sp ++ (writeSexpr x ++ rest), pos, fuel⟩ items
      = match parseExpr bound ⟨writeSexpr x ++ rest, pos', fuel⟩ with
        | .error e => .error e
        | .ok (x, st) => parseList bound st (items ++ [x]) := by
  obtain ⟨c, cs, hcs, hc⟩ := writeSexpr_head hx
  rw [hcs]
  exact parseList_solid hc hsp _ bound pos fuel items

mutual
/-- **A lexically valid S-expression is read back**, whatever delimited text follows it. -/
theorem parseExpr_write : ∀ (x : SExpr), Lexical x → ∀ {rest : List Char}, Delimited rest →
    ∀ (bound pos fuel : Nat), 2 * nodes x ≤ bound → nodes x ≤ fuel →
      ∃ pos', parseExpr bound ⟨writeSexpr x ++ rest, pos, fuel⟩
        = .ok (x, ⟨rest, pos', fuel - nodes x⟩)
  | .atom a, hx, rest, hrest, bound, pos, fuel, hbound, hfuel => by
      rw [nodes] at hbound hfuel
      obtain ⟨bound, rfl⟩ : ∃ b, bound = b + 1 := ⟨bound - 1, by omega⟩
      obtain ⟨c, cs, hcs, -, hopen⟩ := writeAtom_head hx
      obtain ⟨pos', hatom⟩ := parseAtom_write hx hrest pos (fuel - 1)
      refine ⟨pos', ?_⟩
      rw [parseExpr, if_neg (show ¬ fuel = 0 by omega)]
      dsimp only
      rw [skipWhitespace_write (x := .atom a) hx, if_neg]
      · rw [writeSexpr, hatom, nodes]
      · rw [writeSexpr, hcs]
        simpa using hopen
  | .list items, hx, rest, hrest, bound, pos, fuel, hbound, hfuel => by
      rw [nodes] at hbound hfuel
      obtain ⟨bound, rfl⟩ : ∃ b, bound = b + 1 := ⟨bound - 1, by omega⟩
      rw [parseExpr, if_neg (show ¬ fuel = 0 by omega)]
      dsimp only
      rw [skipWhitespace_write (x := .list items) hx, if_pos (by rw [writeSexpr]; rfl)]
      have htext : ParserState.past ⟨writeSexpr (.list items) ++ rest, pos, fuel - 1⟩ ['(']
          = ⟨writeItems items ++ ')' :: rest, pos + byteLength ['('], fuel - 1⟩ := by
        rw [writeSexpr, List.cons_append, List.append_assoc]
        rfl
      rw [htext]
      obtain ⟨pos', hread⟩ := parseList_write items hx [] (Or.inl rfl) rest [] bound
        (pos + byteLength ['(']) (fuel - 1) (by omega) (by omega)
      refine ⟨pos', ?_⟩
      rw [writeItems_eq, hread, nodes, List.nil_append, Nat.sub_sub]
/-- Written items are read back, up to the closing parenthesis. -/
theorem parseList_write : ∀ (xs : List SExpr), LexicalItems xs → ∀ (sp : List Char), Blank sp →
    ∀ (rest : List Char) (items : List SExpr) (bound pos fuel : Nat),
      2 * nodesOf xs + 1 ≤ bound → nodesOf xs ≤ fuel →
        ∃ pos', parseList bound ⟨writeAfter sp xs ++ ')' :: rest, pos, fuel⟩ items
          = .ok (.list (items ++ xs), ⟨rest, pos', fuel - nodesOf xs⟩)
  | [], _, sp, _, rest, items, bound, pos, fuel, hbound, hfuel => by
      rw [nodesOf] at hbound
      obtain ⟨bound, rfl⟩ : ∃ b, bound = b + 1 := ⟨bound - 1, by omega⟩
      exact ⟨_, by rw [parseList, nodesOf, List.append_nil]; rfl⟩
  | x :: xs, hxs, sp, hsp, rest, items, bound, pos, fuel, hbound, hfuel => by
      obtain ⟨hx, hxs⟩ := hxs
      rw [nodesOf] at hbound hfuel
      have hnodes := one_le_nodes x
      obtain ⟨bound, rfl⟩ : ∃ b, bound = b + 1 := ⟨bound - 1, by omega⟩
      obtain ⟨pos₁, hitem⟩ := parseList_item hx hsp (writeRest xs ++ ')' :: rest) bound pos fuel items
      obtain ⟨pos₂, hexpr⟩ := parseExpr_write x hx (delimited_writeRest xs rest) bound pos₁ fuel
        (by omega) (by omega)
      obtain ⟨pos₃, hrest⟩ := parseList_write xs hxs [' '] (Or.inr rfl) rest (items ++ [x]) bound pos₂
        (fuel - nodes x) (by omega) (by omega)
      refine ⟨pos₃, ?_⟩
      rw [writeAfter, List.append_assoc, List.append_assoc, hitem, hexpr]
      dsimp only
      rw [writeRest_eq, hrest, nodesOf, List.append_assoc, Nat.sub_sub]
      rfl
end

theorem delimited_nil : Delimited [] := fun _ hc => nomatch hc

/-- A text has a character for every node. -/
theorem nodes_le_length {x : SExpr} (hx : Lexical x) : nodes x ≤ (writeSexpr x).length := by
  obtain ⟨pos', hread⟩ := parseExpr_write x hx delimited_nil (2 * nodes x) 0 (nodes x)
    (Nat.le_refl _) (Nat.le_refl _)
  have hlen := ((parse_read _).1 _ _ _ hread).length
  rw [nodesOf, nodesOf, List.append_nil] at hlen
  dsimp only at hlen
  rw [List.length_nil] at hlen
  omega

theorem length_le_byteLength (cs : List Char) : cs.length ≤ (String.ofList cs).utf8ByteSize := by
  induction cs with
  | nil => exact Nat.zero_le _
  | cons c cs ih =>
      rw [String.ofList_cons, String.utf8ByteSize_append, String.utf8ByteSize_singleton]
      have := c.utf8Size_pos
      simp only [List.length_cons]
      omega

/-- **Parsing undoes serialization** of lexically valid S-expressions. -/
theorem parse_serialize {x : SExpr} (hx : Lexical x) : parse (serialize x) = .ok x := by
  have hnodes := nodes_le_length hx
  have hbytes := length_le_byteLength (writeSexpr x)
  unfold parse parseWithFuel serialize
  dsimp only
  rw [Option.getD_none, String.toList_ofList]
  generalize hfuel : max (String.ofList (writeSexpr x)).utf8ByteSize 1 = fuel
  have hskip := skipWhitespace_write hx [] 0 fuel
  rw [List.append_nil] at hskip
  obtain ⟨pos', hread⟩ := parseExpr_write x hx delimited_nil (2 * fuel + 2) 0 fuel
    (by omega) (by omega)
  rw [List.append_nil] at hread
  rw [hskip, hread]
  rfl

/-- An expression read off a written one is that one. -/
theorem eq_of_parseExpr_write {x y : SExpr} (hx : Lexical x) {rest : List Char}
    (hrest : Delimited rest) {bound pos fuel : Nat} {st' : ParserState}
    (h : parseExpr bound ⟨writeSexpr x ++ rest, pos, fuel⟩ = .ok (y, st')) :
    y = x ∧ st'.rest = rest := by
  have hmore := (parse_more bound).1 _ _ _ h (2 * nodes x) (nodes x)
  obtain ⟨pos', hread⟩ := parseExpr_write x hx hrest (bound + 2 * nodes x) pos (fuel + nodes x)
    (by omega) (by omega)
  have heq := hmore.symm.trans hread
  simp only [Except.ok.injEq, Prod.mk.injEq] at heq
  exact ⟨heq.1, congrArg ParserState.rest heq.2⟩

/-- **Written items at the front of a list are read as they are**, whatever follows them. -/
theorem parseList_of_write : ∀ (pre : List SExpr), LexicalItems pre → ∀ {sp : List Char}, Blank sp →
    ∀ {rest : List Char}, Delimited rest → ∀ {bound pos fuel : Nat} {items : List SExpr} {y : SExpr}
      {st' : ParserState}, pre ≠ [] →
        parseList bound ⟨writeAfter sp pre ++ rest, pos, fuel⟩ items = .ok (y, st') →
          ∃ bound' pos' fuel', parseList bound' ⟨rest, pos', fuel'⟩ (items ++ pre) = .ok (y, st') := by
  intro pre
  induction pre with
  | nil => intro _ _ _ _ _ _ _ _ _ _ _ hne _; exact absurd rfl hne
  | cons x pre ih =>
      intro hpre sp hsp rest hrest bound pos fuel items y st' _ h
      obtain ⟨hx, hpre⟩ := hpre
      cases bound with
      | zero => cases h
      | succ bound =>
          have hdel : Delimited (writeRest pre ++ rest) := by
            cases pre with
            | nil => exact hrest
            | cons x pre => exact delimited_space _
          obtain ⟨pos', hitem⟩ := parseList_item hx hsp (writeRest pre ++ rest) bound pos fuel items
          rw [writeAfter, List.append_assoc, List.append_assoc, hitem] at h
          split at h
          · cases h
          · rename_i z st hz
            obtain ⟨hzx, hst⟩ := eq_of_parseExpr_write hx hdel hz
            subst hzx
            obtain ⟨strest, stpos, stfuel⟩ := st
            dsimp only at hst
            subst hst
            cases pre with
            | nil => exact ⟨_, _, _, h⟩
            | cons x pre =>
                rw [writeRest_eq] at h
                obtain ⟨bound', pos', fuel', hdone⟩ := ih hpre (Or.inr rfl) hrest (by simp) h
                refine ⟨bound', pos', fuel', ?_⟩
                rw [List.append_assoc] at hdone
                exact hdone

theorem solid_open : Solid '(' := ⟨by decide, by decide, by decide⟩

/-- An opening parenthesis starts a list. -/
theorem parseList_of_open {bound pos fuel : Nat} {cs : List Char} {x : SExpr} {st' : ParserState}
    (h : parseExpr bound ⟨'(' :: cs, pos, fuel⟩ = .ok (x, st')) :
    ∃ bound' pos' fuel', parseList bound' ⟨cs, pos', fuel'⟩ [] = .ok (x, st') := by
  cases bound with
  | zero => exact nomatch h
  | succ bound =>
      rw [parseExpr] at h
      split at h
      · exact nomatch h
      · dsimp only at h
        rw [skipWhitespace_solid solid_open] at h
        exact ⟨_, _, _, h⟩

/-- A list that ends with an item has a space and the item at its end. -/
theorem writeItems_snoc (x : SExpr) : ∀ {xs : List SExpr}, xs ≠ [] →
    writeItems (xs ++ [x]) = writeItems xs ++ ' ' :: writeSexpr x := by
  have hrest : ∀ xs, writeRest (xs ++ [x]) = writeRest xs ++ ' ' :: writeSexpr x := by
    intro xs
    induction xs with
    | nil => rw [List.nil_append, writeRest, writeRest, writeRest, List.append_nil, List.nil_append]
    | cons y ys ih => rw [List.cons_append, writeRest, writeRest, ih, List.cons_append, List.append_assoc]
  intro xs hne
  cases xs with
  | nil => exact absurd rfl hne
  | cons y ys => rw [List.cons_append, writeItems, writeItems, hrest, List.append_assoc]

/-- **A list whose items are written, but for its last one**: what is read of it starts with
    the items, and the rest is read from the text of the last one on. -/
theorem parseList_of_last {pre : List SExpr} (hpre : LexicalItems pre) (hne : pre ≠ []) {v : SExpr}
    {rest : List Char} {bound pos fuel : Nat} {x : SExpr} {st' : ParserState}
    (h : parseExpr bound ⟨writeSexpr (.list (pre ++ [v])) ++ rest, pos, fuel⟩ = .ok (x, st')) :
    ∃ bound' pos' fuel',
      parseList bound' ⟨' ' :: (writeSexpr v ++ ')' :: rest), pos', fuel'⟩ pre = .ok (x, st') := by
  rw [writeSexpr, writeItems_snoc v hne, writeItems_eq] at h
  simp only [List.cons_append, List.append_assoc] at h
  obtain ⟨bound₁, pos₁, fuel₁, h⟩ := parseList_of_open h
  obtain ⟨bound₂, pos₂, fuel₂, h⟩ :=
    parseList_of_write pre hpre (Or.inl rfl) (delimited_space _) hne h
  exact ⟨bound₂, pos₂, fuel₂, h⟩

/-- **The parser inverts the serializer on its image**: what was read from a text is read back
    from its serialization, and so is every S-expression whose symbols and keywords are lexically
    valid, whatever its strings and numbers. -/
theorem parse_serialize_inverse :
    (∀ (input : String) (x : SExpr), parse input = .ok x → parse (serialize x) = .ok x) ∧
      ∀ x : SExpr, Lexical x → parse (serialize x) = .ok x :=
  ⟨fun _ _ h => parse_serialize (lexical_of_parse h), fun _ h => parse_serialize h⟩

end CbclText
