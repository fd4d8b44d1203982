import Cbcl.TextProofs

/-!
# The fuel of the parser

Every expression the parser enters costs a unit of fuel, also one that fails.  An expression is
entered where a character is left, and takes one at least, so the characters that are left bound the
fuel that is still to be spent.  Only the first expression is entered in any case: on the empty text
it costs a unit and there is no character.
-/

namespace CbclText

open CbclMessage

/-- An outcome of a parser that has run out of fuel. -/
def Exhausted {α : Type} : Except ParseError α → Prop
  | .error (.fuelExhausted _) => True
  | _ => False

theorem exhausted_error {α β : Type} (e : ParseError) :
    Exhausted (.error e : Except ParseError α) ↔ Exhausted (.error e : Except ParseError β) := by
  cases e <;> exact Iff.rfl

theorem exists_of_exhausted {α : Type} {r : Except ParseError α} (h : Exhausted r) :
    ∃ offset, r = .error (.fuelExhausted offset) := by
  cases r with
  | ok a => exact False.elim h
  | error e =>
      cases e with
      | fuelExhausted offset => exact ⟨offset, rfl⟩
      | _ => exact False.elim h

mutual
/-- How often expressions are entered while `parseExpr` runs. -/
def exprEntries : Nat → ParserState → Nat
  | 0, _ => 0
  | bound + 1, st =>
      if st.fuel = 0 then 1
      else
        let st := { st with fuel := st.fuel - 1 }.skipWhitespace
        if st.rest.head? = some '(' then 1 + listEntries bound (st.past ['(']) []
        else 1
/-- How often expressions are entered while `parseList` runs. -/
def listEntries : Nat → ParserState → List SExpr → Nat
  | 0, _, _ => 0
  | bound + 1, st, items =>
      let st := st.skipWhitespace
      match st.rest with
      | [] => 0
      | c :: _ =>
          if c = ')' then 0
          else match parseExpr bound st with
            | .error _ => exprEntries bound st
            | .ok (x, st') => exprEntries bound st + listEntries bound st' (items ++ [x])
end

/-- How often expressions are entered while a text is parsed with the default fuel. -/
def entries (input : String) : Nat :=
  let fuel := max input.utf8ByteSize 1
  exprEntries (2 * fuel + 2) (ParserState.skipWhitespace ⟨input.toList, 0, fuel⟩)

-- ── Atoms cost no fuel ────

theorem stringLoop_not_exhausted (cs : List Char) (pos : Nat) (s : List Char) :
    ¬ Exhausted (stringLoop cs pos s) := by
  fun_induction stringLoop cs pos s <;> first | exact id | assumption

theorem parseAtom_not_exhausted (st : ParserState) : ¬ Exhausted (parseAtom st) := by
  have hsymbol : ∀ st : ParserState, ¬ Exhausted (parseSymbol st) := fun st => by
    unfold parseSymbol
    dsimp only
    split
    · exact id
    · exact id
  have hinteger : ∀ st : ParserState, ¬ Exhausted (parseInteger st) := fun st => by
    unfold parseInteger
    dsimp only
    split
    · exact id
    · exact id
  unfold parseAtom
  split
  · exact id
  · split
    · unfold parseString
      have hloop := stringLoop_not_exhausted (st.past ['"']).rest (st.past ['"']).pos []
      rename_i c _ _ hc
      subst hc
      cases hs : stringLoop (st.past ['"']).rest (st.past ['"']).pos [] with
      | error e =>
          rw [hs] at hloop
          exact fun h => hloop ((exhausted_error e).mp h)
      | ok r => exact id
    split
    · unfold parseBool
      split
      · exact id
      · split
        · exact id
        · split
          · exact id
          · exact id
    split
    · unfold parseKeyword
      dsimp only
      split
      · exact id
      · exact id
    split
    · unfold parseNumberOrSymbol
      split
      · split
        · exact hinteger st
        · exact hsymbol st
      · exact hsymbol st
      · exact hinteger st
    · exact hsymbol st

-- ── More fuel ────

/-- **What is decided stands with more fuel and a larger bound**, a failure as well as a success. -/
theorem parse_settled : ∀ bound : Nat,
    (∀ st, ¬ Exhausted (parseExpr bound st) → ∀ more k,
      parseExpr (bound + more) (st.more k) = moreFuel k (parseExpr bound st)) ∧
    ∀ st items, ¬ Exhausted (parseList bound st items) → ∀ more k,
      parseList (bound + more) (st.more k) items = moreFuel k (parseList bound st items) := by
  intro bound
  induction bound with
  | zero => exact ⟨fun st h => absurd trivial h, fun st items h => absurd trivial h⟩
  | succ bound ih =>
      refine ⟨fun st h more k => ?_, fun st items h more k => ?_⟩
      · rw [Nat.succ_add, parseExpr, parseExpr]
        rw [parseExpr] at h
        by_cases hfuel : st.fuel = 0
        · rw [if_pos hfuel] at h
          exact absurd trivial h
        · have hpay : ({ st.more k with fuel := (st.more k).fuel - 1 } : ParserState)
              = ({ st with fuel := st.fuel - 1 } : ParserState).more k := by
            show ({ rest := st.rest, pos := st.pos, fuel := st.fuel + k - 1 } : ParserState)
              = { rest := st.rest, pos := st.pos, fuel := st.fuel - 1 + k }
            congr 1
            omega
          rw [if_neg hfuel] at h
          rw [if_neg (by show st.fuel + k ≠ 0; omega), if_neg hfuel, hpay]
          dsimp only at h ⊢
          rw [show (ParserState.more { st with fuel := st.fuel - 1 } k).skipWhitespace
            = (ParserState.skipWhitespace { st with fuel := st.fuel - 1 }).more k from rfl]
          generalize ParserState.skipWhitespace { st with fuel := st.fuel - 1 } = st₁ at h ⊢
          by_cases hhead : st₁.rest.head? = some '('
          · rw [if_pos hhead] at h
            rw [if_pos (show (st₁.more k).rest.head? = some '(' from hhead), if_pos hhead]
            exact ih.2 _ _ h more k
          · rw [if_neg (show (st₁.more k).rest.head? ≠ some '(' from hhead), if_neg hhead]
            exact parseAtom_more st₁ k
      · rw [Nat.succ_add, parseList, parseList]
        rw [parseList] at h
        rw [show (st.more k).skipWhitespace = (st.skipWhitespace).more k from rfl]
        generalize st.skipWhitespace = st₁ at h ⊢
        rw [show (st₁.more k).rest = st₁.rest from rfl]
        cases hrest : st₁.rest with
        | nil => rfl
        | cons c cs =>
            rw [hrest] at h
            dsimp only at h ⊢
            by_cases hc : c = ')'
            · rw [if_pos hc, if_pos hc]
              rfl
            · rw [if_neg hc] at h
              rw [if_neg hc, if_neg hc]
              cases hx : parseExpr bound st₁ with
              | error e =>
                  rw [hx] at h
                  have hsettled : ¬ Exhausted (parseExpr bound st₁) := by
                    rw [hx]
                    exact h
                  rw [ih.1 st₁ hsettled more k, hx]
                  rfl
              | ok r =>
                  obtain ⟨x, st₂⟩ := r
                  rw [hx] at h
                  have hsettled : ¬ Exhausted (parseExpr bound st₁) := by
                    rw [hx]
                    exact id
                  rw [ih.1 st₁ hsettled more k, hx]
                  exact ih.2 _ _ h more k

-- ── The fuel that is spent ────

/-- **As much fuel as there are characters is enough**, if it is not nothing. -/
theorem parse_enough : ∀ bound : Nat,
    (∀ st : ParserState, st.fuel ≠ 0 → st.rest.length ≤ st.fuel → 2 * st.fuel + 1 ≤ bound →
      ¬ Exhausted (parseExpr bound st)) ∧
    ∀ (st : ParserState) (items : List SExpr), st.rest.length ≤ st.fuel → 2 * st.fuel + 2 ≤ bound →
      ¬ Exhausted (parseList bound st items) := by
  intro bound
  induction bound with
  | zero => exact ⟨fun st _ _ h => by omega, fun st items _ h => by omega⟩
  | succ bound ih =>
      refine ⟨fun st hfuel hlen h => ?_, fun st items hlen h => ?_⟩
      · rw [parseExpr, if_neg hfuel]
        dsimp only
        obtain ⟨-, -, hskip⟩ := skipWhitespace_spec { st with fuel := st.fuel - 1 }
        have hpaid : (ParserState.skipWhitespace { st with fuel := st.fuel - 1 }).fuel
          = st.fuel - 1 := rfl
        generalize ParserState.skipWhitespace { st with fuel := st.fuel - 1 } = st₁ at hskip hpaid ⊢
        split
        · refine ih.2 _ _ ?_ ?_
          · show (st₁.rest.drop 1).length ≤ st₁.fuel
            rw [List.length_drop]
            simp only at hskip
            omega
          · show 2 * st₁.fuel + 2 ≤ bound
            omega
        · exact parseAtom_not_exhausted st₁
      · rw [parseList]
        obtain ⟨-, -, hskip⟩ := skipWhitespace_spec st
        have hsame : st.skipWhitespace.fuel = st.fuel := rfl
        generalize st.skipWhitespace = st₁ at hskip hsame ⊢
        cases hrest : st₁.rest with
        | nil => exact id
        | cons c cs =>
            have hone : 1 ≤ st₁.rest.length := by rw [hrest]; exact Nat.succ_pos _
            have hlen₁ : st₁.rest.length ≤ st₁.fuel := by
              omega
            dsimp only
            split
            · exact id
            · have hsettled := ih.1 st₁ (by omega) hlen₁ (by omega)
              cases hx : parseExpr bound st₁ with
              | error e =>
                  rw [hx] at hsettled
                  exact hsettled
              | ok r =>
                  obtain ⟨x, st₂⟩ := r
                  -- what was read took as many characters as fuel, or more
                  have hread := (parse_read bound).1 _ _ _ hx
                  have hfuel := hread.fuel
                  have hlength := hread.length
                  have hnodes := one_le_nodes x
                  rw [nodesOf, nodesOf] at hfuel hlength
                  exact ih.2 st₂ _ (by omega) (by omega)

/-- A parser that succeeds has spent a unit for every expression it entered. -/
theorem entries_spent : ∀ bound : Nat,
    (∀ st x st', parseExpr bound st = .ok (x, st') → exprEntries bound st + st'.fuel = st.fuel) ∧
    ∀ st items x st', parseList bound st items = .ok (x, st') →
      listEntries bound st items + st'.fuel = st.fuel := by
  intro bound
  induction bound with
  | zero => exact ⟨fun st x st' h => (nomatch h), fun st items x st' h => (nomatch h)⟩
  | succ bound ih =>
      refine ⟨fun st x st' h => ?_, fun st items x st' h => ?_⟩
      · rw [parseExpr] at h
        rw [exprEntries]
        by_cases hfuel : st.fuel = 0
        · rw [if_pos hfuel] at h
          exact nomatch h
        · rw [if_neg hfuel] at h ⊢
          dsimp only at h ⊢
          have hpaid : (ParserState.skipWhitespace { st with fuel := st.fuel - 1 }).fuel
            = st.fuel - 1 := rfl
          generalize ParserState.skipWhitespace { st with fuel := st.fuel - 1 } = st₁ at h hpaid ⊢
          by_cases hhead : st₁.rest.head? = some '('
          · rw [if_pos hhead] at h ⊢
            have hlist := ih.2 _ _ _ _ h
            have hpast : (st₁.past ['(']).fuel = st₁.fuel := rfl
            omega
          · rw [if_neg hhead] at h ⊢
            have hread := (parseAtom_read h).fuel
            omega
      · rw [parseList] at h
        rw [listEntries]
        have hsame : st.skipWhitespace.fuel = st.fuel := rfl
        generalize st.skipWhitespace = st₁ at h hsame ⊢
        cases hrest : st₁.rest with
        | nil =>
            rw [hrest] at h
            exact nomatch h
        | cons c cs =>
            rw [hrest] at h
            dsimp only at h ⊢
            by_cases hc : c = ')'
            · rw [if_pos hc] at h ⊢
              obtain ⟨-, rfl⟩ := Prod.mk.inj (Except.ok.inj h)
              have hpast : (st₁.past [c]).fuel = st₁.fuel := rfl
              omega
            · rw [if_neg hc] at h ⊢
              cases hx : parseExpr bound st₁ with
              | error e =>
                  rw [hx] at h
                  exact nomatch h
              | ok r =>
                  obtain ⟨y, st₂⟩ := r
                  rw [hx] at h
                  have hexpr := ih.1 _ _ _ hx
                  have hlist := ih.2 _ _ _ _ h
                  dsimp only
                  omega

/-- **A success stands with less fuel**, as long as what is taken away was left over. -/
theorem parse_less (k : Nat) : ∀ bound : Nat,
    (∀ st x st', parseExpr bound (st.more k) = .ok (x, st') → k ≤ st'.fuel →
      ∃ st₀, st' = st₀.more k ∧ parseExpr bound st = .ok (x, st₀)) ∧
    ∀ st items x st', parseList bound (st.more k) items = .ok (x, st') → k ≤ st'.fuel →
      ∃ st₀, st' = st₀.more k ∧ parseList bound st items = .ok (x, st₀) := by
  intro bound
  induction bound with
  | zero => exact ⟨fun st x st' h => (nomatch h), fun st items x st' h => (nomatch h)⟩
  | succ bound ih =>
      refine ⟨fun st x st' h hk => ?_, fun st items x st' h hk => ?_⟩
      · have hread := ((parse_read _).1 _ _ _ h).fuel
        have hnodes := one_le_nodes x
        have hmore : (st.more k).fuel = st.fuel + k := rfl
        rw [nodesOf, nodesOf, hmore] at hread
        have hpay : ({ st.more k with fuel := (st.more k).fuel - 1 } : ParserState)
            = ({ st with fuel := st.fuel - 1 } : ParserState).more k := by
          show ({ rest := st.rest, pos := st.pos, fuel := st.fuel + k - 1 } : ParserState)
            = { rest := st.rest, pos := st.pos, fuel := st.fuel - 1 + k }
          congr 1
          omega
        rw [parseExpr, if_neg (by omega), hpay] at h
        rw [parseExpr, if_neg (by omega)]
        dsimp only at h ⊢
        rw [show (ParserState.more { st with fuel := st.fuel - 1 } k).skipWhitespace
          = (ParserState.skipWhitespace { st with fuel := st.fuel - 1 }).more k from rfl] at h
        generalize ParserState.skipWhitespace { st with fuel := st.fuel - 1 } = st₁ at h ⊢
        by_cases hhead : st₁.rest.head? = some '('
        · rw [if_pos (show (st₁.more k).rest.head? = some '(' from hhead)] at h
          rw [if_pos hhead]
          exact ih.2 _ _ _ _ h hk
        · rw [if_neg (show (st₁.more k).rest.head? ≠ some '(' from hhead), parseAtom_more] at h
          rw [if_neg hhead]
          cases hatom : parseAtom st₁ with
          | error e =>
              rw [hatom] at h
              exact nomatch h
          | ok r =>
              rw [hatom] at h
              obtain ⟨rfl, rfl⟩ := Prod.mk.inj (Except.ok.inj h)
              exact ⟨r.2, rfl, rfl⟩
      · rw [parseList] at h ⊢
        rw [show (st.more k).skipWhitespace = (st.skipWhitespace).more k from rfl] at h
        generalize st.skipWhitespace = st₁ at h ⊢
        rw [show (st₁.more k).rest = st₁.rest from rfl] at h
        cases hrest : st₁.rest with
        | nil =>
            rw [hrest] at h
            exact nomatch h
        | cons c cs =>
            rw [hrest] at h
            dsimp only at h ⊢
            by_cases hc : c = ')'
            · rw [if_pos hc] at h ⊢
              obtain ⟨rfl, rfl⟩ := Prod.mk.inj (Except.ok.inj h)
              exact ⟨st₁.past [c], rfl, rfl⟩
            · rw [if_neg hc] at h ⊢
              cases hx : parseExpr bound (st₁.more k) with
              | error e =>
                  rw [hx] at h
                  exact nomatch h
              | ok r =>
                  obtain ⟨y, st₂⟩ := r
                  rw [hx] at h
                  have hspent := (entries_spent bound).2 _ _ _ _ h
                  obtain ⟨st₀, rfl, hy⟩ := ih.1 _ _ _ hx (by omega)
                  rw [hy]
                  exact ih.2 _ _ _ _ h hk

/-- **The expressions entered are no more than the characters that are left**, or one. -/
theorem entries_le : ∀ bound : Nat,
    (∀ st : ParserState, exprEntries bound st ≤ max st.rest.length 1) ∧
    ∀ (st : ParserState) (items : List SExpr), listEntries bound st items ≤ st.rest.length := by
  intro bound
  induction bound with
  | zero => exact ⟨fun st => Nat.zero_le _, fun st items => Nat.zero_le _⟩
  | succ bound ih =>
      refine ⟨fun st => ?_, fun st items => ?_⟩
      · rw [exprEntries]
        obtain ⟨-, -, hskip⟩ := skipWhitespace_spec { st with fuel := st.fuel - 1 }
        simp only at hskip ⊢
        generalize ParserState.skipWhitespace { st with fuel := st.fuel - 1 } = st₁ at hskip ⊢
        split
        · omega
        · split
          · rename_i hhead
            have hlist := ih.2 (st₁.past ['(']) []
            have hpast : (st₁.past ['(']).rest.length + 1 ≤ st₁.rest.length := by
              show (st₁.rest.drop 1).length + 1 ≤ _
              cases hrest : st₁.rest with
              | nil =>
                  rw [hrest] at hhead
                  exact nomatch hhead
              | cons c cs => exact Nat.le_refl _
            omega
          · omega
      · rw [listEntries]
        obtain ⟨-, -, hskip⟩ := skipWhitespace_spec st
        generalize st.skipWhitespace = st₁ at hskip ⊢
        cases hrest : st₁.rest with
        | nil => exact Nat.zero_le _
        | cons c cs =>
            have hone : 1 ≤ st₁.rest.length := by rw [hrest]; exact Nat.succ_pos _
            have hexpr := ih.1 st₁
            dsimp only
            split
            · exact Nat.zero_le _
            · cases hx : parseExpr bound st₁ with
              | error e =>
                  dsimp only
                  omega
              | ok r =>
                  obtain ⟨x, st₂⟩ := r
                  have hspent := (entries_spent bound).1 _ _ _ hx
                  have hread := (parse_read bound).1 _ _ _ hx
                  have hlist := ih.2 st₂ (items ++ [x])
                  have hfuel := hread.fuel
                  have hlength := hread.length
                  dsimp only
                  omega

-- ── Whole texts ────

/-- Parsing a text with given fuel, from its parts. -/
def finishText : Parsed SExpr → Except ParseError SExpr
  | .error e => .error e
  | .ok (x, st) =>
      match st.skipWhitespace.rest with
      | [] => .ok x
      | c :: _ => .error (.unexpectedChar st.skipWhitespace.pos c "end of input")

/-- The state a text is parsed from. -/
def startText (input : String) (fuel : Nat) : ParserState :=
  ParserState.skipWhitespace ⟨input.toList, 0, fuel⟩

theorem parseWithFuel_eq (input : String) (fuel : Nat) : parseWithFuel input (some fuel)
    = finishText (parseExpr (2 * fuel + 2) (startText input fuel)) := by
  show (match parseExpr (2 * fuel + 2) (startText input fuel) with
    | .error e => _
    | .ok (x, st) => _) = _
  cases parseExpr (2 * fuel + 2) (startText input fuel) with
  | error e => rfl
  | ok r => rfl

theorem parse_eq (input : String) :
    parse input = parseWithFuel input (some (max input.utf8ByteSize 1)) := rfl

theorem finishText_more (k : Nat) (r : Parsed SExpr) : finishText (moreFuel k r) = finishText r := by
  cases r with
  | error e => rfl
  | ok r => rfl

/-- Only the expression runs out of fuel. -/
theorem exhausted_finishText (r : Parsed SExpr) : Exhausted (finishText r) ↔ Exhausted r := by
  cases r with
  | error e => exact exhausted_error e
  | ok r =>
      unfold finishText
      dsimp only
      split
      · exact Iff.rfl
      · exact Iff.rfl

/-- A text that has been decided is decided alike with more fuel. -/
theorem parseWithFuel_le {input : String} {fuel fuel' : Nat} (hle : fuel ≤ fuel')
    (h : ¬ Exhausted (parseWithFuel input (some fuel))) :
    parseWithFuel input (some fuel') = parseWithFuel input (some fuel) := by
  rw [parseWithFuel_eq] at h ⊢
  rw [parseWithFuel_eq]
  rw [exhausted_finishText] at h
  obtain ⟨k, rfl⟩ := Nat.exists_eq_add_of_le hle
  have hmore := (parse_settled _).1 _ h (2 * k) k
  have hbound : 2 * (fuel + k) + 2 = 2 * fuel + 2 + 2 * k := by omega
  have hstart : startText input (fuel + k) = (startText input fuel).more k := rfl
  rw [hbound, hstart, hmore, finishText_more]

theorem length_startText (input : String) (fuel : Nat) :
    (startText input fuel).rest.length ≤ input.utf8ByteSize := by
  obtain ⟨-, -, hskip⟩ := skipWhitespace_spec ⟨input.toList, 0, fuel⟩
  have hbytes := length_le_byteLength input.toList
  rw [String.ofList_toList] at hbytes
  exact hskip.trans hbytes

theorem parse_not_exhausted (input : String) : ¬ Exhausted (parse input) := by
  rw [parse_eq, parseWithFuel_eq, exhausted_finishText]
  have hlen := length_startText input (max input.utf8ByteSize 1)
  have hfuel : (startText input (max input.utf8ByteSize 1)).fuel = max input.utf8ByteSize 1 := rfl
  exact (parse_enough _).1 _ (by omega) (by omega) (by omega)

theorem finishText_ok {r : Parsed SExpr} {x : SExpr} (h : finishText r = .ok x) :
    ∃ st, r = .ok (x, st) := by
  cases r with
  | error e => cases h
  | ok r =>
      obtain ⟨y, st⟩ := r
      unfold finishText at h
      dsimp only at h
      split at h
      · exact ⟨st, by rw [Except.ok.inj h]⟩
      · cases h

/-- A text that is read has paid for every node. -/
theorem nodes_le_of_ok {input : String} {x : SExpr} {fuel : Nat}
    (h : parseWithFuel input (some fuel) = .ok x) : nodes x ≤ fuel := by
  rw [parseWithFuel_eq] at h
  obtain ⟨st, hx⟩ := finishText_ok h
  have hread := ((parse_read _).1 _ _ _ hx).fuel
  have hstart : (startText input fuel).fuel = fuel := rfl
  rw [nodesOf, nodesOf, hstart] at hread
  omega

/-- A text that is read with some fuel is read with as much as it has nodes. -/
theorem parseWithFuel_of_nodes {input : String} {x : SExpr} {fuel fuel' : Nat}
    (h : parseWithFuel input (some fuel) = .ok x) (hnodes : nodes x ≤ fuel') :
    parseWithFuel input (some fuel') = .ok x := by
  have hsettled : ¬ Exhausted (parseWithFuel input (some fuel)) := by
    rw [h]
    exact id
  by_cases hle : fuel ≤ fuel'
  · rw [parseWithFuel_le hle hsettled, h]
  · obtain ⟨k, rfl⟩ := Nat.exists_eq_add_of_le (Nat.le_of_not_le hle)
    rw [parseWithFuel_eq] at h ⊢
    obtain ⟨st, hx⟩ := finishText_ok h
    have hread := ((parse_read _).1 _ _ _ hx).fuel
    have hstart : (startText input (fuel' + k)).fuel = fuel' + k := rfl
    rw [nodesOf, nodesOf, hstart] at hread
    have hmore : startText input (fuel' + k) = (startText input fuel').more k := rfl
    rw [hmore] at hx
    obtain ⟨st₀, rfl, hless⟩ := (parse_less k _).1 _ _ _ hx (by omega)
    -- the bound of the larger run is no limit on the smaller one
    have hbound := (parse_bound (2 * k) (2 * fuel' + 2)).1 (startText input fuel') (by
      show 2 * fuel' + 1 ≤ _
      omega)
    have hsum : 2 * (fuel' + k) + 2 = 2 * fuel' + 2 + 2 * k := by omega
    rw [hsum, hbound] at hless
    rw [hless]
    rw [hsum, hmore, (parse_more _).1 _ _ _ hless (2 * k) k] at h
    exact (finishText_more k (.ok (x, st₀))).symm.trans h

/-- **The default fuel is enough.**  Parsing a text never runs out of it; the expressions entered
    are no more than the bytes of the text, or one for the empty text.  With any other fuel the
    parser runs out of it or does the same, and it reads what is to be read exactly if there is a
    unit of fuel for every node. -/
theorem default_fuel_enough (input : String) :
    (∀ offset, parse input ≠ .error (.fuelExhausted offset)) ∧
    entries input ≤ max input.utf8ByteSize 1 ∧
    ∀ fuel : Nat,
      ((∃ offset, parseWithFuel input (some fuel) = .error (.fuelExhausted offset)) ∨
        parseWithFuel input (some fuel) = parse input) ∧
      ((∃ x, parseWithFuel input (some fuel) = .ok x) ↔
        ∃ x, parse input = .ok x ∧ nodes x ≤ fuel) := by
  have hparse := parse_not_exhausted input
  have halike : ∀ fuel, ¬ Exhausted (parseWithFuel input (some fuel)) →
      parseWithFuel input (some fuel) = parse input := by
    intro fuel h
    rcases Nat.le_total fuel (max input.utf8ByteSize 1) with hle | hle
    · exact (parseWithFuel_le hle h).symm
    · exact parseWithFuel_le hle hparse
  refine ⟨fun offset h => ?_, ?_, fun fuel => ⟨?_, ?_, ?_⟩⟩
  · rw [h] at hparse
    exact hparse trivial
  · have hentries := (entries_le (2 * max input.utf8ByteSize 1 + 2)).1
      (startText input (max input.utf8ByteSize 1))
    have hlen := length_startText input (max input.utf8ByteSize 1)
    exact hentries.trans (by omega)
  · by_cases h : Exhausted (parseWithFuel input (some fuel))
    · left
      exact exists_of_exhausted h
    · exact Or.inr (halike fuel h)
  · rintro ⟨x, hx⟩
    have hsettled : ¬ Exhausted (parseWithFuel input (some fuel)) := by
      rw [hx]
      exact id
    exact ⟨x, (halike fuel hsettled).symm.trans hx, nodes_le_of_ok hx⟩
  · rintro ⟨x, hx, hnodes⟩
    exact ⟨x, parseWithFuel_of_nodes hx hnodes⟩

/-- On the empty text an expression is entered, and the text has no byte. -/
theorem entries_empty : ¬ ∀ input : String, entries input ≤ input.utf8ByteSize := by
  intro hclaim
  have hone : entries "" = 1 := by decide +kernel
  have hzero : ("" : String).utf8ByteSize = 0 := by decide
  have hle := hclaim ""
  omega

end CbclText
