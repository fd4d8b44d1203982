import Cbcl.CanonicalProofs
import Cbcl.StateModel

/-!
# The rendering tells field values apart

Sets are sorted and maps are grouped by rendering, so a rendering must not stand for two
values.  It does for values in general (a list and a set print alike), but not for the values
read from fields: `render_injective`.  The induction runs over two S-expressions with a rest
behind each; a rest can only start with a comma or a closing bracket, which ends a number.
-/

namespace CbclStateRender

open CbclMessage CbclCanonical CbclState

-- ── Strings ────

/-- Read one character of a JSON string back. -/
def unescape : List Char → Option (Char × List Char)
  | '\\' :: 'u' :: _ :: _ :: a :: b :: rest =>
      some (Char.ofNat (16 * hexValue a + hexValue b), rest)
  | '\\' :: '"' :: rest => some ('"', rest)
  | '\\' :: '\\' :: rest => some ('\\', rest)
  | '\\' :: 'n' :: rest => some ('\n', rest)
  | '\\' :: 'r' :: rest => some ('\r', rest)
  | '\\' :: 't' :: rest => some ('\t', rest)
  | '\\' :: 'b' :: rest => some (Char.ofNat 0x8, rest)
  | '\\' :: 'f' :: rest => some (Char.ofNat 0xc, rest)
  | '\\' :: _ => none
  | c :: rest => some (c, rest)
  | [] => none

theorem hexValue_hexDigit : ∀ n < 16, hexValue (hexDigit n) = n := by decide

/-- **One character is read back from the front of a string.** -/
theorem unescape_jsonChar (c : Char) (rest : List Char) :
    unescape (jsonChar c ++ rest) = some (c, rest) := by
  unfold jsonChar
  split
  · subst_vars; rfl
  split
  · subst_vars; rfl
  split
  · subst_vars; rfl
  split
  · subst_vars; rfl
  split
  · subst_vars; rfl
  split
  · rename_i h
    show some (Char.ofNat 0x8, rest) = _
    rw [← h, Char.ofNat_toNat]
  split
  · rename_i h
    show some (Char.ofNat 0xc, rest) = _
    rw [← h, Char.ofNat_toNat]
  split
  · rename_i h
    show some (Char.ofNat (16 * hexValue (hexDigit (c.toNat / 16))
      + hexValue (hexDigit (c.toNat % 16))), rest) = _
    rw [hexValue_hexDigit _ (by omega), hexValue_hexDigit _ (by omega), Nat.div_add_mod,
      Char.ofNat_toNat]
  · rename_i hslash _ _ _ _ _ _
    show unescape (c :: rest) = _
    unfold unescape
    split <;> simp_all

theorem jsonChar_ne_quote (c : Char) (rest tail : List Char) :
    jsonChar c ++ rest ≠ '"' :: tail := by
  intro h
  have hq : unescape ('"' :: tail) = some ('"', tail) := rfl
  have hc := unescape_jsonChar c rest
  rw [h, hq] at hc
  injection hc with hc
  injection hc with hc _
  subst hc
  exact absurd h (by simp [jsonChar])

/-- **A JSON string is read back from the front of a text.** -/
theorem jsonString_split : ∀ {a b r s : List Char},
    jsonString a ++ r = jsonString b ++ s → a = b ∧ r = s := by
  have hbody : ∀ (a b : List Char) {r s : List Char},
      a.flatMap jsonChar ++ '"' :: r = b.flatMap jsonChar ++ '"' :: s → a = b ∧ r = s := by
    intro a
    induction a with
    | nil =>
        intro b r s h
        cases b with
        | nil =>
            injection h with _ h
            exact ⟨rfl, h⟩
        | cons c b =>
            rw [List.flatMap_cons, List.append_assoc] at h
            exact absurd h.symm (jsonChar_ne_quote c _ _)
    | cons c a ih =>
        intro b r s h
        rw [List.flatMap_cons, List.append_assoc] at h
        cases b with
        | nil => exact absurd h (jsonChar_ne_quote c _ _)
        | cons d b =>
            rw [List.flatMap_cons, List.append_assoc] at h
            have hread := congrArg unescape h
            rw [unescape_jsonChar, unescape_jsonChar] at hread
            injection hread with hread
            injection hread with hcd hrest
            obtain ⟨hab, hrs⟩ := ih b hrest
            exact ⟨by rw [hcd, hab], hrs⟩
  intro a b r s h
  unfold jsonString at h
  simp only [List.cons_append, List.append_assoc, List.nil_append, List.cons.injEq,
    true_and] at h
  exact hbody a b h

-- ── Numbers ────

/-- The characters of a number. -/
def isNumeral (c : Char) : Bool := c = '-' || c.isDigit

/-- A rest behind a value: nothing, a comma or a closing bracket. -/
def Rest (r : List Char) : Prop := ∀ c tail, r = c :: tail → c = ',' ∨ c = ']'

theorem toNat_ofNat_octet (b : UInt8) : (Char.ofNat b.toNat).toNat = b.toNat := by
  have hvalid : b.toNat.isValidChar := Or.inl (by have := b.toNat_lt; omega)
  unfold Char.ofNat
  rw [dif_pos hvalid]
  rfl

theorem intText_injective {n m : Int} (h : intText n = intText m) : n = m := by
  refine signedDecimal_injective ?_
  have hinj : Function.Injective fun b : UInt8 => Char.ofNat b.toNat := by
    intro a b hab
    have := congrArg Char.toNat hab
    simp only [toNat_ofNat_octet] at this
    exact UInt8.toNat_inj.mp this
  exact hinj.list_map h

theorem isNumeral_of_octet {b : UInt8} (h : b = ascii '-' ∨ IsDigit b) :
    isNumeral (Char.ofNat b.toNat) = true := by
  rcases h with rfl | ⟨hlo, hhi⟩
  · decide
  · have hlo' : 48 ≤ b.toNat := by rw [UInt8.le_iff_toNat_le] at hlo; exact hlo
    have hhi' : b.toNat ≤ 57 := by rw [UInt8.le_iff_toNat_le] at hhi; exact hhi
    generalize b.toNat = k at hlo' hhi'
    interval_cases k <;> decide

theorem isNumeral_of_mem_intText {n : Int} {c : Char} (h : c ∈ intText n) :
    isNumeral c = true := by
  obtain ⟨b, hb, rfl⟩ := List.mem_map.mp h
  refine isNumeral_of_octet ?_
  unfold signedDecimal at hb
  split at hb
  · rcases List.mem_cons.mp hb with rfl | hb
    · exact Or.inl rfl
    · exact Or.inr (isDigit_of_mem_decimal hb)
  · exact Or.inr (isDigit_of_mem_decimal hb)

theorem takeWhile_numeral {as r : List Char} (has : ∀ c ∈ as, isNumeral c = true) (hr : Rest r) :
    (as ++ r).takeWhile isNumeral = as ∧ (as ++ r).dropWhile isNumeral = r := by
  rw [List.takeWhile_append_of_pos has, List.dropWhile_append_of_pos has]
  cases r with
  | nil => simp
  | cons c tail =>
      have hc : isNumeral c = false := by
        rcases hr c tail rfl with rfl | rfl <;> decide
      simp [hc]

/-- **A number is read back from the front of a text.** -/
theorem intText_split {n m : Int} {r s : List Char} (hr : Rest r) (hs : Rest s)
    (h : intText n ++ r = intText m ++ s) : n = m ∧ r = s := by
  have hn := takeWhile_numeral (fun c hc => isNumeral_of_mem_intText (n := n) hc) hr
  have hm := takeWhile_numeral (fun c hc => isNumeral_of_mem_intText (n := m) hc) hs
  rw [h] at hn
  exact ⟨intText_injective (hn.1.symm.trans hm.1), hn.2.symm.trans hm.2⟩

-- ── Field values ────

/-- What the first character of a field value's rendering tells of it. -/
inductive Head : Value → Char → Prop where
  | str (s : String) : Head (.str s) '"'
  | int (n : Int) {c : Char} (h : isNumeral c = true) : Head (.int n) c
  | yes : Head (.bool true) 't'
  | no : Head (.bool false) 'f'
  | list (items : List Value) : Head (.list items) '['

theorem intText_ne_nil (n : Int) : intText n ≠ [] := by
  unfold intText signedDecimal
  split
  · simp
  · simpa using decimal_ne_nil _

theorem head_render (x : SExpr) :
    ∃ c tail, (Value.fromSExpr x).renderInto = c :: tail ∧ Head (Value.fromSExpr x) c := by
  have hstr : ∀ s : String, ∃ c tail, (Value.str s).renderInto = c :: tail ∧
      Head (Value.str s) c := fun s =>
    ⟨'"', s.toList.flatMap jsonChar ++ ['"'], by
      rw [Value.renderInto, jsonString, List.cons_append], .str s⟩
  cases x with
  | list items =>
      rw [Value.fromSExpr, Value.renderInto, List.cons_append]
      exact ⟨'[', _, rfl, .list _⟩
  | atom a =>
      cases a with
      | symbol s => rw [Value.fromSExpr]; exact hstr s
      | str s => rw [Value.fromSExpr]; exact hstr s
      | keyword s => rw [Value.fromSExpr]; exact hstr _
      | num n =>
          rw [Value.fromSExpr, Value.renderInto]
          cases hn : intText n.toInt with
          | nil => exact absurd hn (intText_ne_nil _)
          | cons c tail =>
              exact ⟨c, tail, rfl, .int _ (isNumeral_of_mem_intText (hn ▸ List.mem_cons_self ..))⟩
      | bool b =>
          rw [Value.fromSExpr, Value.renderInto]
          cases b with
          | true => exact ⟨'t', ['r', 'u', 'e'], by decide, .yes⟩
          | false => exact ⟨'f', ['a', 'l', 's', 'e'], by decide, .no⟩

/-- The constructor of a field value. -/
inductive Shape where
  | str
  | int
  | bool
  | list
  | other
deriving DecidableEq

/-- The shape of a value. -/
def shape : Value → Shape
  | .str _ => .str
  | .int _ => .int
  | .bool _ => .bool
  | .list _ => .list
  | _ => .other

/-- A first character belongs to one shape. -/
theorem Head.shape {v w : Value} {c : Char} (h : Head v c) (h' : Head w c) :
    shape v = shape w := by
  have hnum : isNumeral '"' = false ∧ isNumeral 't' = false ∧ isNumeral 'f' = false ∧
      isNumeral '[' = false := by decide
  cases h <;> cases h' <;> simp_all [CbclStateRender.shape]

theorem shape_of_render {x y : SExpr} {r s : List Char}
    (h : (Value.fromSExpr x).renderInto ++ r = (Value.fromSExpr y).renderInto ++ s) :
    shape (Value.fromSExpr x) = shape (Value.fromSExpr y) := by
  obtain ⟨c, tail, hx, hc⟩ := head_render x
  obtain ⟨d, tail', hy, hd⟩ := head_render y
  rw [hx, hy] at h
  injection h with hcd _
  subst hcd
  exact hc.shape hd

theorem rest_comma (r : List Char) : Rest (',' :: r) := by
  intro c tail h
  injection h with h _
  exact Or.inl h.symm

theorem rest_bracket (r : List Char) : Rest (']' :: r) := by
  intro c tail h
  injection h with h _
  exact Or.inr h.symm

theorem rest_nil : Rest [] := fun _ _ h => nomatch h

/-- The text of a nonempty list starts with its first item. -/
theorem commas_cons (x : List Char) (rest : List (List Char)) (tail : List Char) :
    ∃ r, commas (x :: rest) ++ ']' :: tail = x ++ r ∧ Rest r ∧
      (rest = [] → r = ']' :: tail) ∧
      ∀ y ys, rest = y :: ys → r = ',' :: (commas (y :: ys) ++ ']' :: tail) := by
  cases rest with
  | nil => exact ⟨']' :: tail, rfl, rest_bracket tail, fun _ => rfl, fun _ _ h => nomatch h⟩
  | cons y ys =>
      refine ⟨',' :: (commas (y :: ys) ++ ']' :: tail), ?_, rest_comma _,
        (fun h => nomatch h), ?_⟩
      · rw [commas, List.append_assoc, List.cons_append]
      · intro y' ys' h
        rw [h]

/-- A nonempty list of items does not start with the closing bracket. -/
theorem items_ne_bracket (x : SExpr) (xs : List SExpr) (r s : List Char) :
    commas (Value.renderItems (Value.fromItems (x :: xs))) ++ ']' :: r ≠ ']' :: s := by
  obtain ⟨c, tail, hx, hc⟩ := head_render x
  have hne : c ≠ ']' := by
    rintro rfl
    generalize Value.fromSExpr x = v at hc
    cases hc with
    | int n h => exact absurd h (by decide)
  rw [Value.fromItems, Value.renderItems]
  obtain ⟨rest, hrest, -⟩ := commas_cons (Value.fromSExpr x).renderInto
    (Value.renderItems (Value.fromItems xs)) r
  rw [hrest, hx]
  simp [hne]

mutual
/-- **A field value is read back from the front of a text.** -/
theorem render_split : ∀ (x y : SExpr) (r s : List Char), Rest r → Rest s →
    (Value.fromSExpr x).renderInto ++ r = (Value.fromSExpr y).renderInto ++ s →
      Value.fromSExpr x = Value.fromSExpr y ∧ r = s
  | .list xs, y, r, s, hr, hs, h => by
      have hshape := shape_of_render h
      cases y with
      | atom b => cases b <;> simp [Value.fromSExpr, shape] at hshape
      | list ys =>
          simp only [Value.fromSExpr, Value.renderInto, List.cons_append, List.append_assoc,
            List.nil_append, List.cons.injEq, true_and] at h ⊢
          obtain ⟨hitems, hrs⟩ := renderItems_split xs ys r s h
          exact ⟨by rw [hitems], hrs⟩
  | .atom a, y, r, s, hr, hs, h => by
      have hshape := shape_of_render h
      have hstr : ∀ a b : String, jsonString a.toList ++ r = jsonString b.toList ++ s →
          Value.str a = Value.str b ∧ r = s := by
        intro a b hab
        obtain ⟨hab, hrs⟩ := jsonString_split hab
        exact ⟨by rw [String.toList_inj.mp hab], hrs⟩
      cases y with
      | list ys => cases a <;> simp [Value.fromSExpr, shape] at hshape
      | atom b =>
          cases a <;> cases b <;>
            simp only [Value.fromSExpr, shape, reduceCtorEq, Value.renderInto] at hshape h ⊢
          case num.num n m =>
            obtain ⟨hnm, hrs⟩ := intText_split hr hs h
            exact ⟨by rw [hnm], hrs⟩
          case bool.bool b c =>
            cases b <;> cases c <;> simp at h ⊢
            · exact h
            · exact h
          all_goals exact hstr _ _ h
/-- **The items of a list are read back up to the closing bracket.** -/
theorem renderItems_split : ∀ (xs ys : List SExpr) (r s : List Char),
    commas (Value.renderItems (Value.fromItems xs)) ++ ']' :: r
      = commas (Value.renderItems (Value.fromItems ys)) ++ ']' :: s →
    Value.fromItems xs = Value.fromItems ys ∧ r = s
  | [], [], r, s, h => by
      simp only [Value.fromItems, Value.renderItems, commas, List.nil_append, List.cons.injEq,
        true_and] at h
      exact ⟨rfl, h⟩
  | [], y :: ys, r, s, h => absurd h.symm (items_ne_bracket y ys _ _)
  | x :: xs, [], r, s, h => absurd h (items_ne_bracket x xs _ _)
  | x :: xs, y :: ys, r, s, h => by
      rw [Value.fromItems, Value.fromItems, Value.renderItems, Value.renderItems] at h
      obtain ⟨t, ht, hrest, hlast, hmore⟩ := commas_cons (Value.fromSExpr x).renderInto
        (Value.renderItems (Value.fromItems xs)) r
      obtain ⟨u, hu, hrest', hlast', hmore'⟩ := commas_cons (Value.fromSExpr y).renderInto
        (Value.renderItems (Value.fromItems ys)) s
      rw [ht, hu] at h
      obtain ⟨hxy, htu⟩ := render_split x y t u hrest hrest' h
      -- behind equal first items, both lists end or both go on
      have htail : commas (Value.renderItems (Value.fromItems xs)) ++ ']' :: r
          = commas (Value.renderItems (Value.fromItems ys)) ++ ']' :: s := by
        cases xs with
        | nil =>
            rw [Value.fromItems, Value.renderItems] at hlast
            rw [hlast rfl] at htu
            cases ys with
            | nil =>
                rw [Value.fromItems, Value.renderItems] at hlast'
                rw [htu, hlast' rfl]
            | cons y' ys' =>
                rw [Value.fromItems, Value.renderItems] at hmore'
                rw [hmore' _ _ rfl] at htu
                exact absurd htu (by simp)
        | cons x' xs' =>
            rw [Value.fromItems, Value.renderItems] at hmore
            rw [hmore _ _ rfl] at htu
            cases ys with
            | nil =>
                rw [Value.fromItems, Value.renderItems] at hlast'
                rw [hlast' rfl] at htu
                exact absurd htu (by simp)
            | cons y' ys' =>
                rw [Value.fromItems, Value.renderItems] at hmore'
                rw [hmore' _ _ rfl] at htu
                exact (List.cons.inj htu).2
      obtain ⟨hitems, hrs⟩ := renderItems_split xs ys r s htail
      exact ⟨by rw [Value.fromItems, Value.fromItems, hxy, hitems], hrs⟩
end

/-- **Field values with one rendering are equal.** -/
theorem render_injective {x y : SExpr}
    (h : (Value.fromSExpr x).render = (Value.fromSExpr y).render) :
    Value.fromSExpr x = Value.fromSExpr y := by
  have h' := String.ofList_injective h
  refine (render_split x y [] [] rest_nil rest_nil ?_).1
  rw [List.append_nil, List.append_nil, h']

/-- String values with one rendering are equal. -/
theorem render_str_injective {s t : String} (h : (Value.str s).render = (Value.str t).render) :
    s = t := by
  have h' := render_injective (x := .atom (.str s)) (y := .atom (.str t)) (by
    rw [Value.fromSExpr, Value.fromSExpr]; exact h)
  rw [Value.fromSExpr, Value.fromSExpr] at h'
  injection h'

end CbclStateRender
