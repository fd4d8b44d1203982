import Cbcl.StateRenderProofs
import Cbcl.TextProofs

/-!
# The parser's tree as JSON

`read_str` (`read.rs`) gives a host the tree of a frame: a list is an array, a string an object of
its own, everything else its source text as a JSON string.  Spelled so, no two expressions the
parser returns look alike: a source text is read back as one atom, and an array is read back item
by item.
-/

namespace CbclReadTree

open CbclMessage CbclText CbclState CbclStateRender

-- ── The tree ────

mutual
/-- The tree of an S-expression. -/
def json : SExpr → List Char
  | .list items => '[' :: commas (jsonItems items) ++ [']']
  | .atom (.str s) =>
      '\x7b' :: '"' :: 's' :: 't' :: 'r' :: '"' :: ':' :: jsonString s.toList ++ ['\x7d']
  | .atom (.symbol s) => jsonString s.toList
  | .atom (.keyword k) => jsonString (':' :: k.toList)
  | .atom (.num n) => jsonString (toString n.toInt).toList
  | .atom (.bool b) => if b then ['"', '#', 't', '"'] else ['"', '#', 'f', '"']
/-- The trees of some items. -/
def jsonItems : List SExpr → List (List Char)
  | [] => []
  | x :: xs => json x :: jsonItems xs
end

/-- How a parser error reads. -/
def displayError : ParseError → String
  | .unexpectedChar offset found expected =>
      "at byte " ++ toString offset ++ ": unexpected '" ++ String.singleton found
        ++ "', expected " ++ expected
  | .unexpectedEof offset expected =>
      "at byte " ++ toString offset ++ ": unexpected end of input, expected " ++ expected
  | .fuelExhausted offset => "at byte " ++ toString offset ++ ": fuel exhausted"
  | .invalidEscape offset sequence =>
      "at byte " ++ toString offset ++ ": invalid escape sequence '\\" ++ String.singleton sequence
        ++ "'"
  | .integerOverflow offset => "at byte " ++ toString offset ++ ": integer overflow"

/-- Parse a text and return its tree. -/
def readStr (input : String) : Except String String :=
  match parse input with
  | .error e => .error ("parse error: " ++ displayError e)
  | .ok x => .ok (String.ofList (json x))

-- ── Reading a tree back ────

/-- Any atom but a string stands for its source text. -/
theorem json_source {a : Atom} (h : ∀ s, a ≠ .str s) :
    json (.atom a) = jsonString (writeAtom a) := by
  cases a with
  | str s => exact absurd rfl (h s)
  | symbol s => rw [json, writeAtom]
  | keyword k => rw [json, writeAtom]
  | num n => rw [json, writeAtom]
  | bool b => cases b <;> rfl

/-- A source text is that of one atom. -/
theorem writeAtom_injective {a b : Atom} (ha : LexicalAtom a) (hb : LexicalAtom b)
    (h : writeAtom a = writeAtom b) : a = b := by
  have hread := parse_serialize (x := .atom a) ha
  have htext : serialize (.atom a) = serialize (.atom b) := congrArg String.ofList h
  rw [htext, parse_serialize (x := .atom b) hb] at hread
  exact (SExpr.atom.inj (Except.ok.inj hread)).symm

/-- How a tree starts: an array, a string or a source text. -/
inductive Start : SExpr → Char → Prop where
  | array (items : List SExpr) : Start (.list items) '['
  | string (s : String) : Start (.atom (.str s)) '\x7b'
  | source (a : Atom) : (∀ s, a ≠ .str s) → Start (.atom a) '"'

theorem start_json (x : SExpr) : ∃ c tail, json x = c :: tail ∧ Start x c := by
  cases x with
  | list items => exact ⟨'[', _, by rw [json, List.cons_append], .array items⟩
  | atom a =>
      by_cases hstr : ∃ s, a = .str s
      · obtain ⟨s, rfl⟩ := hstr
        exact ⟨'\x7b', _, by rw [json]; rfl, .string s⟩
      · have hsource : ∀ s, a ≠ .str s := fun s heq => hstr ⟨s, heq⟩
        exact ⟨'"', _, by rw [json_source hsource, jsonString, List.cons_append],
          .source a hsource⟩

/-- Some items do not start with the closing bracket. -/
theorem jsonItems_ne_bracket (x : SExpr) (xs : List SExpr) (r s : List Char) :
    commas (jsonItems (x :: xs)) ++ ']' :: r ≠ ']' :: s := by
  obtain ⟨c, tail, hx, hc⟩ := start_json x
  obtain ⟨rest, hrest, -⟩ := commas_cons (json x) (jsonItems xs) r
  rw [jsonItems, hrest, hx, List.cons_append]
  intro h
  have hbracket := (List.cons.inj h).1
  cases hc <;> exact absurd hbracket (by decide)

/-- What follows the first of some items. -/
theorem jsonItems_rest {xs ys : List SExpr} {r s t : List Char}
    (hx : (jsonItems xs = [] → t = ']' :: r) ∧
      ∀ y ys, jsonItems xs = y :: ys → t = ',' :: (commas (y :: ys) ++ ']' :: r))
    (hy : (jsonItems ys = [] → t = ']' :: s) ∧
      ∀ z zs, jsonItems ys = z :: zs → t = ',' :: (commas (z :: zs) ++ ']' :: s)) :
    commas (jsonItems xs) ++ ']' :: r = commas (jsonItems ys) ++ ']' :: s := by
  cases hxs : jsonItems xs with
  | nil =>
      have ht := hx.1 hxs
      cases hys : jsonItems ys with
      | nil => exact ht.symm.trans (hy.1 hys)
      | cons z zs => exact absurd (ht.symm.trans (hy.2 z zs hys)) (by simp)
  | cons z zs =>
      have ht := hx.2 z zs hxs
      cases hys : jsonItems ys with
      | nil => exact absurd (ht.symm.trans (hy.1 hys)) (by simp)
      | cons w ws => exact (List.cons.inj (ht.symm.trans (hy.2 w ws hys))).2

mutual
/-- **A tree is read back from the front of a text.** -/
theorem json_split : ∀ (x y : SExpr) (r s : List Char), Lexical x → Lexical y →
    json x ++ r = json y ++ s → x = y ∧ r = s
  | .list xs, y, r, s, hx, hy, h => by
      obtain ⟨c, tail, hyc, hc⟩ := start_json y
      have hstart : '[' = c := by
        rw [json, hyc] at h
        exact (List.cons.inj h).1
      cases hc with
      | string t => exact absurd hstart (by decide)
      | source a ha => exact absurd hstart (by decide)
      | array ys =>
          rw [json, json] at h
          simp only [List.cons_append, List.append_assoc, List.nil_append, List.cons.injEq,
            true_and] at h
          obtain ⟨hitems, hrs⟩ := jsonItems_split xs ys r s hx hy h
          exact ⟨by rw [hitems], hrs⟩
  | .atom a, y, r, s, hx, hy, h => by
      obtain ⟨c, tail, hac, hc⟩ := start_json (.atom a)
      obtain ⟨d, tail', hyd, hd⟩ := start_json y
      have hstart : c = d := by
        rw [hac, hyd] at h
        exact (List.cons.inj h).1
      cases hc with
      | string t =>
          cases hd with
          | array ys => exact absurd hstart (by decide)
          | source b hb => exact absurd hstart (by decide)
          | string u =>
              rw [json, json] at h
              simp only [List.cons_append, List.append_assoc, List.nil_append, List.cons.injEq,
                true_and] at h
              obtain ⟨htu, hrs⟩ := jsonString_split h
              exact ⟨by rw [String.toList_inj.mp htu], (List.cons.inj hrs).2⟩
      | source a ha =>
          cases hd with
          | array ys => exact absurd hstart (by decide)
          | string u => exact absurd hstart (by decide)
          | source b hb =>
              rw [json_source ha, json_source hb] at h
              obtain ⟨htext, hrs⟩ := jsonString_split h
              exact ⟨by rw [writeAtom_injective hx hy htext], hrs⟩
/-- **The items of an array are read back up to its closing bracket.** -/
theorem jsonItems_split : ∀ (xs ys : List SExpr) (r s : List Char), LexicalItems xs →
    LexicalItems ys → commas (jsonItems xs) ++ ']' :: r = commas (jsonItems ys) ++ ']' :: s →
      xs = ys ∧ r = s
  | [], [], r, s, _, _, h => ⟨rfl, (List.cons.inj h).2⟩
  | [], y :: ys, r, s, _, _, h => absurd h.symm (jsonItems_ne_bracket y ys _ _)
  | x :: xs, [], r, s, _, _, h => absurd h (jsonItems_ne_bracket x xs _ _)
  | x :: xs, y :: ys, r, s, hx, hy, h => by
      obtain ⟨t, ht, -, hlast, hmore⟩ := commas_cons (json x) (jsonItems xs) r
      obtain ⟨u, hu, -, hlast', hmore'⟩ := commas_cons (json y) (jsonItems ys) s
      rw [jsonItems, jsonItems, ht, hu] at h
      obtain ⟨hxy, rfl⟩ := json_split x y t u hx.1 hy.1 h
      obtain ⟨hitems, hrs⟩ := jsonItems_split xs ys r s hx.2 hy.2
        (jsonItems_rest ⟨hlast, hmore⟩ ⟨hlast', hmore'⟩)
      exact ⟨by rw [hxy, hitems], hrs⟩
end

/-- **Two texts have one tree exactly if the parser reads one expression from both**: the tree
    drops white space and comments, and nothing else. -/
theorem readStr_eq_iff (a b : String) :
    (∃ tree, readStr a = .ok tree ∧ readStr b = .ok tree) ↔
      ∃ x, parse a = .ok x ∧ parse b = .ok x := by
  have hread : ∀ {input tree : String}, readStr input = .ok tree →
      ∃ x, parse input = .ok x ∧ tree = String.ofList (json x) := by
    intro input tree h
    unfold readStr at h
    cases hparse : parse input with
    | error e =>
        rw [hparse] at h
        cases h
    | ok x =>
        rw [hparse] at h
        exact ⟨x, rfl, (Except.ok.inj h).symm⟩
  constructor
  · rintro ⟨tree, ha, hb⟩
    obtain ⟨x, hx, rfl⟩ := hread ha
    obtain ⟨y, hy, htree⟩ := hread hb
    have hsame : json x ++ [] = json y ++ [] := by
      rw [List.append_nil, List.append_nil, String.ofList_injective htree]
    obtain ⟨rfl, -⟩ := json_split x y [] [] (lexical_of_parse hx) (lexical_of_parse hy) hsame
    exact ⟨x, hx, hy⟩
  · rintro ⟨x, ha, hb⟩
    refine ⟨String.ofList (json x), ?_, ?_⟩
    · rw [readStr, ha]
    · rw [readStr, hb]

end CbclReadTree
