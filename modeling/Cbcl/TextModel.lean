import Cbcl.MessageModel

/-!
# The text form of S-expressions

The recursive-descent parser (`parser.rs`) and the serializer (`serializer.rs`).  The parser
walks the input by characters and counts byte offsets for its errors; every expression it
enters costs one unit of fuel, by default as many as the input has bytes.
-/

namespace CbclText

open CbclMessage

-- ── Writing ────

/-- The text of an atom. -/
def writeAtom : Atom → List Char
  | .symbol s => s.toList
  | .str s => '"' :: (s.toList.flatMap escapeChar ++ ['"'])
  | .num n => (toString n.toInt).toList
  | .bool b => if b then ['#', 't'] else ['#', 'f']
  | .keyword k => ':' :: k.toList

mutual
/-- The text of an S-expression. -/
def writeSexpr : SExpr → List Char
  | .atom a => writeAtom a
  | .list items => '(' :: (writeItems items ++ [')'])
/-- The text of list items: a space before every item but the first. -/
def writeItems : List SExpr → List Char
  | [] => []
  | x :: xs => writeSexpr x ++ writeRest xs
/-- The text of the items after the first. -/
def writeRest : List SExpr → List Char
  | [] => []
  | x :: xs => ' ' :: (writeSexpr x ++ writeRest xs)
end

/-- Serialize an S-expression to canonical text. -/
def serialize (x : SExpr) : String := String.ofList (writeSexpr x)

-- ── Parser states ────

/-- Parser errors with byte offsets. -/
inductive ParseError where
  | unexpectedChar (offset : Nat) (found : Char) (expected : String)
  | unexpectedEof (offset : Nat) (expected : String)
  | fuelExhausted (offset : Nat)
  | invalidEscape (offset : Nat) (sequence : Char)
  | integerOverflow (offset : Nat)
deriving DecidableEq

/-- The input from the current position on, the position, and the fuel left. -/
structure ParserState where
  rest : List Char
  pos : Nat
  fuel : Nat
deriving DecidableEq

/-- The outcome of a parser: a value and the state after it. -/
abbrev Parsed (α : Type) := Except ParseError (α × ParserState)

/-- The bytes of some characters. -/
def byteLength (cs : List Char) : Nat := (cs.map Char.utf8Size).sum

/-- White space of the grammar. -/
def isAsciiWhitespace (c : Char) : Bool :=
  c = ' ' || c = '\t' || c = '\n' || c = '\x0c' || c = '\r'

/-- Skip white space; a semicolon starts a comment that ends with the line. -/
def skipFrom : Bool → List Char → Nat → List Char × Nat
  | _, [], pos => ([], pos)
  | true, c :: cs, pos => skipFrom (c ≠ '\n') cs (pos + c.utf8Size)
  | false, c :: cs, pos =>
      if isAsciiWhitespace c then skipFrom false cs (pos + c.utf8Size)
      else if c = ';' then skipFrom true cs (pos + c.utf8Size)
      else (c :: cs, pos)

/-- Skip white space and comments. -/
def ParserState.skipWhitespace (st : ParserState) : ParserState :=
  { st with
    rest := (skipFrom false st.rest st.pos).1
    pos := (skipFrom false st.rest st.pos).2 }

/-- The state after some characters at the front. -/
def ParserState.past (st : ParserState) (taken : List Char) : ParserState :=
  { st with rest := st.rest.drop taken.length, pos := st.pos + byteLength taken }

-- ── Atoms ────

/-- The characters of symbols and keywords. -/
def isSymbolChar (c : Char) : Bool :=
  c.isAlphanum || c = '_' || c = '-' || c = '.' || c = '/' || c = '!' || c = '?' || c = '+'
    || c = '*' || c = '<' || c = '>' || c = '=' || c = '@'

/-- The characters of integers. -/
def isIntegerChar (c : Char) : Bool := c = '-' || c.isDigit

/-- The character an escape stands for. -/
def unescape (c : Char) : Option Char :=
  if c = 'n' then some '\n'
  else if c = 'r' then some '\r'
  else if c = 't' then some '\t'
  else if c = '\\' then some '\\'
  else if c = '"' then some '"'
  else none

/-- The characters of a string up to its closing quote, what follows, and the position. -/
def stringLoop : List Char → Nat → List Char → Except ParseError (List Char × List Char × Nat)
  | [], pos, _ => .error (.unexpectedEof pos "closing '\"'")
  | c :: rest, pos, s =>
      if c = '"' then .ok (s, rest, pos + 1)
      else if c = '\\' then
        match rest with
        | [] => .error (.unexpectedEof (pos + 1) "escape character")
        | e :: rest =>
            match unescape e with
            | some d => stringLoop rest (pos + 1 + e.utf8Size) (s ++ [d])
            | none => .error (.invalidEscape (pos + 1) e)
      else stringLoop rest (pos + c.utf8Size) (s ++ [c])

/-- A string, after its opening quote. -/
def parseString (st : ParserState) : Parsed SExpr :=
  match stringLoop st.rest st.pos [] with
  | .error e => .error e
  | .ok (s, rest, pos) =>
      .ok (.atom (.str (String.ofList s)), { st with rest := rest, pos := pos })

/-- A boolean, after the hash sign. -/
def parseBool (st : ParserState) : Parsed SExpr :=
  match st.rest with
  | [] => .error (.unexpectedEof st.pos "'t' or 'f'")
  | c :: _ =>
      if c = 't' then .ok (.atom (.bool true), st.past ['t'])
      else if c = 'f' then .ok (.atom (.bool false), st.past ['f'])
      else .error (.unexpectedChar st.pos c "'t' or 'f'")

/-- A keyword, after the colon. -/
def parseKeyword (st : ParserState) : Parsed SExpr :=
  let name := st.rest.takeWhile isSymbolChar
  if name = [] then .error (.unexpectedEof st.pos "keyword name")
  else .ok (.atom (.keyword (String.ofList name)), st.past name)

/-- A symbol. -/
def parseSymbol (st : ParserState) : Parsed SExpr :=
  let name := st.rest.takeWhile isSymbolChar
  if name = [] then
    .error (.unexpectedChar st.pos ((st.rest.head?).getD (Char.ofNat 0)) "symbol")
  else .ok (.atom (.symbol (String.ofList name)), st.past name)

/-- The magnitude decimal digits spell; no digits spell none. -/
def parseDigits (ds : List Char) : Option Nat :=
  if ds ≠ [] ∧ ds.all Char.isDigit then some (Nat.ofDigitChars 10 ds 0) else none

/-- A number as a signed 64-bit integer, if it is one. -/
def toI64 (n : Int) : Option Int64 :=
  if -2 ^ 63 ≤ n ∧ n < 2 ^ 63 then some (Int64.ofInt n) else none

/-- `str::parse::<i64>`: a sign or none, then digits. -/
def parseI64 : List Char → Option Int64
  | '-' :: ds => (parseDigits ds).bind fun n => toI64 (-n)
  | '+' :: ds => (parseDigits ds).bind fun n => toI64 n
  | ds => (parseDigits ds).bind fun n => toI64 n

/-- An integer: all digits and minus signs in front are taken for it. -/
def parseInteger (st : ParserState) : Parsed SExpr :=
  let text := st.rest.takeWhile isIntegerChar
  match parseI64 text with
  | some n => .ok (.atom (.num n), st.past text)
  | none => .error (.integerOverflow st.pos)

/-- A minus sign starts a number if a digit follows. -/
def parseNumberOrSymbol (st : ParserState) : Parsed SExpr :=
  match st.rest with
  | '-' :: c :: _ => if c.isDigit then parseInteger st else parseSymbol st
  | '-' :: [] => parseSymbol st
  | _ => parseInteger st

-- ── Expressions ────

/-- The atom at the front, by its first character. -/
def parseAtom (st : ParserState) : Parsed SExpr :=
  match st.rest with
  | [] => .error (.unexpectedEof st.pos "expression")
  | c :: _ =>
      if c = '"' then parseString (st.past [c])
      else if c = '#' then parseBool (st.past [c])
      else if c = ':' then parseKeyword (st.past [c])
      else if c = '-' || c.isDigit then parseNumberOrSymbol st
      else parseSymbol st

mutual
/-- An expression.  The first argument bounds the recursion; a call of `parse` gives it more
    than the fuel lets it use. -/
def parseExpr : Nat → ParserState → Parsed SExpr
  | 0, st => .error (.fuelExhausted st.pos)
  | bound + 1, st =>
      if st.fuel = 0 then .error (.fuelExhausted st.pos)
      else
        let st := { st with fuel := st.fuel - 1 }.skipWhitespace
        if st.rest.head? = some '(' then parseList bound (st.past ['(']) []
        else parseAtom st
/-- The items of a list up to its closing parenthesis. -/
def parseList : Nat → ParserState → List SExpr → Parsed SExpr
  | 0, st, _ => .error (.fuelExhausted st.pos)
  | bound + 1, st, items =>
      let st := st.skipWhitespace
      match st.rest with
      | [] => .error (.unexpectedEof st.pos "')'")
      | c :: _ =>
          if c = ')' then .ok (.list items, st.past [c])
          else match parseExpr bound st with
            | .error e => .error e
            | .ok (x, st) => parseList bound st (items ++ [x])
end

/-- Parse a text with a fuel limit; by default the number of its bytes, and one at least. -/
def parseWithFuel (input : String) (fuel : Option Nat) : Except ParseError SExpr :=
  let fuel := fuel.getD (max input.utf8ByteSize 1)
  let st := ParserState.skipWhitespace ⟨input.toList, 0, fuel⟩
  match parseExpr (2 * fuel + 2) st with
  | .error e => .error e
  | .ok (x, st) =>
      let st := st.skipWhitespace
      match st.rest with
      | [] => .ok x
      | c :: _ => .error (.unexpectedChar st.pos c "end of input")

/-- Parse an S-expression from a text. -/
def parse (input : String) : Except ParseError SExpr := parseWithFuel input none

end CbclText
