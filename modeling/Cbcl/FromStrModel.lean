import Cbcl.TextModel
import Cbcl.CanonicalModel

/-!
# S-expressions from strings

`FromStr` of `sexpr.rs` is a second parser beside `parser.rs`: it works on slices of the text, cut
at byte indices, and on the octets of the text.  A slice that is cut inside a character panics, so a
failure is an error or a panic here.  A text is a list of characters, and its octets are their UTF-8
encodings.

The recursion is bounded by the first argument; a text costs at most twice its length.
-/

namespace CbclFromStr

open CbclMessage CbclCanonical
open CbclText (byteLength parseI64)

/-- How parsing can fail. -/
inductive Failure where
  | error (text : String)
  | panic
deriving DecidableEq

/-- An outcome of parsing. -/
abbrev Outcome (α : Type) := Except Failure α

-- ── Texts ────

/-- The octets of a text. -/
def asBytes (cs : List Char) : Octets := cs.flatMap String.utf8EncodeChar

/-- The text from a byte index on. -/
def sliceFrom : List Char → Nat → Outcome (List Char)
  | cs, 0 => .ok cs
  | [], _ + 1 => .error .panic
  | c :: cs, i + 1 => if i + 1 < c.utf8Size then .error .panic else sliceFrom cs (i + 1 - c.utf8Size)

/-- The text up to a byte index. -/
def sliceTo : List Char → Nat → Outcome (List Char)
  | _, 0 => .ok []
  | [], _ + 1 => .error .panic
  | c :: cs, i + 1 =>
      if i + 1 < c.utf8Size then .error .panic
      else (sliceTo cs (i + 1 - c.utf8Size)).map (c :: ·)

/-- Unicode white space. -/
def isWhitespace (c : Char) : Bool :=
  (9 ≤ c.toNat && c.toNat ≤ 13) || c.toNat = 0x20 || c.toNat = 0x85 || c.toNat = 0xA0
    || c.toNat = 0x1680 || (0x2000 ≤ c.toNat && c.toNat ≤ 0x200A) || c.toNat = 0x2028
    || c.toNat = 0x2029 || c.toNat = 0x202F || c.toNat = 0x205F || c.toNat = 0x3000

/-- Drop white space in front. -/
def skipWs (cs : List Char) : List Char := cs.dropWhile isWhitespace

/-- Drop white space on both sides. -/
def trim (cs : List Char) : List Char := (skipWs (skipWs cs).reverse).reverse

/-- The byte index of the first character with a property. -/
def find (p : Char → Bool) (cs : List Char) : Option Nat :=
  if cs.any p then some (byteLength (cs.takeWhile fun c => !p c)) else none

/-- What follows a prefix. -/
def stripPrefix (pre cs : List Char) : Option (List Char) :=
  if pre.isPrefixOf cs then some (cs.drop pre.length) else none

-- ── Atoms ────

/-- The characters that end a keyword, a number or a symbol. -/
def endsToken (c : Char) : Bool :=
  CbclText.isAsciiWhitespace c || c = '(' || c = ')' || c = '"'

/-- The octets that end a boolean. -/
def isDelimiter (b : UInt8) : Bool :=
  b = ascii ' ' || b = ascii '\t' || b = ascii '\n' || b = ascii '\r' || b = ascii '('
    || b = ascii ')' || b = ascii '"'

/-- Whether a text is at its end or at a delimiter. -/
def atDelimiter (rest : List Char) : Bool :=
  match asBytes rest with
  | [] => true
  | b :: _ => isDelimiter b

/-- What an escaped octet stands for; one that is no escape is kept with its backslash. -/
def escaped (b : UInt8) : List Char :=
  if b = ascii '"' then ['"']
  else if b = ascii '\\' then ['\\']
  else if b = ascii 'n' then ['\n']
  else if b = ascii 'r' then ['\r']
  else if b = ascii 't' then ['\t']
  else ['\\', Char.ofNat b.toNat]

/-- A string from the byte index `i` on.  The first argument counts the rounds of the loop. -/
def stringLoop (input : List Char) : Nat → Nat → List Char → Outcome (SExpr × List Char)
  | 0, _, _ => .error (.error "unterminated string")
  | rounds + 1, i, s =>
      match (asBytes input)[i]? with
      | none => .error (.error "unterminated string")
      | some b =>
          if b = ascii '"' then do
            let rest ← sliceFrom input (i + 1)
            return (.atom (.str (String.ofList s)), rest)
          else if b = ascii '\\' then
            match (asBytes input)[i + 1]? with
            | none => .error (.error "unterminated string escape")
            | some e => stringLoop input rounds (i + 2) (s ++ escaped e)
          else do
            let ch ← sliceFrom input i
            match ch with
            | [] => stringLoop input rounds (i + 1) s
            | c :: _ => stringLoop input rounds (i + c.utf8Size) (s ++ [c])

/-- A string, its quote included. -/
def parseString (input : List Char) : Outcome (SExpr × List Char) :=
  stringLoop input (asBytes input).length 1 []

/-- The boolean in front of a text, short or long, with what follows it. -/
def readBool (input : List Char) : Option (Bool × List Char) :=
  let read (b : Bool) (short long : String) : Option (Bool × List Char) :=
    (stripPrefix short.toList input).bind fun rest =>
      if atDelimiter rest then some (b, rest)
      else (stripPrefix long.toList rest).bind fun rest =>
        if atDelimiter rest then some (b, rest) else none
  (read true "#t" "rue").orElse fun _ => read false "#f" "alse"

/-- A boolean; the error quotes the first ten bytes of the text. -/
def parseBool (input : List Char) : Outcome (SExpr × List Char) :=
  match readBool input with
  | some (b, rest) => .ok (.atom (.bool b), rest)
  | none => do
      let quoted ← sliceTo input (min (asBytes input).length 10)
      .error (.error ("invalid boolean: " ++ String.ofList quoted))

/-- A keyword, its colon included. -/
def parseKeyword (input : List Char) : Outcome (SExpr × List Char) := do
  let rest ← sliceFrom input 1
  let stop := (find endsToken rest).getD (asBytes rest).length
  if stop = 0 then .error (.error "empty keyword")
  else do
    let name ← sliceTo rest stop
    let rest ← sliceFrom rest stop
    return (.atom (.keyword (String.ofList name)), rest)

/-- A number or a symbol. -/
def parseNumOrSymbol (input : List Char) : Outcome (SExpr × List Char) := do
  let stop := (find endsToken input).getD (asBytes input).length
  if stop = 0 then .error (.error "unexpected character")
  else do
    let token ← sliceTo input stop
    let rest ← sliceFrom input stop
    match parseI64 token with
    | some n => return (.atom (.num n), rest)
    | none => return (.atom (.symbol (String.ofList token)), rest)

-- ── Expressions ────

mutual
/-- One expression from the front of a text, and what follows it. -/
def parseOne : Nat → List Char → Outcome (SExpr × List Char)
  | 0, _ => .error (.error "")
  | bound + 1, input =>
      let input := skipWs input
      match asBytes input with
      | [] => .error (.error "unexpected end of input")
      | b :: _ =>
          if b = ascii '(' then do
            let rest ← sliceFrom input 1
            parseItems bound rest []
          else if b = ascii '"' then parseString input
          else if b = ascii '#' then parseBool input
          else if b = ascii ':' then parseKeyword input
          else parseNumOrSymbol input
/-- The loop over the items of a list. -/
def parseItems : Nat → List Char → List SExpr → Outcome (SExpr × List Char)
  | 0, _, _ => .error (.error "")
  | bound + 1, rest, items =>
      let rest := skipWs rest
      if rest = [] then .error (.error "unclosed list")
      else if rest.head? = some ')' then do
        let rest ← sliceFrom rest 1
        return (.list items, rest)
      else do
        let (item, rest) ← parseOne bound rest
        parseItems bound rest (items ++ [item])
end

/-- An S-expression from a string. -/
def fromStr (s : String) : Outcome SExpr :=
  let input := trim s.toList
  if input = [] then .error (.error "empty input")
  else do
    let (expr, rest) ← parseOne (2 * input.length + 1) input
    if trim rest ≠ [] then
      .error (.error ("trailing input: " ++ String.ofList (trim rest)))
    else return expr

end CbclFromStr
