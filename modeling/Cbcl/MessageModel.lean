import Mathlib

/-!
# Messages — the S-expression carrier and the four message forms

The data every layer of the runtime reads: S-expressions (`sexpr.rs`) and the four
message forms built over them (`message.rs`).  Wrappers (`envelope`, `signed`,
`with-limits`, `with-roles`) and `(lang …)` scopes nest freely; what the verifiers look
at is the *innermost simple* message, and the key of an enclosing `signed` wrapper.

Ordered maps and sets of the source are the extensional tree maps of the standard
library: they iterate in key order, as `BTreeMap`/`BTreeSet` do, and two maps with the
same entries are equal.
-/

namespace CbclMessage

/-- An ordered map, iterated in key order. -/
abbrev BTreeMap (κ ν : Type) [Ord κ] := Std.ExtTreeMap κ ν compare

/-- An ordered set, iterated in order. -/
abbrev BTreeSet (κ : Type) [Ord κ] := Std.ExtTreeSet κ compare

/-- Pairs are ordered lexicographically. -/
instance pairOrd {α β : Type} [Ord α] [Ord β] : Ord (α × β) := lexOrd

/-- Atomic values of S-expressions; numbers are the wire's signed 64-bit integers. -/
inductive Atom where
  | symbol (s : String)
  | str (s : String)
  | num (n : Int64)
  | bool (b : Bool)
  | keyword (s : String)
deriving DecidableEq

/-- S-expressions: an atom or a list. -/
inductive SExpr where
  | atom (a : Atom)
  | list (items : List SExpr)

mutual
/-- Equality of S-expressions is decided structurally. -/
def SExpr.decEq : (a b : SExpr) → Decidable (a = b)
  | .atom a, .atom b => decidable_of_iff (a = b) (by simp)
  | .atom _, .list _ => isFalse (by simp)
  | .list _, .atom _ => isFalse (by simp)
  | .list xs, .list ys =>
      match SExpr.decEqList xs ys with
      | isTrue h => isTrue (by rw [h])
      | isFalse h => isFalse (by simpa using h)
/-- Equality of S-expression lists, element by element. -/
def SExpr.decEqList : (xs ys : List SExpr) → Decidable (xs = ys)
  | [], [] => isTrue rfl
  | [], _ :: _ => isFalse (by simp)
  | _ :: _, [] => isFalse (by simp)
  | x :: xs, y :: ys =>
      match SExpr.decEq x y, SExpr.decEqList xs ys with
      | isTrue h, isTrue hs => isTrue (by rw [h, hs])
      | isFalse h, _ => isFalse (by simp [h])
      | _, isFalse hs => isFalse (by simp [hs])
end

instance : DecidableEq SExpr := SExpr.decEq

/-- One character of a string atom as the printer escapes it. -/
def escapeChar (c : Char) : List Char :=
  if c = '"' then ['\\', '"']
  else if c = '\\' then ['\\', '\\']
  else if c = '\n' then ['\\', 'n']
  else if c = '\r' then ['\\', 'r']
  else if c = '\t' then ['\\', 't']
  else [c]

/-- A quoted, escaped string. -/
def quoted (s : String) : String :=
  "\"" ++ String.ofList (s.toList.flatMap escapeChar) ++ "\""

/-- The printed form of an atom. -/
def Atom.display : Atom → String
  | .symbol s => s
  | .str s => quoted s
  | .num n => toString n.toInt
  | .bool b => if b then "#t" else "#f"
  | .keyword k => ":" ++ k

mutual
/-- The printed form of an S-expression. -/
def SExpr.display : SExpr → String
  | .atom a => a.display
  | .list items => "(" ++ SExpr.displayItems items ++ ")"
/-- List items, separated by single spaces. -/
def SExpr.displayItems : List SExpr → String
  | [] => ""
  | [x] => x.display
  | x :: y :: rest => x.display ++ " " ++ SExpr.displayItems (y :: rest)
end

/-- The `{:?}` rendering of a list of strings between two brackets. -/
def debugStrings (opening closing : String) (xs : List String) : String :=
  opening ++ ", ".intercalate (xs.map quoted) ++ closing

/-- The `{:?}` rendering of a string list. -/
def debugList (xs : List String) : String := debugStrings "[" "]" xs

/-- The `{:?}` rendering of a string set. -/
def debugSet (xs : BTreeSet String) : String := debugStrings "\x7b" "\x7d" xs.toList

/-- Strip a leading text, if it is there. -/
def stripStart (lead s : String) : Option String :=
  if lead.toList.isPrefixOf s.toList then some (String.ofList (s.toList.drop lead.length))
  else none

/-- Sixty-four lowercase hexadecimal digits. -/
def isHex64 (s : String) : Bool :=
  s.length = 64 && s.toList.all fun c => c.isDigit || ('a' ≤ c && c ≤ 'f')

/-- A content address, spelled `sha256:<hex>` in causal headers. -/
abbrev ContentHash := String

/-- A thread identifier. -/
abbrev ThreadId := String

/-- A key identifier such as `@alice`. -/
abbrev AgentKey := String

/-- The reserved predecessor keyword. -/
def BEGIN_KEYWORD : String := "begin"

/-- The separator of the copy names `(repeat k …)` expansion synthesises. -/
def REPEAT_SEPARATOR : Char := '#'

/-- Causal predecessor reference of a message. -/
inductive CausedBy where
  | begin
  | single (hash : String)
  | multiple (hashes : List String)
deriving DecidableEq

/-- The hashes a causal reference names. -/
def CausedBy.hashes : CausedBy → List String
  | .begin => []
  | .single h => [h]
  | .multiple hs => hs

/-- The hashes an optional causal reference names. -/
def citedHashes (caused_by : Option CausedBy) : List String :=
  (caused_by.map CausedBy.hashes).getD []

/-- The eight core performatives. -/
inductive CorePerformative where
  | tell | ask | reply | error | ok | cancel | hello | bye
deriving DecidableEq

/-- The wire name of a core performative. -/
def CorePerformative.asStr : CorePerformative → String
  | .tell => "tell"
  | .ask => "ask"
  | .reply => "reply"
  | .error => "error"
  | .ok => "ok"
  | .cancel => "cancel"
  | .hello => "hello"
  | .bye => "bye"

/-- A core or custom performative. -/
inductive Performative where
  | core (c : CorePerformative)
  | custom (s : String)
deriving DecidableEq

/-- The name of a performative. -/
def Performative.name : Performative → String
  | .core c => c.asStr
  | .custom s => s

/-- The recipient position of a simple message. -/
inductive Recipients where
  | one (r : String)
  | set (rs : BTreeSet String)
deriving DecidableEq

/-- All recipients as a sorted set. -/
def Recipients.asSet : Recipients → BTreeSet String
  | .one r => (∅ : BTreeSet String).insert r
  | .set rs => rs

/-- The four wrapper forms. -/
inductive WrapperType where
  | envelope | signed | withLimits | withRoles
deriving DecidableEq

/-- A message: simple, meta, dialect-scoped, or wrapped. -/
inductive Message where
  | simple (performative : Performative) (recipient : Option Recipients) (content : SExpr)
      (params : List SExpr) (thread : Option String) (sender : Option String)
      (caused_by : Option CausedBy)
  | metaDef (dialect_def : SExpr)
  | dialect (dialect_name : String) (inner : Message)
  | wrapped (wrapper : WrapperType) (params : List SExpr) (content : Message)
deriving DecidableEq

namespace Message

/-- The performative of a simple message. -/
def performative : Message → Option Performative
  | simple p .. => some p
  | _ => none

/-- All recipients of a simple message as a sorted set. -/
def recipientSet : Message → BTreeSet String
  | simple _ (some r) .. => r.asSet
  | _ => ∅

/-- The thread of a simple message. -/
def thread : Message → Option String
  | simple _ _ _ _ t _ _ => t
  | _ => none

/-- The causal reference of a simple message. -/
def causedBy : Message → Option CausedBy
  | simple _ _ _ _ _ _ cb => cb
  | _ => none

/-- Walk through wrappers and scopes to the innermost simple message. -/
def innermostSimple : Message → Option Message
  | m@(simple ..) => some m
  | wrapped _ _ content => content.innermostSimple
  | dialect _ inner => inner.innermostSimple
  | metaDef _ => none

/-- The wrapper of a wrapped message. -/
def wrapperType : Message → Option WrapperType
  | wrapped w .. => some w
  | _ => none

/-- What `innermostSimple` returns has a performative. -/
theorem performative_of_innermostSimple {m s : Message} (h : m.innermostSimple = some s) :
    ∃ p, s.performative = some p := by
  induction m with
  | simple p r c ps t sd cb =>
      simp only [innermostSimple, Option.some.injEq] at h
      subst h
      exact ⟨p, rfl⟩
  | metaDef d => exact nomatch h
  | dialect n inner ih => exact ih h
  | wrapped w ps content ih => exact ih h

end Message

end CbclMessage
