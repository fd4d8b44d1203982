import Cbcl.MessageModel

/-!
# The recogniser

`message.rs` reads a message from an S-expression and writes one back.  The head symbol picks
the form: `meta`, `lang`, a wrapper, or a simple message.  A custom performative is accepted
only inside a `(lang …)` scope, unless the caller asked for the lax reading.
-/

namespace CbclRecogniser

open CbclMessage

/-- The wire name of a wrapper. -/
def wrapperName : WrapperType → String
  | .envelope => "envelope"
  | .signed => "signed"
  | .withLimits => "with-limits"
  | .withRoles => "with-roles"

/-- The wrapper of a name. -/
def wrapperParse (s : String) : Option WrapperType :=
  if s = "envelope" then some .envelope
  else if s = "signed" then some .signed
  else if s = "with-limits" then some .withLimits
  else if s = "with-roles" then some .withRoles
  else none

/-- The core performative of a name. -/
def coreParse (s : String) : Option CorePerformative :=
  if s = "tell" then some .tell
  else if s = "ask" then some .ask
  else if s = "reply" then some .reply
  else if s = "error" then some .error
  else if s = "ok" then some .ok
  else if s = "cancel" then some .cancel
  else if s = "hello" then some .hello
  else if s = "bye" then some .bye
  else none

-- ── Writing ────

/-- The symbols of some names. -/
def symbols (names : List String) : List SExpr := names.map fun s => .atom (.symbol s)

/-- The recipient position, if there is one. -/
def recipientItems : Option Recipients → List SExpr
  | some (.one r) => [.atom (.symbol r)]
  | some (.set rs) => [.list (symbols rs.toList)]
  | none => []

/-- A keyword with a string value, if there is one. -/
def stringItems (key : String) : Option String → List SExpr
  | some s => [.atom (.keyword key), .atom (.str s)]
  | none => []

/-- The value of a causal reference. -/
def causedBySexpr : CausedBy → SExpr
  | .begin => .atom (.symbol BEGIN_KEYWORD)
  | .single h => .atom (.symbol h)
  | .multiple hs => .list (symbols hs)

/-- The causal keyword with its value, if there is one. -/
def causedByItems : Option CausedBy → List SExpr
  | some cb => [.atom (.keyword "caused-by"), causedBySexpr cb]
  | none => []

/-- The S-expression of a message. -/
def toSExpr : Message → SExpr
  | .simple performative recipient content params thread sender caused_by =>
      .list (.atom (.symbol performative.name) :: (recipientItems recipient
        ++ content :: (params ++ (stringItems "thread" thread
          ++ (stringItems "sender" sender ++ causedByItems caused_by)))))
  | .metaDef dialect_def => .list [.atom (.symbol "meta"), dialect_def]
  | .dialect dialect_name inner =>
      .list [.atom (.symbol "lang"), .atom (.symbol dialect_name), toSExpr inner]
  | .wrapped wrapper params content =>
      .list (.atom (.symbol (wrapperName wrapper)) :: (params ++ [toSExpr content]))

-- ── Reading ────

/-- Whether a message sits inside a `(lang …)` scope. -/
inductive LangScope where
  | unscoped
  | scoped
  | lax
deriving DecidableEq

/-- A string that starts with `@`. -/
def startsAt (s : String) : Bool := s.toList.head? = some '@'

/-- A single address token. -/
def isAddress : SExpr → Bool
  | .atom (.symbol s) => startsAt s
  | _ => false

/-- A single address, or a nonempty list of addresses. -/
def isAddressGroup : SExpr → Bool
  | .atom (.symbol s) => startsAt s
  | .list items => !items.isEmpty && items.all isAddress
  | _ => false

/-- The text of a string or symbol; anything else is printed. -/
def extractStringOrSymbol : SExpr → String
  | .atom (.str s) => s
  | .atom (.symbol s) => s
  | other => other.display

/-- The hashes of a `:caused-by` list. -/
def parseHashes : List SExpr → Except String (List String)
  | [] => .ok []
  | .atom (.symbol s) :: rest => do return s :: (← parseHashes rest)
  | .atom (.str s) :: rest => do return s :: (← parseHashes rest)
  | _ :: _ => .error ":caused-by list elements must be symbols or strings"

/-- One hash, or the reserved word. -/
def singleOrBegin (s : String) : CausedBy := if s = BEGIN_KEYWORD then .begin else .single s

/-- The value of a `:caused-by` keyword. -/
def parseCausedBy : SExpr → Except String CausedBy
  | .atom (.symbol s) => .ok (singleOrBegin s)
  | .atom (.str s) => .ok (singleOrBegin s)
  | .list [] => .error ":caused-by list must not be empty"
  | .list items => do
      let hashes ← parseHashes items
      return .multiple (hashes.insertionSort (· ≤ ·))
  | _ => .error ":caused-by value must be a symbol, string, or list of hashes"

/-- What the argument loop has read. -/
structure Args where
  content : Option SExpr
  params : List SExpr
  thread : Option String
  sender : Option String
  caused_by : Option CausedBy

/-- The argument loop: keyword pairs, then positional items; the first positional item is the
    content. -/
def parseArgs : List SExpr → Args → Except String Args
  | [], args => .ok args
  | .atom (.keyword k) :: [], _ => .error ("keyword :" ++ k ++ " missing value")
  | .atom (.keyword k) :: val :: rest, args =>
      if k = "thread" then
        parseArgs rest { args with thread := some (extractStringOrSymbol val) }
      else if k = "sender" then
        parseArgs rest { args with sender := some (extractStringOrSymbol val) }
      else if k = "caused-by" then
        match parseCausedBy val with
        | .error e => .error e
        | .ok cb => parseArgs rest { args with caused_by := some cb }
      else parseArgs rest { args with params := args.params ++ [.atom (.keyword k), val] }
  | positional :: rest, args =>
      if isAddressGroup positional then
        .error ("address(es) '" ++ positional.display ++ "' in content position; addresses "
          ++ "go in the recipient slot or a keyword value")
      else match args.content with
        | none => parseArgs rest { args with content := some positional }
        | some _ => parseArgs rest { args with params := args.params ++ [positional] }

/-- Add an address token to a set. -/
def addAddress (rs : BTreeSet String) : SExpr → BTreeSet String
  | .atom (.symbol s) => rs.insert s
  | _ => rs

/-- The recipient position: an address, or a nonempty list of addresses. -/
def parseRecipient : List SExpr → Option Recipients × List SExpr
  | .atom (.symbol s) :: rest =>
      if startsAt s then (some (.one s), rest) else (none, .atom (.symbol s) :: rest)
  | .list items :: rest =>
      if !items.isEmpty && items.all isAddress then
        (some (.set (items.foldl addAddress ∅)), rest)
      else (none, .list items :: rest)
  | tail => (none, tail)

/-- A simple message. -/
def parseSimple (head : String) (tail : List SExpr) (scope : LangScope) :
    Except String Message :=
  match coreParse head, scope with
  | none, .unscoped => .error ("'" ++ head ++ "' is not a core performative; a dialect "
      ++ "performative must be invoked inside (lang <dialect> ...) so the message names the "
      ++ "dialect that defines it")
  | core, _ =>
      match parseArgs (parseRecipient tail).2 ⟨none, [], none, none, none⟩ with
      | .error e => .error e
      | .ok args => .ok (.simple ((core.map .core).getD (.custom head)) (parseRecipient tail).1
          (args.content.getD (.list [])) args.params args.thread args.sender args.caused_by)

/-- A meta message. -/
def parseMeta : List SExpr → Except String Message
  | [] => .error "meta message requires an operation"
  | x :: _ => .ok (.metaDef x)

/-- Put a dialect scope around what was read. -/
def scopeIn (dialect_name : String) (inner : Except String Message) : Except String Message := do
  return .dialect dialect_name (← inner)

/-- Put a wrapper around what was read, if there was anything to read. -/
def wrapIn (wrapper : WrapperType) :
    Option (List SExpr × Except String Message) → Except String Message
  | none => .error "wrapped message requires an inner message"
  | some (params, inner) => do return .wrapped wrapper params (← inner)

/-- Put a parameter in front of those found. -/
def consParam (x : SExpr) (found : List SExpr × Except String Message) :
    List SExpr × Except String Message := (x :: found.1, found.2)

mutual
/-- Read a message in a scope. -/
def parseMessage (scope : LangScope) : SExpr → Except String Message
  | .atom _ => .error "message must be a list"
  | .list items => parseItems scope items
/-- Read the items of a message: the head picks the form. -/
def parseItems (scope : LangScope) : List SExpr → Except String Message
  | [] => .error "empty message"
  | .atom (.symbol head) :: tail =>
      if head = "meta" then parseMeta tail
      else if head = "lang" then parseDialectMsg tail
      else match wrapperParse head with
        | some wrapper => wrapIn wrapper (parseInner scope tail)
        | none => parseSimple head tail scope
  | _ :: _ => .error "message head must be a symbol"
/-- A dialect-scoped message: entering the scope. -/
def parseDialectMsg : List SExpr → Except String Message
  | .atom (.symbol s) :: x :: _ => scopeIn s (parseMessage .scoped x)
  | _ :: _ :: _ => .error "dialect name must be a symbol"
  | _ => .error "dialect message requires dialect name and inner message"
/-- The last list of a wrapper's arguments is its inner message; what stands before it are the
    parameters. -/
def parseInner (scope : LangScope) : List SExpr → Option (List SExpr × Except String Message)
  | [] => none
  | x :: xs => ((parseInner scope xs).map (consParam x)).or (parseIfList scope x)
/-- A list can be an inner message, an atom cannot. -/
def parseIfList (scope : LangScope) : SExpr → Option (List SExpr × Except String Message)
  | .list items => some ([], parseItems scope items)
  | .atom _ => none
end

/-- The strict recogniser. -/
def tryFrom (x : SExpr) : Except String Message := parseMessage .unscoped x

/-- The lax recogniser: custom performatives need no scope. -/
def parseLax (x : SExpr) : Except String Message := parseMessage .lax x

end CbclRecogniser
