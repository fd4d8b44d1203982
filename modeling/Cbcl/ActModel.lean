import Cbcl.MessageModel

/-!
# Acts

An act (`state.rs`) is a message with the signer its host authenticated and the metadata the
state layer reads: its content address, verb, predecessors, recipients and keyword fields.
`Act.fromMessage` derives all of them from the innermost simple message.  What
`message_content_hash` computes (a typed Merkle root under SHA-256) is a parameter.
-/

namespace CbclAct

open CbclMessage

/-- Keywords that route a message; they are no fields of an act. -/
def ROUTING_KEYWORDS : List String := ["caused-by", "thread", "from", "to", "sender"]

/-- An act. -/
structure Act where
  address : String
  verb : String
  signer : String
  predecessors : List String
  recipients : BTreeSet String
  fields : BTreeMap String SExpr
  message : Message
deriving DecidableEq

/-- The wire spelling of a content address: `sha256-` in place of `sha256:`. -/
def wireAddress (contentHash : Message → String) (simple : Message) : String :=
  match stripStart "sha256:" (contentHash simple) with
  | some hex => "sha256-" ++ hex
  | none => contentHash simple

/-- Scan a parameter list for keyword-value pairs; a later pair of a key wins. -/
def scanFields : List SExpr → BTreeMap String SExpr → BTreeMap String SExpr
  | .atom (.keyword k) :: value :: rest, out =>
      scanFields rest (if k ∈ ROUTING_KEYWORDS then out else out.insert k value)
  | _ :: rest, out => scanFields rest out
  | [], out => out

/-- The parameters of a simple message. -/
def params : Message → List SExpr
  | .simple _ _ _ params _ _ _ => params
  | _ => []

/-- The keyword parameters of a simple message, routing keywords excluded. -/
def keywordFields (simple : Message) : BTreeMap String SExpr := scanFields (params simple) ∅

/-- The value after the first occurrence of a keyword in a parameter list. -/
def rawParam (key : String) : List SExpr → Option SExpr
  | x :: y :: rest =>
      if x = .atom (.keyword key) then some y else rawParam key (y :: rest)
  | _ => none

/-- A raw keyword parameter of a simple message, routing keywords included. -/
def rawField (simple : Message) (key : String) : Option SExpr := rawParam key (params simple)

/-- View a received message as an act of an authenticated signer. -/
def Act.fromMessage (contentHash : Message → String) (message : Message) (signer : String) :
    Except String Act :=
  match message.innermostSimple with
  | none => .error "an act must contain a simple message"
  | some simple =>
      match simple.performative with
      | none => .error "an act must have a performative"
      | some performative => .ok
          { address := wireAddress contentHash simple
            verb := performative.name
            signer
            predecessors := citedHashes simple.causedBy
            recipients := simple.recipientSet
            fields := keywordFields simple
            message }

/-- The innermost simple message of an act; every act built by `fromMessage` has one. -/
def Act.simple (a : Act) : Message := (a.message.innermostSimple).getD a.message

/-- A slice of acts a machine can hold: its length and the lengths of the lists in its fields
    are those of the source's slices and vectors. -/
structure ActSlice where
  acts : List Act
  length_lt : acts.length < 2 ^ 63
  fields_lt : ∀ a ∈ acts, ∀ (k : String) (xs : List SExpr), a.fields[k]? = some (.list xs) →
    xs.length < 2 ^ 63

/-- The dialect scope of a message. -/
def lang : Message → Option String
  | .dialect name _ => some name
  | .wrapped _ _ content => lang content
  | _ => none

/-- The bindings of the outermost cast of a message. -/
def cast : Message → Option (List SExpr)
  | .wrapped .withRoles params _ =>
      match params with
      | .list bindings :: _ => some bindings
      | _ => none
  | .wrapped _ _ content => cast content
  | .dialect _ inner => cast inner
  | _ => none

end CbclAct
