import SheetRules.Document.Codec
import SheetRules.Json.Reader
import SheetRules.Json.Writer
import SheetRules.Store.Basic

/-!
# Documents and stores as text
-/

namespace SheetRules

/-- Why a text is no document or no store. -/
inductive LoadError where
  | notJson (fault : Json.Fault)
  | undecodable (error : DecodeError)
  | notStore (found : Json.Kind)
deriving DecidableEq, Repr

/-- The message for a text that cannot be loaded. -/
def LoadError.message : LoadError → String
  | .notJson .ended => "malformed GFS document: the JSON text ends too early"
  | .notJson .malformed => "malformed GFS document: the text is not JSON"
  | .undecodable e =>
    if e.isUnknownOperator then e.message else "malformed GFS document: " ++ e.message
  | .notStore found =>
    "malformed GFS document: attribute store must be a JSON object, got " ++ found.phrase

/-- Reads the statements of a document. -/
def Document.load (text : String) : Except LoadError (List Statement) :=
  match Json.read text with
  | .error fault => .error (.notJson fault)
  | .ok v => (Document.decode v).mapError .undecodable

/-- The text of a document, over several lines. -/
def Document.text (statements : List Statement) : String :=
  (Document.encode statements).pretty

/-- Reads a store. -/
def Store.load (text : String) : Except LoadError Store :=
  match Json.read text with
  | .error fault => .error (.notJson fault)
  | .ok v => (Store.ofJson? v).mapError .notStore

end SheetRules
