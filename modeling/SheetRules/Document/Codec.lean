import SheetRules.Json.Basic
import SheetRules.Tree.Basic

/-!
# Documents

A document is the JSON form of a list of statements. Decoding reports the first fault in the order
of the document, with a pointer to the node that is at fault.
-/

namespace SheetRules

/-- A step from a JSON value to one of its parts. -/
inductive Step where
  | field (name : String)
  | item (index : Nat)
deriving DecidableEq, Repr

/-- The way from a JSON value down to a part of it. -/
abbrev Pointer := List Step

/-- A step as it is written. -/
def Step.text : Step → String
  | .field name => "/" ++ name
  | .item index => "/" ++ toString index

/-- A pointer as it is written, empty for the whole value. -/
def Pointer.text (pointer : Pointer) : String :=
  String.join (pointer.map Step.text)

/-- The two kinds of nodes that carry an operator. -/
inductive NodeKind where
  | statement
  | expression
deriving DecidableEq, Repr

/-- The kind as it is named in messages. -/
def NodeKind.text : NodeKind → String
  | .statement => "statement"
  | .expression => "expression"

/-- What can be wrong with a node of a document. -/
inductive DecodeCause where
  | unknownOperator (kind : NodeKind) (tag : String)
  | notDocument
  | notObject (kind : NodeKind)
  | missing (field : String)
  | notNumber (field : String)
  | notText (field : String)
  | staticShape
  | dynamicShape
  | combineShape (op : Combine)
  | floorShape
  | floorCount (count : Nat)
deriving DecidableEq, Repr

/-- The message for a cause. -/
def DecodeCause.message : DecodeCause → String
  | .unknownOperator kind tag => "unknown " ++ kind.text ++ " operator '" ++ tag ++ "'"
  | .notDocument => "document must be an array of statements"
  | .notObject kind => kind.text ++ " must be an object"
  | .missing field => "missing field '" ++ field ++ "'"
  | .notNumber field => "'" ++ field ++ "' must be a number"
  | .notText field => "'" ++ field ++ "' must be a string"
  | .staticShape => "STATIC_VALUE takes a number"
  | .dynamicShape => "DYNAMIC_VALUE takes a path string"
  | .combineShape op => op.tag ++ " takes an array of expressions"
  | .floorShape => "FLOOR takes an expression"
  | .floorCount count => "FLOOR takes exactly one operand, got " ++ toString count

/-- A fault of a document and the node where it is. -/
structure DecodeError where
  pointer : Pointer
  cause : DecodeCause
deriving DecidableEq, Repr

namespace DecodeError

/-- The full message for a fault. -/
def message (e : DecodeError) : String :=
  Pointer.text e.pointer ++ ": " ++ e.cause.message

/-- The fault is an operator that is not known. -/
def isUnknownOperator (e : DecodeError) : Bool :=
  match e.cause with
  | .unknownOperator _ _ => true
  | _ => false

end DecodeError

namespace Document

open Json (Fields)

/-! ### Encoding -/

/-- The JSON form of a double, which is a given number if the double is one. A double that is no
number has no JSON form and becomes null. -/
def encodeDouble (x : Float) (number : Json.Number) : Json :=
  match Double.nonFinite? x with
  | some _ => .null
  | none => .number number

mutual

/-- The JSON form of a tree. -/
def encodeTree : Tree Float → Json
  | .static v => node .static (encodeDouble v (Json.Number.ofFloat v))
  | .dynamic path => node .dynamic (.text path)
  | .combine op operands => node (.combine op) (.list (encodeTrees operands))
  | .floor operand => node .floor (.list [encodeTree operand])

/-- The JSON forms of several trees. -/
def encodeTrees : List (Tree Float) → List Json
  | [] => []
  | t :: rest => encodeTree t :: encodeTrees rest

/-- An expression node. -/
def node (op : Operator) (operands : Json) : Json :=
  .object [("operands", operands), ("operator", .text op.tag)]

end

/-- The JSON form of a statement. The precedence is always a double. -/
def encodeStatement (s : Statement) : Json :=
  .object [
    ("operand", encodeTree s.operand),
    ("operator", .text s.action.tag),
    ("precedence", encodeDouble s.precedence (.float s.precedence)),
    ("target", .text s.target)]

/-- The JSON form of a list of statements. -/
def encode (statements : List Statement) : Json :=
  .list (statements.map encodeStatement)

/-! ### Decoding -/

/-- A field that has to be there. -/
def field (here : Pointer) (name : String) (fields : Fields) : Except DecodeError Json :=
  match fields.get? name with
  | some v => .ok v
  | none => .error ⟨here, .missing name⟩

/-- A field that holds a number. -/
def numberField (here : Pointer) (name : String) (fields : Fields) : Except DecodeError Float := do
  match ← field here name fields with
  | .number n => .ok n.toFloat
  | _ => .error ⟨here, .notNumber name⟩

/-- A field that holds a text. -/
def textField (here : Pointer) (name : String) (fields : Fields) : Except DecodeError String := do
  match ← field here name fields with
  | .text s => .ok s
  | _ => .error ⟨here, .notText name⟩

/-- The operator of an expression node. -/
def operatorField (here : Pointer) (fields : Fields) : Except DecodeError Operator := do
  let tag ← textField here "operator" fields
  match Operator.ofTag? tag with
  | some op => .ok op
  | none => .error ⟨here, .unknownOperator .expression tag⟩

mutual

/-- Decodes an expression that stands at `here` in its document. -/
def decodeTree (here : Pointer) : Json → Except DecodeError (Tree Float)
  | .object fields => do
    let op ← operatorField here fields
    let there := here ++ [.field "operands"]
    match op, h : Fields.get? "operands" fields with
    | _, none => .error ⟨here, .missing "operands"⟩
    | .static, some (.number n) => .ok (.static n.toFloat)
    | .static, some _ => .error ⟨there, .staticShape⟩
    | .dynamic, some (.text path) => .ok (.dynamic path)
    | .dynamic, some _ => .error ⟨there, .dynamicShape⟩
    | .floor, some (.list [v]) => do .ok (.floor (← decodeTree (there ++ [.item 0]) v))
    | .floor, some (.list vs) => .error ⟨there, .floorCount vs.length⟩
    | .floor, some (.object inner) => do .ok (.floor (← decodeTree there (.object inner)))
    | .floor, some _ => .error ⟨there, .floorShape⟩
    | .combine op, some (.list vs) => do .ok (.combine op (← decodeTrees there 0 vs))
    | .combine op, some _ => .error ⟨there, .combineShape op⟩
  | _ => .error ⟨here, .notObject .expression⟩
termination_by v => sizeOf v
decreasing_by
  all_goals
    have := Json.Fields.sizeOf_get? h
    simp at this ⊢
    omega

/-- Decodes the items of a list at `here`, from a given index on. -/
def decodeTrees (here : Pointer) (index : Nat) : List Json → Except DecodeError (List (Tree Float))
  | [] => .ok []
  | v :: rest => do
    let t ← decodeTree (here ++ [.item index]) v
    let ts ← decodeTrees here (index + 1) rest
    .ok (t :: ts)
termination_by vs => sizeOf vs

end

/-- Decodes a statement that stands at `here` in its document. -/
def decodeStatement (here : Pointer) : Json → Except DecodeError Statement
  | .object fields => do
    let precedence ← numberField here "precedence" fields
    let target ← textField here "target" fields
    let tag ← textField here "operator" fields
    match Action.ofTag? tag with
    | none => .error ⟨here, .unknownOperator .statement tag⟩
    | some action =>
      let operand ← field here "operand" fields
      let tree ← decodeTree (here ++ [.field "operand"]) operand
      .ok ⟨precedence, target, action, tree⟩
  | _ => .error ⟨here, .notObject .statement⟩

/-- Decodes the statements of a document, from a given index on. -/
def decodeStatements (index : Nat) : List Json → Except DecodeError (List Statement)
  | [] => .ok []
  | v :: rest => do
    let s ← decodeStatement [.item index] v
    let ss ← decodeStatements (index + 1) rest
    .ok (s :: ss)

/-- Decodes a document. -/
def decode : Json → Except DecodeError (List Statement)
  | .list items => decodeStatements 0 items
  | _ => .error ⟨[], .notDocument⟩

end Document

end SheetRules
