import SheetRules.Store.RunError
import SheetRules.Text.Split

/-!
# Attribute stores

A store is a JSON object that is addressed by dotted paths: `attributes.strength.value` leads
through two objects to the field `value`. Reading needs every segment to be there; writing creates
the objects that are missing on its way. A path with an empty segment leads nowhere.
-/

namespace SheetRules

open Json (Fields)

/-- The segments of a dotted path. -/
def pathSegments (path : String) : List String :=
  (Text.split '.' path.toList).map String.ofList

/-- The segments of a dotted path, if none of them is empty. -/
def properSegments? (path : String) : Option (List String) :=
  let segments := pathSegments path
  if segments.any String.isEmpty then none else some segments

/-- A character's attributes. -/
structure Store where
  fields : Fields

namespace Store

/-- A store without attributes. -/
def empty : Store := ⟨[]⟩

/-- The store as a JSON value. -/
def toJson (store : Store) : Json :=
  .object store.fields

/-- A store is made from an object; of any other value, the kind is returned. -/
def ofJson? : Json → Except Json.Kind Store
  | .object fields => .ok ⟨fields⟩
  | v => .error v.kind

/-- The number at the end of a way through nested objects. -/
def find : List String → Fields → Except PathFault Json.Number
  | [], _ => .error .emptySegment
  | [leaf], fields =>
    match fields.get? leaf with
    | some (.number n) => .ok n
    | some v => .error (.notNumber leaf v.kind)
    | none => .error (.missing leaf)
  | segment :: rest, fields =>
    match fields.get? segment with
    | some (.object inner) => find rest inner
    | some v => .error (.notObject segment v.kind)
    | none => .error (.missing segment)

/-- The number at a path. -/
def get (store : Store) (path : String) : Except RunError Float :=
  match properSegments? path with
  | none => .error (.unresolved path .emptySegment)
  | some segments =>
    match find segments store.fields with
    | .ok n => .ok n.toFloat
    | .error fault => .error (.unresolved path fault)

/-- A change of the value at the end of a way, which may be absent. -/
abbrev Change := (leaf : String) → Option Json → Except PathFault Json

/-- Walks along the segments, creating the objects that are missing, and changes the value at the
end. The fields are returned as the walk leaves them, whether it succeeds or not. -/
def write (change : Change) : List String → Fields → Except PathFault Unit × Fields
  | [], fields => (.ok (), fields)
  | [leaf], fields =>
    match change leaf (fields.get? leaf) with
    | .ok v => (.ok (), fields.put leaf v)
    | .error fault => (.error fault, fields)
  | segment :: rest, fields =>
    match fields.get? segment with
    | some (.object inner) =>
      let (outcome, inner') := write change rest inner
      (outcome, fields.put segment (.object inner'))
    | some v => (.error (.notObject segment v.kind), fields)
    | none =>
      let (outcome, inner) := write change rest []
      (outcome, fields.put segment (.object inner))

/-- Writes a finite number at a path by a given change. -/
def writeNumber (change : Json.Number → Change) (store : Store) (path : String) (value : Float) :
    Except RunError Unit × Store :=
  match Double.nonFinite? value with
  | some reason => (.error (.storeTrap path reason), store)
  | none =>
    match properSegments? path with
    | none => (.error (.invalidTarget path .emptySegment), store)
    | some segments =>
      let (outcome, fields) := write (change (Json.Number.ofFloat value)) segments store.fields
      (outcome.mapError (.invalidTarget path), ⟨fields⟩)

/-- A number takes the place of whatever there is. -/
def replace (n : Json.Number) : Change :=
  fun _ _ => .ok (.number n)

/-- A number is appended to a list, which is created if there is none. -/
def append (n : Json.Number) : Change := fun leaf found =>
  match found with
  | none => .ok (.list [.number n])
  | some (.list items) => .ok (.list (items ++ [.number n]))
  | some v => .error (.notList leaf v.kind)

/-- Writes a number at a path. -/
def set : Store → String → Float → Except RunError Unit × Store :=
  writeNumber replace

/-- Appends a number to the list at a path. -/
def push : Store → String → Float → Except RunError Unit × Store :=
  writeNumber append

end Store

end SheetRules
