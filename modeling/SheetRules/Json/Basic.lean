import SheetRules.Number.Double

/-!
# JSON values

Documents, stores and run options are JSON values. An object is the list of its fields; reading
and writing keep the fields sorted by name and each name once, which `Fields.put` preserves.
-/

namespace SheetRules

/-- A JSON number: integers stay integers, everything else is a double. -/
inductive Json.Number where
  | int (value : Int)
  | float (value : Float)

/-- The double that a JSON number stands for. -/
def Json.Number.toFloat : Json.Number → Float
  | .int n => Float.ofInt n
  | .float x => x

/-- A JSON value. -/
inductive Json where
  | null
  | bool (value : Bool)
  | number (value : Json.Number)
  | text (value : String)
  | list (items : List Json)
  | object (fields : List (String × Json))
deriving Inhabited

namespace Json

/-- The six kinds of JSON values. -/
inductive Kind where
  | null
  | bool
  | number
  | string
  | list
  | object
deriving DecidableEq, Repr

/-- The kind as it is named in messages. -/
def Kind.phrase : Kind → String
  | .null => "null"
  | .bool => "a boolean"
  | .number => "a number"
  | .string => "a string"
  | .list => "a list"
  | .object => "an object"

/-- The kind of a value. -/
def kind : Json → Kind
  | .null => .null
  | .bool _ => .bool
  | .number _ => .number
  | .text _ => .string
  | .list _ => .list
  | .object _ => .object

/-- The size from which on an integral double is no longer written as an integer: below it,
every integer is a double of its own. -/
def integerLimit : Nat := Nat.pow 2 53

/-- The JSON number for a finite double: an integer where the value is one of moderate size. -/
def Number.ofFloat (x : Float) : Number :=
  match Double.integerBelow? integerLimit x with
  | some n => .int n
  | none => .float x

/-- The fields of an object. -/
abbrev Fields := List (String × Json)

namespace Fields

/-- The value of a field. -/
def get? (key : String) : Fields → Option Json
  | [] => none
  | (k, v) :: rest => if k = key then some v else get? key rest

/-- Sets a field where it stands; a new field takes its place among sorted names. -/
def put (key : String) (value : Json) : Fields → Fields
  | [] => [(key, value)]
  | (k, v) :: rest =>
    if key = k then (key, value) :: rest
    else if key < k ∧ (get? key rest).isNone then (key, value) :: (k, v) :: rest
    else (k, v) :: put key value rest

/-- A field's value is smaller than the list of fields. -/
theorem sizeOf_get? {key : String} {fields : Fields} {value : Json}
    (h : get? key fields = some value) : sizeOf value < sizeOf fields := by
  induction fields with
  | nil => simp [get?] at h
  | cons head rest ih =>
    obtain ⟨k, v⟩ := head
    simp only [get?] at h
    split at h
    · simp only [Option.some.injEq] at h
      subst h
      simp only [List.cons.sizeOf_spec, Prod.mk.sizeOf_spec]
      omega
    · have := ih h
      simp only [List.cons.sizeOf_spec, Prod.mk.sizeOf_spec]
      omega

end Fields

end Json

end SheetRules
