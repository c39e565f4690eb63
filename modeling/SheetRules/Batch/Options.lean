import SheetRules.Batch.Basic
import SheetRules.Json.Reader

/-!
# Run options as text

Options are written as an object with the optional fields `policy` and `max_depth`, or as a list of
the two values in that order, of which the last ones may be left out. A policy is a name, or an
object whose only field has that name and the value null.

Options are read from left to right, and the first thing that is wrong is reported, whether the text
goes on as JSON or not.
-/

namespace SheetRules

namespace Options

open Json (ReadOr)

/-- A place in a text: its line and the number of bytes before it on that line. -/
structure TextPlace where
  line : Nat
  column : Nat
deriving DecidableEq, Repr

/-- The place where the last part of a text begins. -/
def TextPlace.before (text after : List Char) : TextPlace :=
  let consumed := text.take (text.length - after.length)
  let current := String.ofList (consumed.reverse.takeWhile (· ≠ '\n'))
  ⟨consumed.count '\n' + 1, current.utf8ByteSize⟩

/-- Why a text is no run options. -/
inductive Fault where
  | notJson (fault : Json.Fault)
  | unknownField (name : String) (place : TextPlace)
  | unknownPolicy (name : String) (place : TextPlace)
  | repeatedField (name : String) (place : TextPlace)
  | wrongShape
deriving DecidableEq, Repr

/-- The end of a message that names a place. -/
def TextPlace.phrase (p : TextPlace) : String :=
  " at line " ++ toString p.line ++ " column " ++ toString p.column

/-- The message for options that cannot be read. -/
def Fault.message : Fault → String
  | .notJson .ended => "the JSON text ends too early"
  | .notJson .malformed => "the text is not JSON"
  | .unknownField name place =>
    "unknown field `" ++ name ++ "`, expected `policy` or `max_depth`" ++ place.phrase
  | .unknownPolicy name place =>
    "unknown variant `" ++ name ++ "`, expected `fail_fast` or `continue`" ++ place.phrase
  | .repeatedField name place => "duplicate field `" ++ name ++ "`" ++ place.phrase
  | .wrongShape => "the run options have the wrong shape"

/-- The name of a policy. -/
def policyName : Policy → String
  | .failFast => "fail_fast"
  | .carryOn => "continue"

/-- Reads the name of a policy after its opening quote. -/
def readPolicyName (text : List Char) : ReadOr Fault Policy := fun input => do
  let (name, rest) ← (Json.readText input).mapError .notJson
  if name = policyName .failFast then .ok (.failFast, rest)
  else if name = policyName .carryOn then .ok (.carryOn, rest)
  else .error (.unknownPolicy name (TextPlace.before text rest))

/-- Reads the null that the name of a policy has as its value in an object. -/
def readNull (input : List Char) : Except Fault (List Char) :=
  match Json.skipBlanks input with
  | [] => .error (.notJson .ended)
  | 'n' :: rest => (Json.readWord ['u', 'l', 'l'] rest).mapError .notJson
  | _ => .error .wrongShape

/-- Reads the colon and the null after the name of a policy in an object, and the end of that
object. -/
def readPolicyEnd (input : List Char) : Except Fault (List Char) := do
  let rest ← (Json.readColon input).mapError .notJson
  let rest ← readNull rest
  match Json.skipBlanks rest with
  | [] => .error (.notJson .ended)
  | '\x7d' :: rest => .ok rest
  | _ => .error (.notJson .malformed)

/-- Reads a policy. -/
def readPolicy (text : List Char) : ReadOr Fault Policy := fun input =>
  match Json.skipBlanks input with
  | [] => .error (.notJson .ended)
  | '"' :: rest => readPolicyName text rest
  | '\x7b' :: rest =>
    match Json.skipBlanks rest with
    | [] => .error (.notJson .ended)
    | '"' :: rest => do
      let (policy, rest) ← readPolicyName text rest
      .ok (policy, ← readPolicyEnd rest)
    | _ => .error .wrongShape
  | _ => .error .wrongShape

/-- Reads a depth limit: an integer that is not negative. -/
def readDepth : ReadOr Fault Nat := fun input => do
  let (v, rest) ← (Json.readWith none input).mapError .notJson
  match v with
  | .number (.int (.ofNat n)) => .ok (n, rest)
  | _ => .error .wrongShape

/-- The options read so far: which fields were there, and their values. -/
structure Given where
  policy : Option Policy := none
  maxDepth : Option Nat := none

/-- Fields that were not there have their default value. -/
def Given.complete (p : Given) : Options :=
  { policy := p.policy.getD ({} : Options).policy
    maxDepth := p.maxDepth.getD ({} : Options).maxDepth }

/-- Where a field is refused whose name has just been read: after the blanks that follow the name,
and after the end of the object if that comes next. -/
def refusalPlace (text after : List Char) : TextPlace :=
  match Json.skipBlanks after with
  | '\x7d' :: rest => TextPlace.before text rest
  | rest => TextPlace.before text rest

/-- Reads a field after its name. -/
def readField (text : List Char) (p : Given) (name : String) : ReadOr Fault Given := fun input => do
  if name = "policy" then
    if p.policy.isSome then .error (.repeatedField name (refusalPlace text input))
    else
      let rest ← (Json.readColon input).mapError .notJson
      let (policy, rest) ← readPolicy text rest
      .ok ({ p with policy := some policy }, rest)
  else if name = "max_depth" then
    if p.maxDepth.isSome then .error (.repeatedField name (refusalPlace text input))
    else
      let rest ← (Json.readColon input).mapError .notJson
      let (depth, rest) ← readDepth rest
      .ok ({ p with maxDepth := some depth }, rest)
  else .error (.unknownField name (refusalPlace text input))

/-- Reads the next of the two values in a list. -/
def readItem (text : List Char) (p : Given) : ReadOr Fault Given := fun input => do
  match p.policy, p.maxDepth with
  | none, _ =>
    let (policy, rest) ← readPolicy text input
    .ok ({ p with policy := some policy }, rest)
  | some _, none =>
    let (depth, rest) ← readDepth input
    .ok ({ p with maxDepth := some depth }, rest)
  | some _, some _ => .error .wrongShape

/-- Reads the options at the start of an input; `text` is all of the text. -/
def readGiven (text : List Char) : ReadOr Fault Given := fun input =>
  match Json.skipBlanks input with
  | '\x7b' :: rest =>
    Json.foldMembers .notJson (readField text) (rest.length + 1) true {} rest
  | '[' :: rest => Json.foldItems .notJson (readItem text) (rest.length + 1) true {} rest
  | [] => .error (.notJson .ended)
  | _ => .error .wrongShape

/-- Reads run options. -/
def load (text : String) : Except Fault Options := do
  let (p, rest) ← readGiven text.toList text.toList
  if (Json.skipBlanks rest).isEmpty then .ok p.complete else .error (.notJson .malformed)

/-- Run options as a JSON value. -/
def toJson (options : Options) : Json :=
  .object [
    ("policy", .text (policyName options.policy)),
    ("max_depth", .number (.int options.maxDepth))]

end Options

end SheetRules
