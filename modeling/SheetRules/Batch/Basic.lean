import SheetRules.Store.Basic
import SheetRules.Tree.Eval

/-!
# Batches

The statements of a batch are executed in the order of their precedence, those of equal precedence
in the order of the list. What happens at a failing statement is the policy of the run: it ends
there, or the failure is recorded and the run goes on.
-/

namespace SheetRules

/-- What happens at a failing statement. -/
inductive Policy where
  | failFast
  | carryOn
deriving DecidableEq, Repr

/-- How a batch is run. -/
structure Options where
  policy : Policy := .failFast
  maxDepth : Nat := Tree.depthLimit
deriving DecidableEq, Repr

/-- A statement that could not be executed: its index in the list, its target, and why. -/
structure Failure where
  index : Nat
  target : String
  error : RunError
deriving DecidableEq, Repr

/-- The message for a failing statement. -/
def Failure.message (f : Failure) : String :=
  "statement " ++ toString f.index ++ " (target '" ++ f.target ++ "') failed: " ++ f.error.message

/-- What a batch did. -/
structure BatchReport where
  /-- The number of statements that were executed. -/
  executed : Nat := 0
  /-- The statements that failed, in the order of execution. -/
  failures : List Failure := []
deriving DecidableEq, Repr

/-- Evaluates the operand over the store and writes its value to the target. -/
def Statement.execute (limit : Nat) (s : Statement) (store : Store) :
    Except RunError Float × Store :=
  match s.operand.eval limit store.get with
  | .error e => (.error e, store)
  | .ok v =>
    let (outcome, store') := match s.action with
      | .set => store.set s.target v
      | .push => store.push s.target v
    (outcome.map fun _ => v, store')

namespace Batch

/-- The statements with their indices, in the order of execution. -/
def ordered (statements : List Statement) : List (Statement × Nat) :=
  statements.zipIdx.mergeSort fun a b =>
    decide (Double.rank a.1.precedence ≤ Double.rank b.1.precedence)

/-- The indices of the statements in the order of execution. -/
def order (statements : List Statement) : List Nat :=
  (ordered statements).map (·.2)

/-- Executes statements in the order given, and adds what happens to a report. -/
def runInOrder (options : Options) :
    List (Statement × Nat) → BatchReport → Store → Except Failure BatchReport × Store
  | [], report, store => (.ok report, store)
  | (s, index) :: rest, report, store =>
    match s.execute options.maxDepth store with
    | (.ok _, store') =>
      runInOrder options rest { report with executed := report.executed + 1 } store'
    | (.error e, store') =>
      let failure : Failure := ⟨index, s.target, e⟩
      match options.policy with
      | .failFast => (.error failure, store')
      | .carryOn =>
        runInOrder options rest { report with failures := report.failures ++ [failure] } store'

/-- Runs a batch on a store. -/
def run (options : Options) (statements : List Statement) (store : Store) :
    Except Failure BatchReport × Store :=
  runInOrder options (ordered statements) {} store

end Batch

end SheetRules
