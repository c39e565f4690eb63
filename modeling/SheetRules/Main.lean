import SheetRules.Command.Basic

/-!
# The program

Takes the steps of a command in `IO`, on the files and streams of the program.
-/

namespace SheetRules

namespace Command

/-- The cause of a failed file operation. -/
def diskError : IO.Error → DiskError
  | .noFileOrDirectory .. => .notFound
  | e => .other (toString e)

/-- The result of a file operation, with a failure as a value. -/
def caught {α : Type} (operation : IO α) : IO (Except DiskError α) := do
  return (← operation.toBaseIO).mapError diskError

/-- The steps of a command on the files and streams of the program. -/
def console : Effects IO where
  read file := caught (IO.FS.readFile file)
  write file text := caught (IO.FS.writeFile file text)
  print := IO.print
  complain := IO.eprint

end Command

end SheetRules

open SheetRules in
/-- Runs a command line. -/
def main (args : List String) : IO UInt32 := do
  let environment ← IO.getEnv "GFSC_RUN_CONFIG"
  let code ← Command.perform Command.console (Command.parse environment args)
  return code.toUInt32
