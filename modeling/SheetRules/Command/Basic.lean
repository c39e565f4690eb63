import SheetRules.Batch.Options
import SheetRules.Command.Args
import SheetRules.Command.Effects
import SheetRules.Compile.Basic

/-!
# Commands

A command reads its files one after the other and ends at the first fault. Its result goes to one
file or to the standard output. The exit code is 0 for a command that succeeds, 1 for one that
fails, and 2 for a command line that is not understood.
-/

namespace SheetRules

namespace Command

/-- Why a command ends without a result. -/
inductive Failure where
  | unreadable (file : String) (error : DiskError)
  | unwritable (file : String) (error : DiskError)
  | notCompiled (file : String) (report : Report Diagnostic)
  | badDocument (file : String) (error : LoadError)
  | badStore (file : String) (error : LoadError)
  | badConfig (file : String) (error : Options.Fault)
  | notRun (failure : SheetRules.Failure)

/-- A diagnostic with its source line and a mark under its column. -/
def showDiagnostic (d : Diagnostic) : String :=
  let mark := String.ofList (List.replicate (d.span.column - 1) ' ')
  let line :=
    if d.sourceLine.isEmpty then ""
    else "    " ++ d.sourceLine ++ "\n    " ++ mark ++ "^\n"
  let help := match d.help? with
    | some help => "    help: " ++ help ++ "\n"
    | none => ""
  d.text ++ "\n" ++ line ++ help

/-- A report with the source lines. -/
def showReport (r : Report Diagnostic) : String :=
  String.join (r.entries.map showDiagnostic) ++ r.remainder

namespace Failure

/-- What is shown before the message. -/
def details : Failure → String
  | .notCompiled _ report => showReport report
  | _ => ""

/-- The message for a failure. -/
def message : Failure → String
  | .unreadable file _ => "failed to read " ++ file
  | .unwritable file _ => "failed to write " ++ file
  | .notCompiled file report =>
    "compilation of " ++ file ++ " failed with " ++ toString report.total ++ " error(s)"
  | .badDocument file _ => "invalid GFS document " ++ file
  | .badStore file _ => "invalid store " ++ file
  | .badConfig file _ => "invalid run config " ++ file
  | .notRun failure => failure.message

/-- What led to a failure. -/
def cause? : Failure → Option String
  | .unreadable _ error => some error.message
  | .unwritable _ error => some error.message
  | .notCompiled _ _ => none
  | .badDocument _ error => some error.message
  | .badStore _ error => some error.message
  | .badConfig _ error => some error.message
  | .notRun failure => some failure.error.message

/-- The cause as it is shown: every line of it is moved to the right. -/
def showCause (cause : String) : String :=
  "\nCaused by:\n    " ++ "\n    ".intercalate (cause.splitOn "\n") ++ "\n"

/-- A failure as it is shown. -/
def text (f : Failure) : String :=
  f.details ++ "Error: " ++ f.message ++ "\n" ++ ((f.cause?.map showCause).getD "")

end Failure

variable {m : Type → Type} [Monad m]

/-- A result that may be missing for a reason of its own. -/
def orFail {ε α : Type} (failure : ε → Failure) (result : Except ε α) : ExceptT Failure m α :=
  ExceptT.mk (pure (result.mapError failure))

/-- Reads a file. -/
def readFile (effects : Effects m) (file : String) : ExceptT Failure m String := do
  orFail (.unreadable file) (← effects.read file)

/-- Writes a file. -/
def writeFile (effects : Effects m) (file text : String) : ExceptT Failure m Unit := do
  orFail (.unwritable file) (← effects.write file text)

/-- Compiles a source to the given format. -/
def render (format : Format) (source : Source) : Except (Report Diagnostic) String :=
  match format with
  | .typeScript => source.compileToTypeScript
  | .document => source.compileToDocument

/-- The text that the command `compile` makes of its input. -/
def compileText (effects : Effects m) (args : CompileArgs) : ExceptT Failure m String := do
  let text ← readFile effects args.input
  orFail (.notCompiled args.input) (render args.format ⟨args.input, text⟩)

/-- The command `compile`. -/
def compile (effects : Effects m) (args : CompileArgs) : ExceptT Failure m Unit := do
  let text ← compileText effects args
  writeFile effects (args.output?.getD (withExtension args.input args.format.name)) text

/-- The options that the config of a run holds. -/
def readConfig (effects : Effects m) (args : RunArgs) : ExceptT Failure m Options :=
  match args.config? with
  | none => return {}
  | some file => do
    let text ← readFile effects file
    orFail (.badConfig file) (Options.load text)

/-- The text of the store after a batch. The policy of the command line goes before that of the
config. -/
def batchText (args : RunArgs) (statements : List Statement) (store : Store) (config : Options) :
    Except SheetRules.Failure String :=
  let options := if args.carryOn then { config with policy := .carryOn } else config
  match Batch.run options statements store with
  | (.error failure, _) => .error failure
  | (.ok _, store) => .ok store.toJson.pretty

/-- The text that the command `run` makes of its files. -/
def runText (effects : Effects m) (args : RunArgs) : ExceptT Failure m String := do
  let document ← readFile effects args.document
  let statements ← orFail (.badDocument args.document) (Document.load document)
  let state ← readFile effects args.store
  let store ← orFail (.badStore args.store) (Store.load state)
  let config ← readConfig effects args
  orFail .notRun (batchText args statements store config)

/-- The command `run`. -/
def run (effects : Effects m) (args : RunArgs) : ExceptT Failure m Unit := do
  let text ← runText effects args
  match args.output? with
  | some file => writeFile effects file text
  | none => effects.print (text ++ "\n")

/-- The name and version of the program. -/
def versionText : String := "gfsc 0.1.0\n"

/-- How the program is called. -/
def usageText : String :=
  "Usage: gfsc compile <INPUT> [-o <OUTPUT>] [-f ts|json]\n" ++
  "       gfsc run <STATEMENTS> -s <STORE> [-c <CONFIG>] [--continue-on-error] [-o <OUTPUT>]\n"

/-- The exit code for the result of a command. The reason of a failure is shown. -/
def exitCode (effects : Effects m) : Except Failure Unit → m Nat
  | .ok () => return 0
  | .error failure => do
    effects.complain failure.text
    return 1

/-- Takes the steps of a command, and returns the exit code. -/
def finish (effects : Effects m) (command : ExceptT Failure m Unit) : m Nat := do
  exitCode effects (← command.run)

/-- Does what a command line asks for, and returns the exit code. -/
def perform (effects : Effects m) : Invocation → m Nat
  | .compile args => finish effects (compile effects args)
  | .run args => finish effects (run effects args)
  | .version => do
    effects.print versionText
    return 0
  | .help => do
    effects.print usageText
    return 0
  | .usage => do
    effects.complain usageText
    return 2

end Command

end SheetRules
