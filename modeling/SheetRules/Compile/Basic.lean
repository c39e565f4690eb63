import SheetRules.Compile.Lower
import SheetRules.Diagnostic.Basic
import SheetRules.Document.Load
import SheetRules.Document.TypeScript
import SheetRules.Feature.Parser
import SheetRules.Token.Scan

/-!
# Compiling features

Items are compiled in order. A rule gives a statement or a fault; a definition changes the macros
in force, and may give a fault. Compiling goes on after a fault until the report is full.
-/

namespace SheetRules

/-- What compiling an item gives besides the macros in force after it. -/
inductive Compiled where
  | statement (statement : Statement)
  | fault (fault : Fault)
  | nothing

/-- The first parameter whose name an earlier one has. -/
def repeatedParam? : List Ident → List Ident → Option Ident
  | _, [] => none
  | earlier, p :: rest =>
    if earlier.any fun q => q.text == p.text then some p else repeatedParam? (p :: earlier) rest

/-- Compiles the definition of a macro. A static macro that fails is not defined any more; a
functional macro with a repeated parameter leaves the macros as they are. -/
def MacroDef.compile (macros : Macros Float) (d : MacroDef) : Macros Float × Compiled :=
  match d.params with
  | none =>
    match Lowering.lower macros d.body with
    | .ok tree => (macros.defineStatic d.name.text tree, .nothing)
    | .error fault => (macros.failStatic d.name.text, .fault fault)
  | some params =>
    match repeatedParam? [] params with
    | some p => (macros, .fault ⟨.repeatedParam p.text d.name.text, p.span⟩)
    | none => (macros.defineFunctional d, .nothing)

/-- What a rule's operator does when the statement is executed. -/
def RuleOp.action : RuleOp → Action
  | .set => .set
  | .push => .push

/-- Compiles a rule. -/
def Rule.compile (macros : Macros Float) (r : Rule) : Compiled :=
  match Lowering.lower macros r.value with
  | .ok tree => .statement ⟨r.precedence, r.target.text, r.op.action, tree⟩
  | .error fault => .fault fault

/-- Compiles an item. -/
def Item.compile (macros : Macros Float) : Item → Macros Float × Compiled
  | .define d => d.compile macros
  | .rule r => (macros, r.compile macros)

/-- Compiles items one after the other until the report is full. -/
def compileItems (macros : Macros Float) (report : Report Fault) :
    List Item → List Statement × Report Fault
  | [] => ([], report)
  | item :: rest =>
    if report.isFull then ([], report)
    else
      let (macros, compiled) := item.compile macros
      match compiled with
      | .statement s =>
        let (statements, report) := compileItems macros report rest
        (s :: statements, report)
      | .fault fault => compileItems macros (report.push fault) rest
      | .nothing => compileItems macros report rest

/-- Compiles a feature; `report` holds what was reported before. -/
def Feature.compile (feature : Feature) (report : Report Fault) : List Statement × Report Fault :=
  compileItems .empty report feature.items

namespace Source

/-- Compiles a source as far as possible: tokens that were reported are left out, and so are the
lines and rules that cannot be read or compiled. The report is that of reading and compiling. -/
def compilePartly (source : Source) : List Statement × Report Diagnostic :=
  let (feature, report) := Feature.parse source.scan.tokens
  let (statements, report) := feature.compile report
  (statements, report.map (Fault.diagnose source))

/-- Compiles a source. Compiling ends after scanning, after reading or after compiling if something
was reported there. -/
def compile (source : Source) : Except (Report Diagnostic) (List Statement) :=
  let refuse := fun (report : Report Fault) => .error (report.map (Fault.diagnose source))
  let scan := source.scan
  if scan.report.hasErrors then refuse scan.report
  else
    let (feature, report) := Feature.parse scan.tokens
    if report.hasErrors then refuse report
    else
      let (statements, report) := feature.compile report
      if report.hasErrors then refuse report else .ok statements

/-- Compiles a source to a TypeScript literal. -/
def compileToTypeScript (source : Source) : Except (Report Diagnostic) String :=
  source.compile.map TypeScript.render

/-- Compiles a source to a document. -/
def compileToDocument (source : Source) : Except (Report Diagnostic) String :=
  source.compile.map Document.text

end Source

end SheetRules
