import Mathlib.Tactic.Common
import SheetRules.Compile.Basic
import SheetRules.Proofs.Diagnostic.Report
import SheetRules.Proofs.Feature.Occurrences

/-!
# Compiling without faults

A feature that is compiled without a fault has every rule turned into a statement and every
definition taken into the macros in force.  `Compiles macros items statements` says this item by
item, without reports.
-/

namespace SheetRules

/-- The statement of a rule whose expression was lowered to a tree: `=` sets the target and `++`
pushes to it. -/
def Rule.statement (r : Rule) (operand : Tree Float) : Statement where
  precedence := r.precedence
  target := r.target.text
  action := match r.op with
    | .set => .set
    | .push => .push
  operand

/-- All items are compiled, starting with some macros in force, and the rules among them give the
statements. -/
inductive Compiles : Macros Float → List Item → List Statement → Prop
  | nil {macros} : Compiles macros [] []
  | rule {macros r operand rest statements} (hvalue : Lowering.lower macros r.value = .ok operand)
      (hrest : Compiles macros rest statements) :
      Compiles macros (.rule r :: rest) (r.statement operand :: statements)
  | static {macros d value rest statements} (hparams : d.params = none)
      (hbody : Lowering.lower macros d.body = .ok value)
      (hrest : Compiles (macros.defineStatic d.name.text value) rest statements) :
      Compiles macros (.define d :: rest) statements
  | functional {macros d params rest statements} (hparams : d.params = some params)
      (hrepeated : repeatedParam? [] params = none)
      (hrest : Compiles (macros.defineFunctional d) rest statements) :
      Compiles macros (.define d :: rest) statements

/-- Compiling items never takes anything back from the report. -/
lemma total_le_compileItems (macros : Macros Float) (report : Report Fault) (items : List Item) :
    report.total ≤ (compileItems macros report items).2.total := by
  induction items generalizing macros report with
  | nil => exact Nat.le_refl _
  | cons item rest ih =>
    simp only [compileItems]
    split
    · exact Nat.le_refl _
    split
    · exact ih _ _
    · refine Nat.le_trans ?_ (ih _ _)
      simp
    · exact ih _ _

/-- A fault that is reported stays in the report. -/
lemma compileItems_push_ne_zero {macros : Macros Float} {report : Report Fault} {fault : Fault}
    {items : List Item} : (compileItems macros (report.push fault) items).2.total ≠ 0 := by
  have h := total_le_compileItems macros (report.push fault) items
  rw [Report.push_total] at h
  omega

/-- A run over items that leaves the report empty compiles every item. -/
theorem compiles_of_compileItems {macros : Macros Float} {report : Report Fault}
    {items : List Item} (h : (compileItems macros report items).2.total = 0) :
    Compiles macros items (compileItems macros report items).1 := by
  induction items generalizing macros report with
  | nil => exact .nil
  | cons item rest ih =>
    -- a report that counts nothing at the end has counted nothing before
    have hstart : report.total = 0 :=
      Nat.le_zero.mp (h ▸ total_le_compileItems macros report (item :: rest))
    have hroom : report.isFull = false := Report.not_isFull_of_total_eq_zero hstart
    simp only [compileItems, hroom, Bool.false_eq_true, if_false] at h ⊢
    cases item with
    | rule r =>
      simp only [Item.compile, Rule.compile] at h ⊢
      cases hvalue : Lowering.lower macros r.value with
      | error fault =>
        rw [hvalue] at h
        exact absurd h compileItems_push_ne_zero
      | ok operand =>
        simp only [hvalue] at h ⊢
        exact .rule hvalue (ih h)
    | define d =>
      simp only [Item.compile, MacroDef.compile] at h ⊢
      cases hparams : d.params with
      | none =>
        simp only [hparams] at h ⊢
        cases hbody : Lowering.lower macros d.body with
        | error fault =>
          rw [hbody] at h
          exact absurd h compileItems_push_ne_zero
        | ok value =>
          simp only [hbody] at h ⊢
          exact .static hparams hbody (ih h)
      | some params =>
        simp only [hparams] at h ⊢
        cases hrepeated : repeatedParam? [] params with
        | some p =>
          rw [hrepeated] at h
          exact absurd h compileItems_push_ne_zero
        | none =>
          simp only [hrepeated] at h ⊢
          exact .functional hparams hrepeated (ih h)

/-- A feature that is compiled without a fault has all its items compiled. -/
theorem Feature.compiles_of_compile (feature : Feature) {statements : List Statement}
    {report : Report Fault} (h : feature.compile .empty = (statements, report))
    (hclean : report.hasErrors = false) : Compiles .empty feature.items statements := by
  have htotal : (compileItems .empty .empty feature.items).2.total = 0 := by
    rw [← Report.hasErrors_eq_false]
    exact (congrArg (·.2.hasErrors) h).trans hclean
  have hstatements : (compileItems .empty .empty feature.items).1 = statements := congrArg (·.1) h
  exact hstatements ▸ compiles_of_compileItems htotal

/-- Items that all compile leave an empty report empty, and give their statements. -/
theorem Compiles.compileItems_eq {macros : Macros Float} {items : List Item}
    {statements : List Statement} (h : Compiles macros items statements) {report : Report Fault}
    (hreport : report.total = 0) : compileItems macros report items = (statements, report) := by
  have hroom : report.isFull = false := Report.not_isFull_of_total_eq_zero hreport
  induction h with
  | nil => rfl
  | rule hvalue hrest ih =>
    simp only [compileItems, hroom, Bool.false_eq_true, if_false, Item.compile, Rule.compile,
      hvalue, ih]
    rfl
  | static hparams hbody hrest ih =>
    simp only [compileItems, hroom, Bool.false_eq_true, if_false, Item.compile, MacroDef.compile,
      hparams, hbody, ih]
  | functional hparams hrepeated hrest ih =>
    simp only [compileItems, hroom, Bool.false_eq_true, if_false, Item.compile, MacroDef.compile,
      hparams, hrepeated, ih]

end SheetRules
