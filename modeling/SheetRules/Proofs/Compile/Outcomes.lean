import Mathlib.Data.List.Forall2
import SheetRules.Proofs.Compile.Clean

/-!
# The outcomes of items

Every item has one outcome: a statement or a fault for a rule, nothing or a fault for a definition.
While the report has room, compiling gives the statements and the faults among the outcomes, in the
order of the items.
-/

namespace SheetRules

/-! ### Outcomes of one item -/

namespace Compiled

/-- The statement, if there is one. -/
def statement? : Compiled → Option Statement
  | .statement s => some s
  | .fault _ => none
  | .nothing => none

/-- The fault, if there is one. -/
def fault? : Compiled → Option Fault
  | .statement _ => none
  | .fault f => some f
  | .nothing => none

end Compiled

/-- What the operator of a rule does when its statement is executed. -/
inductive RuleOp.Does : RuleOp → Action → Prop
  | set : Does .set .set
  | push : Does .push .push

/-- What an item may be compiled to. -/
inductive Item.MayGive : Item → Compiled → Prop
  | ruleStatement {r : Rule} {s : Statement} (hprecedence : s.precedence = r.precedence)
      (htarget : s.target = r.target.text) (haction : r.op.Does s.action) :
      MayGive (.rule r) (.statement s)
  | ruleFault (r : Rule) (fault : Fault) : MayGive (.rule r) (.fault fault)
  | defineNothing (d : MacroDef) : MayGive (.define d) .nothing
  | defineFault (d : MacroDef) (fault : Fault) : MayGive (.define d) (.fault fault)

/-- The action of a rule's operator is what it does. -/
lemma RuleOp.does_action (op : RuleOp) : op.Does op.action := by
  cases op with
  | set => exact .set
  | push => exact .push

/-- A rule is compiled to a statement of its own, or to a fault. -/
lemma Rule.mayGive_compile (macros : Macros Float) (r : Rule) :
    (Item.rule r).MayGive (r.compile macros) := by
  unfold Rule.compile
  split
  · exact .ruleStatement rfl rfl r.op.does_action
  · exact .ruleFault r _

/-- A definition is compiled to nothing, or to a fault. -/
lemma MacroDef.mayGive_compile (macros : Macros Float) (d : MacroDef) :
    (Item.define d).MayGive (d.compile macros).2 := by
  unfold MacroDef.compile
  split
  · split
    · exact .defineNothing d
    · exact .defineFault d _
  · split
    · exact .defineFault d _
    · exact .defineNothing d

/-- An item is compiled to something that it may give. -/
lemma Item.mayGive_compile (macros : Macros Float) (item : Item) :
    item.MayGive (item.compile macros).2 := by
  cases item with
  | define d => exact d.mayGive_compile macros
  | rule r => exact r.mayGive_compile macros

/-! ### Outcomes of all items -/

/-- The outcomes of items, one after the other, starting with some macros in force. -/
def outcomes (macros : Macros Float) : List Item → List Compiled
  | [] => []
  | item :: rest => (item.compile macros).2 :: outcomes (item.compile macros).1 rest

/-- The macros in force after items, starting with some macros in force. -/
def macrosAfter (macros : Macros Float) : List Item → Macros Float
  | [] => macros
  | item :: rest => macrosAfter (item.compile macros).1 rest

/-- The outcome of an item is decided by the macros in force after the items before it. -/
lemma getElem?_outcomes (macros : Macros Float) (before : List Item) (item : Item)
    (after : List Item) :
    (outcomes macros (before ++ item :: after))[before.length]? =
      some (item.compile (macrosAfter macros before)).2 := by
  induction before generalizing macros with
  | nil => rfl
  | cons first rest ih => exact ih (first.compile macros).1

/-- The faults that items give, in order. -/
def faultsAmong (compiled : List Compiled) : List Fault :=
  compiled.filterMap Compiled.fault?

/-- Compiling goes on with one item as long as the report has room. -/
lemma compileItems_cons {macros : Macros Float} {report : Report Fault} {item : Item}
    {rest : List Item} (hroom : report.isFull = false) :
    compileItems macros report (item :: rest) =
      let compiled := (item.compile macros).2
      let after := compileItems (item.compile macros).1 (report.pushAll compiled.fault?.toList) rest
      (compiled.statement?.toList ++ after.1, after.2) := by
  simp only [compileItems, hroom, Bool.false_eq_true, if_false]
  cases hcompiled : (item.compile macros).2 with
  | statement s => rfl
  | fault fault => rfl
  | nothing => rfl

/-- The fault of the first outcome comes first. -/
lemma faultsAmong_cons (c : Compiled) (rest : List Compiled) :
    faultsAmong (c :: rest) = c.fault?.toList ++ faultsAmong rest := by
  cases c <;> rfl

/-- Lowering keeps a property: a tree has it if the trees of all static macros in force have it. -/
def Lowering.Keeps (P : Tree Float → Prop) : Prop :=
  ∀ (macros : Macros Float) (e : Expr) (t : Tree Float),
    (∀ entry ∈ macros.statics, P entry.2) → lower macros e = .ok t → P t

section Trees

variable {P : Tree Float → Prop} (hkeeps : Lowering.Keeps P)
include hkeeps

/-- One item keeps the property for the trees of the static macros. -/
lemma Item.forall_statics_compile {macros : Macros Float} (h : ∀ entry ∈ macros.statics, P entry.2)
    (item : Item) : ∀ entry ∈ (item.compile macros).1.statics, P entry.2 := by
  cases item with
  | rule r => exact h
  | define d =>
    have hkept : ∀ entry ∈ macros.statics.filter fun entry => entry.1 ≠ d.name.text, P entry.2 :=
      fun entry hentry => h entry (List.mem_of_mem_filter hentry)
    simp only [compile, MacroDef.compile]
    split
    · split
      · next tree htree => exact List.forall_mem_cons.mpr ⟨hkeeps macros d.body tree h htree, hkept⟩
      · exact hkept
    · split
      · exact h
      · exact h

/-- The statement of an item has a tree with the property. -/
lemma Item.operand_of_compile {macros : Macros Float} (h : ∀ entry ∈ macros.statics, P entry.2)
    {item : Item} {s : Statement} (hs : (item.compile macros).2.statement? = some s) :
    P s.operand := by
  have hgives := item.mayGive_compile macros
  cases hcompiled : (item.compile macros).2 with
  | fault fault =>
    rw [hcompiled] at hs
    cases hs
  | nothing =>
    rw [hcompiled] at hs
    cases hs
  | statement own =>
    rw [hcompiled] at hs hgives
    cases hs
    cases hgives with
    | @ruleStatement r =>
      change r.compile macros = _ at hcompiled
      unfold Rule.compile at hcompiled
      split at hcompiled
      · next tree htree =>
        cases hcompiled
        exact hkeeps macros r.value tree h htree
      · cases hcompiled

/-- All items together keep the property for the trees of the static macros. -/
theorem forall_statics_macrosAfter {macros : Macros Float}
    (h : ∀ entry ∈ macros.statics, P entry.2) (items : List Item) :
    ∀ entry ∈ (macrosAfter macros items).statics, P entry.2 := by
  induction items generalizing macros with
  | nil => exact h
  | cons item rest ih => exact ih (item.forall_statics_compile hkeeps h)

/-- All statements have trees with the property. -/
theorem forall_operands_compileItems {macros : Macros Float} {report : Report Fault}
    {items : List Item} (h : ∀ entry ∈ macros.statics, P entry.2) :
    ∀ s ∈ (compileItems macros report items).1, P s.operand := by
  induction items generalizing macros report with
  | nil => exact fun s hs => absurd hs List.not_mem_nil
  | cons item rest ih =>
    by_cases hfull : report.isFull = true
    · rw [compileItems, if_pos hfull]
      exact fun s hs => absurd hs List.not_mem_nil
    · rw [compileItems_cons (by simpa using hfull)]
      intro s hs
      rcases List.mem_append.mp hs with hown | hlater
      · exact Item.operand_of_compile hkeeps h (Option.mem_toList.mp hown)
      · exact ih (item.forall_statics_compile hkeeps h) s hlater

end Trees

end SheetRules
