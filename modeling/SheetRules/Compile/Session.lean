import SheetRules.Compile.Basic

/-!
# Compiling with one state

`Lowering` is handed the scope of every place, and forgets its budget at a fault. Here the compiler
owns both: the stack of scopes and the number of nodes charged are one state that all items share,
and what a fault leaves behind is found by the next item. An expansion pushes its arguments on the
stack and takes them off again, also if its body fails; an item starts to count nodes at zero.
-/

namespace SheetRules

variable {α : Type} [Arithmetic α]

/-- The scope around an expansion. -/
def Scope.leave {α : Type} (scope : Scope α) : Scope α :=
  { scope with frames := scope.frames.tail }

/-- What the compiler knows while it goes on. -/
structure Session (α : Type) where
  /-- The macros in force, and the arguments of the expansions that were entered. -/
  scope : Scope α
  /-- The nodes charged to the budget of the current item. -/
  nodes : Nat

/-- A step of the compiler, which may change the state whether it fails or not. -/
abbrev Compiling (α β : Type) := ExceptT Fault (StateM (Session α)) β

namespace Session

/-- Nothing is defined and nothing was compiled. -/
def start {α : Type} : Session α := ⟨.top .empty, 0⟩

/-- Charges nodes to the budget. They are counted even if there are too many. -/
def charge (count : Nat) (span : Span) : Compiling α Unit := fun s =>
  let s := { s with nodes := s.nodes + count }
  (if s.nodes > Limit.nodes then .error ⟨.treeTooLarge, span⟩ else .ok (), s)

/-- A step that only looks at the scope. -/
def look {β : Type} (step : Scope α → Lowering β) : Compiling α β := fun s =>
  ((step s.scope s.nodes).map Prod.fst, s)

/-- A step that does not need the state. -/
def plain {β : Type} (step : Lowering β) : Compiling α β :=
  look fun _ => step

/-- The tree that a plain macro name stands for. Its nodes are charged, since they are copied. -/
def useMacro (name : Ident) : Compiling α (Tree α) := fun s =>
  match s.scope.lookup? name.text with
  | some tree => (do
      charge tree.size name.span
      pure tree : Compiling α (Tree α)) s
  | none => look (Lowering.useMacro · name) s

/-- Takes a step with the arguments of an expansion on the stack, unless too many expansions were
entered. The stack is as before after the step, also if it fails. -/
def expansion {β : Type} (name : Ident) (span : Span) (params : List Ident) (values : List (Tree α))
    (body : Compiling α β) : Compiling α β := fun s =>
  if s.scope.frames.length ≥ Limit.expansions then
    (.error ⟨.expansionTooDeep name.text, span⟩, s)
  else
    let (result, s) := body { s with scope := s.scope.enter params values }
    (result, { s with scope := s.scope.leave })

mutual

/-- Lowers an expression; the bodies of functional macros are lowered by `body`. -/
def lowerWith (body : Expr → Compiling α (Tree α)) : Expr → Compiling α (Tree α)
  | .number value span => do
    charge 1 span
    plain (Lowering.constant (Arithmetic.ofFloat value) span)
  | .path p => do
    charge 1 p.span
    pure (.dynamic p.text)
  | .paren inner span => do
    charge 1 span
    lowerWith body inner
  | .neg inner span => do
    charge 1 span
    let tree ← lowerWith body inner
    plain (Lowering.negate tree span)
  | .binary left op right span => do
    charge 1 span
    let lhs ← lowerWith body left
    let rhs ← lowerWith body right
    plain (Lowering.binary lhs op rhs right.span span)
  | .call name args span => do
    charge 1 span
    match Builtin.ofName? name.text with
    | none => plain (Lowering.fail (.undefinedFunction name.text) name.span)
    | some f =>
      if f.takes args.length then
        let operands ← lowerAllWith body args
        plain (Lowering.apply f operands span)
      else plain (Lowering.fail (.wrongArgumentCount f args.length) span)
  | .macroUse name span => do
    charge 1 span
    useMacro name
  | .macroCall name args span => do
    charge 1 span
    let definition ← look (Lowering.functional · name)
    let values ← lowerAllWith body args
    let params := definition.params.getD []
    if params.length = values.length then
      expansion name span params values (body definition.body)
    else plain (Lowering.fail (.macroArity name.text params.length values.length) span)

/-- Lowers several expressions from left to right. -/
def lowerAllWith (body : Expr → Compiling α (Tree α)) : List Expr → Compiling α (List (Tree α))
  | [] => pure []
  | e :: rest => do
    let tree ← lowerWith body e
    let trees ← lowerAllWith body rest
    pure (tree :: trees)

end

/-- Lowers an expression inside of which the given number of expansions can be entered before the
stack is full. No body is lowered on a full stack. -/
def lowerAt : (levels : Nat) → Expr → Compiling α (Tree α)
  | 0 => lowerWith fun e => plain (Lowering.fail .treeTooLarge e.span)
  | levels + 1 => lowerWith (lowerAt levels)

/-- Lowers the expression of an item with a budget of its own. The tree must not be too deep. -/
def lower (e : Expr) : Compiling α (Tree α) := do
  modify fun s => { s with nodes := 0 }
  let tree ← lowerAt Limit.expansions e
  if tree.depth > Tree.depthLimit then throw ⟨.treeTooDeep tree.depth, e.span⟩ else pure tree

/-- The session with other macros in force. -/
def setMacros {α : Type} (s : Session α) (macros : Macros α) : Session α :=
  { s with scope := { s.scope with macros } }

/-- Compiles the definition of a macro. -/
def compileDefinition (d : MacroDef) (s : Session Float) : Compiled × Session Float :=
  match d.params with
  | none =>
    match lower d.body s with
    | (.ok tree, s) => (.nothing, s.setMacros (s.scope.macros.defineStatic d.name.text tree))
    | (.error fault, s) => (.fault fault, s.setMacros (s.scope.macros.failStatic d.name.text))
  | some params =>
    match repeatedParam? [] params with
    | some p => (.fault ⟨.repeatedParam p.text d.name.text, p.span⟩, s)
    | none => (.nothing, s.setMacros (s.scope.macros.defineFunctional d))

/-- Compiles a rule. -/
def compileRule (r : Rule) (s : Session Float) : Compiled × Session Float :=
  match lower r.value s with
  | (.ok tree, s) => (.statement ⟨r.precedence, r.target.text, r.op.action, tree⟩, s)
  | (.error fault, s) => (.fault fault, s)

/-- Compiles an item. -/
def compileItem (s : Session Float) : Item → Compiled × Session Float
  | .define d => compileDefinition d s
  | .rule r => compileRule r s

/-- Compiles items one after the other until the report is full. -/
def compileItems (s : Session Float) (report : Report Fault) :
    List Item → List Statement × Report Fault
  | [] => ([], report)
  | item :: rest =>
    if report.isFull then ([], report)
    else
      let (compiled, s) := s.compileItem item
      match compiled with
      | .statement statement =>
        let (statements, report) := s.compileItems report rest
        (statement :: statements, report)
      | .fault fault => s.compileItems (report.push fault) rest
      | .nothing => s.compileItems report rest

/-- Compiles a feature; `report` holds what was reported before. -/
def compile (feature : Feature) (report : Report Fault) : List Statement × Report Fault :=
  start.compileItems report feature.items

end Session

end SheetRules
