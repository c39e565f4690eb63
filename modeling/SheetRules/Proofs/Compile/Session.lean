import SheetRules.Compile.Session
import SheetRules.Proofs.Chains
import SheetRules.Proofs.Compile.Outcomes
import SheetRules.Proofs.Lowering.Derivation

/-!
# The compiler's state is restored

The compiler of a session changes one state as it goes: expansions push scopes and pop them, and the
nodes of an item are counted from where the last one left the counter.  Every step of it agrees with
the lowering that is handed its scope (`Agrees`): it has the same result, it leaves the stack of
scopes as it found it, whether it succeeds or fails, and after a success it has counted the same
nodes.  So only definitions change what the next item finds, and an item does not see how many nodes
were charged before it: a rule can be deleted, whatever it left behind.
-/

namespace SheetRules

namespace Session

variable {α β γ : Type}

/-! ### Steps -/

/-- A step of the compiler agrees with a lowering that is handed the scope, as long as the given
number of expansions can still be entered: both have the same result, the scope is the same after
the step as before, and if the step succeeds, the same nodes have been charged. -/
def Agrees (levels : Nat) (step : Compiling α β) (lowering : Scope α → Lowering β) : Prop :=
  ∀ s : Session α, s.scope.frames.length + levels = Limit.expansions →
    ∃ nodes, step s = ((lowering s.scope s.nodes).map Prod.fst, ⟨s.scope, nodes⟩) ∧
      ∀ b used, lowering s.scope s.nodes = .ok (b, used) → nodes = used

/-- Steps one after the other agree with lowerings one after the other. -/
lemma Agrees.bind {levels : Nat} {step : Compiling α β} {next : β → Compiling α γ}
    {lowering : Scope α → Lowering β} {after : β → Scope α → Lowering γ}
    (hstep : Agrees levels step lowering) (hnext : ∀ b, Agrees levels (next b) (after b)) :
    Agrees levels (step >>= next) fun scope => lowering scope >>= fun b => after b scope := by
  intro s hs
  obtain ⟨nodes, hrun, hcount⟩ := hstep s hs
  have hbind : (lowering s.scope >>= fun b => after b s.scope) s.nodes =
      (lowering s.scope s.nodes).bind fun p => after p.1 s.scope p.2 := rfl
  cases hlowering : lowering s.scope s.nodes with
  | error fault =>
    rw [hlowering] at hrun
    refine ⟨nodes, ?_, fun b used h => ?_⟩
    · simp only [hbind, hlowering]
      exact stateBind_of_error hrun
    · simp only [hbind, hlowering] at h
      exact nomatch h
  | ok p =>
    obtain ⟨b, used⟩ := p
    rw [hlowering] at hrun
    obtain rfl := hcount b used hlowering
    obtain ⟨nodes', hrun', hcount'⟩ := hnext b ⟨s.scope, nodes⟩ hs
    refine ⟨nodes', ?_, fun c used' h => ?_⟩
    · simp only [hbind, hlowering]
      exact (stateBind_of_ok hrun).trans hrun'
    · simp only [hbind, hlowering] at h
      exact hcount' c used' h

/-- A value is a step that changes nothing. -/
lemma agrees_pure (levels : Nat) (b : β) :
    Agrees levels (pure b : Compiling α β) fun _ => pure b := by
  intro s _
  refine ⟨s.nodes, rfl, fun b' used h => ?_⟩
  exact (Prod.mk.inj (Except.ok.inj h)).2

/-- Nodes are charged in the same way; what is left of the budget after too many is not compared. -/
lemma agrees_charge (levels count : Nat) (span : Span) :
    Agrees levels (charge count span : Compiling α Unit) fun _ => Lowering.charge count span := by
  intro s _
  refine ⟨s.nodes + count, ?_, fun b used h => ?_⟩
  · simp only [charge, Lowering.charge]
    split <;> rfl
  · exact (congrArg Prod.snd (Lowering.charge_eq_ok.mp h).2).symm

/-- A step that only looks at the scope charges nothing. -/
lemma agrees_look {levels : Nat} {lowering : Scope α → Lowering β}
    (hfree : ∀ scope, Lowering.IsFree (lowering scope)) :
    Agrees levels (look lowering) lowering := by
  intro s _
  refine ⟨s.nodes, rfl, fun b used h => ?_⟩
  exact ((hfree s.scope).gives_of_eq_ok h).1.symm

/-- A step that does not need the state charges nothing. -/
lemma agrees_plain {levels : Nat} {lowering : Lowering β} (hfree : Lowering.IsFree lowering) :
    Agrees levels (plain lowering : Compiling α β) fun _ => lowering :=
  agrees_look fun _ => hfree

/-- A macro's name stands for the same tree, and its nodes are charged in the same way. -/
lemma agrees_useMacro (levels : Nat) (name : Ident) :
    Agrees levels (useMacro name : Compiling α (Tree α)) (Lowering.useMacro · name) := by
  intro s hs
  simp only [useMacro, Lowering.useMacro]
  cases hlookup : s.scope.lookup? name.text with
  | some tree =>
    exact (agrees_charge levels tree.size name.span).bind (fun _ => agrees_pure levels tree) s hs
  | none =>
    refine ⟨s.nodes, ?_, fun b used h => absurd h Lowering.fail_ne_ok⟩
    simp only [look, hlookup]

/-- The functional macro of a name is the same. -/
lemma isFree_functional (scope : Scope α) (name : Ident) :
    Lowering.IsFree (Lowering.functional scope name) := by
  rw [Lowering.functional]
  split
  · exact Lowering.isFree_pure _
  · exact Lowering.isFree_fail ..

/-- An expansion for which the stack has room runs its body with the arguments on the stack, and
takes them off again. -/
lemma agrees_expansion {levels : Nat} {body : Compiling α β} {lowering : Scope α → Lowering β}
    (hbody : Agrees levels body lowering) (name : Ident) (span : Span) (params : List Ident)
    (values : List (Tree α)) :
    Agrees (levels + 1) (expansion name span params values body) fun scope =>
      lowering (scope.enter params values) := by
  intro s hs
  have hroom : ¬s.scope.frames.length ≥ Limit.expansions := by omega
  have hinside : (s.scope.enter params values).frames.length + levels = Limit.expansions := by
    simp only [Scope.enter, List.length_cons]
    omega
  obtain ⟨nodes, hrun, hcount⟩ := hbody ⟨s.scope.enter params values, s.nodes⟩ hinside
  refine ⟨nodes, ?_, hcount⟩
  simp only [expansion, hroom, if_false, hrun]
  rfl

/-- On a full stack no expansion is entered. -/
lemma agrees_expansion_zero (body : Compiling α β) (lowering : Scope α → Lowering β) (name : Ident)
    (span : Span) (params : List Ident) (values : List (Tree α))
    (hlowering : ∀ scope, lowering scope = Lowering.fail (.expansionTooDeep name.text) span) :
    Agrees 0 (expansion name span params values body) fun scope =>
      lowering (scope.enter params values) := by
  intro s hs
  have hfull : s.scope.frames.length ≥ Limit.expansions := by omega
  refine ⟨s.nodes, ?_, fun b used h => ?_⟩
  · simp only [expansion, hfull, if_true, hlowering]
    rfl
  · simp only [hlowering] at h
    exact absurd h Lowering.fail_ne_ok

/-! ### Expressions -/

section Expressions

variable [Arithmetic α] {levels : Nat} {body : Expr → Compiling α (Tree α)}
  {expand : Lowering.Expand α}

/-- Expansions whose bodies are lowered by `body` agree with `expand`. -/
def ExpansionsAgree (levels : Nat) (body : Expr → Compiling α (Tree α))
    (expand : Lowering.Expand α) : Prop :=
  ∀ name span params values e, Agrees levels (expansion name span params values (body e))
    fun scope => expand name span (scope.enter params values) e

mutual

/-- Lowering an expression agrees with the lowering that is handed the scope, if expansions do. -/
lemma agrees_lowerWith (h : ExpansionsAgree levels body expand) : ∀ e : Expr,
    Agrees levels (lowerWith body e) fun scope => Lowering.lowerWith expand scope e
  | .number value span => by
    simp only [lowerWith, Lowering.lowerWith]
    exact (agrees_charge levels 1 span).bind fun _ =>
      agrees_plain (Lowering.isFree_constant _ span)
  | .path p => by
    simp only [lowerWith, Lowering.lowerWith]
    exact (agrees_charge levels 1 p.span).bind fun _ => agrees_pure levels _
  | .paren inner span => by
    simp only [lowerWith, Lowering.lowerWith]
    exact (agrees_charge levels 1 span).bind fun _ => agrees_lowerWith h inner
  | .neg inner span => by
    simp only [lowerWith, Lowering.lowerWith]
    refine (agrees_charge levels 1 span).bind fun _ => ?_
    refine (agrees_lowerWith h inner).bind fun tree => ?_
    exact agrees_plain (Lowering.isFree_negate tree span)
  | .binary left op right span => by
    simp only [lowerWith, Lowering.lowerWith]
    refine (agrees_charge levels 1 span).bind fun _ => (agrees_lowerWith h left).bind fun lhs => ?_
    refine (agrees_lowerWith h right).bind fun rhs => ?_
    exact agrees_plain (Lowering.isFree_binary lhs op rhs right.span span)
  | .call name args span => by
    simp only [lowerWith, Lowering.lowerWith]
    refine (agrees_charge levels 1 span).bind fun _ => ?_
    cases Builtin.ofName? name.text with
    | none => exact agrees_plain (Lowering.isFree_fail ..)
    | some f =>
      simp only
      split
      · refine (agrees_lowerAllWith h args).bind fun operands => ?_
        exact agrees_plain (Lowering.isFree_apply f operands span)
      · exact agrees_plain (Lowering.isFree_fail ..)
  | .macroUse name span => by
    simp only [lowerWith, Lowering.lowerWith]
    exact (agrees_charge levels 1 span).bind fun _ => agrees_useMacro levels name
  | .macroCall name args span => by
    simp only [lowerWith, Lowering.lowerWith]
    refine (agrees_charge levels 1 span).bind fun _ => ?_
    refine (agrees_look fun scope => isFree_functional scope name).bind fun definition => ?_
    refine (agrees_lowerAllWith h args).bind fun values => ?_
    split
    · exact h name span _ values definition.body
    · exact agrees_plain (Lowering.isFree_fail ..)

/-- Lowering several expressions agrees with the lowering that is handed the scope. -/
lemma agrees_lowerAllWith (h : ExpansionsAgree levels body expand) : ∀ es : List Expr,
    Agrees levels (lowerAllWith body es) fun scope => Lowering.lowerAllWith expand scope es
  | [] => by
    simp only [lowerAllWith, Lowering.lowerAllWith]
    exact agrees_pure levels []
  | e :: rest => by
    simp only [lowerAllWith, Lowering.lowerAllWith]
    refine (agrees_lowerWith h e).bind fun tree => (agrees_lowerAllWith h rest).bind fun trees => ?_
    exact agrees_pure levels (tree :: trees)

end

end Expressions

/-- Lowering with one state agrees with the lowering that is handed its scope. -/
theorem agrees_lowerAt [Arithmetic α] (levels : Nat) (e : Expr) :
    Agrees levels (lowerAt levels e : Compiling α (Tree α)) fun scope =>
      Lowering.lowerAt levels scope e := by
  induction levels generalizing e with
  | zero =>
    exact agrees_lowerWith (fun name span params values e =>
      agrees_expansion_zero _ _ name span params values fun _ => rfl) e
  | succ levels ih =>
    exact agrees_lowerWith (fun name span params values e =>
      agrees_expansion (ih e) name span params values) e

/-- Outside of any expansion, an expression is lowered to what the macros in force make of it, and
the stack is empty again, whatever was charged before. -/
theorem lower_eq [Arithmetic α] (macros : Macros α) (nodes : Nat) (e : Expr) : ∃ nodes',
    lower e ⟨.top macros, nodes⟩ = (Lowering.lower macros e, ⟨.top macros, nodes'⟩) := by
  obtain ⟨nodes', hrun, -⟩ := agrees_lowerAt Limit.expansions e ⟨.top macros, 0⟩ rfl
  dsimp only at hrun
  have hlower : lower e ⟨.top macros, nodes⟩ =
      (lowerAt Limit.expansions e >>= fun tree =>
        if tree.depth > Tree.depthLimit then throw ⟨.treeTooDeep tree.depth, e.span⟩
        else pure tree : Compiling α (Tree α)) ⟨.top macros, 0⟩ := rfl
  refine ⟨nodes', ?_⟩
  rw [hlower, Lowering.lower]
  cases hlowering : Lowering.lowerAt Limit.expansions (Scope.top macros) e 0 with
  | error fault =>
    rw [hlowering] at hrun
    exact stateBind_of_error hrun
  | ok p =>
    rw [hlowering] at hrun
    rw [stateBind_of_ok hrun]
    simp only [bind, Except.bind]
    split <;> rfl

/-! ### Items -/

/-- Outside of any expansion, an item gives what it gives with the macros in force, leaves those in
force that it defines, and leaves the stack empty. -/
theorem compileItem_eq (macros : Macros Float) (nodes : Nat) (item : Item) : ∃ nodes',
    compileItem ⟨.top macros, nodes⟩ item =
      ((item.compile macros).2, ⟨.top (item.compile macros).1, nodes'⟩) := by
  cases item with
  | rule r =>
    obtain ⟨nodes', hlower⟩ := lower_eq macros nodes r.value
    refine ⟨nodes', ?_⟩
    simp only [compileItem, compileRule, hlower, Item.compile, Rule.compile]
    cases Lowering.lower macros r.value <;> rfl
  | define d =>
    simp only [compileItem, compileDefinition, Item.compile, MacroDef.compile]
    cases d.params with
    | none =>
      obtain ⟨nodes', hlower⟩ := lower_eq macros nodes d.body
      refine ⟨nodes', ?_⟩
      simp only [hlower]
      cases Lowering.lower macros d.body <;> rfl
    | some params =>
      refine ⟨nodes, ?_⟩
      simp only
      cases repeatedParam? [] params <;> rfl

/-- The outcomes of items, one after the other, in the states that the items leave. -/
def outcomes (s : Session Float) : List Item → List Compiled
  | [] => []
  | item :: rest => (s.compileItem item).1 :: (s.compileItem item).2.outcomes rest

/-- The state after items. -/
def after (s : Session Float) (items : List Item) : Session Float :=
  items.foldl (fun s item => (s.compileItem item).2) s

/-- A session is outside of any expansion. -/
def IsIdle (s : Session Float) : Prop := s.scope.frames = []

/-- A session outside of any expansion is given by its macros and its counter. -/
lemma IsIdle.eq {s : Session Float} (h : s.IsIdle) : s = ⟨.top s.scope.macros, s.nodes⟩ := by
  obtain ⟨⟨macros, frames⟩, nodes⟩ := s
  cases h
  rfl

section Idle

variable {s s' : Session Float}

/-- No item is left with an expansion that was entered. -/
lemma IsIdle.compileItem (h : s.IsIdle) (item : Item) : (s.compileItem item).2.IsIdle := by
  obtain ⟨nodes', hitem⟩ := compileItem_eq s.scope.macros s.nodes item
  rw [h.eq, hitem]
  rfl

/-- After some items there is no expansion left that was entered. -/
lemma IsIdle.after (h : s.IsIdle) (items : List Item) : (s.after items).IsIdle := by
  induction items generalizing s with
  | nil => exact h
  | cons item rest ih => exact ih (h.compileItem item)

/-- Compiling with one state gives what compiling with the macros in force gives. -/
theorem compileItems_eq (macros : Macros Float) (nodes : Nat) (report : Report Fault)
    (items : List Item) :
    compileItems ⟨.top macros, nodes⟩ report items =
      SheetRules.compileItems macros report items := by
  induction items generalizing macros nodes report with
  | nil => rfl
  | cons item rest ih =>
    obtain ⟨nodes', hitem⟩ := compileItem_eq macros nodes item
    rw [compileItems, SheetRules.compileItems]
    split
    · rfl
    · cases hcompiled : (item.compile macros).2 <;> simp only [hitem, hcompiled, ih]

end Idle

end Session

/-! ### Independence -/

end SheetRules
