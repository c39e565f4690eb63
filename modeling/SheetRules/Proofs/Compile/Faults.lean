import Mathlib.Dynamics.FixedPoints.Basic
import SheetRules.Proofs.Compile.Outcomes
import SheetRules.Proofs.Feature.Spans

/-!
# Where the faults of compiling stand

Compiling makes no spans of its own.  Each fault stands at a span that the items are written with:
that of an expression, of a name or of a parameter, in the item that is compiled or in the body of a
macro that it uses.  This is said with a change of spans: if it leaves all spans of the items, then
it leaves those of the faults.
-/

namespace SheetRules

open Function (IsFixedPt)

variable {f : Span → Span}

/-! ### Items that do not change -/

namespace Expr

/-- An expression that a change of spans leaves alone has a span that it leaves alone. -/
lemma isFixedPt_span {e : Expr} (h : IsFixedPt (mapSpans f) e) : IsFixedPt f e.span := by
  have hspan := span_mapSpans f e
  rw [h] at hspan
  exact hspan.symm

end Expr

/-- The change leaves the functional macros in force. -/
def Macros.IsFixed {α : Type} (f : Span → Span) (macros : Macros α) : Prop :=
  ∀ d ∈ macros.functionals, IsFixedPt (MacroDef.mapSpans f) d

namespace MacroDef

variable {d : MacroDef}

/-- A macro that a change of spans leaves alone has a body that it leaves alone. -/
lemma isFixedPt_body (h : IsFixedPt (mapSpans f) d) : IsFixedPt (Expr.mapSpans f) d.body :=
  congrArg body h

/-- A macro that a change of spans leaves alone has parameters that it leaves alone. -/
lemma isFixedPt_param (h : IsFixedPt (mapSpans f) d) {params : List Ident}
    (hparams : d.params = some params) {p : Ident} (hp : p ∈ params) : IsFixedPt f p.span := by
  have hall : d.params.map (List.map (Ident.mapSpan f)) = d.params := congrArg MacroDef.params h
  rw [hparams, Option.map_some, Option.some.injEq] at hall
  obtain ⟨index, hindex⟩ := List.mem_iff_getElem?.mp hp
  have hsame := congrArg (·[index]?) hall
  simp only [List.getElem?_map, hindex, Option.map_some, Option.some.injEq] at hsame
  exact congrArg Ident.span hsame

end MacroDef

/-! ### Lowering -/

/-- The cause has nothing to do with how deep expansions are nested. -/
def Cause.IsShallow : Cause → Prop
  | .expansionTooDeep _ => False
  | _ => True

/-- All causes but that of too many levels are shallow. -/
lemma Cause.isShallow_iff {cause : Cause} : cause.IsShallow ↔ cause.code ≠ 203 := by
  cases cause <;> simp [IsShallow, code]

namespace Lowering

variable {α β γ : Type} {P : Fault → Prop} {span : Span}

/-- Every fault of the lowering is one of the given ones. -/
structure FailsWithin (P : Fault → Prop) (m : Lowering β) : Prop where
  fault : ∀ used fault, m used = .error fault → P fault

/-- Whatever is wrong at the span is one of the given faults, unless expansions are nested too
deep. -/
def Allows (P : Fault → Prop) (span : Span) : Prop :=
  ∀ cause : Cause, cause.IsShallow → P ⟨cause, span⟩

/-- What succeeds does not fail elsewhere. -/
lemma failsWithin_pure (b : β) : FailsWithin P (pure b : Lowering β) := by
  refine ⟨?_⟩
  rintro used fault ⟨⟩

/-- A failure with a fault that is allowed. -/
lemma failsWithin_fail {cause : Cause} (h : P ⟨cause, span⟩) :
    FailsWithin P (fail cause span : Lowering β) := by
  refine ⟨?_⟩
  rintro used _ ⟨⟩
  exact h

/-- Two steps that both fail within the allowed faults. -/
lemma FailsWithin.bind {m : Lowering β} {next : β → Lowering γ} (hm : FailsWithin P m)
    (hnext : ∀ b, FailsWithin P (next b)) : FailsWithin P (m >>= next) := by
  refine ⟨fun used fault hrun => ?_⟩
  change (m used >>= fun r => next r.1 r.2) = .error fault at hrun
  cases hfirst : m used with
  | error first =>
    rw [hfirst] at hrun
    cases hrun
    exact hm.fault used fault hfirst
  | ok r =>
    rw [hfirst] at hrun
    exact (hnext r.1).fault r.2 fault hrun

/-- Charging fails at the span that it is charged to. -/
lemma failsWithin_charge (h : Allows P span) (count : Nat) : FailsWithin P (charge count span) := by
  refine ⟨fun used fault hrun => ?_⟩
  unfold charge at hrun
  split at hrun
  · cases hrun
    exact h _ trivial
  · exact nomatch hrun

/-- A macro that is not defined is a fault at its name. -/
lemma failsWithin_useMacro {name : Ident} (h : Allows P name.span) (scope : Scope α) :
    FailsWithin P (useMacro scope name) := by
  unfold useMacro
  split
  · exact (failsWithin_charge h _).bind fun _ => failsWithin_pure _
  · exact failsWithin_fail (h _ trivial)

/-- A functional macro that is used is in force. -/
lemma functional_bind {scope : Scope α} {name : Ident} {next : MacroDef → Lowering β}
    (h : Allows P name.span)
    (hnext : ∀ d, scope.macros.functional? name.text = some d → FailsWithin P (next d)) :
    FailsWithin P (functional scope name >>= next) := by
  unfold functional
  split
  · next d hd => exact hnext d hd
  · refine ⟨?_⟩
    rintro used _ ⟨⟩
    exact h _ trivial

variable {expand : Expand α} {scope : Scope α}

/-- The functional macros whose names are listed can be expanded with no other faults than the given
ones, where the calls stand at spans that are left. -/
def ExpandsWithin (P : Fault → Prop) (f : Span → Span) (expand : Expand α) (scope : Scope α)
    (names : List String) : Prop :=
  ∀ (name : Ident) (span : Span) (scope' : Scope α) (d : MacroDef), name.text ∈ names →
    scope.macros.functional? name.text = some d → scope'.macros = scope.macros →
    IsFixedPt f span → FailsWithin P (expand name span scope' d.body)

/-- Fewer names ask for less. -/
lemma ExpandsWithin.mono {names names' : List String} (h : ExpandsWithin P f expand scope names)
    (hsubset : names' ⊆ names) : ExpandsWithin P f expand scope names' :=
  fun name span scope' d hname => h name span scope' d (hsubset hname)

variable [Arithmetic α]

/-- A constant fails at its own span only. -/
lemma failsWithin_constant (h : Allows P span) (value : α) :
    FailsWithin P (constant value span) := by
  unfold constant
  split
  · exact failsWithin_fail (h _ trivial)
  · exact failsWithin_pure _

/-- Folding fails at the span of the operation only. -/
lemma failsWithin_fold (h : Allows P span) (op : BinaryOp) (a b : α) :
    FailsWithin P (liftM (fold op a b span) : Lowering α) := by
  have hfold : ∀ fault, fold op a b span = .error fault → P fault := by
    intro fault hfault
    unfold fold at hfault
    cases op with
    | add | sub | mul => exact nomatch hfault
    | div | floorDiv =>
      dsimp only at hfault
      split at hfault
      · cases hfault
        exact h _ trivial
      · exact nomatch hfault
  refine ⟨fun used fault hrun => ?_⟩
  cases hvalue : fold op a b span with
  | error first =>
    rw [hvalue] at hrun
    cases hrun
    exact hfold fault hvalue
  | ok value =>
    rw [hvalue] at hrun
    exact nomatch hrun

/-- A quotient fails at the span of its divisor only. -/
lemma failsWithin_quotient (h : Allows P span) (op : BinaryOp) (left right : Tree α) :
    FailsWithin P (quotient op left right span) := by
  unfold quotient
  split
  · exact failsWithin_fail (h _ trivial)
  · split
    · exact failsWithin_fail (h _ trivial)
    · split
      · exact failsWithin_pure _
      · exact (failsWithin_constant h _).bind fun _ => failsWithin_pure _

/-- An operation fails at its own span or at that of its divisor. -/
lemma failsWithin_binary {divisor : Span} (hdivisor : Allows P divisor) (h : Allows P span)
    (op : BinaryOp) (left right : Tree α) :
    FailsWithin P (binary left op right divisor span) := by
  unfold binary
  split
  · exact (failsWithin_fold hdivisor op _ _).bind fun _ => failsWithin_constant h _
  · cases op with
    | add | sub | mul => exact failsWithin_pure _
    | div => exact failsWithin_quotient hdivisor ..
    | floorDiv => exact (failsWithin_quotient hdivisor ..).bind fun _ => failsWithin_pure _

/-- A sign fails at its own span only. -/
lemma failsWithin_negate (h : Allows P span) (tree : Tree α) :
    FailsWithin P (negate tree span) := by
  unfold negate
  split
  · exact failsWithin_constant h _
  · exact failsWithin_pure _

/-- A function fails at its own span only. -/
lemma failsWithin_apply (h : Allows P span) (builtin : Builtin) (operands : List (Tree α)) :
    FailsWithin P (apply builtin operands span) := by
  unfold apply
  split
  · exact failsWithin_constant h _
  · exact failsWithin_constant h _
  · exact failsWithin_constant h _
  · exact failsWithin_pure _
  · exact failsWithin_pure _
  · exact failsWithin_pure _
  · exact failsWithin_fail (h _ trivial)

/-! ### Expressions -/

mutual

/-- Lowering an expression fails at its spans, or where the expansion of a call in it does. -/
lemma failsWithin_lowerWith (hown : ∀ span, IsFixedPt f span → Allows P span) :
    ∀ e : Expr, IsFixedPt (Expr.mapSpans f) e → ExpandsWithin P f expand scope e.callNames →
      FailsWithin P (lowerWith expand scope e)
  | .number value span, h, _ => by
    have hspan := hown span (Expr.isFixedPt_span h)
    rw [lowerWith]
    exact (failsWithin_charge hspan 1).bind fun _ => failsWithin_constant hspan _
  | .path p, h, _ => by
    have hspan := hown p.span (Expr.isFixedPt_span h)
    rw [lowerWith]
    exact (failsWithin_charge hspan 1).bind fun _ => failsWithin_pure _
  | .paren inner span, h, hexpand => by
    have hspan := hown span (Expr.isFixedPt_span h)
    have hinner := (Expr.paren.inj h).1
    rw [lowerWith]
    exact (failsWithin_charge hspan 1).bind fun _ => failsWithin_lowerWith hown inner hinner hexpand
  | .neg inner span, h, hexpand => by
    have hspan := hown span (Expr.isFixedPt_span h)
    have hinner := (Expr.neg.inj h).1
    rw [lowerWith]
    refine (failsWithin_charge hspan 1).bind fun _ => ?_
    refine (failsWithin_lowerWith hown inner hinner hexpand).bind fun tree => ?_
    exact failsWithin_negate hspan tree
  | .binary left op right span, h, hexpand => by
    have hspan := hown span (Expr.isFixedPt_span h)
    obtain ⟨hleft, -, hright, -⟩ := Expr.binary.inj h
    have hexpandLeft := hexpand.mono (List.subset_append_left left.callNames right.callNames)
    have hexpandRight := hexpand.mono (List.subset_append_right left.callNames right.callNames)
    rw [lowerWith]
    refine (failsWithin_charge hspan 1).bind fun _ => ?_
    refine (failsWithin_lowerWith hown left hleft hexpandLeft).bind fun lhs => ?_
    refine (failsWithin_lowerWith hown right hright hexpandRight).bind fun rhs => ?_
    exact failsWithin_binary (hown _ (Expr.isFixedPt_span hright)) hspan op lhs rhs
  | .call name args span, h, hexpand => by
    have hspan := hown span (Expr.isFixedPt_span h)
    obtain ⟨hname, hargs, -⟩ := Expr.call.inj h
    have hname := hown name.span (congrArg Ident.span hname)
    rw [lowerWith]
    refine (failsWithin_charge hspan 1).bind fun _ => ?_
    split
    · exact failsWithin_fail (hname _ trivial)
    · split
      · refine (failsWithin_lowerAllWith hown args hargs hexpand).bind fun operands => ?_
        exact failsWithin_apply hspan _ operands
      · exact failsWithin_fail (hspan _ trivial)
  | .macroUse name span, h, _ => by
    have hspan := hown span (Expr.isFixedPt_span h)
    have hname := hown name.span (congrArg Ident.span (Expr.macroUse.inj h).1)
    rw [lowerWith]
    exact (failsWithin_charge hspan 1).bind fun _ => failsWithin_useMacro hname scope
  | .macroCall name args span, h, hexpand => by
    have hfixed : IsFixedPt f span := Expr.isFixedPt_span h
    have hspan := hown span hfixed
    obtain ⟨hname, hargs, -⟩ := Expr.macroCall.inj h
    have hname := hown name.span (congrArg Ident.span hname)
    have hexpandArgs := hexpand.mono (List.subset_cons_self name.text (Expr.callNamesOfAll args))
    rw [lowerWith]
    refine (failsWithin_charge hspan 1).bind fun _ => ?_
    refine functional_bind hname fun d hd => ?_
    refine (failsWithin_lowerAllWith hown args hargs hexpandArgs).bind fun values => ?_
    dsimp only
    -- with the right number of arguments only the expansion can fail
    split
    · exact hexpand name span _ d List.mem_cons_self hd rfl hfixed
    · exact failsWithin_fail (hspan _ trivial)

/-- Arguments fail within what is allowed for each of them. -/
lemma failsWithin_lowerAllWith (hown : ∀ span, IsFixedPt f span → Allows P span) :
    ∀ es : List Expr, IsFixedPt (Expr.mapSpansOfAll f) es →
      ExpandsWithin P f expand scope (Expr.callNamesOfAll es) →
      FailsWithin P (lowerAllWith expand scope es)
  | [], _, _ => by
    rw [lowerAllWith]
    exact failsWithin_pure _
  | e :: rest, h, hexpand => by
    obtain ⟨hhead, hrest⟩ := List.cons.inj h
    have hexpandHead :=
      hexpand.mono (List.subset_append_left e.callNames (Expr.callNamesOfAll rest))
    have hexpandRest :=
      hexpand.mono (List.subset_append_right e.callNames (Expr.callNamesOfAll rest))
    rw [lowerAllWith]
    refine (failsWithin_lowerWith hown e hhead hexpandHead).bind fun tree => ?_
    refine (failsWithin_lowerAllWith hown rest hrest hexpandRest).bind fun trees => ?_
    exact failsWithin_pure _

end

/-- However deep expansions are nested, lowering fails at the spans of the expression and of the
bodies of the macros in force. -/
lemma failsWithin_lowerAt (levels : Nat) {scope : Scope α} (hmacros : scope.macros.IsFixed f)
    {e : Expr} (he : IsFixedPt (Expr.mapSpans f) e) :
    FailsWithin (fun fault => IsFixedPt f fault.span) (lowerAt levels scope e) := by
  induction levels generalizing scope e with
  | zero =>
    refine failsWithin_lowerWith (fun span hspan _ _ => hspan) e he fun _ _ _ _ _ _ _ hspan => ?_
    exact failsWithin_fail hspan
  | succ levels ih =>
    refine failsWithin_lowerWith (fun span hspan _ _ => hspan) e he ?_
    intro name span scope' d _ hd hscope _
    have hbody := MacroDef.isFixedPt_body (hmacros d (List.mem_of_find?_eq_some hd))
    exact ih (by rwa [hscope]) hbody

/-- A change of spans that leaves the expression and the macros alone leaves the fault alone. -/
lemma isFixedPt_of_lower {macros : Macros α} (hmacros : macros.IsFixed f) {e : Expr}
    (he : IsFixedPt (Expr.mapSpans f) e) {fault : Fault} (h : lower macros e = .error fault) :
    IsFixedPt f fault.span := by
  unfold lower at h
  cases hrun : lowerAt Limit.expansions (Scope.top macros) e 0 with
  | error first =>
    rw [hrun] at h
    cases h
    exact (failsWithin_lowerAt _ hmacros he).fault 0 fault hrun
  | ok r =>
    rw [hrun] at h
    change (if r.1.depth > Tree.depthLimit then _ else _) = _ at h
    split at h
    · cases h
      exact Expr.isFixedPt_span he
    · exact nomatch h

end Lowering

/-! ### Items -/

/-- A parameter that is repeated is one of the parameters. -/
lemma mem_of_repeatedParam? {earlier params : List Ident} {p : Ident}
    (h : repeatedParam? earlier params = some p) : p ∈ params := by
  induction params generalizing earlier with
  | nil => exact nomatch h
  | cons q rest ih =>
    rw [repeatedParam?] at h
    split at h
    · cases h
      exact List.mem_cons_self ..
    · exact List.mem_cons_of_mem _ (ih h)

namespace Item

variable {macros : Macros Float}

/-- An item fails at a span that is left, and the macros in force after it are left too. -/
lemma isFixed_compile (hmacros : macros.IsFixed f) {i : Item} (hi : IsFixedPt (mapSpans f) i) :
    (i.compile macros).1.IsFixed f ∧
      ∀ fault, (i.compile macros).2 = .fault fault → IsFixedPt f fault.span := by
  cases i with
  | rule r =>
    refine ⟨hmacros, fun fault hfault => ?_⟩
    have hvalue : IsFixedPt (Expr.mapSpans f) r.value := congrArg Rule.value (Item.rule.inj hi)
    simp only [compile, Rule.compile] at hfault
    split at hfault
    · cases hfault
    · cases hfault
      exact Lowering.isFixedPt_of_lower hmacros hvalue ‹_›
  | define d =>
    have hd : IsFixedPt (MacroDef.mapSpans f) d := Item.define.inj hi
    simp only [compile, MacroDef.compile]
    split
    · split
      · refine ⟨hmacros, ?_⟩
        rintro _ ⟨⟩
      · next fault hlower =>
        refine ⟨hmacros, ?_⟩
        rintro _ ⟨⟩
        exact Lowering.isFixedPt_of_lower hmacros (MacroDef.isFixedPt_body hd) hlower
    · next params hparams =>
      split
      · next p hp =>
        refine ⟨hmacros, ?_⟩
        rintro _ ⟨⟩
        exact MacroDef.isFixedPt_param hd hparams (mem_of_repeatedParam? hp)
      · -- a functional macro is kept as it stands, and its body is looked at when it is used
        refine ⟨List.forall_mem_cons.mpr ⟨hd, hmacros⟩, ?_⟩
        rintro _ ⟨⟩

end Item

/-- Compiling reports faults at spans that are left. -/
theorem isFixedPt_of_mem_compileItems {items : List Item} {macros : Macros Float}
    {report : Report Fault} (hmacros : macros.IsFixed f)
    (hitems : ∀ i ∈ items, IsFixedPt (Item.mapSpans f) i)
    (hreport : ∀ fault ∈ report.entries, IsFixedPt f fault.span) :
    ∀ fault ∈ (compileItems macros report items).2.entries, IsFixedPt f fault.span := by
  induction items generalizing macros report with
  | nil => exact hreport
  | cons i rest ih =>
    obtain ⟨hi, hrest⟩ := List.forall_mem_cons.mp hitems
    obtain ⟨hmacros', hfault⟩ := Item.isFixed_compile hmacros hi
    by_cases hfull : report.isFull = true
    · rw [compileItems, if_pos hfull]
      exact hreport
    · rw [compileItems_cons (by simpa using hfull)]
      refine ih hmacros' hrest fun fault hmem => ?_
      cases hcompiled : (i.compile macros).2 with
      | statement s =>
        rw [hcompiled] at hmem
        exact hreport fault hmem
      | nothing =>
        rw [hcompiled] at hmem
        exact hreport fault hmem
      | fault own =>
        rw [hcompiled] at hmem
        obtain hmem | rfl := Report.mem_entries_push hmem
        · exact hreport fault hmem
        · exact hfault fault hcompiled

end SheetRules
