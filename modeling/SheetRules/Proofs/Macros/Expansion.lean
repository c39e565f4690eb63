import Mathlib.Data.List.Forall2
import SheetRules.Proofs.Compile.Soundness
import SheetRules.Proofs.Macros.Abbreviation
import SheetRules.Proofs.Macros.Latest

/-!
# What an expression becomes when its macros are expanded

`Expands items frames e e'` says that `e'` is what `e` becomes, as an expression, when the macros in
force after `items` are expanded in it.  The frames hold the arguments of the expansions around, the
innermost first.  A static macro stands for its latest definition, expanded where that definition
stands.  A call stands for the body of the latest definition that is not rejected, expanded where
the call stands, with the arguments of the call in a frame of their own.  Nothing is assumed about
names: they may be defined again, and a parameter may have the name of a static macro or of a
parameter around.

An expression that is lowered has exactly one expansion, and its tree reads no path that the
expansion does not mention.
-/

namespace SheetRules

/-- Arguments of an expansion as expressions, by the names of the parameters. -/
abbrev ArgumentFrame := List (String × Expr)

mutual

/-- The second expression is the first one with all macros expanded. -/
inductive Expands : List Item → List ArgumentFrame → Expr → Expr → Prop
  | number {items frames value span} :
      Expands items frames (.number value span) (.number value span)
  | path {items frames p} : Expands items frames (.path p) (.path p)
  | binary {items frames left left' op right right' span} (hleft : Expands items frames left left')
      (hright : Expands items frames right right') :
      Expands items frames (.binary left op right span) (.binary left' op right' span)
  | neg {items frames inner inner' span} (hinner : Expands items frames inner inner') :
      Expands items frames (.neg inner span) (.neg inner' span)
  | call {items frames name args args' span} (hargs : ExpandsAll items frames args args') :
      Expands items frames (.call name args span) (.call name args' span)
  | paren {items frames inner inner' span} (hinner : Expands items frames inner inner') :
      Expands items frames (.paren inner span) (.paren inner' span)
  | argument {items frames name span argument}
      (hargument : frames.findSome? (fun frame => frame.lookup name.text) = some argument) :
      Expands items frames (.macroUse name span) argument
  | static {items frames name span earlier d body'}
      (hnone : frames.findSome? (fun frame => frame.lookup name.text) = none)
      (hlatest : IsLatest (MacroDef.DefinesStatic name.text) items earlier d)
      (hbody : Expands earlier [] d.body body') :
      Expands items frames (.macroUse name span) body'
  | functional {items frames name args args' span earlier d body'}
      (hlatest : IsLatest (MacroDef.BindsFunctional name.text) items earlier d)
      (hargs : ExpandsAll items frames args args')
      (harity : (d.params.getD []).length = args'.length)
      (hbody : Expands items (((d.params.getD []).map Ident.text).zip args' :: frames) d.body
        body') :
      Expands items frames (.macroCall name args span) body'

/-- Several expressions with all macros expanded. -/
inductive ExpandsAll : List Item → List ArgumentFrame → List Expr → List Expr → Prop
  | nil {items frames} : ExpandsAll items frames [] []
  | cons {items frames e e' rest rest'} (hhead : Expands items frames e e')
      (hrest : ExpandsAll items frames rest rest') :
      ExpandsAll items frames (e :: rest) (e' :: rest')

end

mutual

/-- There is one way to expand all macros. -/
theorem Expands.unique : ∀ {items : List Item} {frames : List ArgumentFrame} {e e₁ e₂ : Expr},
    Expands items frames e e₁ → Expands items frames e e₂ → e₁ = e₂
  | _, _, _, _, _, .number, .number => rfl
  | _, _, _, _, _, .path, .path => rfl
  | _, _, _, _, _, .binary hleft hright, .binary hleft' hright' => by
    rw [hleft.unique hleft', hright.unique hright']
  | _, _, _, _, _, .neg hinner, .neg hinner' => by rw [hinner.unique hinner']
  | _, _, _, _, _, .call hargs, .call hargs' => by rw [hargs.unique hargs']
  | _, _, _, _, _, .paren hinner, .paren hinner' => by rw [hinner.unique hinner']
  | _, _, _, _, _, .argument h, .argument h' => Option.some.inj (h.symm.trans h')
  | _, _, _, _, _, .argument h, .static h' _ _ => by
    rw [h'] at h
    cases h
  | _, _, _, _, _, .static h _ _, .argument h' => by
    rw [h] at h'
    cases h'
  | _, _, _, _, _, .static _ hlatest hbody, .static _ hlatest' hbody' => by
    obtain ⟨rfl, rfl⟩ := hlatest.unique hlatest'
    exact hbody.unique hbody'
  | _, _, _, _, _, .functional hlatest hargs _ hbody, .functional hlatest' hargs' _ hbody' => by
    obtain ⟨rfl, rfl⟩ := hlatest.unique hlatest'
    obtain rfl := hargs.unique hargs'
    exact hbody.unique hbody'

/-- Arguments are expanded in one way only. -/
theorem ExpandsAll.unique : ∀ {items : List Item} {frames : List ArgumentFrame}
    {es es₁ es₂ : List Expr}, ExpandsAll items frames es es₁ → ExpandsAll items frames es es₂ →
      es₁ = es₂
  | _, _, _, _, _, .nil, .nil => rfl
  | _, _, _, _, _, .cons hhead hrest, .cons hhead' hrest' => by
    rw [hhead.unique hhead', hrest.unique hrest']

end

/-! ### Trees and the expressions that they stand for -/

/-- The path is mentioned in an expression. -/
def Expr.Mentions (e : Expr) (path : String) : Prop :=
  ∃ p ∈ e.paths, p.text = path

/-- Trees that read what their expressions mention read, together, what these mention together. -/
lemma Tree.areSound_of_forall₂ {α : Type} {es : List Expr} {ts : List (Tree α)}
    (h : List.Forall₂ (fun (e : Expr) (t : Tree α) => t.IsSound e.Mentions) es ts) :
    AreSound (fun path => ∃ p ∈ Expr.pathsOfAll es, p.text = path) ts := by
  induction h with
  | nil => trivial
  | cons hhead _ ih =>
    refine ⟨hhead.mono fun path ⟨p, hp, hpath⟩ => ?_, ih.mono fun path ⟨p, hp, hpath⟩ => ?_⟩
    · exact ⟨p, List.mem_append_left _ hp, hpath⟩
    · exact ⟨p, List.mem_append_right _ hp, hpath⟩

namespace Lowering

variable {α : Type} {items : List Item} {frames : List ArgumentFrame} {scope : Scope α}

/-- The expression has an expansion that mentions every path which the tree reads. -/
def StandsFor (items : List Item) (frames : List ArgumentFrame) (e : Expr) (t : Tree α) : Prop :=
  ∃ e', Expands items frames e e' ∧ t.IsSound e'.Mentions

/-- What the names of a scope stand for, in terms of items and argument expressions: a parameter for
its argument, a static macro for its latest definition, and a functional one for its latest
definition that is not rejected. -/
structure Reflects (items : List Item) (frames : List ArgumentFrame) (scope : Scope α) :
    Prop where
  arguments : ∀ name,
    frames.findSome? (fun frame => frame.lookup name) = none ∧
        scope.frames.findSome? (fun bindings => bindings.lookup name) = none ∨
      ∃ e t, frames.findSome? (fun frame => frame.lookup name) = some e ∧
        scope.frames.findSome? (fun bindings => bindings.lookup name) = some t ∧
        t.IsSound e.Mentions
  statics : ∀ name t, scope.macros.statics.lookup name = some t →
    ∃ earlier d, IsLatest (MacroDef.DefinesStatic name) items earlier d ∧
      StandsFor earlier [] d.body t
  functionals : ∀ name d, scope.macros.functional? name = some d →
    ∃ earlier, IsLatest (MacroDef.BindsFunctional name) items earlier d

/-- A macro name stands for its tree. -/
lemma Reflects.standsFor_macroUse (h : Reflects items frames scope) {name : Ident} {span : Span}
    {t : Tree α} (hlookup : scope.lookup? name.text = some t) :
    StandsFor items frames (.macroUse name span) t := by
  rw [Scope.lookup?, List.findSome?_append] at hlookup
  rcases h.arguments name.text with ⟨hnone, hscope⟩ | ⟨e, u, hframes, hscope, hsound⟩
  · have hstatic : scope.macros.statics.lookup name.text = some t := by
      simpa [hscope] using hlookup
    obtain ⟨earlier, d, hlatest, body', hbody, hsound⟩ := h.statics _ _ hstatic
    exact ⟨body', .static hnone hlatest hbody, hsound⟩
  · obtain rfl : u = t := by
      simpa [hscope] using hlookup
    exact ⟨e, .argument hframes, hsound⟩

/-- Inside an expansion the parameters stand for the arguments. -/
lemma Reflects.enter (h : Reflects items frames scope) (params : List Ident) {args : List Expr}
    {values : List (Tree α)}
    (hvalues : List.Forall₂ (fun (e : Expr) (t : Tree α) => t.IsSound e.Mentions) args values) :
    Reflects items ((params.map Ident.text).zip args :: frames) (scope.enter params values) where
  arguments name := by
    simp only [Scope.enter, List.findSome?_cons]
    rcases lookup_zip_forall₂ hvalues (params.map Ident.text) name with
      ⟨hargs, htrees⟩ | ⟨e, t, hargs, htrees, hsound⟩
    · rw [hargs, htrees]
      exact h.arguments name
    · rw [hargs, htrees]
      exact .inr ⟨e, t, rfl, rfl, hsound⟩
  statics := h.statics
  functionals := h.functionals

variable [Arithmetic α]

mutual

/-- An expression that is lowered stands for its tree. -/
theorem Lowers.standsFor : ∀ {levels : Nat} {frames : List ArgumentFrame} {scope : Scope α}
    {e : Expr} {t : Tree α} {cost : Nat}, Lowers levels scope e t cost →
      Reflects items frames scope → StandsFor items frames e t
  | _, _, _, _, _, _, .number hvalue, _ => ⟨_, .number, (gives_constant_iff.mp hvalue).2 ▸ trivial⟩
  | _, _, _, _, _, _, .path, _ => ⟨_, .path, _, List.mem_singleton_self _, rfl⟩
  | _, _, _, _, _, _, .paren hinner, hscope => by
    obtain ⟨inner', hexpands, hsound⟩ := hinner.standsFor hscope
    exact ⟨_, .paren hexpands, hsound⟩
  | _, _, _, _, _, _, .neg hinner hnode, hscope => by
    obtain ⟨inner', hexpands, hsound⟩ := hinner.standsFor hscope
    exact ⟨_, .neg hexpands, isSound_negate hnode hsound⟩
  | _, _, _, _, _, _, .binary hleft hright hnode, hscope => by
    obtain ⟨left', hexpandsLeft, hsoundLeft⟩ := hleft.standsFor hscope
    obtain ⟨right', hexpandsRight, hsoundRight⟩ := hright.standsFor hscope
    refine ⟨_, .binary hexpandsLeft hexpandsRight, isSound_binary hnode ?_ ?_⟩
    · exact hsoundLeft.mono fun path ⟨p, hp, hpath⟩ => ⟨p, List.mem_append_left _ hp, hpath⟩
    · exact hsoundRight.mono fun path ⟨p, hp, hpath⟩ => ⟨p, List.mem_append_right _ hp, hpath⟩
  | _, _, _, _, _, _, .call _ harity hargs hnode, hscope => by
    obtain ⟨args', hexpands, hsound⟩ := hargs.standFor hscope
    exact ⟨_, .call hexpands,
      isSound_apply hnode (hargs.length_eq ▸ harity) (Tree.areSound_of_forall₂ hsound)⟩
  | _, _, _, _, _, _, .macroUse hlookup, hscope => hscope.standsFor_macroUse hlookup
  | _, _, _, _, _, _, .macroCall hname hargs harity hbody, hscope => by
    obtain ⟨earlier, hlatest⟩ := hscope.functionals _ _ hname
    obtain ⟨args', hexpands, hsound⟩ := hargs.standFor hscope
    obtain ⟨body', hexpandsBody, hsoundBody⟩ := hbody.standsFor (hscope.enter _ hsound)
    exact ⟨body', .functional hlatest hexpands (harity.trans hsound.length_eq.symm) hexpandsBody,
      hsoundBody⟩

/-- The trees of arguments stand for the expanded arguments. -/
theorem LowersAll.standFor : ∀ {levels : Nat} {frames : List ArgumentFrame} {scope : Scope α}
    {es : List Expr} {trees : List (Tree α)} {cost : Nat}, LowersAll levels scope es trees cost →
      Reflects items frames scope →
      ∃ es', ExpandsAll items frames es es' ∧
        List.Forall₂ (fun (e : Expr) (t : Tree α) => t.IsSound e.Mentions) es' trees
  | _, _, _, _, _, _, .nil, _ => ⟨[], .nil, .nil⟩
  | _, _, _, _, _, _, .cons hhead hrest, hscope => by
    obtain ⟨e', hexpandsHead, hsoundHead⟩ := hhead.standsFor hscope
    obtain ⟨rest', hexpandsRest, hsoundRest⟩ := hrest.standFor hscope
    exact ⟨e' :: rest', .cons hexpandsHead hexpandsRest, .cons hsoundHead hsoundRest⟩

end

/-- An expression that is lowered after some items has an expansion, and its tree reads only paths
that the expansion mentions. -/
theorem standsFor_of_lower (items : List Item) {e : Expr} {t : Tree Float}
    (h : lower (macrosAfter .empty items) e = .ok t) : StandsFor items [] e t := by
  obtain ⟨-, cost, hderivation⟩ := lowers_of_lower h
  refine hderivation.standsFor
    ⟨fun name => .inl ⟨rfl, rfl⟩, fun name u hu => ?_, fun name d hd => ?_⟩
  · -- the body of a static macro was lowered where fewer items had gone before
    obtain ⟨earlier, d, hlatest, hbody⟩ := (lookup_macrosAfter name items u).mp hu
    have hshorter := hlatest.length_lt
    exact ⟨earlier, d, hlatest, standsFor_of_lower earlier hbody⟩
  · exact (functional?_macrosAfter name items d).mp hd
termination_by items.length

end Lowering

end SheetRules
