import Mathlib.Data.List.Forall2
import Mathlib.Data.List.Nodup
import SheetRules.Proofs.Feature.Occurrences

/-!
# Writing macros out

A macro can be written out by hand: a static macro `!m` is replaced by its body in parentheses, and
a call `!f(a, b)` is replaced by the body of `f` with every parameter `!p` replaced by its argument
in parentheses.  Doing this again and again, until no macro is left, turns a feature into one
without macros.

`Inlines definitions e e'` says that `e'` is what `e` becomes in this way.  Arguments are put into
the body as they are written, before anything else is done with them, so the relation knows nothing
of scopes.  Where every macro is defined once, there is at most one such `e'`.
-/

namespace SheetRules

namespace Expr

mutual

/-- Replaces the macros that are used by plain names bound in `arguments`: each by its argument in
parentheses. -/
def fill (arguments : List (String × Expr)) : Expr → Expr
  | .number value span => .number value span
  | .path p => .path p
  | .binary left op right span => .binary (left.fill arguments) op (right.fill arguments) span
  | .neg inner span => .neg (inner.fill arguments) span
  | .call name args span => .call name (fillAll arguments args) span
  | .macroUse name span =>
    match arguments.lookup name.text with
    | some argument => .paren argument span
    | none => .macroUse name span
  | .macroCall name args span => .macroCall name (fillAll arguments args) span
  | .paren inner span => .paren (inner.fill arguments) span

/-- Replaces the bound macros in several expressions. -/
def fillAll (arguments : List (String × Expr)) : List Expr → List Expr
  | [] => []
  | e :: rest => e.fill arguments :: fillAll arguments rest

end

/-- Filling in arguments keeps the number of expressions. -/
lemma length_fillAll (arguments : List (String × Expr)) (es : List Expr) :
    (fillAll arguments es).length = es.length := by
  induction es with
  | nil => simp [fillAll]
  | cons e rest ih => simp [fillAll, ih]

mutual

/-- Nothing is replaced if nothing is bound. -/
lemma fill_nil : ∀ e : Expr, e.fill [] = e
  | .number _ _ => by simp only [fill]
  | .path _ => by simp only [fill]
  | .binary left _ right _ => by simp only [fill, fill_nil left, fill_nil right]
  | .neg inner _ => by simp only [fill, fill_nil inner]
  | .call _ args _ => by simp only [fill, fillAll_nil args]
  | .macroUse _ _ => by simp only [fill, List.lookup_nil]
  | .macroCall _ args _ => by simp only [fill, fillAll_nil args]
  | .paren inner _ => by simp only [fill, fill_nil inner]

/-- Without arguments nothing is filled in. -/
lemma fillAll_nil : ∀ es : List Expr, fillAll [] es = es
  | [] => by simp only [fillAll]
  | e :: rest => by simp only [fillAll, fill_nil e, fillAll_nil rest]

end

end Expr

/-- The body of a functional macro with its parameters replaced by the arguments of a call. -/
def MacroDef.instantiate (d : MacroDef) (params : List Ident) (args : List Expr) : Expr :=
  d.body.fill ((params.map Ident.text).zip args)

mutual

/-- The second expression is the first one with all macros written out. -/
inductive Inlines (definitions : List MacroDef) : Expr → Expr → Prop
  | number {value span} : Inlines definitions (.number value span) (.number value span)
  | path {p} : Inlines definitions (.path p) (.path p)
  | binary {left left' op right right' span} (hleft : Inlines definitions left left')
      (hright : Inlines definitions right right') :
      Inlines definitions (.binary left op right span) (.binary left' op right' span)
  | neg {inner inner' span} (hinner : Inlines definitions inner inner') :
      Inlines definitions (.neg inner span) (.neg inner' span)
  | call {name args args' span} (hargs : InlinesAll definitions args args') :
      Inlines definitions (.call name args span) (.call name args' span)
  | paren {inner inner' span} (hinner : Inlines definitions inner inner') :
      Inlines definitions (.paren inner span) (.paren inner' span)
  | static {d name span body'} (hd : d ∈ definitions) (hparams : d.params = none)
      (hname : d.name.text = name.text) (hbody : Inlines definitions d.body body') :
      Inlines definitions (.macroUse name span) (.paren body' span)
  | functional {d params name args span e'} (hd : d ∈ definitions)
      (hparams : d.params = some params) (hname : d.name.text = name.text)
      (harity : params.length = args.length)
      (hbody : Inlines definitions (d.instantiate params args) e') :
      Inlines definitions (.macroCall name args span) e'

/-- Several expressions with all macros written out. -/
inductive InlinesAll (definitions : List MacroDef) : List Expr → List Expr → Prop
  | nil : InlinesAll definitions [] []
  | cons {e e' rest rest'} (hhead : Inlines definitions e e')
      (hrest : InlinesAll definitions rest rest') :
      InlinesAll definitions (e :: rest) (e' :: rest')

end

mutual

/-- No macro is left. -/
theorem Inlines.isMacroFree {definitions : List MacroDef} :
    ∀ {e e' : Expr}, Inlines definitions e e' → e'.isMacroFree = true
  | _, _, .number => by simp only [Expr.isMacroFree]
  | _, _, .path => by simp only [Expr.isMacroFree]
  | _, _, .binary hleft hright => by
    simp only [Expr.isMacroFree, hleft.isMacroFree, hright.isMacroFree, Bool.and_self]
  | _, _, .neg hinner => by simp only [Expr.isMacroFree, hinner.isMacroFree]
  | _, _, .call hargs => by simp only [Expr.isMacroFree, hargs.areMacroFree]
  | _, _, .paren hinner => by simp only [Expr.isMacroFree, hinner.isMacroFree]
  | _, _, .static _ _ _ hbody => by simp only [Expr.isMacroFree, hbody.isMacroFree]
  | _, _, .functional _ _ _ _ hbody => hbody.isMacroFree

/-- Inlined expressions have no macros. -/
theorem InlinesAll.areMacroFree {definitions : List MacroDef} :
    ∀ {es es' : List Expr}, InlinesAll definitions es es' → Expr.areMacroFree es' = true
  | _, _, .nil => by simp only [Expr.areMacroFree]
  | _, _, .cons hhead hrest => by
    simp only [Expr.areMacroFree, hhead.isMacroFree, hrest.areMacroFree, Bool.and_self]

end

/-- Inlining keeps the number of expressions. -/
lemma InlinesAll.length_eq {definitions : List MacroDef} {es es' : List Expr}
    (h : InlinesAll definitions es es') : es'.length = es.length := by
  induction es generalizing es' with
  | nil => cases h with | nil => rfl
  | cons e rest ih =>
    cases h with
    | cons _ hrest => rw [List.length_cons, List.length_cons, ih hrest]

/-! ### Features without surprises -/

namespace Feature

/-- The names of the static macros that a feature defines. -/
def staticNames (feature : Feature) : List String :=
  (feature.definitions.filter (·.params.isNone)).map (·.name.text)

/-- The names of the functional macros that a feature defines. -/
def functionalNames (feature : Feature) : List String :=
  (feature.definitions.filter (·.params.isSome)).map (·.name.text)

/-- The macros of a feature have unambiguous names: each is defined once among its kind, a parameter
never has the name of a static macro, and the body of a functional macro names only its own
parameters and static macros. -/
structure HasPlainMacros (feature : Feature) : Prop where
  static_once : feature.staticNames.Nodup
  functional_once : feature.functionalNames.Nodup
  param_not_static : ∀ d ∈ feature.definitions, ∀ p ∈ d.params.getD [],
    p.text ∉ feature.staticNames
  body_names : ∀ d ∈ feature.definitions, d.params.isSome = true → ∀ name ∈ d.body.plainNames,
    name ∈ (d.params.getD []).map Ident.text ∨ name ∈ feature.staticNames

variable {feature : Feature}

/-- A static macro is known by its name. -/
lemma HasPlainMacros.static_unique (h : feature.HasPlainMacros) {d d' : MacroDef}
    (hd : d ∈ feature.definitions) (hd' : d' ∈ feature.definitions) (hparams : d.params = none)
    (hparams' : d'.params = none) (hname : d.name.text = d'.name.text) : d = d' := by
  refine List.inj_on_of_nodup_map h.static_once (x := d) ?_ ?_ hname
  · exact List.mem_filter.mpr ⟨hd, by simp [hparams]⟩
  · exact List.mem_filter.mpr ⟨hd', by simp [hparams']⟩

/-- A functional macro is known by its name. -/
lemma HasPlainMacros.functional_unique (h : feature.HasPlainMacros) {d d' : MacroDef}
    (hd : d ∈ feature.definitions) (hd' : d' ∈ feature.definitions) (hparams : d.params.isSome)
    (hparams' : d'.params.isSome) (hname : d.name.text = d'.name.text) : d = d' := by
  refine List.inj_on_of_nodup_map h.functional_once (x := d) ?_ ?_ hname
  · exact List.mem_filter.mpr ⟨hd, hparams⟩
  · exact List.mem_filter.mpr ⟨hd', hparams'⟩

end Feature

mutual

/-- There is one way to write all macros out. -/
theorem Inlines.unique {feature : Feature} (hplain : feature.HasPlainMacros) :
    ∀ {e e₁ e₂ : Expr}, Inlines feature.definitions e e₁ →
      Inlines feature.definitions e e₂ → e₁ = e₂
  | _, _, _, .number, .number => rfl
  | _, _, _, .path, .path => rfl
  | _, _, _, .binary hleft hright, .binary hleft' hright' => by
    rw [Inlines.unique hplain hleft hleft', Inlines.unique hplain hright hright']
  | _, _, _, .neg hinner, .neg hinner' => by rw [Inlines.unique hplain hinner hinner']
  | _, _, _, .call hargs, .call hargs' => by rw [InlinesAll.unique hplain hargs hargs']
  | _, _, _, .paren hinner, .paren hinner' => by rw [Inlines.unique hplain hinner hinner']
  | _, _, _, .static hd hparams hname hbody, .static hd' hparams' hname' hbody' => by
    obtain rfl := hplain.static_unique hd hd' hparams hparams' (hname.trans hname'.symm)
    rw [Inlines.unique hplain hbody hbody']
  | _, _, _, .functional hd hparams hname _ hbody, .functional hd' hparams' hname' _ hbody' => by
    obtain rfl := hplain.functional_unique hd hd' (by simp [hparams]) (by simp [hparams'])
      (hname.trans hname'.symm)
    obtain rfl := Option.some.inj (hparams.symm.trans hparams')
    exact Inlines.unique hplain hbody hbody'

/-- Expressions are inlined in one way only. -/
theorem InlinesAll.unique {feature : Feature} (hplain : feature.HasPlainMacros) :
    ∀ {es es₁ es₂ : List Expr}, InlinesAll feature.definitions es es₁ →
      InlinesAll feature.definitions es es₂ → es₁ = es₂
  | _, _, _, .nil, .nil => rfl
  | _, _, _, .cons hhead hrest, .cons hhead' hrest' => by
    rw [Inlines.unique hplain hhead hhead', InlinesAll.unique hplain hrest hrest']

end

/-! ### Rules and features written out -/

/-- The second rule is the first one with the macros of its expression written out. -/
def Rule.Inlines (definitions : List MacroDef) (r r' : Rule) : Prop :=
  ∃ value, SheetRules.Inlines definitions r.value value ∧ r' = { r with value }

namespace Feature

/-- The second feature has the rules of the first one, in order and with all macros written out, and
no definitions. -/
def Inlines (feature inlined : Feature) : Prop :=
  ∃ rules, List.Forall₂ (Rule.Inlines feature.definitions) feature.rules rules ∧
    inlined = ⟨rules.map .rule, feature.span⟩

/-- The feature defines no macros and uses none. -/
def IsMacroFree (feature : Feature) : Prop :=
  feature.definitions = [] ∧ ∀ r ∈ feature.rules, r.value.isMacroFree = true

/-- The rules of a feature of rules are these rules. -/
@[simp] lemma rules_map_rule (rules : List Rule) (span : Span) :
    Feature.rules ⟨rules.map .rule, span⟩ = rules := by
  induction rules with
  | nil => rfl
  | cons r rest ih => simpa [Feature.rules, Item.rule?] using ih

/-- A feature of rules has no definitions. -/
@[simp] lemma definitions_map_rule (rules : List Rule) (span : Span) :
    Feature.definitions ⟨rules.map .rule, span⟩ = [] := by
  simp [definitions, Item.definition?]

/-- What a feature becomes uses no macros. -/
theorem Inlines.isMacroFree {feature inlined : Feature} (h : feature.Inlines inlined) :
    inlined.IsMacroFree := by
  obtain ⟨rules, hrules, rfl⟩ := h
  refine ⟨definitions_map_rule rules feature.span, fun r hr => ?_⟩
  rw [rules_map_rule] at hr
  obtain ⟨i, hi, rfl⟩ := List.getElem_of_mem hr
  obtain ⟨value, hvalue, heq⟩ := List.forall₂_iff_get.mp hrules |>.2 i
    (by rwa [hrules.length_eq]) hi
  simp only [List.get_eq_getElem] at heq
  rw [heq]
  exact hvalue.isMacroFree

/-- A feature with unambiguous names becomes one feature only. -/
theorem Inlines.unique {feature inlined inlined' : Feature} (hplain : feature.HasPlainMacros)
    (h : feature.Inlines inlined) (h' : feature.Inlines inlined') : inlined = inlined' := by
  obtain ⟨rules, hrules, rfl⟩ := h
  obtain ⟨rules', hrules', rfl⟩ := h'
  have heq : rules = rules' := by
    generalize feature.rules = written at hrules hrules'
    induction hrules generalizing rules' with
    | nil => cases hrules' with | nil => rfl
    | cons hhead hrest ih =>
      cases hrules' with
      | cons hhead' hrest' =>
        obtain ⟨value, hvalue, rfl⟩ := hhead
        obtain ⟨value', hvalue', rfl⟩ := hhead'
        rw [SheetRules.Inlines.unique hplain hvalue hvalue', ih _ hrest']
  rw [heq]

end Feature

end SheetRules
