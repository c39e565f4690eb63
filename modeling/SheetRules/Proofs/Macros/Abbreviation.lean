import SheetRules.Proofs.Compile.Clean
import SheetRules.Proofs.Lowering.Derivation
import SheetRules.Proofs.Macros.Inlining
import SheetRules.Proofs.Text.Cuts

/-!
# Macros are abbreviations

A feature that compiles without faults compiles to the same statements when its macros are written
out, as far as the rules written out stay within the node budget.

While a feature is compiled, the arguments of a call are lowered once, where the call stands, and
their trees are bound to the parameters; a static macro is lowered where it is defined.  Writing
macros out puts expressions in the place of expressions instead.  `Means` connects the two: the
expression, once its macros are written out, is lowered to the tree.  The invariant of the proof is
that every name means, as an expression, the tree that it is bound to: in the macros in force
(`FaithfulMacros`), and in the frames of the expansions around (`Covers`).
-/

namespace SheetRules

/-! ### Looking names up -/

/-- A name is looked up in the innermost expansion first. -/
lemma Scope.lookup?_enter {α : Type} (scope : Scope α) (params : List Ident)
    (values : List (Tree α)) (name : String) :
    (scope.enter params values).lookup? name =
      (((params.map Ident.text).zip values).lookup name).or (scope.lookup? name) := by
  simp only [Scope.lookup?, Scope.enter, List.cons_append, List.findSome?_cons]
  cases ((params.map Ident.text).zip values).lookup name <;> rfl

/-- Two lists of values bound to the same names are looked up side by side. -/
lemma lookup_zip_forall₂ {β γ : Type} {R : β → γ → Prop} {bs : List β} {cs : List γ}
    (h : List.Forall₂ R bs cs) (keys : List String) (key : String) :
    (keys.zip bs).lookup key = none ∧ (keys.zip cs).lookup key = none ∨
      ∃ b c, (keys.zip bs).lookup key = some b ∧ (keys.zip cs).lookup key = some c ∧ R b c := by
  induction h generalizing keys with
  | nil => simp
  | cons hhead _ ih =>
    cases keys with
    | nil => simp
    | cons k rest =>
      simp only [List.zip_cons_cons, List.lookup_cons]
      cases key == k with
      | true => exact .inr ⟨_, _, rfl, rfl, hhead⟩
      | false => exact ih rest

/-- Every parameter has an argument if there are equally many. -/
lemma lookup_zip_ne_none {β : Type} {keys : List String} {bs : List β} {key : String}
    (hlength : keys.length = bs.length) (hkey : key ∈ keys) : (keys.zip bs).lookup key ≠ none := by
  induction keys generalizing bs with
  | nil => simp at hkey
  | cons k rest ih =>
    cases bs with
    | nil => simp at hlength
    | cons b bs =>
      simp only [List.zip_cons_cons, List.lookup_cons]
      cases hk : key == k with
      | true => simp
      | false =>
        have hne : key ≠ k := by simpa using hk
        exact ih (by simpa using hlength) ((List.mem_cons.mp hkey).resolve_left hne)

namespace Lowering

variable {α : Type} [Arithmetic α]

/-! ### Expressions without macros -/

mutual

/-- An expression without macros stands for the same tree in every scope. -/
theorem Lowers.of_isMacroFree : ∀ {levels : Nat} {scope : Scope α} {e : Expr} {t : Tree α}
    {cost : Nat}, Lowers levels scope e t cost → e.isMacroFree = true →
      ∀ (levels' : Nat) (scope' : Scope α), Lowers levels' scope' e t cost
  | _, _, _, _, _, .number hvalue, _, _, _ => .number hvalue
  | _, _, _, _, _, .path, _, _, _ => .path
  | _, _, _, _, _, .paren hinner, hfree, levels', scope' => by
    simp only [Expr.isMacroFree] at hfree
    exact .paren (hinner.of_isMacroFree hfree levels' scope')
  | _, _, _, _, _, .neg hinner hnode, hfree, levels', scope' => by
    simp only [Expr.isMacroFree] at hfree
    exact .neg (hinner.of_isMacroFree hfree levels' scope') hnode
  | _, _, _, _, _, .binary hleft hright hnode, hfree, levels', scope' => by
    simp only [Expr.isMacroFree, Bool.and_eq_true] at hfree
    exact .binary (hleft.of_isMacroFree hfree.1 levels' scope')
      (hright.of_isMacroFree hfree.2 levels' scope') hnode
  | _, _, _, _, _, .call hname harity hargs hnode, hfree, levels', scope' => by
    simp only [Expr.isMacroFree] at hfree
    exact .call hname harity (hargs.of_areMacroFree hfree levels' scope') hnode
  | _, _, _, _, _, .macroUse _, hfree, _, _ => by simp [Expr.isMacroFree] at hfree
  | _, _, _, _, _, .macroCall _ _ _ _, hfree, _, _ => by simp [Expr.isMacroFree] at hfree

/-- Arguments without macros are lowered alike everywhere. -/
theorem LowersAll.of_areMacroFree : ∀ {levels : Nat} {scope : Scope α} {es : List Expr}
    {trees : List (Tree α)} {cost : Nat}, LowersAll levels scope es trees cost →
      Expr.areMacroFree es = true →
      ∀ (levels' : Nat) (scope' : Scope α), LowersAll levels' scope' es trees cost
  | _, _, _, _, _, .nil, _, _, _ => .nil
  | _, _, _, _, _, .cons hhead hrest, hfree, levels', scope' => by
    simp only [Expr.areMacroFree, Bool.and_eq_true] at hfree
    exact .cons (hhead.of_isMacroFree hfree.1 levels' scope')
      (hrest.of_areMacroFree hfree.2 levels' scope')

end

/-- The tree of an operator does not depend on where its operands stand. -/
lemma gives_binary_of_span {op : BinaryOp} {left right t : Tree α} {divisor span : Span}
    (h : Gives (binary left op right divisor span) t) (divisor' : Span) :
    Gives (binary left op right divisor' span) t := by
  rw [gives_binary_iff] at h ⊢
  rcases h with hfolded | ⟨hdynamic, ht⟩
  · exact .inl hfolded
  · refine .inr ⟨hdynamic, ?_⟩
    cases op with
    | add => exact ht
    | sub => exact ht
    | mul => exact ht
    | div => exact gives_quotient_iff.mpr (gives_quotient_iff.mp ht)
    | floorDiv =>
      obtain ⟨scaled, hscaled, rfl⟩ := ht
      exact ⟨scaled, gives_quotient_iff.mpr (gives_quotient_iff.mp hscaled), rfl⟩

/-! ### What an expression means once its macros are written out -/

/-- Once its macros are written out, the expression stands for the tree. -/
def Means (definitions : List MacroDef) (e : Expr) (t : Tree α) : Prop :=
  ∃ e' cost, Inlines definitions e e' ∧ Lowers 0 (.top .empty) e' t cost

variable {definitions : List MacroDef}

/-- Parentheses mean what they hold. -/
lemma Means.paren {e : Expr} {t : Tree α} (h : Means definitions e t) (span : Span) :
    Means definitions (.paren e span) t := by
  obtain ⟨e', cost, hinlines, hlowers⟩ := h
  exact ⟨.paren e' span, 1 + cost, .paren hinlines, .paren hlowers⟩

/-- A sign means the negated tree. -/
lemma Means.neg {e : Expr} {operand t : Tree α} {span : Span} (h : Means definitions e operand)
    (hnode : Gives (negate operand span) t) : Means definitions (.neg e span) t := by
  obtain ⟨e', cost, hinlines, hlowers⟩ := h
  exact ⟨.neg e' span, 1 + cost, .neg hinlines, .neg hlowers hnode⟩

/-- An operation means what its operands give. -/
lemma Means.binary {left right : Expr} {op : BinaryOp} {lhs rhs t : Tree α} {divisor span : Span}
    (hl : Means definitions left lhs) (hr : Means definitions right rhs)
    (hnode : Gives (Lowering.binary lhs op rhs divisor span) t) :
    Means definitions (.binary left op right span) t := by
  obtain ⟨left', costLeft, hinlinesLeft, hlowersLeft⟩ := hl
  obtain ⟨right', costRight, hinlinesRight, hlowersRight⟩ := hr
  exact ⟨.binary left' op right' span, 1 + costLeft + costRight, .binary hinlinesLeft hinlinesRight,
    .binary hlowersLeft hlowersRight (gives_binary_of_span hnode right'.span)⟩

/-- Expressions that mean trees one by one do so together. -/
lemma exists_inlinesAll_of_means {es : List Expr} {trees : List (Tree α)}
    (h : List.Forall₂ (Means definitions) es trees) :
    ∃ es' cost, InlinesAll definitions es es' ∧ LowersAll 0 (.top .empty) es' trees cost := by
  induction h with
  | nil => exact ⟨[], 0, .nil, .nil⟩
  | cons hhead _ ih =>
    obtain ⟨e', costHead, hinlines, hlowers⟩ := hhead
    obtain ⟨es', costRest, hinlinesAll, hlowersAll⟩ := ih
    exact ⟨e' :: es', costHead + costRest, .cons hinlines hinlinesAll, .cons hlowers hlowersAll⟩

/-- A function means what its arguments give. -/
lemma Means.call {name : Ident} {args : List Expr} {span : Span} {f : Builtin}
    {operands : List (Tree α)} {t : Tree α} (hname : Builtin.ofName? name.text = some f)
    (harity : f.takes args.length = true) (hargs : List.Forall₂ (Means definitions) args operands)
    (hnode : Gives (apply f operands span) t) : Means definitions (.call name args span) t := by
  obtain ⟨args', cost, hinlines, hlowers⟩ := exists_inlinesAll_of_means hargs
  exact ⟨.call name args' span, 1 + cost, .call hinlines,
    .call hname (hinlines.length_eq ▸ harity) hlowers hnode⟩

/-- A static macro means what its body means. -/
lemma Means.static {d : MacroDef} {name : Ident} {span : Span} {t : Tree α} (hd : d ∈ definitions)
    (hparams : d.params = none) (hname : d.name.text = name.text)
    (h : Means definitions d.body t) : Means definitions (.macroUse name span) t := by
  obtain ⟨body', cost, hinlines, hlowers⟩ := h
  exact ⟨.paren body' span, 1 + cost, .static hd hparams hname hinlines, .paren hlowers⟩

/-- A call means what the body with the arguments put in means. -/
lemma Means.functional {d : MacroDef} {params : List Ident} {name : Ident} {args : List Expr}
    {span : Span} {t : Tree α} (hd : d ∈ definitions) (hparams : d.params = some params)
    (hname : d.name.text = name.text) (harity : params.length = args.length)
    (h : Means definitions (d.instantiate params args) t) :
    Means definitions (.macroCall name args span) t := by
  obtain ⟨e', cost, hinlines, hlowers⟩ := h
  exact ⟨e', cost, .functional hd hparams hname harity hinlines, hlowers⟩

/-! ### Names and what they are bound to -/

/-- Every macro in force is one of the feature's: a functional macro is kept as it is defined, and
the tree of a static macro is what its body means. -/
structure FaithfulMacros (feature : Feature) (macros : Macros α) : Prop where
  functional : ∀ name d, macros.functional? name = some d →
    d ∈ feature.definitions ∧ d.name.text = name ∧ d.params.isSome = true
  static : ∀ name t, macros.statics.lookup name = some t →
    ∃ d ∈ feature.definitions, d.params = none ∧ d.name.text = name ∧
      Means feature.definitions d.body t

/-- The macros in force are faithful, and no argument around has the name of a static macro. -/
structure FaithfulScope (feature : Feature) (scope : Scope α) : Prop where
  macros : FaithfulMacros feature scope.macros
  frame : ∀ frame ∈ scope.frames, ∀ name ∈ feature.staticNames, frame.lookup name = none

/-- Every one of the names that is bound to a tree means it, with the arguments put in. -/
def Covers (definitions : List MacroDef) (scope : Scope α) (arguments : List (String × Expr))
    (names : List String) : Prop :=
  ∀ ident span t, ident.text ∈ names → scope.lookup? ident.text = some t →
    Means definitions ((Expr.macroUse ident span).fill arguments) t

/-- A scope that covers some names covers fewer of them. -/
lemma Covers.mono {scope : Scope α} {arguments : List (String × Expr)} {names names' : List String}
    (h : Covers definitions scope arguments names) (hsubset : ∀ name ∈ names', name ∈ names) :
    Covers definitions scope arguments names' :=
  fun ident span t hident hlookup => h ident span t (hsubset _ hident) hlookup

/-- The name of a static macro is looked up among the static macros. -/
lemma FaithfulScope.lookup?_static {feature : Feature} {scope : Scope α}
    (h : FaithfulScope feature scope) {name : String} (hname : name ∈ feature.staticNames) :
    scope.lookup? name = scope.macros.statics.lookup name := by
  have hframes : scope.frames.findSome? (fun bindings => bindings.lookup name) = none :=
    List.findSome?_eq_none_iff.mpr fun frame hframe => h.frame frame hframe name hname
  simp [Scope.lookup?, List.findSome?_append, hframes]

/-- The name of a static macro means the tree that it is bound to. -/
lemma FaithfulScope.means_static {feature : Feature} {scope : Scope α}
    (h : FaithfulScope feature scope) {ident : Ident} {span : Span} {t : Tree α}
    (hname : ident.text ∈ feature.staticNames) (hlookup : scope.lookup? ident.text = some t) :
    Means feature.definitions (.macroUse ident span) t := by
  rw [h.lookup?_static hname] at hlookup
  obtain ⟨d, hd, hparams, hdname, hbody⟩ := h.macros.static _ _ hlookup
  exact .static hd hparams hdname hbody

section Enter

variable {feature : Feature} {scope : Scope α} {d : MacroDef} {params : List Ident}
  {values : List (Tree α)}

/-- Inside a call the scope is faithful, since no parameter has the name of a static macro. -/
lemma FaithfulScope.enter (hplain : feature.HasPlainMacros) (h : FaithfulScope feature scope)
    (hd : d ∈ feature.definitions) (hparams : d.params = some params) :
    FaithfulScope feature (scope.enter params values) := by
  refine ⟨h.macros, fun frame hframe name hname => ?_⟩
  rcases List.mem_cons.mp hframe with rfl | hframe
  · refine List.lookup_eq_none_iff.mpr fun entry hentry => ?_
    have hmem : entry.1 ∈ params.map Ident.text := (List.of_mem_zip hentry).1
    obtain ⟨p, hp, htext⟩ := List.mem_map.mp hmem
    have hne := hplain.param_not_static d hd p (by simpa [hparams] using hp)
    simp only [bne_iff_ne, ne_eq]
    rintro rfl
    exact hne (htext ▸ hname)
  · exact h.frame frame hframe name hname

/-- Inside a call every name in the body means the tree that it is bound to: a parameter means what
its argument means, whatever the expansions around have bound to the same name. -/
lemma covers_enter (hplain : feature.HasPlainMacros) (h : FaithfulScope feature scope)
    (hd : d ∈ feature.definitions) (hparams : d.params = some params)
    (hlength : params.length = values.length) {args : List Expr}
    (hargs : List.Forall₂ (Means feature.definitions) args values) :
    Covers feature.definitions (scope.enter params values) ((params.map Ident.text).zip args)
      d.body.plainNames := by
  intro ident span t hident hlookup
  rw [Scope.lookup?_enter] at hlookup
  rcases lookup_zip_forall₂ hargs (params.map Ident.text) ident.text with
    ⟨hnone, hnone'⟩ | ⟨argument, value, hsome, hsome', hmeans⟩
  · -- A name without an argument is no parameter, so it is a static macro.
    rw [hnone', Option.none_or] at hlookup
    simp only [Expr.fill, hnone]
    rcases hplain.body_names d hd (by simp [hparams]) _ hident with hparam | hstatic
    · rw [hparams, Option.getD_some] at hparam
      exact absurd hnone' (lookup_zip_ne_none (by simpa using hlength) hparam)
    · exact h.means_static hstatic hlookup
  · rw [hsome', Option.some_or, Option.some.injEq] at hlookup
    simp only [Expr.fill, hsome]
    exact hlookup ▸ hmeans.paren span

end Enter

/-! ### Lowered expressions mean their trees -/

mutual

/-- Along a derivation, an expression with the arguments of the innermost call put in means its
tree. -/
theorem Lowers.means {feature : Feature} (hplain : feature.HasPlainMacros) :
    ∀ {levels : Nat} {scope : Scope α} {e : Expr} {t : Tree α} {cost : Nat},
      Lowers levels scope e t cost → FaithfulScope feature scope →
      ∀ {arguments : List (String × Expr)},
        Covers feature.definitions scope arguments e.plainNames →
        Means feature.definitions (e.fill arguments) t
  | _, _, _, _, _, .number hvalue, _, _, _ => by
    simp only [Expr.fill]
    exact ⟨_, 1, .number, .number hvalue⟩
  | _, _, _, _, _, .path, _, _, _ => by
    simp only [Expr.fill]
    exact ⟨_, 1, .path, .path⟩
  | _, _, _, _, _, .paren hinner, hscope, _, hcovers => by
    simp only [Expr.plainNames] at hcovers
    simp only [Expr.fill]
    exact (hinner.means hplain hscope hcovers).paren _
  | _, _, _, _, _, .neg hinner hnode, hscope, _, hcovers => by
    simp only [Expr.plainNames] at hcovers
    simp only [Expr.fill]
    exact (hinner.means hplain hscope hcovers).neg hnode
  | _, _, _, _, _, .binary hleft hright hnode, hscope, _, hcovers => by
    simp only [Expr.plainNames] at hcovers
    simp only [Expr.fill]
    exact (hleft.means hplain hscope (hcovers.mono fun _ => List.mem_append_left _)).binary
      (hright.means hplain hscope (hcovers.mono fun _ => List.mem_append_right _)) hnode
  | _, _, _, _, _, .call hname harity hargs hnode, hscope, _, hcovers => by
    simp only [Expr.plainNames] at hcovers
    simp only [Expr.fill]
    refine .call hname ?_ (hargs.means hplain hscope hcovers) hnode
    rwa [Expr.length_fillAll]
  | _, _, _, _, _, .macroUse hlookup, _, _, hcovers =>
    hcovers _ _ _ (by simp only [Expr.plainNames]; exact List.mem_singleton_self _) hlookup
  | _, _, _, _, _, .macroCall hname hargs harity hbody, hscope, _, hcovers => by
    simp only [Expr.plainNames] at hcovers
    simp only [Expr.fill]
    -- the body of the macro is read in the scope of its parameters, which the arguments fill
    obtain ⟨hd, hdname, hsome⟩ := hscope.macros.functional _ _ hname
    obtain ⟨params, hparams⟩ := Option.isSome_iff_exists.mp hsome
    simp only [hparams, Option.getD_some] at harity hbody
    have hvalues := hargs.means hplain hscope hcovers
    refine .functional hd hparams hdname (harity.trans hvalues.length_eq.symm) ?_
    exact hbody.means hplain (hscope.enter hplain hd hparams)
      (covers_enter hplain hscope hd hparams harity hvalues)

/-- Along a derivation, several expressions mean their trees. -/
theorem LowersAll.means {feature : Feature} (hplain : feature.HasPlainMacros) :
    ∀ {levels : Nat} {scope : Scope α} {es : List Expr} {trees : List (Tree α)} {cost : Nat},
      LowersAll levels scope es trees cost → FaithfulScope feature scope →
      ∀ {arguments : List (String × Expr)},
        Covers feature.definitions scope arguments (Expr.plainNamesOfAll es) →
        List.Forall₂ (Means feature.definitions) (Expr.fillAll arguments es) trees
  | _, _, _, _, _, .nil, _, _, _ => by
    simp only [Expr.fillAll]
    exact .nil
  | _, _, _, _, _, .cons hhead hrest, hscope, _, hcovers => by
    simp only [Expr.plainNamesOfAll] at hcovers
    simp only [Expr.fillAll]
    exact .cons (hhead.means hplain hscope (hcovers.mono fun _ => List.mem_append_left _))
      (hrest.means hplain hscope (hcovers.mono fun _ => List.mem_append_right _))

end

/-- The expression of an item means the tree that it is lowered to. -/
theorem means_of_lower {feature : Feature} (hplain : feature.HasPlainMacros) {macros : Macros α}
    (hmacros : FaithfulMacros feature macros) {e : Expr} {t : Tree α}
    (h : lower macros e = .ok t) : Means feature.definitions e t := by
  obtain ⟨-, cost, hlowers⟩ := lowers_of_lower h
  have hscope : FaithfulScope feature (Scope.top macros) := ⟨hmacros, by simp [Scope.top]⟩
  -- At the top there are no arguments, so every name that is bound is a static macro.
  have hcovers : Covers feature.definitions (Scope.top macros) [] e.plainNames := by
    intro ident span t _ hlookup
    rw [Expr.fill_nil]
    have hstatic : macros.statics.lookup ident.text = some t := by
      simpa [Scope.lookup?, Scope.top] using hlookup
    obtain ⟨d, hd, hparams, hdname, hbody⟩ := hmacros.static _ _ hstatic
    exact .static hd hparams hdname hbody
  have hmeans := hlowers.means hplain hscope hcovers
  rwa [Expr.fill_nil] at hmeans

/-! ### The macros in force stay faithful -/

/-- Without macros there is nothing to be faithful to. -/
lemma faithfulMacros_empty (feature : Feature) :
    FaithfulMacros feature (Macros.empty : Macros α) where
  functional _ _ h := by simp [Macros.functional?, Macros.empty] at h
  static _ _ h := by simp [Macros.empty] at h

/-- A static macro whose tree is meant by its body keeps the macros faithful. -/
lemma FaithfulMacros.defineStatic {feature : Feature} {macros : Macros α}
    (h : FaithfulMacros feature macros) {d : MacroDef} {value : Tree α}
    (hd : d ∈ feature.definitions) (hparams : d.params = none)
    (hbody : Means feature.definitions d.body value) :
    FaithfulMacros feature (macros.defineStatic d.name.text value) where
  functional := h.functional
  static name t hlookup := by
    simp only [Macros.defineStatic, List.lookup_cons] at hlookup
    by_cases hname : name = d.name.text
    · simp only [hname, beq_self_eq_true, Option.some.injEq] at hlookup
      exact ⟨d, hd, hparams, hname.symm, hlookup ▸ hbody⟩
    · rw [beq_eq_false_iff_ne.mpr hname] at hlookup
      exact h.static name t ((List.lookup_filter_ne hname _).symm.trans hlookup)

/-- A functional macro of the feature keeps the macros faithful. -/
lemma FaithfulMacros.defineFunctional {feature : Feature} {macros : Macros α}
    (h : FaithfulMacros feature macros) {d : MacroDef} (hd : d ∈ feature.definitions)
    (hparams : d.params.isSome = true) : FaithfulMacros feature (macros.defineFunctional d) where
  functional name d' hfind := by
    simp only [Macros.functional?, Macros.defineFunctional, List.find?_cons] at hfind
    split at hfind
    · rename_i hname
      cases hfind
      exact ⟨hd, by simpa using hname, hparams⟩
    · exact h.functional name d' hfind
  static := h.static

end Lowering

/-! ### Features -/

open Lowering

/-- The statement is that of the rule, and its operand is what the rule's expression means. -/
def Rule.Yields (definitions : List MacroDef) (r : Rule) (s : Statement) : Prop :=
  ∃ operand, s = r.statement operand ∧ operand.depth ≤ Tree.depthLimit ∧
    Means definitions r.value operand

/-- Items that all compile give, rule by rule, statements whose operands are what the rules mean. -/
theorem Compiles.yields {feature : Feature} (hplain : feature.HasPlainMacros)
    {macros : Macros Float} {items : List Item} {statements : List Statement}
    (h : Compiles macros items statements) (hmacros : FaithfulMacros feature macros)
    (hitems : ∀ d, Item.define d ∈ items → d ∈ feature.definitions) :
    List.Forall₂ (Rule.Yields feature.definitions) (items.filterMap Item.rule?) statements := by
  induction h with
  | nil => exact .nil
  | rule hvalue _ ih =>
    refine .cons ⟨_, rfl, (lowers_of_lower hvalue).1, means_of_lower hplain hmacros hvalue⟩ ?_
    exact ih hmacros fun d hd => hitems d (List.mem_cons_of_mem _ hd)
  | static hparams hbody _ ih =>
    have hd := hitems _ List.mem_cons_self
    exact ih (hmacros.defineStatic hd hparams (means_of_lower hplain hmacros hbody))
      fun d hd => hitems d (List.mem_cons_of_mem _ hd)
  | functional hparams _ _ ih =>
    have hd := hitems _ List.mem_cons_self
    exact ih (hmacros.defineFunctional hd (by simp [hparams]))
      fun d hd => hitems d (List.mem_cons_of_mem _ hd)

/-- Compiled on its own, the rule exceeds the node budget. -/
def Rule.ExceedsBudget (r : Rule) : Prop :=
  ∃ span, r.compile .empty = .fault ⟨.treeTooLarge, span⟩

/-- Compiled on its own, the rule gives the statement or exceeds the node budget. -/
def Rule.CompilesWithinBudget (r : Rule) (s : Statement) : Prop :=
  r.compile .empty = .statement s ∨ r.ExceedsBudget

/-- A rule that yields a statement can be written out, and gives the statement then, as far as the
budget goes. -/
lemma Rule.Yields.exists_inlines {definitions : List MacroDef} {r : Rule} {s : Statement}
    (h : r.Yields definitions s) :
    ∃ r', r.Inlines definitions r' ∧ r'.CompilesWithinBudget s := by
  obtain ⟨operand, rfl, hdepth, value, cost, hinlines, hlowers⟩ := h
  refine ⟨{ r with value }, ⟨value, hinlines, rfl⟩, ?_⟩
  have htop := hlowers.of_isMacroFree hinlines.isMacroFree Limit.expansions (.top .empty)
  rcases htop.lower_eq hdepth with hok | ⟨span, hlarge⟩
  · exact .inl (by simp only [Rule.compile, hok]; rfl)
  · exact .inr ⟨span, by simp only [Rule.compile, hlarge]⟩

/-- Rules that yield statements can be written out one by one. -/
lemma exists_inlines_of_yields {definitions : List MacroDef} {rules : List Rule}
    {statements : List Statement} (h : List.Forall₂ (Rule.Yields definitions) rules statements) :
    ∃ rules', List.Forall₂ (Rule.Inlines definitions) rules rules' ∧
      List.Forall₂ Rule.CompilesWithinBudget rules' statements := by
  induction h with
  | nil => exact ⟨[], .nil, .nil⟩
  | cons hhead _ ih =>
    obtain ⟨r', hinlines, hwithin⟩ := hhead.exists_inlines
    obtain ⟨rest, hrest, hwithinRest⟩ := ih
    exact ⟨r' :: rest, .cons hinlines hrest, .cons hwithin hwithinRest⟩

/-- Rules that stay within the budget compile one after the other. -/
lemma compiles_of_compilesWithinBudget {rules : List Rule} {statements : List Statement}
    (h : List.Forall₂ Rule.CompilesWithinBudget rules statements)
    (hbudget : ∀ r ∈ rules, ¬ r.ExceedsBudget) :
    Compiles .empty (rules.map .rule) statements := by
  induction h with
  | nil => exact .nil
  | @cons r s rules statements hhead _ ih =>
    have hrest := ih fun r hr => hbudget r (List.mem_cons_of_mem _ hr)
    have hcompile := hhead.resolve_right (hbudget r List.mem_cons_self)
    simp only [Rule.compile] at hcompile
    cases hvalue : lower (.empty : Macros Float) r.value with
    | error fault => simp [hvalue] at hcompile
    | ok operand =>
      simp only [hvalue, Compiled.statement.injEq] at hcompile
      exact hcompile ▸ .rule hvalue hrest

/-- **Macros are abbreviations.**  A feature whose macros have unambiguous names, and which compiles
without a fault, can be written out without macros in exactly one way.  Each rule written out gives
the statement of the rule as it was, unless it exceeds the node budget; if none does, the feature
written out compiles to the same list of statements.

Nothing is assumed about the order of definitions and uses: a macro that is used before it is
defined is a fault. -/
theorem Feature.compile_inlined {feature : Feature} (hplain : feature.HasPlainMacros)
    {statements : List Statement} {report : Report Fault}
    (hcompile : feature.compile .empty = (statements, report)) (hclean : report.hasErrors = false) :
    ∃ inlined : Feature, (∀ other, feature.Inlines other ↔ other = inlined) ∧
      inlined.IsMacroFree ∧
      List.Forall₂ Rule.CompilesWithinBudget inlined.rules statements ∧
      ((∀ r ∈ inlined.rules, ¬ r.ExceedsBudget) →
        inlined.compile .empty = (statements, .empty)) := by
  have hcompiles := feature.compiles_of_compile hcompile hclean
  have hyields : List.Forall₂ (Rule.Yields feature.definitions) feature.rules statements :=
    hcompiles.yields hplain (faithfulMacros_empty feature) fun d hd =>
      List.mem_filterMap.mpr ⟨_, hd, rfl⟩
  obtain ⟨rules, hrules, hbudget⟩ := exists_inlines_of_yields hyields
  have hinlined : feature.Inlines ⟨rules.map .rule, feature.span⟩ := ⟨rules, hrules, rfl⟩
  refine ⟨⟨rules.map .rule, feature.span⟩, fun other => ?_, hinlined.isMacroFree, ?_, ?_⟩
  · exact ⟨fun h => h.unique hplain hinlined, fun h => h ▸ hinlined⟩
  · rwa [Feature.rules_map_rule]
  · intro hnone
    rw [Feature.rules_map_rule] at hnone
    exact (compiles_of_compilesWithinBudget hbudget hnone).compileItems_eq rfl

/-- Two functional macros with a parameter of the same name, one calling the other, and a static
macro that both see. -/
def sharedParams : Feature :=
  let span := Span.point .start
  let use (name : String) : Expr := .macroUse ⟨name, span⟩ span
  ⟨[.define ⟨⟨"half", span⟩, none, .number 0.5 span, span⟩,
    .define ⟨⟨"outer", span⟩, some [⟨"x", span⟩],
      .macroCall ⟨"inner", span⟩ [.binary (use "x") .mul (use "half") span] span, span⟩,
    .define ⟨⟨"inner", span⟩, some [⟨"x", span⟩], .binary (use "x") .add (use "half") span, span⟩,
    .rule ⟨1, ⟨[.name "total"], span⟩, .set,
      .macroCall ⟨"outer", span⟩ [.path ⟨[.name "base"], span⟩] span, span⟩], span⟩

/-- The names of `sharedParams` are unambiguous, it compiles without a fault, and so it compiles to
the same statement when it is written out. -/
theorem Feature.compile_inlined_sharedParams :
    sharedParams.HasPlainMacros ∧ (sharedParams.compile .empty).2.hasErrors = false ∧
    ∃ inlined : Feature, (∀ other, sharedParams.Inlines other ↔ other = inlined) ∧
      inlined.IsMacroFree ∧
      List.Forall₂ Rule.CompilesWithinBudget inlined.rules (sharedParams.compile .empty).1 ∧
      ((∀ r ∈ inlined.rules, ¬ r.ExceedsBudget) →
        inlined.compile .empty = ((sharedParams.compile .empty).1, .empty)) := by
  have hplain : sharedParams.HasPlainMacros :=
    ⟨by decide, by decide, by decide, by decide⟩
  have hclean : (sharedParams.compile .empty).2.hasErrors = false := by decide +kernel
  exact ⟨hplain, hclean, Feature.compile_inlined hplain rfl hclean⟩

end SheetRules
