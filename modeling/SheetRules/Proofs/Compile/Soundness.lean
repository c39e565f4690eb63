import Mathlib.Data.List.Forall2
import SheetRules.Proofs.Batch.Errors
import SheetRules.Proofs.Compile.Clean
import SheetRules.Proofs.Feature.ProperPaths
import SheetRules.Proofs.Lowering.Derivation

/-!
# Compiled statements are sound

Whatever a source is, the statements that it is compiled to are sound: lowering checks the number of
arguments of a minimum and a maximum and the depth of a tree, and the paths of a tree are paths of
the rule or of a macro, which are proper.  Running them fails only for their numbers and for what is
in the store.
-/

namespace SheetRules

/-! ### Lowered trees -/

namespace Lowering

variable {α : Type} {allowed : String → Prop} {left right : Tree α}

/-- Two sound operands under an operator with a neutral element. -/
lemma isSound_pair {op : Combine} (hop : op.hasNeutral = true) (hleft : left.IsSound allowed)
    (hright : right.IsSound allowed) : (Tree.combine op [left, right]).IsSound allowed :=
  ⟨.inl hop, hleft, hright, trivial⟩

variable [Arithmetic α]

/-- The sum of two sound trees is sound. -/
lemma isSound_sum (hleft : left.IsSound allowed) (hright : right.IsSound allowed) :
    (sum left right).IsSound allowed := by
  unfold sum
  split
  · exact hleft
  split
  · exact hright
  · exact isSound_pair rfl hleft hright

/-- The difference of two sound trees is sound. -/
lemma isSound_difference (hleft : left.IsSound allowed) (hright : right.IsSound allowed) :
    (difference left right).IsSound allowed := by
  unfold difference
  split
  · split
    · exact hleft
    · exact isSound_pair rfl hleft trivial
  · exact isSound_pair rfl hleft (isSound_pair rfl hright trivial)

/-- The product of two sound trees is sound. -/
lemma isSound_product (hleft : left.IsSound allowed) (hright : right.IsSound allowed) :
    (product left right).IsSound allowed := by
  unfold product
  split
  · trivial
  split
  · exact hleft
  split
  · exact hright
  · exact isSound_pair rfl hleft hright

/-- A sound tree that is divided by a constant is sound. -/
lemma isSound_quotient {op : BinaryOp} {divisor : Span} {t : Tree α}
    (h : Gives (quotient op left right divisor) t) (hleft : left.IsSound allowed) :
    t.IsSound allowed := by
  obtain ⟨k, -, -, ⟨-, rfl⟩ | ⟨-, -, rfl⟩⟩ := gives_quotient_iff.mp h
  · exact hleft
  · exact isSound_pair rfl hleft trivial

/-- What an operation gives for two sound trees is sound. -/
lemma isSound_binary {op : BinaryOp} {divisor span : Span} {t : Tree α}
    (h : Gives (binary left op right divisor span) t) (hleft : left.IsSound allowed)
    (hright : right.IsSound allowed) : t.IsSound allowed := by
  rcases gives_binary_iff.mp h with ⟨_, _, _, -, -, -, -, rfl⟩ | ⟨-, ht⟩
  · trivial
  cases op with
  | add => exact ht ▸ isSound_sum hleft hright
  | sub => exact ht ▸ isSound_difference hleft hright
  | mul => exact ht ▸ isSound_product hleft hright
  | div => exact isSound_quotient ht hleft
  | floorDiv =>
    obtain ⟨scaled, hscaled, rfl⟩ := ht
    have hsound : scaled.IsSound allowed := isSound_quotient hscaled hleft
    exact hsound

/-- What a sign gives for a sound tree is sound. -/
lemma isSound_negate {tree t : Tree α} {span : Span} (h : Gives (negate tree span) t)
    (htree : tree.IsSound allowed) : t.IsSound allowed := by
  rcases gives_negate_iff.mp h with ⟨_, -, -, rfl⟩ | ⟨-, rfl⟩
  · trivial
  · exact isSound_pair rfl htree trivial

/-- A function has as many operands as it takes, so a minimum or maximum has at least one. -/
lemma isSound_apply {f : Builtin} {operands : List (Tree α)} {span : Span} {t : Tree α}
    (h : Gives (apply f operands span) t) (harity : f.takes operands.length = true)
    (hoperands : Tree.AreSound allowed operands) : t.IsSound allowed := by
  have hne : operands ≠ [] := List.ne_nil_of_length_pos (f.pos_of_takes harity)
  rcases (gives_apply_iff harity).mp h with ⟨_, _, -, -, -, rfl⟩ | ⟨-, ht⟩
  · trivial
  cases f with
  | min =>
    obtain rfl : t = .combine .min operands := ht
    exact ⟨.inr hne, hoperands⟩
  | max =>
    obtain rfl : t = .combine .max operands := ht
    exact ⟨.inr hne, hoperands⟩
  | floor =>
    cases operands with
    | nil => exact absurd rfl hne
    | cons operand rest =>
      obtain rfl := ht
      exact hoperands.1

end Lowering

/-- The trees of the static macros are sound, and the bodies of the functional ones have allowed
paths only. -/
structure Macros.IsSound {α : Type} (allowed : String → Prop) (macros : Macros α) : Prop where
  statics : ∀ entry ∈ macros.statics, entry.2.IsSound allowed
  functionals : ∀ d ∈ macros.functionals, ∀ p ∈ d.body.paths, allowed p.text

/-- The macros in force are sound, and so are the arguments of all expansions. -/
structure Scope.IsSound {α : Type} (allowed : String → Prop) (scope : Scope α) : Prop where
  macros : scope.macros.IsSound allowed
  frames : ∀ bindings ∈ scope.frames, ∀ entry ∈ bindings, entry.2.IsSound allowed

/-- All trees that the names of a scope are bound to have a property. -/
structure Scope.Binds {α : Type} (P : Tree α → Prop) (scope : Scope α) : Prop where
  statics : ∀ entry ∈ scope.macros.statics, P entry.2
  frames : ∀ bindings ∈ scope.frames, ∀ entry ∈ bindings, P entry.2

namespace Scope.Binds

variable {α : Type} {P : Tree α → Prop} {scope : Scope α}

/-- In the scope of a whole feature the bound trees are those of its static macros. -/
lemma top {macros : Macros α} (h : ∀ entry ∈ macros.statics, P entry.2) :
    (Scope.top macros).Binds P :=
  ⟨h, fun _ hbindings => absurd hbindings List.not_mem_nil⟩

/-- A macro name stands for a tree with the property. -/
lemma of_lookup? (h : scope.Binds P) {name : String} {t : Tree α}
    (hlookup : scope.lookup? name = some t) : P t := by
  obtain ⟨bindings, hbindings, hentry⟩ := List.exists_of_findSome?_eq_some hlookup
  have hmem : (name, t) ∈ bindings := by
    obtain ⟨before, after, rfl, -⟩ := List.lookup_eq_some_iff.mp hentry
    simp
  rcases List.mem_append.mp hbindings with hframe | hstatics
  · exact h.frames bindings hframe _ hmem
  · obtain rfl := List.mem_singleton.mp hstatics
    exact h.statics _ hmem

/-- So it is inside an expansion whose arguments have the property. -/
lemma enter (h : scope.Binds P) (params : List Ident) {values : List (Tree α)}
    (hvalues : ∀ t ∈ values, P t) : (scope.enter params values).Binds P := by
  refine ⟨h.statics, List.forall_mem_cons.mpr ⟨?_, h.frames⟩⟩
  intro entry hentry
  exact hvalues entry.2 (List.of_mem_zip hentry).2

end Scope.Binds

namespace Scope.IsSound

variable {α : Type} {allowed : String → Prop} {scope : Scope α}

/-- Sound scopes bind sound trees. -/
lemma binds (h : scope.IsSound allowed) : scope.Binds fun t => t.IsSound allowed :=
  ⟨h.macros.statics, h.frames⟩

/-- Entering an expansion with sound arguments keeps the scope sound. -/
lemma enter (h : scope.IsSound allowed) (params : List Ident) {values : List (Tree α)}
    (hvalues : ∀ t ∈ values, t.IsSound allowed) : (scope.enter params values).IsSound allowed :=
  ⟨h.macros, (h.binds.enter params hvalues).frames⟩

end Scope.IsSound

/-- Each of several sound trees is sound. -/
lemma Tree.AreSound.forall_mem {α : Type} {allowed : String → Prop} {ts : List (Tree α)}
    (h : AreSound allowed ts) : ∀ t ∈ ts, t.IsSound allowed := by
  induction ts with
  | nil => simp
  | cons t rest ih => exact List.forall_mem_cons.mpr ⟨h.1, ih h.2⟩

namespace Lowering

variable {α : Type} [Arithmetic α] {allowed : String → Prop}

mutual

/-- In a sound scope, an expression with allowed paths stands for a sound tree. -/
theorem Lowers.isSound : ∀ {levels : Nat} {scope : Scope α} {e : Expr} {t : Tree α} {cost : Nat},
    Lowers levels scope e t cost → scope.IsSound allowed → (∀ p ∈ e.paths, allowed p.text) →
      t.IsSound allowed
  | _, _, _, _, _, .number hvalue, _, _ => (gives_constant_iff.mp hvalue).2 ▸ trivial
  | _, _, _, _, _, .path, _, hpaths => hpaths _ (List.mem_singleton_self _)
  | _, _, _, _, _, .paren hinner, hscope, hpaths => hinner.isSound hscope hpaths
  | _, _, _, _, _, .neg hinner hnode, hscope, hpaths =>
    isSound_negate hnode (hinner.isSound hscope hpaths)
  | _, _, _, _, _, .binary hleft hright hnode, hscope, hpaths =>
    have ⟨hpathsLeft, hpathsRight⟩ := List.forall_mem_append.mp hpaths
    isSound_binary hnode (hleft.isSound hscope hpathsLeft) (hright.isSound hscope hpathsRight)
  | _, _, _, _, _, .call _ harity hargs hnode, hscope, hpaths =>
    isSound_apply hnode (hargs.length_eq ▸ harity) (hargs.areSound hscope hpaths)
  | _, _, _, _, _, .macroUse hlookup, hscope, _ => hscope.binds.of_lookup? hlookup
  | _, _, _, _, _, .macroCall hname hargs _ hbody, hscope, hpaths => by
    have hvalues := (hargs.areSound hscope hpaths).forall_mem
    refine hbody.isSound (hscope.enter _ hvalues) ?_
    exact hscope.macros.functionals _ (List.mem_of_find?_eq_some hname)

/-- Arguments are lowered to sound trees. -/
theorem LowersAll.areSound : ∀ {levels : Nat} {scope : Scope α} {es : List Expr}
    {trees : List (Tree α)} {cost : Nat}, LowersAll levels scope es trees cost →
      scope.IsSound allowed → (∀ p ∈ Expr.pathsOfAll es, allowed p.text) →
      Tree.AreSound allowed trees
  | _, _, _, _, _, .nil, _, _ => trivial
  | _, _, _, _, _, .cons hhead hrest, hscope, hpaths =>
    have ⟨hpathsHead, hpathsRest⟩ := List.forall_mem_append.mp hpaths
    ⟨hhead.isSound hscope hpathsHead, hrest.areSound hscope hpathsRest⟩

end

end Lowering

/-! ### Compiled features -/

namespace Macros.IsSound

variable {α : Type} {allowed other : String → Prop} {macros : Macros α}

/-- Macros that are sound for some paths are sound for more of them. -/
lemma mono (h : macros.IsSound allowed) (himp : ∀ path, allowed path → other path) :
    macros.IsSound other where
  statics entry hentry := (h.statics entry hentry).mono himp
  functionals d hd p hp := himp _ (h.functionals d hd p hp)

/-- A static macro with a sound tree keeps the macros sound. -/
lemma defineStatic (h : macros.IsSound allowed) (name : String) {value : Tree α}
    (hvalue : value.IsSound allowed) : (macros.defineStatic name value).IsSound allowed where
  statics := List.forall_mem_cons.mpr
    ⟨hvalue, fun entry hentry => h.statics entry (List.mem_of_mem_filter hentry)⟩
  functionals := h.functionals

/-- A functional macro whose paths are allowed keeps the macros sound. -/
lemma defineFunctional (h : macros.IsSound allowed) {d : MacroDef}
    (hbody : ∀ p ∈ d.body.paths, allowed p.text) : (macros.defineFunctional d).IsSound allowed where
  statics := h.statics
  functionals := List.forall_mem_cons.mpr ⟨hbody, h.functionals⟩

end Macros.IsSound

/-- The paths that the value of a rule can stand for: its own and those of the macros. -/
def Rule.readable (r : Rule) (definitions : List MacroDef) : List Path :=
  r.value.paths ++ definitions.flatMap fun d => d.body.paths

/-- The statement writes to the target of the rule, reads paths of the rule and the macros, and its
tree is sound and not too deep. -/
structure Rule.Grounds (definitions : List MacroDef) (r : Rule) (s : Statement) : Prop where
  target : s.target = r.target.text
  operand : s.operand.IsSound fun text => ∃ p ∈ r.readable definitions, p.text = text
  depth_le : s.operand.depth ≤ Tree.depthLimit

/-- A source that is compiled without a fault is scanned and read without one, and all items of its
feature compile. -/
lemma Source.compiles_of_compile {source : Source} {statements : List Statement}
    (h : source.compile = .ok statements) :
    Compiles .empty (Feature.parse source.scan.tokens).1.items statements := by
  simp only [Source.compile] at h
  split at h
  · cases h
  split at h
  · cases h
  split at h
  · cases h
  rename_i hcompiled
  cases h
  rw [Bool.not_eq_true, Report.hasErrors_eq_false] at hcompiled
  exact compiles_of_compileItems hcompiled

/-- A rule with proper paths grounds a sound statement. -/
lemma Rule.Grounds.isSound {definitions : List MacroDef} {r : Rule} {s : Statement}
    (h : r.Grounds definitions s) (htarget : r.target.IsProper)
    (hreadable : ∀ p ∈ r.readable definitions, p.IsProper) : s.IsSound Tree.depthLimit where
  depth_le := h.depth_le
  operand := h.operand.mono fun _ ⟨p, hp, hpath⟩ =>
    hpath ▸ ⟨_, (hreadable p hp).properSegments?_text⟩
  target := h.target ▸ ⟨_, htarget.properSegments?_text⟩

end SheetRules
