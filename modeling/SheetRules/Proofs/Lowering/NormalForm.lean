import SheetRules.Proofs.Compile.Outcomes
import SheetRules.Proofs.Macros.Expansion
import SheetRules.Proofs.Number.Integers

/-!
# The normal form of compiled trees

Lowering folds constants as soon as it meets them, so no constant is left that could be folded: in a
compiled tree every operator has an attribute path somewhere below it.  Sums and products have two
operands, minima and maxima at least one, and the constants are finite.

A tree in normal form that reads no attribute path is a single constant.  An expression that
mentions no path once its macros are expanded is therefore compiled to one constant, if it is
compiled at all.
-/

namespace SheetRules

/-- The number of operands that a combination has in a normal form. -/
def Combine.Takes (count : Nat) : Combine → Prop
  | .add | .multiply => count = 2
  | .min | .max => 0 < count

/-- Every operator takes two operands. -/
lemma Combine.takes_two (op : Combine) : op.Takes 2 := by
  cases op <;> simp [Takes]

namespace Tree

mutual

/-- Constants are finite, combinations have the operands that they take, and every operator has an
attribute path below it. -/
def IsNormal : Tree Float → Prop
  | .static value => Double.nonFinite? value = none
  | .dynamic _ => True
  | .combine op operands =>
    op.Takes operands.length ∧ pathsOfAll operands ≠ [] ∧ AreNormal operands
  | .floor operand => operand.paths ≠ [] ∧ operand.IsNormal

/-- All the trees are in normal form. -/
def AreNormal : List (Tree Float) → Prop
  | [] => True
  | t :: rest => t.IsNormal ∧ AreNormal rest

end

variable {t left right : Tree Float} {operands : List (Tree Float)}

/-- Each of several normal trees is normal. -/
lemma AreNormal.forall_mem (h : AreNormal operands) : ∀ t ∈ operands, t.IsNormal := by
  induction operands with
  | nil => exact fun t ht => absurd ht List.not_mem_nil
  | cons t rest ih => exact List.forall_mem_cons.mpr ⟨h.1, ih h.2⟩

namespace IsNormal

/-- What is not constant reads a path. -/
lemma paths_ne_nil (h : t.IsNormal) (ht : t.constant? = none) : t.paths ≠ [] := by
  cases t with
  | static value => simp [constant?] at ht
  | dynamic path => simp [paths]
  | combine op operands => exact h.2.1
  | floor operand => exact h.1

/-- What reads no path is a constant. -/
lemma eq_static (h : t.IsNormal) (ht : t.paths = []) : ∃ value, t = .static value := by
  cases hconstant : t.constant? with
  | none => exact absurd ht (h.paths_ne_nil hconstant)
  | some value => exact ⟨value, constant?_eq_some.mp hconstant⟩

/-- Two trees, not both constant, are combined to a normal form. -/
lemma pair (op : Combine) (hleft : left.IsNormal) (hright : right.IsNormal)
    (h : left.constant? = none ∨ right.constant? = none) : (combine op [left, right]).IsNormal := by
  refine ⟨op.takes_two, ?_, hleft, hright, trivial⟩
  simp only [pathsOfAll, List.append_nil, ne_eq, List.append_eq_nil_iff, not_and_or]
  exact h.imp hleft.paths_ne_nil hright.paths_ne_nil

end IsNormal

/-- Among trees that are not all constant there is one that reads a path. -/
lemma AreNormal.pathsOfAll_ne_nil (h : AreNormal operands)
    (hconstants : Lowering.constants? operands = none) : pathsOfAll operands ≠ [] := by
  induction operands with
  | nil => simp [Lowering.constants?] at hconstants
  | cons t rest ih =>
    rw [pathsOfAll, ne_eq, List.append_eq_nil_iff, not_and_or]
    cases ht : t.constant? with
    | none => exact .inl (h.1.paths_ne_nil ht)
    | some value =>
      have hrest : Lowering.constants? rest = none := by
        simpa [Lowering.constants?, ht, ← Option.eq_none_iff_forall_ne_some] using hconstants
      exact .inr (ih h.2 hrest)

end Tree

/-! ### The steps that make a node -/

namespace Lowering

variable {left right t : Tree Float}

/-- The constant zero is normal. -/
lemma isNormal_zero : (Tree.static (Arithmetic.zero : Float)).IsNormal := by
  change Double.nonFinite? 0 = none
  decide +kernel

/-- The constant minus one is normal. -/
lemma isNormal_minusOne : (Tree.static (Arithmetic.minusOne : Float)).IsNormal := by
  change Double.nonFinite? (-1) = none
  decide +kernel

/-- A normal constant stays normal when it is negated. -/
lemma isNormal_neg {k : Float} (h : (Tree.static k).IsNormal) :
    (Tree.static (Arithmetic.neg k)).IsNormal :=
  Double.nonFinite?_neg h

/-- A normal tree that is no constant may be negated. -/
lemma isNormal_negated (h : t.IsNormal) (ht : t.constant? = none) : (negated t).IsNormal :=
  h.pair .multiply isNormal_minusOne (.inl ht)

/-- A sum is normal if its operands are and one of them is no constant. -/
lemma isNormal_sum (hleft : left.IsNormal) (hright : right.IsNormal)
    (h : left.constant? = none ∨ right.constant? = none) : (sum left right).IsNormal := by
  unfold sum
  split
  · exact hleft
  split
  · exact hright
  · exact hleft.pair .add hright h

/-- A difference is normal if its operands are and one of them is no constant. -/
lemma isNormal_difference (hleft : left.IsNormal) (hright : right.IsNormal)
    (h : left.constant? = none ∨ right.constant? = none) : (difference left right).IsNormal := by
  unfold difference
  split
  · next k hk =>
    split
    · exact hleft
    · rw [Tree.constant?_eq_some] at hk
      subst hk
      exact hleft.pair .add (isNormal_neg hright) (h.imp_right fun hnone => by cases hnone)
  · next hk => exact hleft.pair .add (isNormal_negated hright hk) (.inr rfl)

/-- A product is normal if its operands are and one of them is no constant. -/
lemma isNormal_product (hleft : left.IsNormal) (hright : right.IsNormal)
    (h : left.constant? = none ∨ right.constant? = none) : (product left right).IsNormal := by
  unfold product
  split
  · exact isNormal_zero
  split
  · exact hleft
  split
  · exact hright
  · exact hleft.pair .multiply hright h

/-- The dividend of a quotient is not constant, and neither is the quotient. -/
lemma isNormal_quotient {op : BinaryOp} {divisor : Span}
    (hgives : Gives (quotient op left right divisor) t) (hleft : left.IsNormal)
    (h : left.constant? = none ∨ right.constant? = none) : t.IsNormal ∧ t.constant? = none := by
  obtain ⟨k, hk, -, ht⟩ := gives_quotient_iff.mp hgives
  have hdividend : left.constant? = none := h.resolve_right (by simp [hk])
  rcases ht with ⟨-, rfl⟩ | ⟨-, hfinite, rfl⟩
  · exact ⟨hleft, hdividend⟩
  · exact ⟨hleft.pair .multiply hfinite (.inl hdividend), rfl⟩

/-- What an operation gives is normal if its operands are. -/
lemma isNormal_binary {op : BinaryOp} {divisor span : Span}
    (hgives : Gives (binary left op right divisor span) t) (hleft : left.IsNormal)
    (hright : right.IsNormal) : t.IsNormal := by
  rcases gives_binary_iff.mp hgives with ⟨_, _, _, -, -, -, hfinite, rfl⟩ | ⟨h, ht⟩
  · exact hfinite
  cases op with
  | add => exact ht ▸ isNormal_sum hleft hright h
  | sub => exact ht ▸ isNormal_difference hleft hright h
  | mul => exact ht ▸ isNormal_product hleft hright h
  | div => exact (isNormal_quotient ht hleft h).1
  | floorDiv =>
    obtain ⟨scaled, hscaled, rfl⟩ := ht
    obtain ⟨hnormal, hdynamic⟩ := isNormal_quotient hscaled hleft h
    exact ⟨hnormal.paths_ne_nil hdynamic, hnormal⟩

/-- What a sign gives is normal if its operand is. -/
lemma isNormal_negate {tree : Tree Float} {span : Span} (hgives : Gives (negate tree span) t)
    (htree : tree.IsNormal) : t.IsNormal := by
  rcases gives_negate_iff.mp hgives with ⟨_, -, hfinite, rfl⟩ | ⟨hdynamic, rfl⟩
  · exact hfinite
  · exact isNormal_negated htree hdynamic

/-- What a function gives is normal if its arguments are. -/
lemma isNormal_apply {f : Builtin} {operands : List (Tree Float)} {span : Span}
    (hgives : Gives (apply f operands span) t) (harity : f.takes operands.length = true)
    (hoperands : Tree.AreNormal operands) : t.IsNormal := by
  rcases (gives_apply_iff harity).mp hgives with ⟨_, _, -, -, hfinite, rfl⟩ | ⟨hconstants, ht⟩
  · exact hfinite
  have hpaths := hoperands.pathsOfAll_ne_nil hconstants
  cases f with
  | min =>
    obtain rfl : t = .combine .min operands := ht
    exact ⟨Builtin.pos_of_takes .min harity, hpaths, hoperands⟩
  | max =>
    obtain rfl : t = .combine .max operands := ht
    exact ⟨Builtin.pos_of_takes .max harity, hpaths, hoperands⟩
  | floor =>
    -- a floor has a single operand, which is therefore the one that reads a path
    obtain ⟨operand, rfl⟩ : ∃ operand, operands = [operand] :=
      List.length_eq_one_iff.mp (by simpa [Builtin.takes] using harity)
    obtain rfl : t = .floor operand := ht
    exact ⟨by simpa [Tree.pathsOfAll] using hpaths, hoperands.1⟩

/-! ### Along a derivation -/

mutual

/-- If the names of the scope stand for normal forms, then so does every expression. -/
theorem Lowers.isNormal : ∀ {levels : Nat} {scope : Scope Float} {e : Expr} {t : Tree Float}
    {cost : Nat}, Lowers levels scope e t cost → scope.Binds Tree.IsNormal → t.IsNormal
  | _, _, _, _, _, .number hvalue, _ => by
    obtain ⟨hfinite, rfl⟩ := gives_constant_iff.mp hvalue
    exact hfinite
  | _, _, _, _, _, .path, _ => trivial
  | _, _, _, _, _, .paren hinner, hscope => hinner.isNormal hscope
  | _, _, _, _, _, .neg hinner hnode, hscope => isNormal_negate hnode (hinner.isNormal hscope)
  | _, _, _, _, _, .binary hleft hright hnode, hscope =>
    isNormal_binary hnode (hleft.isNormal hscope) (hright.isNormal hscope)
  | _, _, _, _, _, .call _ harity hargs hnode, hscope =>
    isNormal_apply hnode (hargs.length_eq ▸ harity) (hargs.areNormal hscope)
  | _, _, _, _, _, .macroUse hlookup, hscope => hscope.of_lookup? hlookup
  | _, _, _, _, _, .macroCall _ hargs _ hbody, hscope =>
    hbody.isNormal (hscope.enter _ (hargs.areNormal hscope).forall_mem)

/-- Arguments are lowered to normal trees. -/
theorem LowersAll.areNormal : ∀ {levels : Nat} {scope : Scope Float} {es : List Expr}
    {trees : List (Tree Float)} {cost : Nat}, LowersAll levels scope es trees cost →
      scope.Binds Tree.IsNormal → Tree.AreNormal trees
  | _, _, _, _, _, .nil, _ => trivial
  | _, _, _, _, _, .cons hhead hrest, hscope => ⟨hhead.isNormal hscope, hrest.areNormal hscope⟩

end

/-- With macros in normal form, an expression is lowered to a normal form. -/
theorem keeps_isNormal : Keeps Tree.IsNormal := by
  intro macros e t hmacros h
  obtain ⟨-, cost, hderivation⟩ := lowers_of_lower h
  exact hderivation.isNormal (.top hmacros)

/-- What is lowered after some items is in normal form. -/
lemma isNormal_of_lower {items : List Item} {e : Expr}
    (h : lower (macrosAfter .empty items) e = .ok t) : t.IsNormal := by
  have hstatics : ∀ entry ∈ (macrosAfter .empty items).statics, entry.2.IsNormal :=
    forall_statics_macrosAfter keeps_isNormal (fun _ h => absurd h List.not_mem_nil) items
  exact keeps_isNormal _ e t hstatics h

/-- An expression without paths, once its macros are expanded, is lowered to a constant. -/
theorem eq_static_of_expands {items : List Item} {e expanded : Expr}
    (h : lower (macrosAfter .empty items) e = .ok t) (hexpands : Expands items [] e expanded)
    (hpaths : expanded.paths = []) : ∃ value, t = .static value := by
  obtain ⟨e', hexpands', hsound⟩ := standsFor_of_lower items h
  obtain rfl := hexpands'.unique hexpands
  refine (isNormal_of_lower h).eq_static (List.eq_nil_iff_forall_not_mem.mpr fun path hpath => ?_)
  obtain ⟨p, hp, -⟩ := hsound.allowed_of_mem_paths path hpath
  rw [hpaths] at hp
  exact absurd hp List.not_mem_nil

end Lowering

/-- **Constants are folded completely.**  Whatever a feature is and whatever was reported before,
the statements that it is compiled to have operands in normal form.

An expression that is lowered after some items, be it the value of a rule or the body of a macro,
has exactly one expansion.  If the expansion of an expression mentions no attribute path, the
expression is lowered to a single constant or fails. -/
theorem constants_folded_completely :
    (∀ (feature : Feature) (report : Report Fault),
      ∀ s ∈ (feature.compile report).1, s.operand.IsNormal) ∧
    (∀ (items : List Item) (e : Expr) (t : Tree Float),
      Lowering.lower (macrosAfter .empty items) e = .ok t →
        ∃ expanded, Expands items [] e expanded ∧
          ∀ other, Expands items [] e other → other = expanded) ∧
    ∀ (items : List Item) (e expanded : Expr), Expands items [] e expanded →
      expanded.paths = [] →
        (∃ value, Lowering.lower (macrosAfter .empty items) e = .ok (.static value)) ∨
          ∃ fault, Lowering.lower (macrosAfter .empty items) e = .error fault := by
  refine ⟨fun feature report => ?_, fun items e t h => ?_,
    fun items e expanded hexpands hpaths => ?_⟩
  · exact forall_operands_compileItems Lowering.keeps_isNormal
      fun _ hentry => absurd hentry List.not_mem_nil
  · obtain ⟨expanded, hexpands, -⟩ := Lowering.standsFor_of_lower items h
    exact ⟨expanded, hexpands, fun other hother => hother.unique hexpands⟩
  · cases h : Lowering.lower (macrosAfter .empty items) e with
    | error fault => exact .inr ⟨fault, rfl⟩
    | ok t =>
      obtain ⟨value, rfl⟩ := Lowering.eq_static_of_expands h hexpands hpaths
      exact .inl ⟨value, rfl⟩

/-- The definition of a macro that does not use its second parameter. -/
def firstOfTwo : Item :=
  let span := Span.point .start
  .define ⟨⟨"first", span⟩, some [⟨"x", span⟩, ⟨"y", span⟩], .macroUse ⟨"x", span⟩ span, span⟩

/-- A sum whose second operand calls the macro with an attribute path. -/
def onePlusFirst : Expr :=
  let span := Span.point .start
  .binary (.number 1 span) .add
    (.macroCall ⟨"first", span⟩ [.number 2 span, .path ⟨[.name "level"], span⟩] span) span

/-- The path is written, but is not in the expansion, and the sum is a constant. -/
theorem constants_folded_completely_unused :
    onePlusFirst.paths.length = 1 ∧
      ∃ value,
        Lowering.lower (macrosAfter .empty [firstOfTwo]) onePlusFirst = .ok (.static value) := by
  let span := Span.point .start
  have hlatest : IsLatest (MacroDef.BindsFunctional "first") [firstOfTwo] []
      ⟨⟨"first", span⟩, some [⟨"x", span⟩, ⟨"y", span⟩], .macroUse ⟨"x", span⟩ span, span⟩ := by
    refine ⟨⟨⟨rfl, rfl⟩, ?_⟩, [], rfl, fun d hd => absurd hd List.not_mem_nil⟩
    change ["x", "y"].Nodup
    decide
  have hexpands : Expands [firstOfTwo] [] onePlusFirst
      (.binary (.number 1 span) .add (.number 2 span) span) :=
    .binary .number (.functional hlatest (.cons .number (.cons .path .nil)) rfl (.argument rfl))
  refine ⟨rfl, ?_⟩
  rcases constants_folded_completely.2.2 _ _ _ hexpands rfl with hok | ⟨fault, herror⟩
  · exact hok
  · have hdone : (Lowering.lower (macrosAfter .empty [firstOfTwo]) onePlusFirst).toBool = true := by
      decide +kernel
    rw [herror] at hdone
    cases hdone

end SheetRules
