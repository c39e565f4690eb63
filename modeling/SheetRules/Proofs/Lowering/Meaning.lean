import Mathlib.Algebra.Order.Field.Rat
import Mathlib.Data.Rat.Floor
import Mathlib.Tactic.FieldSimp
import Mathlib.Tactic.Ring
import SheetRules.Proofs.Feature.Occurrences
import SheetRules.Proofs.Lowering.Derivation
import SheetRules.Tree.Eval

/-!
# Lowering preserves meaning

Read with exact numbers, an expression without macros has a value of its own, `Expr.value?`: sums,
differences, products, quotients, floors, minima and maxima of rationals, with no value where a
divisor is zero.  Evaluating the tree that the expression is lowered to gives the same value.

The trees of an expression and of its operands are related by `Tree.Evaluates`, which leaves the
depth limit out.  There is one lemma for each way to make a node; each says what the rewriting of
that node (differences as sums, quotients as products, folded constants, dropped zeros and ones)
does to the value.
-/

namespace SheetRules

/-! ### The value of an expression -/

/-- The value of an operator on two numbers; a quotient by zero has none. -/
def BinaryOp.value? (op : BinaryOp) (a b : Rat) : Option Rat :=
  match op with
  | .add => some (a + b)
  | .sub => some (a - b)
  | .mul => some (a * b)
  | .div => if b = 0 then none else some (a / b)
  | .floorDiv => if b = 0 then none else some ⌊a / b⌋

/-- The value of a function call: `min` and `max` take any number of arguments but none, and `floor`
takes one. -/
def callValue? : (name : String) → (arguments : List Rat) → Option Rat
  | "min", v :: rest => some (rest.foldl min v)
  | "max", v :: rest => some (rest.foldl max v)
  | "floor", [v] => some ⌊v⌋
  | _, _ => none

/-- A function is found under its own name. -/
lemma Builtin.name_of_ofName? {name : String} {f : Builtin} (h : ofName? name = some f) :
    f.name = name := by
  simpa using List.find?_some h

namespace Expr

mutual

/-- The value of an expression without macros, where `read` gives the values of paths.  There is
none if a path has no value, a divisor is zero or a function is not called as it should be. -/
def value? (read : String → Except RunError Rat) : Expr → Option Rat
  | .number value _ => some (Double.toRat value)
  | .path p => (read p.text).toOption
  | .binary left op right _ => do
    let a ← left.value? read
    let b ← right.value? read
    op.value? a b
  | .neg inner _ => do
    let a ← inner.value? read
    some (-a)
  | .call name args _ => do
    let arguments ← values? read args
    callValue? name.text arguments
  | .macroUse _ _ => none
  | .macroCall _ _ _ => none
  | .paren inner _ => inner.value? read

/-- The values of several expressions. -/
def values? (read : String → Except RunError Rat) : List Expr → Option (List Rat)
  | [] => some []
  | e :: rest => do
    let v ← e.value? read
    let vs ← values? read rest
    some (v :: vs)

end

end Expr

/-! ### Exact arithmetic -/

namespace Arithmetic

/-- The zero of the rationals. -/
lemma rat_zero : (zero : Rat) = 0 := by decide +kernel

/-- The one of the rationals. -/
lemma rat_one : (one : Rat) = 1 := by decide +kernel

/-- The minus one of the rationals. -/
lemma rat_minusOne : (minusOne : Rat) = -1 := by decide +kernel

/-- The least of two rationals is their minimum. -/
lemma rat_least : (least : Rat → Rat → Rat) = min := by
  funext a b
  change (if decide (b < a) = true then b else a) = min a b
  by_cases h : b < a
  · simp [h, min_eq_right h.le]
  · simp [h, min_eq_left (not_lt.mp h)]

/-- The greatest of two rationals is their maximum. -/
lemma rat_greatest : (greatest : Rat → Rat → Rat) = max := by
  funext a b
  change (if decide (a < b) = true then b else a) = max a b
  by_cases h : a < b
  · simp [h, max_eq_right h.le]
  · simp [h, max_eq_left (not_lt.mp h)]

/-- Rationals are the same if they are equal. -/
lemma rat_same {a b : Rat} : same a b = true ↔ a = b :=
  decide_eq_true_iff

end Arithmetic

/-! ### Evaluating trees without a limit -/

namespace Tree

variable {read : String → Except RunError Rat}

/-- The tree has the value `v`, whatever limit its depth fits in. -/
def Evaluates (read : String → Except RunError Rat) (t : Tree Rat) (v : Rat) : Prop :=
  ∀ limit left, t.depth ≤ left → t.evalWithin limit read left = .ok v

/-- The trees have the values `vs`, one by one. -/
abbrev EvaluatesAll (read : String → Except RunError Rat) : List (Tree Rat) → List Rat → Prop :=
  List.Forall₂ (Evaluates read)

/-- A tree has at most one value. -/
lemma Evaluates.unique {t : Tree Rat} {v w : Rat} (hv : Evaluates read t v)
    (hw : Evaluates read t w) : v = w := by
  have h := (hv 0 t.depth le_rfl).symm.trans (hw 0 t.depth le_rfl)
  exact Except.ok.inj h

/-- Every tree has a level. -/
lemma depth_pos {α : Type} (t : Tree α) : 0 < t.depth := by
  cases t <;> simp [depth]

/-- Every tree takes one level, so only limits with a level left have to be looked at. -/
lemma evaluates_of_succ {t : Tree Rat} {v : Rat}
    (h : ∀ limit left, t.depth ≤ left + 1 → t.evalWithin limit read (left + 1) = .ok v) :
    Evaluates read t v := by
  intro limit left hleft
  obtain ⟨left, rfl⟩ := Nat.exists_eq_succ_of_ne_zero (t.depth_pos.trans_le hleft).ne'
  exact h limit left hleft

/-- A constant evaluates to itself. -/
lemma evaluates_static (k : Rat) : Evaluates read (.static k) k :=
  evaluates_of_succ fun _ _ _ => rfl

/-- A path evaluates to what is read. -/
lemma evaluates_dynamic {path : String} {v : Rat} (h : read path = .ok v) :
    Evaluates read (.dynamic path) v := by
  refine evaluates_of_succ fun limit left _ => ?_
  simp only [evalWithin, h]
  rfl

/-- A floor evaluates to the floor of its operand. -/
lemma evaluates_floor {t : Tree Rat} {v : Rat} (h : Evaluates read t v) :
    Evaluates read (.floor t) ⌊v⌋ := by
  refine evaluates_of_succ fun limit left hleft => ?_
  simp only [depth] at hleft
  simp only [evalWithin, h limit left (by omega)]
  rfl

/-- Operands evaluate within any limit that is deep enough. -/
lemma EvaluatesAll.eval {ts : List (Tree Rat)} {vs : List Rat} (h : EvaluatesAll read ts vs)
    {limit left : Nat} (hleft : deepest ts ≤ left) : evalAllWithin limit read ts left = .ok vs := by
  induction h with
  | nil => rfl
  | cons hhead hrest ih =>
    simp only [deepest] at hleft
    simp only [evalAllWithin, hhead limit left (by omega), ih (by omega)]
    rfl

/-- An operator is applied to the values of its operands. -/
lemma evaluates_combine {op : Combine} {ts : List (Tree Rat)} {vs : List Rat} {v : Rat}
    (h : EvaluatesAll read ts vs) (happly : op.apply vs = .ok v) :
    Evaluates read (.combine op ts) v := by
  refine evaluates_of_succ fun limit left hleft => ?_
  simp only [depth] at hleft
  simp only [evalWithin, h.eval (by omega : deepest ts ≤ left)]
  change (op.apply vs).bind _ = _
  rw [happly]
  rfl

/-- Constants have the values that they are. -/
lemma EvaluatesAll.eq_of_static {ks vs : List Rat} (h : EvaluatesAll read (ks.map .static) vs) :
    ks = vs := by
  induction ks generalizing vs with
  | nil => cases h with | nil => rfl
  | cons k ks ih =>
    cases h with
    | cons hhead hrest => rw [hhead.unique (evaluates_static k), ih hrest]

end Tree

/-! ### The value of each node that is made -/

namespace Lowering

open SheetRules.Tree

variable {read : String → Except RunError Rat} {left right : Tree Rat} {a b : Rat}

/-- A tree is recognised as a constant if it is one. -/
lemma isConstant_rat {t : Tree Rat} {k : Rat} : isConstant t k = true ↔ t = .static k := by
  unfold isConstant
  cases h : t.constant? with
  | none =>
    simp only [Bool.false_eq_true, false_iff]
    rintro rfl
    simp [constant?] at h
  | some k' =>
    rw [constant?_eq_some] at h
    simp [h, Arithmetic.rat_same]

/-- A node for a sum evaluates to the sum. -/
lemma evaluates_add (hl : Evaluates read left a) (hr : Evaluates read right b) :
    Evaluates read (add left right) (a + b) := by
  refine evaluates_combine (.cons hl (.cons hr .nil)) ?_
  change Except.ok ((Arithmetic.zero : Rat) + a + b) = .ok (a + b)
  rw [Arithmetic.rat_zero, zero_add]

/-- A node for a product evaluates to the product. -/
lemma evaluates_multiply (hl : Evaluates read left a) (hr : Evaluates read right b) :
    Evaluates read (multiply left right) (a * b) := by
  refine evaluates_combine (.cons hl (.cons hr .nil)) ?_
  change Except.ok ((Arithmetic.one : Rat) * a * b) = .ok (a * b)
  rw [Arithmetic.rat_one, one_mul]

/-- A negated tree evaluates to the negated value. -/
lemma evaluates_negated (hl : Evaluates read left a) : Evaluates read (negated left) (-a) := by
  unfold negated
  rw [Arithmetic.rat_minusOne, ← mul_neg_one a]
  exact evaluates_multiply hl (evaluates_static (-1))

/-- Dropping a zero does not change a sum. -/
lemma evaluates_sum (hl : Evaluates read left a) (hr : Evaluates read right b) :
    Evaluates read (sum left right) (a + b) := by
  unfold sum
  split
  · rename_i hzero
    rw [isConstant_rat, Arithmetic.rat_zero] at hzero
    subst hzero
    rwa [hr.unique (evaluates_static 0), add_zero]
  split
  · rename_i hzero
    rw [isConstant_rat, Arithmetic.rat_zero] at hzero
    subst hzero
    rwa [hl.unique (evaluates_static 0), zero_add]
  · exact evaluates_add hl hr

/-- A difference is the sum with the opposite of the second operand. -/
lemma evaluates_difference (hl : Evaluates read left a) (hr : Evaluates read right b) :
    Evaluates read (difference left right) (a - b) := by
  unfold difference
  split
  · rename_i k hk
    rw [constant?_eq_some] at hk
    subst hk
    obtain rfl := hr.unique (evaluates_static k)
    split
    · rename_i hzero
      rw [Arithmetic.rat_same, Arithmetic.rat_zero] at hzero
      rwa [hzero, sub_zero]
    · rw [sub_eq_add_neg]
      exact evaluates_add hl (evaluates_static (-b))
  · rw [sub_eq_add_neg]
    exact evaluates_add hl (evaluates_negated hr)

/-- A product with zero is zero, and dropping a one does not change a product. -/
lemma evaluates_product (hl : Evaluates read left a) (hr : Evaluates read right b) :
    Evaluates read (product left right) (a * b) := by
  unfold product
  split
  · rename_i hzero
    rw [Bool.or_eq_true, isConstant_rat, isConstant_rat, Arithmetic.rat_zero] at hzero
    have hprod : a * b = 0 := by
      rcases hzero with rfl | rfl
      · rw [hl.unique (evaluates_static 0), zero_mul]
      · rw [hr.unique (evaluates_static 0), mul_zero]
    rw [hprod, Arithmetic.rat_zero]
    exact evaluates_static 0
  split
  · rename_i hone
    rw [isConstant_rat, Arithmetic.rat_one] at hone
    subst hone
    rwa [hr.unique (evaluates_static 1), mul_one]
  split
  · rename_i hone
    rw [isConstant_rat, Arithmetic.rat_one] at hone
    subst hone
    rwa [hl.unique (evaluates_static 1), one_mul]
  · exact evaluates_multiply hl hr

/-- A quotient is made only by a constant other than zero, and is the product with its
reciprocal. -/
lemma evaluates_quotient {op : BinaryOp} {divisor : Span} {t : Tree Rat}
    (h : Gives (quotient op left right divisor) t) (hl : Evaluates read left a)
    (hr : Evaluates read right b) : b ≠ 0 ∧ Evaluates read t (a / b) := by
  obtain ⟨k, hk, hzero, ht⟩ := gives_quotient_iff.mp h
  rw [constant?_eq_some] at hk
  subst hk
  obtain rfl := hr.unique (evaluates_static k)
  rw [← Bool.not_eq_true, Arithmetic.rat_same, Arithmetic.rat_zero] at hzero
  refine ⟨hzero, ?_⟩
  rcases ht with ⟨hone, rfl⟩ | ⟨-, -, rfl⟩
  · rw [Arithmetic.rat_same, Arithmetic.rat_one] at hone
    rwa [hone, div_one]
  · rw [div_eq_mul_one_div, ← Arithmetic.rat_one]
    exact evaluates_multiply hl (evaluates_static _)

/-- Folding two constants gives the value of the operator. -/
lemma Folds.value {op : BinaryOp} {v : Rat} (h : Folds op a b v) : op.value? a b = some v := by
  cases op with
  | add => exact congrArg some (Eq.symm h)
  | sub => exact congrArg some (Eq.symm h)
  | mul => exact congrArg some (Eq.symm h)
  | div =>
    obtain ⟨hzero, rfl⟩ := h
    rw [← Bool.not_eq_true, Arithmetic.rat_same, Arithmetic.rat_zero] at hzero
    exact if_neg hzero
  | floorDiv =>
    obtain ⟨hzero, rfl⟩ := h
    rw [← Bool.not_eq_true, Arithmetic.rat_same, Arithmetic.rat_zero] at hzero
    exact if_neg hzero

/-- An operator with its operands has the value of the operator, which is defined. -/
lemma evaluates_binary {op : BinaryOp} {divisor span : Span} {t : Tree Rat}
    (h : Gives (binary left op right divisor span) t) (hl : Evaluates read left a)
    (hr : Evaluates read right b) : ∃ v, op.value? a b = some v ∧ Evaluates read t v := by
  rcases gives_binary_iff.mp h with ⟨k, k', v, hk, hk', hfolds, -, rfl⟩ | ⟨-, ht⟩
  · rw [constant?_eq_some] at hk hk'
    subst hk hk'
    obtain rfl := hl.unique (evaluates_static k)
    obtain rfl := hr.unique (evaluates_static k')
    exact ⟨v, hfolds.value, evaluates_static v⟩
  cases op with
  | add => exact ⟨a + b, rfl, ht ▸ evaluates_sum hl hr⟩
  | sub => exact ⟨a - b, rfl, ht ▸ evaluates_difference hl hr⟩
  | mul => exact ⟨a * b, rfl, ht ▸ evaluates_product hl hr⟩
  | div =>
    obtain ⟨hzero, hvalue⟩ := evaluates_quotient ht hl hr
    exact ⟨a / b, if_neg hzero, hvalue⟩
  | floorDiv =>
    obtain ⟨scaled, hscaled, rfl⟩ := ht
    obtain ⟨hzero, hvalue⟩ := evaluates_quotient hscaled hl hr
    exact ⟨⌊a / b⌋, if_neg hzero, evaluates_floor hvalue⟩

/-- What a sign gives evaluates to the negated value. -/
lemma evaluates_negate {span : Span} {t : Tree Rat} (h : Gives (negate left span) t)
    (hl : Evaluates read left a) : Evaluates read t (-a) := by
  rcases gives_negate_iff.mp h with ⟨k, hk, -, rfl⟩ | ⟨-, rfl⟩
  · rw [constant?_eq_some] at hk
    subst hk
    obtain rfl := hl.unique (evaluates_static k)
    exact evaluates_static (-a)
  · exact evaluates_negated hl

/-- Folding a function of constants gives the value of the function. -/
lemma Applies.value {f : Builtin} {ks : List Rat} {v : Rat} (h : Applies f ks v)
    (harity : f.takes ks.length = true) : callValue? f.name ks = some v := by
  obtain ⟨k, rest, rfl⟩ := List.exists_cons_of_length_pos (f.pos_of_takes harity)
  cases f with
  | min =>
    obtain rfl := h
    rw [Arithmetic.rat_least]
    rfl
  | max =>
    obtain rfl := h
    rw [Arithmetic.rat_greatest]
    rfl
  | floor =>
    obtain rfl : rest = [] := by simpa [Builtin.takes] using harity
    exact congrArg some (Eq.symm h)

/-- A function with as many operands as it takes has the value of the function. -/
lemma evaluates_apply {f : Builtin} {operands : List (Tree Rat)} {vs : List Rat} {span : Span}
    {t : Tree Rat} (h : Gives (apply f operands span) t) (harity : f.takes operands.length = true)
    (hoperands : EvaluatesAll read operands vs) :
    ∃ v, callValue? f.name vs = some v ∧ Evaluates read t v := by
  have hlength := hoperands.length_eq
  rcases (gives_apply_iff harity).mp h with ⟨ks, v, hks, happlies, -, rfl⟩ | ⟨-, ht⟩
  · rw [constants?_eq_some] at hks
    subst hks
    obtain rfl := hoperands.eq_of_static
    exact ⟨v, happlies.value (hlength ▸ harity), evaluates_static v⟩
  rw [hlength] at harity
  obtain ⟨v, rest, rfl⟩ := List.exists_cons_of_length_pos (f.pos_of_takes harity)
  cases f with
  | min =>
    obtain rfl : t = .combine .min operands := ht
    refine ⟨rest.foldl Min.min v, rfl, evaluates_combine hoperands ?_⟩
    rw [← Arithmetic.rat_least]
    rfl
  | max =>
    obtain rfl : t = .combine .max operands := ht
    refine ⟨rest.foldl Max.max v, rfl, evaluates_combine hoperands ?_⟩
    rw [← Arithmetic.rat_greatest]
    rfl
  | floor =>
    obtain rfl : rest = [] := by simpa [Builtin.takes] using harity
    cases hoperands with
    | cons hhead _ =>
      obtain rfl := ht
      exact ⟨⌊v⌋, rfl, evaluates_floor hhead⟩

/-! ### The value of a lowered expression -/

mutual

/-- Along a derivation, the tree of an expression has the value of the expression. -/
theorem Lowers.evaluates : ∀ {levels : Nat} {scope : Scope Rat} {e : Expr} {t : Tree Rat}
    {cost : Nat}, Lowers levels scope e t cost → e.isMacroFree = true →
      (∀ p ∈ e.paths, ∃ v, read p.text = .ok v) →
      ∃ v, e.value? read = some v ∧ Evaluates read t v
  | _, _, _, _, _, .number hvalue, _, _ =>
    ⟨_, by simp only [Expr.value?]; rfl, (gives_constant_iff.mp hvalue).2 ▸ evaluates_static _⟩
  | _, _, _, _, _, .path, _, hread => by
    obtain ⟨v, hv⟩ := hread _ (by simp only [Expr.paths]; exact List.mem_singleton_self _)
    exact ⟨v, by simp only [Expr.value?, hv]; rfl, evaluates_dynamic hv⟩
  | _, _, _, _, _, .paren hinner, hfree, hread => by
    simp only [Expr.isMacroFree] at hfree
    simp only [Expr.paths] at hread
    simpa only [Expr.value?] using hinner.evaluates hfree hread
  | _, _, _, _, _, .neg hinner hnode, hfree, hread => by
    simp only [Expr.isMacroFree] at hfree
    simp only [Expr.paths] at hread
    obtain ⟨v, hv, hoperand⟩ := hinner.evaluates hfree hread
    exact ⟨-v, by simp only [Expr.value?, hv]; rfl, evaluates_negate hnode hoperand⟩
  | _, _, _, _, _, .binary hleft hright hnode, hfree, hread => by
    simp only [Expr.isMacroFree, Bool.and_eq_true] at hfree
    simp only [Expr.paths, List.forall_mem_append] at hread
    obtain ⟨a, ha, hl⟩ := hleft.evaluates hfree.1 hread.1
    obtain ⟨b, hb, hr⟩ := hright.evaluates hfree.2 hread.2
    obtain ⟨v, hv, ht⟩ := evaluates_binary hnode hl hr
    exact ⟨v, by simp only [Expr.value?, ha, hb]; exact hv, ht⟩
  | _, _, _, _, _, .call hname harity hargs hnode, hfree, hread => by
    simp only [Expr.isMacroFree] at hfree
    simp only [Expr.paths] at hread
    obtain ⟨vs, hvs, hoperands⟩ := hargs.evaluatesAll hfree hread
    obtain ⟨v, hv, ht⟩ := evaluates_apply hnode (hargs.length_eq ▸ harity) hoperands
    rw [Builtin.name_of_ofName? hname] at hv
    exact ⟨v, by simp only [Expr.value?, hvs]; exact hv, ht⟩
  | _, _, _, _, _, .macroUse _, hfree, _ => by simp [Expr.isMacroFree] at hfree
  | _, _, _, _, _, .macroCall _ _ _ _, hfree, _ => by simp [Expr.isMacroFree] at hfree

/-- Along a derivation, the trees of several expressions have their values. -/
theorem LowersAll.evaluatesAll : ∀ {levels : Nat} {scope : Scope Rat} {es : List Expr}
    {trees : List (Tree Rat)} {cost : Nat}, LowersAll levels scope es trees cost →
      Expr.areMacroFree es = true → (∀ p ∈ Expr.pathsOfAll es, ∃ v, read p.text = .ok v) →
      ∃ vs, Expr.values? read es = some vs ∧ EvaluatesAll read trees vs
  | _, _, _, _, _, .nil, _, _ => ⟨[], by simp only [Expr.values?], .nil⟩
  | _, _, _, _, _, .cons hhead hrest, hfree, hread => by
    simp only [Expr.areMacroFree, Bool.and_eq_true] at hfree
    simp only [Expr.pathsOfAll, List.forall_mem_append] at hread
    obtain ⟨v, hv, ht⟩ := hhead.evaluates hfree.1 hread.1
    obtain ⟨vs, hvs, hts⟩ := hrest.evaluatesAll hfree.2 hread.2
    exact ⟨v :: vs, by simp only [Expr.values?, hv, hvs]; rfl, .cons ht hts⟩

end

/-- **Lowering preserves meaning.**  If an expression without macros is lowered to a tree, and every
path of the expression leads to a number, then the expression has a value, so that no divisor in it
is zero, and evaluating the tree gives this value under every limit that is at least its depth. -/
theorem eval_lowered_eq_value {levels : Nat} {scope : Scope Rat} {e : Expr}
    (hfree : e.isMacroFree = true) {t : Tree Rat} {used used' : Nat}
    (hlower : lowerAt levels scope e used = .ok (t, used'))
    (read : String → Except RunError Rat) (hread : ∀ p ∈ e.paths, ∃ v, read p.text = .ok v)
    (limit : Nat) (hlimit : t.depth ≤ limit) :
    ∃ v, e.value? read = some v ∧ t.eval limit read = .ok v := by
  obtain ⟨cost, hderivation, -⟩ := lowers_of_lowerAt hlower
  obtain ⟨v, hv, ht⟩ := hderivation.evaluates hfree hread
  exact ⟨v, hv, ht limit limit hlimit⟩

/-- The smaller one of a third of a path, rounded down, and another path, less zero. -/
def thirdDown : Expr :=
  let span := Span.point .start
  let path (name : String) : Expr := .path ⟨[.name name], span⟩
  .binary (.call ⟨"min", span⟩
    [.binary (path "level") .floorDiv (.number 3 span) span, path "armor"] span) .sub
    (.number 0 span) span

/-- Two paths with different values. -/
def levelAndArmor (name : String) : Except RunError Rat :=
  if name = "level" then .ok 8 else .ok 5

/-- A third of eight, rounded down, is two and less than five, both in the expression and in its
tree. -/
theorem eval_lowered_eq_value_thirdDown :
    ∃ (t : Tree Rat) (used : Nat), lowerAt 0 (.top .empty) thirdDown 0 = .ok (t, used) ∧
      thirdDown.value? levelAndArmor = some 2 ∧ t.eval t.depth levelAndArmor = .ok 2 := by
  have hok : (lowerAt 0 (.top (.empty : Macros Rat)) thirdDown 0).toBool = true := by
    decide +kernel
  have hvalue : thirdDown.value? levelAndArmor = some 2 := by decide +kernel
  have hread (p : Path) : ∃ v, levelAndArmor p.text = .ok v := by
    rw [levelAndArmor]
    split
    · exact ⟨8, rfl⟩
    · exact ⟨5, rfl⟩
  cases hlower : lowerAt 0 (.top (.empty : Macros Rat)) thirdDown 0 with
  | error fault =>
    rw [hlower] at hok
    cases hok
  | ok lowered =>
    obtain ⟨t, used⟩ := lowered
    obtain ⟨v, hv, ht⟩ := eval_lowered_eq_value (by decide) hlower levelAndArmor
      (fun p _ => hread p) t.depth le_rfl
    obtain rfl : v = 2 := Option.some.inj (hv.symm.trans hvalue)
    exact ⟨t, used, rfl, hvalue, ht⟩

end Lowering

end SheetRules
