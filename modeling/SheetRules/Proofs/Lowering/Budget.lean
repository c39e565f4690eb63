import SheetRules.Proofs.Compile.Outcomes
import SheetRules.Proofs.Lowering.Derivation

/-!
# The budget bounds the trees

Lowering charges one node for each expression that it goes through and one for each node that it
copies from a macro, but not for the nodes that it makes.  Of these it makes at most three for one
expression: a difference becomes a sum, a product and a factor, a floor division a floor, a product
and a reciprocal.  So a tree has at most three times as many nodes as were charged for it, however
often macros copy their arguments, and the budget of an item bounds its tree.
-/

namespace SheetRules

namespace Tree

variable {α : Type}

/-- A constant is one node. -/
@[simp] lemma size_static (value : α) : (static value).size = 1 := by
  rw [size]

/-- A floor adds a node. -/
@[simp] lemma size_floor (t : Tree α) : (floor t).size = t.size + 1 := by
  rw [size, Nat.add_comm]

/-- An operator with two operands adds a node. -/
@[simp] lemma size_pair (op : Combine) (left right : Tree α) :
    (combine op [left, right]).size = left.size + right.size + 1 := by
  simp only [size, totalSize]
  omega

end Tree

namespace Lowering

variable {α : Type} [Arithmetic α] {left right t : Tree α}

/-! ### The nodes that one step makes -/

/-- A negated tree has two more nodes, the operator and its factor. -/
@[simp] lemma size_negated (t : Tree α) : (negated t).size = t.size + 2 := by
  rw [negated, multiply, Tree.size_pair, Tree.size_static]

/-- A sum adds one node at most. -/
lemma size_sum_le (left right : Tree α) : (sum left right).size ≤ left.size + right.size + 1 := by
  unfold sum
  split
  · omega
  split
  · omega
  · exact Nat.le_of_eq (Tree.size_pair _ left right)

/-- A difference adds three nodes at most, as the second operand may be negated. -/
lemma size_difference_le (left right : Tree α) :
    (difference left right).size ≤ left.size + right.size + 3 := by
  unfold difference
  split
  · split
    · omega
    · rw [add, Tree.size_pair, Tree.size_static]
      omega
  · rw [add, Tree.size_pair, size_negated]
    omega

/-- A product adds one node at most. -/
lemma size_product_le (left right : Tree α) :
    (product left right).size ≤ left.size + right.size + 1 := by
  unfold product
  split
  · rw [Tree.size_static]
    omega
  split
  · omega
  split
  · omega
  · exact Nat.le_of_eq (Tree.size_pair _ left right)

/-- A quotient adds two nodes at most. -/
lemma size_quotient_le {op : BinaryOp} {divisor : Span}
    (h : Gives (quotient op left right divisor) t) : t.size ≤ left.size + 2 := by
  obtain ⟨k, -, -, ⟨-, rfl⟩ | ⟨-, -, rfl⟩⟩ := gives_quotient_iff.mp h
  · omega
  · exact Nat.le_of_eq (Tree.size_pair _ left _)

/-- An operator makes at most three nodes. -/
lemma size_binary_le {op : BinaryOp} {divisor span : Span}
    (h : Gives (binary left op right divisor span) t) : t.size ≤ left.size + right.size + 3 := by
  rcases gives_binary_iff.mp h with ⟨_, _, _, -, -, -, -, rfl⟩ | ⟨-, ht⟩
  · rw [Tree.size_static]
    omega
  cases op with
  | add =>
    have hsum := size_sum_le left right
    rw [ht]
    omega
  | sub => exact ht ▸ size_difference_le left right
  | mul =>
    have hproduct := size_product_le left right
    rw [ht]
    omega
  | div =>
    have hquotient := size_quotient_le ht
    omega
  | floorDiv =>
    obtain ⟨scaled, hscaled, rfl⟩ := ht
    have hquotient := size_quotient_le hscaled
    rw [Tree.size_floor]
    omega

/-- A sign adds two nodes at most. -/
lemma size_negate_le {tree : Tree α} {span : Span} (h : Gives (negate tree span) t) :
    t.size ≤ tree.size + 2 := by
  rcases gives_negate_iff.mp h with ⟨_, -, -, rfl⟩ | ⟨-, rfl⟩
  · rw [Tree.size_static]
    omega
  · exact Nat.le_of_eq (size_negated tree)

/-- A function makes at most one node. -/
lemma size_apply_le {f : Builtin} {operands : List (Tree α)} {span : Span}
    (harity : f.takes operands.length = true) (h : Gives (apply f operands span) t) :
    t.size ≤ Tree.totalSize operands + 1 := by
  rcases (gives_apply_iff harity).mp h with ⟨_, _, -, -, -, rfl⟩ | ⟨-, ht⟩
  · rw [Tree.size_static]
    omega
  cases f with
  | min | max =>
    obtain rfl := ht
    rw [Tree.size]
    omega
  | floor =>
    cases operands with
    | nil => exact ht.elim
    | cons operand rest =>
      obtain rfl := ht
      rw [Tree.size_floor, Tree.totalSize]
      omega

/-! ### Along a derivation -/

-- A macro's name is the reason for charging copies: its tree can have any size, and no bound on the
-- trees in the scope is known here.
mutual

/-- A tree has at most three times as many nodes as were charged. -/
theorem Lowers.size_le : ∀ {levels : Nat} {scope : Scope α} {e : Expr} {t : Tree α} {cost : Nat},
    Lowers levels scope e t cost → t.size ≤ 3 * cost
  | _, _, _, _, _, .number hvalue => by
    rw [(gives_constant_iff.mp hvalue).2, Tree.size_static]
    omega
  | _, _, _, _, _, .path => by
    rw [Tree.size]
    omega
  | _, _, _, _, _, .paren hinner => by
    have hsize := hinner.size_le
    omega
  | _, _, _, _, _, .neg hinner hnode => by
    have hsize := hinner.size_le
    have hmade := size_negate_le hnode
    omega
  | _, _, _, _, _, .binary hleft hright hnode => by
    have hsizeLeft := hleft.size_le
    have hsizeRight := hright.size_le
    have hmade := size_binary_le hnode
    omega
  | _, _, _, _, _, .call _ harity hargs hnode => by
    have hsize := hargs.totalSize_le
    have hmade := size_apply_le (hargs.length_eq ▸ harity) hnode
    omega
  | _, _, _, _, _, .macroUse _ => by omega
  | _, _, _, _, _, .macroCall _ _ _ hbody => by
    -- the arguments are in the tree only as far as the body names them, and then they are charged
    have hsize := hbody.size_le
    omega

/-- Arguments have at most three nodes for each step that they cost. -/
theorem LowersAll.totalSize_le : ∀ {levels : Nat} {scope : Scope α} {es : List Expr}
    {trees : List (Tree α)} {cost : Nat}, LowersAll levels scope es trees cost →
      Tree.totalSize trees ≤ 3 * cost
  | _, _, _, _, _, .nil => Nat.le_refl 0
  | _, _, _, _, _, .cons hhead hrest => by
    have hsizeHead := hhead.size_le
    have hsizeRest := hrest.totalSize_le
    rw [Tree.totalSize]
    omega

end

/-- What is lowered within the budget of an item has been charged to it. -/
lemma Lowers.cost_le {macros : Macros α} {e : Expr} {cost : Nat}
    (hderivation : Lowers Limit.expansions (.top macros) e t cost)
    (h : lower macros e = .ok t) : cost ≤ Limit.nodes := by
  by_contra hlarge
  obtain ⟨span, herror⟩ := (hderivation.costs 0 (Nat.zero_le _)).2 (by omega)
  rw [lower, herror] at h
  cases h

/-- The tree of an item is within three times the budget, and not too deep. -/
lemma isWithinBudget_of_lower {macros : Macros α} {e : Expr} (h : lower macros e = .ok t) :
    t.size ≤ 3 * Limit.nodes ∧ t.depth ≤ Tree.depthLimit := by
  obtain ⟨hdepth, cost, hderivation⟩ := lowers_of_lower h
  have hcost := hderivation.cost_le h
  have hsize := hderivation.size_le
  exact ⟨by omega, hdepth⟩

end Lowering

/-! ### Along the items of a feature -/

/-- The trees of all static macros are within three times the budget, and not too deep. -/
def Macros.AreWithinBudget {α : Type} (macros : Macros α) : Prop :=
  ∀ entry ∈ macros.statics, entry.2.size ≤ 3 * Limit.nodes ∧ entry.2.depth ≤ Tree.depthLimit

/-- At first there are no macros that could be too large. -/
lemma Macros.areWithinBudget_empty : (Macros.empty (α := Float)).AreWithinBudget :=
  fun _ hentry => absurd hentry List.not_mem_nil

/-- However large the trees of macros are, those that are made with them are within the budget. -/
lemma Lowering.keeps_isWithinBudget :
    Lowering.Keeps fun t => t.size ≤ 3 * Limit.nodes ∧ t.depth ≤ Tree.depthLimit :=
  fun _ _ _ _ h => isWithinBudget_of_lower h

/-- Items keep the macros within the budget. -/
lemma areWithinBudget_macrosAfter {macros : Macros Float} (h : macros.AreWithinBudget)
    (items : List Item) : (macrosAfter macros items).AreWithinBudget :=
  forall_statics_macrosAfter Lowering.keeps_isWithinBudget h items

/-- Every operand of a feature has at most three nodes for each node of the limit. -/
lemma size_operand_le_of_mem_compileItems {report : Report Fault} {items : List Item} :
    ∀ s ∈ (compileItems .empty report items).1, s.operand.size ≤ 3 * Limit.nodes := by
  intro s hs
  exact (forall_operands_compileItems Lowering.keeps_isWithinBudget Macros.areWithinBudget_empty
    s hs).1

/-- **The budget bounds the trees.**  Whatever macros and arguments are in force, lowering an
expression gives a tree of at most three times as many nodes as it charges.  So whatever a feature
is, every statement that it is compiled to has a tree within three times the budget, and so has
every static macro that is defined after some of its items; the trees of the latter are not too deep
either. -/
theorem budget_bounds_trees :
    (∀ (levels used used' : Nat) (scope : Scope Float) (e : Expr) (t : Tree Float),
      Lowering.lowerAt levels scope e used = .ok (t, used') →
        used ≤ used' ∧ t.size ≤ 3 * (used' - used)) ∧
    (∀ (feature : Feature) (report : Report Fault), ∀ s ∈ (feature.compile report).1,
      s.operand.size ≤ 3 * Limit.nodes) ∧
    ∀ items : List Item, ∀ entry ∈ (macrosAfter .empty items).statics,
      entry.2.size ≤ 3 * Limit.nodes ∧ entry.2.depth ≤ Tree.depthLimit := by
  refine ⟨fun levels used used' scope e t hrun => ?_, fun feature report => ?_, fun items => ?_⟩
  · obtain ⟨cost, hderivation, rfl⟩ := Lowering.lowers_of_lowerAt hrun
    rw [Nat.add_sub_cancel_left]
    exact ⟨Nat.le_add_right used cost, hderivation.size_le⟩
  · exact size_operand_le_of_mem_compileItems
  · exact areWithinBudget_macrosAfter Macros.areWithinBudget_empty items

/-- A feature whose functional macro subtracts its argument from itself, used within itself, and
whose static macro holds the result. -/
def doubled : Feature :=
  let span := Span.point .start
  let use (name : String) : Expr := .macroUse ⟨name, span⟩ span
  let twice (e : Expr) : Expr := .macroCall ⟨"twice", span⟩ [e] span
  ⟨[.define ⟨⟨"twice", span⟩, some [⟨"x", span⟩], .binary (use "x") .sub (use "x") span, span⟩,
    .define ⟨⟨"eight", span⟩, none, twice (twice (twice (.path ⟨[.name "level"], span⟩))), span⟩,
    .rule ⟨0, ⟨[.name "nothing"], span⟩, .set, twice (use "eight"), span⟩], span⟩

/-- Four subtractions of one path from itself give a tree of 61 nodes. -/
theorem budget_bounds_trees_doubled :
    ∃ s ∈ (doubled.compile .empty).1, s.operand.size = 61 ∧ s.operand.size ≤ 3 * Limit.nodes := by
  have hsizes : (doubled.compile .empty).1.map (·.operand.size) = [61] := by decide +kernel
  obtain ⟨s, hs, hsize⟩ := List.mem_map.mp (hsizes ▸ List.mem_singleton_self 61)
  exact ⟨s, hs, hsize, budget_bounds_trees.2.1 doubled .empty s hs⟩

end SheetRules
