import SheetRules.Proofs.Batch.Errors
import SheetRules.Proofs.Number.Series

/-!
# The order of operands

Whether the operands of a sum or product have values does not depend on their order.  What they are
combined to does, since every step is rounded and may overflow; `OrderOutcome` says how far.
-/

namespace SheetRules

open Double (IsDouble toRat)

/-- A check passes the finite numbers, as they are. -/
lemma Operator.checked_eq_ok_iff {op : Operator} {v w : Float} :
    op.checked v = .ok w ↔ Double.nonFinite? v = none ∧ v = w := by
  cases hfinite : Double.nonFinite? v with
  | some reason =>
    have hreason : Arithmetic.nonFinite? v = some reason := hfinite
    rw [checked, hreason]
    simp
  | none =>
    have hnone : Arithmetic.nonFinite? v = none := hfinite
    rw [checked, hnone]
    simp

namespace Tree

variable {limit left : ℕ} {read : String → Except RunError Float}
  {operands operands' : List (Tree Float)} {values values' : List Float}

/-! ### The values of operands -/

/-- The values that the operands of a node have, one level below it. -/
def operandValues (limit : ℕ) (read : String → Except RunError Float)
    (operands : List (Tree Float)) : Except RunError (List Float) :=
  match limit with
  | 0 => .error (.tooDeep 0)
  | left + 1 => evalAllWithin (left + 1) read operands left

/-- An operator is applied to the values of its operands and then checked. -/
lemma eval_combine (op : Combine) :
    (Tree.combine op operands).eval limit read =
      (operandValues limit read operands >>= fun values =>
        op.apply values >>= (Operator.combine op).checked) := by
  cases limit <;> rfl

/-- A value is always a number. -/
lemma nonFinite?_of_evalWithin {t : Tree Float} {v : Float}
    (h : t.evalWithin limit read left = .ok v) : Double.nonFinite? v = none := by
  have hchecked : ∀ {op : Operator} {w : Float}, op.checked w = .ok v →
      Double.nonFinite? v = none := by
    intro op w hw
    obtain ⟨hfinite, rfl⟩ := Operator.checked_eq_ok_iff.mp hw
    exact hfinite
  cases left with
  | zero => cases t <;> cases h
  | succ left =>
    cases t with
    | static w => exact hchecked h
    | dynamic path =>
      obtain ⟨w, -, hw⟩ := bind_eq_ok_iff.mp h
      exact hchecked hw
    | combine op operands =>
      obtain ⟨vs, -, hnode⟩ := bind_eq_ok_iff.mp h
      obtain ⟨w, -, hw⟩ := bind_eq_ok_iff.mp hnode
      exact hchecked hw
    | floor operand =>
      obtain ⟨w, -, hw⟩ := bind_eq_ok_iff.mp h
      exact hchecked hw

/-- Operands are evaluated one by one. -/
lemma evalAllWithin_eq_ok_iff : evalAllWithin limit read operands left = .ok values ↔
    List.Forall₂ (fun t v => t.evalWithin limit read left = .ok v) operands values := by
  induction operands generalizing values with
  | nil =>
    rw [evalAllWithin, List.forall₂_nil_left_iff, Except.ok.injEq]
    exact eq_comm
  | cons t rest ih =>
    rw [evalAllWithin, bind_eq_ok_iff, List.forall₂_cons_left_iff]
    constructor
    · rintro ⟨v, hv, htail⟩
      obtain ⟨vs, hvs, hdone⟩ := bind_eq_ok_iff.mp htail
      exact ⟨v, vs, hv, ih.mp hvs, (Except.ok.inj hdone).symm⟩
    · rintro ⟨v, vs, hv, hvs, rfl⟩
      exact ⟨v, hv, bind_eq_ok_iff.mpr ⟨vs, ih.mpr hvs, rfl⟩⟩

/-- The values of operands are finite. -/
lemma nonFinite?_of_operandValues (h : operandValues limit read operands = .ok values) :
    ∀ v ∈ values, Double.nonFinite? v = none := by
  cases limit with
  | zero => cases h
  | succ left =>
    have hvalues := evalAllWithin_eq_ok_iff.mp h
    clear h
    induction hvalues with
    | nil => exact List.forall_mem_nil _
    | cons hv _ ih => exact List.forall_mem_cons.mpr ⟨nonFinite?_of_evalWithin hv, ih⟩

/-- In another order the operands have the same values, in that order. -/
theorem exists_perm_of_operandValues (hperm : operands.Perm operands')
    (h : operandValues limit read operands = .ok values) :
    ∃ values', operandValues limit read operands' = .ok values' ∧ values.Perm values' := by
  cases limit with
  | zero => cases h
  | succ left =>
    obtain ⟨values', hvalues', hsame⟩ :=
      List.perm_comp_forall₂ hperm.symm (evalAllWithin_eq_ok_iff.mp h)
    exact ⟨values', evalAllWithin_eq_ok_iff.mpr hvalues', hsame.symm⟩

/-- A series gives its result if that is finite. -/
lemma eval_series (series : Series) (h : operandValues limit read operands = .ok values) :
    (Tree.combine series.op operands).eval limit read =
      (Operator.combine series.op).checked (series.result values) := by
  rw [eval_combine, h]
  change (series.op.apply values >>= _) = _
  rw [Series.apply_op]
  rfl

/-! ### Two orders -/

/-- How far two orders of the same operand values agree.  The first two operands may always change
places.  If no part of the operands has to be rounded, both orders give the exact result.  If no
part is too large or too small for a double, both give a number.  If no part is too small, and both
give a number, these differ by the rounding errors of both. -/
structure OrderOutcome (series : Series) (values values' : List Float)
    (result result' : Except RunError Float) : Prop where
  swap : ∀ v w rest, values = v :: w :: rest → values' = w :: v :: rest → result = result'
  exact : (∀ part, part.Sublist values → IsDouble (series.total part)) →
    ∃ v, result = .ok v ∧ result' = .ok v ∧ toRat v = series.total values
  inRange : (∀ part, part.Sublist values → series.IsKept part) →
    (∀ part, part.Sublist values → series.IsInRange part) →
      ∃ v v', result = .ok v ∧ result' = .ok v'
  near : (∀ part, part.Sublist values → series.IsKept part) →
    ∀ v v', result = .ok v → result' = .ok v' →
      |toRat v - toRat v'| ≤ 2 * Series.drift (values.length - 1) * series.magnitude values

/-- Operands whose values are the same in another order have outcomes that are compared by the
series. -/
lemma orderOutcome_of_perm (series : Series) (hperm : values.Perm values')
    (h : operandValues limit read operands = .ok values)
    (h' : operandValues limit read operands' = .ok values') :
    OrderOutcome series values values' ((Tree.combine series.op operands).eval limit read)
      ((Tree.combine series.op operands').eval limit read) := by
  have hfinite := nonFinite?_of_operandValues h
  have hfinite' := nonFinite?_of_operandValues h'
  rw [eval_series series h, eval_series series h']
  refine ⟨?_, ?_, ?_, ?_⟩
  · -- two operands at the front may change places
    rintro v w rest rfl rfl
    have hv := hfinite v List.mem_cons_self
    have hw := hfinite' w List.mem_cons_self
    rw [series.result_swap hv hw]
  · -- if every partial result is a double, nothing is rounded
    intro hdouble
    obtain ⟨hresult, hvalue⟩ := Series.result_eq_total hfinite hdouble
    rw [← Series.result_eq_of_perm hperm hfinite hdouble]
    refine ⟨series.result values, ?_, ?_, hvalue⟩
    · exact Operator.checked_eq_ok_iff.mpr ⟨hresult, rfl⟩
    · exact Operator.checked_eq_ok_iff.mpr ⟨hresult, rfl⟩
  · -- otherwise both results are near the exact one
    intro hkept hrange
    have hkept' := Series.forall_sublist_of_perm (fun hp hk => hk.of_perm hp) hperm hkept
    have hrange' := Series.forall_sublist_of_perm (fun hp hr => hr.of_perm hp) hperm hrange
    have hnear := Series.near_result hfinite hkept (.inl hrange)
    have hnear' := Series.near_result hfinite' hkept' (.inl hrange')
    refine ⟨series.result values, series.result values', ?_, ?_⟩
    · exact Operator.checked_eq_ok_iff.mpr ⟨hnear.finite, rfl⟩
    · exact Operator.checked_eq_ok_iff.mpr ⟨hnear'.finite, rfl⟩
  · intro hkept v v' hv hv'
    obtain ⟨hresult, rfl⟩ := Operator.checked_eq_ok_iff.mp hv
    obtain ⟨hresult', rfl⟩ := Operator.checked_eq_ok_iff.mp hv'
    have hkept' := Series.forall_sublist_of_perm (fun hp hk => hk.of_perm hp) hperm hkept
    have hnear := Series.near_result hfinite hkept (.inr hresult)
    have hnear' := Series.near_result hfinite' hkept' (.inr hresult')
    exact hnear.abs_sub_le_of_perm hnear' hperm

/-- **Sums and products in another order.**  Either the operands have no values in both orders, and
both evaluations fail, or they have the same values in both and the results agree as far as
rounding and overflow let them. -/
theorem eval_combine_of_perm (series : Series) (store : Store) (limit : ℕ)
    {operands operands' : List (Tree Float)} (hperm : operands.Perm operands') :
    (∃ e e', operandValues limit store.get operands = .error e ∧
      operandValues limit store.get operands' = .error e' ∧
      (Tree.combine series.op operands).eval limit store.get = .error e ∧
      (Tree.combine series.op operands').eval limit store.get = .error e') ∨
    ∃ values values', operandValues limit store.get operands = .ok values ∧
      operandValues limit store.get operands' = .ok values' ∧ values.Perm values' ∧
      OrderOutcome series values values'
        ((Tree.combine series.op operands).eval limit store.get)
        ((Tree.combine series.op operands').eval limit store.get) := by
  cases hvalues : operandValues limit store.get operands with
  | ok values =>
    right
    obtain ⟨values', hvalues', hsame⟩ := exists_perm_of_operandValues hperm hvalues
    exact ⟨values, values', rfl, hvalues', hsame,
      orderOutcome_of_perm series hsame hvalues hvalues'⟩
  | error e =>
    left
    cases hvalues' : operandValues limit store.get operands' with
    | ok values' =>
      obtain ⟨values, hok, -⟩ := exists_perm_of_operandValues hperm.symm hvalues'
      rw [hvalues] at hok
      cases hok
    | error e' =>
      refine ⟨e, e', rfl, rfl, ?_, ?_⟩
      · rw [eval_combine, hvalues]
        rfl
      · rw [eval_combine, hvalues']
        rfl

/-- A store with three numbers. -/
def threeNumbers (a b c : Float) : Store :=
  ⟨[("a", .number (.float a)), ("b", .number (.float b)), ("c", .number (.float c))]⟩

/-- The attributes of a store as operands. -/
def namedOperands (names : List String) : List (Tree Float) :=
  names.map .dynamic

/-- The sum or product of attributes of a store. -/
def combineNamed (series : Series) (names : List String) (store : Store) : Except RunError Float :=
  (Tree.combine series.op (namedOperands names)).eval depthLimit store.get

/-- Few binary digits are never rounded, so neither the sum nor the product of 3, 0.25 and -7
depends on their order.  The sums of 0.1, 0.2 and 0.3 are rounded, and near each other. -/
theorem eval_combine_of_perm_three :
    (namedOperands ["a", "b", "c"]).Perm (namedOperands ["c", "b", "a"]) ∧
    (∀ series : Series, ∃ v,
      combineNamed series ["a", "b", "c"] (threeNumbers 3 0.25 (-7)) = .ok v ∧
      combineNamed series ["c", "b", "a"] (threeNumbers 3 0.25 (-7)) = .ok v ∧
      toRat v = series.total [3, 0.25, -7]) ∧
    ∃ v v', combineNamed .sum ["a", "b", "c"] (threeNumbers 0.1 0.2 0.3) = .ok v ∧
      combineNamed .sum ["c", "b", "a"] (threeNumbers 0.1 0.2 0.3) = .ok v' ∧
      |toRat v - toRat v'| ≤ 2 * Series.drift 2 * Series.sum.magnitude [0.1, 0.2, 0.3] := by
  have hperm : (namedOperands ["a", "b", "c"]).Perm (namedOperands ["c", "b", "a"]) :=
    (List.reverse_perm ["c", "b", "a"]).map _
  have houtcome : ∀ (series : Series) (store : Store) (values : List Float),
      operandValues depthLimit store.get (namedOperands ["a", "b", "c"]) = .ok values →
        ∃ values', OrderOutcome series values values' (combineNamed series ["a", "b", "c"] store)
          (combineNamed series ["c", "b", "a"] store) := by
    intro series store values hvalues
    rcases eval_combine_of_perm series store depthLimit hperm with
      ⟨e, e', herror, -⟩ | ⟨_, values', hok, -, -, h⟩
    · rw [hvalues] at herror
      cases herror
    · rw [hvalues] at hok
      obtain rfl := Except.ok.inj hok
      exact ⟨values', h⟩
  refine ⟨hperm, fun series => ?_, ?_⟩
  · have hparts : ∀ part ∈ ([3, 0.25, -7] : List Float).sublists,
        Double.nonFinite? (series.result part) = none ∧
          toRat (series.result part) = series.total part := by
      cases series <;> decide +kernel
    obtain ⟨values', h⟩ := houtcome series (threeNumbers 3 0.25 (-7)) [3, 0.25, -7] rfl
    exact h.exact fun part hpart => ⟨_, hparts part (List.mem_sublists.mpr hpart)⟩
  · have hparts : ∀ part ∈ ([0.1, 0.2, 0.3] : List Float).sublists,
        (1 + Series.drift (part.length - 1)) * Series.sum.magnitude part < Double.overflow := by
      decide +kernel
    obtain ⟨values', h⟩ := houtcome .sum (threeNumbers 0.1 0.2 0.3) [0.1, 0.2, 0.3] rfl
    obtain ⟨v, v', hv, hv'⟩ := h.inRange (fun _ _ => trivial)
      fun part hpart => hparts part (List.mem_sublists.mpr hpart)
    exact ⟨v, v', hv, hv', h.near (fun _ _ => trivial) v v' hv hv'⟩

/-- With more digits the order matters.  The sum of 0.1, 0.2 and 0.3 is another one backwards.  The
sum of two large numbers and the opposite of one overflows, unless the opposite stands between them.
The product of two small numbers and a large one is zero, unless the large one stands between
them. -/
theorem eval_combine_depends_on_order :
    ((combineNamed .sum ["a", "b", "c"] (threeNumbers 0.1 0.2 0.3)).isOk = true ∧
      (combineNamed .sum ["c", "b", "a"] (threeNumbers 0.1 0.2 0.3)).isOk = true ∧
      (combineNamed .sum ["a", "b", "c"] (threeNumbers 0.1 0.2 0.3)).toOption.map toRat ≠
        (combineNamed .sum ["c", "b", "a"] (threeNumbers 0.1 0.2 0.3)).toOption.map toRat) ∧
    ((combineNamed .sum ["a", "b", "c"] (threeNumbers 1e308 1e308 (-1e308))).isOk = false ∧
      (combineNamed .sum ["a", "c", "b"] (threeNumbers 1e308 1e308 (-1e308))).isOk = true) ∧
    ((combineNamed .product ["a", "b", "c"]
        (threeNumbers 1e-200 1e-200 1e300)).toOption.map toRat = some 0 ∧
      (combineNamed .product ["a", "c", "b"] (threeNumbers 1e-200 1e-200 1e300)).isOk = true ∧
      (combineNamed .product ["a", "c", "b"]
        (threeNumbers 1e-200 1e-200 1e300)).toOption.map toRat ≠ some 0) := by
  decide +kernel

end Tree

end SheetRules
