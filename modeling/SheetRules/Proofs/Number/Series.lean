import SheetRules.Proofs.Number.Laws
import SheetRules.Tree.Eval

/-!
# Sums and products of several doubles

A sum or product runs over its operands and rounds after each of them, so its result depends on
their order.  How much it can depend on it follows from one rounding at a time: the result stays
near the exact one, which has no order (`near_result`), and it is the exact one where nothing has to
be rounded (`result_eq_total`).
-/

namespace SheetRules

open Double

/-- The combinations that run over their operands with one rounded operation. -/
inductive Series where
  | sum
  | product

namespace Series

def op : Series → Combine
  | .sum => .add
  | .product => .multiply

/-- The result for no operands. -/
def start : Series → Float
  | .sum => 0
  | .product => 1

/-- Takes one more operand and rounds. -/
def next : Series → Float → Float → Float
  | .sum, x, y => x + y
  | .product, x, y => x * y

/-- The result, rounded after each operand. -/
def result (series : Series) (values : List Float) : Float :=
  values.foldl series.next series.start

/-- Takes one more operand, exactly. -/
def exactNext : Series → ℚ → ℚ → ℚ
  | .sum, q, r => q + r
  | .product, q, r => q * r

/-- The exact result. -/
def exact : Series → List ℚ → ℚ
  | .sum, qs => qs.sum
  | .product, qs => qs.prod

/-- The exact result for the values of doubles. -/
def total (series : Series) (values : List Float) : ℚ :=
  series.exact (values.map toRat)

/-- The exact result without signs, which errors are measured by. -/
def magnitude (series : Series) (values : List Float) : ℚ :=
  series.exact (values.map fun v => |toRat v|)

variable {series : Series} {part values values' : List Float} {acc v : Float} {n : ℕ}

/-- The operator of a series gives its result. -/
lemma apply_op (series : Series) (values : List Float) :
    series.op.apply values = .ok (series.result values) := by
  cases series <;> rfl

/-! ### The exact result -/

/-- An exact series goes on with one more value. -/
lemma exact_append_singleton (series : Series) (qs : List ℚ) (q : ℚ) :
    series.exact (qs ++ [q]) = series.exactNext (series.exact qs) q := by
  cases series with
  | sum => simp [exact, exactNext]
  | product => simp [exact, exactNext]

/-- The exact total goes on with one more value. -/
lemma total_append_singleton (series : Series) (part : List Float) (v : Float) :
    series.total (part ++ [v]) = series.exactNext (series.total part) (toRat v) := by
  rw [total, List.map_append, List.map_singleton, exact_append_singleton, total]

/-- The magnitude goes on with the absolute value of one more value. -/
lemma magnitude_append_singleton (series : Series) (part : List Float) (v : Float) :
    series.magnitude (part ++ [v]) = series.exactNext (series.magnitude part) |toRat v| := by
  rw [magnitude, List.map_append, List.map_singleton, exact_append_singleton, magnitude]

/-- The exact series does not depend on the order. -/
lemma exact_perm {qs qs' : List ℚ} (h : qs.Perm qs') : series.exact qs = series.exact qs' := by
  cases series with
  | sum => exact h.sum_eq
  | product => exact h.prod_eq

/-- The exact total does not depend on the order. -/
lemma total_perm (h : values.Perm values') : series.total values = series.total values' :=
  exact_perm (h.map _)

/-- The magnitude does not depend on the order. -/
lemma magnitude_perm (h : values.Perm values') :
    series.magnitude values = series.magnitude values' :=
  exact_perm (h.map _)

/-- A series begins with the total of no values. -/
lemma toRat_start (series : Series) : toRat series.start = series.total [] := by
  cases series <;> decide +kernel

/-- A series begins with a finite number. -/
lemma nonFinite?_start (series : Series) : nonFinite? series.start = none := by
  cases series <;> decide +kernel

/-- The total is not larger than the magnitude. -/
lemma abs_total_le (series : Series) (values : List Float) :
    |series.total values| ≤ series.magnitude values := by
  induction values using List.reverseRecOn with
  | nil => cases series <;> decide +kernel
  | append_singleton values v ih =>
    rw [total_append_singleton, magnitude_append_singleton]
    cases series with
    | sum => exact (abs_add_le _ _).trans (add_le_add_left ih _)
    | product =>
      change |_ * _| ≤ _ * _
      rw [abs_mul]
      exact mul_le_mul_of_nonneg_right ih (abs_nonneg _)

/-- A magnitude is not negative. -/
lemma magnitude_nonneg (series : Series) (values : List Float) : 0 ≤ series.magnitude values :=
  (abs_nonneg _).trans (series.abs_total_le values)

/-- A product without signs is the absolute value of the product. -/
lemma magnitude_product (values : List Float) :
    Series.product.magnitude values = |Series.product.total values| := by
  induction values using List.reverseRecOn with
  | nil => decide +kernel
  | append_singleton values v ih =>
    rw [total_append_singleton, magnitude_append_singleton, ih]
    exact (abs_mul _ _).symm

/-! ### One rounded step -/

/-- One step of a series is the exact step, rounded once. -/
lemma roundsTo_next (series : Series) (hacc : nonFinite? acc = none) (hv : nonFinite? v = none) :
    RoundsTo (series.exactNext (toRat acc) (toRat v)) (series.next acc v) := by
  cases series with
  | sum => exact roundsTo_add hacc hv
  | product => exact roundsTo_mul hacc hv

/-- A finite step comes from a finite result so far. -/
lemma nonFinite?_of_next (h : nonFinite? (series.next acc v) = none) : nonFinite? acc = none := by
  cases series with
  | sum => exact nonFinite?_of_add h
  | product => exact nonFinite?_of_mul h

/-- What is no number stays none to the end. -/
lemma nonFinite?_of_foldl (rest : List Float)
    (h : nonFinite? (rest.foldl series.next acc) = none) : nonFinite? acc = none := by
  induction rest generalizing acc with
  | nil => exact h
  | cons v rest ih => exact nonFinite?_of_next (ih h)

/-- An error so far carries over to the next result. -/
lemma abs_exactNext_sub_le {q t d m : ℚ} (r : ℚ) (hd : 0 ≤ d) (h : |q - t| ≤ d * m) :
    |series.exactNext q r - series.exactNext t r| ≤ d * series.exactNext m |r| := by
  cases series with
  | sum =>
    change |q + r - (t + r)| ≤ d * (m + |r|)
    rw [add_sub_add_right_eq_sub, mul_add]
    exact h.trans (le_add_of_nonneg_right (mul_nonneg hd (abs_nonneg r)))
  | product =>
    change |q * r - t * r| ≤ d * (m * |r|)
    rw [← sub_mul, abs_mul, ← mul_assoc]
    exact mul_le_mul_of_nonneg_right h (abs_nonneg r)

/-- The first operand is taken as it is. -/
lemma toRat_next_start (series : Series) (hv : nonFinite? v = none) :
    nonFinite? (series.next series.start v) = none ∧
      toRat (series.next series.start v) = series.total [v] := by
  have hvalue : series.exactNext (toRat series.start) (toRat v) = series.total [v] := by
    rw [toRat_start, ← total_append_singleton, List.nil_append]
  have hsingle : series.total [v] = toRat v := by
    cases series with
    | sum => simp [total, exact]
    | product => simp [total, exact]
  have hround := series.roundsTo_next series.nonFinite?_start hv
  rw [hvalue] at hround
  exact hround.exact ⟨v, hv, hsingle.symm⟩

/-! ### The growth of errors -/

/-- The relative error that `n` roundings can add up to. -/
def drift (n : ℕ) : ℚ :=
  (1 + 1 / 2 ^ 53) ^ n - 1

/-- One more value multiplies the drift by one more rounding. -/
lemma drift_succ (n : ℕ) : drift (n + 1) = (1 + drift n) * (1 + 1 / 2 ^ 53) - 1 := by
  rw [drift, drift, pow_succ]
  ring

/-- A drift is not negative. -/
lemma drift_nonneg (n : ℕ) : 0 ≤ drift n :=
  sub_nonneg.mpr (one_le_pow₀ (le_add_of_nonneg_right (by positivity)))

/-- The drift grows with the number of values. -/
lemma drift_le_succ (n : ℕ) : drift n ≤ drift (n + 1) := by
  have h := drift_nonneg n
  rw [drift_succ]
  linarith

/-- Rounding a result that is off already. -/
lemma abs_sub_le_of_rounded {r q t d m : ℚ} (hround : |r - q| ≤ |q| / 2 ^ 53)
    (hq : |q - t| ≤ d * m) (ht : |t| ≤ m) : |r - t| ≤ ((1 + d) * (1 + 1 / 2 ^ 53) - 1) * m := by
  have hsize : |q| ≤ d * m + m := by
    have := abs_sub_abs_le_abs_sub q t
    linarith
  calc |r - t| ≤ |r - q| + |q - t| := abs_sub_le r q t
    _ ≤ (d * m + m) / 2 ^ 53 + d * m := by linarith
    _ = ((1 + d) * (1 + 1 / 2 ^ 53) - 1) * m := by ring

/-- The exact result is not so small that digits are lost below the normal doubles.  Sums lose none
there. -/
def IsKept : Series → List Float → Prop
  | .sum, _ => True
  | .product, part => Series.product.total part = 0 ∨
      2 ^ (-1022 : ℤ) ≤ (1 - drift (part.length - 1)) * |Series.product.total part|

/-- The result is not too large for a double, however it is rounded on the way. -/
def IsInRange (series : Series) (part : List Float) : Prop :=
  (1 + drift (part.length - 1)) * series.magnitude part < overflow

/-- The operands taken so far give a number that `n` roundings account for. -/
structure Near (series : Series) (n : ℕ) (part : List Float) (acc : Float) : Prop where
  finite : nonFinite? acc = none
  error_le : |toRat acc - series.total part| ≤ drift n * series.magnitude part

namespace Near

/-- The exact value of the next step, before it is rounded. -/
lemma abs_exactNext_sub_le (h : series.Near n part acc) (v : Float) :
    |series.exactNext (toRat acc) (toRat v) - series.total (part ++ [v])| ≤
      drift n * series.magnitude (part ++ [v]) := by
  rw [total_append_singleton, magnitude_append_singleton]
  exact Series.abs_exactNext_sub_le _ (drift_nonneg n) h.error_le

/-- A series that is in range stays finite. -/
lemma nonFinite?_next (h : series.Near n part acc) (hlength : part.length = n + 1)
    (hv : nonFinite? v = none) (hrange : series.IsInRange (part ++ [v])) :
    nonFinite? (series.next acc v) = none := by
  refine (series.roundsTo_next h.finite hv).finite (lt_of_le_of_lt ?_ hrange)
  have hlength' : (part ++ [v]).length - 1 = n + 1 := by simp [hlength]
  rw [hlength']
  have hstep := h.abs_exactNext_sub_le v
  have htotal := series.abs_total_le (part ++ [v])
  have hmagnitude := series.magnitude_nonneg (part ++ [v])
  have hsize := abs_sub_abs_le_abs_sub (series.exactNext (toRat acc) (toRat v))
    (series.total (part ++ [v]))
  have hdrift := mul_le_mul_of_nonneg_right (drift_le_succ n) hmagnitude
  linarith

/-- The next step is rounded relative to its result. -/
lemma abs_next_sub_le (h : series.Near n part acc) (hlength : part.length = n + 1)
    (hv : nonFinite? v = none) (hnext : nonFinite? (series.next acc v) = none)
    (hkept : series.IsKept (part ++ [v])) :
    |toRat (series.next acc v) - series.exactNext (toRat acc) (toRat v)| ≤
      |series.exactNext (toRat acc) (toRat v)| / 2 ^ 53 := by
  cases series with
  | sum => exact abs_add_sub_le h.finite hv hnext
  | product =>
    refine (roundsTo_mul h.finite hv).abs_sub_le hnext ?_
    have hstep := h.abs_exactNext_sub_le v
    rw [magnitude_product] at hstep
    have hlength' : (part ++ [v]).length - 1 = n + 1 := by simp [hlength]
    rcases hkept with hzero | hlarge
    · left
      rw [hzero, abs_zero, mul_zero, sub_zero] at hstep
      have hresult : toRat acc * toRat v = 0 := abs_nonpos_iff.mp hstep
      exact ⟨0, by decide +kernel, by rw [hresult, toRat_zero]⟩
    · right
      rw [hlength'] at hlarge
      have hsize := abs_sub_abs_le_abs_sub (Series.product.total (part ++ [v]))
        (Series.product.exactNext (toRat acc) (toRat v))
      rw [abs_sub_comm] at hsize
      have hdrift := mul_le_mul_of_nonneg_right (drift_le_succ n)
        (abs_nonneg (Series.product.total (part ++ [v])))
      change _ ≤ |Series.product.exactNext (toRat acc) (toRat v)|
      linarith

/-- **One more operand costs one more rounding.** -/
theorem next (h : series.Near n part acc) (hlength : part.length = n + 1)
    (hv : nonFinite? v = none) (hnext : nonFinite? (series.next acc v) = none)
    (hkept : series.IsKept (part ++ [v])) :
    series.Near (n + 1) (part ++ [v]) (series.next acc v) := by
  refine ⟨hnext, ?_⟩
  rw [drift_succ]
  exact abs_sub_le_of_rounded (h.abs_next_sub_le hlength hv hnext hkept) (h.abs_exactNext_sub_le v)
    (series.abs_total_le _)

/-- **The run over the remaining operands.**  It stays near the exact result, if it ends with a
number or no part of the operands is too large. -/
theorem foldl (rest : List Float) (h : series.Near n part acc) (hlength : part.length = n + 1)
    (hfinite : ∀ v ∈ rest, nonFinite? v = none)
    (hkept : ∀ p, p.Sublist (part ++ rest) → series.IsKept p)
    (hrange : (∀ p, p.Sublist (part ++ rest) → series.IsInRange p) ∨
      nonFinite? (rest.foldl series.next acc) = none) :
    series.Near (n + rest.length) (part ++ rest) (rest.foldl series.next acc) := by
  induction rest generalizing n part acc with
  | nil =>
    rw [List.append_nil]
    exact h
  | cons v rest ih =>
    obtain ⟨hv, hrest⟩ := List.forall_mem_cons.mp hfinite
    have hsplit : part ++ v :: rest = part ++ [v] ++ rest := List.append_cons part v rest
    have htaken : (part ++ [v]).Sublist (part ++ v :: rest) := by
      rw [hsplit]
      exact List.sublist_append_left _ _
    have hnext : nonFinite? (series.next acc v) = none := by
      rcases hrange with hparts | hend
      · exact h.nonFinite?_next hlength hv (hparts _ htaken)
      · exact nonFinite?_of_foldl rest hend
    have hnear := h.next hlength hv hnext (hkept _ htaken)
    have hlength' : (part ++ [v]).length = n + 1 + 1 := by simp [hlength]
    rw [hsplit] at hkept hrange ⊢
    have hrun := ih hnear hlength' hrest hkept hrange
    rwa [Nat.add_right_comm] at hrun

end Near

/-- The whole run stays near the exact result: the first operand is taken as it is, and each of the
others costs a rounding. -/
theorem near_result (hfinite : ∀ v ∈ values, nonFinite? v = none)
    (hkept : ∀ p, p.Sublist values → series.IsKept p)
    (hrange : (∀ p, p.Sublist values → series.IsInRange p) ∨
      nonFinite? (series.result values) = none) :
    series.Near (values.length - 1) values (series.result values) := by
  cases values with
  | nil =>
    refine ⟨series.nonFinite?_start, ?_⟩
    rw [result, List.foldl_nil, toRat_start, sub_self, abs_zero]
    exact mul_nonneg (drift_nonneg _) (series.magnitude_nonneg _)
  | cons v rest =>
    obtain ⟨hv, hrest⟩ := List.forall_mem_cons.mp hfinite
    obtain ⟨hfirst, hvalue⟩ := series.toRat_next_start hv
    have hnear : series.Near 0 [v] (series.next series.start v) := by
      refine ⟨hfirst, ?_⟩
      rw [hvalue, sub_self, abs_zero]
      exact mul_nonneg (drift_nonneg _) (series.magnitude_nonneg _)
    have hrun := hnear.foldl rest rfl hrest hkept hrange
    rwa [Nat.zero_add] at hrun

/-! ### Nothing to round -/

/-- While the exact result is a double it is the result. -/
lemma foldl_eq_total (part rest : List Float) (hacc : nonFinite? acc = none)
    (hvalue : toRat acc = series.total part) (hfinite : ∀ v ∈ rest, nonFinite? v = none)
    (hdouble : ∀ p, p.Sublist (part ++ rest) → IsDouble (series.total p)) :
    nonFinite? (rest.foldl series.next acc) = none ∧
      toRat (rest.foldl series.next acc) = series.total (part ++ rest) := by
  induction rest generalizing part acc with
  | nil =>
    rw [List.append_nil]
    exact ⟨hacc, hvalue⟩
  | cons v rest ih =>
    rw [List.append_cons] at hdouble ⊢
    obtain ⟨hv, hrest⟩ := List.forall_mem_cons.mp hfinite
    have hround := series.roundsTo_next hacc hv
    rw [hvalue, ← total_append_singleton] at hround
    obtain ⟨hnext, hvalue'⟩ := hround.exact (hdouble _ (List.sublist_append_left _ _))
    exact ih _ hnext hvalue' hrest hdouble

/-- If every partial total is a double, nothing is rounded and the result is the exact total. -/
theorem result_eq_total (hfinite : ∀ v ∈ values, nonFinite? v = none)
    (hdouble : ∀ p, p.Sublist values → IsDouble (series.total p)) :
    nonFinite? (series.result values) = none ∧
      toRat (series.result values) = series.total values :=
  foldl_eq_total [] values series.nonFinite?_start series.toRat_start hfinite hdouble

/-! ### The sign of zero -/

/-- A sum is never negative zero. -/
lemma hasPlainZero_foldl (rest : List Float) (hplain : HasPlainZero acc)
    (hfinite : ∀ v ∈ rest, nonFinite? v = none)
    (h : nonFinite? (rest.foldl Series.sum.next acc) = none) :
    HasPlainZero (rest.foldl Series.sum.next acc) := by
  induction rest generalizing acc with
  | nil => exact hplain
  | cons v rest ih =>
    obtain ⟨hv, hrest⟩ := List.forall_mem_cons.mp hfinite
    have hnext : nonFinite? (acc + v) = none := nonFinite?_of_foldl rest h
    exact ih (hplain.add (nonFinite?_of_add hnext) hv hnext) hrest h

/-- The sign of a product comes from the signs of all factors. -/
lemma sign_foldl (rest : List Float) (hfinite : ∀ v ∈ rest, nonFinite? v = none)
    (h : nonFinite? (rest.foldl Series.product.next acc) = none) :
    sign (rest.foldl Series.product.next acc) = rest.foldl (fun s v => s * sign v) (sign acc) := by
  induction rest generalizing acc with
  | nil => rfl
  | cons v rest ih =>
    obtain ⟨hv, hrest⟩ := List.forall_mem_cons.mp hfinite
    have hnext : nonFinite? (acc * v) = none := nonFinite?_of_foldl rest h
    rw [List.foldl_cons, List.foldl_cons, ← sign_mul (nonFinite?_of_mul hnext) hv hnext]
    exact ih hrest h

/-- The sign of a result that is zero does not depend on the order. -/
lemma sign_result_eq_of_perm (hperm : values.Perm values')
    (hfinite : ∀ v ∈ values, nonFinite? v = none)
    (h : nonFinite? (series.result values) = none) (h' : nonFinite? (series.result values') = none)
    (hzero : toRat (series.result values) = 0) (hzero' : toRat (series.result values') = 0) :
    sign (series.result values) = sign (series.result values') := by
  have hfinite' : ∀ v ∈ values', nonFinite? v = none := by
    intro v hv
    exact hfinite v (hperm.mem_iff.mpr hv)
  cases series with
  | sum =>
    have hplain : HasPlainZero Series.sum.start := fun _ => rfl
    exact (hasPlainZero_foldl values hplain hfinite h hzero).trans
      (hasPlainZero_foldl values' hplain hfinite' h' hzero').symm
  | product =>
    have hcomm : RightCommutative fun (s : Float.Model.UnpackedFloat.Sign) (v : Float) =>
        s * sign v := by
      refine ⟨fun s v w => ?_⟩
      generalize sign v = t
      generalize sign w = r
      cases s <;> cases t <;> cases r <;> rfl
    calc sign (Series.product.result values)
        = values.foldl (fun s v => s * sign v) (sign Series.product.start) :=
          sign_foldl values hfinite h
      _ = values'.foldl (fun s v => s * sign v) (sign Series.product.start) := hperm.foldl_eq _
      _ = sign (Series.product.result values') := (sign_foldl values' hfinite' h').symm

/-! ### Another order -/

/-- What holds of each part of the operands also holds of each part in another order. -/
lemma forall_sublist_of_perm {P : List Float → Prop}
    (hP : ∀ {p p' : List Float}, p.Perm p' → P p → P p') (hperm : values.Perm values')
    (h : ∀ p, p.Sublist values → P p) : ∀ p, p.Sublist values' → P p := by
  intro p hp
  obtain ⟨p', hperm', hp'⟩ := List.exists_perm_sublist hp hperm.symm
  exact hP hperm' (h p' hp')

/-- A result that keeps its digits keeps them in any order of the values. -/
lemma IsKept.of_perm (h : series.IsKept values) (hperm : values.Perm values') :
    series.IsKept values' := by
  cases series with
  | sum => trivial
  | product =>
    rw [IsKept, ← total_perm hperm, ← hperm.length_eq]
    exact h

/-- A series that is in range is in range in any order. -/
lemma IsInRange.of_perm (h : series.IsInRange values) (hperm : values.Perm values') :
    series.IsInRange values' := by
  rw [IsInRange, ← magnitude_perm hperm, ← hperm.length_eq]
  exact h

/-- The first two operands may change places. -/
theorem result_swap (series : Series) {v w : Float} (hv : nonFinite? v = none)
    (hw : nonFinite? w = none) (rest : List Float) :
    series.result (v :: w :: rest) = series.result (w :: v :: rest) := by
  have hswap : series.next (series.next series.start v) w =
      series.next (series.next series.start w) v := by
    cases series with
    | sum => exact zero_add_add_comm hv hw
    | product => exact one_mul_mul_comm hv hw
  exact congrArg (rest.foldl series.next) hswap

/-- Where nothing has to be rounded, the order does not matter. -/
theorem result_eq_of_perm (hperm : values.Perm values')
    (hfinite : ∀ v ∈ values, nonFinite? v = none)
    (hdouble : ∀ p, p.Sublist values → IsDouble (series.total p)) :
    series.result values = series.result values' := by
  have hfinite' : ∀ v ∈ values', nonFinite? v = none := by
    intro v hv
    exact hfinite v (hperm.mem_iff.mpr hv)
  have hdouble' : ∀ p, p.Sublist values' → IsDouble (series.total p) :=
    forall_sublist_of_perm (fun hp h => total_perm hp ▸ h) hperm hdouble
  obtain ⟨h, hvalue⟩ := result_eq_total hfinite hdouble
  obtain ⟨h', hvalue'⟩ := result_eq_total hfinite' hdouble'
  have hsame : toRat (series.result values) = toRat (series.result values') := by
    rw [hvalue, hvalue', total_perm hperm]
  refine eq_of_toRat_eq h h' hsame ?_
  intro hzero
  exact sign_result_eq_of_perm hperm hfinite h h' hzero (hsame.symm.trans hzero)

/-- Results that are near the exact one are near each other. -/
lemma Near.abs_sub_le_of_perm (h : series.Near (values.length - 1) values acc)
    (h' : series.Near (values'.length - 1) values' v) (hperm : values.Perm values') :
    |toRat acc - toRat v| ≤ 2 * drift (values.length - 1) * series.magnitude values := by
  have herror := h.error_le
  have herror' := h'.error_le
  rw [← hperm.length_eq, ← total_perm hperm, ← magnitude_perm hperm, abs_sub_comm] at herror'
  calc |toRat acc - toRat v|
      ≤ |toRat acc - series.total values| + |series.total values - toRat v| := abs_sub_le _ _ _
    _ ≤ 2 * drift (values.length - 1) * series.magnitude values := by linarith

end Series

end SheetRules
