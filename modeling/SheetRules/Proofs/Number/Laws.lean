import SheetRules.Proofs.Number.Operations

/-!
# Laws of double arithmetic

A double is determined by its value, up to the sign of zero (`eq_of_toRat_eq`), and the sign of a
sum or product is known also where it is zero.  Addition and multiplication commute but do not
associate, so in a row of operands it is only the first two that may change places
(`zero_add_add_comm`, `one_mul_mul_comm`).
-/

namespace SheetRules

namespace Double

open Float.Model Float.Model.UnpackedFloat

variable {s t : Sign} {u v : UnpackedFloat} {x y : Float}

/-! ### What is no number stays none -/

/-- An unpacked double that is no number. -/
def IsNonFinite (u : UnpackedFloat) : Prop :=
  u = .notANumber ∨ ∃ s, u = .infinity s

/-- What is not finite unpacked is not finite packed. -/
lemma IsNonFinite.nonFinite?_ne (h : IsNonFinite u) : nonFinite? (ofUnpacked u) ≠ none := by
  rcases h with rfl | ⟨s, rfl⟩
  · decide +kernel
  · cases s <;> decide +kernel

/-- A number that is not finite is not finite unpacked. -/
lemma isNonFinite_unpack (h : nonFinite? x ≠ none) : IsNonFinite x.toModel.unpack := by
  rcases unpack_cases x with ⟨hnan, -⟩ | hsize
  · exact .inl hnan
  · by_contra hfinite
    refine h (nonFinite?_eq_none_iff.mpr ?_)
    have hbits : size x = x.toBits.toNat % 2 ^ 63 := rfl
    generalize size x = a at hsize hbits
    generalize x.toModel.unpack = u at hsize hfinite
    cases hsize with
    | zero => omega
    | finite hm =>
      have := hm.size_lt_infinity
      omega
    | @infinity => exact absurd (.inr ⟨_, rfl⟩) hfinite

/-- A sum with a number that is not finite is not finite. -/
lemma IsNonFinite.add (h : IsNonFinite u) (v : UnpackedFloat) :
    IsNonFinite (UnpackedFloat.add Format.binary64 u v) := by
  rcases h with rfl | ⟨s, rfl⟩
  · cases v <;> exact .inl rfl
  · cases v with
    | infinity t => cases s <;> cases t <;> first | exact .inl rfl | exact .inr ⟨_, rfl⟩
    | notANumber => exact .inl rfl
    | zero t => exact .inr ⟨s, rfl⟩
    | finite t n f hn => exact .inr ⟨s, rfl⟩

/-- A product with a number that is not finite is not finite. -/
lemma IsNonFinite.mul (h : IsNonFinite u) (v : UnpackedFloat) :
    IsNonFinite (UnpackedFloat.mul Format.binary64 u v) := by
  rcases h with rfl | ⟨s, rfl⟩
  · cases v <;> exact .inl rfl
  · cases v with
    | infinity t => exact .inr ⟨s * t, rfl⟩
    | notANumber => exact .inl rfl
    | zero t => exact .inl rfl
    | finite t n f hn => exact .inr ⟨s * t, rfl⟩

/-- Only a number can be added to and give a number. -/
lemma nonFinite?_of_add (h : nonFinite? (x + y) = none) : nonFinite? x = none := by
  by_contra hx
  exact ((isNonFinite_unpack hx).add y.toModel.unpack).nonFinite?_ne h

/-- A finite product has finite factors. -/
lemma nonFinite?_of_mul (h : nonFinite? (x * y) = none) : nonFinite? x = none := by
  by_contra hx
  exact ((isNonFinite_unpack hx).mul y.toModel.unpack).nonFinite?_ne h

/-! ### Doubles of the same value -/

/-- A finite number that is not zero has a size. -/
lemma IsCanonical.value_pos {m : ℕ} {e : ℤ} (h : IsCanonical m e) : (0 : ℚ) < m * 2 ^ e :=
  mul_pos (by exact_mod_cast h.mantissa_pos) (zpow_pos two_pos e)

/-- Parts that are greater in the order of sizes have a greater value. -/
lemma IsCanonical.value_lt_value {m n : ℕ} {e f : ℤ} (hm : IsCanonical m e) (hn : IsCanonical n f)
    (h : e < f ∨ e = f ∧ m < n) : (m : ℚ) * 2 ^ e < n * 2 ^ f := by
  rcases h with hlt | ⟨rfl, hlt⟩
  · have hm' : (m : ℚ) < 2 ^ 53 := by exact_mod_cast hm.mantissa_lt
    have hnormal : 2 ^ 52 ≤ n := hn.normal.resolve_right (by have := hm.le_exponent; omega)
    have hn' : (2 : ℚ) ^ 52 ≤ n := by exact_mod_cast hnormal
    calc (m : ℚ) * 2 ^ e < 2 ^ 53 * 2 ^ e := mul_lt_mul_of_pos_right hm' (zpow_pos two_pos e)
      _ = 2 ^ 52 * 2 ^ (e + 1) := by
          rw [zpow_add_one₀ two_ne_zero]
          ring
      _ ≤ 2 ^ 52 * 2 ^ f := by
          have := zpow_le_zpow_right₀ (a := (2 : ℚ)) one_le_two (Int.add_one_le_of_lt hlt)
          gcongr
      _ ≤ n * 2 ^ f := mul_le_mul_of_nonneg_right hn' (zpow_pos two_pos f).le
  · have hlt' : (m : ℚ) < n := by exact_mod_cast hlt
    exact mul_lt_mul_of_pos_right hlt' (zpow_pos two_pos e)

/-- A number has one size only. -/
lemma HasSize.size_eq {a b : ℕ} (hu : HasSize s a u) (hv : HasSize t b u) : a = b := by
  cases hu with
  | zero => cases hv with | zero => rfl
  | finite hm => cases hv with | finite hn => rfl
  | infinity => cases hv with | infinity => rfl

/-- Packing what a number is unpacked to gives the number back. -/
lemma ofUnpacked_unpack (h : nonFinite? x = none) : ofUnpacked x.toModel.unpack = x := by
  have hnumber := isFiniteOf_unpack h
  obtain ⟨a, ha, hsize, hbits⟩ := hnumber.hasSize
  have hsize' : size (ofUnpacked x.toModel.unpack) = size x := by
    rw [(hasSize_unpack h).size_eq hsize, size, hbits]
    omega
  refine eq_of_rank_eq ?_
  rw [rank_eq, rank_eq, hnumber.sign_eq, hsize']

/-- A finite number that is not zero is not zero with its sign. -/
lemma IsCanonical.signed_ne_zero {m : ℕ} {e : ℤ} (h : IsCanonical m e) (s : Sign) :
    signed s (m * 2 ^ e) ≠ 0 := by
  rw [← abs_ne_zero, abs_signed, abs_ne_zero]
  exact h.value_pos.ne'

/-- Positive numbers with a sign are equal only if their signs are. -/
lemma signed_injective {q r : ℚ} (hq : 0 < q) (hr : 0 < r) (h : signed s q = signed t r) :
    s = t ∧ q = r := by
  cases s with
  | negative =>
    cases t with
    | negative => exact ⟨rfl, neg_inj.mp h⟩
    | positive =>
      have h' : -q = r := h
      exact absurd h' (by linarith)
  | positive =>
    cases t with
    | negative =>
      have h' : q = -r := h
      exact absurd h' (by linarith)
    | positive => exact ⟨rfl, h⟩

/-- Unpacked doubles of the same value are the same, up to the sign of zero. -/
lemma IsFiniteOf.eq_of_value_eq (hu : IsFiniteOf s u) (hv : IsFiniteOf t v)
    (h : unpackedValue u = unpackedValue v) (hsign : unpackedValue u = 0 → s = t) : u = v := by
  cases hu with
  | zero =>
    cases hv with
    | zero => rw [hsign rfl]
    | finite hn => exact absurd h.symm (hn.signed_ne_zero t)
  | @finite m e hm =>
    cases hv with
    | zero => exact absurd h (hm.signed_ne_zero s)
    | @finite n f hn =>
      obtain ⟨rfl, hvalue⟩ := signed_injective hm.value_pos hn.value_pos h
      have hlt : ¬(e < f ∨ e = f ∧ m < n) := fun hlt => (hm.value_lt_value hn hlt).ne hvalue
      have hgt : ¬(f < e ∨ f = e ∧ n < m) := fun hgt => (hn.value_lt_value hm hgt).ne' hvalue
      congr 1 <;> omega

/-- **Doubles of the same value are the same, up to the sign of zero.** -/
theorem eq_of_toRat_eq (hx : nonFinite? x = none) (hy : nonFinite? y = none)
    (h : toRat x = toRat y) (hsign : toRat x = 0 → sign x = sign y) : x = y := by
  rw [toRat_eq_unpackedValue hx] at h hsign
  rw [toRat_eq_unpackedValue hy] at h
  rw [← ofUnpacked_unpack hx, ← ofUnpacked_unpack hy,
    (isFiniteOf_unpack hx).eq_of_value_eq (isFiniteOf_unpack hy) h hsign]

/-! ### The sign of a result -/

/-- The sign of a finite product is the product of the signs. -/
lemma sign_mulUnpacked (hu : IsFiniteOf s u) (hv : IsFiniteOf t v)
    (h : nonFinite? (ofUnpacked (UnpackedFloat.mul Format.binary64 u v)) = none) :
    sign (ofUnpacked (UnpackedFloat.mul Format.binary64 u v)) = s * t := by
  cases hu with
  | zero =>
    cases hv with
    | zero => exact IsFiniteOf.zero.sign_eq
    | finite hn => exact IsFiniteOf.zero.sign_eq
  | @finite m e hm =>
    cases hv with
    | zero => exact IsFiniteOf.zero.sign_eq
    | @finite n f hn =>
      obtain ⟨k, -, hfinite, hinfinite⟩ := exists_nearest (s * t)
        (Nat.mul_pos hm.mantissa_pos hn.mantissa_pos) (add_le_lastPlace hm hn)
      have hsize : (k : ℚ) * 2 ^ lastPlace (m * n) (e + f) < 2 ^ 1024 := by
        by_contra hlarge
        exact hinfinite (not_lt.mp hlarge) h
      exact (hfinite hsize).1.sign_eq

/-- The sign of a product is the product of the signs, also if it is zero. -/
lemma sign_mul (hx : nonFinite? x = none) (hy : nonFinite? y = none)
    (h : nonFinite? (x * y) = none) : sign (x * y) = sign x * sign y :=
  sign_mulUnpacked (isFiniteOf_unpack hx) (isFiniteOf_unpack hy) h

/-- The number is not negative zero. -/
def HasPlainZero (x : Float) : Prop :=
  toRat x = 0 → sign x = .positive

/-- A sum that is exactly zero is not negative zero, unless its summands both are. -/
lemma sign_addUnpacked (hu : IsFiniteOf s u) (hv : IsFiniteOf t v)
    (hsum : unpackedValue u + unpackedValue v = 0) (hplain : unpackedValue u = 0 → s = .positive) :
    sign (ofUnpacked (UnpackedFloat.add Format.binary64 u v)) = .positive := by
  cases hu with
  | zero =>
    obtain rfl := hplain rfl
    cases hv with
    | zero => cases t <;> exact IsFiniteOf.zero.sign_eq
    | finite hn =>
      refine absurd ?_ (hn.signed_ne_zero t)
      rwa [← zero_add (signed t _)]
  | @finite m e hm =>
    cases hv with
    | zero =>
      refine absurd ?_ (hm.signed_ne_zero s)
      rwa [← add_zero (signed s _)]
    | @finite n f hn =>
      obtain ⟨k, g, hadd, hvalue⟩ :=
        exists_add_eq_normalize s t e f hm.mantissa_pos hn.mantissa_pos
      have hpow : (2 : ℚ) ^ g ≠ 0 := zpow_ne_zero g two_ne_zero
      have hcast : (k : ℚ) = 0 := (mul_eq_zero.mp (hvalue.trans hsum)).resolve_right hpow
      have hk : k = 0 := by exact_mod_cast hcast
      rw [hadd, hk]
      exact IsFiniteOf.zero.sign_eq

/-- If the first summand is not the negative zero, then neither is the sum. -/
lemma HasPlainZero.add (hplain : HasPlainZero x) (hx : nonFinite? x = none)
    (hy : nonFinite? y = none) (h : nonFinite? (x + y) = none) : HasPlainZero (x + y) := by
  intro hzero
  -- a sum is rounded to zero only if it is zero
  have hsum : toRat x + toRat y = 0 := by
    have herror := abs_add_sub_le hx hy h
    rw [hzero, zero_sub, abs_neg] at herror
    have hnonneg := abs_nonneg (toRat x + toRat y)
    exact abs_eq_zero.mp (by linarith)
  rw [toRat_eq_unpackedValue hx, toRat_eq_unpackedValue hy] at hsum
  rw [HasPlainZero, toRat_eq_unpackedValue hx] at hplain
  exact sign_addUnpacked (isFiniteOf_unpack hx) (isFiniteOf_unpack hy) hsum hplain

/-! ### Exchanging operands -/

/-- Sums of unpacked numbers do not depend on the order. -/
lemma add_comm_unpacked (u v : UnpackedFloat) :
    UnpackedFloat.add Format.binary64 u v = UnpackedFloat.add Format.binary64 v u := by
  cases u with
  | notANumber => cases v <;> rfl
  | infinity s =>
    cases v with
    | infinity t => cases s <;> cases t <;> rfl
    | notANumber => rfl
    | zero t => rfl
    | finite t n f hn => rfl
  | zero s =>
    cases v with
    | zero t => cases s <;> cases t <;> rfl
    | notANumber => rfl
    | infinity t => rfl
    | finite t n f hn => rfl
  | finite s m e hm =>
    cases v with
    | finite t n f hn =>
      -- both mantissas are brought to the smaller exponent, whichever comes first
      change UnpackedFloat.normalize Format.binary64
          (s.apply (decreaseExponent m e (min e f)).1 + t.apply (decreaseExponent n f (min e f)).1)
          (min e f) .positive =
        UnpackedFloat.normalize Format.binary64
          (t.apply (decreaseExponent n f (min f e)).1 + s.apply (decreaseExponent m e (min f e)).1)
          (min f e) .positive
      rw [min_comm f e, add_comm]
    | notANumber => rfl
    | infinity t => rfl
    | zero t => rfl

/-- Signs are multiplied in any order. -/
lemma mul_comm_sign (s t : Sign) : s * t = t * s := by
  cases s <;> cases t <;> rfl

/-- Products of unpacked numbers do not depend on the order. -/
lemma mul_comm_unpacked (u v : UnpackedFloat) :
    UnpackedFloat.mul Format.binary64 u v = UnpackedFloat.mul Format.binary64 v u := by
  cases u with
  | notANumber => cases v <;> rfl
  | infinity s =>
    cases v with
    | infinity t => exact congrArg UnpackedFloat.infinity (mul_comm_sign s t)
    | notANumber => rfl
    | zero t => rfl
    | finite t n f hn => exact congrArg UnpackedFloat.infinity (mul_comm_sign s t)
  | zero s =>
    cases v with
    | zero t => exact congrArg UnpackedFloat.zero (mul_comm_sign s t)
    | notANumber => rfl
    | infinity t => rfl
    | finite t n f hn => exact congrArg UnpackedFloat.zero (mul_comm_sign s t)
  | finite s m e hm =>
    cases v with
    | finite t n f hn =>
      change roundWithAccuracy Format.binary64 (s * t) (m * n) (e + f) .exact =
        roundWithAccuracy Format.binary64 (t * s) (n * m) (f + e) .exact
      rw [mul_comm_sign, mul_comm m n, add_comm e f]
    | notANumber => rfl
    | infinity t => exact congrArg UnpackedFloat.infinity (mul_comm_sign s t)
    | zero t => exact congrArg UnpackedFloat.zero (mul_comm_sign s t)

/-- A number that is added to zero stays a number; only the sign of zero is lost. -/
lemma IsFiniteOf.zero_add (hu : IsFiniteOf s u) :
    ∃ r, IsFiniteOf r (UnpackedFloat.add Format.binary64 (.zero .positive) u) := by
  cases hu with
  | zero => cases s <;> exact ⟨.positive, .zero⟩
  | finite hm => exact ⟨s, .finite hm⟩

/-- After a zero, two unpacked summands may change places. -/
lemma zero_add_add_comm_unpacked (hu : IsFiniteOf s u) (hv : IsFiniteOf t v) :
    UnpackedFloat.add Format.binary64
        (UnpackedFloat.add Format.binary64 (.zero .positive) u) v =
      UnpackedFloat.add Format.binary64
        (UnpackedFloat.add Format.binary64 (.zero .positive) v) u := by
  cases hu with
  | zero =>
    cases hv with
    | zero => cases s <;> cases t <;> rfl
    | finite hn => cases s <;> rfl
  | finite hm =>
    cases hv with
    | zero => cases t <;> rfl
    | finite hn => exact add_comm_unpacked _ _

/-- The sum of two numbers after a zero, by unpacked numbers. -/
lemma zero_add_add_eq (hx : nonFinite? x = none) (y : Float) :
    0 + x + y = ofUnpacked (UnpackedFloat.add Format.binary64
      (UnpackedFloat.add Format.binary64 (.zero .positive) x.toModel.unpack)
      y.toModel.unpack) := by
  obtain ⟨r, hr⟩ := (isFiniteOf_unpack hx).zero_add
  rw [add_eq (0 + x), ← hr.unpack_ofUnpacked]
  rfl

/-- **The first two of a row of summands may change places.** -/
theorem zero_add_add_comm (hx : nonFinite? x = none) (hy : nonFinite? y = none) :
    0 + x + y = 0 + y + x := by
  rw [zero_add_add_eq hx, zero_add_add_eq hy,
    zero_add_add_comm_unpacked (isFiniteOf_unpack hx) (isFiniteOf_unpack hy)]

/-- One is neutral, also for negative zero. -/
lemma one_mul_eq (hx : nonFinite? x = none) : 1 * x = x := by
  have hone : nonFinite? 1 = none := by decide +kernel
  have hvalue : toRat 1 * toRat x = toRat x := by
    rw [show toRat 1 = 1 by decide +kernel, one_mul]
  obtain ⟨hfinite, hresult⟩ := (roundsTo_mul hone hx).exact ⟨x, hx, hvalue.symm⟩
  refine eq_of_toRat_eq hfinite hx (hresult.trans hvalue) fun _ => ?_
  rw [sign_mul hone hx hfinite]
  cases sign x <;> rfl

/-- **The first two of a row of factors may change places.** -/
theorem one_mul_mul_comm (hx : nonFinite? x = none) (hy : nonFinite? y = none) :
    1 * x * y = 1 * y * x := by
  rw [one_mul_eq hx, one_mul_eq hy, mul_eq, mul_eq, mul_comm_unpacked]

end Double

end SheetRules
