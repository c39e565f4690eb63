import SheetRules.Batch.Basic
import SheetRules.Compile.Basic
import SheetRules.Proofs.Lowering.Derivation
import SheetRules.Proofs.Number.Rounding

/-!
# Floor division of integers

Division by a constant is compiled in two ways.  With two constants the quotient is computed by a
division, which is rounded once, and then the floor is taken.  Otherwise the dividend is multiplied
by the reciprocal of the divisor, which is rounded twice.

For integers below `2 ^ 53` the first way is exact: a quotient that is no integer keeps a distance
of `1 / k` from all integers, and rounding moves it by less (`floor_eq_of_not_dvd`).  The second way
is not.  A quotient that is an integer can end up just below it, so that the floor is one too small,
as for `49 // 49`; and from `2 ^ 52` on, the error can also be larger than the distance to the next
integer.  It is never off by more than one, and `IsNearFloor` says when it is right.
-/

namespace SheetRules

/-! ### Floors and errors -/

section Floors

variable {a k : ℤ} {v : ℚ}

/-- A quotient that is no integer keeps its distance from the integers. -/
lemma one_div_le_abs_sub (hk : k ≠ 0) (hdvd : ¬k ∣ a) (n : ℤ) :
    1 / |(k : ℚ)| ≤ |(a : ℚ) / k - n| := by
  have hk' : (k : ℚ) ≠ 0 := by exact_mod_cast hk
  have hne : a - n * k ≠ 0 := by
    intro hzero
    exact hdvd ⟨n, by rw [mul_comm k n]; exact sub_eq_zero.mp hzero⟩
  have hone : (1 : ℚ) ≤ |((a - n * k : ℤ) : ℚ)| := by
    exact_mod_cast Int.one_le_abs hne
  have hvalue : (a : ℚ) / k - n = ((a - n * k : ℤ) : ℚ) / k := by
    push_cast
    field_simp
  rw [hvalue, abs_div]
  exact div_le_div_of_nonneg_right hone (abs_nonneg _)

/-- An error that is smaller than this distance does not change the floor. -/
lemma floor_eq_of_not_dvd (hk : k ≠ 0) (hdvd : ¬k ∣ a)
    (h : |v - (a : ℚ) / k| < 1 / |(k : ℚ)|) : ⌊v⌋ = ⌊(a : ℚ) / k⌋ := by
  have hle := Int.floor_le ((a : ℚ) / k)
  have hlt := Int.lt_floor_add_one ((a : ℚ) / k)
  have hle' : (a : ℚ) / k ≤ (⌊(a : ℚ) / k⌋ + 1 : ℤ) := by
    push_cast
    exact hlt.le
  have hbelow := one_div_le_abs_sub hk hdvd ⌊(a : ℚ) / k⌋
  rw [abs_of_nonneg (sub_nonneg.mpr hle)] at hbelow
  have habove := one_div_le_abs_sub hk hdvd (⌊(a : ℚ) / k⌋ + 1)
  rw [abs_of_nonpos (sub_nonpos.mpr hle')] at habove
  push_cast at habove
  obtain ⟨hlower, hupper⟩ := abs_lt.mp h
  rw [Int.floor_eq_iff]
  constructor
  · linarith
  · linarith

/-- Numbers that differ by less than one have floors that differ by at most one. -/
lemma abs_floor_sub_le {q : ℚ} (h : |v - q| < 1) : |⌊v⌋ - ⌊q⌋| ≤ 1 := by
  obtain ⟨hlower, hupper⟩ := abs_lt.mp h
  have hvle := Int.floor_le v
  have hvlt := Int.lt_floor_add_one v
  have hqle := Int.floor_le q
  have hqlt := Int.lt_floor_add_one q
  have hhigh : ⌊v⌋ < ⌊q⌋ + 2 := by
    have : (⌊v⌋ : ℚ) < ⌊q⌋ + 2 := by linarith
    exact_mod_cast this
  have hlow : ⌊q⌋ < ⌊v⌋ + 2 := by
    have : (⌊q⌋ : ℚ) < ⌊v⌋ + 2 := by linarith
    exact_mod_cast this
  rw [abs_le]
  constructor <;> omega

/-- The floor of a number near an integer is that integer or the one before. -/
lemma floor_of_near {n : ℤ} (h : |v - n| < 1) : ⌊v⌋ = n ∨ ⌊v⌋ = n - 1 := by
  have hnear := abs_le.mp (abs_floor_sub_le h)
  rw [Int.floor_intCast] at hnear
  have hlt : v < n + 1 := by linarith [(abs_lt.mp h).2]
  have hfloor : ⌊v⌋ < n + 1 := Int.floor_lt.mpr (by exact_mod_cast hlt)
  omega

/-- It is that integer if the number is not below it. -/
lemma floor_eq_iff_of_near {n : ℤ} (h : |v - n| < 1) : ⌊v⌋ = n ↔ (n : ℚ) ≤ v := by
  have hcases := floor_of_near h
  rw [← Int.le_floor]
  omega

/-- A multiple that is divided by its factor. -/
lemma cast_mul_div_cancel (hk : k ≠ 0) (n : ℤ) : ((k * n : ℤ) : ℚ) / k = n := by
  have hk' : (k : ℚ) ≠ 0 := by exact_mod_cast hk
  rw [Int.cast_mul, mul_div_cancel_left₀ _ hk']

/-- The floor of a quotient of integers is not larger than the dividend. -/
lemma abs_floor_div_le (a k : ℤ) : |⌊(a : ℚ) / k⌋| ≤ |a| := by
  by_cases hk : k = 0
  · rw [hk, Int.cast_zero, div_zero, Int.floor_zero, abs_zero]
    exact abs_nonneg a
  have hone : (1 : ℚ) ≤ |(k : ℚ)| := by exact_mod_cast Int.one_le_abs hk
  have hquotient : |(a : ℚ) / k| ≤ ((|a| : ℤ) : ℚ) := by
    rw [abs_div, Int.cast_abs]
    exact div_le_self (abs_nonneg _) hone
  obtain ⟨hlower, hupper⟩ := abs_le.mp hquotient
  rw [abs_le]
  constructor
  · exact Int.le_floor.mpr (by exact_mod_cast hlower)
  · exact_mod_cast (Int.floor_le ((a : ℚ) / k)).trans hupper

end Floors

/-- The product with the reciprocal as it is computed: the product starts from one. -/
def Double.scaled (a k : ℤ) : Float :=
  1 * Float.ofInt a * (1 / Float.ofInt k)

/-- The integer is the floor of the product with the reciprocal.  It misses the floor of `a / k` by
at most one, and where the quotient is an integer, downwards only.  There it is right if and only if
the product is not below the quotient; for that it is enough that the rounded reciprocal does not
make it smaller.  It is also right where the quotient is no integer and the dividend has at most 52
bits, and where the divisor is a power of two. -/
structure IsNearFloor (a k n : ℤ) : Prop where
  eq_floor : n = ⌊Double.toRat (Double.scaled a k)⌋
  near : |n - ⌊(a : ℚ) / k⌋| ≤ 1
  of_dvd : k ∣ a → n = ⌊(a : ℚ) / k⌋ ∨ n = ⌊(a : ℚ) / k⌋ - 1
  iff_of_dvd : k ∣ a → (n = ⌊(a : ℚ) / k⌋ ↔ (a : ℚ) / k ≤ Double.toRat (Double.scaled a k))
  of_dvd_of_le : k ∣ a → (a : ℚ) / k ≤ a * Double.toRat (1 / Float.ofInt k) → n = ⌊(a : ℚ) / k⌋
  of_not_dvd : ¬k ∣ a → |a| < 2 ^ 52 → n = ⌊(a : ℚ) / k⌋
  of_power : (∃ j : ℕ, |k| = 2 ^ j) → n = ⌊(a : ℚ) / k⌋

/-- What is near the floor is of the size of the dividend. -/
lemma IsNearFloor.natAbs_lt {a k n : ℤ} (h : IsNearFloor a k n) (hk : k ≠ 0)
    (ha : |a| < 2 ^ 53) : n.natAbs < 2 ^ 53 := by
  have hfloor := abs_floor_div_le a k
  by_cases hone : |k| = 1
  · rw [← h.of_power ⟨0, by rw [hone, pow_zero]⟩, Int.abs_eq_natAbs] at hfloor
    omega
  · have htwo : (2 : ℚ) ≤ |(k : ℚ)| := by
      have hpos := Int.one_le_abs hk
      exact_mod_cast (by omega : 2 ≤ |k|)
    have ha' : |(a : ℚ)| ≤ 2 ^ 53 := by exact_mod_cast ha.le
    have hquotient : |(a : ℚ) / k| ≤ 2 ^ 53 / 2 := by
      rw [abs_div]
      exact div_le_div₀ (by positivity) ha' two_pos htwo
    obtain ⟨hlower, hupper⟩ := abs_le.mp hquotient
    have hlow : -2 ^ 52 ≤ ⌊(a : ℚ) / k⌋ := Int.le_floor.mpr (by push_cast; linarith)
    have hhigh : ⌊(a : ℚ) / k⌋ < 2 ^ 52 + 1 := Int.floor_lt.mpr (by push_cast; linarith)
    have hnear := abs_le.mp h.near
    omega

namespace Double

variable {a k : ℤ} {r v : ℚ}

/-- Dividing by way of a rounded reciprocal has at most a little more than twice the error of one
rounding. -/
lemma abs_sub_le_of_reciprocal (hr : IsRounding r (1 / k)) (hv : IsRounding v (a * r)) :
    |v - a / k| ≤ |(a : ℚ) / k| * (2 / 2 ^ 53 + 1 / 2 ^ 106) := by
  have hfirst : |a * r - a / k| ≤ |(a : ℚ) / k| / 2 ^ 53 := by
    have hscale : (a : ℚ) * r - a / k = a * (r - 1 / k) := by ring
    have hsize : |(a : ℚ)| * (|1 / (k : ℚ)| / 2 ^ 53) = |(a : ℚ) / k| / 2 ^ 53 := by
      rw [← mul_div_assoc, ← abs_mul, mul_one_div]
    rw [hscale, abs_mul, ← hsize]
    exact mul_le_mul_of_nonneg_left hr.error_le (abs_nonneg _)
  have hsecond := hv.error_le
  have hproduct : |(a : ℚ) * r| ≤ |(a : ℚ) / k| + |(a : ℚ) / k| / 2 ^ 53 := by
    have htriangle := abs_sub_abs_le_abs_sub ((a : ℚ) * r) (a / k)
    linarith
  have htriangle := abs_sub_le v (a * r) (a / k)
  linarith

/-- A power of two has an exact reciprocal, and multiplying by it is exact. -/
lemma eq_div_of_power (hr : IsRounding r (1 / k)) (hv : IsRounding v (a * r))
    (ha : |a| < 2 ^ 53) {j : ℕ} (hj : |k| = 2 ^ j) : v = a / k := by
  obtain ⟨sign, hsign, hk⟩ : ∃ sign : ℤ, |sign| = 1 ∧ 1 / (k : ℚ) = sign * 2 ^ (-j : ℤ) := by
    rcases abs_eq (by positivity) |>.mp hj with rfl | rfl
    · refine ⟨1, abs_one, ?_⟩
      rw [zpow_neg, zpow_natCast]
      push_cast
      ring
    · refine ⟨-1, by decide, ?_⟩
      rw [zpow_neg, zpow_natCast]
      push_cast
      rw [one_div, inv_neg]
      ring
  have hexact : r = 1 / k := hr.eq_of_bits (by rw [hsign]; norm_num) hk
  rw [hexact] at hv
  have hproduct : (a : ℚ) * (1 / k) = (a * sign : ℤ) * 2 ^ (-j : ℤ) := by
    rw [hk]
    push_cast
    ring
  rw [hv.eq_of_bits (by rwa [abs_mul, hsign, mul_one]) hproduct, mul_one_div]

/-- A product that is not below an integer is not rounded to less than that integer. -/
lemma le_of_isRounding {n : ℤ} {q : ℚ} (hv : IsRounding v q) (hn : |n| < 2 ^ 53) (hq : n ≤ q) :
    n ≤ v := by
  have hnearest := hv.nearest n 0 hn
  rw [zpow_zero, mul_one, abs_of_nonpos (sub_nonpos.mpr hq)] at hnearest
  have := (abs_le.mp hnearest).1
  linarith

/-- Two roundings move the quotient by less than one. -/
lemma abs_sub_lt_one (hk : k ≠ 0) (ha : |a| < 2 ^ 53) (hr : IsRounding r (1 / k))
    (hv : IsRounding v (a * r)) : |v - (a : ℚ) / k| < 1 := by
  by_cases hsmall : |k| ≤ 2
  · -- one and two are powers of two
    obtain ⟨j, hj⟩ : ∃ j : ℕ, |k| = 2 ^ j := by
      have hpos := Int.one_le_abs hk
      rcases (by omega : |k| = 1 ∨ |k| = 2) with h | h
      · exact ⟨0, by rw [h, pow_zero]⟩
      · exact ⟨1, by rw [h, pow_one]⟩
    rw [eq_div_of_power hr hv ha hj, sub_self, abs_zero]
    exact one_pos
  · have hthree : (3 : ℚ) ≤ |(k : ℚ)| := by
      exact_mod_cast (by omega : 3 ≤ |k|)
    have ha' : |(a : ℚ)| ≤ 2 ^ 53 := by exact_mod_cast ha.le
    have hquotient : |(a : ℚ) / k| ≤ 2 ^ 53 / 3 := by
      rw [abs_div]
      exact div_le_div₀ (by positivity) ha' three_pos hthree
    refine lt_of_le_of_lt (abs_sub_le_of_reciprocal hr hv) ?_
    refine lt_of_le_of_lt (mul_le_mul_of_nonneg_right hquotient (by positivity)) ?_
    norm_num

/-- With a dividend of 52 bits, by less than the distance to the next integer. -/
lemma abs_sub_lt_one_div (hk : k ≠ 0) (ha : |a| < 2 ^ 52) (hr : IsRounding r (1 / k))
    (hv : IsRounding v (a * r)) : |v - (a : ℚ) / k| < 1 / |(k : ℚ)| := by
  have hkpos : (0 : ℚ) < |(k : ℚ)| := abs_pos.mpr (by exact_mod_cast hk)
  have ha' : |(a : ℚ)| ≤ 2 ^ 52 - 1 := by
    have hle : |a| ≤ 2 ^ 52 - 1 := by omega
    exact_mod_cast hle
  refine lt_of_le_of_lt (abs_sub_le_of_reciprocal hr hv) ?_
  rw [abs_div, div_mul_eq_mul_div]
  refine div_lt_div_of_pos_right ?_ hkpos
  refine lt_of_le_of_lt (mul_le_mul_of_nonneg_right ha' (by positivity)) ?_
  norm_num

/-- Where both roundings are known, so is the floor. -/
lemma isNearFloor_scaled (hk : k ≠ 0) (ha : |a| < 2 ^ 53)
    (hr : IsRounding (toRat (1 / Float.ofInt k)) (1 / k))
    (hv : IsRounding (toRat (scaled a k)) (a * toRat (1 / Float.ofInt k))) :
    IsNearFloor a k ⌊toRat (scaled a k)⌋ := by
  have hone := abs_sub_lt_one hk ha hr hv
  -- a quotient that is an integer is its own floor
  have hinteger : k ∣ a → (a : ℚ) / k = ⌊(a : ℚ) / k⌋ := by
    rintro ⟨n, rfl⟩
    rw [cast_mul_div_cancel hk n, Int.floor_intCast]
  have hiff (hdvd : k ∣ a) :
      ⌊toRat (scaled a k)⌋ = ⌊(a : ℚ) / k⌋ ↔ (a : ℚ) / k ≤ toRat (scaled a k) := by
    rw [hinteger hdvd] at hone
    rw [floor_eq_iff_of_near hone, ← hinteger hdvd]
  refine ⟨rfl, abs_floor_sub_le hone, fun hdvd => ?_, hiff, fun hdvd hle => ?_,
    fun hdvd hsmall => ?_, fun ⟨j, hj⟩ => ?_⟩
  · rw [hinteger hdvd] at hone
    exact floor_of_near hone
  · have hsize := lt_of_le_of_lt (abs_floor_div_le a k) ha
    rw [hiff hdvd, hinteger hdvd]
    exact le_of_isRounding hv hsize ((Int.floor_le _).trans hle)
  · exact floor_eq_of_not_dvd hk hdvd (abs_sub_lt_one_div hk hsmall hr hv)
  · rw [eq_div_of_power hr hv ha hj]

/-- A quotient of integers that is rounded once has the right floor. -/
lemma floor_of_isRounding_div (hk : k ≠ 0) (ha : |a| < 2 ^ 53) (hv : IsRounding v (a / k)) :
    ⌊v⌋ = ⌊(a : ℚ) / k⌋ := by
  have hkpos : (0 : ℚ) < |(k : ℚ)| := abs_pos.mpr (by exact_mod_cast hk)
  by_cases hdvd : k ∣ a
  · obtain ⟨n, rfl⟩ := hdvd
    rw [cast_mul_div_cancel hk n] at hv ⊢
    have hn : |n| < 2 ^ 53 := by
      rw [abs_mul] at ha
      exact lt_of_le_of_lt (le_mul_of_one_le_left (abs_nonneg n) (Int.one_le_abs hk)) ha
    rw [hv.eq_of_int hn]
  · refine floor_eq_of_not_dvd hk hdvd (lt_of_le_of_lt hv.error_le ?_)
    have ha' : |(a : ℚ)| < 2 ^ 53 := by exact_mod_cast ha
    rw [abs_div, div_div, mul_comm, ← div_div]
    refine div_lt_div_of_pos_right ?_ hkpos
    rwa [div_lt_one (by positivity)]

/-! ### Quotients of integers as doubles -/

open Float.Model Float.Model.UnpackedFloat

/-- Zero is the positive zero. -/
lemma unpack_zero : (0 : Float).toModel.unpack = .zero .positive := by
  rfl

/-- Both zeros have the value zero. -/
lemma toRat_ofUnpacked_zero (s : Sign) : toRat (ofUnpacked (.zero s)) = 0 := by
  cases s <;> decide +kernel

/-- Zero times a number is one of the zeros. -/
lemma zero_mul_eq {x : Float} {e : ℤ} (h : HasExponent x e) :
    ∃ s, 0 * x = ofUnpacked (.zero s) := by
  obtain ⟨s, m, hm, rfl⟩ := h
  refine ⟨Sign.positive * s, ?_⟩
  change ofUnpacked (UnpackedFloat.mul Format.binary64 (0 : Float).toModel.unpack
    (ofUnpacked (.finite s m e hm.mantissa_pos)).toModel.unpack) = _
  rw [unpack_zero, hm.unpack_ofUnpacked]
  rfl

/-- Zero divided by a number is one of the zeros. -/
lemma zero_div_eq {x : Float} {e : ℤ} (h : HasExponent x e) :
    ∃ s, 0 / x = ofUnpacked (.zero s) := by
  obtain ⟨s, m, hm, rfl⟩ := h
  refine ⟨Sign.positive / s, ?_⟩
  change ofUnpacked (UnpackedFloat.div Format.binary64 (0 : Float).toModel.unpack
    (ofUnpacked (.finite s m e hm.mantissa_pos)).toModel.unpack) = _
  rw [unpack_zero, hm.unpack_ofUnpacked]
  rfl

/-- Zero is rounded to itself. -/
lemma isRounding_zero : IsRounding 0 0 :=
  ⟨by norm_num, fun n f _ => by rw [sub_zero, abs_zero]; exact abs_nonneg _⟩

/-- The quotient of two integers is rounded once. -/
lemma isRounding_ofInt_div (ha : a.natAbs < 2 ^ 53) (hzero : k ≠ 0) (hk : k.natAbs < 2 ^ 53) :
    nonFinite? (Float.ofInt a / Float.ofInt k) = none ∧
      IsRounding (toRat (Float.ofInt a / Float.ofInt k)) (a / k) := by
  obtain ⟨⟨f, hflow, hfhigh, hf⟩, hfvalue⟩ := hasExponent_ofInt hzero hk
  by_cases ha0 : a = 0
  · obtain ⟨s, hs⟩ := zero_div_eq hf
    rw [ha0, Int.cast_zero, zero_div]
    change nonFinite? (0 / Float.ofInt k) = none ∧ IsRounding (toRat (0 / Float.ofInt k)) 0
    rw [hs, toRat_ofUnpacked_zero]
    exact ⟨nonFinite?_ofUnpacked (.zero s), isRounding_zero⟩
  · obtain ⟨⟨e, helow, hehigh, he⟩, hevalue⟩ := hasExponent_ofInt ha0 ha
    obtain ⟨⟨g, -, -, hg⟩, hrounding⟩ := he.div hf (by omega) (by omega)
    rw [hevalue, hfvalue] at hrounding
    exact ⟨hg.nonFinite?, hrounding⟩

/-- The reciprocal of an integer is rounded once. -/
lemma isRounding_reciprocal (hzero : k ≠ 0) (hk : k.natAbs < 2 ^ 53) :
    (∃ g, -105 ≤ g ∧ g ≤ 1 ∧ HasExponent (1 / Float.ofInt k) g) ∧
      IsRounding (toRat (1 / Float.ofInt k)) (1 / k) := by
  obtain ⟨⟨e, helow, hehigh, he⟩, hevalue⟩ := hasExponent_ofInt one_ne_zero (by decide)
  obtain ⟨⟨f, hflow, hfhigh, hf⟩, hfvalue⟩ := hasExponent_ofInt hzero hk
  obtain ⟨⟨g, hglow, hghigh, hg⟩, hrounding⟩ := he.div hf (by omega) (by omega)
  rw [hevalue, hfvalue, Int.cast_one] at hrounding
  exact ⟨⟨g, by omega, by omega, hg⟩, hrounding⟩

/-- The product with the reciprocal is rounded once: nothing is lost by multiplying with one. -/
lemma isRounding_scaled (ha : a.natAbs < 2 ^ 53) (hzero : k ≠ 0) (hk : k.natAbs < 2 ^ 53) :
    nonFinite? (scaled a k) = none ∧
      IsRounding (toRat (scaled a k)) (a * toRat (1 / Float.ofInt k)) := by
  obtain ⟨⟨g, hglow, hghigh, hg⟩, -⟩ := isRounding_reciprocal hzero hk
  rw [scaled]
  by_cases ha0 : a = 0
  · have hone : (1 : Float) * Float.ofInt 0 = 0 := by decide +kernel
    obtain ⟨s, hs⟩ := zero_mul_eq hg
    rw [ha0, hone, hs, toRat_ofUnpacked_zero, Int.cast_zero, zero_mul]
    exact ⟨nonFinite?_ofUnpacked (.zero s), isRounding_zero⟩
  · obtain ⟨⟨c, hclow, hchigh, hc⟩, hcvalue⟩ := hasExponent_ofInt one_ne_zero (by decide)
    obtain ⟨⟨e, helow, hehigh, he⟩, hevalue⟩ := hasExponent_ofInt ha0 ha
    obtain ⟨⟨f, hflow, hfhigh, hf⟩, hfirst⟩ := hc.mul he (by omega) (by omega)
    rw [hcvalue, hevalue, Int.cast_one, one_mul] at hfirst
    have hvalue : toRat (1 * Float.ofInt a) = a :=
      hfirst.eq_of_int (by rw [Int.abs_eq_natAbs]; omega)
    obtain ⟨⟨h, -, -, hh⟩, hsecond⟩ := hf.mul hg (by omega) (by omega)
    rw [← hvalue]
    exact ⟨hh.nonFinite?, hsecond⟩

/-- Normal doubles that are equal in value are the same. -/
lemma HasExponent.eq_of_beq {x y : Float} {e f : ℤ} (hx : HasExponent x e) (hy : HasExponent y f)
    (h : (x == y) = true) : x = y := by
  obtain ⟨s, m, hm, rfl⟩ := hx
  obtain ⟨t, n, hn, rfl⟩ := hy
  change UnpackedFloat.beq (ofUnpacked (.finite s m e hm.mantissa_pos)).toModel.unpack
    (ofUnpacked (.finite t n f hn.mantissa_pos)).toModel.unpack = true at h
  rw [hm.unpack_ofUnpacked, hn.unpack_ofUnpacked] at h
  -- of the same sign they are compared by their parts, of different signs they are not equal
  cases s with
  | positive =>
    cases t with
    | positive =>
      change (some ((compare e f).then (compare m n)) == some Ordering.eq) = true at h
      obtain ⟨rfl, rfl⟩ : e = f ∧ m = n := by simpa [Ordering.then_eq_eq] using h
      rfl
    | negative => cases h
  | negative =>
    cases t with
    | positive => cases h
    | negative =>
      change (some ((compare e f).then (compare m n)).swap == some Ordering.eq) = true at h
      obtain ⟨rfl, rfl⟩ : e = f ∧ m = n := by simpa [Ordering.then_eq_eq] using h
      rfl

/-- A normal double is not zero. -/
lemma HasExponent.beq_zero {x : Float} {e : ℤ} (hx : HasExponent x e) : (x == 0) = false := by
  obtain ⟨s, m, hm, rfl⟩ := hx
  change UnpackedFloat.beq (ofUnpacked (.finite s m e hm.mantissa_pos)).toModel.unpack
    (0 : Float).toModel.unpack = false
  rw [hm.unpack_ofUnpacked, unpack_zero]
  cases s <;> rfl

end Double

/-! ### Rules with a floor division -/

/-- The ways to write an integer: as a number, or as a number with a sign. -/
inductive IsLiteral : ℤ → Expr → Prop
  | plain {n : ℕ} {span : Span} : IsLiteral n (.number (Float.ofNat n) span)
  | negated {n : ℕ} {inner span : Span} :
      IsLiteral (-(n + 1 : ℕ)) (.neg (.number (Float.ofNat (n + 1)) inner) span)

/-- The store with the integers of the given names. -/
def Store.ofInts (attributes : List (String × ℤ)) : Store :=
  ⟨attributes.map fun (name, n) => (name, .number (.int n))⟩

/-- The rule `0: x = value` compiles, and running it on a store that holds `p` only sets `x`. -/
def Assigns (value : Expr) (p x : ℤ) : Prop :=
  ∃ s, (Rule.mk 0 ⟨[.name "x"], .point .start⟩ .set value (.point .start)).compile .empty =
      .statement s ∧
    Batch.run {} [s] (.ofInts [("p", p)]) = (.ok ⟨1, []⟩, .ofInts [("p", p), ("x", x)])

section Rules

open Lowering

variable {a k p x : ℤ} {value dividend divisor : Expr}

/-- The value of the tree is what is stored. -/
lemma assigns_of_eval {t : Tree Float} {v : Float} (hlower : lower .empty value = .ok t)
    (heval : t.eval Tree.depthLimit (Store.ofInts [("p", p)]).get = .ok v)
    (hfinite : Double.nonFinite? v = none)
    (hx : Double.integerBelow? Json.integerLimit v = some x) : Assigns value p x := by
  refine ⟨⟨0, "x", .set, t⟩, ?_, ?_⟩
  · unfold Rule.compile
    rw [hlower]
    rfl
  · have hnumber : Json.Number.ofFloat v = .int x := by
      rw [Json.Number.ofFloat, hx]
    have hsegments : properSegments? "x" = some ["x"] := by decide
    have hset : (Store.ofInts [("p", p)]).set "x" v =
        (.ok (), .ofInts [("p", p), ("x", x)]) := by
      simp only [Store.set, Store.writeNumber, hfinite, hsegments, hnumber]
      rfl
    have hexecute : (⟨0, "x", .set, t⟩ : Statement).execute Tree.depthLimit (.ofInts [("p", p)]) =
        (.ok v, .ofInts [("p", p), ("x", x)]) := by
      simp only [Statement.execute, heval, hset]
      rfl
    have hordered : Batch.ordered [(⟨0, "x", .set, t⟩ : Statement)] = [(⟨0, "x", .set, t⟩, 0)] := by
      simp [Batch.ordered]
    simp only [Batch.run, hordered, Batch.runInOrder, hexecute]

/-- A literal of the divisor is lowered to a constant, at a cost of two nodes at most. -/
lemma IsLiteral.lowers (h : IsLiteral k divisor) (hk : k.natAbs < 2 ^ 53) (levels : ℕ)
    (scope : Scope Float) :
    ∃ cost ≤ 2, Lowers levels scope divisor (.static (Float.ofInt k)) cost := by
  have hfinite : Double.nonFinite? (Float.ofInt k) = none := Double.nonFinite?_ofInt (by omega)
  cases h with
  | @plain n span =>
    exact ⟨1, by decide, .number (gives_constant_iff.mpr ⟨hfinite, rfl⟩)⟩
  | @negated n inner span =>
    have hinner : Double.nonFinite? (Float.ofNat (n + 1)) = none :=
      Double.nonFinite?_ofNat (by omega)
    have hnumber : Lowers levels scope (.number (Float.ofNat (n + 1)) inner)
        (.static (Float.ofNat (n + 1))) 1 := .number (gives_constant_iff.mpr ⟨hinner, rfl⟩)
    exact ⟨1 + 1, le_refl 2, .neg hnumber (gives_negate_iff.mpr (.inl ⟨_, rfl, hfinite, rfl⟩))⟩

/-- A finite number passes the check of its operator. -/
lemma checked_eq_ok (op : Operator) {v : Float} (h : Double.nonFinite? v = none) :
    op.checked v = .ok v := by
  have hfinite : Arithmetic.nonFinite? v = none := h
  rw [Operator.checked, hfinite]

/-- The store has the number under its path. -/
lemma get_ofInts (p : ℤ) : (Store.ofInts [("p", p)]).get "p" = .ok (Float.ofInt p) := by
  have hsegments : properSegments? "p" = some ["p"] := by decide
  simp only [Store.get, hsegments]
  rfl

/-- Two constants are divided when the rule is compiled. -/
lemma assigns_folded (ha : a.natAbs < 2 ^ 53) (hzero : k ≠ 0) (hk : k.natAbs < 2 ^ 53)
    (hdividend : IsLiteral a dividend) (hdivisor : IsLiteral k divisor) (span : Span) (p : ℤ) :
    Assigns (.binary dividend .floorDiv divisor span) p ⌊(a : ℚ) / k⌋ := by
  obtain ⟨⟨_, -, -, hexponent⟩, -⟩ := Double.hasExponent_ofInt hzero hk
  obtain ⟨hfinite, hrounding⟩ := Double.isRounding_ofInt_div ha hzero hk
  have ha' : |a| < 2 ^ 53 := by
    rw [Int.abs_eq_natAbs]
    omega
  have hfloor := Double.floor_of_isRounding_div hzero ha' hrounding
  have hsize : ⌊Double.toRat (Float.ofInt a / Float.ofInt k)⌋.natAbs < 2 ^ 53 := by
    have hle := abs_floor_div_le a k
    rw [hfloor]
    rw [Int.abs_eq_natAbs] at hle
    omega
  obtain ⟨hfinite', hvalue⟩ := Double.floor_eq_of_toRat hfinite hsize
  rw [hfloor] at hvalue
  obtain ⟨costLeft, hcostLeft, hleft⟩ := hdividend.lowers ha Limit.expansions (.top .empty)
  obtain ⟨costRight, hcostRight, hright⟩ := hdivisor.lowers hk Limit.expansions (.top .empty)
  have hgives : Gives (Lowering.binary (.static (Float.ofInt a)) .floorDiv
      (.static (Float.ofInt k)) divisor.span span)
      (.static (Double.floor (Float.ofInt a / Float.ofInt k))) :=
    gives_binary_iff.mpr (.inl ⟨_, _, _, rfl, rfl, ⟨hexponent.beq_zero, rfl⟩, hfinite', rfl⟩)
  have hcost : 1 + costLeft + costRight ≤ Limit.nodes := by
    change _ ≤ 100000
    omega
  have hdepth : (Tree.static (Double.floor (Float.ofInt a / Float.ofInt k))).depth ≤
      Tree.depthLimit := show 1 ≤ Tree.depthLimit by decide
  exact assigns_of_eval ((hleft.binary hright hgives).lower_eq_ok hdepth hcost)
    (checked_eq_ok .static hfinite') hfinite' hvalue

/-- A dividend that is not constant is multiplied by the reciprocal of the divisor, unless that is
one. -/
lemma assigns_scaled {scaled : Tree Float} {v : Float} (hk : k.natAbs < 2 ^ 53)
    (hdivisor : IsLiteral k divisor) {path : Path} (span : Span)
    (hscaled : Gives (quotient .floorDiv (.dynamic path.text) (.static (Float.ofInt k))
      divisor.span) scaled)
    (hdepth : scaled.depth < Tree.depthLimit)
    (heval : scaled.evalWithin Tree.depthLimit (Store.ofInts [("p", a)]).get 59 = .ok v)
    (hfinite : Double.nonFinite? v = none) (hsize : ⌊Double.toRat v⌋.natAbs < 2 ^ 53) :
    Assigns (.binary (.path path) .floorDiv divisor span) a ⌊Double.toRat v⌋ := by
  obtain ⟨cost, hcost, hright⟩ := hdivisor.lowers hk Limit.expansions (.top .empty)
  obtain ⟨hfinite', hvalue⟩ := Double.floor_eq_of_toRat hfinite hsize
  have hgives : Gives (Lowering.binary (.dynamic path.text) .floorDiv (.static (Float.ofInt k))
      divisor.span span) (.floor scaled) :=
    gives_binary_iff.mpr (.inr ⟨.inl rfl, scaled, hscaled, rfl⟩)
  have hcost' : 1 + 1 + cost ≤ Limit.nodes := by
    change _ ≤ 100000
    omega
  have hdepth' : (Tree.floor scaled).depth ≤ Tree.depthLimit := by
    rw [Tree.depth]
    omega
  have hlower : lower .empty (.binary (.path path) .floorDiv divisor span) = .ok (.floor scaled) :=
    (Lowers.path.binary hright hgives).lower_eq_ok hdepth' hcost'
  refine assigns_of_eval hlower ?_ hfinite' hvalue
  change (scaled.evalWithin Tree.depthLimit (Store.ofInts [("p", a)]).get 59).bind _ = _
  rw [heval]
  exact checked_eq_ok .floor hfinite'

/-- A divisor of one is dropped. -/
lemma assigns_byOne (ha : a.natAbs < 2 ^ 53) (hdivisor : IsLiteral 1 divisor) (path : Span)
    (span : Span) :
    Assigns (.binary (.path ⟨[.name "p"], path⟩) .floorDiv divisor span) a a := by
  have hfinite : Double.nonFinite? (Float.ofInt a) = none := Double.nonFinite?_ofInt (by omega)
  have hfloor : ⌊Double.toRat (Float.ofInt a)⌋ = a := by
    rw [Double.toRat_ofInt ha, Int.floor_intCast]
  have hscaled : Gives (quotient .floorDiv (.dynamic "p") (.static (Float.ofInt 1)) divisor.span)
      (.dynamic "p") :=
    gives_quotient_iff.mpr ⟨_, rfl, by decide +kernel, .inl ⟨by decide +kernel, rfl⟩⟩
  have heval : (Tree.dynamic "p").evalWithin Tree.depthLimit (Store.ofInts [("p", a)]).get 59 =
      .ok (Float.ofInt a) := by
    simp only [Tree.evalWithin, get_ofInts]
    exact checked_eq_ok .dynamic hfinite
  have hassigns : Assigns (.binary (.path ⟨[.name "p"], path⟩) .floorDiv divisor span) a
      ⌊Double.toRat (Float.ofInt a)⌋ :=
    assigns_scaled (by decide) hdivisor span hscaled (show 1 < Tree.depthLimit by decide) heval
      hfinite (by rwa [hfloor])
  rwa [hfloor] at hassigns

/-- By any other divisor the rule divides as the product with the reciprocal does. -/
lemma assigns_byReciprocal (ha : a.natAbs < 2 ^ 53) (hzero : k ≠ 0) (hone : k ≠ 1)
    (hk : k.natAbs < 2 ^ 53) (hdivisor : IsLiteral k divisor) (path span : Span)
    (hsize : ⌊Double.toRat (Double.scaled a k)⌋.natAbs < 2 ^ 53) :
    Assigns (.binary (.path ⟨[.name "p"], path⟩) .floorDiv divisor span) a
      ⌊Double.toRat (Double.scaled a k)⌋ := by
  obtain ⟨⟨_, -, -, hexponent⟩, hkvalue⟩ := Double.hasExponent_ofInt hzero hk
  obtain ⟨⟨_, -, -, hunit⟩, honevalue⟩ := Double.hasExponent_ofInt one_ne_zero (by decide)
  have hfinite : Double.nonFinite? (Float.ofInt a) = none := Double.nonFinite?_ofInt (by omega)
  obtain ⟨⟨_, -, -, hreciprocal⟩, -⟩ := Double.isRounding_reciprocal hzero hk
  have hproduct := (Double.isRounding_scaled ha hzero hk).1
  have hother : (Float.ofInt k == 1) = false := by
    refine Bool.eq_false_iff.mpr fun hbeq => hone ?_
    have heq : Float.ofInt k = Float.ofInt 1 := hexponent.eq_of_beq hunit hbeq
    have hvalue : (k : ℚ) = (1 : ℤ) := by rw [← hkvalue, heq, honevalue]
    exact_mod_cast hvalue
  have hscaled : Gives (quotient .floorDiv (.dynamic "p") (.static (Float.ofInt k)) divisor.span)
      (multiply (.dynamic "p") (.static (1 / Float.ofInt k))) :=
    gives_quotient_iff.mpr
      ⟨_, rfl, hexponent.beq_zero, .inr ⟨hother, hreciprocal.nonFinite?, rfl⟩⟩
  have heval : (multiply (.dynamic "p") (.static (1 / Float.ofInt k))).evalWithin Tree.depthLimit
      (Store.ofInts [("p", a)]).get 59 = .ok (Double.scaled a k) := by
    simp only [multiply, Tree.evalWithin, Tree.evalAllWithin, get_ofInts, bind, Except.bind,
      checked_eq_ok .dynamic hfinite, checked_eq_ok .static hreciprocal.nonFinite?]
    exact checked_eq_ok (.combine .multiply) hproduct
  exact assigns_scaled hk hdivisor span hscaled (show 2 < Tree.depthLimit by decide) heval hproduct
    hsize

/-- **Floor division, compiled and run.**  For integers below `2 ^ 53` and a divisor other than
zero, a rule that divides an attribute by a constant compiles and stores an integer near the floor
of the quotient.  If both operands are constant, it stores the floor itself. -/
theorem floorDivision_isNearFloor (ha : a.natAbs < 2 ^ 53) (hzero : k ≠ 0)
    (hk : k.natAbs < 2 ^ 53) (hdividend : IsLiteral a dividend) (hdivisor : IsLiteral k divisor)
    (path span : Span) :
    (∃ n, Assigns (.binary (.path ⟨[.name "p"], path⟩) .floorDiv divisor span) a n ∧
      IsNearFloor a k n) ∧
    ∀ p, Assigns (.binary dividend .floorDiv divisor span) p ⌊(a : ℚ) / k⌋ := by
  have ha' : |a| < 2 ^ 53 := by
    rw [Int.abs_eq_natAbs]
    omega
  have hnear := Double.isNearFloor_scaled hzero ha' (Double.isRounding_reciprocal hzero hk).2
    (Double.isRounding_scaled ha hzero hk).2
  refine ⟨⟨_, ?_, hnear⟩, assigns_folded ha hzero hk hdividend hdivisor span⟩
  by_cases hone : k = 1
  · -- a divisor of one is dropped, and one is a power of two
    subst hone
    rw [hnear.of_power ⟨0, rfl⟩, Int.cast_one, div_one, Int.floor_intCast]
    exact assigns_byOne ha hdivisor path span
  · exact assigns_byReciprocal ha hzero hone hk hdivisor path span (hnear.natAbs_lt hzero ha')

/-- A dividend of fifty-three bits and a negative divisor. -/
theorem floorDivision_isNearFloor_largest :
    let dividend : Expr := .number (Float.ofNat 9007199254740991) (.point .start)
    let divisor : Expr := .neg (.number (Float.ofNat 10) (.point .start)) (.point .start)
    (∃ n, Assigns (.binary (.path ⟨[.name "p"], .point .start⟩) .floorDiv divisor (.point .start))
      9007199254740991 n ∧ IsNearFloor 9007199254740991 (-10) n) ∧
    ∀ p, Assigns (.binary dividend .floorDiv divisor (.point .start)) p
      ⌊((9007199254740991 : ℤ) : ℚ) / (-10 : ℤ)⌋ := by
  intro dividend divisor
  have hdividend : IsLiteral 9007199254740991 dividend := IsLiteral.plain (n := 9007199254740991)
  have hdivisor : IsLiteral (-10) divisor := IsLiteral.negated (n := 9)
  exact floorDivision_isNearFloor (by decide) (by decide) (by decide) hdividend hdivisor _ _

/-- What is stored is determined. -/
lemma Assigns.unique {y : ℤ} (hx : Assigns value p x) (hy : Assigns value p y) : x = y := by
  obtain ⟨s, hs, hrun⟩ := hx
  obtain ⟨t, ht, hrun'⟩ := hy
  obtain rfl : s = t := Compiled.statement.inj (hs.symm.trans ht)
  have hstores := congrArg Prod.snd (hrun.symm.trans hrun')
  simpa [Store.ofInts] using hstores

/-- The reciprocal of forty-nine is rounded down, so that `p // 49` misses the floor of
`49 / 49`. -/
theorem floorDivision_misses_fortyNine :
    let divisor : Expr := .number (Float.ofNat 49) (.point .start)
    let value : Expr :=
      .binary (.path ⟨[.name "p"], .point .start⟩) .floorDiv divisor (.point .start)
    Assigns value 49 0 ∧ ¬Assigns value 49 ⌊((49 : ℤ) : ℚ) / (49 : ℤ)⌋ := by
  intro divisor value
  have hdivisor : IsLiteral 49 divisor := IsLiteral.plain (n := 49)
  have hmissed : ⌊Double.toRat (Double.scaled 49 49)⌋ = 0 := by
    decide +kernel
  have hzero : Assigns value 49 0 := by
    have hassigns := assigns_byReciprocal (a := 49) (k := 49) (by decide) (by decide) (by decide)
      (by decide) hdivisor (.point .start) (.point .start) (by rw [hmissed]; decide)
    rwa [hmissed] at hassigns
  refine ⟨hzero, fun hone => ?_⟩
  have hfloor : ⌊((49 : ℤ) : ℚ) / (49 : ℤ)⌋ = 1 := by norm_num
  have heq := hzero.unique hone
  omega

end Rules

end SheetRules
