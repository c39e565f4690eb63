import Mathlib.Algebra.Order.Field.Power
import Mathlib.Data.Rat.Floor
import Mathlib.Tactic.FieldSimp
import Mathlib.Tactic.Linarith
import Mathlib.Tactic.Positivity
import SheetRules.Number.Arithmetic
import SheetRules.Proofs.Number.Integers

/-!
# Rounding

Products and quotients of doubles are computed exactly, as far as the bits of the result go, and
then rounded to 53 bits.  What is known of the exact result after the last bit that is kept is a
round bit and a sticky bit, and both survive every shift (`Approximates.shiftRight`).  They are
enough to find the nearest integer (`Approximates.abs_roundedMantissa_sub_le`), and with 53 bits
before the point this makes the relative error at most `2 ^ -53`, and the result nearer than any
other number of 53 bits (`IsRounding`).  This is then said of the values of doubles
(`HasExponent.mul`, `HasExponent.div`); the exponents are followed, so that nothing overflows and
nothing is lost to subnormal numbers.

The floor of a double is its floor in exact arithmetic (`floor_eq_of_toRat`).
-/

namespace SheetRules

namespace Double

open Float.Model Float.Model.UnpackedFloat

/-! ### The bits after the point -/

/-- What an extended mantissa says about a number: the mantissa is its integral part, the round bit
tells in which half above it the number lies, and without the sticky bit it is the start of that
half. -/
structure Approximates (em : ExtendedMantissa) (x : ℚ) : Prop where
  lower : em.roundBit = false → (em.mantissa : ℚ) ≤ x ∧ x < em.mantissa + 1 / 2
  upper : em.roundBit = true → (em.mantissa : ℚ) + 1 / 2 ≤ x ∧ x < em.mantissa + 1
  exact : em.stickyBit = false → x = em.mantissa + if em.roundBit then 1 / 2 else 0

namespace Approximates

variable {em : ExtendedMantissa} {x : ℚ} (h : Approximates em x)

include h

/-- The mantissa is not above what it approximates. -/
lemma mantissa_le : (em.mantissa : ℚ) ≤ x := by
  cases hround : em.roundBit with
  | false => exact (h.lower hround).1
  | true =>
    have := (h.upper hround).1
    linarith

/-- The mantissa is less than one below what it approximates. -/
lemma lt_mantissa_add_one : x < em.mantissa + 1 := by
  cases hround : em.roundBit with
  | false =>
    have := (h.lower hround).2
    linarith
  | true => exact (h.upper hround).2

/-- Shifting out a bit halves the number. -/
lemma shiftRightOne : Approximates em.shiftRightOne (x / 2) := by
  have hle := h.mantissa_le
  have hlt := h.lt_mantissa_add_one
  have hsticky : (em.roundBit || em.stickyBit) = false → x = em.mantissa := by
    intro hfalse
    rw [Bool.or_eq_false_iff] at hfalse
    have hexact := h.exact hfalse.2
    rwa [if_neg (by rw [hfalse.1]; simp), add_zero] at hexact
  have hsplit : (em.mantissa : ℚ) = 2 * (em.mantissa / 2 : ℕ) + (em.mantissa % 2 : ℕ) := by
    exact_mod_cast (Nat.div_add_mod em.mantissa 2).symm
  unfold ExtendedMantissa.shiftRightOne
  -- the last digit becomes the round bit, and what was behind it makes the sticky bit
  rcases Nat.mod_two_eq_zero_or_one em.mantissa with hbit | hbit
  · rw [hbit, Nat.cast_zero, add_zero] at hsplit
    refine ⟨fun _ => ⟨?_, ?_⟩, fun hround => ?_, fun hfalse => ?_⟩
    · dsimp only
      linarith
    · dsimp only
      linarith
    · simp [hbit] at hround
    · rw [hsticky hfalse, hsplit]
      simp [hbit]
  · rw [hbit, Nat.cast_one] at hsplit
    refine ⟨fun hround => ?_, fun _ => ⟨?_, ?_⟩, fun hfalse => ?_⟩
    · simp [hbit] at hround
    · dsimp only
      linarith
    · dsimp only
      linarith
    · rw [hsticky hfalse, hsplit]
      simp only [hbit]
      simp
      ring

/-- Shifting to the right goes with dividing. -/
lemma shiftRight (k : ℕ) : Approximates (em >>> k) (x / 2 ^ k) := by
  induction k with
  | zero =>
    change Approximates em (x / 2 ^ 0)
    rwa [pow_zero, div_one]
  | succ k ih =>
    have hhalf : x / 2 ^ (k + 1) = x / 2 ^ k / 2 := by
      rw [pow_succ, div_div]
    rw [hhalf]
    exact ih.shiftRightOne

/-- Rounding goes to the nearest integer. -/
lemma abs_roundedMantissa_sub_le : |(em.roundedMantissa : ℚ) - x| ≤ 1 / 2 := by
  obtain ⟨m, roundBit, stickyBit⟩ := em
  rw [abs_le]
  cases roundBit with
  | false =>
    -- the rest is below one half and is dropped
    have ⟨hle, hlt⟩ := h.lower rfl
    have hrounded : (⟨m, false, stickyBit⟩ : ExtendedMantissa).roundedMantissa = m := by
      cases stickyBit <;> rfl
    rw [hrounded]
    dsimp only at hle hlt
    constructor <;> linarith
  | true =>
    have ⟨hle, hlt⟩ := h.upper rfl
    cases stickyBit with
    | false =>
      -- just one half: an even mantissa stays, an odd one goes up
      have htie : x = m + 1 / 2 := h.exact rfl
      have hrounded : (⟨m, true, false⟩ : ExtendedMantissa).roundedMantissa = m + m % 2 := rfl
      rw [hrounded, htie]
      rcases Nat.mod_two_eq_zero_or_one m with hbit | hbit
      · rw [hbit]
        push_cast
        constructor <;> linarith
      · rw [hbit]
        push_cast
        constructor <;> linarith
    | true =>
      have hrounded : (⟨m, true, true⟩ : ExtendedMantissa).roundedMantissa = m + 1 := rfl
      rw [hrounded]
      push_cast
      dsimp only at hle hlt
      constructor <;> linarith

end Approximates

/-- A shift divides the mantissa and drops the remainder. -/
lemma mantissa_shiftRight (em : ExtendedMantissa) (k : ℕ) :
    (em >>> k).mantissa = em.mantissa / 2 ^ k := by
  induction k with
  | zero => exact (Nat.div_one _).symm
  | succ k ih =>
    change (em >>> k).mantissa / 2 = _
    rw [ih, Nat.div_div_eq_div_mul, pow_succ]

/-- The digits behind the mantissa do not belong to it. -/
lemma mantissa_ofMantissaAndAccuracy (m : ℕ) (accuracy : Accuracy) :
    (ExtendedMantissa.ofMantissaAndAccuracy m accuracy).mantissa = m := by
  rcases accuracy with _ | (_ | _ | _) <;> rfl

/-- A mantissa without further digits is exact. -/
lemma approximates_exact (m : ℕ) :
    Approximates (ExtendedMantissa.ofMantissaAndAccuracy m .exact) m := by
  refine ⟨fun _ => ⟨le_refl _, ?_⟩, (fun hround => nomatch hround), fun _ => ?_⟩
  · change (m : ℚ) < m + 1 / 2
    linarith
  · change (m : ℚ) = m + if false = true then 1 / 2 else 0
    simp

/-- The remainder of a division tells where the quotient lies. -/
lemma approximates_div (m : ℕ) {d : ℕ} (hd : 0 < d) :
    Approximates (ExtendedMantissa.ofMantissaAndAccuracy (m / d) (accuracyOfFraction (m % d) d))
      ((m : ℚ) / d) := by
  have hpos : (0 : ℚ) < d := by exact_mod_cast hd
  have hrem : (m % d : ℕ) < (d : ℚ) := by exact_mod_cast Nat.mod_lt m hd
  have hvalue : (m : ℚ) / d = (m / d : ℕ) + (m % d : ℕ) / d := by
    have hsplit : (m : ℚ) = d * (m / d : ℕ) + (m % d : ℕ) := by
      exact_mod_cast (Nat.div_add_mod m d).symm
    field_simp
    linarith
  rw [hvalue]
  unfold accuracyOfFraction
  split
  · rename_i hzero
    rw [hzero, Nat.cast_zero, zero_div, add_zero]
    exact approximates_exact _
  · rename_i hzero
    have hnum : (0 : ℚ) < (m % d : ℕ) := by exact_mod_cast Nat.pos_of_ne_zero hzero
    have hfraction : 0 < ((m % d : ℕ) : ℚ) / d := div_pos hnum hpos
    have hone : ((m % d : ℕ) : ℚ) / d < 1 := (div_lt_one hpos).mpr hrem
    -- what is left over is compared with one half of the divisor
    cases hcompare : compare (2 * (m % d)) d with
    | lt =>
      have hlt : (2 * (m % d : ℕ) : ℚ) < d := by exact_mod_cast Nat.compare_eq_lt.mp hcompare
      have hhalf : ((m % d : ℕ) : ℚ) / d < 1 / 2 := by
        rw [div_lt_div_iff₀ hpos two_pos]
        linarith
      refine ⟨fun _ => ⟨?_, ?_⟩, (fun hround => nomatch hround), (fun hsticky => nomatch hsticky)⟩
      · simp only [mantissa_ofMantissaAndAccuracy]
        linarith
      · simp only [mantissa_ofMantissaAndAccuracy]
        linarith
    | eq =>
      have heq : (2 * (m % d : ℕ) : ℚ) = d := by exact_mod_cast Nat.compare_eq_eq.mp hcompare
      have hhalf : ((m % d : ℕ) : ℚ) / d = 1 / 2 := by
        rw [div_eq_div_iff (ne_of_gt hpos) two_ne_zero]
        linarith
      rw [hhalf]
      refine ⟨(fun hround => nomatch hround), fun _ => ⟨?_, ?_⟩, fun _ => ?_⟩
      · simp only [mantissa_ofMantissaAndAccuracy]
        linarith
      · simp only [mantissa_ofMantissaAndAccuracy]
        linarith
      · rfl
    | gt =>
      have hgt : (d : ℚ) < 2 * (m % d : ℕ) := by exact_mod_cast Nat.compare_eq_gt.mp hcompare
      have hhalf : 1 / 2 < ((m % d : ℕ) : ℚ) / d := by
        rw [div_lt_div_iff₀ two_pos hpos]
        linarith
      refine ⟨(fun hround => nomatch hround), fun _ => ⟨?_, ?_⟩, (fun hsticky => nomatch hsticky)⟩
      · simp only [mantissa_ofMantissaAndAccuracy]
        linarith
      · simp only [mantissa_ofMantissaAndAccuracy]
        linarith

/-! ### Rounding to a double -/

/-- `r` is what a number `q` is rounded to: at most half a unit in the last place away, and at least
as near as any number of 53 bits. -/
structure IsRounding (r q : ℚ) : Prop where
  error_le : |r - q| ≤ |q| / 2 ^ 53
  nearest : ∀ n f : ℤ, |n| < 2 ^ 53 → |r - q| ≤ |n * 2 ^ f - q|

/-- A number of 53 bits is rounded to itself. -/
lemma IsRounding.eq_of_bits {r q : ℚ} (h : IsRounding r q) {n f : ℤ} (hn : |n| < 2 ^ 53)
    (hq : q = n * 2 ^ f) : r = q := by
  have hzero := h.nearest n f hn
  rw [← hq, sub_self, abs_zero] at hzero
  exact sub_eq_zero.mp (abs_nonpos_iff.mp hzero)

/-- A rounded integer of at most fifty-three digits is the integer. -/
lemma IsRounding.eq_of_int {r : ℚ} {n : ℤ} (h : IsRounding r n) (hn : |n| < 2 ^ 53) : r = n :=
  h.eq_of_bits (f := 0) hn (by rw [zpow_zero, mul_one])

/-- No integer is nearer than one that is at most half a unit away. -/
lemma abs_sub_le_abs_sub {n m : ℤ} {x : ℚ} (h : |n - x| ≤ 1 / 2) : |n - x| ≤ |m - x| := by
  by_cases heq : m = n
  · rw [heq]
  have hone : (1 : ℚ) ≤ |(m : ℚ) - n| := by
    exact_mod_cast Int.one_le_abs (sub_ne_zero.mpr heq)
  have htriangle := abs_sub_le (m : ℚ) x n
  rw [abs_sub_comm x (n : ℚ)] at htriangle
  linarith

/-- A number of at least 53 bits, rounded to an integer, is rounded relative to its size. -/
lemma isRounding_of_abs_sub_le {n : ℤ} {x : ℚ} (hx : 2 ^ 52 ≤ x) (hn : |n - x| ≤ 1 / 2)
    (e : ℤ) : IsRounding (n * 2 ^ e) (x * 2 ^ e) := by
  have hpow : (0 : ℚ) < 2 ^ e := zpow_pos two_pos e
  have hscale : ∀ y : ℚ, |y * 2 ^ e - x * 2 ^ e| = |y - x| * 2 ^ e := by
    intro y
    rw [← sub_mul, abs_mul, abs_of_pos hpow]
  constructor
  · rw [hscale, abs_mul, abs_of_pos hpow, abs_of_pos (by linarith : (0 : ℚ) < x),
      mul_div_right_comm]
    refine mul_le_mul_of_nonneg_right (hn.trans ?_) hpow.le
    rw [div_le_div_iff₀ two_pos (by positivity)]
    linarith
  · intro m f hm
    rcases le_or_gt e f with hle | hlt
    · -- the number is an integer in units of the last place
      obtain ⟨t, ht⟩ := Int.eq_ofNat_of_zero_le (sub_nonneg.mpr hle)
      have hf : (m : ℚ) * 2 ^ f = ((m * 2 ^ t : ℤ) : ℚ) * 2 ^ e := by
        have hsplit : (2 : ℚ) ^ f = 2 ^ t * 2 ^ e := by
          rw [← zpow_natCast, ← ht, ← zpow_add₀ two_ne_zero, sub_add_cancel]
        rw [hsplit]
        push_cast
        ring
      rw [hf, hscale, hscale]
      exact mul_le_mul_of_nonneg_right (abs_sub_le_abs_sub hn) hpow.le
    · -- the number has less than 53 bits before the last place, and `x` has at least as many
      have hm' : |(m : ℚ)| ≤ 2 ^ 53 := by exact_mod_cast hm.le
      have hsmall : (m : ℚ) * 2 ^ f ≤ 2 ^ 52 * 2 ^ e :=
        calc (m : ℚ) * 2 ^ f ≤ |(m : ℚ)| * 2 ^ f :=
              mul_le_mul_of_nonneg_right (le_abs_self _) (zpow_pos two_pos f).le
          _ ≤ 2 ^ 53 * 2 ^ (e - 1) :=
              mul_le_mul hm' (zpow_le_zpow_right₀ one_le_two (by omega)) (zpow_pos two_pos f).le
                (by positivity)
          _ = 2 ^ 52 * 2 ^ e := by
              rw [zpow_sub_one₀ two_ne_zero]
              ring
      have hlarge : (2 : ℚ) ^ 52 * 2 ^ e ≤ x * 2 ^ e := mul_le_mul_of_nonneg_right hx hpow.le
      have hnear := abs_sub_le_abs_sub (m := 2 ^ 52) hn
      rw [Int.cast_pow, Int.cast_ofNat] at hnear
      rw [hscale, abs_of_nonpos (by linarith : (m : ℚ) * 2 ^ f - x * 2 ^ e ≤ 0)]
      calc |(n : ℚ) - x| * 2 ^ e ≤ |2 ^ 52 - x| * 2 ^ e :=
            mul_le_mul_of_nonneg_right hnear hpow.le
        _ = (x - 2 ^ 52) * 2 ^ e := by rw [abs_of_nonpos (by linarith), neg_sub]
        _ ≤ -(m * 2 ^ f - x * 2 ^ e) := by linarith

/-- The mantissa is shifted to 53 bits. -/
lemma shiftToTargetExponent_of_le {m : ℕ} {e : ℤ} (accuracy : Accuracy) (hm : 2 ^ 52 ≤ m)
    (hlow : -1074 ≤ e + (m.log2 - 52 : ℕ)) :
    shiftToTargetExponent Format.binary64 m e accuracy =
      (ExtendedMantissa.ofMantissaAndAccuracy m accuracy >>> (m.log2 - 52),
        e + (m.log2 - 52 : ℕ)) := by
  have hlog : 52 ≤ m.log2 := (Nat.le_log2 (by omega)).mpr hm
  have htarget : Format.binary64.targetExponent (totalExponent m e) = e + (m.log2 - 52 : ℕ) := by
    change max ((m.log2 + 1 + e : ℤ) - (53 : ℕ)) (-1074) = _
    omega
  have hamount : (e + (m.log2 - 52 : ℕ) - e).toNat = m.log2 - 52 := by omega
  unfold shiftToTargetExponent shiftToExponent
  rw [htarget]
  dsimp only
  rw [hamount]

/-- A mantissa that is rounded up to 54 bits is shifted once more. -/
lemma exists_isNormal_of_le {n : ℕ} {e : ℤ} (hlow : 2 ^ 52 ≤ n) (hhigh : n ≤ 2 ^ 53)
    (he : -1074 ≤ e) (he' : e ≤ 970) :
    ∃ (m : ℕ) (e' : ℤ), IsNormal m e' ∧ e ≤ e' ∧ e' ≤ e + 1 ∧
      shiftToTargetExponent Format.binary64 n e .exact = (⟨m, false, false⟩, e') ∧
      (n : ℚ) * 2 ^ e = m * 2 ^ e' := by
  rcases Nat.lt_or_eq_of_le hhigh with hlt | rfl
  · have hnormal : IsNormal n e := ⟨hlow, hlt, he, by omega⟩
    have hshift := hnormal.shiftToTargetExponent_eq 0
    rw [pow_zero, mul_one, Nat.cast_zero, sub_zero] at hshift
    exact ⟨n, e, hnormal, le_refl e, by omega, hshift, rfl⟩
  · have hnormal : IsNormal (2 ^ 52) (e + 1) := ⟨le_refl _, by norm_num, by omega, by omega⟩
    have hshift := hnormal.shiftToTargetExponent_eq 1
    rw [Nat.cast_one, add_sub_cancel_right] at hshift
    refine ⟨2 ^ 52, e + 1, hnormal, by omega, le_refl _, hshift, ?_⟩
    rw [zpow_add_one₀ two_ne_zero]
    push_cast
    ring

/-- Rounding a number of at least 53 bits, in the range of the normal doubles, gives one of them. -/
lemma exists_roundWithAccuracy_eq (s : Sign) {m : ℕ} {e : ℤ} {accuracy : Accuracy} {x : ℚ}
    (hx : Approximates (ExtendedMantissa.ofMantissaAndAccuracy m accuracy) x) (hm : 2 ^ 52 ≤ m)
    (hlow : -1074 ≤ e + (m.log2 - 52 : ℕ)) (hhigh : e + (m.log2 - 52 : ℕ) ≤ 970) :
    ∃ (m' : ℕ) (e' : ℤ) (h : IsNormal m' e'),
      roundWithAccuracy Format.binary64 s m e accuracy = .finite s m' e' h.mantissa_pos ∧
      e + (m.log2 - 52 : ℕ) ≤ e' ∧ e' ≤ e + (m.log2 - 52 : ℕ) + 1 ∧
      IsRounding (m' * 2 ^ e') (x * 2 ^ e) := by
  have hne : m ≠ 0 := by omega
  have hlog : 52 ≤ m.log2 := (Nat.le_log2 hne).mpr hm
  let shift := m.log2 - 52
  let em := ExtendedMantissa.ofMantissaAndAccuracy m accuracy >>> shift
  have hem : Approximates em (x / 2 ^ shift) := hx.shiftRight shift
  -- after the shift the mantissa has 53 bits
  have hmantissa : em.mantissa = m / 2 ^ shift := by
    rw [mantissa_shiftRight, mantissa_ofMantissaAndAccuracy]
  have hle : 2 ^ 52 ≤ em.mantissa := by
    rw [hmantissa, Nat.le_div_iff_mul_le (Nat.two_pow_pos shift), ← pow_add,
      Nat.add_sub_cancel' hlog]
    exact Nat.log2_self_le hne
  have hlt : em.mantissa < 2 ^ 53 := by
    rw [hmantissa, Nat.div_lt_iff_lt_mul (Nat.two_pow_pos shift), ← pow_add]
    have hsum : 53 + shift = m.log2 + 1 := by omega
    rw [hsum]
    exact Nat.lt_log2_self
  have hround := hem.abs_roundedMantissa_sub_le
  have hxle : (2 : ℚ) ^ 52 ≤ x / 2 ^ shift := by
    refine le_trans ?_ hem.mantissa_le
    exact_mod_cast hle
  have hrlow : 2 ^ 52 ≤ em.roundedMantissa := by
    have hbound : (2 ^ 52 : ℚ) < em.roundedMantissa + 1 := by
      have := (abs_le.mp hround).1
      linarith
    have hbound' : 2 ^ 52 < em.roundedMantissa + 1 := by exact_mod_cast hbound
    omega
  have hrhigh : em.roundedMantissa ≤ 2 ^ 53 := (roundedMantissa_le em).trans hlt
  obtain ⟨m', e', hnormal, helow, hehigh, hshift, hvalue⟩ :=
    exists_isNormal_of_le hrlow hrhigh hlow hhigh
  refine ⟨m', e', hnormal, ?_, helow, hehigh, ?_⟩
  · rw [roundWithAccuracy_of_shift s (shiftToTargetExponent_of_le accuracy hm hlow) hshift]
    exact dif_neg (Nat.ne_of_gt hnormal.mantissa_pos)
  · have hx' : x * 2 ^ e = x / 2 ^ shift * 2 ^ (e + (shift : ℤ)) := by
      rw [zpow_add₀ two_ne_zero, zpow_natCast]
      field_simp
    rw [← hvalue, hx']
    exact isRounding_of_abs_sub_le (n := em.roundedMantissa) hxle hround _

end Double

/-! ### The value of a double -/

namespace Dyad

/-- A dyad is its signed mantissa times a power of two. -/
lemma toRat_eq (d : Dyad) : d.toRat = d.signed * 2 ^ d.exponent := by
  have hexponent : d.exponent = (d.exponent.toNat : ℤ) - ((-d.exponent).toNat : ℤ) :=
    (Int.toNat_sub_toNat_neg d.exponent).symm
  unfold toRat numerator denominator
  nth_rewrite 3 [hexponent]
  rw [zpow_sub₀ two_ne_zero, zpow_natCast, zpow_natCast, Nat.pow_eq, Nat.pow_eq]
  push_cast
  rw [mul_div_assoc]

/-- The floor of a dyad is that of its value. -/
lemma floor_eq (d : Dyad) : d.floor = ⌊d.toRat⌋ :=
  (Rat.floor_intCast_div_natCast d.numerator d.denominator).symm

/-- A dyad is an integer if its floor is its value. -/
lemma isInteger_iff (d : Dyad) : d.isInteger = true ↔ (d.floor : ℚ) = d.toRat := by
  have hpos : (0 : ℚ) < d.denominator := by
    exact_mod_cast Nat.two_pow_pos (-d.exponent).toNat
  have hsplit := Int.emod_add_mul_ediv d.numerator d.denominator
  unfold isInteger toRat floor
  rw [beq_iff_eq, eq_div_iff hpos.ne']
  constructor
  · intro hzero
    rw [hzero, zero_add] at hsplit
    rw [mul_comm]
    exact_mod_cast hsplit
  · intro heq
    have heq' : d.numerator / d.denominator * d.denominator = d.numerator := by exact_mod_cast heq
    rw [mul_comm] at heq'
    omega

end Dyad

namespace Double

open Float.Model Float.Model.UnpackedFloat

/-- A number with a sign. -/
def signed (s : Sign) (q : ℚ) : ℚ :=
  match s with
  | .negative => -q
  | .positive => q

/-- Signs are multiplied apart from the values. -/
lemma signed_mul (s t : Sign) (q r : ℚ) : signed (s * t) (q * r) = signed s q * signed t r := by
  cases s with
  | negative =>
    cases t with
    | negative => exact (neg_mul_neg q r).symm
    | positive => exact (neg_mul q r).symm
  | positive =>
    cases t with
    | negative => exact (mul_neg q r).symm
    | positive => rfl

/-- Signs are divided apart from the values. -/
lemma signed_div (s t : Sign) (q r : ℚ) : signed (s / t) (q / r) = signed s q / signed t r := by
  cases s with
  | negative =>
    cases t with
    | negative => exact (neg_div_neg_eq q r).symm
    | positive => exact (neg_div r q).symm
  | positive =>
    cases t with
    | negative => exact (div_neg q).symm
    | positive => rfl

/-- Rounding does not depend on the sign. -/
lemma IsRounding.signed {r q : ℚ} (h : IsRounding r q) (s : Sign) :
    IsRounding (signed s r) (signed s q) := by
  cases s with
  | positive => exact h
  | negative =>
    have herror : |(-r) - (-q)| = |r - q| := by rw [neg_sub_neg, abs_sub_comm]
    refine ⟨?_, fun n f hn => ?_⟩
    · change |(-r) - (-q)| ≤ |(-q)| / 2 ^ 53
      rw [herror, abs_neg]
      exact h.error_le
    · change |(-r) - (-q)| ≤ |n * 2 ^ f - (-q)|
      have hother : |n * 2 ^ f - (-q)| = |((-n : ℤ) : ℚ) * 2 ^ f - q| := by
        rw [← abs_neg]
        push_cast
        ring_nf
      rw [herror, hother]
      exact h.nearest (-n) f (by rwa [abs_neg])

/-- A finite double can be taken apart. -/
lemma exists_exact {x : Float} (h : nonFinite? x = none) :
    ∃ d, exact x = .ok d ∧ toRat x = d.toRat := by
  unfold nonFinite? at h
  cases hexact : exact x with
  | error reason =>
    rw [hexact] at h
    cases h
  | ok d => exact ⟨d, rfl, by rw [toRat, hexact]⟩

/-- A normal number is finite. -/
lemma IsNormal.nonFinite?_eq {m : ℕ} {e : ℤ} (h : IsNormal m e) (s : Sign) :
    nonFinite? (ofUnpacked (.finite s m e h.mantissa_pos)) = none :=
  nonFinite?_ofUnpacked (.finite h.exponent_le)

/-- The value of a normal double. -/
lemma IsNormal.toRat_eq {m : ℕ} {e : ℤ} (h : IsNormal m e) (s : Sign) :
    toRat (ofUnpacked (.finite s m e h.mantissa_pos)) = signed s (m * 2 ^ e) := by
  have ⟨hlem, hmlt, hle, hmax⟩ := h
  obtain ⟨d, hexact, hvalue⟩ := exists_exact (h.nonFinite?_eq s)
  have hbits := h.toNat_toBits s h.mantissa_pos
  obtain ⟨hnegative, hparts⟩ := exact_eq_ok hexact
  rw [hbits] at hnegative hparts
  have hsign : s.toBitVec.toNat = 0 ∨ s.toBitVec.toNat = 1 := by
    cases s with
    | negative => exact .inr rfl
    | positive => exact .inl rfl
  have hmantissa : d.mantissa = m := by omega
  have hexponent : d.exponent = e := by omega
  -- the sign is the first of the 64 bits
  rw [hvalue, d.toRat_eq, hexponent, Dyad.signed, hmantissa, hnegative]
  cases s with
  | negative =>
    have hlarge : 2 ^ 63 ≤ Sign.negative.toBitVec.toNat * 2 ^ 63 + (e + 1075).toNat * 2 ^ 52 +
        (m - 2 ^ 52) := by
      change 2 ^ 63 ≤ 1 * 2 ^ 63 + (e + 1075).toNat * 2 ^ 52 + (m - 2 ^ 52)
      omega
    rw [if_pos (decide_eq_true hlarge)]
    change ((-(m : ℤ) : ℤ) : ℚ) * 2 ^ e = -(m * 2 ^ e)
    push_cast
    ring
  | positive =>
    have hsmall : ¬2 ^ 63 ≤ Sign.positive.toBitVec.toNat * 2 ^ 63 + (e + 1075).toNat * 2 ^ 52 +
        (m - 2 ^ 52) := by
      change ¬2 ^ 63 ≤ 0 * 2 ^ 63 + (e + 1075).toNat * 2 ^ 52 + (m - 2 ^ 52)
      omega
    rw [if_neg (by rw [decide_eq_true_eq]; exact hsmall)]
    change ((m : ℤ) : ℚ) * 2 ^ e = m * 2 ^ e
    push_cast
    rfl

/-- A normal double with a given exponent. -/
def HasExponent (x : Float) (e : ℤ) : Prop :=
  ∃ (s : Sign) (m : ℕ) (h : IsNormal m e), x = ofUnpacked (.finite s m e h.mantissa_pos)

/-- A number with an exponent is finite. -/
lemma HasExponent.nonFinite? {x : Float} {e : ℤ} (h : HasExponent x e) :
    Double.nonFinite? x = none := by
  obtain ⟨s, m, hm, rfl⟩ := h
  exact hm.nonFinite?_eq s

/-- The product of two normal doubles is rounded. -/
theorem HasExponent.mul {x y : Float} {e f : ℤ} (hx : HasExponent x e) (hy : HasExponent y f)
    (hlow : -1074 ≤ e + f + 52) (hhigh : e + f + 53 ≤ 970) :
    (∃ g, e + f + 52 ≤ g ∧ g ≤ e + f + 54 ∧ HasExponent (x * y) g) ∧
      IsRounding (toRat (x * y)) (toRat x * toRat y) := by
  obtain ⟨s, m, hm, rfl⟩ := hx
  obtain ⟨t, n, hn, rfl⟩ := hy
  -- the product of the mantissas is exact, and it is rounded once
  have hmul : ofUnpacked (.finite s m e hm.mantissa_pos) *
      ofUnpacked (.finite t n f hn.mantissa_pos) =
      ofUnpacked (roundWithAccuracy Format.binary64 (s * t) (m * n) (e + f) .exact) := by
    change ofUnpacked (UnpackedFloat.mul Format.binary64
      (ofUnpacked (.finite s m e hm.mantissa_pos)).toModel.unpack
      (ofUnpacked (.finite t n f hn.mantissa_pos)).toModel.unpack) = _
    rw [hm.unpack_ofUnpacked, hn.unpack_ofUnpacked]
    rfl
  -- it has 105 or 106 digits
  have hlower : 2 ^ 52 * 2 ^ 52 ≤ m * n := Nat.mul_le_mul hm.le_mantissa hn.le_mantissa
  have hupper : m * n < 2 ^ 53 * 2 ^ 53 := Nat.mul_lt_mul'' hm.mantissa_lt hn.mantissa_lt
  have hne : m * n ≠ 0 := by omega
  have hlog : 104 ≤ (m * n).log2 := (Nat.le_log2 hne).mpr (by omega)
  have hlog' : (m * n).log2 < 106 := (Nat.log2_lt hne).mpr (by omega)
  obtain ⟨k, g, hk, hround, hglow, hghigh, hrounding⟩ :=
    exists_roundWithAccuracy_eq (s * t) (approximates_exact (m * n))
      (e := e + f) (by omega) (by omega) (by omega)
  rw [hmul, hround]
  refine ⟨⟨g, by omega, by omega, s * t, k, hk, rfl⟩, ?_⟩
  have hvalue : ((m * n : ℕ) : ℚ) * 2 ^ (e + f) = m * 2 ^ e * (n * 2 ^ f) := by
    rw [zpow_add₀ two_ne_zero]
    push_cast
    ring
  rw [hvalue] at hrounding
  rw [hk.toRat_eq, hm.toRat_eq, hn.toRat_eq, ← signed_mul]
  exact hrounding.signed (s * t)

/-- The quotient of two normal doubles is rounded. -/
theorem HasExponent.div {x y : Float} {e f : ℤ} (hx : HasExponent x e) (hy : HasExponent y f)
    (hlow : -1074 ≤ e - f - 53) (hhigh : e - f - 52 ≤ 970) :
    (∃ g, e - f - 53 ≤ g ∧ g ≤ e - f - 51 ∧ HasExponent (x / y) g) ∧
      IsRounding (toRat (x / y)) (toRat x / toRat y) := by
  obtain ⟨s, m, hm, rfl⟩ := hx
  obtain ⟨t, n, hn, rfl⟩ := hy
  have ⟨hmlow, hmhigh, _, _⟩ := hm
  have ⟨hnlow, hnhigh, _, _⟩ := hn
  -- the dividend is shifted by 53 digits, whatever the two mantissas are
  have htarget : min (e - f) (Format.binary64.targetExponent
      (totalExponent m e - totalExponent n f)) = e - f - 53 := by
    change min (e - f) (max ((m.log2 + 1 + e - (n.log2 + 1 + f) : ℤ) - (53 : ℕ)) (-1074)) = _
    rw [hm.log2_mantissa, hn.log2_mantissa]
    omega
  have hamount : (e - f - (e - f - 53)).toNat = 53 := by omega
  have hdiv : ofUnpacked (.finite s m e hm.mantissa_pos) /
      ofUnpacked (.finite t n f hn.mantissa_pos) =
      ofUnpacked (roundWithAccuracy Format.binary64 (s / t) (m * 2 ^ 53 / n) (e - f - 53)
        (accuracyOfFraction (m * 2 ^ 53 % n) n)) := by
    change ofUnpacked (UnpackedFloat.div Format.binary64
      (ofUnpacked (.finite s m e hm.mantissa_pos)).toModel.unpack
      (ofUnpacked (.finite t n f hn.mantissa_pos)).toModel.unpack) = _
    rw [hm.unpack_ofUnpacked, hn.unpack_ofUnpacked]
    let target := min (e - f) (Format.binary64.targetExponent
      (totalExponent m e - totalExponent n f))
    let shifted := m <<< (e - f - target).toNat
    change ofUnpacked (roundWithAccuracy Format.binary64 (s / t) (shifted / n) target
      (accuracyOfFraction (shifted % n) n)) = _
    have hshifted : shifted = m * 2 ^ 53 := by
      rw [← hamount, ← htarget]
      exact Nat.shiftLeft_eq _ _
    rw [hshifted, show target = e - f - 53 from htarget]
  -- so the quotient has 53 or 54 digits, and the remainder goes into the accuracy
  have hlower : 2 ^ 52 ≤ m * 2 ^ 53 / n := by
    rw [Nat.le_div_iff_mul_le hn.mantissa_pos]
    omega
  have hupper : m * 2 ^ 53 / n < 2 ^ 54 := by
    rw [Nat.div_lt_iff_lt_mul hn.mantissa_pos]
    omega
  have hne : m * 2 ^ 53 / n ≠ 0 := by omega
  have hlog : 52 ≤ (m * 2 ^ 53 / n).log2 := (Nat.le_log2 hne).mpr hlower
  have hlog' : (m * 2 ^ 53 / n).log2 < 54 := (Nat.log2_lt hne).mpr hupper
  obtain ⟨k, g, hk, hround, hglow, hghigh, hrounding⟩ :=
    exists_roundWithAccuracy_eq (s / t) (approximates_div (m * 2 ^ 53) hn.mantissa_pos)
      (e := e - f - 53) hlower (by omega) (by omega)
  rw [hdiv, hround]
  refine ⟨⟨g, by omega, by omega, s / t, k, hk, rfl⟩, ?_⟩
  -- shifting the dividend is taken back by the exponent
  have hn' : (n : ℚ) ≠ 0 := by exact_mod_cast hn.mantissa_pos.ne'
  have hvalue : ((m * 2 ^ 53 : ℕ) : ℚ) / n * 2 ^ (e - f - 53) = m * 2 ^ e / (n * 2 ^ f) := by
    have hpow : (2 : ℚ) ^ (53 : ℤ) = 2 ^ 53 := zpow_natCast 2 53
    have hf : (2 : ℚ) ^ f ≠ 0 := (zpow_pos two_pos f).ne'
    rw [zpow_sub₀ two_ne_zero, zpow_sub₀ two_ne_zero, hpow]
    push_cast
    field_simp
    norm_num
  rw [hvalue] at hrounding
  rw [hk.toRat_eq, hm.toRat_eq, hn.toRat_eq, ← signed_div]
  exact hrounding.signed (s / t)

/-- An integer other than zero, below `2 ^ 53`, is a normal double. -/
lemma hasExponent_ofInt {n : ℤ} (hzero : n ≠ 0) (hn : n.natAbs < 2 ^ 53) :
    (∃ e, -52 ≤ e ∧ e ≤ 0 ∧ HasExponent (Float.ofInt n) e) ∧ toRat (Float.ofInt n) = n := by
  have hnormal := isNormal_shifted (Int.natAbs_ne_zero.mpr hzero) hn
  have heq := hnormal.ofInt_eq rfl rfl
  refine ⟨⟨_, by omega, by omega, _, _, hnormal, heq⟩, ?_⟩
  have habs : ((n.natAbs * 2 ^ (52 - n.natAbs.log2) : ℕ) : ℚ) *
      2 ^ (-(52 - n.natAbs.log2 : ℕ) : ℤ) = n.natAbs := by
    rw [zpow_neg, zpow_natCast]
    push_cast
    field_simp
  rw [heq, hnormal.toRat_eq, habs]
  split
  · rename_i hneg
    change -((n.natAbs : ℕ) : ℚ) = n
    rw [Nat.cast_natAbs, Int.cast_abs, abs_of_neg (by exact_mod_cast hneg), neg_neg]
  · rename_i hneg
    change ((n.natAbs : ℕ) : ℚ) = n
    rw [Nat.cast_natAbs, Int.cast_abs, abs_of_nonneg (by exact_mod_cast Int.not_lt.mp hneg)]

/-- Zero has the value zero. -/
lemma toRat_zero : toRat 0 = 0 := by
  decide +kernel

/-- An integer of at most fifty-three digits keeps its value. -/
lemma toRat_ofInt {n : ℤ} (hn : n.natAbs < 2 ^ 53) : toRat (Float.ofInt n) = n := by
  by_cases hzero : n = 0
  · rw [hzero]
    exact toRat_zero
  · exact (hasExponent_ofInt hzero hn).2

/-! ### Floors -/

/-- A double that is an integer of moderate size stands for it. -/
lemma integerBelow?_eq_some {x : Float} {n : ℤ} (hfinite : nonFinite? x = none)
    (hvalue : toRat x = n) (hn : n.natAbs < 2 ^ 53) :
    integerBelow? Json.integerLimit x = some n := by
  obtain ⟨d, hexact, hd⟩ := exists_exact hfinite
  have hfloor : d.floor = n := by
    rw [d.floor_eq, ← hd, hvalue, Int.floor_intCast]
  have hint : d.isInteger = true := by
    rw [d.isInteger_iff, hfloor, ← hd, hvalue]
  have hlimit : d.floor.natAbs < Json.integerLimit := by rwa [hfloor]
  rw [← hfloor]
  simp only [integerBelow?, hexact, hint, hlimit, decide_true, Bool.and_self, if_true]

/-- The floor of a double of moderate size is its floor in exact arithmetic. -/
theorem floor_eq_of_toRat {x : Float} (hfinite : nonFinite? x = none)
    (hn : ⌊toRat x⌋.natAbs < 2 ^ 53) :
    nonFinite? (floor x) = none ∧ integerBelow? Json.integerLimit (floor x) = some ⌊toRat x⌋ := by
  obtain ⟨d, hexact, hd⟩ := exists_exact hfinite
  have hfloor : d.floor = ⌊toRat x⌋ := by rw [d.floor_eq, hd]
  unfold floor
  simp only [hexact]
  split
  · rename_i hint
    refine ⟨hfinite, integerBelow?_eq_some hfinite ?_ hn⟩
    rw [← hfloor, (d.isInteger_iff.mp hint), hd]
  · have hfinite' : nonFinite? (Float.ofInt ⌊toRat x⌋) = none := nonFinite?_ofInt (by omega)
    rw [hfloor]
    exact ⟨hfinite', integerBelow?_eq_some hfinite' (toRat_ofInt hn) hn⟩

end Double

end SheetRules
