import SheetRules.Proofs.Number.Rounding
import SheetRules.Proofs.Number.TotalOrder

/-!
# Sums and products of doubles

The sum and the product of two finite doubles are what the exact result is rounded to
(`roundsTo_add`, `roundsTo_mul`).  Unlike in the theory of normal doubles nothing is assumed about
exponents: the result may overflow, be subnormal or be zero.
-/

namespace SheetRules

namespace Double

open Float.Model Float.Model.UnpackedFloat

/-! ### Finite doubles, packed and unpacked -/

/-- A finite number of a given sign, unpacked. -/
inductive IsFiniteOf (s : Sign) : UnpackedFloat → Prop
  | zero : IsFiniteOf s (.zero s)
  | finite {m : ℕ} {e : ℤ} (h : IsCanonical m e) : IsFiniteOf s (.finite s m e h.mantissa_pos)

/-- The exact value of an unpacked double; what is no number counts as zero. -/
def unpackedValue : UnpackedFloat → ℚ
  | .finite s m e _ => signed s (m * 2 ^ e)
  | _ => 0

/-- Both zeros have the value zero. -/
lemma unpackedValue_zero (s : Sign) : unpackedValue (.zero s) = 0 := rfl

/-- A finite number has the value of its parts, with its sign. -/
lemma unpackedValue_finite (s : Sign) {m : ℕ} (e : ℤ) (hm : 0 < m) :
    unpackedValue (.finite s m e hm) = signed s (m * 2 ^ e) := rfl

variable {s t : Sign} {u v : UnpackedFloat} {x y : Float}

/-- The bit pattern of a finite number that is not zero. -/
lemma IsCanonical.toNat_toBits {m : ℕ} {e : ℤ} (h : IsCanonical m e) (s : Sign) :
    (ofUnpacked (.finite s m e h.mantissa_pos)).toBits.toNat =
      s.toBitVec.toNat * 2 ^ 63 + sizeOfParts m e := by
  have ⟨hpos, hlt, hlow, hhigh, hnormal⟩ := h
  by_cases hm : 2 ^ 52 ≤ m
  · rw [IsNormal.toNat_toBits ⟨hm, hlt, hlow, hhigh⟩, sizeOfParts]
    omega
  · -- the leading bit is missing, so the exponent is packed as zero
    obtain rfl : e = -1074 := hnormal.resolve_left hm
    have hlog : m.log2 < 52 := (Nat.log2_lt hpos.ne').mpr (by omega)
    have hpack : UnpackedFloat.pack Format.binary64 (.finite s m (-1074) h.mantissa_pos) =
        packComponents Format.binary64 s 0#11 (BitVec.ofNat 52 m) := by
      have hbits : ¬m.log2 + 1 = 1 + 52 := by omega
      exact if_neg hbits
    change (UnpackedFloat.pack Format.binary64 (.finite s m (-1074) h.mantissa_pos)).toNat = _
    rw [hpack, toNat_packComponents, BitVec.toNat_ofNat, BitVec.toNat_ofNat, sizeOfParts]
    omega

namespace IsFiniteOf

/-- A finite number has a size below that of infinity, which is in its bits with the sign. -/
lemma hasSize (h : IsFiniteOf s u) : ∃ a < 2047 * 2 ^ 52, HasSize s a u ∧
    (ofUnpacked u).toBits.toNat = s.toBitVec.toNat * 2 ^ 63 + a := by
  cases h with
  | zero => exact ⟨0, by decide, .zero, by cases s <;> decide +kernel⟩
  | finite h => exact ⟨_, h.size_lt_infinity, .finite h, h.toNat_toBits s⟩

/-- The parts of a finite number are bounded. -/
lemma isBounded (h : IsFiniteOf s u) : IsBounded u := by
  cases h with
  | zero => exact .zero s
  | finite h => exact .finite h.exponent_le

/-- A finite number is finite when it is packed. -/
lemma nonFinite? (h : IsFiniteOf s u) : Double.nonFinite? (ofUnpacked u) = none :=
  nonFinite?_ofUnpacked h.isBounded

/-- A finite number keeps its sign when it is packed. -/
lemma sign_eq (h : IsFiniteOf s u) : sign (ofUnpacked u) = s := by
  obtain ⟨a, ha, -, hbits⟩ := h.hasSize
  unfold sign
  rw [hbits]
  cases s with
  | negative => exact if_neg (by change ¬1 * 2 ^ 63 + a < 2 ^ 63; omega)
  | positive => exact if_pos (by change 0 * 2 ^ 63 + a < 2 ^ 63; omega)

end IsFiniteOf

/-- Numbers of the same sign and size are the same. -/
lemma HasSize.eq_of_size_eq {a b : ℕ} (hu : HasSize s a u) (hv : HasSize s b v) (h : a = b) :
    u = v := by
  cases hu with
  | zero =>
    cases hv with
    | zero => rfl
    | finite hv => exact absurd h hv.size_pos.ne
    | infinity => exact absurd h (by decide)
  | finite hu =>
    cases hv with
    | zero => exact absurd h hu.size_pos.ne'
    | finite hv =>
      have hlt := hu.size_lt_size_iff hv
      have hgt := hv.size_lt_size_iff hu
      simp only [h, lt_self_iff_false, false_iff] at hlt hgt
      exact finite_eq_finite rfl (by omega) (by omega)
    | infinity => exact absurd h hu.size_lt_infinity.ne
  | infinity =>
    cases hv with
    | zero => exact absurd h (by decide)
    | finite hv => exact absurd h hv.size_lt_infinity.ne'
    | infinity => rfl

/-- A finite double is unpacked to a number of its sign and size. -/
lemma hasSize_unpack (h : nonFinite? x = none) : HasSize (sign x) (size x) x.toModel.unpack := by
  have hbounded := isBounded_unpack h
  rcases unpack_cases x with ⟨hnan, -⟩ | hsize
  · rw [hnan] at hbounded
    cases hbounded
  · exact hsize

/-- A finite number is finite when it is unpacked. -/
lemma isFiniteOf_unpack (h : nonFinite? x = none) : IsFiniteOf (sign x) x.toModel.unpack := by
  have hbounded := isBounded_unpack h
  have hsize := hasSize_unpack h
  generalize x.toModel.unpack = u at hbounded hsize
  generalize size x = a at hsize
  cases hsize with
  | zero => exact .zero
  | finite h => exact .finite h
  | infinity => cases hbounded

/-- A number is unpacked to what it was packed from. -/
lemma IsFiniteOf.unpack_ofUnpacked (h : IsFiniteOf s u) : (ofUnpacked u).toModel.unpack = u := by
  obtain ⟨a, ha, hsize, hbits⟩ := h.hasSize
  have hsize' : size (ofUnpacked u) = a := by
    unfold size
    rw [hbits]
    omega
  have hunpack := hasSize_unpack h.nonFinite?
  rw [h.sign_eq] at hunpack
  exact hunpack.eq_of_size_eq hsize hsize'

/-- The exact reading of a double has its sign. -/
lemma toRat_eq_signed {d : Dyad} (h : exact x = .ok d) :
    d.toRat = signed (sign x) (d.mantissa * 2 ^ d.exponent) := by
  rw [d.toRat_eq, Dyad.signed, (exact_eq_ok h).1]
  unfold sign
  by_cases hsign : x.toBits.toNat < 2 ^ 63
  · rw [if_pos hsign, if_neg (by simpa using hsign)]
    rfl
  · rw [if_neg hsign, if_pos (by simpa using hsign)]
    change ((-(d.mantissa : ℤ) : ℤ) : ℚ) * 2 ^ d.exponent = -(d.mantissa * 2 ^ d.exponent)
    push_cast
    ring

/-- The value of a finite double is that of its parts. -/
lemma toRat_eq_unpackedValue (h : nonFinite? x = none) :
    toRat x = unpackedValue x.toModel.unpack := by
  obtain ⟨d, hexact, hvalue⟩ := exists_exact h
  obtain ⟨-, hparts⟩ := exact_eq_ok hexact
  have hbound : x.toBits.toNat < 2 ^ 64 := x.toBits.toNat_lt
  have hunsigned : size x = x.toBits.toNat % 2 ^ 63 := rfl
  have hsize := hasSize_unpack h
  rw [hvalue, toRat_eq_signed hexact]
  generalize size x = a at hsize hunsigned
  generalize x.toModel.unpack = u at hsize
  cases hsize with
  | zero =>
    have hzero : d.mantissa = 0 := by omega
    rw [hzero, Nat.cast_zero, zero_mul]
    cases sign x <;> simp [signed, unpackedValue_zero]
  | @finite m e hcanonical =>
    obtain ⟨hpos, hlt, hlow, hhigh, hnormal⟩ := hcanonical
    unfold sizeOfParts at hunsigned
    have hmantissa : d.mantissa = m := by omega
    have hexponent : d.exponent = e := by omega
    rw [hmantissa, hexponent]
    rfl
  | infinity =>
    rw [nonFinite?_eq_none_iff] at h
    omega

/-- Packing a finite number keeps its value. -/
lemma IsFiniteOf.toRat_eq (h : IsFiniteOf s u) : toRat (ofUnpacked u) = unpackedValue u := by
  rw [toRat_eq_unpackedValue h.nonFinite?, h.unpack_ofUnpacked]

/-- A number that is too large for a double is packed to infinity. -/
lemma nonFinite?_of_exponent {m : ℕ} {e : ℤ} (s : Sign) (hm : 0 < m) (he : 972 ≤ e) :
    nonFinite? (ofUnpacked (.finite s m e hm)) ≠ none := by
  have hpack : UnpackedFloat.pack Format.binary64 (.finite s m e hm) =
      packedInfinity Format.binary64 s := by
    have hbiased : 2 ^ 11 ≤ (e + (1023 : ℕ) + (52 : ℕ)).toNat + 1 := by omega
    exact if_pos hbiased
  have hinfinity : ofUnpacked (.finite s m e hm) = ofUnpacked (.infinity s) :=
    eq_of_toBits_eq (congrArg BitVec.toNat hpack)
  rw [hinfinity]
  cases s <;> decide +kernel

/-! ### Signs -/

/-- A sign does not change the absolute value. -/
lemma abs_signed (s : Sign) (q : ℚ) : |signed s q| = |q| := by
  cases s with
  | negative => exact abs_neg q
  | positive => rfl

/-- The same sign on both does not change the distance. -/
lemma abs_signed_sub (s : Sign) (q r : ℚ) : |signed s q - signed s r| = |q - r| := by
  cases s with
  | negative =>
    change |(-q) - (-r)| = |q - r|
    rw [neg_sub_neg, abs_sub_comm]
  | positive => rfl

/-! ### Rounding to the last place -/

/-- The exponent of the last place of the doubles near `m * 2 ^ e`. -/
def lastPlace (m : ℕ) (e : ℤ) : ℤ :=
  max (m.log2 + e - 52) (-1074)

/-- The exponent to which a number is rounded is that of its last place. -/
lemma targetExponent_eq_lastPlace (m : ℕ) (e : ℤ) :
    Format.binary64.targetExponent (totalExponent m e) = lastPlace m e := by
  change max ((m.log2 + 1 + e : ℤ) - (53 : ℕ)) (-1074) = _
  unfold lastPlace
  omega

/-- A mantissa is shifted up to the last place, and never the other way. -/
lemma shiftToTargetExponent_eq (m : ℕ) (e : ℤ) :
    shiftToTargetExponent Format.binary64 m e .exact =
      ((⟨m, false, false⟩ : ExtendedMantissa) >>> (lastPlace m e - e).toNat,
        e + (lastPlace m e - e).toNat) := by
  rw [← targetExponent_eq_lastPlace]
  rfl

/-- A mantissa of up to 53 bits is shifted by one place if it is rounded up to 54 bits, and else
not at all. -/
lemma exists_shiftToTargetExponent {n : ℕ} {t : ℤ} (hn : n ≤ 2 ^ 53) (ht : -1074 ≤ t)
    (hnormal : 2 ^ 52 ≤ n ∨ t = -1074) :
    ∃ (m : ℕ) (e : ℤ), shiftToTargetExponent Format.binary64 n t .exact = (⟨m, false, false⟩, e) ∧
      m < 2 ^ 53 ∧ -1074 ≤ e ∧ (2 ^ 52 ≤ m ∨ e = -1074) ∧ (n : ℚ) * 2 ^ t = m * 2 ^ e := by
  rcases Nat.lt_or_eq_of_le hn with hlt | rfl
  · have hlog : n.log2 ≤ 52 := by
      by_cases hzero : n = 0
      · rw [hzero, Nat.log2_zero]
        decide
      · exact Nat.le_of_lt_succ ((Nat.log2_lt hzero).mpr hlt)
    have hamount : (lastPlace n t - t).toNat = 0 := by
      unfold lastPlace
      omega
    refine ⟨n, t, ?_, hlt, ht, hnormal, rfl⟩
    rw [shiftToTargetExponent_eq, hamount, Nat.cast_zero, add_zero]
    rfl
  · have hamount : (lastPlace (2 ^ 53) t - t).toNat = 1 := by
      unfold lastPlace
      rw [Nat.log2_two_pow]
      omega
    refine ⟨2 ^ 52, t + 1, ?_, by norm_num, by omega, .inl (le_refl _), ?_⟩
    · rw [shiftToTargetExponent_eq, hamount]
      rfl
    · rw [zpow_add_one₀ two_ne_zero]
      push_cast
      ring

/-- A mantissa of up to 53 bits is a number of that value, unless it is too large. -/
lemma packed_cases {m : ℕ} {e : ℤ} (s : Sign) (hm : m < 2 ^ 53) (he : -1074 ≤ e)
    (hnormal : 2 ^ 52 ≤ m ∨ e = -1074) :
    let r : UnpackedFloat := if h : m = 0 then .zero s else .finite s m e (Nat.pos_of_ne_zero h)
    ((m : ℚ) * 2 ^ e < 2 ^ 1024 → IsFiniteOf s r ∧ unpackedValue r = signed s (m * 2 ^ e)) ∧
      ((2 : ℚ) ^ 1024 ≤ m * 2 ^ e → nonFinite? (ofUnpacked r) ≠ none) := by
  intro r
  by_cases hzero : m = 0
  · have hr : r = .zero s := dif_pos hzero
    rw [hr, hzero, Nat.cast_zero, zero_mul]
    refine ⟨fun _ => ⟨.zero, ?_⟩, fun hlarge => absurd hlarge (by norm_num)⟩
    cases s <;> simp [signed, unpackedValue_zero]
  · have hpos : 0 < m := Nat.pos_of_ne_zero hzero
    have hr : r = .finite s m e hpos := dif_neg hzero
    rw [hr]
    constructor
    · intro hsmall
      -- the exponent is bounded because the mantissa is large
      have hle : e ≤ 971 := by
        rcases hnormal with hlarge | rfl
        · have hlarge' : (2 : ℚ) ^ 52 ≤ m := by exact_mod_cast hlarge
          have hpow : (2 : ℚ) ^ (52 + e) < 2 ^ (1024 : ℤ) := by
            rw [zpow_add₀ two_ne_zero]
            refine lt_of_le_of_lt ?_ hsmall
            exact mul_le_mul_of_nonneg_right hlarge' (zpow_pos two_pos e).le
          have := (zpow_lt_zpow_iff_right₀ one_lt_two).mp hpow
          omega
        · decide
      exact ⟨.finite ⟨hpos, hm, he, hle, hnormal⟩, rfl⟩
    · intro hlarge
      refine nonFinite?_of_exponent s hpos ?_
      have hm' : (m : ℚ) < 2 ^ 53 := by exact_mod_cast hm
      have hpow : (2 : ℚ) ^ (1024 : ℤ) < 2 ^ (53 + e) := by
        rw [zpow_add₀ two_ne_zero]
        refine lt_of_le_of_lt hlarge ?_
        exact mul_lt_mul_of_pos_right hm' (zpow_pos two_pos e)
      have := (zpow_lt_zpow_iff_right₀ one_lt_two).mp hpow
      omega

/-- A number has 53 bits before the end of its last place, unless that is the least one. -/
lemma lastPlace_cases {m : ℕ} (hm : 0 < m) (e : ℤ) :
    lastPlace m e = -1074 ∨ (2 : ℚ) ^ 52 * 2 ^ lastPlace m e ≤ m * 2 ^ e := by
  by_cases hlow : (m.log2 + e - 52 : ℤ) ≤ -1074
  · exact .inl (max_eq_right hlow)
  · have hplace : lastPlace m e = m.log2 + e - 52 := max_eq_left (by omega)
    have hlog : (2 : ℚ) ^ m.log2 ≤ m := by exact_mod_cast Nat.log2_self_le hm.ne'
    right
    calc (2 : ℚ) ^ 52 * 2 ^ lastPlace m e = 2 ^ (52 + lastPlace m e) := by
          rw [zpow_add₀ two_ne_zero]
          norm_num
      _ = 2 ^ m.log2 * 2 ^ e := by
          rw [hplace, ← zpow_natCast, ← zpow_add₀ two_ne_zero]
          congr 1
          omega
      _ ≤ m * 2 ^ e := mul_le_mul_of_nonneg_right hlog (zpow_pos two_pos e).le

/-- Below the largest exponent the last place is within the format. -/
lemma lastPlace_le_of_lt {m : ℕ} {e : ℤ} (hm : 0 < m) (h : (m : ℚ) * 2 ^ e < 2 ^ 1024) :
    lastPlace m e ≤ 971 := by
  rcases lastPlace_cases hm e with hplace | hlarge
  · rw [hplace]
    decide
  · have hpow : (2 : ℚ) ^ (52 + lastPlace m e) < 2 ^ (1024 : ℤ) := by
      refine lt_of_le_of_lt (le_trans (le_of_eq ?_) hlarge) h
      rw [zpow_add₀ two_ne_zero]
      norm_num
    have := (zpow_lt_zpow_iff_right₀ one_lt_two).mp hpow
    omega

/-- A mantissa is shifted to at most 53 bits and rounded to the nearest integer. -/
lemma roundedMantissa_shiftRight {m k : ℕ} (hm : m < 2 ^ (53 + k)) :
    |(((⟨m, false, false⟩ : ExtendedMantissa) >>> k).roundedMantissa : ℚ) - m / 2 ^ k| ≤ 1 / 2 ∧
      ((⟨m, false, false⟩ : ExtendedMantissa) >>> k).roundedMantissa ≤ 2 ^ 53 ∧
      ((2 : ℚ) ^ 52 ≤ m / 2 ^ k →
        2 ^ 52 ≤ ((⟨m, false, false⟩ : ExtendedMantissa) >>> k).roundedMantissa) := by
  have hround := ((approximates_exact m).shiftRight k).abs_roundedMantissa_sub_le
  change |(((⟨m, false, false⟩ : ExtendedMantissa) >>> k).roundedMantissa : ℚ) - m / 2 ^ k| ≤ 1 / 2
    at hround
  have hmantissa : ((⟨m, false, false⟩ : ExtendedMantissa) >>> k).mantissa < 2 ^ 53 := by
    rw [mantissa_shiftRight, Nat.div_lt_iff_lt_mul (Nat.two_pow_pos k), ← pow_add]
    exact hm
  refine ⟨hround, (roundedMantissa_le _).trans hmantissa, fun hlarge => ?_⟩
  generalize ((⟨m, false, false⟩ : ExtendedMantissa) >>> k).roundedMantissa = n at hround
  have hbound : (2 ^ 52 : ℚ) < n + 1 := by
    have := (abs_le.mp hround).1
    linarith
  have hbound' : 2 ^ 52 < n + 1 := by exact_mod_cast hbound
  omega

/-- Rounding goes to the nearest multiple of the last place. -/
lemma exists_nearest (s : Sign) {m : ℕ} {e : ℤ} (hm : 0 < m) (hle : e ≤ lastPlace m e) :
    ∃ n : ℕ, |(n : ℚ) * 2 ^ lastPlace m e - m * 2 ^ e| ≤ 2 ^ lastPlace m e / 2 ∧
      ((n : ℚ) * 2 ^ lastPlace m e < 2 ^ 1024 →
        IsFiniteOf s (roundWithAccuracy Format.binary64 s m e .exact) ∧
          unpackedValue (roundWithAccuracy Format.binary64 s m e .exact) =
            signed s (n * 2 ^ lastPlace m e)) ∧
      ((2 : ℚ) ^ 1024 ≤ n * 2 ^ lastPlace m e →
        nonFinite? (ofUnpacked (roundWithAccuracy Format.binary64 s m e .exact)) ≠ none) := by
  obtain ⟨k, hk⟩ := Int.eq_ofNat_of_zero_le (sub_nonneg.mpr hle)
  let em := (⟨m, false, false⟩ : ExtendedMantissa) >>> k
  have hplace : e + k = lastPlace m e := by omega
  have hshift : shiftToTargetExponent Format.binary64 m e .exact = (em, lastPlace m e) := by
    rw [shiftToTargetExponent_eq, hk, Int.toNat_natCast, hplace]
  have hplaces := lastPlace_cases hm e
  have hmin : -1074 ≤ lastPlace m e := le_max_right _ _
  have hlog : m.log2 + e - 52 ≤ lastPlace m e := le_max_left _ _
  generalize lastPlace m e = t at hplace hshift hplaces hmin hlog ⊢
  have hpow : (0 : ℚ) < 2 ^ t := zpow_pos two_pos t
  -- the number in units of the last place
  have hunits : (m : ℚ) * 2 ^ e = m / 2 ^ k * 2 ^ t := by
    rw [← hplace, zpow_add₀ two_ne_zero, zpow_natCast]
    field_simp
  have hbits : m < 2 ^ (53 + k) :=
    lt_of_lt_of_le Nat.lt_log2_self (Nat.pow_le_pow_right two_pos (by omega))
  obtain ⟨hround, hhigh, hlow⟩ := roundedMantissa_shiftRight hbits
  have hnormal : 2 ^ 52 ≤ em.roundedMantissa ∨ t = -1074 := by
    refine hplaces.symm.imp_left fun hlarge => hlow ?_
    rw [hunits] at hlarge
    exact le_of_mul_le_mul_right hlarge hpow
  obtain ⟨m', e', hshift', hm', he', hnormal', hvalue⟩ :=
    exists_shiftToTargetExponent hhigh hmin hnormal
  refine ⟨em.roundedMantissa, ?_, ?_⟩
  · rw [hunits, ← sub_mul, abs_mul, abs_of_pos hpow, div_eq_mul_one_div (2 ^ t) (2 : ℚ),
      mul_comm (2 ^ t) (1 / 2 : ℚ)]
    exact mul_le_mul_of_nonneg_right hround hpow.le
  · rw [roundWithAccuracy_of_shift s hshift hshift', hvalue]
    exact packed_cases s hm' he' hnormal'

/-! ### What a number is rounded to -/

/-- The number is the value of a finite double. -/
def IsDouble (q : ℚ) : Prop :=
  ∃ x, nonFinite? x = none ∧ toRat x = q

/-- The least number that is rounded to infinity: it lies half a unit in the last place above the
largest double. -/
def overflow : ℚ := 2 ^ 1024 - 2 ^ 970

/-- The double that a number is rounded to.  A number that is the value of a double is kept, one
that is not too large becomes a finite double, and this is at most half a unit in the last place
away. -/
structure RoundsTo (q : ℚ) (x : Float) : Prop where
  exact : IsDouble q → nonFinite? x = none ∧ toRat x = q
  finite : |q| < overflow → nonFinite? x = none
  error_le : nonFinite? x = none → |toRat x - q| ≤ max (|q| / 2 ^ 53) (2 ^ (-1075 : ℤ))

/-- A double is rounded to itself. -/
lemma roundsTo_toRat (h : nonFinite? x = none) : RoundsTo (toRat x) x := by
  refine ⟨fun _ => ⟨h, rfl⟩, fun _ => h, fun _ => ?_⟩
  rw [sub_self, abs_zero]
  exact le_max_of_le_right (zpow_pos two_pos _).le

/-- The value of a double has 53 bits. -/
lemma IsDouble.exists_parts {q : ℚ} (h : IsDouble q) :
    ∃ (n : ℕ) (f : ℤ), n < 2 ^ 53 ∧ -1074 ≤ f ∧ f ≤ 971 ∧ |q| = n * 2 ^ f := by
  obtain ⟨x, hfinite, rfl⟩ := h
  rw [toRat_eq_unpackedValue hfinite]
  have hnumber := isFiniteOf_unpack hfinite
  generalize x.toModel.unpack = u at hnumber
  cases hnumber with
  | zero => exact ⟨0, 0, by decide, by decide, by decide, by simp [unpackedValue_zero]⟩
  | @finite m e h =>
    refine ⟨m, e, h.mantissa_lt, h.le_exponent, h.exponent_le, ?_⟩
    rw [unpackedValue_finite, abs_signed, abs_of_nonneg]
    positivity

/-- A number that is the value of a double is a multiple of its last place. -/
lemma IsDouble.exists_mul_lastPlace {s : Sign} {m : ℕ} {e : ℤ} (hm : 0 < m)
    (h : IsDouble (signed s (m * 2 ^ e))) :
    ∃ n : ℕ, (m : ℚ) * 2 ^ e = n * 2 ^ lastPlace m e ∧ (m : ℚ) * 2 ^ e < 2 ^ 1024 := by
  obtain ⟨n, f, hn, hlow, hhigh, hvalue⟩ := h.exists_parts
  rw [abs_signed, abs_of_nonneg (by positivity)] at hvalue
  have hn' : (n : ℚ) < 2 ^ 53 := by exact_mod_cast hn
  have hsize : (m : ℚ) * 2 ^ e < 2 ^ (53 + f) := by
    rw [hvalue, zpow_add₀ two_ne_zero]
    exact mul_lt_mul_of_pos_right hn' (zpow_pos two_pos f)
  have hle : lastPlace m e ≤ f := by
    rcases lastPlace_cases hm e with hplace | hlarge
    · rw [hplace]
      exact hlow
    · have hpow : (2 : ℚ) ^ (52 + lastPlace m e) < 2 ^ (53 + f) := by
        refine lt_of_le_of_lt (le_trans (le_of_eq ?_) hlarge) hsize
        rw [zpow_add₀ two_ne_zero]
        norm_num
      have := (zpow_lt_zpow_iff_right₀ one_lt_two).mp hpow
      omega
  obtain ⟨k, hk⟩ := Int.eq_ofNat_of_zero_le (sub_nonneg.mpr hle)
  refine ⟨n * 2 ^ k, ?_, ?_⟩
  · have hsplit : (2 : ℚ) ^ f = 2 ^ k * 2 ^ lastPlace m e := by
      rw [← zpow_natCast, ← hk, ← zpow_add₀ two_ne_zero, sub_add_cancel]
    rw [hvalue, hsplit]
    push_cast
    ring
  · refine lt_of_lt_of_le hsize ?_
    exact zpow_le_zpow_right₀ (m := 53 + f) (n := 1024) one_le_two (by omega)

/-- Rounding gives what the number is rounded to. -/
theorem roundsTo_roundWithAccuracy (s : Sign) {m : ℕ} {e : ℤ} (hm : 0 < m)
    (hle : e ≤ lastPlace m e) :
    RoundsTo (signed s (m * 2 ^ e))
      (ofUnpacked (roundWithAccuracy Format.binary64 s m e .exact)) := by
  obtain ⟨n, hnear, hfinite, hinfinite⟩ := exists_nearest s hm hle
  have hpow : (0 : ℚ) < 2 ^ lastPlace m e := zpow_pos two_pos _
  refine ⟨fun hdouble => ?_, fun hsmall => ?_, fun hnumber => ?_⟩
  · -- a double is a whole number of last places, and no other is within one half of it
    obtain ⟨k, hvalue, hsize⟩ := hdouble.exists_mul_lastPlace hm
    have hkn : n = k := by
      rw [hvalue, ← sub_mul, abs_mul, abs_of_pos hpow, ← one_div_mul_eq_div] at hnear
      have hhalf := le_of_mul_le_mul_right hnear hpow
      have hlt : |((n - k : ℤ) : ℚ)| < 1 := by
        push_cast
        linarith
      have hzero := Int.abs_lt_one_iff.mp (by exact_mod_cast hlt : |(n - k : ℤ)| < 1)
      omega
    rw [hkn, ← hvalue] at hfinite
    obtain ⟨hnumber, hresult⟩ := hfinite hsize
    exact ⟨hnumber.nonFinite?, by rw [hnumber.toRat_eq, hresult]⟩
  · -- half of a last place is too little to reach the overflow
    rw [abs_signed, abs_of_nonneg (by positivity)] at hsmall
    have hplace := lastPlace_le_of_lt hm (hsmall.trans (sub_lt_self _ (by positivity)))
    have hhalf : (2 : ℚ) ^ lastPlace m e / 2 ≤ 2 ^ (970 : ℤ) := by
      rw [div_eq_mul_inv, ← zpow_sub_one₀ two_ne_zero]
      exact zpow_le_zpow_right₀ one_le_two (by omega)
    have habove : (n : ℚ) * 2 ^ lastPlace m e ≤ m * 2 ^ e + 2 ^ (970 : ℤ) :=
      sub_le_iff_le_add'.mp ((abs_le.mp hnear).2.trans hhalf)
    exact (hfinite (lt_of_le_of_lt habove (lt_sub_iff_add_lt.mp hsmall))).1.nonFinite?
  · have hsize : (n : ℚ) * 2 ^ lastPlace m e < 2 ^ 1024 := by
      by_contra hlarge
      exact hinfinite (not_lt.mp hlarge) hnumber
    obtain ⟨hresult, hvalue⟩ := hfinite hsize
    rw [hresult.toRat_eq, hvalue, abs_signed_sub, abs_signed]
    refine hnear.trans ?_
    -- the error is half of a last place, which is the smallest one or a small part of the value
    rcases lastPlace_cases hm e with hplace | hlarge
    · refine le_max_of_le_right (le_of_eq ?_)
      rw [hplace, div_eq_mul_inv, ← zpow_sub_one₀ two_ne_zero]
      rfl
    · refine le_max_of_le_left ?_
      have hle : (2 : ℚ) ^ 52 * 2 ^ lastPlace m e ≤ |(m : ℚ) * 2 ^ e| :=
        hlarge.trans (le_abs_self _)
      linarith

/-- A number is rounded to itself when it is packed. -/
lemma IsFiniteOf.roundsTo (h : IsFiniteOf s u) : RoundsTo (unpackedValue u) (ofUnpacked u) := by
  have hself := roundsTo_toRat h.nonFinite?
  rwa [h.toRat_eq] at hself

/-- Rounding gives the nearest number of the format. -/
lemma roundsTo_round (s : Sign) {m : ℕ} (hm : 0 < m) (e : ℤ) :
    RoundsTo (signed s (m * 2 ^ e)) (ofUnpacked (UnpackedFloat.round Format.binary64 s m e)) := by
  let k := (e - lastPlace m e).toNat
  have hround : UnpackedFloat.round Format.binary64 s m e =
      roundWithAccuracy Format.binary64 s (m * 2 ^ k) (e - k) .exact := by
    unfold UnpackedFloat.round decreaseExponent
    simp only [targetExponent_eq_lastPlace, Nat.shiftLeft_eq]
    rfl
  have hplace : lastPlace (m * 2 ^ k) (e - k) = lastPlace m e := by
    rw [← targetExponent_eq_lastPlace, totalExponent_mul_pow hm.ne', targetExponent_eq_lastPlace]
  have hvalue : ((m * 2 ^ k : ℕ) : ℚ) * 2 ^ (e - k) = m * 2 ^ e := by
    rw [zpow_sub₀ two_ne_zero, zpow_natCast]
    push_cast
    field_simp
  rw [hround, ← hvalue]
  refine roundsTo_roundWithAccuracy s (Nat.mul_pos hm (Nat.two_pow_pos k)) ?_
  rw [hplace]
  omega

/-- Normalizing an integer with an exponent gives the nearest number of the format. -/
lemma roundsTo_normalize (n e : ℤ) (s : Sign) :
    RoundsTo (n * 2 ^ e) (ofUnpacked (UnpackedFloat.normalize Format.binary64 n e s)) := by
  unfold UnpackedFloat.normalize
  cases hcompare : compare n 0 with
  | lt =>
    have hneg : n < 0 := Int.compare_eq_lt.mp hcompare
    have hround := roundsTo_round .negative (m := (-n).toNat) (by omega) e
    have hcast : (((-n).toNat : ℕ) : ℚ) = -n := by
      exact_mod_cast Int.toNat_of_nonneg (by omega : 0 ≤ -n)
    have hvalue : signed .negative (((-n).toNat : ℕ) * 2 ^ e) = n * 2 ^ e := by
      change -((((-n).toNat : ℕ) : ℚ) * 2 ^ e) = n * 2 ^ e
      rw [hcast]
      ring
    rwa [hvalue] at hround
  | eq =>
    have hzero : n = 0 := Int.compare_eq_eq.mp hcompare
    rw [hzero, Int.cast_zero, zero_mul]
    exact IsFiniteOf.zero.roundsTo
  | gt =>
    have hpos : 0 < n := Int.compare_eq_gt.mp hcompare
    have hround := roundsTo_round .positive (m := n.toNat) (by omega) e
    have hcast : ((n.toNat : ℕ) : ℚ) = n := by
      exact_mod_cast Int.toNat_of_nonneg hpos.le
    have hvalue : signed .positive ((n.toNat : ℕ) * 2 ^ e) = n * 2 ^ e := by
      change ((n.toNat : ℕ) : ℚ) * 2 ^ e = n * 2 ^ e
      rw [hcast]
    rwa [hvalue] at hround

/-! ### Sums and products -/

/-- Sums are those of unpacked numbers. -/
lemma add_eq (x y : Float) : x + y =
    ofUnpacked (UnpackedFloat.add Format.binary64 x.toModel.unpack y.toModel.unpack) := rfl

/-- Products are those of unpacked numbers. -/
lemma mul_eq (x y : Float) : x * y =
    ofUnpacked (UnpackedFloat.mul Format.binary64 x.toModel.unpack y.toModel.unpack) := rfl

/-- A mantissa that is shifted to a smaller exponent keeps its value. -/
lemma apply_decreaseExponent (s : Sign) (m : ℕ) {e f : ℤ} (h : f ≤ e) :
    ((s.apply (decreaseExponent m e f).1 : ℤ) : ℚ) * 2 ^ f = signed s (m * 2 ^ e) := by
  obtain ⟨k, hk⟩ := Int.eq_ofNat_of_zero_le (sub_nonneg.mpr h)
  have hshift : (decreaseExponent m e f).1 = m * 2 ^ k := by
    change m <<< (e - f).toNat = _
    rw [hk, Nat.shiftLeft_eq, Int.toNat_natCast]
  have hvalue : (m : ℚ) * 2 ^ e = m * 2 ^ k * 2 ^ f := by
    rw [mul_assoc, ← zpow_natCast, ← zpow_add₀ two_ne_zero, ← hk, sub_add_cancel]
  rw [hshift, hvalue]
  cases s with
  | negative =>
    change ((-((m * 2 ^ k : ℕ) : ℤ) : ℤ) : ℚ) * 2 ^ f = -(m * 2 ^ k * 2 ^ f)
    push_cast
    ring
  | positive =>
    change (((m * 2 ^ k : ℕ) : ℤ) : ℚ) * 2 ^ f = m * 2 ^ k * 2 ^ f
    push_cast
    ring

/-- The sum of two numbers that are not zero is rounded once. -/
lemma exists_add_eq_normalize (s t : Sign) {m n : ℕ} (e f : ℤ) (hm : 0 < m) (hn : 0 < n) :
    ∃ k g : ℤ, UnpackedFloat.add Format.binary64 (.finite s m e hm) (.finite t n f hn) =
        UnpackedFloat.normalize Format.binary64 k g .positive ∧
      (k : ℚ) * 2 ^ g = signed s (m * 2 ^ e) + signed t (n * 2 ^ f) := by
  refine ⟨s.apply (decreaseExponent m e (min e f)).1 + t.apply (decreaseExponent n f (min e f)).1,
    min e f, rfl, ?_⟩
  rw [Int.cast_add, add_mul, apply_decreaseExponent s m (min_le_left e f),
    apply_decreaseExponent t n (min_le_right e f)]

/-- The sum of finite numbers is the exact sum, rounded once. -/
lemma roundsTo_addUnpacked (hu : IsFiniteOf s u) (hv : IsFiniteOf t v) :
    RoundsTo (unpackedValue u + unpackedValue v)
      (ofUnpacked (UnpackedFloat.add Format.binary64 u v)) := by
  have hu' := hu.roundsTo
  have hv' := hv.roundsTo
  cases hu with
  | zero =>
    change RoundsTo (0 + _) _
    rw [zero_add]
    cases hv with
    | zero =>
      change RoundsTo 0 (ofUnpacked (if (s == t) = true then .zero s else .zero .positive))
      split
      · exact IsFiniteOf.zero.roundsTo
      · exact IsFiniteOf.zero.roundsTo
    | finite hn => exact hv'
  | @finite m e hm =>
    cases hv with
    | zero =>
      change RoundsTo (_ + 0) _
      rw [add_zero]
      exact hu'
    | @finite n f hn =>
      obtain ⟨k, g, hadd, hvalue⟩ :=
        exists_add_eq_normalize s t e f hm.mantissa_pos hn.mantissa_pos
      rw [hadd, unpackedValue_finite, unpackedValue_finite, ← hvalue]
      exact roundsTo_normalize k g .positive

/-- **Sums of doubles are rounded.** -/
theorem roundsTo_add (hx : nonFinite? x = none) (hy : nonFinite? y = none) :
    RoundsTo (toRat x + toRat y) (x + y) := by
  rw [add_eq, toRat_eq_unpackedValue hx, toRat_eq_unpackedValue hy]
  exact roundsTo_addUnpacked (isFiniteOf_unpack hx) (isFiniteOf_unpack hy)

/-- The exact product of two mantissas is never too short for its last place. -/
lemma add_le_lastPlace {m n : ℕ} {e f : ℤ} (hm : IsCanonical m e) (hn : IsCanonical n f) :
    e + f ≤ lastPlace (m * n) (e + f) := by
  have hlong : ∀ {k l : ℕ}, 2 ^ 52 ≤ k → 0 < l → 52 ≤ (k * l).log2 := by
    intro k l hk hl
    have hle : 2 ^ 52 ≤ k * l := hk.trans (Nat.le_mul_of_pos_right k hl)
    exact (Nat.le_log2 (by omega)).mpr hle
  unfold lastPlace
  rcases hm.normal with hlarge | rfl
  · have := hlong hlarge hn.mantissa_pos
    omega
  · rcases hn.normal with hlarge | rfl
    · have := hlong hlarge hm.mantissa_pos
      rw [mul_comm m n]
      omega
    · omega

/-- The product of finite numbers is the exact product, rounded once. -/
lemma roundsTo_mulUnpacked (hu : IsFiniteOf s u) (hv : IsFiniteOf t v) :
    RoundsTo (unpackedValue u * unpackedValue v)
      (ofUnpacked (UnpackedFloat.mul Format.binary64 u v)) := by
  cases hu with
  | zero =>
    change RoundsTo (0 * _) _
    rw [zero_mul]
    cases hv with
    | zero => exact IsFiniteOf.zero.roundsTo
    | finite hn => exact IsFiniteOf.zero.roundsTo
  | @finite m e hm =>
    cases hv with
    | zero =>
      change RoundsTo (_ * 0) _
      rw [mul_zero]
      exact IsFiniteOf.zero.roundsTo
    | @finite n f hn =>
      have hvalue : unpackedValue (.finite s m e hm.mantissa_pos) *
          unpackedValue (.finite t n f hn.mantissa_pos) =
            signed (s * t) ((m * n : ℕ) * 2 ^ (e + f)) := by
        rw [unpackedValue_finite, unpackedValue_finite, ← signed_mul, zpow_add₀ two_ne_zero]
        push_cast
        ring_nf
      rw [hvalue]
      exact roundsTo_roundWithAccuracy (s * t) (Nat.mul_pos hm.mantissa_pos hn.mantissa_pos)
        (add_le_lastPlace hm hn)

/-- **Products of doubles are rounded.** -/
theorem roundsTo_mul (hx : nonFinite? x = none) (hy : nonFinite? y = none) :
    RoundsTo (toRat x * toRat y) (x * y) := by
  rw [mul_eq, toRat_eq_unpackedValue hx, toRat_eq_unpackedValue hy]
  exact roundsTo_mulUnpacked (isFiniteOf_unpack hx) (isFiniteOf_unpack hy)

/-! ### Relative errors -/

/-- The error is relative to the result, unless this is below the normal doubles. -/
lemma RoundsTo.abs_sub_le {q : ℚ} (h : RoundsTo q x) (hfinite : nonFinite? x = none)
    (hq : IsDouble q ∨ 2 ^ (-1022 : ℤ) ≤ |q|) : |toRat x - q| ≤ |q| / 2 ^ 53 := by
  rcases hq with hdouble | hnormal
  · rw [(h.exact hdouble).2, sub_self, abs_zero]
    positivity
  · have hsplit : (2 : ℚ) ^ (-1022 : ℤ) = 2 ^ (-1075 : ℤ) * 2 ^ 53 := by
      rw [← zpow_natCast, ← zpow_add₀ two_ne_zero]
      norm_num
    have hle : (2 : ℚ) ^ (-1075 : ℤ) ≤ |q| / 2 ^ 53 := by
      rw [le_div_iff₀ (by positivity), ← hsplit]
      exact hnormal
    exact (h.error_le hfinite).trans (max_le (le_refl _) hle)

/-- Doubles are multiples of the least one. -/
lemma exists_toRat_eq_mul (h : nonFinite? x = none) :
    ∃ n : ℤ, toRat x = n * 2 ^ (-1074 : ℤ) := by
  rw [toRat_eq_unpackedValue h]
  have hnumber := isFiniteOf_unpack h
  generalize sign x = s at hnumber
  generalize x.toModel.unpack = u at hnumber
  cases hnumber with
  | zero => exact ⟨0, by rw [Int.cast_zero, zero_mul]; rfl⟩
  | @finite m e hm => exact ⟨_, (apply_decreaseExponent s m hm.le_exponent).symm⟩

/-- Small multiples of the least double are doubles. -/
lemma isDouble_mul_of_abs_lt {n : ℤ} (h : |n| < 2 ^ 53) : IsDouble (n * 2 ^ (-1074 : ℤ)) := by
  by_cases hzero : n = 0
  · refine ⟨0, by decide +kernel, ?_⟩
    rw [toRat_zero, hzero, Int.cast_zero, zero_mul]
  · rw [Int.abs_eq_natAbs] at h
    have hcanonical : IsCanonical n.natAbs (-1074) :=
      ⟨by omega, by omega, le_refl _, by decide, .inr rfl⟩
    have hdouble : ∀ s : Sign, IsDouble (signed s (n.natAbs * 2 ^ (-1074 : ℤ))) := by
      intro s
      have hnumber : IsFiniteOf s _ := .finite hcanonical
      exact ⟨_, hnumber.nonFinite?, hnumber.toRat_eq⟩
    have habs : (n.natAbs : ℚ) = |(n : ℚ)| := by rw [Nat.cast_natAbs, Int.cast_abs]
    rw [habs] at hdouble
    rcases lt_or_ge n 0 with hneg | hpos
    · have := hdouble .negative
      rw [abs_of_neg (by exact_mod_cast hneg)] at this
      rwa [← neg_neg ((n : ℚ) * _), ← neg_mul]
    · have := hdouble .positive
      rwa [abs_of_nonneg (by exact_mod_cast hpos)] at this

/-- The error of a sum is always relative to it: small sums are exact. -/
lemma abs_add_sub_le (hx : nonFinite? x = none) (hy : nonFinite? y = none)
    (h : nonFinite? (x + y) = none) :
    |toRat (x + y) - (toRat x + toRat y)| ≤ |toRat x + toRat y| / 2 ^ 53 := by
  refine (roundsTo_add hx hy).abs_sub_le h ?_
  obtain ⟨n, hn⟩ := exists_toRat_eq_mul hx
  obtain ⟨k, hk⟩ := exists_toRat_eq_mul hy
  rw [hn, hk, ← add_mul, ← Int.cast_add]
  by_cases hsmall : |n + k| < 2 ^ 53
  · exact .inl (isDouble_mul_of_abs_lt hsmall)
  · right
    have hlarge : (2 : ℚ) ^ 53 ≤ |((n + k : ℤ) : ℚ)| := by exact_mod_cast not_lt.mp hsmall
    rw [abs_mul, abs_of_pos (zpow_pos two_pos (-1074 : ℤ) : (0 : ℚ) < 2 ^ (-1074 : ℤ))]
    calc (2 : ℚ) ^ (-1022 : ℤ) ≤ 2 ^ (53 + -1074 : ℤ) := zpow_le_zpow_right₀ one_le_two (by decide)
      _ = 2 ^ 53 * 2 ^ (-1074 : ℤ) := zpow_add₀ two_ne_zero _ _
      _ ≤ |((n + k : ℤ) : ℚ)| * 2 ^ (-1074 : ℤ) :=
          mul_le_mul_of_nonneg_right hlarge (zpow_pos two_pos _).le

end Double

end SheetRules
