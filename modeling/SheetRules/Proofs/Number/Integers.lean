import SheetRules.Json.Basic
import SheetRules.Proofs.Number.Packing

/-!
# Integers as doubles

An integer below `2 ^ 53` is a double: rounding shifts its mantissa up to 53 bits and loses nothing.
So the integer that a double stands for is turned back into the same double, unless that is the
negative zero, whose sign an integer does not have.  Larger integers are rounded, but none of up to
65 bits becomes infinite.
-/

namespace SheetRules

namespace Double

open Float.Model Float.Model.UnpackedFloat

/-! ### Rounding what is exact -/

/-- Shifting out zeros leaves neither a round bit nor a sticky bit. -/
lemma shiftRight_mul_pow (m k : Nat) :
    (⟨m * 2 ^ k, false, false⟩ : ExtendedMantissa) >>> k = ⟨m, false, false⟩ := by
  induction k generalizing m with
  | zero =>
    change (⟨m * 2 ^ 0, false, false⟩ : ExtendedMantissa) = _
    rw [Nat.pow_zero, Nat.mul_one]
  | succ k ih =>
    change ExtendedMantissa.shiftRightOne
      ((⟨m * 2 ^ (k + 1), false, false⟩ : ExtendedMantissa) >>> k) = _
    rw [Nat.pow_succ', ← Nat.mul_assoc, ih (m * 2)]
    simp [ExtendedMantissa.shiftRightOne]

/-- The place of the first bit does not depend on how the exponent is chosen. -/
lemma totalExponent_mul_pow {m : Nat} (hm : m ≠ 0) (e : Int) (k : Nat) :
    totalExponent (m * 2 ^ k) (e - k) = totalExponent m e := by
  have hlog : (m * 2 ^ k).log2 = m.log2 + k := by
    rw [Nat.log2_eq_iff (Nat.mul_ne_zero hm (Nat.ne_of_gt (Nat.two_pow_pos k)))]
    constructor
    · rw [Nat.pow_add]
      exact Nat.mul_le_mul_right _ (Nat.log2_self_le hm)
    · rw [Nat.add_right_comm, Nat.pow_add]
      exact Nat.mul_lt_mul_of_pos_right Nat.lt_log2_self (Nat.two_pow_pos k)
  simp only [totalExponent, hlog]
  omega

/-- The parts of one are normal. -/
lemma isNormal_one : IsNormal (2 ^ 52) (-52) :=
  ⟨by decide, by decide, by decide, by decide⟩

/-- One, by its bits and by its parts. -/
lemma ofBits_one : Float.ofBits 0x3FF0000000000000 =
    ofUnpacked (.finite .positive (2 ^ 52) (-52) isNormal_one.mantissa_pos) := by
  decide +kernel

/-- Rounding shifts the mantissa, rounds it, and shifts it once more. -/
lemma roundWithAccuracy_of_shift (s : Sign) {m : Nat} {e e₁ e₂ : Int} {accuracy : Accuracy}
    {em₁ em₂ : ExtendedMantissa}
    (hfirst : shiftToTargetExponent Format.binary64 m e accuracy = (em₁, e₁))
    (hsecond : shiftToTargetExponent Format.binary64 em₁.roundedMantissa e₁ .exact = (em₂, e₂)) :
    roundWithAccuracy Format.binary64 s m e accuracy =
      if h : em₂.mantissa = 0 then .zero s
      else .finite s em₂.mantissa e₂ (Nat.pos_of_ne_zero h) := by
  unfold roundWithAccuracy
  rw [hfirst]
  dsimp only
  rw [hsecond]

namespace IsNormal

variable {m : Nat} {e : Int} (h : IsNormal m e)

include h

/-- The last place of a normal number is its exponent. -/
lemma targetExponent_eq : Format.binary64.targetExponent (totalExponent m e) = e := by
  have hle := h.le_exponent
  change max ((m.log2 + 1 + e : Int) - (53 : Nat)) (-1074) = e
  rw [h.log2_mantissa]
  omega

/-- Zeros after the mantissa are taken off without a remainder. -/
lemma shiftToTargetExponent_eq (k : Nat) :
    shiftToTargetExponent Format.binary64 (m * 2 ^ k) (e - k) .exact =
      (⟨m, false, false⟩, e) := by
  have hamount : (e - (e - k)).toNat = k := by omega
  unfold shiftToTargetExponent shiftToExponent
  rw [totalExponent_mul_pow (Nat.ne_of_gt h.mantissa_pos), h.targetExponent_eq]
  dsimp only
  rw [hamount]
  change ((⟨m * 2 ^ k, false, false⟩ : ExtendedMantissa) >>> k, e - k + k) = _
  rw [shiftRight_mul_pow, Int.sub_add_cancel]

/-- A normal double with zeros shifted in is rounded to itself. -/
lemma roundWithAccuracy_eq (s : Sign) (k : Nat) :
    roundWithAccuracy Format.binary64 s (m * 2 ^ k) (e - k) .exact =
      .finite s m e h.mantissa_pos := by
  have hagain : shiftToTargetExponent Format.binary64 m e .exact = (⟨m, false, false⟩, e) := by
    have hzero := h.shiftToTargetExponent_eq 0
    simpa using hzero
  rw [roundWithAccuracy_of_shift s (h.shiftToTargetExponent_eq k) hagain]
  exact dif_neg (Nat.ne_of_gt h.mantissa_pos)

/-- An integer that has a normal mantissa when it is shifted is rounded to that mantissa. -/
lemma round_eq (s : Sign) {n k : Nat} (hn : n * 2 ^ k = m) (he : e = -k) :
    UnpackedFloat.round Format.binary64 s n 0 = .finite s m e h.mantissa_pos := by
  have hne : n ≠ 0 := by
    rintro rfl
    have := h.mantissa_pos
    omega
  have htarget : Format.binary64.targetExponent (totalExponent n 0) = e := by
    rw [← totalExponent_mul_pow hne 0 k, hn, Int.zero_sub, ← he, h.targetExponent_eq]
  have hamount : (0 - e).toNat = k := by omega
  have hexponent : (0 : Int) - k = e - (0 : Nat) := by omega
  unfold UnpackedFloat.round decreaseExponent
  dsimp only
  rw [htarget, hamount, Nat.shiftLeft_eq, hn, hexponent, ← h.roundWithAccuracy_eq s 0, Nat.pow_zero,
    Nat.mul_one]

/-- A positive integer that has a normal mantissa when it is shifted is converted to the double
with that mantissa. -/
lemma toFloat_eq {n k : Nat} (hn : n * 2 ^ k = m) (he : e = -k) :
    n.toUInt64.toFloat = ofUnpacked (.finite .positive m e h.mantissa_pos) := by
  have hpos : 0 < n := by
    refine Nat.pos_of_ne_zero ?_
    rintro rfl
    have := h.mantissa_pos
    omega
  have hle : n ≤ m := hn ▸ Nat.le_mul_of_pos_right n (Nat.two_pow_pos k)
  have htoNat : n.toUInt64.toNat = n := by
    have hlt := h.mantissa_lt
    have hsize : UInt64.size = 2 ^ 64 := rfl
    exact UInt64.toNat_ofNat_of_lt' (by omega)
  change ofUnpacked
    (UnpackedFloat.normalize Format.binary64 (n.toUInt64.toNat : Int) 0 .positive) = _
  rw [htoNat]
  have hcompare : compare (n : Int) 0 = .gt := Int.compare_eq_gt.mpr (by omega)
  unfold UnpackedFloat.normalize
  rw [hcompare]
  change ofUnpacked (UnpackedFloat.round Format.binary64 .positive n 0) = _
  rw [h.round_eq .positive hn he]

/-- Multiplying a normal double by one changes nothing. -/
lemma mul_one_eq (s : Sign) :
    ofUnpacked (.finite s m e h.mantissa_pos) * Float.ofBits 0x3FF0000000000000 =
      ofUnpacked (.finite s m e h.mantissa_pos) := by
  have hsign : s * Sign.positive = s := by
    cases s <;> rfl
  change ofUnpacked (mul Format.binary64 (ofUnpacked (.finite s m e h.mantissa_pos)).toModel.unpack
    (Float.ofBits 0x3FF0000000000000).toModel.unpack) = _
  rw [ofBits_one, h.unpack_ofUnpacked, isNormal_one.unpack_ofUnpacked]
  change ofUnpacked (roundWithAccuracy Format.binary64 (s * Sign.positive) (m * 2 ^ 52)
    (e - (52 : Nat)) .exact) = _
  rw [hsign, h.roundWithAccuracy_eq s 52]

/-- A natural number is the double whose mantissa it fills when it is shifted. -/
lemma ofNat_eq {n k : Nat} (hn : n * 2 ^ k = m) (he : e = -k) :
    Float.ofNat n = ofUnpacked (.finite .positive m e h.mantissa_pos) := by
  have hle : n ≤ m := hn ▸ Nat.le_mul_of_pos_right n (Nat.two_pow_pos k)
  have hlt : n < 2 ^ 53 := Nat.lt_of_le_of_lt hle h.mantissa_lt
  change Float.ofScientific n false 0 = _
  unfold Float.ofScientific
  rw [dif_pos ⟨hlt, by decide⟩]
  change n.toUInt64.toFloat * Float.ofBits 0x3FF0000000000000 = _
  rw [h.toFloat_eq hn he, h.mul_one_eq]

/-- Negation changes the sign of the parts only. -/
lemma neg_eq (s : Sign) :
    Float.neg (ofUnpacked (.finite s m e h.mantissa_pos)) =
      ofUnpacked (.finite (-s) m e h.mantissa_pos) := by
  change ofUnpacked (UnpackedFloat.neg
    (ofUnpacked (.finite s m e h.mantissa_pos)).toModel.unpack) = _
  rw [h.unpack_ofUnpacked]
  rfl

/-- An integer that has a normal mantissa when it is shifted is the double with that mantissa and
its own sign. -/
theorem ofInt_eq {n : Int} {k : Nat} (hn : n.natAbs * 2 ^ k = m) (he : e = -k) :
    Float.ofInt n =
      ofUnpacked (.finite (if n < 0 then .negative else .positive) m e h.mantissa_pos) := by
  cases n with
  | ofNat a =>
    have hsign : ¬Int.ofNat a < 0 := Int.not_lt.mpr (Int.natCast_nonneg a)
    rw [if_neg hsign]
    exact h.ofNat_eq hn he
  | negSucc a =>
    rw [if_pos (by omega)]
    change (a + 1) * 2 ^ k = m at hn
    change Float.neg (Float.ofNat (a + 1)) = _
    rw [h.ofNat_eq hn he, h.neg_eq]
    rfl

end IsNormal

/-! ### The integer that a double stands for -/

/-- The same double, but zero for the negative zero. -/
def unsignedZero (x : Float) : Float :=
  if x = -0.0 then 0.0 else x

/-- The bits of zero. -/
lemma toNat_toBits_zero : (0.0 : Float).toBits.toNat = 0 := by
  decide +kernel

/-- The bits of the negative zero: only the sign is set. -/
lemma toNat_toBits_negativeZero : (-0.0 : Float).toBits.toNat = 2 ^ 63 := by
  decide +kernel

end Double

namespace Dyad

variable {d : Dyad}

/-- An integral value with no positive exponent, shifted to that exponent, is the mantissa. -/
lemma floor_mul_pow (hint : d.isInteger = true) (he : d.exponent ≤ 0) :
    d.floor * (2 ^ (-d.exponent).toNat : Nat) = d.signed := by
  have hnumerator : d.numerator = d.signed := by
    have hzero : d.exponent.toNat = 0 := by omega
    simp [numerator, hzero]
  have hdvd : d.signed % d.denominator = 0 := by
    simpa [isInteger, hnumerator] using hint
  rw [floor, hnumerator]
  exact Int.ediv_mul_cancel (Int.dvd_of_emod_eq_zero hdvd)

/-- Without its sign a dyad has its mantissa. -/
lemma natAbs_signed (d : Dyad) : d.signed.natAbs = d.mantissa := by
  unfold signed
  split <;> simp

/-- The floor of an integer has all of its mantissa. -/
lemma natAbs_floor_mul_pow (hint : d.isInteger = true) (he : d.exponent ≤ 0) :
    d.floor.natAbs * 2 ^ (-d.exponent).toNat = d.mantissa := by
  rw [← d.natAbs_signed, ← floor_mul_pow hint he, Int.natAbs_mul, Int.natAbs_natCast]

/-- An integral value other than zero has the sign of its mantissa. -/
lemma floor_neg_iff (hint : d.isInteger = true) (he : d.exponent ≤ 0) (hm : 0 < d.mantissa) :
    d.floor < 0 ↔ d.negative = true := by
  have hpow : (0 : Int) < (2 ^ (-d.exponent).toNat : Nat) := by
    exact_mod_cast Nat.two_pow_pos _
  have hmul := floor_mul_pow hint he
  have hsigned : d.signed < 0 ↔ d.negative = true := by
    unfold signed
    split <;> simp_all
  rw [← hsigned, ← hmul]
  constructor
  · exact fun hneg => Int.mul_neg_of_neg_of_pos hneg hpow
  · intro hneg
    by_contra hnonneg
    exact Int.not_le.mpr hneg (Int.mul_nonneg (Int.not_lt.mp hnonneg) (Int.le_of_lt hpow))

/-- The size of a value with a positive exponent. -/
lemma natAbs_floor_of_pos (he : 0 < d.exponent) :
    d.floor.natAbs = d.mantissa * 2 ^ d.exponent.toNat := by
  have hzero : (-d.exponent).toNat = 0 := by omega
  simp [floor, denominator, numerator, hzero, Int.natAbs_mul, natAbs_signed, Nat.pow_eq]

end Dyad

namespace Double

open Float.Model Float.Model.UnpackedFloat

/-- The parts that a double is taken apart into. -/
lemma exact_eq_ok {x : Float} {d : Dyad} (h : exact x = .ok d) :
    d.negative = decide (2 ^ 63 ≤ x.toBits.toNat) ∧
      (x.toBits.toNat / 2 ^ 52 % 2 ^ 11 = 0 ∧ d.mantissa = x.toBits.toNat % 2 ^ 52 ∧
          d.exponent = -1074 ∨
        x.toBits.toNat / 2 ^ 52 % 2 ^ 11 ≠ 0 ∧ x.toBits.toNat / 2 ^ 52 % 2 ^ 11 ≠ 2047 ∧
          d.mantissa = 2 ^ 52 + x.toBits.toNat % 2 ^ 52 ∧
          d.exponent = (x.toBits.toNat / 2 ^ 52 % 2 ^ 11 : Nat) - 1075) := by
  unfold exact at h
  simp only [Nat.pow_eq] at h
  split at h
  · cases h
  split at h
  · rename_i hbottom
    cases h
    exact ⟨rfl, .inl ⟨hbottom, rfl, rfl⟩⟩
  · rename_i htop hbottom
    cases h
    exact ⟨rfl, .inr ⟨hbottom, htop, rfl, rfl⟩⟩

/-- A double with neither exponent nor fraction is a zero. -/
lemma unsignedZero_eq_zero {x : Float} (hbiased : x.toBits.toNat / 2 ^ 52 % 2 ^ 11 = 0)
    (hfraction : x.toBits.toNat % 2 ^ 52 = 0) : unsignedZero x = 0.0 := by
  have hbound : x.toBits.toNat < 2 ^ 64 := x.toBits.toNat_lt
  unfold unsignedZero
  split
  · rfl
  · rename_i hsigned
    refine eq_of_toBits_eq ?_
    have hpositive : x.toBits.toNat ≠ 2 ^ 63 := fun hbits =>
      hsigned (eq_of_toBits_eq (hbits.trans toNat_toBits_negativeZero.symm))
    rw [toNat_toBits_zero]
    omega

/-- A double with an exponent is no zero. -/
lemma unsignedZero_eq_self {x : Float} (hbiased : x.toBits.toNat / 2 ^ 52 % 2 ^ 11 ≠ 0) :
    unsignedZero x = x := by
  unfold unsignedZero
  rw [if_neg]
  rintro rfl
  rw [toNat_toBits_negativeZero] at hbiased
  exact hbiased (by decide)

/-- A subnormal double is too small for an integer other than zero. -/
lemma ofInt_floor_subnormal {x : Float} {d : Dyad} (hint : d.isInteger = true)
    (hbiased : x.toBits.toNat / 2 ^ 52 % 2 ^ 11 = 0)
    (hmantissa : d.mantissa = x.toBits.toNat % 2 ^ 52) (hexponent : d.exponent = -1074) :
    Float.ofInt d.floor = unsignedZero x := by
  have habs := Dyad.natAbs_floor_mul_pow hint (by omega)
  have hpow : 2 ^ 52 ≤ 2 ^ (-d.exponent).toNat := Nat.pow_le_pow_right (by decide) (by omega)
  have hzero : d.floor.natAbs = 0 := by
    refine Nat.eq_zero_of_not_pos fun hpos => ?_
    have hle := Nat.mul_le_mul hpos hpow
    omega
  have hfraction : x.toBits.toNat % 2 ^ 52 = 0 := by
    rw [← hmantissa, ← habs, hzero, Nat.zero_mul]
  rw [Int.natAbs_eq_zero.mp hzero, unsignedZero_eq_zero hbiased hfraction]
  rfl

/-- The mantissa of a normal double is the integer, shifted to 53 bits. -/
lemma ofInt_floor_normal {x : Float} {d : Dyad} (hint : d.isInteger = true)
    (hlt : d.floor.natAbs < 2 ^ 53) (hnegative : d.negative = decide (2 ^ 63 ≤ x.toBits.toNat))
    (hbiased : x.toBits.toNat / 2 ^ 52 % 2 ^ 11 ≠ 0)
    (htop : x.toBits.toNat / 2 ^ 52 % 2 ^ 11 ≠ 2047)
    (hmantissa : d.mantissa = 2 ^ 52 + x.toBits.toNat % 2 ^ 52)
    (hexponent : d.exponent = (x.toBits.toNat / 2 ^ 52 % 2 ^ 11 : Nat) - 1075) :
    Float.ofInt d.floor = unsignedZero x := by
  have hbound : x.toBits.toNat < 2 ^ 64 := x.toBits.toNat_lt
  have hnormal : IsNormal d.mantissa d.exponent := by
    constructor <;> omega
  have hle : d.exponent ≤ 0 := by
    refine Int.not_lt.mp fun hpos => ?_
    have hsize := Dyad.natAbs_floor_of_pos hpos
    have hpow : 2 ^ 1 ≤ 2 ^ d.exponent.toNat := Nat.pow_le_pow_right (by decide) (by omega)
    have hmul := Nat.mul_le_mul hnormal.le_mantissa hpow
    omega
  have hsign : (if d.floor < 0 then Sign.negative else Sign.positive).toBitVec.toNat * 2 ^ 63 =
      if 2 ^ 63 ≤ x.toBits.toNat then 2 ^ 63 else 0 := by
    have hiff := Dyad.floor_neg_iff hint hle hnormal.mantissa_pos
    rw [hnegative, decide_eq_true_eq] at hiff
    simp only [hiff]
    split <;> rfl
  have hkeep := hnormal.ofInt_eq (Dyad.natAbs_floor_mul_pow hint hle) (by omega)
  rw [hkeep, unsignedZero_eq_self hbiased]
  refine eq_of_toBits_eq ?_
  rw [hnormal.toNat_toBits, hsign, hmantissa, hexponent]
  split <;> omega

/-- The integer that a double stands for is that double, without the sign of a zero. -/
theorem ofInt_eq_unsignedZero {x : Float} {n : Int}
    (h : integerBelow? Json.integerLimit x = some n) : Float.ofInt n = unsignedZero x := by
  unfold integerBelow? at h
  cases hexact : exact x with
  | error reason => simp [hexact] at h
  | ok d =>
    simp only [hexact] at h
    split at h
    · rename_i hcond
      rw [Bool.and_eq_true, decide_eq_true_eq] at hcond
      obtain ⟨hint, hlt⟩ := hcond
      obtain rfl : d.floor = n := Option.some.inj h
      obtain ⟨hnegative, ⟨hbiased, hmantissa, hexponent⟩ |
        ⟨hbiased, htop, hmantissa, hexponent⟩⟩ := exact_eq_ok hexact
      · exact ofInt_floor_subnormal hint hbiased hmantissa hexponent
      · exact ofInt_floor_normal hint hlt hnegative hbiased htop hmantissa hexponent
    · cases h

/-- A finite double is equal to itself. -/
lemma IsBounded.beq_self {u : UnpackedFloat} (h : IsBounded u) : u.beq u = true := by
  cases h with
  | zero s => rfl
  | @finite s m e hm _ =>
    have hparts : (compare e e).then (compare m m) = .eq := by simp
    cases s with
    | positive =>
      change (some ((compare e e).then (compare m m)) == some Ordering.eq) = true
      rw [hparts]
      rfl
    | negative =>
      change (some ((compare e e).then (compare m m)).swap == some Ordering.eq) = true
      rw [hparts]
      rfl

/-- Without the sign of a zero, a double is the same number. -/
theorem unsignedZero_beq {x : Float} (h : nonFinite? x = none) : (unsignedZero x == x) = true := by
  unfold unsignedZero
  split
  · rename_i hzero
    rw [hzero]
    decide +kernel
  · exact (isBounded_unpack h).beq_self

/-! ### Larger integers -/

/-- Shifting to the right never makes a mantissa larger. -/
lemma mantissa_shiftRight_le (em : ExtendedMantissa) (k : Nat) :
    (em >>> k).mantissa ≤ em.mantissa := by
  induction k with
  | zero => exact Nat.le_refl _
  | succ k ih =>
    change (em >>> k).mantissa / 2 ≤ em.mantissa
    exact Nat.le_trans (Nat.div_le_self _ _) ih

/-- Rounding adds one at most. -/
lemma roundedMantissa_le (em : ExtendedMantissa) : em.roundedMantissa ≤ em.mantissa + 1 := by
  obtain ⟨m, roundBit, stickyBit⟩ := em
  cases roundBit <;> cases stickyBit <;>
    simp [ExtendedMantissa.roundedMantissa, ExtendedMantissa.accuracy, Accuracy.roundToNearestEven]
  omega

/-- Shifting raises the exponent at most to where the mantissa has 53 bits. -/
lemma shiftToTargetExponent_snd_le {m k : Nat} (hm : m < 2 ^ k) (e : Int) :
    (shiftToTargetExponent Format.binary64 m e .exact).2 ≤
      max e (max (k + 1 + e - 53) (-1074)) := by
  have hlog : m.log2 ≤ k := by
    by_cases hzero : m = 0
    · simp [hzero]
    · exact Nat.le_of_lt ((Nat.log2_lt hzero).mpr hm)
  change e + ((max ((m.log2 + 1 + e : Int) - (53 : Nat)) (-1074) - e).toNat : Int) ≤ _
  omega

/-- Going to the last place never makes a mantissa larger. -/
lemma shiftToTargetExponent_fst_le (m : Nat) (e : Int) :
    (shiftToTargetExponent Format.binary64 m e .exact).1.mantissa ≤ m :=
  mantissa_shiftRight_le _ _

/-- Rounding a mantissa of moderate size with a small exponent gives something bounded. -/
lemma isBounded_roundWithAccuracy {m : Nat} {e : Int} (s : Sign) (hm : m < 2 ^ 118) (he : e ≤ 0) :
    IsBounded (roundWithAccuracy Format.binary64 s m e .exact) := by
  let shifted := shiftToTargetExponent Format.binary64 m e .exact
  have hexponent : shifted.2 ≤ 66 := by
    have hshifted : shifted.2 ≤ _ := shiftToTargetExponent_snd_le hm e
    omega
  have hrounded : shifted.1.roundedMantissa < 2 ^ 119 := by
    have hfst : shifted.1.mantissa ≤ m := shiftToTargetExponent_fst_le m e
    have hround := roundedMantissa_le shifted.1
    omega
  have hfinal := shiftToTargetExponent_snd_le hrounded shifted.2
  unfold roundWithAccuracy
  dsimp only
  by_cases hzero :
      (shiftToTargetExponent Format.binary64 shifted.1.roundedMantissa shifted.2
        .exact).1.mantissa = 0
  · rw [dif_pos hzero]
    exact .zero s
  · rw [dif_neg hzero]
    refine .finite ?_
    change
      (shiftToTargetExponent Format.binary64 shifted.1.roundedMantissa shifted.2 .exact).2 ≤ 971
    omega

/-- A natural number below `2 ^ 53`, shifted to 53 bits, is the mantissa of a normal double. -/
lemma isNormal_shifted {n : Nat} (hzero : n ≠ 0) (h : n < 2 ^ 53) :
    IsNormal (n * 2 ^ (52 - n.log2)) (-(52 - n.log2 : Nat)) := by
  have hlog : n.log2 ≤ 52 := Nat.le_of_lt_succ ((Nat.log2_lt hzero).mpr h)
  have hlower := Nat.mul_le_mul_right (2 ^ (52 - n.log2)) (Nat.log2_self_le hzero)
  have hupper := Nat.mul_lt_mul_of_pos_right (Nat.lt_log2_self (n := n))
    (Nat.two_pow_pos (52 - n.log2))
  rw [← Nat.pow_add, Nat.add_sub_cancel' hlog] at hlower
  rw [← Nat.pow_add, Nat.add_right_comm, Nat.add_sub_cancel' hlog] at hupper
  exact ⟨hlower, hupper, by omega, by omega⟩

/-- A natural number of up to 65 bits is a finite double. -/
theorem nonFinite?_ofNat {n : Nat} (h : n < 2 ^ 65) : nonFinite? (Float.ofNat n) = none := by
  by_cases hzero : n = 0
  · rw [hzero]
    decide +kernel
  by_cases hsmall : n < 2 ^ 53
  · have hnormal := isNormal_shifted hzero hsmall
    rw [hnormal.ofNat_eq rfl rfl]
    exact nonFinite?_ofUnpacked (.finite hnormal.exponent_le)
  · -- a number of more than 53 digits is rounded, and stays far below the largest double
    have hmodel : Float.ofNat n = ofUnpacked (UnpackedFloat.ofScientific Format.binary64 n 0) := by
      change Float.ofScientific n false 0 = _
      unfold Float.ofScientific
      rw [dif_neg fun hcond => hsmall hcond.1]
      rfl
    have hround : UnpackedFloat.ofScientific Format.binary64 n 0 =
        roundWithAccuracy Format.binary64 .positive (n <<< 53) (-53) .exact := by
      have hlarge : ¬(0 : Int) > 2 ^ Format.binary64.exponentBits := by decide
      have htiny : ¬(0 : Int) < -(2 ^ Format.binary64.exponentBits + n.log2) := by
        change ¬(0 : Int) < -(2 ^ 11 + n.log2)
        omega
      have hone : n <<< 53 * 10 ^ (0 : Int).toNat = n <<< 53 := Nat.mul_one _
      unfold UnpackedFloat.ofScientific
      rw [dif_neg hzero, if_neg hlarge, if_neg htiny, if_pos (Int.le_refl 0)]
      change roundWithAccuracy Format.binary64 .positive (n <<< 53 * 10 ^ (0 : Int).toNat) (-53)
        .exact = _
      rw [hone]
    have hsize : n <<< 53 < 2 ^ 118 := by
      rw [Nat.shiftLeft_eq]
      omega
    rw [hmodel, hround]
    exact nonFinite?_ofUnpacked (isBounded_roundWithAccuracy .positive hsize (by decide))

/-- The negation of a finite number is finite. -/
lemma nonFinite?_neg {x : Float} (h : nonFinite? x = none) : nonFinite? (Float.neg x) = none := by
  change nonFinite? (ofUnpacked (UnpackedFloat.neg x.toModel.unpack)) = none
  exact nonFinite?_ofUnpacked (isBounded_unpack h).neg

/-- An integer of up to 65 bits is a finite double. -/
theorem nonFinite?_ofInt {n : Int} (h : n.natAbs < 2 ^ 65) : nonFinite? (Float.ofInt n) = none := by
  cases n with
  | ofNat a => exact nonFinite?_ofNat h
  | negSucc a => exact nonFinite?_neg (nonFinite?_ofNat h)

end Double

namespace Json

/-- A double that is written as a number is read back, without the sign of a zero. -/
lemma Number.toFloat_ofFloat (x : Float) : (Number.ofFloat x).toFloat = Double.unsignedZero x := by
  unfold Number.ofFloat
  cases h : Double.integerBelow? integerLimit x with
  | some n => exact Double.ofInt_eq_unsignedZero h
  | none =>
    have hne : x ≠ -0.0 := by
      rintro rfl
      have hzero : Double.integerBelow? integerLimit (-0.0) = some 0 := by decide +kernel
      rw [hzero] at h
      cases h
    exact (if_neg hne).symm

end Json

end SheetRules
