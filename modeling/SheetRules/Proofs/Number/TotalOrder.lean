import Mathlib.Algebra.Group.Int.Defs
import Mathlib.Data.Int.Order.Basic
import Mathlib.Data.Nat.Basic
import Mathlib.Tactic.Common
import SheetRules.Proofs.Number.Integers

/-!
# The total order of doubles

The order of execution compares doubles by `Double.rank`, which is computed from their bit patterns.
Here the order is said without bit patterns: a smaller value comes first, negative zero comes before
zero, and what is no number comes last (`Double.TotalLT`).  The two agree (`Double.rank_lt_iff`).

There is only one double that is no number here: bit patterns of such doubles, which may differ in
sign and payload, all stand for one value, and `Double.rank` sees a single pattern of it.  An order
of all bit patterns would put those with a sign before everything else and tell payloads apart.  The
difference never shows, since no precedence that is read from a text is one of them.

A bit pattern without its sign is a size.  Sizes grow with the exponent, and with the mantissa where
the exponents are equal, hence with the value; the rank of a negative double falls as its size
grows.
-/

namespace SheetRules

namespace Double

open Float.Model Float.Model.UnpackedFloat

/-- The double `x` comes before `y` in the total order.  What is no number is a single value,
without a sign or a payload. -/
inductive TotalLT (x y : Float) : Prop
  | less (h : x < y)
  | zeros (hx : x = -0.0) (hy : y = 0.0)
  | notANumber (hx : x.isNaN = false) (hy : y.isNaN = true)

/-! ### Sizes -/

/-- The size of a finite number. -/
def sizeOfParts (m : Nat) (e : Int) : Nat :=
  (e + 1074).toNat * 2 ^ 52 + m

/-- A mantissa and an exponent as they are unpacked from a finite double that is not zero. -/
structure IsCanonical (m : Nat) (e : Int) : Prop where
  mantissa_pos : 0 < m
  mantissa_lt : m < 2 ^ 53
  le_exponent : -1074 ≤ e
  exponent_le : e ≤ 971
  normal : 2 ^ 52 ≤ m ∨ e = -1074

/-- A number of a given sign and size, unpacked. -/
inductive HasSize (s : Sign) : Nat → UnpackedFloat → Prop
  | zero : HasSize s 0 (.zero s)
  | finite {m : Nat} {e : Int} (h : IsCanonical m e) :
      HasSize s (sizeOfParts m e) (.finite s m e h.mantissa_pos)
  | infinity : HasSize s (2047 * 2 ^ 52) (.infinity s)

/-- The rank of a number of a given sign and size. -/
def rankOfSize (s : Sign) (size : Nat) : Int :=
  match s with
  | .positive => size
  | .negative => -1 - size

/-- A finite number that is not zero has a size. -/
lemma IsCanonical.size_pos {m : Nat} {e : Int} (h : IsCanonical m e) : 0 < sizeOfParts m e :=
  Nat.lt_of_lt_of_le h.mantissa_pos (Nat.le_add_left ..)

/-- A finite number is smaller than infinity. -/
lemma IsCanonical.size_lt_infinity {m : Nat} {e : Int} (h : IsCanonical m e) :
    sizeOfParts m e < 2047 * 2 ^ 52 := by
  have ⟨_, hm, _, he, _⟩ := h
  unfold sizeOfParts
  omega

/-- Sizes are compared by their exponents first and then by their mantissas. -/
lemma IsCanonical.size_lt_size_iff {m n : Nat} {e f : Int} (hm : IsCanonical m e)
    (hn : IsCanonical n f) : sizeOfParts m e < sizeOfParts n f ↔ e < f ∨ e = f ∧ m < n := by
  have ⟨_, hm, he, _, hnormal⟩ := hm
  have ⟨_, hn, hf, _, hnormal'⟩ := hn
  unfold sizeOfParts
  omega

variable {s t : Sign} {a b : Nat} {u v : UnpackedFloat}

/-- No size is above that of infinity. -/
lemma HasSize.le_infinity (h : HasSize s a u) : a ≤ 2047 * 2 ^ 52 := by
  cases h with
  | zero => exact Nat.zero_le _
  | finite h => exact Nat.le_of_lt h.size_lt_infinity
  | infinity => exact Nat.le_refl _

/-- Finite numbers are compared by their ranks. -/
lemma IsCanonical.compare_eq_lt_iff {m n : Nat} {e f : Int} (hm : IsCanonical m e)
    (hn : IsCanonical n f) (s t : Sign) :
    UnpackedFloat.compare (.finite s m e hm.mantissa_pos) (.finite t n f hn.mantissa_pos) =
      some .lt ↔ rankOfSize s (sizeOfParts m e) < rankOfSize t (sizeOfParts n f) := by
  have hpos := hm.size_pos
  have hpos' := hn.size_pos
  have hlt := hm.size_lt_size_iff hn
  have hgt := hn.size_lt_size_iff hm
  -- with different signs the sizes do not matter
  cases s with
  | negative =>
    cases t with
    | negative =>
      change some ((compare e f).then (compare m n)).swap = some .lt ↔ _
      simp only [rankOfSize, Option.some.injEq, Ordering.swap_eq_lt, Ordering.then_eq_gt,
        compare_gt_iff_gt, compare_eq_iff_eq]
      omega
    | positive =>
      change some Ordering.lt = some .lt ↔ _
      simp only [rankOfSize, true_iff]
      omega
  | positive =>
    cases t with
    | negative =>
      change some Ordering.gt = some .lt ↔ _
      simp only [rankOfSize, Option.some.injEq, reduceCtorEq, false_iff]
      omega
    | positive =>
      change some ((compare e f).then (compare m n)) = some .lt ↔ _
      simp only [rankOfSize, Option.some.injEq, Ordering.then_eq_lt, compare_lt_iff_lt,
        compare_eq_iff_eq]
      omega

/-- How zero compares with a number of the sign. -/
def zeroAgainst : Sign → Ordering
  | .positive => .lt
  | .negative => .gt

section Compare

variable {m : Nat} {e : Int} {hm : 0 < m}

/-- Zero is compared with infinity by the sign of infinity. -/
lemma compare_zero_infinity :
    UnpackedFloat.compare (.zero s) (.infinity t) = some (zeroAgainst t) := by
  cases t <;> rfl

/-- Infinity is compared with zero by its own sign. -/
lemma compare_infinity_zero :
    UnpackedFloat.compare (.infinity s) (.zero t) = some (zeroAgainst s).swap := by
  cases s <;> rfl

/-- Zero is compared with a finite number by the sign of that number. -/
lemma compare_zero_finite :
    UnpackedFloat.compare (.zero s) (.finite t m e hm) = some (zeroAgainst t) := by
  cases t <;> rfl

/-- A finite number is compared with zero by its own sign. -/
lemma compare_finite_zero :
    UnpackedFloat.compare (.finite s m e hm) (.zero t) = some (zeroAgainst s).swap := by
  cases s <;> rfl

/-- A finite number is compared with infinity by the sign of infinity. -/
lemma compare_finite_infinity :
    UnpackedFloat.compare (.finite s m e hm) (.infinity t) = some (zeroAgainst t) := by
  cases t <;> rfl

/-- Infinity is compared with a finite number by its own sign. -/
lemma compare_infinity_finite :
    UnpackedFloat.compare (.infinity s) (.finite t m e hm) = some (zeroAgainst s).swap := by
  cases s <;> rfl

end Compare

/-- Numbers are compared by their ranks, except that zeros are equal. -/
lemma HasSize.compare_eq_lt_iff (hu : HasSize s a u) (hv : HasSize t b v) :
    u.compare v = some .lt ↔ rankOfSize s a < rankOfSize t b ∧ ¬(a = 0 ∧ b = 0) := by
  -- zero is compared by the other sign, and two zeros are equal in spite of their signs
  cases hu with
  | zero =>
    cases hv with
    | zero =>
      change some Ordering.eq = some .lt ↔ _
      simp
    | finite h =>
      have hpos := h.size_pos
      rw [compare_zero_finite]
      cases s <;> cases t <;> simp [zeroAgainst, rankOfSize] <;> omega
    | infinity =>
      rw [compare_zero_infinity]
      cases s <;> cases t <;> simp [zeroAgainst, rankOfSize]
  | finite h =>
    have hpos := h.size_pos
    have hlt := h.size_lt_infinity
    cases hv with
    | zero =>
      rw [compare_finite_zero]
      cases s <;> cases t <;> simp [zeroAgainst, rankOfSize] <;> omega
    | finite h' =>
      rw [h.compare_eq_lt_iff h']
      exact (and_iff_left (fun hzero => Nat.ne_of_gt hpos hzero.1)).symm
    | infinity =>
      rw [compare_finite_infinity]
      cases s <;> cases t <;> simp [zeroAgainst, rankOfSize] <;> omega
  | infinity =>
    cases hv with
    | zero =>
      rw [compare_infinity_zero]
      cases s <;> cases t <;> simp [zeroAgainst, rankOfSize]
    | finite h =>
      have hlt := h.size_lt_infinity
      rw [compare_infinity_finite]
      cases s <;> cases t <;> simp [zeroAgainst, rankOfSize] <;> omega
    | infinity => cases s <;> cases t <;> decide

/-! ### Doubles -/

/-- The sign of a double. -/
def sign (x : Float) : Sign :=
  if x.toBits.toNat < 2 ^ 63 then .positive else .negative

/-- The bit pattern of a double without its sign. -/
def size (x : Float) : Nat :=
  x.toBits.toNat % 2 ^ 63

/-- The rank of a number is that of its sign and its size. -/
lemma rank_eq (x : Float) : rank x = rankOfSize (sign x) (size x) := by
  have hbound : x.toBits.toNat < 2 ^ 64 := x.toBits.toNat_lt
  unfold rank sign size
  simp only [Nat.pow_eq]
  split
  · simp only [rankOfSize]
    omega
  · simp only [rankOfSize]
    omega

/-- Doubles of the same rank are the same. -/
lemma eq_of_rank_eq {x y : Float} (h : rank x = rank y) : x = y := by
  refine eq_of_toBits_eq ?_
  unfold rank at h
  simp only [Nat.pow_eq] at h
  split at h <;> split at h <;> omega

section Unpacking

variable (x : Float)

/-- The bit pattern of a double. -/
def pattern : BitVec Format.binary64.numBits := x.toModel.toBits.toBitVec

/-- The mantissa is in the last fifty-two bits. -/
lemma toNat_unpackMantissa : (unpackMantissa (pattern x)).toNat = x.toBits.toNat % 2 ^ 52 := by
  simp [unpackMantissa, pattern]
  rfl

/-- The sign is in the first bit. -/
lemma ofBitVec_unpackSign : Sign.ofBitVec (unpackSign (pattern x)) = sign x := by
  have hbound : x.toBits.toNat < 2 ^ 64 := x.toBits.toNat_lt
  have hsign : (unpackSign (pattern x)).toNat = x.toBits.toNat / 2 ^ 63 % 2 :=
    toNat_unpackSign (pattern x)
  have hzero : unpackSign (pattern x) = 0#1 ↔ x.toBits.toNat < 2 ^ 63 := by
    rw [BitVec.toNat_eq, hsign, BitVec.toNat_zero]
    omega
  unfold Sign.ofBitVec sign
  simp only [hzero]

end Unpacking

/-- Parts that make up the size of a double have that size. -/
lemma hasSize_finite {x : Float} {s : Sign} {m : Nat} {e : Int} {hm : 0 < m} (h : IsCanonical m e)
    (hsize : size x = sizeOfParts m e) : HasSize s (size x) (.finite s m e hm) := by
  rw [hsize]
  exact .finite h

/-- A double is the one that is no number, or it is unpacked to a number of its sign and size. -/
lemma unpack_cases (x : Float) :
    (x.toModel.unpack = .notANumber ∧ x.toBits.toNat = 2047 * 2 ^ 52 + 2 ^ 51) ∨
      HasSize (sign x) (size x) x.toModel.unpack := by
  have hexponent : (unpackExponent (pattern x)).toNat = x.toBits.toNat / 2 ^ 52 % 2 ^ 11 :=
    toNat_unpackExponent (pattern x)
  have hmantissa := toNat_unpackMantissa x
  have hsize : size x = x.toBits.toNat / 2 ^ 52 % 2 ^ 11 * 2 ^ 52 + x.toBits.toNat % 2 ^ 52 := by
    unfold size
    omega
  change (unpack Format.binary64 (pattern x) = .notANumber ∧ _) ∨
    HasSize (sign x) (size x) (unpack Format.binary64 (pattern x))
  unfold UnpackedFloat.unpack
  dsimp only
  rw [ofBitVec_unpackSign]
  by_cases htop : unpackExponent (pattern x) = -1#11
  · -- the largest exponent is that of infinity and of what is no number
    rw [if_pos htop]
    by_cases hzero : unpackMantissa (pattern x) = 0#52
    · rw [htop] at hexponent
      rw [hzero] at hmantissa
      right
      rw [if_pos hzero, hsize, ← hexponent, ← hmantissa]
      exact .infinity
    · have hpattern := congrArg BitVec.toNat (x.toModel.valid.eq_packedNaN htop hzero)
      exact .inl ⟨if_neg hzero, hpattern⟩
  right
  rw [if_neg htop]
  by_cases hbottom : unpackExponent (pattern x) = 0#11
  · -- the least exponent is that of zero and of the subnormal numbers
    rw [if_pos hbottom]
    rw [hbottom] at hexponent
    have hexponent : 0 = x.toBits.toNat / 2 ^ 52 % 2 ^ 11 := hexponent
    by_cases hzero : unpackMantissa (pattern x) = 0#52
    · rw [hzero] at hmantissa
      rw [dif_pos hzero, hsize, ← hexponent, ← hmantissa]
      exact .zero
    · rw [dif_neg hzero]
      have hpos : 0 < (unpackMantissa (pattern x)).toNat := by
        simpa [BitVec.toNat_pos, BitVec.pos_iff_ne_zero] using hzero
      rw [hbottom]
      refine hasSize_finite (e := -1074) ⟨hpos, ?_, by decide, by decide, .inr rfl⟩ ?_
      · omega
      · rw [hsize, ← hexponent, hmantissa]
        exact (Nat.zero_mul _).symm ▸ rfl
  · rw [if_neg hbottom]
    have hlow : (unpackExponent (pattern x)).toNat ≠ 0 := fun h => hbottom (BitVec.eq_of_toNat_eq h)
    have hhigh : (unpackExponent (pattern x)).toNat ≠ 2047 :=
      fun h => htop (BitVec.eq_of_toNat_eq h)
    have hlead : (1#1 ++ unpackMantissa (pattern x)).toNat = 2 ^ 52 + x.toBits.toNat % 2 ^ 52 := by
      rw [BitVec.toNat_append, ← Nat.shiftLeft_add_eq_or_of_lt (BitVec.isLt _), hmantissa]
      rfl
    refine hasSize_finite (e := (unpackExponent (pattern x)).toNat - ((1023 : Nat) + (52 : Nat)))
      ⟨?_, ?_, ?_, ?_, .inl ?_⟩ ?_
    · rw [hlead]
      omega
    · rw [hlead]
      omega
    · omega
    · omega
    · rw [hlead]
      omega
    · rw [hsize, hlead, sizeOfParts]
      omega

/-- One number is less than another if comparing them says so. -/
lemma lt_iff_compare_eq_lt {x y : Float} :
    x < y ↔ x.toModel.unpack.compare y.toModel.unpack = some .lt := by
  change Float.lt x y = true ↔ _
  unfold Float.lt
  rw [decide_eq_true_iff]
  change (UnpackedFloat.lt _ _) = true ↔ _
  unfold UnpackedFloat.lt
  rw [beq_iff_eq]

/-- A double is NaN exactly if it is unpacked to NaN. -/
lemma isNaN_eq_true_iff {x : Float} : x.isNaN = true ↔ x.toModel.unpack = .notANumber := by
  change (UnpackedFloat.isNaN x.toModel.unpack) = true ↔ _
  cases x.toModel.unpack with
  | notANumber => exact iff_of_true rfl rfl
  | zero s => exact iff_of_false Bool.false_ne_true fun h => by cases h
  | finite s m e hm => exact iff_of_false Bool.false_ne_true fun h => by cases h
  | infinity s => exact iff_of_false Bool.false_ne_true fun h => by cases h

/-- What has a size is not NaN. -/
lemma HasSize.ne_notANumber (h : HasSize s a u) : u ≠ .notANumber := by
  rintro rfl
  cases h

/-- The numbers without size are the two zeros. -/
lemma eq_zero_of_size {x : Float} (hsize : size x = 0) :
    sign x = .positive ∧ x = 0.0 ∨ sign x = .negative ∧ x = -0.0 := by
  have hbound : x.toBits.toNat < 2 ^ 64 := x.toBits.toNat_lt
  unfold size at hsize
  unfold sign
  split
  · refine .inl ⟨rfl, eq_of_toBits_eq ?_⟩
    rw [toNat_toBits_zero]
    omega
  · refine .inr ⟨rfl, eq_of_toBits_eq ?_⟩
    rw [toNat_toBits_negativeZero]
    omega

/-- The rank of what is no number is above those of all numbers. -/
lemma rank_notANumber {x : Float} (h : x.toBits.toNat = 2047 * 2 ^ 52 + 2 ^ 51) :
    rank x = 2047 * 2 ^ 52 + 2 ^ 51 := by
  rw [rank, h]
  rfl

/-- No rank is above that of infinity. -/
lemma HasSize.rank_le (h : HasSize s a u) : rankOfSize s a ≤ 2047 * 2 ^ 52 := by
  have hle := h.le_infinity
  cases s <;> simp only [rankOfSize] <;> omega

/-- **Ranks are the total order.** -/
theorem rank_lt_iff {x y : Float} : rank x < rank y ↔ TotalLT x y := by
  rcases unpack_cases x with ⟨hx, hbits⟩ | hx
  · -- nothing comes after what is no number
    refine iff_of_false ?_ ?_
    · rcases unpack_cases y with ⟨hy, hbits'⟩ | hy
      · rw [rank_notANumber hbits, rank_notANumber hbits']
        exact Int.lt_irrefl _
      · have hle := hy.rank_le
        rw [rank_notANumber hbits, rank_eq]
        omega
    · rintro (h | ⟨rfl, -⟩ | ⟨h, -⟩)
      · rw [lt_iff_compare_eq_lt, hx] at h
        cases h
      · rw [toNat_toBits_negativeZero] at hbits
        omega
      · rw [isNaN_eq_true_iff.mpr hx] at h
        cases h
  rcases unpack_cases y with ⟨hy, hbits⟩ | hy
  · have hle := hx.rank_le
    have hnumber : ¬x.isNaN = true := fun h => hx.ne_notANumber (isNaN_eq_true_iff.mp h)
    refine iff_of_true ?_ (.notANumber (Bool.not_eq_true _ ▸ hnumber) (isNaN_eq_true_iff.mpr hy))
    rw [rank_notANumber hbits, rank_eq]
    omega
  rw [rank_eq, rank_eq]
  constructor
  · intro hlt
    -- two zeros of different signs are ordered by rank alone
    by_cases hzeros : size x = 0 ∧ size y = 0
    · rw [hzeros.1, hzeros.2] at hlt
      obtain ⟨hsign, -⟩ | ⟨hsign, hx⟩ := eq_zero_of_size hzeros.1
      · cases hsign' : sign y <;> simp [hsign, hsign', rankOfSize] at hlt
      · obtain ⟨-, hy⟩ | ⟨hsign', -⟩ := eq_zero_of_size hzeros.2
        · exact .zeros hx hy
        · simp [hsign, hsign'] at hlt
    · exact .less (lt_iff_compare_eq_lt.mpr ((hx.compare_eq_lt_iff hy).mpr ⟨hlt, hzeros⟩))
  · rintro (h | ⟨rfl, rfl⟩ | ⟨-, h⟩)
    · exact ((hx.compare_eq_lt_iff hy).mp (lt_iff_compare_eq_lt.mp h)).1
    · decide +kernel
    · exact absurd (isNaN_eq_true_iff.mp h) hy.ne_notANumber

end Double

end SheetRules
