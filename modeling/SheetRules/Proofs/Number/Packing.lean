import Mathlib.Algebra.Group.Nat.Defs
import Mathlib.Tactic.Common
import SheetRules.Number.Double

/-!
# The bit patterns of doubles

A double is packed from a sign, an exponent and a mantissa.  Read as a number, its bit pattern is
the sign times `2 ^ 63`, plus the biased exponent times `2 ^ 52`, plus the fraction, which is how
`Double.exact` takes it apart.  A normal double is packed and unpacked without loss, and a double
whose exponent is small enough is packed to a finite one.
-/

namespace SheetRules

namespace Double

open Float.Model Float.Model.UnpackedFloat

/-- Doubles with the same bit pattern are the same. -/
lemma eq_of_toBits_eq {x y : Float} (h : x.toBits.toNat = y.toBits.toNat) : x = y := by
  obtain ⟨⟨bits, valid⟩⟩ := x
  obtain ⟨⟨bits', valid'⟩⟩ := y
  obtain rfl : bits = bits' := UInt64.toNat_inj.mp h
  rfl

/-- The bit pattern as a number. -/
lemma toNat_packComponents (s : Sign) (exponent : BitVec 11) (mantissa : BitVec 52) :
    (packComponents Format.binary64 s exponent mantissa).toNat =
      s.toBitVec.toNat * 2 ^ 63 + exponent.toNat * 2 ^ 52 + mantissa.toNat := by
  have hexponent : exponent.toNat < 2 ^ 11 := exponent.isLt
  have hmantissa : mantissa.toNat < 2 ^ 52 := mantissa.isLt
  change ((s.toBitVec ++ exponent) ++ mantissa).toNat = _
  rw [BitVec.toNat_append, ← Nat.shiftLeft_add_eq_or_of_lt hmantissa, BitVec.toNat_append,
    ← Nat.shiftLeft_add_eq_or_of_lt hexponent, Nat.shiftLeft_eq, Nat.shiftLeft_eq]
  omega

/-- The sign is the topmost bit. -/
lemma toNat_unpackSign (bits : BitVec Format.binary64.numBits) :
    (unpackSign bits).toNat = bits.toNat / 2 ^ 63 % 2 := by
  change (BitVec.cast rfl (BitVec.extractLsb 63 63 bits)).toNat = _
  simp [Nat.shiftRight_eq_div_pow]

/-- The biased exponent is in the eleven bits below it. -/
lemma toNat_unpackExponent (bits : BitVec Format.binary64.numBits) :
    (unpackExponent bits).toNat = bits.toNat / 2 ^ 52 % 2 ^ 11 := by
  change (BitVec.cast rfl (BitVec.extractLsb 62 52 bits)).toNat = _
  simp [Nat.shiftRight_eq_div_pow]

/-- The sign can be read back. -/
lemma unpackSign_packComponents (s : Sign) (exponent : BitVec 11) (mantissa : BitVec 52) :
    Sign.ofBitVec (unpackSign (packComponents Format.binary64 s exponent mantissa)) = s := by
  have hexponent : exponent.toNat < 2 ^ 11 := exponent.isLt
  have hmantissa : mantissa.toNat < 2 ^ 52 := mantissa.isLt
  have hsign : unpackSign (packComponents Format.binary64 s exponent mantissa) = s.toBitVec := by
    refine BitVec.eq_of_toNat_eq ?_
    rw [toNat_unpackSign, toNat_packComponents]
    omega
  rw [hsign]
  cases s <;> rfl

/-- Finite numbers with the same parts are the same. -/
lemma finite_eq_finite {s s' : Sign} {m m' : Nat} {e e' : Int} {hm : 0 < m} {hm' : 0 < m'}
    (hsign : s = s') (hmantissa : m = m') (hexponent : e = e') :
    UnpackedFloat.finite s m e hm = .finite s' m' e' hm' := by
  subst hsign hmantissa hexponent
  rfl

/-- The double that an unpacked one is packed to. -/
def ofUnpacked (u : UnpackedFloat) : Float :=
  .ofModel (Float.Model.pack u)

/-! ### Normal doubles -/

/-- A mantissa and an exponent of a normal double. -/
structure IsNormal (m : Nat) (e : Int) : Prop where
  le_mantissa : 2 ^ 52 ≤ m
  mantissa_lt : m < 2 ^ 53
  le_exponent : -1074 ≤ e
  exponent_le : e ≤ 971

namespace IsNormal

variable {m : Nat} {e : Int} (h : IsNormal m e)

include h

/-- A normal mantissa is positive. -/
lemma mantissa_pos : 0 < m := by
  have := h.le_mantissa
  omega

/-- A normal mantissa has fifty-three digits. -/
lemma log2_mantissa : m.log2 = 52 := by
  have hne : m ≠ 0 := Nat.ne_of_gt h.mantissa_pos
  have hle := (Nat.le_log2 hne).mpr h.le_mantissa
  have hlt := (Nat.log2_lt hne).mpr h.mantissa_lt
  omega

/-- A normal double is packed with its biased exponent and without the leading bit. -/
lemma pack_eq (s : Sign) (hm : 0 < m) :
    UnpackedFloat.pack Format.binary64 (.finite s m e hm) =
      packComponents Format.binary64 s (BitVec.ofNat 11 (e + 1075).toNat) (BitVec.ofNat 52 m) := by
  have hle := h.le_exponent
  have hmax := h.exponent_le
  have hbiased : e + (1023 : Nat) + (52 : Nat) = e + 1075 := by omega
  change (if 2 ^ 11 ≤ (e + (1023 : Nat) + (52 : Nat)).toNat + 1 then _
    else if m.log2 + 1 = 1 + 52 then packComponents Format.binary64 s
      (BitVec.ofNat 11 (e + (1023 : Nat) + (52 : Nat)).toNat) (BitVec.ofNat 52 m) else _) = _
  rw [if_neg (by omega), if_pos (by rw [h.log2_mantissa]), hbiased]

/-- The bit pattern of a normal double. -/
lemma toNat_toBits (s : Sign) (hm : 0 < m) :
    (ofUnpacked (.finite s m e hm)).toBits.toNat =
      s.toBitVec.toNat * 2 ^ 63 + (e + 1075).toNat * 2 ^ 52 + (m - 2 ^ 52) := by
  have ⟨hlem, hmlt, hle, hmax⟩ := h
  change (UnpackedFloat.pack Format.binary64 (.finite s m e hm)).toNat = _
  rw [h.pack_eq, toNat_packComponents, BitVec.toNat_ofNat, BitVec.toNat_ofNat]
  omega

/-- A normal double is unpacked to what it was packed from. -/
lemma unpack_ofUnpacked (s : Sign) (hm : 0 < m) :
    (ofUnpacked (.finite s m e hm)).toModel.unpack = .finite s m e hm := by
  have ⟨hlem, hmlt, hle, hmax⟩ := h
  change unpack Format.binary64 (UnpackedFloat.pack Format.binary64 (.finite s m e hm)) = _
  rw [h.pack_eq]
  generalize hbits : packComponents Format.binary64 s (BitVec.ofNat 11 (e + 1075).toNat)
    (BitVec.ofNat 52 m) = bits
  have hsign : Sign.ofBitVec (unpackSign bits) = s := by
    rw [← hbits, unpackSign_packComponents]
  have hmantissa : unpackMantissa bits = BitVec.ofNat 52 m := by
    rw [← hbits, unpackMantissa_packComponents]
  have hexponent : (unpackExponent bits).toNat = (e + 1075).toNat := by
    rw [← hbits, unpackExponent_packComponents]
    exact Nat.mod_eq_of_lt (by omega : (e + 1075).toNat < 2 ^ 11)
  -- the exponent of a normal number is neither the largest nor the least one
  have hinf : unpackExponent bits ≠ -1#11 := by
    intro heq
    have htop : (-1#11).toNat = 2047 := rfl
    rw [← heq, hexponent] at htop
    omega
  have hzero : unpackExponent bits ≠ 0#11 := by
    intro heq
    have hbottom : (0#11).toNat = 0 := rfl
    rw [← heq, hexponent] at hbottom
    omega
  have hleading : (1#1 ++ BitVec.ofNat 52 m).toNat = m := by
    rw [BitVec.toNat_append, ← Nat.shiftLeft_add_eq_or_of_lt (BitVec.isLt _), Nat.shiftLeft_eq,
      BitVec.toNat_ofNat, BitVec.toNat_ofNat]
    omega
  unfold UnpackedFloat.unpack
  rw [if_neg hinf, if_neg hzero]
  refine finite_eq_finite hsign (hmantissa ▸ hleading) ?_
  rw [hexponent]
  change ((e + 1075).toNat : Int) - ((1023 : Nat) + (52 : Nat)) = e
  omega

end IsNormal

/-! ### Finite doubles -/

/-- Not infinite, and of an exponent that a double can have. -/
inductive IsBounded : UnpackedFloat → Prop
  | zero (s : Sign) : IsBounded (.zero s)
  | finite {s : Sign} {m : Nat} {e : Int} {hm : 0 < m} (he : e ≤ 971) :
      IsBounded (.finite s m e hm)

/-- Negation keeps the parts bounded. -/
lemma IsBounded.neg {u : UnpackedFloat} (h : IsBounded u) : IsBounded u.neg := by
  cases h with
  | zero s => exact .zero (-s)
  | finite he => exact .finite he

/-- A double is finite if its biased exponent is not the largest one. -/
lemma nonFinite?_eq_none_iff {x : Float} :
    nonFinite? x = none ↔ x.toBits.toNat / 2 ^ 52 % 2 ^ 11 ≠ 2047 := by
  change _ ↔ x.toBits.toNat / Nat.pow 2 52 % Nat.pow 2 11 ≠ 2047
  unfold nonFinite? exact
  dsimp only
  by_cases htop : x.toBits.toNat / Nat.pow 2 52 % Nat.pow 2 11 = 2047
  · rw [if_pos htop]
    exact iff_of_false (fun h => nomatch h) (fun h => h htop)
  · rw [if_neg htop]
    by_cases hbottom : x.toBits.toNat / Nat.pow 2 52 % Nat.pow 2 11 = 0
    · rw [if_pos hbottom]
      exact iff_of_true rfl htop
    · rw [if_neg hbottom]
      exact iff_of_true rfl htop

/-- The biased exponent can be read back from the bit pattern. -/
lemma biased_packComponents (s : Sign) {exponent : BitVec 11} (mantissa : BitVec 52) :
    (packComponents Format.binary64 s exponent mantissa).toNat / 2 ^ 52 % 2 ^ 11 =
      exponent.toNat := by
  have hexponent : exponent.toNat < 2 ^ 11 := exponent.isLt
  have hmantissa : mantissa.toNat < 2 ^ 52 := mantissa.isLt
  rw [toNat_packComponents]
  omega

/-- What is bounded is packed to a finite double. -/
lemma nonFinite?_ofUnpacked {u : UnpackedFloat} (h : IsBounded u) :
    nonFinite? (ofUnpacked u) = none := by
  rw [nonFinite?_eq_none_iff]
  change (UnpackedFloat.pack Format.binary64 u).toNat / 2 ^ 52 % 2 ^ 11 ≠ 2047
  cases h with
  | zero s =>
    change (packComponents Format.binary64 s 0#11 0#52).toNat / 2 ^ 52 % 2 ^ 11 ≠ 2047
    rw [biased_packComponents]
    decide
  | @finite s m e hm he =>
    change BitVec.toNat (if 2 ^ 11 ≤ (e + (1023 : Nat) + (52 : Nat)).toNat + 1 then _
      else if m.log2 + 1 = 1 + 52 then packComponents Format.binary64 s
        (BitVec.ofNat 11 (e + (1023 : Nat) + (52 : Nat)).toNat) (BitVec.ofNat 52 m)
      else packComponents Format.binary64 s 0#11 (BitVec.ofNat 52 m)) / 2 ^ 52 % 2 ^ 11 ≠ 2047
    rw [if_neg (by omega)]
    split
    · rw [biased_packComponents, BitVec.toNat_ofNat]
      omega
    · rw [biased_packComponents]
      decide

/-- A finite double is unpacked to something bounded. -/
lemma isBounded_unpack {x : Float} (h : nonFinite? x = none) : IsBounded x.toModel.unpack := by
  rw [nonFinite?_eq_none_iff] at h
  let bits : BitVec Format.binary64.numBits := x.toModel.toBits.toBitVec
  have hbiased : (unpackExponent bits).toNat = x.toBits.toNat / 2 ^ 52 % 2 ^ 11 :=
    toNat_unpackExponent bits
  have htop : unpackExponent bits ≠ -1#11 := by
    intro heq
    rw [heq] at hbiased
    exact h hbiased.symm
  change IsBounded (unpack Format.binary64 bits)
  unfold UnpackedFloat.unpack
  rw [if_neg htop]
  by_cases hbottom : unpackExponent bits = 0#11
  · rw [if_pos hbottom]
    by_cases hzero : unpackMantissa bits = 0#52
    · rw [dif_pos hzero]
      exact .zero _
    · rw [dif_neg hzero]
      refine .finite ?_
      change ((unpackExponent bits).toNat : Int) - ((1023 : Nat) + (52 : Nat)) + 1 ≤ 971
      rw [hbottom]
      decide
  · rw [if_neg hbottom]
    refine .finite ?_
    change ((unpackExponent bits).toNat : Int) - ((1023 : Nat) + (52 : Nat)) ≤ 971
    rw [hbiased]
    omega

end Double

end SheetRules
