import Mathlib.Tactic.Common
import SheetRules.Number.Format

/-!
# The characters of numbers

In every format a number is written with digits, signs, a point, the mark of an exponent and the
letters of the words for values that are no numbers, and it is written with at least one of them.
-/

namespace SheetRules

namespace NumberFormat

/-- The characters that numbers are written with. -/
def IsNumberChar (c : Char) : Prop :=
  c.isDigit = true ∨ c ∈ ['+', '-', '.', 'e', 'N', 'a', 'i', 'n', 'f']

/-- A text that is not empty and has only characters of numbers. -/
def IsNumberText (text : List Char) : Prop :=
  text ≠ [] ∧ ∀ c ∈ text, IsNumberChar c

/-- A character of a number does not end a line. -/
lemma IsNumberChar.ne {c d : Char} (h : IsNumberChar c) (hd : d = '\n' ∨ d = '\r') : c ≠ d := by
  rintro rfl
  rcases hd with rfl | rfl <;> revert h <;> unfold IsNumberChar <;> decide

/-- Digits are the text of a number. -/
lemma isNumberText_toDigits (n : Nat) : IsNumberText (Nat.toDigits 10 n) :=
  ⟨Nat.toDigits_ne_nil, fun _ hc => .inl (Nat.isDigit_of_mem_toDigits (by decide) (by decide) hc)⟩

variable {digits text more : List Char}

/-- The text of a number may go on with such characters. -/
lemma IsNumberText.append (h : IsNumberText text) (hmore : ∀ c ∈ more, IsNumberChar c) :
    IsNumberText (text ++ more) :=
  ⟨List.append_ne_nil_of_left_ne_nil h.1 _, List.forall_mem_append.mpr ⟨h.2, hmore⟩⟩

/-- The text of a number may begin with any of its characters. -/
lemma IsNumberText.cons {c : Char} (hc : IsNumberChar c) (h : ∀ d ∈ text, IsNumberChar d) :
    IsNumberText (c :: text) :=
  ⟨List.cons_ne_nil _ _, List.forall_mem_cons.mpr ⟨hc, h⟩⟩

/-- Zeros are characters of a number. -/
lemma isNumberChar_of_mem_replicate {n : Nat} {c : Char} (h : c ∈ List.replicate n '0') :
    IsNumberChar c :=
  .inl (List.eq_of_mem_replicate h ▸ rfl)

/-- Digits with a point among them are the text of a number. -/
lemma isNumberText_layPositional (keepPoint : Bool) (h : IsNumberText digits) (top : Int) :
    IsNumberText (layPositional keepPoint digits top) := by
  have hpoint : IsNumberChar '.' := .inr (by decide)
  have hzero : IsNumberChar '0' := .inl rfl
  unfold layPositional
  dsimp only
  split
  · refine .cons hzero (List.forall_mem_append.mpr ⟨?_, h.2⟩)
    exact List.forall_mem_cons.mpr ⟨hpoint, fun _ => isNumberChar_of_mem_replicate⟩
  split
  · refine (h.append fun _ => isNumberChar_of_mem_replicate).append ?_
    split
    · exact List.forall_mem_cons.mpr ⟨hpoint, List.forall_mem_singleton.mpr hzero⟩
    · exact List.forall_mem_nil _
  · have htake : ∀ c ∈ digits.take (top + 1).toNat, IsNumberChar c :=
      fun c hc => h.2 c (List.mem_of_mem_take hc)
    have hdrop : ∀ c ∈ digits.drop (top + 1).toNat, IsNumberChar c :=
      fun c hc => h.2 c (List.mem_of_mem_drop hc)
    exact ⟨by simp, List.forall_mem_append.mpr ⟨htake, List.forall_mem_cons.mpr ⟨hpoint, hdrop⟩⟩⟩

/-- Digits with an exponent are the text of a number. -/
lemma isNumberText_layExponent (h : IsNumberText digits) (top : Int) :
    IsNumberText (layExponent digits top) := by
  have hmark : IsNumberChar 'e' := .inr (by decide)
  have hsign : IsNumberChar (if top < 0 then '-' else '+') := by
    split <;> exact .inr (by decide)
  have hpoint : ∀ c ∈ (if digits.length ≤ 1 then [] else '.' :: digits.drop 1), IsNumberChar c := by
    split
    · exact List.forall_mem_nil _
    · exact List.forall_mem_cons.mpr ⟨.inr (by decide), fun c hc => h.2 c (List.mem_of_mem_drop hc)⟩
  have hexponent := (isNumberText_toDigits top.natAbs).2
  unfold layExponent
  refine ⟨by simp, ?_⟩
  simp only [List.forall_mem_append, List.forall_mem_cons]
  exact ⟨⟨fun c hc => h.2 c (List.mem_of_mem_take hc), hpoint⟩, hmark, hsign, hexponent⟩

/-- The text of a double in any format. -/
theorem isNumberText_text (format : NumberFormat) (x : Float) :
    IsNumberText (format.text x).toList := by
  unfold text
  split
  · rename_i reason _
    cases reason <;> simp [NonFinite.text, IsNumberText, IsNumberChar]
  · rename_i d _
    have hdigits : IsNumberText (if d.mantissa = 0 then layPositional format.keepPoint ['0'] 0
        else format.layout (Decimal.shortest format.tie d.mantissa d.exponent)) := by
      split
      · exact isNumberText_layPositional _ (isNumberText_toDigits 0) 0
      · unfold layout
        dsimp only
        split
        · exact isNumberText_layPositional _ (isNumberText_toDigits _) _
        · split
          · exact isNumberText_layPositional _ (isNumberText_toDigits _) _
          · exact isNumberText_layExponent (isNumberText_toDigits _) _
    rw [String.toList_ofList]
    split
    · exact .cons (.inr (by decide)) hdigits.2
    · exact hdigits

/-- The text of an integer. -/
lemma isNumberText_toString (n : Int) : IsNumberText (toString n).toList := by
  rw [Int.toString_eq_repr, Int.repr_eq_if]
  split
  · rw [Nat.toList_repr]
    exact isNumberText_toDigits _
  · rw [String.toList_append, Nat.toList_repr]
    exact .cons (.inr (by decide)) (isNumberText_toDigits _).2

end NumberFormat

end SheetRules
