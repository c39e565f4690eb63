import Mathlib.Tactic.Common
import SheetRules.Text.Split

/-!
# Cutting texts

Lines, tokens and names are all cut off as the longest run of elements of some kind.  An element of
another kind ends the run, and then it does not matter what comes after it.  Cutting a text at a
separator is undone by joining its parts with the separator.
-/

namespace List

variable {α : Type*} {p : α → Bool} {x : α}

/-- What is taken ends at a member that stops it, whatever comes after that. -/
lemma takeWhile_append_stop (hx : p x = false) (front back : List α) :
    (front ++ x :: back).takeWhile p = front.takeWhile p := by
  induction front with
  | nil => simp [hx]
  | cons y front ih =>
    rw [cons_append, takeWhile_cons, takeWhile_cons, ih]

/-- What is left begins at such a member. -/
lemma dropWhile_append_stop (hx : p x = false) (front back : List α) :
    (front ++ x :: back).dropWhile p = front.dropWhile p ++ x :: back := by
  induction front with
  | nil => simp [hx]
  | cons y front ih =>
    rw [cons_append, dropWhile_cons, dropWhile_cons, ih]
    split <;> rfl

/-- Dropping what is under one key does not matter to another. -/
lemma lookup_filter_ne {β : Type*} [BEq α] [LawfulBEq α] [DecidableEq α] {key other : α}
    (h : other ≠ key) (entries : List (α × β)) :
    (entries.filter fun entry => entry.1 ≠ key).lookup other = entries.lookup other := by
  induction entries with
  | nil => rfl
  | cons entry rest ih =>
    obtain ⟨k, b⟩ := entry
    by_cases hk : k = key
    · have hother : (other == k) = false := beq_eq_false_iff_ne.mpr (hk ▸ h)
      rw [filter_cons_of_neg (by simpa using hk), lookup_cons, hother, ih]
    · rw [filter_cons_of_pos (by simpa using hk), lookup_cons, lookup_cons, ih]

/-- A run is as long as it can be. -/
lemma not_of_mem_head?_dropWhile {l : List α} (hx : x ∈ (l.dropWhile p).head?) : p x = false := by
  have hnot := head?_dropWhile_not p l
  rwa [Option.mem_def.mp hx] at hnot

end List

namespace SheetRules

namespace Text

variable {separator : Char} {part : List Char}

/-- What stands before the first separator is part of the first part. -/
lemma split_append_cons (h : separator ∉ part) {rest first : List Char} {more : List (List Char)}
    (hrest : split separator rest = first :: more) :
    split separator (part ++ rest) = (part ++ first) :: more := by
  induction part with
  | nil => exact hrest
  | cons c part ih =>
    rw [List.mem_cons, not_or] at h
    simp [split, Ne.symm h.1, ih h.2]

/-- A text without the separator is its only part. -/
lemma split_of_not_mem (h : separator ∉ part) : split separator part = [part] := by
  simpa using split_append_cons h (show split separator [] = [[]] from rfl)

/-- The first part ends at the first separator. -/
lemma split_append_separator (h : separator ∉ part) (rest : List Char) :
    split separator (part ++ separator :: rest) = part :: split separator rest := by
  have hrest : split separator (separator :: rest) = [] :: split separator rest := by
    simp [split]
  simpa using split_append_cons h hrest

/-- Parts that do not hold the separator are found again when they are joined with it and cut. -/
theorem split_intercalate {parts : List (List Char)} (hne : parts ≠ [])
    (hparts : ∀ part ∈ parts, separator ∉ part) :
    split separator ([separator].intercalate parts) = parts := by
  induction parts with
  | nil => exact absurd rfl hne
  | cons part rest ih =>
    have hpart : separator ∉ part := hparts part (List.mem_cons_self ..)
    cases rest with
    | nil =>
      rw [List.intercalate_singleton]
      exact split_of_not_mem hpart
    | cons next rest =>
      have hrest := ih (List.cons_ne_nil _ _) fun p hp => hparts p (List.mem_cons_of_mem _ hp)
      rw [List.intercalate_cons_cons, List.append_assoc, List.singleton_append,
        split_append_separator hpart, hrest]

/-- The parts of a text, joined with the separator, are the text. -/
theorem intercalate_split (separator : Char) (text : List Char) :
    [separator].intercalate (split separator text) = text := by
  induction text with
  | nil => rfl
  | cons c rest ih =>
    obtain ⟨first, more, hsplit⟩ := List.exists_cons_of_ne_nil (split_ne_nil separator rest)
    rw [hsplit] at ih
    by_cases hc : c = separator
    · rw [split, if_pos hc, hsplit, List.intercalate_cons_cons, ih, hc]
      rfl
    · rw [split, if_neg hc, hsplit]
      cases more with
      | nil =>
        rw [List.intercalate_singleton] at ih ⊢
        rw [ih]
      | cons next more =>
        rw [List.intercalate_cons_cons] at ih ⊢
        rw [List.cons_append, List.cons_append, ih]

/-- Where a part stands: it begins at the start of the text or after a separator, it ends at the end
of the text or before a separator, and there are as many separators before it as parts. -/
lemma exists_of_getElem?_split {text : List Char} {index : Nat}
    (h : (split separator text)[index]? = some part) :
    ∃ above below, text = above ++ part ++ below ∧ separator ∉ part ∧
      above.count separator = index ∧ (above = [] ∨ [separator] <:+ above) ∧
      (below = [] ∨ [separator] <+: below) := by
  induction text generalizing index part with
  | nil =>
    cases index with
    | zero =>
      obtain rfl : [] = part := Option.some.inj h
      exact ⟨[], [], rfl, List.not_mem_nil, rfl, .inl rfl, .inl rfl⟩
    | succ index => exact nomatch h
  | cons c rest ih =>
    by_cases hc : c = separator
    · rw [split, if_pos hc] at h
      subst hc
      cases index with
      | zero =>
        obtain rfl : [] = part := Option.some.inj h
        exact ⟨[], c :: rest, rfl, List.not_mem_nil, rfl, .inl rfl, .inr ⟨rest, rfl⟩⟩
      | succ index =>
        obtain ⟨above, below, rfl, hpart, hcount, habove, hbelow⟩ := ih h
        refine ⟨c :: above, below, rfl, hpart, ?_, .inr ?_, hbelow⟩
        · rw [List.count_cons_self, hcount]
        · obtain rfl | hsuffix := habove
          · exact List.suffix_refl _
          · exact hsuffix.trans (List.suffix_cons c above)
    · -- the character is put in front of the first part, and all other parts stay
      obtain ⟨first, more, hsplit⟩ := List.exists_cons_of_ne_nil (split_ne_nil separator rest)
      rw [split, if_neg hc, hsplit] at h
      cases index with
      | zero =>
        obtain rfl : c :: first = part := Option.some.inj h
        have hfirst : (split separator rest)[0]? = some first := by rw [hsplit]; rfl
        obtain ⟨above, below, htext, hpart, hcount, habove, hbelow⟩ := ih hfirst
        obtain rfl | ⟨front, rfl⟩ := habove
        · refine ⟨[], below, by rw [htext]; rfl, ?_, rfl, .inl rfl, hbelow⟩
          rw [List.mem_cons, not_or]
          exact ⟨Ne.symm hc, hpart⟩
        · simp at hcount
      | succ index =>
        have hlater : (split separator rest)[index + 1]? = some part := by rw [hsplit]; exact h
        obtain ⟨above, below, htext, hpart, hcount, habove, hbelow⟩ := ih hlater
        obtain rfl | hsuffix := habove
        · simp at hcount
        · refine ⟨c :: above, below, by rw [htext]; rfl, hpart, ?_, .inr ?_, hbelow⟩
          · rw [List.count_cons_of_ne hc, hcount]
          · exact hsuffix.trans (List.suffix_cons c above)

end Text

end SheetRules
