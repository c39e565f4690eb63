import SheetRules.Proofs.Source.Places
import SheetRules.Source.Table

/-!
# The table of lines gives the lines

The starts of the lines, and the slices between them, are counted in bytes; the lines of a source
are the parts of its text between the line feeds.  Looking a line up in the table never asks for a
slice that the text does not have, and it gives the line (`IndexedSource.lookup_eq_ok_line?`).

Both sides take the text apart in the same way: the first line, and what comes after its line feed
(`Text.lines_induction`).  So the starts are those of the rest, moved by the bytes of the first line
and its line feed.
-/

namespace SheetRules

namespace Text

/-! ### Slices -/

/-- A text can be cut after each of its parts. -/
lemma cutAt?_byteLength (front back : List Char) :
    cutAt? (byteLength front) (front ++ back) = some (front, back) := by
  induction front with
  | nil => cases back <;> rfl
  | cons c rest ih =>
    have hsize := c.utf8Size_pos
    obtain ⟨n, hn⟩ : ∃ n, byteLength (c :: rest) = n + 1 := by
      refine ⟨byteLength (c :: rest) - 1, ?_⟩
      rw [byteLength_cons]
      omega
    have hrest : n + 1 - c.utf8Size = byteLength rest := by
      rw [← hn, byteLength_cons, Nat.add_sub_cancel_left]
    have hle : c.utf8Size ≤ n + 1 := by
      rw [← hn, byteLength_cons]
      exact Nat.le_add_right _ _
    rw [hn, List.cons_append, cutAt?, if_pos hle, hrest, ih]
    rfl

/-- The slice between the offsets before and after a part is that part. -/
lemma slice?_byteLength (front part back : List Char) :
    slice? (byteLength front) (byteLength front + byteLength part) (front ++ part ++ back) =
      some part := by
  have houter := cutAt?_byteLength (front ++ part) back
  rw [byteLength_append] at houter
  simp only [slice?, houter, cutAt?_byteLength, Option.bind_eq_bind, Option.bind_some,
    Option.pure_def]

/-! ### Starts of lines -/

/-- Induction on the lines of a text: a text is a single line, or a line and a line feed before the
other lines. -/
lemma lines_induction {motive : List Char → Prop}
    (single : ∀ line, '\n' ∉ line → motive line)
    (line : ∀ line rest, '\n' ∉ line → motive rest → motive (line ++ '\n' :: rest))
    (text : List Char) : motive text := by
  have hall : ∀ front, '\n' ∉ front → motive (front ++ text) := by
    induction text with
    | nil =>
      intro front hfront
      rw [List.append_nil]
      exact single front hfront
    | cons c rest ih =>
      intro front hfront
      by_cases hc : c = '\n'
      · subst hc
        exact line front rest hfront (ih [] List.not_mem_nil)
      · have hmore : '\n' ∉ front ++ [c] := by simp [hfront, Ne.symm hc]
        have happend := ih (front ++ [c]) hmore
        rwa [List.append_assoc, List.singleton_append] at happend
  exact hall [] List.not_mem_nil

variable {line : List Char}

/-- Nothing starts after a line without a line feed. -/
lemma offsetsAfter_of_not_mem (h : '\n' ∉ line) (offset : Nat) :
    offsetsAfter '\n' offset line = [] := by
  induction line generalizing offset with
  | nil => rfl
  | cons c rest ih =>
    rw [List.mem_cons, not_or] at h
    rw [offsetsAfter, if_neg (Ne.symm h.1), ih h.2]

/-- The next line starts after the bytes of the first one and its line feed. -/
lemma offsetsAfter_append (h : '\n' ∉ line) (offset : Nat) (rest : List Char) :
    offsetsAfter '\n' offset (line ++ '\n' :: rest) =
      (offset + byteLength line + 1) ::
        offsetsAfter '\n' (offset + byteLength line + 1) rest := by
  induction line generalizing offset with
  | nil => rfl
  | cons c line ih =>
    rw [List.mem_cons, not_or] at h
    rw [List.cons_append, offsetsAfter, if_neg (Ne.symm h.1), ih h.2, byteLength_cons,
      Nat.add_assoc offset]

/-- There is a start for every line. -/
lemma length_offsetsAfter (offset : Nat) (text : List Char) :
    (offset :: offsetsAfter '\n' offset text).length = (split '\n' text).length := by
  induction text using lines_induction generalizing offset with
  | single line h =>
    rw [offsetsAfter_of_not_mem h, split_of_not_mem h]
    rfl
  | line line rest h ih =>
    rw [offsetsAfter_append h, split_append_separator h, List.length_cons, ih, List.length_cons]

/-- A line stands between its start and the next one.  In front of it there are as many bytes as its
start says; after it comes a line feed, and the next start is behind that, or the text is over and
there is no other start. -/
lemma exists_of_getElem?_lines {text : List Char} {index : Nat} (offset : Nat)
    (h : (split '\n' text)[index]? = some line) :
    ∃ front back, text = front ++ line ++ back ∧
      (offset :: offsetsAfter '\n' offset text)[index]? = some (offset + byteLength front) ∧
      ((offset :: offsetsAfter '\n' offset text)[index + 1]? =
          some (offset + byteLength front + byteLength line + 1) ∨
        back = [] ∧ (offset :: offsetsAfter '\n' offset text)[index + 1]? = none) := by
  induction text using lines_induction generalizing offset index with
  | single text htext =>
    rw [split_of_not_mem htext] at h
    rw [offsetsAfter_of_not_mem htext]
    cases index with
    | zero =>
      obtain rfl : text = line := Option.some.inj h
      exact ⟨[], [], (List.append_nil text).symm, rfl, .inr ⟨rfl, rfl⟩⟩
    | succ index => cases h
  | line first rest hfirst ih =>
    rw [split_append_separator hfirst] at h
    rw [offsetsAfter_append hfirst]
    cases index with
    | zero =>
      obtain rfl : first = line := Option.some.inj h
      exact ⟨[], '\n' :: rest, rfl, rfl, .inl rfl⟩
    | succ index =>
      -- the offsets of the later lines are counted from the line before
      obtain ⟨front, back, rfl, hstart, hnext⟩ := ih (offset + byteLength first + 1) h
      have hmoved : offset + byteLength first + 1 + byteLength front =
          offset + byteLength (first ++ '\n' :: front) := by
        have hfeed : '\n'.utf8Size = 1 := rfl
        rw [byteLength_append, byteLength_cons, hfeed]
        omega
      refine ⟨first ++ '\n' :: front, back, by simp, ?_, ?_⟩
      · rw [List.getElem?_cons_succ, hstart, hmoved]
      · rw [List.getElem?_cons_succ, ← hmoved]
        exact hnext

end Text

namespace IndexedSource

variable (source : IndexedSource)

/-- The table has an entry for every line. -/
theorem count_eq_lineCount : source.count = source.lineCount := by
  rw [count, source.lineStarts_eq, Text.length_offsetsAfter]
  rfl

/-- **The table gives the lines.**  Looking up a line never asks for a slice that the text does not
have, and it gives the line of that number, if there is one. -/
theorem lookup_eq_ok_line? (number : Nat) : source.lookup number = .ok (source.line? number) := by
  cases number with
  | zero => rfl
  | succ index =>
    rw [lookup, Source.line?]
    have hlength := source.count_eq_lineCount
    cases hline : source.lines[index]? with
    | none =>
      have hnone : source.lineStarts[index]? = none := by
        rw [List.getElem?_eq_none_iff] at hline ⊢
        exact Nat.le_trans (Nat.le_of_eq hlength) hline
      rw [hnone]
      rfl
    | some line =>
      obtain ⟨front, back, htext, hstart, hnext⟩ := Text.exists_of_getElem?_lines 0 hline
      rw [← source.lineStarts_eq, Nat.zero_add] at hstart hnext
      have hstop : source.stopOf index = Text.byteLength front + Text.byteLength line := by
        rw [stopOf]
        obtain hnext | ⟨rfl, hnext⟩ := hnext
        · rw [hnext]
          exact Nat.add_sub_cancel _ 1
        · rw [hnext, htext, List.append_nil, Text.byteLength_append]
      rw [hstart]
      dsimp only
      rw [hstop, htext, Text.slice?_byteLength]
      rfl

end IndexedSource

end SheetRules
