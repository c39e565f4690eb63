import Mathlib.Data.List.Induction
import SheetRules.Proofs.Feature.Spans
import SheetRules.Proofs.Text.Cuts
import SheetRules.Source.Basic
import SheetRules.Text.Bytes

/-!
# Places and the lines of a source

A place counts lines and the bytes of a line.  What a place means is said here with the lines of the
source: the place after the first part of a text is on the last line of that part, one byte after
its end (`Place.exists_line`).  A piece of text that holds no line feed therefore stands on one
line, in the columns of its span, and a line feed stands at the end of a line.
-/

namespace SheetRules

namespace Text

/-- No text has no bytes. -/
@[simp] lemma byteLength_nil : byteLength [] = 0 := rfl

/-- The bytes of a text are those of its characters. -/
@[simp] lemma byteLength_cons (c : Char) (rest : List Char) :
    byteLength (c :: rest) = c.utf8Size + byteLength rest := rfl

/-- The bytes of two texts are added. -/
@[simp] lemma byteLength_append (text more : List Char) :
    byteLength (text ++ more) = byteLength text + byteLength more := by
  induction text with
  | nil => simp
  | cons c rest ih => rw [List.cons_append, byteLength_cons, byteLength_cons, ih, Nat.add_assoc]

/-- A text that is not empty has bytes. -/
lemma byteLength_pos {text : List Char} (h : text ≠ []) : 0 < byteLength text := by
  obtain ⟨c, rest, rfl⟩ := List.exists_cons_of_ne_nil h
  have hpos := c.utf8Size_pos
  rw [byteLength_cons]
  omega

end Text

namespace Place

/-- No text leads nowhere. -/
@[simp] lemma after_nil (p : Place) : p.after [] = p := rfl

/-- A text is passed character by character. -/
@[simp] lemma after_cons (p : Place) (c : Char) (text : List Char) :
    p.after (c :: text) = (p.next c).after text := rfl

/-- Two texts are passed one after the other. -/
lemma after_append (p : Place) (text more : List Char) :
    p.after (text ++ more) = (p.after text).after more :=
  List.foldl_append

/-- A line feed leads to the start of the next line. -/
lemma next_lineFeed (p : Place) : p.next '\n' = ⟨p.line + 1, 1⟩ := rfl

/-- Without a line feed, only the column changes. -/
lemma after_of_not_mem {text : List Char} (h : '\n' ∉ text) (p : Place) :
    p.after text = ⟨p.line, p.column + Text.byteLength text⟩ := by
  induction text generalizing p with
  | nil => rfl
  | cons c rest ih =>
    rw [List.mem_cons, not_or] at h
    rw [after_cons, next, if_neg (Ne.symm h.1), ih h.2, Text.byteLength_cons, Nat.add_assoc]

/-! ### Moving down -/

/-- The same place some lines further down. -/
def down (lines : Nat) (p : Place) : Place := ⟨p.line + lines, p.column⟩

/-- Further down, a character is passed in the same way. -/
lemma next_down (lines : Nat) (p : Place) (c : Char) :
    (p.down lines).next c = (p.next c).down lines := by
  unfold next
  split
  · rw [down, down, Nat.add_right_comm]
  · rfl

/-- Further down, a text is passed in the same way. -/
lemma after_down (lines : Nat) (p : Place) (text : List Char) :
    (p.down lines).after text = (p.after text).down lines := by
  induction text generalizing p with
  | nil => rfl
  | cons c rest ih => rw [after_cons, after_cons, next_down, ih]

/-- A span between places further down is further down. -/
lemma between_down (lines : Nat) (p q : Place) :
    Span.between (p.down lines) (q.down lines) = (Span.between p q).down lines := rfl

/-! ### Bounds -/

/-- A text has no more line feeds than bytes. -/
lemma line_after_le (p : Place) (text : List Char) :
    (p.after text).line ≤ p.line + Text.byteLength text := by
  induction text generalizing p with
  | nil => exact Nat.le_refl _
  | cons c rest ih =>
    have hrest := ih (p.next c)
    have hnext : (p.next c).line ≤ p.line + c.utf8Size := by
      have hsize := c.utf8Size_pos
      unfold next
      split <;> dsimp only <;> omega
    rw [after_cons, Text.byteLength_cons]
    omega

/-- The column grows by at most the bytes of the text. -/
lemma column_after_le {p : Place} (hcolumn : 1 ≤ p.column) (text : List Char) :
    (p.after text).column ≤ p.column + Text.byteLength text := by
  induction text generalizing p with
  | nil => exact Nat.le_refl _
  | cons c rest ih =>
    have hnext : 1 ≤ (p.next c).column ∧ (p.next c).column ≤ p.column + c.utf8Size := by
      unfold next
      split <;> dsimp only <;> omega
    have hrest := ih hnext.1
    rw [after_cons, Text.byteLength_cons]
    omega

/-- **Places fit into 32 bits.**  In a text of less than 4 GiB, less one byte, no counter of a place
overflows 32 bits. -/
theorem after_start_lt {front back : List Char}
    (h : Text.byteLength (front ++ back) + 1 < UInt32.size) :
    (start.after front).line < UInt32.size ∧ (start.after front).column < UInt32.size := by
  have hline := line_after_le start front
  have hcolumn := column_after_le (p := start) (Nat.le_refl 1) front
  rw [Text.byteLength_append] at h
  dsimp only [start] at hline hcolumn ⊢
  omega

/-! ### Lines -/

/-- Before a place there are whole lines and the beginning of a line, whatever the text goes on
with. -/
lemma exists_line (text : List Char) :
    ∃ above line, '\n' ∉ line ∧
      start.after text = ⟨above.length + 1, Text.byteLength line + 1⟩ ∧
      ∀ rest, Text.split '\n' (text ++ rest) = above ++ Text.split '\n' (line ++ rest) := by
  induction text using List.reverseRecOn with
  | nil => exact ⟨[], [], List.not_mem_nil, rfl, fun _ => rfl⟩
  | append_singleton text c ih =>
    obtain ⟨above, line, hline, hplace, hsplit⟩ := ih
    by_cases hc : c = '\n'
    · -- the line is over, and the next one is still empty
      subst hc
      refine ⟨above ++ [line], [], List.not_mem_nil, ?_, fun rest => ?_⟩
      · rw [after_append, hplace, after_cons, next_lineFeed, List.length_append]
        rfl
      · rw [List.append_assoc, List.singleton_append, hsplit, Text.split_append_separator hline]
        simp
    · refine ⟨above, line ++ [c], ?_, ?_, fun rest => ?_⟩
      · simp [hline, Ne.symm hc]
      · rw [after_append, hplace, after_cons, next, if_neg hc, Text.byteLength_append,
          Text.byteLength_cons, Text.byteLength_nil]
        simp only [after_nil, Place.mk.injEq, true_and]
        omega
      · rw [List.append_assoc, List.append_assoc, hsplit]

/-- The last place of a text is on its last line. -/
lemma line_after_start (text : List Char) :
    (start.after text).line = (Text.split '\n' text).length := by
  obtain ⟨above, line, hline, hplace, hsplit⟩ := exists_line text
  have hlines := hsplit []
  rw [List.append_nil, List.append_nil, Text.split_of_not_mem hline] at hlines
  rw [hplace, hlines, List.length_append, List.length_singleton]

end Place

namespace Source

variable (source : Source)

/-- The text stands on one line of the source, and the span goes from the column of its first byte
to the column of its last byte. -/
def HasAt (span : Span) (text : List Char) : Prop :=
  ∃ index before after, source.lines[index]? = some (before ++ text ++ after) ∧
    span = ⟨index + 1, Text.byteLength before + 1, index + 1, Text.byteLength (before ++ text)⟩

/-- A line of the source that is not the last one ends at the place. -/
def LineEndsAt (p : Place) : Prop :=
  ∃ index line, source.lines[index]? = some line ∧ index + 1 < source.lineCount ∧
    p = ⟨index + 1, Text.byteLength line + 1⟩

variable {source} {front text back : List Char}

/-- A piece of text without a line feed stands at its span. -/
lemma hasAt_between (hsource : source.text.toList = front ++ (text ++ back)) (hne : text ≠ [])
    (htext : '\n' ∉ text) :
    source.HasAt (.between (Place.start.after front) ((Place.start.after front).after text))
      text := by
  obtain ⟨above, line, hline, hplace, hsplit⟩ := Place.exists_line front
  obtain ⟨first, more, hback⟩ := List.exists_cons_of_ne_nil (Text.split_ne_nil '\n' back)
  have hpart : '\n' ∉ line ++ text := by simp [hline, htext]
  have hlines : source.lines = above ++ (line ++ text ++ first) :: more := by
    rw [lines, hsource, hsplit, ← List.append_assoc, Text.split_append_cons hpart hback]
  refine ⟨above.length, line, first, by simp [hlines], ?_⟩
  have hpos := Text.byteLength_pos hne
  rw [Place.after_of_not_mem htext, hplace, Span.between, Text.byteLength_append]
  simp only [Span.mk.injEq, true_and]
  omega

/-- A line feed stands where a line ends. -/
lemma lineEndsAt_after (hsource : source.text.toList = front ++ '\n' :: back) :
    source.LineEndsAt (Place.start.after front) := by
  obtain ⟨above, line, hline, hplace, hsplit⟩ := Place.exists_line front
  have hlines : source.lines = above ++ line :: Text.split '\n' back := by
    rw [lines, hsource, hsplit, Text.split_append_separator hline]
  refine ⟨above.length, line, by simp [hlines], ?_, hplace⟩
  have hpos := List.length_pos_iff.mpr (Text.split_ne_nil '\n' back)
  rw [lineCount, hlines, List.length_append, List.length_cons]
  omega

end Source

end SheetRules
