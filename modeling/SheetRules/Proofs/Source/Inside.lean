import Mathlib.Data.List.Basic
import SheetRules.Proofs.Source.Places

/-!
# The places of a source

A source holds the places of its lines: on each line those of its bytes and the one after the last
of them.  Its lines are what stands between the line feeds, so a place that the source holds comes
with a line to show (`Source.Holds.exists_line`).

Merging two spans takes the first of their first places and adds no other.  To say so once for all
that is made by merging, every place is sent to a place that the source holds
(`Source.nearest`), and the places that it holds are those that stay.  This keeps the order of
places, hence it goes through merging (`Source.respectsMerge_settle`).
-/

namespace SheetRules

/-! ### The order of places -/

namespace Place

variable {p q : Place}

/-- Places are ordered by line, and on a line by column. -/
lemma le_iff : p.le q = true ↔ p.line < q.line ∨ p.line = q.line ∧ p.column ≤ q.column := by
  simp [le]

/-- Of two places one is not after the other. -/
lemma le_of_not_le (h : ¬p.le q = true) : q.le p = true := by
  rw [le_iff] at h ⊢
  omega

/-- Two places of which neither is after the other are the same. -/
lemma le_antisymm (hpq : p.le q = true) (hqp : q.le p = true) : p = q := by
  rw [le_iff] at hpq hqp
  obtain ⟨line, column⟩ := p
  obtain ⟨line', column'⟩ := q
  simp only at hpq hqp
  obtain rfl : line = line' := by omega
  obtain rfl : column = column' := by omega
  rfl

end Place

namespace Span

/-- A span is known by its two places. -/
lemma eq_of_places {s t : Span} (hfirst : s.first = t.first) (hlast : s.last = t.last) : s = t := by
  obtain ⟨hline, hcolumn⟩ := Place.mk.inj hfirst
  obtain ⟨hendLine, hendColumn⟩ := Place.mk.inj hlast
  obtain ⟨line, column, endLine, endColumn⟩ := s
  simp only at hline hcolumn hendLine hendColumn
  rw [hline, hcolumn, hendLine, hendColumn]

/-- A span with its first place changed. -/
def mapFirst (g : Place → Place) (s : Span) : Span :=
  ⟨(g s.first).line, (g s.first).column, s.endLine, s.endColumn⟩

/-- A span whose first place stays is not changed. -/
lemma mapFirst_eq_iff {g : Place → Place} {s : Span} : s.mapFirst g = s ↔ g s.first = s.first := by
  constructor
  · intro h
    exact congrArg first h
  · intro h
    rw [mapFirst, h]
    rfl

/-- A change that keeps the order of places can be made before or after merging. -/
lemma respectsMerge_mapFirst {g : Place → Place}
    (hg : ∀ p q, p.le q = true → (g p).le (g q) = true) : RespectsMerge (mapFirst g) := by
  intro s t
  have hfirst : g (if s.first.le t.first then s.first else t.first) =
      if (g s.first).le (g t.first) then g s.first else g t.first := by
    by_cases hle : s.first.le t.first = true
    · rw [if_pos hle, if_pos (hg _ _ hle)]
    · rw [if_neg hle]
      split
      · next hle' => exact Place.le_antisymm (hg _ _ (Place.le_of_not_le hle)) hle'
      · rfl
  exact eq_of_places hfirst rfl

end Span

namespace Source

variable {source : Source} {p q : Place} {front back : List Char}

/-! ### Lines -/

/-- The line of a given number: what stands between two line feeds, or between a line feed and an
end of the source. -/
def IsLine (source : Source) (number : Nat) (line : List Char) : Prop :=
  ∃ above below, source.text.toList = above ++ line ++ below ∧ '\n' ∉ line ∧
    above.count '\n' + 1 = number ∧ (above = [] ∨ ['\n'] <:+ above) ∧
    (below = [] ∨ ['\n'] <+: below)

/-- The lines of a source are counted from one. -/
lemma isLine_of_lines {index : Nat} {line : List Char} (h : source.lines[index]? = some line) :
    source.IsLine (index + 1) line := by
  obtain ⟨above, below, htext, hline, hcount, habove, hbelow⟩ := Text.exists_of_getElem?_split h
  exact ⟨above, below, htext, hline, by rw [hcount], habove, hbelow⟩

/-- What is shown of a line is the line up to the carriage returns at its end. -/
lemma exists_shown (line : List Char) :
    ∃ returns, line = (shown line).toList ++ returns ∧ (∀ c ∈ returns, c = '\r') ∧
      (shown line).toList.getLast? ≠ some '\r' := by
  refine ⟨(line.reverse.takeWhile (· = '\r')).reverse, ?_, ?_, ?_⟩
  · rw [shown, String.toList_ofList, ← List.reverse_append, List.takeWhile_append_dropWhile,
      List.reverse_reverse]
  · intro c hc
    rw [List.mem_reverse] at hc
    simpa using List.all_eq_true.mp List.all_takeWhile c hc
  · rw [shown, String.toList_ofList, List.getLast?_reverse]
    intro hlast
    have hnot := List.not_of_mem_head?_dropWhile (Option.mem_def.mpr hlast)
    simp at hnot

/-! ### The places that a source holds -/

/-- The place is on a line of the source, at one of its bytes or right after them. -/
def Holds (source : Source) (p : Place) : Prop :=
  ∃ index line, source.lines[index]? = some line ∧ p.line = index + 1 ∧ 1 ≤ p.column ∧
    p.column ≤ Text.byteLength line + 1

/-- The place after any first part of the text. -/
lemma holds_after (hsource : source.text.toList = front ++ back) :
    source.Holds (Place.start.after front) := by
  obtain ⟨above, line, hline, hplace, hsplit⟩ := Place.exists_line front
  obtain ⟨first, more, hback⟩ := List.exists_cons_of_ne_nil (Text.split_ne_nil '\n' back)
  have hlines : source.lines = above ++ (line ++ first) :: more := by
    rw [lines, hsource, hsplit, Text.split_append_cons hline hback]
  refine ⟨above.length, line ++ first, by simp [hlines], ?_, ?_, ?_⟩
  · rw [hplace]
  · rw [hplace]
    exact Nat.le_add_left ..
  · rw [hplace, Text.byteLength_append]
    simp only
    omega

/-- A source has its start. -/
lemma holds_start (source : Source) : source.Holds .start :=
  holds_after (List.nil_append _).symm

/-- The last place of a source. -/
def finish (source : Source) : Place :=
  Place.start.after source.text.toList

/-- A source has its end. -/
lemma holds_finish (source : Source) : source.Holds source.finish :=
  holds_after (List.append_nil _).symm

namespace Holds

/-- No place of a source is before its start. -/
lemma start_le (h : source.Holds p) : Place.start.le p = true := by
  obtain ⟨index, line, -, hline, hcolumn, -⟩ := h
  rw [Place.le_iff, hline]
  simp only [Place.start]
  omega

/-- No place of a source is after its end. -/
lemma le_finish (h : source.Holds p) : p.le source.finish = true := by
  obtain ⟨above, last, hlast, hfinish, hsplit⟩ := Place.exists_line source.text.toList
  have hlines : source.lines = above ++ [last] := by
    have hall := hsplit []
    rw [List.append_nil, List.append_nil, Text.split_of_not_mem hlast] at hall
    exact hall
  obtain ⟨index, line, hline, hnumber, -, hcolumn⟩ := h
  rw [Place.le_iff, finish, hfinish, hnumber]
  simp only
  rw [hlines] at hline
  have hindex : index < (above ++ [last]).length := (List.getElem?_eq_some_iff.mp hline).1
  rw [List.length_append, List.length_singleton] at hindex
  by_cases heq : index = above.length
  · -- on the last line the columns decide
    subst heq
    obtain rfl : last = line := by simpa using hline
    omega
  · omega

/-- The line of a place is there, and the column is one of its bytes or right after them. -/
lemma exists_line (h : source.Holds p) :
    ∃ raw, source.IsLine p.line raw ∧ source.line? p.line = some (shown raw) ∧
      (1 ≤ p.line ∧ p.line ≤ source.lineCount) ∧
      1 ≤ p.column ∧ p.column ≤ Text.byteLength raw + 1 := by
  obtain ⟨index, raw, hline, hnumber, hcolumn⟩ := h
  have hlength : index < source.lineCount := (List.getElem?_eq_some_iff.mp hline).1
  rw [hnumber]
  refine ⟨raw, isLine_of_lines hline, ?_, ⟨Nat.le_add_left .., hlength⟩, hcolumn⟩
  rw [line?, hline, Option.map_some]

end Holds

/-- The place of the source that stands for a place: the place itself if the source holds it, or
else the closest one on its line, or else an end of the source. -/
def nearest (source : Source) (p : Place) : Place :=
  match p.line with
  | 0 => .start
  | index + 1 =>
    match source.lines[index]? with
    | some line => ⟨index + 1, max 1 (min p.column (Text.byteLength line + 1))⟩
    | none => source.finish

/-- Before the first line the start is nearest. -/
lemma nearest_of_line_eq_zero (h : p.line = 0) : source.nearest p = .start := by
  rw [nearest, h]

/-- On a line of the source the nearest place is on that line. -/
lemma nearest_of_line {index : Nat} {line : List Char} (h : p.line = index + 1)
    (hline : source.lines[index]? = some line) :
    source.nearest p = ⟨index + 1, max 1 (min p.column (Text.byteLength line + 1))⟩ := by
  simp only [nearest, h, hline]

/-- After the last line the end is nearest. -/
lemma nearest_of_no_line {index : Nat} (h : p.line = index + 1)
    (hline : source.lines[index]? = none) : source.nearest p = source.finish := by
  simp only [nearest, h, hline]

/-- The nearest place is one of the source. -/
lemma holds_nearest (source : Source) (p : Place) : source.Holds (source.nearest p) := by
  cases hnumber : p.line with
  | zero =>
    rw [nearest_of_line_eq_zero hnumber]
    exact holds_start source
  | succ index =>
    cases hline : source.lines[index]? with
    | none =>
      rw [nearest_of_no_line hnumber hline]
      exact holds_finish source
    | some line =>
      rw [nearest_of_line hnumber hline]
      refine ⟨index, line, hline, rfl, Nat.le_max_left .., ?_⟩
      exact Nat.max_le.mpr ⟨Nat.le_add_left .., Nat.min_le_right ..⟩

/-- The places that stay are those that the source holds. -/
lemma nearest_eq_iff : source.nearest p = p ↔ source.Holds p := by
  constructor
  · intro h
    rw [← h]
    exact holds_nearest source p
  · rintro ⟨index, line, hline, hnumber, hpos, hcolumn⟩
    rw [nearest_of_line hnumber hline, Nat.min_eq_left hcolumn, Nat.max_eq_right hpos, ← hnumber]

/-- Going to the nearest place keeps the order. -/
lemma nearest_le_nearest (h : p.le q = true) : (source.nearest p).le (source.nearest q) = true := by
  rw [Place.le_iff] at h
  cases hnumber : p.line with
  | zero =>
    rw [nearest_of_line_eq_zero hnumber]
    exact (holds_nearest source q).start_le
  | succ index =>
    obtain ⟨index', hnumber'⟩ : ∃ index', q.line = index' + 1 :=
      Nat.exists_eq_succ_of_ne_zero (by omega)
    cases hline' : source.lines[index']? with
    | none =>
      rw [nearest_of_no_line hnumber' hline']
      exact (holds_nearest source p).le_finish
    | some line' =>
      -- the first place is not below the second one, so it is on a line as well
      have hlength : index' < source.lines.length := (List.getElem?_eq_some_iff.mp hline').1
      obtain ⟨line, hline⟩ : ∃ line, source.lines[index]? = some line :=
        ⟨_, List.getElem?_eq_getElem (by omega)⟩
      rw [nearest_of_line hnumber hline, nearest_of_line hnumber' hline', Place.le_iff]
      by_cases heq : index = index'
      · subst heq
        obtain rfl : line = line' := Option.some.inj (hline.symm.trans hline')
        have hcolumn : p.column ≤ q.column := by omega
        refine .inr ⟨rfl, ?_⟩
        simp only
        omega
      · refine .inl ?_
        simp only
        omega

/-- The span whose first place is one of the source. -/
def settle (source : Source) : Span → Span :=
  Span.mapFirst source.nearest

/-- A span stays where it is exactly if it begins at a place of the source. -/
lemma settle_eq_iff {s : Span} : source.settle s = s ↔ source.Holds s.first :=
  Span.mapFirst_eq_iff.trans nearest_eq_iff

/-- Moving spans to the source goes through merging. -/
lemma respectsMerge_settle (source : Source) : Span.RespectsMerge source.settle :=
  Span.respectsMerge_mapFirst fun _ _ => nearest_le_nearest

end Source

end SheetRules
