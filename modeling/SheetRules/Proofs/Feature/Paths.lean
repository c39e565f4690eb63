import Mathlib.Tactic.Common
import SheetRules.Proofs.Feature.Occurrences
import SheetRules.Proofs.Text.Cuts
import SheetRules.Store.Basic
import SheetRules.Token.Piece

/-!
# Paths and their segments

A segment of a path is written with letters, digits and underscores, and a template has braces
around these.  None of them is empty and none holds a dot, so the text of a path, cut at its dots,
gives back the segments of the path.
-/

namespace SheetRules

/-- The text is a name: it is not empty, and it has only characters that names go on with. -/
def IsName (text : String) : Prop :=
  text ≠ "" ∧ ∀ c ∈ text.toList, Piece.isNamePart c = true

/-- A name holds no dot. -/
lemma IsName.dot_not_mem {text : String} (h : IsName text) : '.' ∉ text.toList := by
  intro hdot
  have hpart := h.2 '.' hdot
  revert hpart
  decide

namespace Segment

/-- The segment is a name, or a template around one. -/
def IsProper : Segment → Prop
  | .name text => IsName text
  | .template text => IsName text

/-- A proper segment has a text. -/
lemma IsProper.text_ne_empty {segment : Segment} (h : segment.IsProper) : segment.text ≠ "" := by
  cases segment with
  | name text => exact h.1
  | template text => simp [Segment.text, templateText]

/-- A proper segment has no dot in its text. -/
lemma IsProper.dot_not_mem {segment : Segment} (h : segment.IsProper) :
    '.' ∉ segment.text.toList := by
  cases segment with
  | name text => exact IsName.dot_not_mem h
  | template text => simp [Segment.text, templateText, IsName.dot_not_mem h]

end Segment

namespace Path

/-- The path has segments, and all of them are proper. -/
def IsProper (p : Path) : Prop :=
  p.segments ≠ [] ∧ ∀ segment ∈ p.segments, segment.IsProper

/-- The text of a path, cut at its dots, gives back the segments. -/
theorem IsProper.pathSegments_text {p : Path} (h : p.IsProper) :
    pathSegments p.text = p.segments.map Segment.text := by
  let parts := p.segments.map fun segment => segment.text.toList
  have htext : p.text.toList = ['.'].intercalate parts := by
    simp [Path.text, parts, Function.comp_def]
  have hparts : ∀ part ∈ parts, '.' ∉ part := by
    intro part hpart
    obtain ⟨segment, hsegment, rfl⟩ := List.mem_map.mp hpart
    exact (h.2 segment hsegment).dot_not_mem
  have hsplit : Text.split '.' (['.'].intercalate parts) = parts :=
    Text.split_intercalate (by simpa [parts] using h.1) hparts
  simp [pathSegments, htext, hsplit, parts, Function.comp_def]

/-- A path of proper segments leads somewhere in a store. -/
theorem IsProper.properSegments?_text {p : Path} (h : p.IsProper) :
    properSegments? p.text = some (p.segments.map Segment.text) := by
  have hnone : (p.segments.map Segment.text).any String.isEmpty = false := by
    rw [List.any_eq_false]
    intro text htext
    obtain ⟨segment, hsegment, rfl⟩ := List.mem_map.mp htext
    simpa using (h.2 segment hsegment).text_ne_empty
  simp [properSegments?, h.pathSegments_text, hnone]

end Path

end SheetRules
