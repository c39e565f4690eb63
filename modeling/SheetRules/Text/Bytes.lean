/-!
# Byte offsets in a text

Offsets count the bytes that come before a place in a text. A text can be cut only between two
characters, so that an offset inside a character is no place to cut at.
-/

namespace SheetRules

namespace Text

/-- The number of bytes of a text. -/
def byteLength : List Char → Nat
  | [] => 0
  | c :: rest => c.utf8Size + byteLength rest

/-- The offsets right after every occurrence of a separator, in a text that begins at an offset. -/
def offsetsAfter (separator : Char) (offset : Nat) : List Char → List Nat
  | [] => []
  | c :: rest =>
    let later := offsetsAfter separator (offset + c.utf8Size) rest
    if c = separator then (offset + c.utf8Size) :: later else later

/-- The part of a text before an offset and the part after it, unless the offset is inside a
character or beyond the end. -/
def cutAt? : Nat → List Char → Option (List Char × List Char)
  | 0, text => some ([], text)
  | _ + 1, [] => none
  | offset + 1, c :: rest =>
    if c.utf8Size ≤ offset + 1 then
      (cutAt? (offset + 1 - c.utf8Size) rest).map fun parts => (c :: parts.1, parts.2)
    else none

/-- The part of a text from one offset to another. There is none if the offsets are the wrong way
round, or if the text cannot be cut at one of them. -/
def slice? (start stop : Nat) (text : List Char) : Option (List Char) := do
  let outer ← cutAt? stop text
  let inner ← cutAt? start outer.1
  pure inner.2

end Text

end SheetRules
