import SheetRules.Diagnostic.Cause
import SheetRules.Number.Decimal

/-!
# Cutting a text into pieces

At every place of a text one piece is cut off: a token, a blank or comment, or something that is
reported. Which piece that is depends on the text and on the number of parentheses that are open,
since a line feed between parentheses is a blank. No character is lost: the text of the piece
followed by the rest is the text that was there (`cut_append`).
-/

namespace SheetRules

/-- What is cut from a text at one place. -/
structure Piece where
  text : List Char
  /-- The token that the piece is, if it is one. -/
  token? : Option Kind
  /-- What is reported about the piece. -/
  cause? : Option Cause

namespace Piece

/-- A blank or a comment. -/
def blank (text : List Char) : Piece := ⟨text, none, none⟩

/-- A token that nothing is reported about. -/
def token (kind : Kind) (text : List Char) : Piece := ⟨text, some kind, none⟩

/-- A piece that is reported and dropped. -/
def reported (cause : Cause) (text : List Char) : Piece := ⟨text, none, some cause⟩

/-- The characters that begin a name. -/
def isNameStart (c : Char) : Bool := c.isAlpha || c == '_'

/-- The characters that a name goes on with. -/
def isNamePart (c : Char) : Bool := c.isAlphanum || c == '_'

/-- The fraction at the start of a text: a point and at least one digit. Returns its digits, none
if there is no fraction, and the rest. -/
def cutFraction : List Char → List Char × List Char
  | '.' :: d :: rest =>
    if d.isDigit then (d :: rest.takeWhile Char.isDigit, rest.dropWhile Char.isDigit)
    else ([], '.' :: d :: rest)
  | text => ([], text)

/-- A number with the given digits. One that is too large for a double is reported and counts as
zero. -/
def number (whole fraction : List Char) : Piece :=
  let text := if fraction.isEmpty then whole else whole ++ '.' :: fraction
  let value := (Decimal.ofPoint whole fraction).toFloat
  if (Double.nonFinite? value).isSome then
    ⟨text, some (.number 0), some (.numberOutOfRange (String.ofList text))⟩
  else token (.number value) text

/-- Cuts a number that begins with the digit `c`. -/
def cutNumber (c : Char) (rest : List Char) : Piece × List Char :=
  let whole := c :: rest.takeWhile Char.isDigit
  let (fraction, rest) := cutFraction (rest.dropWhile Char.isDigit)
  (number whole fraction, rest)

/-- Cuts a name that begins with `c`. -/
def cutName (c : Char) (rest : List Char) : Piece × List Char :=
  let name := c :: rest.takeWhile isNamePart
  (token (.name (String.ofList name)) name, rest.dropWhile isNamePart)

/-- The characters that are skipped after a broken template. -/
def inBrokenTemplate (c : Char) : Bool := c != '\x7d' && c != '\n'

/-- Cuts a template that is not closed right after its name. It is reported up to a closing brace
on the same line, or else up to the end of the line. -/
def cutBrokenTemplate (name rest : List Char) : Piece × List Char :=
  let skipped := '$' :: '\x7b' :: name ++ rest.takeWhile inBrokenTemplate
  match rest.dropWhile inBrokenTemplate with
  | '\x7d' :: after => (reported .brokenTemplate (skipped ++ ['\x7d']), after)
  | after => (reported .brokenTemplate skipped, after)

/-- Cuts a template after its dollar sign: a name in braces. -/
def cutTemplate : List Char → Piece × List Char
  | '\x7b' :: rest =>
    let name := rest.takeWhile isNamePart
    match rest.dropWhile isNamePart with
    | '\x7d' :: after =>
      if name.isEmpty then cutBrokenTemplate name ('\x7d' :: after)
      else
        (token (.template (String.ofList name)) ('$' :: '\x7b' :: name ++ ['\x7d']), after)
    | after => cutBrokenTemplate name after
  | rest => (reported .bareDollar ['$'], rest)

/-- Cuts a token of one character, or of two if the character is doubled. -/
def cutDoubled (single double : Kind) (c : Char) : List Char → Piece × List Char
  | [] => (token single [c], [])
  | d :: rest => if d = c then (token double [c, d], rest) else (token single [c], d :: rest)

/-- The tokens of one character. -/
def symbol? : Char → Option Kind
  | '-' => some .minus
  | '*' => some .star
  | '!' => some .bang
  | '=' => some .equals
  | '(' => some .openParen
  | ')' => some .closeParen
  | ',' => some .comma
  | ':' => some .colon
  | '.' => some .dot
  | _ => none

/-- Cuts the piece at the start of the text `c :: rest`, where `depth` parentheses are open. -/
def cut (depth : Nat) (c : Char) (rest : List Char) : Piece × List Char :=
  if c = ' ' ∨ c = '\t' ∨ c = '\r' then (blank [c], rest)
  else if c = '\n' then
    (if 0 < depth then blank [c] else token .newline [c], rest)
  else if c = '#' then (blank (c :: rest.takeWhile (· != '\n')), rest.dropWhile (· != '\n'))
  else if c.isDigit then cutNumber c rest
  else if isNameStart c then cutName c rest
  else if c = '$' then cutTemplate rest
  else if c = '+' then cutDoubled .plus .plusPlus c rest
  else if c = '/' then cutDoubled .slash .slashSlash c rest
  else match symbol? c with
    | some kind => (token kind [c], rest)
    | none => (reported (.unexpectedCharacter (String.singleton c)) [c], rest)

/-- The number of open parentheses after a piece; a closing one without a partner is ignored. -/
def depthAfter (piece : Piece) (depth : Nat) : Nat :=
  match piece.token? with
  | some .openParen => depth + 1
  | some .closeParen => depth - 1
  | _ => depth

/-! ### Nothing is lost -/

/-- A fraction is cut off with its point, or nothing is. -/
theorem cutFraction_append (text : List Char) :
    (cutFraction text).1 = [] ∧ (cutFraction text).2 = text ∨
      (cutFraction text).1 ≠ [] ∧ '.' :: (cutFraction text).1 ++ (cutFraction text).2 = text := by
  unfold cutFraction
  split
  · split
    · right
      simp [List.takeWhile_append_dropWhile]
    · left
      simp
  · left
    simp

/-- The text of a number, with a point if there is a fraction. -/
theorem number_text (whole fraction : List Char) :
    (number whole fraction).text =
      if fraction.isEmpty then whole else whole ++ '.' :: fraction := by
  unfold number
  dsimp only
  split <;> rfl

/-- Cutting off a number loses nothing. -/
theorem cutNumber_append (c : Char) (rest : List Char) :
    (cutNumber c rest).1.text ++ (cutNumber c rest).2 = c :: rest := by
  simp only [cutNumber, number_text]
  rcases cutFraction_append (rest.dropWhile Char.isDigit) with ⟨h₁, h₂⟩ | ⟨h₁, h₂⟩
  · simp [h₁, h₂, List.takeWhile_append_dropWhile]
  · have : (cutFraction (rest.dropWhile Char.isDigit)).1.isEmpty = false := by
      simpa using h₁
    rw [this]
    simp only [Bool.false_eq_true, if_false, List.append_assoc]
    rw [h₂]
    simp [List.takeWhile_append_dropWhile]

/-- Cutting off a template that is not closed loses nothing. -/
theorem cutBrokenTemplate_append (name rest : List Char) :
    (cutBrokenTemplate name rest).1.text ++ (cutBrokenTemplate name rest).2 =
      '$' :: '\x7b' :: name ++ rest := by
  have h := List.takeWhile_append_dropWhile (p := inBrokenTemplate) (l := rest)
  simp only [cutBrokenTemplate]
  split
  · rename_i after heq
    rw [heq] at h
    simp [reported, h]
  · rename_i after heq
    simp [reported, h]

/-- Cutting off a template loses nothing. -/
theorem cutTemplate_append (rest : List Char) :
    (cutTemplate rest).1.text ++ (cutTemplate rest).2 = '$' :: rest := by
  unfold cutTemplate
  split
  · rename_i rest
    have h := List.takeWhile_append_dropWhile (p := isNamePart) (l := rest)
    dsimp only
    split
    · rename_i after heq
      rw [heq] at h
      split
      · rw [cutBrokenTemplate_append]
        simp [h]
      · simp [token, h]
    · rename_i after heq
      rw [cutBrokenTemplate_append]
      simp [h]
  · simp [reported]

/-- Cutting off a symbol that may be doubled loses nothing. -/
theorem cutDoubled_append (single double : Kind) (c : Char) (rest : List Char) :
    (cutDoubled single double c rest).1.text ++ (cutDoubled single double c rest).2 =
      c :: rest := by
  unfold cutDoubled
  split
  · rfl
  · split <;> simp [token]

/-- The piece and the rest make up the text. -/
theorem cut_append (depth : Nat) (c : Char) (rest : List Char) :
    (cut depth c rest).1.text ++ (cut depth c rest).2 = c :: rest := by
  unfold cut
  split
  · simp [blank]
  split
  · split <;> simp [blank, token]
  split
  · simp [blank, List.takeWhile_append_dropWhile]
  split
  · exact cutNumber_append c rest
  split
  · simp [cutName, token, List.takeWhile_append_dropWhile]
  split
  · rename_i h
    rw [cutTemplate_append, h]
  split
  · exact cutDoubled_append _ _ c rest
  split
  · exact cutDoubled_append _ _ c rest
  split <;> simp [token, reported]

/-- A piece is not empty. -/
theorem cut_text_ne_nil (depth : Nat) (c : Char) (rest : List Char) :
    (cut depth c rest).1.text ≠ [] := by
  unfold cut
  split
  · simp [blank]
  split
  · split <;> simp [blank, token]
  split
  · simp [blank]
  split
  · simp only [cutNumber, number_text]
    split <;> simp
  split
  · simp [cutName, token]
  split
  · unfold cutTemplate cutBrokenTemplate
    split
    · dsimp only
      split
      · split
        · split <;> simp [reported]
        · simp [token]
      · split <;> simp [reported]
    · simp [reported]
  split
  · unfold cutDoubled
    split
    · simp [token]
    · split <;> simp [token]
  split
  · unfold cutDoubled
    split
    · simp [token]
    · split <;> simp [token]
  split <;> simp [token, reported]

/-- The rest is shorter than the text. -/
theorem cut_rest_length (depth : Nat) (c : Char) (rest : List Char) :
    (cut depth c rest).2.length < (c :: rest).length := by
  have happend := congrArg List.length (cut_append depth c rest)
  have hne := List.length_pos_iff.mpr (cut_text_ne_nil depth c rest)
  rw [List.length_append] at happend
  omega

end Piece

end SheetRules
