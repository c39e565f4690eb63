import Mathlib.Logic.Function.Iterate
import SheetRules.Document.TypeScript
import SheetRules.Proofs.Batch.Errors
import SheetRules.Proofs.Number.Texts

/-!
# Nesting in TypeScript literals

Parts of a literal are written from column zero and moved to the right as blocks.  This module has a
second writer, which carries the level of nesting and begins every line with four blanks for each
level, and says that both write the same text (`TypeScript.render_eq_print`).

What moving does is easy to say where no line is empty or ends with a carriage return
(`TypeScript.IsBlock`): it puts four blanks behind every line feed (`TypeScript.shift`).  That goes
through putting texts together, and it takes what is written at one level to what is written at the
next.
-/

namespace SheetRules

namespace TypeScript

/-! ### Writing at a level -/

/-- A new line at a level. -/
def newline (level : Nat) : List Char :=
  '\n' :: List.replicate (4 * level) ' '

/-- Parts between two brackets that stand at a level, each on new lines one level inside. -/
def printParts (level : Nat) (opening closing : Char) (parts : List (List Char)) : List Char :=
  opening :: newline (level + 1) ++ (',' :: newline (level + 1)).intercalate parts ++
    newline level ++ [closing]

/-- A list whose brackets stand at a level. -/
def printList (level : Nat) (items : List (List Char)) : List Char :=
  if items.isEmpty then ['[', ']'] else printParts level '[' ']' items

/-- A field of an object. -/
def printField (field : String × List Char) : List Char :=
  field.1.toList ++ ':' :: ' ' :: field.2

/-- An object literal whose braces stand at a level. -/
def printObject (level : Nat) (fields : List (String × List Char)) : List Char :=
  printParts level '\x7b' '\x7d' (fields.map printField)

/-- An expression node whose braces stand at a level. -/
def printNode (level : Nat) (op : Operator) (operands : List Char) : List Char :=
  printObject level
    [("operator", ("ExpressionOperators." ++ op.tag).toList), ("operands", operands)]

mutual

/-- A tree whose braces stand at a level. -/
def printTree (level : Nat) : Tree Float → List Char
  | .static v => printNode level .static (renderNumber v)
  | .dynamic path => printNode level .dynamic (renderPath path)
  | .combine op operands =>
    printNode level (.combine op) (printList (level + 1) (printTrees (level + 2) operands))
  | .floor operand => printNode level .floor (printList (level + 1) [printTree (level + 2) operand])

/-- Several trees whose braces stand at a level. -/
def printTrees (level : Nat) : List (Tree Float) → List (List Char)
  | [] => []
  | t :: rest => printTree level t :: printTrees level rest

end

/-- A statement whose braces stand at a level. -/
def printStatement (level : Nat) (s : Statement) : List Char :=
  printObject level [
    ("precedence", renderPrecedence s.precedence),
    ("target", renderPath s.target),
    ("operator", ("StatementOperators." ++ s.action.tag).toList),
    ("operand", printTree (level + 1) s.operand)]

/-- Statements as one array literal, written level by level. -/
def print (statements : List Statement) : String :=
  String.ofList (printList 0 (statements.map (printStatement 1)))

/-! ### Blocks -/

/-- A line that moving changes in no other way than that it is moved. -/
structure IsLine (line : List Char) : Prop where
  ne_nil : line ≠ []
  lineFeed_not_mem : '\n' ∉ line
  getLast?_ne : line.getLast? ≠ some '\r'

/-- One or more such lines. -/
inductive IsBlock : List Char → Prop
  | line {line : List Char} (h : IsLine line) : IsBlock line
  | cons {line rest : List Char} (h : IsLine line) (hrest : IsBlock rest) :
      IsBlock (line ++ '\n' :: rest)

variable {line text more : List Char}

/-- Moves every line of a text but the first to the right, whatever the lines are. -/
def shift (text : List Char) : List Char :=
  text.flatMap fun c => if c = '\n' then '\n' :: step else [c]

/-- A step of indentation stays on its line. -/
lemma lineFeed_not_mem_step : '\n' ∉ step := by
  decide

/-- Two texts are shifted one after the other. -/
lemma shift_append (text more : List Char) : shift (text ++ more) = shift text ++ shift more :=
  List.flatMap_append

/-- Without a line break there is nothing to shift. -/
lemma shift_of_not_mem (h : '\n' ∉ text) : shift text = text := by
  induction text with
  | nil => rfl
  | cons c rest ih =>
    rw [List.mem_cons, not_or] at h
    rw [shift, List.flatMap_cons, if_neg (Ne.symm h.1), ← shift, ih h.2]
    rfl

/-- Blanks stay on their line. -/
lemma lineFeed_not_mem_blanks (level : Nat) : '\n' ∉ List.replicate (4 * level) ' ' := by
  intro h
  exact absurd (List.eq_of_mem_replicate h) (by decide)

/-- The blanks after a line break are shifted by one level. -/
lemma shift_newline (level : Nat) : shift (newline level) = newline (level + 1) := by
  have hshift : shift (newline level) =
      '\n' :: step ++ shift (List.replicate (4 * level) ' ') := rfl
  rw [hshift, shift_of_not_mem (lineFeed_not_mem_blanks level), newline, Nat.mul_succ, Nat.add_comm,
    ← List.replicate_append_replicate]
  rfl

/-- A text without line breaks is added to the line that has been begun. -/
lemma linesFrom_append (h : '\n' ∉ line) (current rest : List Char) :
    linesFrom current (line ++ rest) = linesFrom (line.reverse ++ current) rest := by
  induction line generalizing current with
  | nil => rfl
  | cons c line ih =>
    rw [List.mem_cons, not_or] at h
    have hstep : linesFrom current (c :: (line ++ rest)) =
        linesFrom (c :: current) (line ++ rest) := if_neg (Ne.symm h.1)
    rw [List.cons_append, hstep, ih h.2, List.reverse_cons, List.append_assoc]
    rfl

/-- A line has one line. -/
lemma IsLine.lines_eq (h : IsLine line) : lines line = [line] := by
  have hlines := linesFrom_append h.lineFeed_not_mem [] []
  rw [List.append_nil, List.append_nil] at hlines
  rw [lines, hlines, linesFrom]
  simp [h.ne_nil]

/-- Lines are cut at the first line break. -/
lemma IsLine.lines_append (h : IsLine line) (rest : List Char) :
    lines (line ++ '\n' :: rest) = line :: lines rest := by
  have hreturn : ∀ before, line.reverse = '\r' :: before → False := by
    intro before hreverse
    refine h.getLast?_ne ?_
    rw [← List.head?_reverse, hreverse]
    rfl
  rw [lines, linesFrom_append h.lineFeed_not_mem, List.append_nil, linesFrom, if_pos rfl]
  · exact congrArg (· :: linesFrom [] rest) (List.reverse_reverse line)
  · exact hreturn

/-- A line with something in front of it is a line. -/
lemma IsLine.prepend (h : IsLine line) (hmore : '\n' ∉ more) : IsLine (more ++ line) where
  ne_nil := List.append_ne_nil_of_right_ne_nil _ h.ne_nil
  lineFeed_not_mem := by
    rw [List.mem_append, not_or]
    exact ⟨hmore, h.lineFeed_not_mem⟩
  getLast?_ne := by
    have hlast := h.getLast?_ne
    rw [List.getLast?_eq_some_getLast h.ne_nil] at hlast
    rwa [List.getLast?_append, List.getLast?_eq_some_getLast h.ne_nil, Option.some_or]

/-- A line is indented as a whole. -/
lemma IsLine.indentLine_eq (h : IsLine line) : indentLine line = step ++ line := by
  rw [indentLine, if_neg (by simpa using h.ne_nil)]

namespace IsBlock

/-- A block has lines. -/
lemma lines_ne_nil (h : IsBlock text) : lines text ≠ [] := by
  cases h with
  | line h => simp [h.lines_eq]
  | cons h _ => simp [h.lines_append]

/-- Moving a block to the right. -/
lemma indentAll_eq (h : IsBlock text) : indentAll text = step ++ shift text := by
  induction h with
  | line h =>
    rw [indentAll, h.lines_eq, List.map_singleton, List.intercalate_singleton, h.indentLine_eq,
      shift_of_not_mem h.lineFeed_not_mem]
  | @cons line rest h hrest ih =>
    obtain ⟨first, others, hlines⟩ := List.exists_cons_of_ne_nil hrest.lines_ne_nil
    rw [indentAll, hlines, List.map_cons] at ih
    rw [indentAll, h.lines_append, hlines, List.map_cons, List.map_cons,
      List.intercalate_cons_cons, ih, h.indentLine_eq, shift_append,
      shift_of_not_mem h.lineFeed_not_mem]
    simp [shift]

/-- Moving all lines of a block but the first to the right. -/
lemma indentTail_eq (h : IsBlock text) : indentTail text = shift text := by
  have hinside : ∀ {line : List Char}, '\n' ∉ line → ∀ c ∈ line, decide (c ≠ '\n') = true := by
    intro line hline c hc
    exact decide_eq_true fun heq => hline (heq ▸ hc)
  unfold indentTail
  cases h with
  | line h =>
    have hall := hinside h.lineFeed_not_mem
    have hdrop : text.dropWhile (· ≠ '\n') = [] := by
      rw [← List.append_nil text, List.dropWhile_append_of_pos hall]
      rfl
    rw [hdrop, shift_of_not_mem h.lineFeed_not_mem]
  | @cons line rest h hrest =>
    have hall := hinside h.lineFeed_not_mem
    rw [List.dropWhile_append_of_pos hall, List.takeWhile_append_of_pos hall,
      List.dropWhile_cons_of_neg (by simp), List.takeWhile_cons_of_neg (by simp)]
    simp only [hrest.indentAll_eq, shift_append, shift_of_not_mem h.lineFeed_not_mem]
    simp [shift]

/-- The lines of a block that was moved are its lines, each moved. -/
lemma lines_indentAll (h : IsBlock text) :
    lines (indentAll text) = (lines text).map (step ++ ·) := by
  rw [h.indentAll_eq]
  induction h with
  | line h =>
    rw [shift_of_not_mem h.lineFeed_not_mem, h.lines_eq, (h.prepend lineFeed_not_mem_step).lines_eq]
    rfl
  | @cons line rest h hrest ih =>
    rw [shift_append, shift_of_not_mem h.lineFeed_not_mem, h.lines_append, List.map_cons, ← ih,
      ← (h.prepend lineFeed_not_mem_step).lines_append, List.append_assoc]
    rfl

/-- A block that was moved is a block. -/
lemma indentAll (h : IsBlock text) : IsBlock (indentAll text) := by
  rw [h.indentAll_eq]
  induction h with
  | line h =>
    rw [shift_of_not_mem h.lineFeed_not_mem]
    exact .line (h.prepend lineFeed_not_mem_step)
  | @cons line rest h hrest ih =>
    rw [shift_append, shift_of_not_mem h.lineFeed_not_mem, ← List.append_assoc]
    exact .cons (h.prepend lineFeed_not_mem_step) ih

/-- However often a block is moved, its lines keep what they say. -/
lemma lines_iterate_indentAll (h : IsBlock text) (count : Nat) :
    lines (TypeScript.indentAll^[count] text) =
      (lines text).map (List.replicate (4 * count) ' ' ++ ·) := by
  induction count generalizing text with
  | zero => simp
  | succ count ih =>
    rw [Function.iterate_succ_apply, ih h.indentAll, h.lines_indentAll, List.map_map]
    refine List.map_congr_left fun line _ => ?_
    rw [Function.comp_apply, Nat.mul_succ, ← List.replicate_append_replicate, List.append_assoc]
    rfl

/-- Two blocks, one below the other. -/
lemma append (h : IsBlock text) (hmore : IsBlock more) : IsBlock (text ++ '\n' :: more) := by
  induction h with
  | line h => exact .cons h hmore
  | cons h _ ih =>
    rw [List.append_assoc]
    exact .cons h ih

/-- A block behind some characters. -/
lemma prepend (h : IsBlock text) (hline : '\n' ∉ line) : IsBlock (line ++ text) := by
  cases h with
  | line h => exact .line (h.prepend hline)
  | cons h hrest =>
    rw [← List.append_assoc]
    exact .cons (h.prepend hline) hrest

/-- A block with a comma after it is a block. -/
lemma comma (h : IsBlock text) : IsBlock (text ++ [',']) := by
  have hcomma : ∀ {line : List Char}, IsLine line → IsLine (line ++ [',']) := by
    intro line h
    exact ⟨by simp, by simpa using h.lineFeed_not_mem, by simp⟩
  induction h with
  | line h => exact .line (hcomma h)
  | cons h _ ih =>
    rw [List.append_assoc]
    exact .cons h ih

/-- Blocks in a list or an object. -/
lemma separated (level : Nat) :
    ∀ {parts : List (List Char)}, parts ≠ [] → (∀ part ∈ parts, IsBlock part) →
      IsBlock ((',' :: newline level).intercalate parts)
  | [], h, _ => absurd rfl h
  | [part], _, hparts => by
    rw [List.intercalate_singleton]
    exact hparts part (List.mem_singleton_self part)
  | part :: next :: rest, _, hparts => by
    have hrest : IsBlock ((',' :: newline level).intercalate (next :: rest)) :=
      separated level (List.cons_ne_nil _ _) fun p hp => hparts p (List.mem_cons_of_mem _ hp)
    have hboth := (hparts part List.mem_cons_self).comma.append
      (hrest.prepend (lineFeed_not_mem_blanks level))
    rw [List.intercalate_cons_cons]
    simpa [newline] using hboth

/-- Parts between brackets are a block, if each of them is. -/
lemma printParts {level : Nat} {opening closing : Char} {parts : List (List Char)}
    (hopening : IsLine [opening]) (hclosing : IsLine [closing]) (hne : parts ≠ [])
    (hparts : ∀ part ∈ parts, IsBlock part) : IsBlock (printParts level opening closing parts) := by
  have hinside := (separated (level + 1) hne hparts).prepend
    (lineFeed_not_mem_blanks (level + 1))
  have hlast : IsBlock (List.replicate (4 * level) ' ' ++ [closing]) :=
    .line (hclosing.prepend (lineFeed_not_mem_blanks level))
  have hall := (IsBlock.line hopening).append (hinside.append hlast)
  simpa [TypeScript.printParts, newline] using hall

/-- A list of blocks is a block. -/
lemma printList {level : Nat} {items : List (List Char)} (h : ∀ item ∈ items, IsBlock item) :
    IsBlock (printList level items) := by
  cases items with
  | nil => exact .line (show IsLine ['[', ']'] by constructor <;> decide)
  | cons item rest =>
    exact .printParts (by constructor <;> decide) (by constructor <;> decide)
      (List.cons_ne_nil _ _) h

/-- An object whose values are blocks is a block. -/
lemma printObject {level : Nat} {fields : List (String × List Char)} (hne : fields ≠ [])
    (h : ∀ field ∈ fields, '\n' ∉ field.1.toList ∧ IsBlock field.2) :
    IsBlock (printObject level fields) := by
  refine .printParts (by constructor <;> decide) (by constructor <;> decide)
    (by simpa using hne) ?_
  intro part hpart
  obtain ⟨field, hfield, rfl⟩ := List.mem_map.mp hpart
  obtain ⟨hkey, hvalue⟩ := h field hfield
  have hcolon : '\n' ∉ field.1.toList ++ [':', ' '] := by
    simpa using hkey
  simpa [printField] using hvalue.prepend hcolon

end IsBlock

/-! ### Moving what was written at a level -/

/-- Parts and what is between them are shifted one by one. -/
lemma shift_intercalate (separator : List Char) (parts : List (List Char)) :
    shift (separator.intercalate parts) = (shift separator).intercalate (parts.map shift) := by
  induction parts with
  | nil => rfl
  | cons part rest ih =>
    cases rest with
    | nil => simp
    | cons next rest =>
      rw [List.map_cons] at ih
      rw [List.intercalate_cons_cons, shift_append, shift_append, ih, List.map_cons, List.map_cons,
        List.intercalate_cons_cons]

/-- A character that does not break the line stays. -/
lemma shift_cons {c : Char} (h : c ≠ '\n') (text : List Char) :
    shift (c :: text) = c :: shift text := by
  rw [shift, List.flatMap_cons, if_neg h]
  rfl

/-- Parts between brackets are shifted by printing them one level deeper. -/
lemma shift_printParts {opening closing : Char} (hopening : opening ≠ '\n')
    (hclosing : closing ≠ '\n') (level : Nat) (parts : List (List Char)) :
    shift (printParts level opening closing parts) =
      printParts (level + 1) opening closing (parts.map shift) := by
  rw [printParts, shift_append, shift_append, shift_append, shift_cons hopening, shift_intercalate,
    shift_cons (by decide), shift_newline, shift_newline, shift_cons hclosing]
  rfl

/-- A list is shifted by printing it one level deeper. -/
lemma shift_printList (level : Nat) (items : List (List Char)) :
    shift (printList level items) = printList (level + 1) (items.map shift) := by
  cases items with
  | nil => rfl
  | cons item rest => exact shift_printParts (by decide) (by decide) level (item :: rest)

/-- An object is shifted by printing it one level deeper. -/
lemma shift_printObject {fields : List (String × List Char)}
    (h : ∀ field ∈ fields, '\n' ∉ field.1.toList) (level : Nat) :
    shift (printObject level fields) =
      printObject (level + 1) (fields.map fun field => (field.1, shift field.2)) := by
  have hfields : (fields.map printField).map shift =
      (fields.map fun field => (field.1, shift field.2)).map printField := by
    rw [List.map_map, List.map_map]
    refine List.map_congr_left fun field hfield => ?_
    simp only [Function.comp_apply, printField]
    rw [shift_append, shift_of_not_mem (h field hfield), shift_cons (by decide),
      shift_cons (by decide)]
  rw [printObject, shift_printParts (by decide) (by decide), hfields]
  rfl

/-- The separator can take a beginning that all parts have. -/
lemma append_intercalate (first separator : List Char) {parts : List (List Char)}
    (h : parts ≠ []) :
    first ++ (separator ++ first).intercalate parts =
      separator.intercalate (parts.map (first ++ ·)) := by
  induction parts with
  | nil => exact absurd rfl h
  | cons part rest ih =>
    cases rest with
    | nil => simp
    | cons next rest =>
      have hnext := ih (List.cons_ne_nil _ _)
      rw [List.map_cons] at hnext
      rw [List.intercalate_cons_cons, List.map_cons, List.map_cons, List.intercalate_cons_cons,
        ← hnext]
      simp

/-- On the outermost level each part is on lines of its own, one step in. -/
lemma printParts_zero (opening closing : Char) {parts : List (List Char)} (h : parts ≠ []) :
    printParts 0 opening closing parts =
      [opening, '\n'] ++ [',', '\n'].intercalate (parts.map (step ++ ·)) ++ ['\n', closing] := by
  have hinside := append_intercalate step [',', '\n'] h
  rw [← hinside]
  simp [printParts, newline, step]

/-- Indenting the items of a list line by line prints it on the outermost level. -/
lemma renderList_eq {items : List (List Char)} (h : ∀ item ∈ items, IsBlock item) :
    renderList items = printList 0 (items.map shift) := by
  cases items with
  | nil => rfl
  | cons item rest =>
    have hmoved : (item :: rest).map indentAll = ((item :: rest).map shift).map (step ++ ·) := by
      rw [List.map_map]
      exact List.map_congr_left fun item hitem => (h item hitem).indentAll_eq
    have hparts := printParts_zero '[' ']' (List.cons_ne_nil (shift item) (rest.map shift))
    rw [← List.map_cons, ← hmoved] at hparts
    exact hparts.symm

/-- Writing an object prints it on the outermost level. -/
lemma renderObject_eq {fields : List (String × List Char)} (h : fields ≠ []) :
    renderObject fields = printObject 0 fields := by
  have hne : fields.map printField ≠ [] := mt List.map_eq_nil_iff.mp h
  have hparts := printParts_zero '\x7b' '\x7d' hne
  rw [printObject, hparts, renderObject, List.map_map]
  simp only [Function.comp_def, printField, List.append_assoc]
  rfl

/-! ### The leaves -/

/-- A path that stays on its line. -/
def IsUnbroken (path : String) : Prop :=
  '\n' ∉ path.toList

/-- The text of a number is a line. -/
lemma isLine_of_isNumberText (h : NumberFormat.IsNumberText text) : IsLine text where
  ne_nil := h.1
  lineFeed_not_mem hmem := (h.2 _ hmem).ne (.inl rfl) rfl
  getLast?_ne hlast := (h.2 _ (List.mem_of_getLast? hlast)).ne (.inr rfl) rfl

/-- A number is written on one line. -/
lemma isLine_renderNumber (v : Float) : IsLine (renderNumber v) := by
  unfold renderNumber
  split
  · exact isLine_of_isNumberText (NumberFormat.isNumberText_toString _)
  · exact isLine_of_isNumberText (NumberFormat.isNumberText_text _ _)

/-- A precedence is written on one line. -/
lemma isLine_renderPrecedence (v : Float) : IsLine (renderPrecedence v) := by
  unfold renderPrecedence
  split <;> exact isLine_of_isNumberText (NumberFormat.isNumberText_text _ _)

/-- A path without line breaks is written on one line. -/
lemma isLine_renderPath {path : String} (h : IsUnbroken path) : IsLine (renderPath path) where
  ne_nil := List.cons_ne_nil _ _
  lineFeed_not_mem := by
    simpa [renderPath, IsUnbroken] using h
  getLast?_ne := by
    rw [renderPath, List.getLast?_concat]
    decide

/-- An operator is written on one line. -/
lemma isLine_operator (op : Operator) : IsLine ("ExpressionOperators." ++ op.tag).toList := by
  cases op with
  | static => constructor <;> decide
  | dynamic => constructor <;> decide
  | combine op => cases op <;> constructor <;> decide
  | floor => constructor <;> decide

/-- An action is written on one line. -/
lemma isLine_action (action : Action) : IsLine ("StatementOperators." ++ action.tag).toList := by
  cases action <;> constructor <;> decide

/-! ### Trees -/

/-- A node is shifted by printing it one level deeper. -/
lemma shift_printNode (level : Nat) (op : Operator) (operands : List Char) :
    shift (printNode level op operands) = printNode (level + 1) op (shift operands) := by
  rw [printNode, shift_printObject (by simp)]
  simp only [List.map_cons, List.map_nil, shift_of_not_mem (isLine_operator op).lineFeed_not_mem]
  rfl

/-- A node is a block if its operands are. -/
lemma IsBlock.printNode {level : Nat} {operands : List Char} (op : Operator)
    (h : IsBlock operands) : IsBlock (printNode level op operands) := by
  refine .printObject (List.cons_ne_nil _ _) ?_
  simp only [List.forall_mem_cons]
  exact ⟨⟨by decide, .line (isLine_operator op)⟩, ⟨by decide, h⟩, List.forall_mem_nil _⟩

mutual

/-- A tree at one level, moved, is the tree at the next level. -/
lemma shift_printTree (level : Nat) :
    ∀ {t : Tree Float}, (∀ path ∈ t.paths, IsUnbroken path) →
      shift (printTree level t) = printTree (level + 1) t
  | .static v, _ => by
    rw [printTree, shift_printNode, shift_of_not_mem (isLine_renderNumber v).lineFeed_not_mem]
    rfl
  | .dynamic path, h => by
    have hpath := isLine_renderPath (h path (List.mem_singleton_self path))
    rw [printTree, shift_printNode, shift_of_not_mem hpath.lineFeed_not_mem]
    rfl
  | .combine op operands, h => by
    rw [printTree, shift_printNode, shift_printList, map_shift_printTrees _ h]
    rfl
  | .floor operand, h => by
    rw [printTree, shift_printNode, shift_printList, List.map_singleton,
      shift_printTree _ (t := operand) h]
    rfl

/-- Operands are shifted by printing them one level deeper. -/
lemma map_shift_printTrees (level : Nat) :
    ∀ {ts : List (Tree Float)}, (∀ path ∈ Tree.pathsOfAll ts, IsUnbroken path) →
      (printTrees level ts).map shift = printTrees (level + 1) ts
  | [], _ => rfl
  | t :: rest, h => by
    obtain ⟨hfirst, hrest⟩ := List.forall_mem_append.mp h
    rw [printTrees, List.map_cons, shift_printTree level hfirst, map_shift_printTrees level hrest]
    rfl

end

mutual

/-- A tree is printed as a block. -/
lemma IsBlock.printTree (level : Nat) :
    ∀ {t : Tree Float}, (∀ path ∈ t.paths, IsUnbroken path) → IsBlock (printTree level t)
  | .static v, _ => .printNode _ (.line (isLine_renderNumber v))
  | .dynamic path, h =>
    .printNode _ (.line (isLine_renderPath (h path (List.mem_singleton_self path))))
  | .combine _ _, h => .printNode _ (.printList (isBlock_of_mem_printTrees _ h))
  | .floor operand, h =>
    .printNode _ (.printList (List.forall_mem_singleton.mpr (IsBlock.printTree _ (t := operand) h)))

/-- Operands are printed as blocks. -/
lemma isBlock_of_mem_printTrees (level : Nat) :
    ∀ {ts : List (Tree Float)}, (∀ path ∈ Tree.pathsOfAll ts, IsUnbroken path) →
      ∀ item ∈ printTrees level ts, IsBlock item
  | [], _ => List.forall_mem_nil _
  | t :: rest, h => by
    obtain ⟨hfirst, hrest⟩ := List.forall_mem_append.mp h
    exact List.forall_mem_cons.mpr
      ⟨IsBlock.printTree level hfirst, isBlock_of_mem_printTrees level hrest⟩

end

/-- Operands that were written from column zero, as a field of their node. -/
lemma indentTail_renderList {ts : List (Tree Float)}
    (h : ∀ path ∈ Tree.pathsOfAll ts, IsUnbroken path) :
    indentTail (renderList (printTrees 0 ts)) = printList 1 (printTrees 2 ts) := by
  rw [renderList_eq (isBlock_of_mem_printTrees 0 h), map_shift_printTrees 0 h,
    (IsBlock.printList (isBlock_of_mem_printTrees 1 h)).indentTail_eq, shift_printList,
    map_shift_printTrees 1 h]

mutual

/-- A tree that was written from column zero. -/
lemma renderTree_eq :
    ∀ {t : Tree Float}, (∀ path ∈ t.paths, IsUnbroken path) → renderTree t = printTree 0 t
  | .static _, _ => renderObject_eq (List.cons_ne_nil _ _)
  | .dynamic _, _ => renderObject_eq (List.cons_ne_nil _ _)
  | .combine op operands, h => by
    rw [renderTree, renderTrees_eq h, indentTail_renderList h]
    exact renderObject_eq (List.cons_ne_nil _ _)
  | .floor operand, h => by
    have hoperand : ∀ path ∈ Tree.pathsOfAll [operand], IsUnbroken path := by
      simpa [Tree.pathsOfAll, Tree.paths] using h
    rw [renderTree, renderTree_eq (t := operand) h]
    exact (congrArg (renderNode .floor) (indentTail_renderList hoperand)).trans
      (renderObject_eq (List.cons_ne_nil _ _))

/-- Operands are written as they are printed on the outermost level. -/
lemma renderTrees_eq :
    ∀ {ts : List (Tree Float)}, (∀ path ∈ Tree.pathsOfAll ts, IsUnbroken path) →
      renderTrees ts = printTrees 0 ts
  | [], _ => rfl
  | t :: rest, h => by
    obtain ⟨hfirst, hrest⟩ := List.forall_mem_append.mp h
    rw [renderTrees, renderTree_eq hfirst, renderTrees_eq hrest]
    rfl

end

/-! ### Statements -/

/-- A statement whose paths all stay on their lines. -/
structure HasUnbrokenPaths (s : Statement) : Prop where
  target : IsUnbroken s.target
  operand : ∀ path ∈ s.operand.paths, IsUnbroken path

namespace HasUnbrokenPaths

variable {s : Statement}

/-- A statement is written as it is printed on the outermost level. -/
lemma renderStatement_eq (h : HasUnbrokenPaths s) : renderStatement s = printStatement 0 s := by
  rw [renderStatement, renderTree_eq h.operand, (IsBlock.printTree 0 h.operand).indentTail_eq,
    shift_printTree 0 h.operand]
  exact renderObject_eq (List.cons_ne_nil _ _)

/-- A statement is printed as a block. -/
lemma isBlock_printStatement (h : HasUnbrokenPaths s) (level : Nat) :
    IsBlock (printStatement level s) := by
  refine .printObject (List.cons_ne_nil _ _) ?_
  simp only [List.forall_mem_cons]
  exact ⟨⟨by decide, .line (isLine_renderPrecedence _)⟩,
    ⟨by decide, .line (isLine_renderPath h.target)⟩, ⟨by decide, .line (isLine_action _)⟩,
    ⟨by decide, .printTree _ h.operand⟩, List.forall_mem_nil _⟩

/-- A statement is shifted by printing it one level deeper. -/
lemma shift_printStatement (h : HasUnbrokenPaths s) (level : Nat) :
    shift (printStatement level s) = printStatement (level + 1) s := by
  rw [printStatement, shift_printObject (by simp)]
  simp only [List.map_cons, List.map_nil, shift_printTree _ h.operand,
    shift_of_not_mem (isLine_renderPrecedence s.precedence).lineFeed_not_mem,
    shift_of_not_mem (isLine_renderPath h.target).lineFeed_not_mem,
    shift_of_not_mem (isLine_action s.action).lineFeed_not_mem]
  rfl

end HasUnbrokenPaths

/-- Writing parts from column zero and moving them as blocks gives the text that is written level by
level, and however often a tree is moved, nothing but the blanks in front of its lines changes. -/
theorem render_eq_print (statements : List Statement)
    (h : ∀ s ∈ statements, HasUnbrokenPaths s) :
    render statements = print statements ∧
      ∀ (t : Tree Float) (count : Nat), (∀ path ∈ t.paths, IsUnbroken path) →
        lines (indentAll^[count] (renderTree t)) =
          (lines (renderTree t)).map (List.replicate (4 * count) ' ' ++ ·) := by
  constructor
  · have hblock : ∀ item ∈ statements.map renderStatement, IsBlock item := by
      intro item hitem
      obtain ⟨s, hs, rfl⟩ := List.mem_map.mp hitem
      rw [(h s hs).renderStatement_eq]
      exact (h s hs).isBlock_printStatement 0
    have hmoved : (statements.map renderStatement).map shift =
        statements.map (printStatement 1) := by
      rw [List.map_map]
      refine List.map_congr_left fun s hs => ?_
      rw [Function.comp_apply, (h s hs).renderStatement_eq, (h s hs).shift_printStatement]
    rw [render, renderList_eq hblock, hmoved]
    rfl
  · intro t count hpaths
    rw [renderTree_eq hpaths]
    exact (IsBlock.printTree 0 hpaths).lines_iterate_indentAll count

example : lines (printTree 1 (.floor (.combine .add []))) = [
    "\x7b",
    "        operator: ExpressionOperators.FLOOR,",
    "        operands: [",
    "            \x7b",
    "                operator: ExpressionOperators.ADD,",
    "                operands: []",
    "            \x7d",
    "        ]",
    "    \x7d"].map String.toList := by
  decide +kernel

/-- A statement with lists in lists and an empty one, and with a carriage return in a path. -/
def cappedBonus : Statement where
  precedence := 2.5
  target := "bonus"
  action := .push
  operand := .combine .min [.floor (.dynamic "rage\rlevel"), .combine .add []]

/-- A capped bonus, whose lines are all moved when it is put three levels down. -/
theorem render_eq_print_cappedBonus :
    (∀ s ∈ [cappedBonus], HasUnbrokenPaths s) ∧ render [cappedBonus] = print [cappedBonus] ∧
      lines (indentAll^[3] (renderTree cappedBonus.operand)) =
        (lines (renderTree cappedBonus.operand)).map (List.replicate 12 ' ' ++ ·) := by
  have hpaths : ∀ path ∈ cappedBonus.operand.paths, IsUnbroken path := by
    unfold IsUnbroken
    decide
  have hstatements : ∀ s ∈ [cappedBonus], HasUnbrokenPaths s :=
    List.forall_mem_singleton.mpr ⟨show '\n' ∉ "bonus".toList by decide, hpaths⟩
  obtain ⟨hrender, hlines⟩ := render_eq_print [cappedBonus] hstatements
  exact ⟨hstatements, hrender, hlines cappedBonus.operand 3 hpaths⟩

end TypeScript

end SheetRules
