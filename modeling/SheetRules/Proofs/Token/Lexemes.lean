import Mathlib.Tactic.Common
import SheetRules.Proofs.Text.Cuts
import SheetRules.Token.Piece

/-!
# What can be cut off a text

The pieces of a text are described here by what they are, not by how they are found: the classes of
names, numbers, symbols and comments are sets of texts, and a piece of one of these classes is the
longest text of the class at its place.  `Piece.IsCut` lists everything that a piece can be, with
the token and the report that belong to it, and `Piece.isCut_cut` says that every piece is in the
list.
-/

namespace SheetRules

/-- The tokens that are always written in the same way. -/
def Kind.symbols : List Kind :=
  [.plus, .plusPlus, .minus, .star, .slash, .slashSlash, .bang, .equals, .openParen, .closeParen,
    .comma, .colon, .dot]

namespace Piece

/-! ### Classes of texts -/

/-- The text is in the class, and it cannot be made longer with what comes after it. -/
def IsLongest (C : List Char → Prop) (text rest : List Char) : Prop :=
  C text ∧ ∀ more tail, rest = more ++ tail → C (text ++ more) → more = []

/-- A symbol as it is written. -/
def IsSymbol (text : List Char) : Prop :=
  ∃ kind ∈ Kind.symbols, kind.text.toList = text

/-- A comment: a number sign and the characters after it on the line. -/
def IsComment (text : List Char) : Prop :=
  ∃ body, text = '#' :: body ∧ '\n' ∉ body

/-- A name: a letter or an underscore, and then letters, digits and underscores. -/
def IsIdentifier (text : List Char) : Prop :=
  ∃ c body, text = c :: body ∧ isNameStart c = true ∧ ∀ d ∈ body, isNamePart d = true

/-- The name in a template, which may begin with a digit. -/
def IsTemplateName (text : List Char) : Prop :=
  text ≠ [] ∧ ∀ c ∈ text, isNamePart c = true

/-- Digits, at least one. -/
def IsDigits (text : List Char) : Prop :=
  text ≠ [] ∧ ∀ c ∈ text, c.isDigit = true

/-- A number with its digits before and after the point. -/
inductive IsNumeral : (text whole fraction : List Char) → Prop
  | whole {whole : List Char} (hwhole : IsDigits whole) : IsNumeral whole whole []
  | point {whole fraction : List Char} (hwhole : IsDigits whole) (hfraction : IsDigits fraction) :
    IsNumeral (whole ++ '.' :: fraction) whole fraction

/-- A number as it is written. -/
def IsNumber (text : List Char) : Prop :=
  ∃ whole fraction, IsNumeral text whole fraction

/-- No piece of another kind begins with the character. -/
def StartsNothing (c : Char) : Prop :=
  c ∉ [' ', '\t', '\r', '\n', '#', '$'] ∧ c.isDigit = false ∧ isNameStart c = false ∧ ¬ IsSymbol [c]

/-! ### The list of pieces -/

/-- What can be cut off before `rest`, where `depth` parentheses are open. -/
inductive IsCut (depth : Nat) : Piece → List Char → Prop
  | blank {c : Char} {rest : List Char} (hc : c = ' ' ∨ c = '\t' ∨ c = '\r') :
    IsCut depth (.blank [c]) rest
  /-- Between parentheses a line feed is a blank. -/
  | lineFeed {rest : List Char} (hdepth : 0 < depth) : IsCut depth (.blank ['\n']) rest
  | comment {text rest : List Char} (h : IsLongest IsComment text rest) :
    IsCut depth (.blank text) rest
  | newline {rest : List Char} (hdepth : depth = 0) : IsCut depth (.token .newline ['\n']) rest
  | symbol {kind : Kind} {rest : List Char} (hkind : kind ∈ Kind.symbols)
    (h : IsLongest IsSymbol kind.text.toList rest) : IsCut depth (.token kind kind.text.toList) rest
  | name {name : String} {rest : List Char} (h : IsLongest IsIdentifier name.toList rest) :
    IsCut depth (.token (.name name) (Kind.name name).text.toList) rest
  | template {name : String} {rest : List Char} (h : IsTemplateName name.toList) :
    IsCut depth (.token (.template name) (Kind.template name).text.toList) rest
  | number {text whole fraction rest : List Char} (h : IsLongest IsNumber text rest)
    (hnumeral : IsNumeral text whole fraction)
    (hfinite : Double.nonFinite? (Decimal.ofPoint whole fraction).toFloat = none) :
    IsCut depth (.token (.number (Decimal.ofPoint whole fraction).toFloat) text) rest
  /-- A number that is too large is reported and counts as zero. -/
  | outOfRange {text whole fraction rest : List Char} (h : IsLongest IsNumber text rest)
    (hnumeral : IsNumeral text whole fraction)
    (hinfinite : Double.nonFinite? (Decimal.ofPoint whole fraction).toFloat ≠ none) :
    IsCut depth ⟨text, some (.number 0), some (.numberOutOfRange (String.ofList text))⟩ rest
  /-- An unexpected character is named in the report. -/
  | unexpected {c : Char} {rest : List Char} (hc : StartsNothing c) :
    IsCut depth (.reported (.unexpectedCharacter (String.singleton c)) [c]) rest
  | bareDollar {rest : List Char} (hrest : rest.head? ≠ some '\x7b') :
    IsCut depth (.reported .bareDollar ['$']) rest
  /-- Braces around something else than a name. -/
  | noTemplate {body rest : List Char} (hbody : '\x7d' ∉ body ∧ '\n' ∉ body)
    (hname : ¬ IsTemplateName body) :
    IsCut depth (.reported .brokenTemplate ('$' :: '\x7b' :: body ++ ['\x7d'])) rest
  /-- A brace that is not closed on its line. -/
  | openTemplate {body rest : List Char} (hbody : '\x7d' ∉ body ∧ '\n' ∉ body)
    (hrest : ∀ c ∈ rest.head?, c = '\n') :
    IsCut depth (.reported .brokenTemplate ('$' :: '\x7b' :: body)) rest

/-! ### Every piece is in the list -/

/-- A run of characters of some kind is as long as it can be, if the class goes on with no other
characters. -/
lemma isLongest_dropWhile {C : List Char → Prop} {p : Char → Bool} {text : List Char} (h : C text)
    (hp : ∀ c tail, C (text ++ c :: tail) → p c = true) (l : List Char) :
    IsLongest C text (l.dropWhile p) := by
  refine ⟨h, fun more tail hrest hmore => ?_⟩
  cases more with
  | nil => rfl
  | cons c more =>
    have hstop : p c = false := by
      refine List.not_of_mem_head?_dropWhile (l := l) ?_
      rw [hrest]
      rfl
    rw [hp c more hmore] at hstop
    cases hstop

variable {depth : Nat}

/-- A comment goes to the end of its line. -/
lemma isCut_comment (rest : List Char) :
    IsCut depth (.blank ('#' :: rest.takeWhile (· != '\n'))) (rest.dropWhile (· != '\n')) := by
  have hbody : '\n' ∉ rest.takeWhile (· != '\n') := by
    intro hmem
    simpa using List.all_eq_true.mp List.all_takeWhile '\n' hmem
  refine .comment (isLongest_dropWhile ⟨_, rfl, hbody⟩ ?_ rest)
  rintro c tail ⟨body, htext, hnot⟩
  have hc : c ∈ body := by
    rw [← List.tail_eq_of_cons_eq htext]
    simp
  have hne : c ≠ '\n' := fun h => hnot (h ▸ hc)
  simpa using hne

/-- A name is cut off at its end. -/
lemma isCut_cutName {c : Char} (hc : isNameStart c = true) (rest : List Char) :
    IsCut depth (cutName c rest).1 (cutName c rest).2 := by
  have hlongest : IsLongest IsIdentifier (c :: rest.takeWhile isNamePart)
      (rest.dropWhile isNamePart) := by
    refine isLongest_dropWhile ⟨c, _, rfl, hc, List.all_eq_true.mp List.all_takeWhile⟩ ?_ rest
    rintro d tail ⟨c', body, hbody, -, hparts⟩
    obtain rfl := List.tail_eq_of_cons_eq hbody
    exact hparts d (by simp)
  have hcut : IsCut depth (.token (.name (String.ofList (c :: rest.takeWhile isNamePart))) _)
    (rest.dropWhile isNamePart) := .name (by simpa using hlongest)
  simpa [cutName, Kind.text] using hcut

/-! #### Numbers -/

/-- After digits, a number goes on with a digit, or with a point and digits. -/
lemma IsNumber.isDigit_or {whole : List Char} (hwhole : ∀ d ∈ whole, d.isDigit = true) {c : Char}
    {tail : List Char} (h : IsNumber (whole ++ c :: tail)) :
    c.isDigit = true ∨ c = '.' ∧ IsDigits tail := by
  obtain ⟨w, f, hnumeral⟩ := h
  generalize htext : whole ++ c :: tail = text at hnumeral
  cases hnumeral with
  | whole hdigits => exact .inl (hdigits.2 c (by simp [← htext]))
  | point hw hf =>
    cases hc : c.isDigit with
    | true => exact .inl rfl
    | false =>
      have hrun := congrArg (List.takeWhile Char.isDigit) htext
      rw [List.takeWhile_append_of_pos hwhole, List.takeWhile_append_of_pos hw.2,
        List.takeWhile_cons_of_neg (by simp [hc]), List.takeWhile_cons_of_neg (by decide),
        List.append_nil, List.append_nil] at hrun
      subst hrun
      obtain ⟨rfl, rfl⟩ := List.cons.inj (List.append_cancel_left htext)
      exact .inr ⟨rfl, hf⟩

/-- A fraction is found if a point and a digit come next, and only then. -/
lemma cutFraction_cases (text : List Char) :
    (cutFraction text = ([], text) ∧ ∀ d tail, text = '.' :: d :: tail → d.isDigit = false) ∨
    ∃ d tail, text = '.' :: d :: tail ∧ d.isDigit = true ∧
      cutFraction text = (d :: tail.takeWhile Char.isDigit, tail.dropWhile Char.isDigit) := by
  unfold cutFraction
  split
  · rename_i d rest
    cases hd : d.isDigit with
    | true => exact .inr ⟨d, rest, rfl, hd, if_pos rfl⟩
    | false =>
      refine .inl ⟨if_neg Bool.false_ne_true, ?_⟩
      rintro d' tail ⟨⟩
      exact hd
  · rename_i hpoint
    exact .inl ⟨rfl, fun d tail htext => (hpoint d tail htext).elim⟩

/-- A number is kept if it is finite, and otherwise it is reported. -/
lemma isCut_number {text whole fraction rest : List Char} (h : IsLongest IsNumber text rest)
    (hnumeral : IsNumeral text whole fraction) : IsCut depth (number whole fraction) rest := by
  have htext : (if fraction.isEmpty then whole else whole ++ '.' :: fraction) = text := by
    cases hnumeral with
    | whole hwhole => rfl
    | point hwhole hfraction => rw [if_neg (by simpa using hfraction.1)]
  unfold number
  rw [htext]
  dsimp only
  split
  · rename_i hsome
    exact .outOfRange h hnumeral (Option.isSome_iff_ne_none.mp hsome)
  · rename_i hnone
    exact .number h hnumeral (by simpa using hnone)

/-- A number is cut off at its end. -/
lemma isCut_cutNumber {c : Char} (hc : c.isDigit = true) (rest : List Char) :
    IsCut depth (cutNumber c rest).1 (cutNumber c rest).2 := by
  have hdigits : IsDigits (c :: rest.takeWhile Char.isDigit) :=
    ⟨List.cons_ne_nil _ _,
      List.forall_mem_cons.mpr ⟨hc, List.all_eq_true.mp List.all_takeWhile⟩⟩
  unfold cutNumber
  rcases cutFraction_cases (rest.dropWhile Char.isDigit) with
    ⟨hcut, hpoint⟩ | ⟨d, tail, hrest, hd, hcut⟩
  · -- no fraction: a longer number would go on with a digit, or with a point and a digit
    simp only [hcut]
    refine isCut_number ⟨⟨_, _, .whole hdigits⟩, fun more tail hmore hnumber => ?_⟩ (.whole hdigits)
    cases more with
    | nil => rfl
    | cons x more =>
      rcases hnumber.isDigit_or hdigits.2 with hx | ⟨rfl, hne, hmoreDigits⟩
      · have hstop : x.isDigit = false := by
          refine List.not_of_mem_head?_dropWhile (l := rest) ?_
          rw [hmore]
          rfl
        rw [hx] at hstop
        cases hstop
      · -- a point and a digit would have been cut off as a fraction
        obtain ⟨y, more, rfl⟩ := List.exists_cons_of_ne_nil hne
        have hy := hpoint y (more ++ tail) hmore
        rw [hmoreDigits y (List.mem_cons_self ..)] at hy
        cases hy
  · simp only [hcut]
    have hfraction : IsDigits (d :: tail.takeWhile Char.isDigit) :=
      ⟨List.cons_ne_nil _ _,
        List.forall_mem_cons.mpr ⟨hd, List.all_eq_true.mp List.all_takeWhile⟩⟩
    have hnumeral := IsNumeral.point hdigits hfraction
    refine isCut_number (isLongest_dropWhile ⟨_, _, hnumeral⟩ ?_ tail) hnumeral
    intro x more hnumber
    rw [List.append_assoc, List.cons_append] at hnumber
    rcases hnumber.isDigit_or hdigits.2 with hdot | ⟨-, -, hmore⟩
    · exact absurd hdot (by decide)
    · exact hmore x (by simp)

/-! #### Templates -/

/-- What cannot be in a name is not there. -/
lemma not_mem_of_isNamePart {text : List Char} (h : ∀ c ∈ text, isNamePart c = true) {c : Char}
    (hc : isNamePart c = false) : c ∉ text := by
  intro hmem
  rw [h c hmem] at hc
  cases hc

/-- A template that is not closed has no brace and stays on its line. -/
lemma not_mem_takeWhile_inBrokenTemplate (rest : List Char) :
    '\x7d' ∉ rest.takeWhile inBrokenTemplate ∧ '\n' ∉ rest.takeWhile inBrokenTemplate := by
  have hall : ∀ c ∈ rest.takeWhile inBrokenTemplate, inBrokenTemplate c = true :=
    List.all_eq_true.mp List.all_takeWhile
  exact ⟨fun hmem => absurd (hall _ hmem) (by decide), fun hmem => absurd (hall _ hmem) (by decide)⟩

/-- What is cut off after a name that is not closed, or not there. -/
lemma isCut_cutBrokenTemplate {name rest : List Char} (hname : ∀ c ∈ name, isNamePart c = true)
    (hbroken : ∀ after, rest.dropWhile inBrokenTemplate = '\x7d' :: after →
      ¬ IsTemplateName (name ++ rest.takeWhile inBrokenTemplate)) :
    IsCut depth (cutBrokenTemplate name rest).1 (cutBrokenTemplate name rest).2 := by
  obtain ⟨hbrace, hline⟩ := not_mem_takeWhile_inBrokenTemplate rest
  have hbody : '\x7d' ∉ name ++ rest.takeWhile inBrokenTemplate ∧
      '\n' ∉ name ++ rest.takeWhile inBrokenTemplate :=
    ⟨by simp [hbrace, not_mem_of_isNamePart hname (c := '\x7d') (by decide)],
      by simp [hline, not_mem_of_isNamePart hname (c := '\n') (by decide)]⟩
  unfold cutBrokenTemplate
  dsimp only
  split
  · rename_i after heq
    exact .noTemplate hbody (hbroken after heq)
  · rename_i hopen
    refine .openTemplate hbody fun c hc => ?_
    have hstop : inBrokenTemplate c = false := List.not_of_mem_head?_dropWhile hc
    have hne : c ≠ '\x7d' := by
      rintro rfl
      obtain ⟨after, heq⟩ := List.head?_eq_some_iff.mp hc
      exact hopen after heq
    simpa [inBrokenTemplate, hne] using hstop

/-- A template is cut off at its end, also if it is not closed. -/
lemma isCut_cutTemplate (rest : List Char) :
    IsCut depth (cutTemplate rest).1 (cutTemplate rest).2 := by
  unfold cutTemplate
  split
  · rename_i rest
    have hname : ∀ c ∈ rest.takeWhile isNamePart, isNamePart c = true :=
      List.all_eq_true.mp List.all_takeWhile
    dsimp only
    split
    · rename_i after heq
      split
      · rename_i hempty
        rw [List.isEmpty_iff.mp hempty]
        refine isCut_cutBrokenTemplate (by simp) fun _ _ => ?_
        simp [IsTemplateName, inBrokenTemplate]
      · rename_i hne
        have htemplate : IsTemplateName (String.ofList (rest.takeWhile isNamePart)).toList := by
          rw [String.toList_ofList]
          exact ⟨by simpa using hne, hname⟩
        have hcut : IsCut depth (.token (.template _) _) after := .template htemplate
        simpa [Kind.text, templateText] using hcut
    · rename_i hopen
      refine isCut_cutBrokenTemplate hname fun after heq htemplate => ?_
      -- the character after the name is neither part of it nor the closing brace
      cases hafter : rest.dropWhile isNamePart with
      | nil => simp [hafter] at heq
      | cons c more =>
        have hstop : isNamePart c = false := by
          refine List.not_of_mem_head?_dropWhile (l := rest) ?_
          rw [hafter]
          rfl
        rw [hafter] at heq htemplate
        cases hc : inBrokenTemplate c with
        | true =>
          have hpart := htemplate.2 c (by simp [hc])
          rw [hstop] at hpart
          cases hpart
        | false =>
          rw [List.dropWhile_cons_of_neg (by simp [hc])] at heq
          obtain ⟨rfl, rfl⟩ := List.cons.inj heq
          exact hopen more hafter
  · rename_i hopen
    refine .bareDollar fun hhead => ?_
    obtain ⟨more, heq⟩ := List.head?_eq_some_iff.mp hhead
    exact hopen more heq

/-! #### Symbols and the rest -/

/-- The symbols, by their texts. -/
lemma isSymbol_iff {text : List Char} :
    IsSymbol text ↔ text ∈ [['+'], ['+', '+'], ['-'], ['*'], ['/'], ['/', '/'], ['!'], ['='], ['('],
      [')'], [','], [':'], ['.']] := by
  simp [IsSymbol, Kind.symbols, Kind.text, eq_comm]

/-- The symbols of more than one character are doubled plus signs and doubled slashes. -/
lemma IsSymbol.doubled {c d : Char} {more : List Char} (h : IsSymbol (c :: d :: more)) :
    d = c ∧ (c = '+' ∨ c = '/') ∧ more = [] := by
  rw [isSymbol_iff] at h
  simp only [List.mem_cons, List.cons.injEq, List.not_mem_nil, reduceCtorEq, and_false, false_or,
    or_false] at h
  rcases h with ⟨rfl, rfl, rfl⟩ | ⟨rfl, rfl, rfl⟩ <;> decide

/-- A symbol of one character is the longest one, unless it is doubled. -/
lemma isLongest_symbol {c : Char} {rest : List Char} (hc : IsSymbol [c])
    (hrest : c = '+' ∨ c = '/' → rest.head? ≠ some c) : IsLongest IsSymbol [c] rest := by
  refine ⟨hc, fun more tail hmore hsymbol => ?_⟩
  cases more with
  | nil => rfl
  | cons d more =>
    obtain ⟨rfl, hdoubled, -⟩ := IsSymbol.doubled hsymbol
    exact absurd (by rw [hmore]; rfl) (hrest hdoubled)

/-- A symbol that may be doubled is cut off as a whole. -/
lemma isCut_cutDoubled {single double : Kind} {c : Char} (hsingle : single ∈ Kind.symbols)
    (hdouble : double ∈ Kind.symbols) (hone : single.text.toList = [c])
    (htwo : double.text.toList = [c, c]) (rest : List Char) :
    IsCut depth (cutDoubled single double c rest).1 (cutDoubled single double c rest).2 := by
  have hcut : ∀ rest : List Char, rest.head? ≠ some c → IsCut depth (token single [c]) rest := by
    intro rest hrest
    have hlongest := isLongest_symbol ⟨single, hsingle, hone⟩ fun _ => hrest
    rw [← hone] at hlongest ⊢
    exact .symbol hsingle hlongest
  unfold cutDoubled
  split
  · exact hcut [] (by simp)
  · split
    · rename_i d rest hd
      subst hd
      have hlongest : IsLongest IsSymbol double.text.toList rest := by
        refine ⟨⟨double, hdouble, rfl⟩, fun more tail _ hsymbol => ?_⟩
        rw [htwo] at hsymbol
        exact (IsSymbol.doubled hsymbol).2.2
      rw [← htwo]
      exact .symbol hdouble hlongest
    · rename_i d rest hd
      exact hcut (d :: rest) (by simpa using hd)

/-- A character that is a symbol is its text. -/
lemma text_of_symbol? {c : Char} {kind : Kind} (h : symbol? c = some kind) :
    kind ∈ Kind.symbols ∧ kind.text.toList = [c] := by
  unfold symbol? at h
  split at h <;> cases h <;> exact ⟨by decide, rfl⟩

/-- A symbol of one character is found, unless it can be doubled. -/
lemma not_isSymbol_of_symbol? {c : Char} (h : symbol? c = none) (hplus : c ≠ '+')
    (hslash : c ≠ '/') : ¬ IsSymbol [c] := by
  rw [isSymbol_iff]
  simp only [List.mem_cons, List.cons.injEq, List.not_mem_nil, reduceCtorEq, and_false, false_or,
    and_true, or_false, hplus, hslash]
  rintro (rfl | rfl | rfl | rfl | rfl | rfl | rfl | rfl | rfl) <;> cases h

/-- **Every piece is in the list.** -/
theorem isCut_cut (depth : Nat) (c : Char) (rest : List Char) :
    IsCut depth (cut depth c rest).1 (cut depth c rest).2 := by
  -- in the order of the tests: each one is made where those before it have failed
  unfold cut
  split
  · exact .blank (by assumption)
  rename_i hblank
  split
  · rename_i hline
    subst hline
    cases depth with
    | zero => exact .newline rfl
    | succ depth => exact .lineFeed (Nat.succ_pos depth)
  rename_i hline
  split
  · rename_i hcomment
    subst hcomment
    exact isCut_comment rest
  rename_i hcomment
  split
  · exact isCut_cutNumber (by assumption) rest
  rename_i hdigit
  split
  · exact isCut_cutName (by assumption) rest
  rename_i hname
  split
  · exact isCut_cutTemplate rest
  rename_i hdollar
  split
  · rename_i hplus
    subst hplus
    exact isCut_cutDoubled (by decide) (by decide) rfl rfl rest
  rename_i hplus
  split
  · rename_i hslash
    subst hslash
    exact isCut_cutDoubled (by decide) (by decide) rfl rfl rest
  rename_i hslash
  split
  · rename_i kind hsymbol
    obtain ⟨hkind, htext⟩ := text_of_symbol? hsymbol
    have hlongest : IsLongest IsSymbol [c] rest :=
      isLongest_symbol ⟨kind, hkind, htext⟩ fun h => absurd h (not_or.mpr ⟨hplus, hslash⟩)
    rw [← htext] at hlongest ⊢
    exact .symbol hkind hlongest
  · rename_i hsymbol
    refine .unexpected ⟨?_, by simpa using hdigit, by simpa using hname,
      not_isSymbol_of_symbol? hsymbol hplus hslash⟩
    simp only [List.mem_cons, List.not_mem_nil, or_false]
    tauto

/-! ### What all pieces have in common -/

variable {piece : Piece} {rest : List Char}

/-- A symbol stays on its line. -/
lemma IsSymbol.lineFeed_not_mem {text : List Char} (h : IsSymbol text) : '\n' ∉ text := by
  obtain ⟨kind, hkind, rfl⟩ := h
  revert kind
  decide

/-- A number stays on its line. -/
lemma IsNumber.lineFeed_not_mem {text : List Char} (h : IsNumber text) : '\n' ∉ text := by
  have hnot : ∀ {digits : List Char}, IsDigits digits → '\n' ∉ digits :=
    fun hdigits hmem => absurd (hdigits.2 _ hmem) (by decide)
  obtain ⟨whole, fraction, hnumeral⟩ := h
  cases hnumeral with
  | whole hwhole => exact hnot hwhole
  | point hwhole hfraction => simp [hnot hwhole, hnot hfraction]

/-- A piece is a line feed, or it holds no line feed. -/
lemma IsCut.lineFeed_not_mem (h : IsCut depth piece rest) (hne : piece.text ≠ ['\n']) :
    '\n' ∉ piece.text := by
  cases h with
  | blank hc => rcases hc with rfl | rfl | rfl <;> decide
  | lineFeed => exact absurd rfl hne
  | comment h =>
    obtain ⟨⟨body, rfl, hbody⟩, -⟩ := h
    simpa [Piece.blank] using hbody
  | newline => exact absurd rfl hne
  | symbol hkind h => exact h.1.lineFeed_not_mem
  | @name name rest h =>
    obtain ⟨⟨c, body, hname, hc, hbody⟩, -⟩ := h
    have hfirst : '\n' ≠ c := fun heq => absurd (heq ▸ hc) (by decide)
    have hrest : '\n' ∉ body := not_mem_of_isNamePart hbody (by decide)
    simp [token, Kind.text, hname, hfirst, hrest]
  | @template name rest h =>
    have hname : '\n' ∉ name.toList := not_mem_of_isNamePart h.2 (by decide)
    simp [token, Kind.text, templateText, hname]
  | number h => exact h.1.lineFeed_not_mem
  | outOfRange h => exact h.1.lineFeed_not_mem
  | @unexpected c rest hc =>
    have hline : '\n' ≠ c := fun heq => hc.1 (heq ▸ by decide)
    simp [reported, hline]
  | bareDollar => decide
  | noTemplate hbody => simp [reported, hbody.2]
  | openTemplate hbody => simp [reported, hbody.2]

/-- Scanning adds the end of file after the last piece; no piece is one. -/
lemma IsCut.token?_ne_endOfFile (h : IsCut depth piece rest) : piece.token? ≠ some .endOfFile := by
  cases h with
  | symbol hkind h =>
    rintro ⟨⟩
    exact absurd hkind (by decide)
  | _ => simp [Piece.blank, token, reported]

/-- What is reported about a token is that it is a number out of range; what is dropped is an
unexpected character or a broken template. -/
lemma IsCut.code_of_cause? (h : IsCut depth piece rest) {cause : Cause}
    (hcause : piece.cause? = some cause) :
    if piece.token?.isSome then cause.code = 102 else cause.code = 101 ∨ cause.code = 103 := by
  cases h <;> cases hcause <;> simp [reported, Cause.code]

end Piece

end SheetRules
