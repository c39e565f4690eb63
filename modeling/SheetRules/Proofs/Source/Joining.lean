import Mathlib.Tactic.Common
import SheetRules.Proofs.Feature.Moving
import SheetRules.Proofs.Token.Pieces

/-!
# Errors stay on their line

No piece of a text goes past the end of a line, so a line feed parts the pieces before it from those
after it.  If no parenthesis is open there, the pieces after it are those of the rest of the text,
further down.  Together with the way lines are read this says that whatever is wrong with a text, it
does not change how the lines after it are scanned and read.
-/

namespace SheetRules

namespace Piece

/-! ### A line feed parts the pieces -/

/-- The rest of the text goes on with a line feed and more. -/
def before (more : List Char) (r : Piece × List Char) : Piece × List Char :=
  (r.1, r.2 ++ '\n' :: more)

variable (more : List Char)

/-- Without a point there is no fraction. -/
lemma cutFraction_of_ne {c : Char} (hc : c ≠ '.') (rest : List Char) :
    cutFraction (c :: rest) = ([], c :: rest) := by
  unfold cutFraction
  split
  · rename_i heq
    exact absurd (List.cons.inj heq).1 hc
  · rfl

/-- A line feed does not change the fraction before it. -/
lemma cutFraction_append_lineFeed (text : List Char) :
    cutFraction (text ++ '\n' :: more) =
      ((cutFraction text).1, (cutFraction text).2 ++ '\n' :: more) := by
  cases text with
  | nil => rfl
  | cons c rest =>
    by_cases hc : c = '.'
    · subst hc
      cases rest with
      | nil => rfl
      | cons d rest =>
        simp only [List.cons_append, cutFraction]
        split
        · rw [List.takeWhile_append_stop (by decide), List.dropWhile_append_stop (by decide)]
        · rfl
    · rw [List.cons_append, cutFraction_of_ne hc, cutFraction_of_ne hc]
      rfl

/-- A line feed does not change the number before it. -/
lemma cutNumber_append_lineFeed (c : Char) (rest : List Char) :
    cutNumber c (rest ++ '\n' :: more) = before more (cutNumber c rest) := by
  rw [cutNumber, List.takeWhile_append_stop (by decide), List.dropWhile_append_stop (by decide),
    cutFraction_append_lineFeed]
  rfl

/-- A line feed does not change the name before it. -/
lemma cutName_append_lineFeed (c : Char) (rest : List Char) :
    cutName c (rest ++ '\n' :: more) = before more (cutName c rest) := by
  rw [cutName, List.takeWhile_append_stop (by decide), List.dropWhile_append_stop (by decide)]
  rfl

/-- A line feed does not change a template that is not closed before it. -/
lemma cutBrokenTemplate_append_lineFeed (name rest : List Char) :
    cutBrokenTemplate name (rest ++ '\n' :: more) = before more (cutBrokenTemplate name rest) := by
  rw [cutBrokenTemplate, List.takeWhile_append_stop (by decide),
    List.dropWhile_append_stop (by decide), cutBrokenTemplate]
  cases rest.dropWhile inBrokenTemplate with
  | nil => rfl
  | cons c after =>
    by_cases hc : c = '\x7d'
    · subst hc
      rfl
    · simp [before, hc]

/-- Without a brace there is no template. -/
lemma cutTemplate_of_ne {c : Char} (hc : c ≠ '\x7b') (rest : List Char) :
    cutTemplate (c :: rest) = (reported .bareDollar ['$'], c :: rest) := by
  unfold cutTemplate
  split
  · rename_i heq
    exact absurd (List.cons.inj heq).1 hc
  · rfl

/-- A line feed does not change the template before it. -/
lemma cutTemplate_append_lineFeed (rest : List Char) :
    cutTemplate (rest ++ '\n' :: more) = before more (cutTemplate rest) := by
  cases rest with
  | nil => rfl
  | cons c rest =>
    by_cases hc : c = '\x7b'
    · subst hc
      simp only [List.cons_append, cutTemplate]
      rw [List.takeWhile_append_stop (by decide), List.dropWhile_append_stop (by decide)]
      cases rest.dropWhile isNamePart with
      | nil => exact cutBrokenTemplate_append_lineFeed more _ []
      | cons d after =>
        by_cases hd : d = '\x7d'
        · subst hd
          simp only [List.cons_append]
          split
          · exact cutBrokenTemplate_append_lineFeed more _ ('\x7d' :: after)
          · rfl
        · simpa [hd] using cutBrokenTemplate_append_lineFeed more _ (d :: after)
    · rw [List.cons_append, cutTemplate_of_ne hc, cutTemplate_of_ne hc]
      rfl

/-- A line feed does not change a symbol that may be doubled. -/
lemma cutDoubled_append_lineFeed (single double : Kind) {c : Char} (hc : c ≠ '\n')
    (rest : List Char) :
    cutDoubled single double c (rest ++ '\n' :: more) =
      before more (cutDoubled single double c rest) := by
  cases rest with
  | nil => exact if_neg (Ne.symm hc)
  | cons d rest =>
    simp only [List.cons_append, cutDoubled]
    split <;> rfl

/-- What a line feed leaves in both cases it leaves in a choice between them. -/
lemma ite_before {p : Prop} [Decidable p] {x x' y y' : Piece × List Char}
    (hx : p → x' = before more x) (hy : ¬ p → y' = before more y) :
    (if p then x' else y') = before more (if p then x else y) := by
  by_cases hp : p
  · rw [if_pos hp, if_pos hp, hx hp]
  · rw [if_neg hp, if_neg hp, hy hp]

/-- A piece ends before the line does, so it is the same whatever comes on the lines after it. -/
lemma cut_append_lineFeed (depth : Nat) (c : Char) (rest : List Char) :
    cut depth c (rest ++ '\n' :: more) = before more (cut depth c rest) := by
  have hcomment : (blank (c :: (rest ++ '\n' :: more).takeWhile (· != '\n')),
      (rest ++ '\n' :: more).dropWhile (· != '\n')) =
      before more (blank (c :: rest.takeWhile (· != '\n')), rest.dropWhile (· != '\n')) := by
    rw [List.takeWhile_append_stop (by decide), List.dropWhile_append_stop (by decide)]
    rfl
  refine ite_before more (fun _ => rfl) fun _ => ?_
  refine ite_before more (fun _ => rfl) fun hline => ?_
  refine ite_before more (fun _ => hcomment) fun _ => ?_
  refine ite_before more (fun _ => cutNumber_append_lineFeed more c rest) fun _ => ?_
  refine ite_before more (fun _ => cutName_append_lineFeed more c rest) fun _ => ?_
  refine ite_before more (fun _ => cutTemplate_append_lineFeed more rest) fun _ => ?_
  refine ite_before more (fun _ => cutDoubled_append_lineFeed more _ _ hline rest) fun _ => ?_
  refine ite_before more (fun _ => cutDoubled_append_lineFeed more _ _ hline rest) fun _ => ?_
  cases symbol? c <;> rfl

/-- The pieces of a text come before those of the lines after it. -/
lemma cutAll_append_lineFeed (depth : Nat) (text : List Char) :
    cutAll depth (text ++ '\n' :: more) = cutAll depth text ++
      cutAll (depthAfterAll depth (cutAll depth text)) ('\n' :: more) := by
  fun_induction cutAll depth text with
  | case1 depth => rfl
  | case2 depth c rest ih =>
    rw [List.cons_append, cutAll, cut_append_lineFeed]
    simp only [before, ih, List.cons_append]
    rfl

/-- Where no parenthesis is open, a line feed is a newline. -/
lemma cutAll_lineFeed (text : List Char) :
    cutAll 0 ('\n' :: text) = token .newline ['\n'] :: cutAll 0 text := by
  rw [cutAll]
  rfl

/-! ### The same pieces further down -/

/-- Pieces further down have their spans further down. -/
lemma placed_down (lines : Nat) (place : Place) (pieces : List Piece) :
    placed (place.down lines) pieces =
      (placed place pieces).map fun r => (r.1, r.2.down lines) := by
  induction pieces generalizing place with
  | nil => rfl
  | cons piece rest ih =>
    rw [placed, placed, Place.after_down, ih, Place.between_down, List.map_cons]

/-- Pieces further down have their tokens further down. -/
lemma tokensFrom_down (lines : Nat) (place : Place) (pieces : List Piece) :
    tokensFrom (place.down lines) pieces =
      (tokensFrom place pieces).map (Token.mapSpan (Span.down lines)) := by
  rw [tokensFrom, placed_down, List.filterMap_map, tokensFrom, List.map_filterMap]
  refine List.filterMap_congr fun r _ => ?_
  cases h : r.1.token? <;> simp [tokenAt?, h, Token.mapSpan]

/-- Pieces further down have faults with the same codes. -/
lemma codes_faultsFrom_down (lines : Nat) (place : Place) (pieces : List Piece) :
    (faultsFrom (place.down lines) pieces).map (·.cause.code) =
      (faultsFrom place pieces).map (·.cause.code) := by
  rw [faultsFrom, placed_down, List.filterMap_map, faultsFrom, List.map_filterMap,
    List.map_filterMap]
  refine List.filterMap_congr fun r _ => ?_
  cases h : r.1.cause? <;> simp [faultAt?, h]

end Piece

namespace Source

open Piece

/-- The number of parentheses that are open at the end of a source. -/
def openParens (source : Source) : Nat :=
  depthAfterAll 0 source.pieces

/-- A source and another one on the lines after it. -/
def joined (a b : Source) : Source :=
  ⟨a.name, a.text ++ "\n" ++ b.text⟩

variable {a b : Source}

/-- The text of joined sources, with a line feed between them. -/
lemma toList_joined (a b : Source) :
    (a.joined b).text.toList = a.text.toList ++ '\n' :: b.text.toList := by
  simp [joined]

/-- The pieces of joined sources, with a newline between them. -/
lemma pieces_joined (h : a.openParens = 0) :
    (a.joined b).pieces = a.pieces ++ Piece.token .newline ['\n'] :: b.pieces := by
  have hdepth : depthAfterAll 0 (cutAll 0 a.text.toList) = 0 := h
  rw [pieces, toList_joined, cutAll_append_lineFeed, hdepth, cutAll_lineFeed]
  rfl

/-- The second source begins on the line after the last one of the first source. -/
lemma start_down_lineCount (a : Source) :
    (Place.start.after a.text.toList).next '\n' = Place.start.down a.lineCount := by
  rw [Place.next_lineFeed, Place.line_after_start, Place.down, Nat.add_comm]
  rfl

/-- The tokens of both sources, with a newline between them. -/
lemma tokensFrom_joined (h : a.openParens = 0) :
    tokensFrom .start (a.joined b).pieces = tokensFrom .start a.pieces ++
      ⟨.newline, .between (Place.start.after a.text.toList) (Place.start.down a.lineCount)⟩ ::
        (tokensFrom .start b.pieces).map (Token.mapSpan (Span.down a.lineCount)) := by
  rw [pieces_joined h, tokensFrom_append, tokensFrom_cons, textOf_pieces, ← tokensFrom_down,
    ← start_down_lineCount]
  rfl

/-- The codes of joined sources are those of the first one and those of the second one. -/
lemma codes_faultsFrom_joined (h : a.openParens = 0) :
    (faultsFrom .start (a.joined b).pieces).map (·.cause.code) =
      (faultsFrom .start a.pieces).map (·.cause.code) ++
        (faultsFrom .start b.pieces).map (·.cause.code) := by
  rw [pieces_joined h, faultsFrom_append, faultsFrom_cons, textOf_pieces, List.map_append,
    ← codes_faultsFrom_down a.lineCount .start b.pieces, ← start_down_lineCount]
  rfl

/-- **Errors stay on their line.**  If no parenthesis is open at the end of a source, then the lines
of another source after it are scanned and read as they are alone, only further down, and so are
the lines of the first source, as long as neither report is full. -/
theorem joined_local (a b : Source) (hparens : a.openParens = 0)
    (hscan : (a.joined b).scan.report.total < Report.limit)
    (hparse : (Feature.parse (a.joined b).scan.tokens).2.total < Report.limit) :
    (a.joined b).scan.tokens = a.scan.tokens.filter (·.kind ≠ .endOfFile) ++
      ⟨.newline, .between (Place.start.after a.text.toList) (Place.start.down a.lineCount)⟩ ::
        b.scan.tokens.map (Token.mapSpan (Span.down a.lineCount)) ∧
    (Feature.parse (a.joined b).scan.tokens).1.items =
      (Feature.parse a.scan.tokens).1.items ++
        (Feature.parse b.scan.tokens).1.items.map (Item.mapSpans (Span.down a.lineCount)) ∧
    (a.joined b).scan.report.entries.map (·.cause.code) =
      a.scan.report.entries.map (·.cause.code) ++ b.scan.report.entries.map (·.cause.code) ∧
    (Feature.parse (a.joined b).scan.tokens).2.entries.map (·.cause.code) =
      (Feature.parse a.scan.tokens).2.entries.map (·.cause.code) ++
        (Feature.parse b.scan.tokens).2.entries.map (·.cause.code) := by
  -- the report of the whole had room for the faults of both sources
  have hcodes := codes_faultsFrom_joined (b := b) hparens
  have hroom := length_faults_lt hscan
  have hlengths := congrArg List.length hcodes
  simp only [List.length_append, List.length_map] at hlengths
  have hroomFirst : (faultsFrom .start a.pieces).length < Report.limit := by omega
  have hroomSecond : (faultsFrom .start b.pieces).length < Report.limit := by omega
  have hfirst := tokens_scan hroomFirst
  have hsecond := tokens_scan hroomSecond
  have hend : Place.start.after (a.joined b).text.toList =
      (Place.start.after b.text.toList).down a.lineCount := by
    rw [toList_joined, Place.after_append, Place.after_cons, start_down_lineCount, Place.after_down]
  have htokens : (a.joined b).scan.tokens = tokensFrom .start a.pieces ++
      ⟨.newline, .between (Place.start.after a.text.toList) (Place.start.down a.lineCount)⟩ ::
        b.scan.tokens.map (Token.mapSpan (Span.down a.lineCount)) := by
    rw [tokens_scan hroom, tokensFrom_joined hparens, hsecond, hend, List.map_append]
    simp only [List.append_assoc, List.cons_append]
    rfl
  have hfront : ∀ t ∈ tokensFrom .start a.pieces, t.kind ≠ .endOfFile :=
    fun t => kind_ne_endOfFile
  have hback : ∀ t ∈ tokensFrom .start b.pieces, t.kind ≠ .endOfFile :=
    fun t => kind_ne_endOfFile
  have hwithout : a.scan.tokens.filter (·.kind ≠ .endOfFile) = tokensFrom .start a.pieces := by
    rw [hfirst, List.filter_append, List.filter_eq_self.mpr (by simpa using hfront)]
    simp
  have hread := Feature.parse_joined ⟨.newline, _⟩
    ⟨.endOfFile, .point (Place.start.after a.text.toList)⟩
    ⟨.endOfFile, .point (Place.start.after b.text.toList)⟩ (Span.respectsMerge_down a.lineCount)
    rfl rfl rfl hfront hback (hsecond ▸ htokens) hparse
  rw [← hfirst, ← hsecond] at hread
  refine ⟨by rw [hwithout, htokens], hread.1, ?_, hread.2⟩
  rw [entries_scan hroom, entries_scan hroomFirst, entries_scan hroomSecond, hcodes]

/-- The first source has parentheses that are closed but not open, an expression that is too deep
and a template that is not closed; the second one has an unexpected character after a definition. -/
theorem joined_local_broken :
    let a : Source := ⟨"a", String.ofList ("1: x = 2))\n3: y = ".toList ++ List.replicate 64 '-' ++
      "4\n$\x7bz".toList)⟩
    let b : Source := ⟨"b", "!m = v\n5: w ++ é !m"⟩
    a.openParens = 0 ∧ (a.joined b).scan.report.total = 2 ∧
    (Feature.parse (a.joined b).scan.tokens).2.total = 2 ∧
    (Feature.parse (a.joined b).scan.tokens).1.items =
      (Feature.parse a.scan.tokens).1.items ++
        (Feature.parse b.scan.tokens).1.items.map (Item.mapSpans (Span.down 3)) := by
  intro a b
  have hparens : a.openParens = 0 := by
    rw [openParens, pieces, String.toList_ofList]
    decide +kernel
  have hscan : (a.joined b).scan.report.total = 2 := by
    rw [scan, toList_joined, String.toList_ofList]
    decide +kernel
  have hparse : (Feature.parse (a.joined b).scan.tokens).2.total = 2 := by
    rw [scan, toList_joined, String.toList_ofList]
    decide +kernel
  have hlines : a.lineCount = 3 := by
    rw [lineCount, lines, String.toList_ofList]
    decide +kernel
  have hlocal := joined_local a b hparens (by rw [hscan]; decide) (by rw [hparse]; decide)
  rw [hlines] at hlocal
  exact ⟨hparens, hscan, hparse, hlocal.2.1⟩

end Source

end SheetRules
