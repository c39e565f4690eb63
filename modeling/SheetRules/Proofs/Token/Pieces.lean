import Mathlib.Tactic.Common
import SheetRules.Proofs.Diagnostic.Report
import SheetRules.Proofs.Source.Places
import SheetRules.Proofs.Token.Lexemes
import SheetRules.Token.Scan

/-!
# The pieces of a text

Scanning cuts a text into pieces one after the other.  Here all of them are cut first, then each is
given its place, and then the tokens and the faults are picked out.  As long as the report is not
full, this is what scanning does (`Scan.scanFrom_eq`).
-/

namespace SheetRules

namespace Piece

/-- The pieces of a text, where `depth` parentheses are open at its start. -/
def cutAll (depth : Nat) : List Char → List Piece
  | [] => []
  | c :: rest =>
    (cut depth c rest).1 :: cutAll ((cut depth c rest).1.depthAfter depth) (cut depth c rest).2
termination_by text => text.length
decreasing_by exact cut_rest_length depth c rest

/-- The number of open parentheses after several pieces. -/
def depthAfterAll (depth : Nat) (pieces : List Piece) : Nat :=
  pieces.foldl (fun depth piece => piece.depthAfter depth) depth

/-- The text of several pieces. -/
def textOf (pieces : List Piece) : List Char :=
  pieces.flatMap Piece.text

/-- Pieces and their spans, where the first one begins at the place. -/
def placed (place : Place) : List Piece → List (Piece × Span)
  | [] => []
  | piece :: rest =>
    (piece, .between place (place.after piece.text)) :: placed (place.after piece.text) rest

/-- The token that a piece is at its place. -/
def tokenAt? (r : Piece × Span) : Option Token :=
  r.1.token?.map fun kind => ⟨kind, r.2⟩

/-- What is reported about a piece at its place. -/
def faultAt? (r : Piece × Span) : Option Fault :=
  r.1.cause?.map fun cause => ⟨cause, r.2⟩

/-- The tokens among pieces, where the first piece begins at the place. -/
def tokensFrom (place : Place) (pieces : List Piece) : List Token :=
  (placed place pieces).filterMap tokenAt?

/-- What is reported about pieces, where the first piece begins at the place. -/
def faultsFrom (place : Place) (pieces : List Piece) : List Fault :=
  (placed place pieces).filterMap faultAt?

/-! ### Nothing is lost, and the order is kept -/

/-- The text of pieces is put together piece by piece. -/
@[simp] lemma textOf_cons (piece : Piece) (pieces : List Piece) :
    textOf (piece :: pieces) = piece.text ++ textOf pieces :=
  List.flatMap_cons

/-- The pieces of a text make up the text. -/
lemma textOf_cutAll (depth : Nat) (text : List Char) : textOf (cutAll depth text) = text := by
  fun_induction cutAll depth text with
  | case1 => rfl
  | case2 depth c rest ih => rw [textOf_cons, ih, cut_append]

/-- Without pieces there are no places. -/
@[simp] lemma placed_nil (place : Place) : placed place [] = [] := rfl

/-- Pieces after other pieces begin where those end. -/
lemma placed_append (place : Place) (pieces more : List Piece) :
    placed place (pieces ++ more) =
      placed place pieces ++ placed (place.after (textOf pieces)) more := by
  induction pieces generalizing place with
  | nil => rfl
  | cons piece rest ih =>
    rw [List.cons_append, placed, placed, ih, textOf_cons, Place.after_append, List.cons_append]

/-- Tokens of pieces after other pieces begin where those end. -/
lemma tokensFrom_append (place : Place) (pieces more : List Piece) :
    tokensFrom place (pieces ++ more) =
      tokensFrom place pieces ++ tokensFrom (place.after (textOf pieces)) more := by
  rw [tokensFrom, placed_append, List.filterMap_append]
  rfl

/-- Faults of pieces after other pieces begin where those end. -/
lemma faultsFrom_append (place : Place) (pieces more : List Piece) :
    faultsFrom place (pieces ++ more) =
      faultsFrom place pieces ++ faultsFrom (place.after (textOf pieces)) more := by
  rw [faultsFrom, placed_append, List.filterMap_append]
  rfl

/-- The token of a piece comes before those of the pieces after it. -/
lemma tokensFrom_cons (place : Place) (piece : Piece) (rest : List Piece) :
    tokensFrom place (piece :: rest) =
      (tokenAt? (piece, .between place (place.after piece.text))).toList ++
        tokensFrom (place.after piece.text) rest := by
  rw [tokensFrom, placed, List.filterMap_cons]
  split <;> simp_all [tokensFrom]

/-- The fault of a piece comes before those of the pieces after it. -/
lemma faultsFrom_cons (place : Place) (piece : Piece) (rest : List Piece) :
    faultsFrom place (piece :: rest) =
      (faultAt? (piece, .between place (place.after piece.text))).toList ++
        faultsFrom (place.after piece.text) rest := by
  rw [faultsFrom, placed, List.filterMap_cons]
  split <;> simp_all [faultsFrom]

/-! ### Each piece -/

/-- Each piece of a text is one that can be cut off at its place, and it is not empty. -/
lemma isCut_of_cutAll {depth : Nat} {text : List Char} {front back : List Piece} {piece : Piece}
    (h : cutAll depth text = front ++ piece :: back) :
    IsCut (depthAfterAll depth front) piece (textOf back) ∧ piece.text ≠ [] := by
  fun_induction cutAll depth text generalizing front with
  | case1 => simp at h
  | case2 depth c rest ih =>
    cases front with
    | nil =>
      obtain ⟨rfl, rfl⟩ := List.cons.inj h
      rw [textOf_cutAll]
      exact ⟨isCut_cut depth c rest, cut_text_ne_nil depth c rest⟩
    | cons first front =>
      obtain ⟨rfl, hrest⟩ := List.cons.inj h
      exact ih hrest

/-- A piece stands where the text of the pieces before it ends. -/
lemma exists_of_mem_placed {place : Place} {pieces : List Piece} {r : Piece × Span}
    (hr : r ∈ placed place pieces) :
    ∃ front back, pieces = front ++ r.1 :: back ∧ r.2 =
      .between (place.after (textOf front)) ((place.after (textOf front)).after r.1.text) := by
  induction pieces generalizing place with
  | nil => cases hr
  | cons piece rest ih =>
    rcases List.mem_cons.mp hr with rfl | hr
    · exact ⟨[], rest, rfl, rfl⟩
    · obtain ⟨front, back, rfl, hspan⟩ := ih hr
      refine ⟨piece :: front, back, rfl, ?_⟩
      rw [hspan, textOf_cons, Place.after_append]

/-- No token of a text is an end of file. -/
lemma kind_ne_endOfFile {place : Place} {depth : Nat} {text : List Char} {t : Token}
    (ht : t ∈ tokensFrom place (cutAll depth text)) : t.kind ≠ .endOfFile := by
  obtain ⟨r, hr, hkind⟩ := List.mem_filterMap.mp ht
  obtain ⟨front, back, hpieces, -⟩ := exists_of_mem_placed hr
  obtain ⟨kind, htoken, rfl⟩ := Option.map_eq_some_iff.mp hkind
  rintro rfl
  exact (isCut_of_cutAll hpieces).1.token?_ne_endOfFile htoken

end Piece

/-! ### Scanning -/

namespace Scan

open Piece

variable {place : Place} {depth : Nat} {report : Report Fault} {text : List Char}

/-- A piece adds its fault to the report. -/
lemma reportAfter_eq (report : Report Fault) (span : Span) (piece : Piece) :
    reportAfter report span piece = report.pushAll (faultAt? (piece, span)).toList := by
  unfold reportAfter faultAt?
  cases piece.cause? <;> rfl

/-- A report that is not full in the end had room for the faults of all pieces. -/
lemma room_of_total_lt (h : (scanFrom place depth report text).report.total < Report.limit) :
    report.total + (faultsFrom place (cutAll depth text)).length < Report.limit := by
  fun_induction scanFrom place depth report text with
  | case1 => simpa [cutAll, faultsFrom] using h
  | case2 place depth report c rest piece stop span after tokens hfull =>
    have hopen := Report.isFull_eq_false.mpr h
    simp [hopen] at hfull
  | case3 place depth report c rest piece stop span after tokens _ more ih =>
    have hrest := ih h
    rw [show after = reportAfter report span piece from rfl, reportAfter_eq,
      Report.total_pushAll] at hrest
    rw [cutAll, faultsFrom_cons, List.length_append, ← Nat.add_assoc]
    exact hrest

/-- While there is room in the report, scanning picks out the tokens and the faults of all
pieces. -/
theorem scanFrom_eq
    (hroom : report.total + (faultsFrom place (cutAll depth text)).length < Report.limit) :
    scanFrom place depth report text =
      ⟨tokensFrom place (cutAll depth text) ++ [⟨.endOfFile, .point (place.after text)⟩],
        report.pushAll (faultsFrom place (cutAll depth text))⟩ := by
  fun_induction cutAll depth text generalizing place report with
  | case1 depth => simp [scanFrom, tokensFrom, faultsFrom]
  | case2 depth c rest ih =>
    set piece := (cut depth c rest).1 with hpiece
    set after := (cut depth c rest).2 with hafter
    rw [faultsFrom_cons, List.length_append, ← Nat.add_assoc, ← Report.total_pushAll,
      ← reportAfter_eq] at hroom
    have hopen := Report.isFull_eq_false.mpr (Nat.lt_of_le_of_lt (Nat.le_add_right _ _) hroom)
    have htext : place.after (c :: rest) = (place.after piece.text).after after := by
      rw [← cut_append depth c rest, Place.after_append]
    rw [scanFrom]
    simp only [← hpiece, ← hafter, hopen, Bool.and_false, ih hroom]
    rw [tokensFrom_cons, faultsFrom_cons, htext, reportAfter_eq, Report.pushAll_append,
      List.append_assoc]
    rfl

end Scan

namespace Source

/-- The pieces of a source. -/
def pieces (source : Source) : List Piece :=
  Piece.cutAll 0 source.text.toList

variable {source : Source}

/-- The pieces of a source are cut from its text. -/
lemma textOf_pieces (source : Source) : Piece.textOf source.pieces = source.text.toList :=
  Piece.textOf_cutAll 0 _

/-- A report that is not full had room for the faults of all pieces. -/
lemma length_faults_lt (h : source.scan.report.total < Report.limit) :
    (Piece.faultsFrom .start source.pieces).length < Report.limit := by
  have hroom := Scan.room_of_total_lt h
  rwa [Report.total_empty, Nat.zero_add] at hroom

/-- A source that leaves room in the report has the tokens of its pieces. -/
lemma tokens_scan (hroom : (Piece.faultsFrom .start source.pieces).length < Report.limit) :
    source.scan.tokens = Piece.tokensFrom .start source.pieces ++
      [⟨.endOfFile, .point (Place.start.after source.text.toList)⟩] :=
  congrArg Scan.tokens (Scan.scanFrom_eq (by rwa [Report.total_empty, Nat.zero_add]))

/-- A source that leaves room in the report has the faults of its pieces. -/
lemma entries_scan (hroom : (Piece.faultsFrom .start source.pieces).length < Report.limit) :
    source.scan.report.entries = Piece.faultsFrom .start source.pieces := by
  have hreport : source.scan.report =
      Report.empty.pushAll (Piece.faultsFrom .start source.pieces) :=
    congrArg Scan.report (Scan.scanFrom_eq (by rwa [Report.total_empty, Nat.zero_add]))
  rw [hreport, Report.entries_pushAll_empty hroom]

end Source

end SheetRules
