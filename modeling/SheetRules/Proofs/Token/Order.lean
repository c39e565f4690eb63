import SheetRules.Proofs.Feature.Lines
import SheetRules.Proofs.Source.Inside
import SheetRules.Proofs.Token.Pieces

/-!
# The order of tokens

The tokens of a source stand in its text one after the other.  Each of them ends before the next one
begins, except that the end of a newline is counted where the next line begins
(`Scan.areOrdered_scanFrom`).  All this also holds of what was scanned until a report was full.
-/

namespace SheetRules

/-! ### Places and spans -/

/-- The place is before another one. -/
def Place.Before (p q : Place) : Prop :=
  p.line < q.line ∨ p.line = q.line ∧ p.column < q.column

namespace Place

variable {p q r : Place}

/-- Places are ordered transitively. -/
lemma le_trans (hpq : p.le q = true) (hqr : q.le r = true) : p.le r = true := by
  rw [le_iff] at hpq hqr ⊢
  omega

/-- A place is not after itself. -/
lemma le_refl (p : Place) : p.le p = true := by
  simp [le_iff]

/-- What is before is not after. -/
lemma Before.le (h : p.Before q) : p.le q = true := by
  rw [le_iff]
  unfold Before at h
  omega

/-- What is before a place is before all later ones. -/
lemma Before.trans_le (h : p.Before q) (hqr : q.le r = true) : p.Before r := by
  rw [le_iff] at hqr
  unfold Before at h ⊢
  omega

end Place

namespace Span

/-- The span ends before another one begins. -/
def Before (s t : Span) : Prop :=
  s.last.Before t.first

/-- The span lies inside another one. -/
def IsInside (s t : Span) : Prop :=
  t.first.le s.first = true ∧ s.last.le t.last = true

end Span

/-! ### Tokens in order -/

namespace Token

/-- The token comes before another one: they do not overlap, but the end of a newline is counted
where the next line begins. -/
def Precedes (t u : Token) : Prop :=
  t.span.last.le u.span.first = true ∧ (Line.isInside t = true → t.span.Before u.span)

/-- The tokens come one after the other, and none of them ends before it begins. -/
def AreOrdered (tokens : List Token) : Prop :=
  tokens.Pairwise Precedes ∧ ∀ t ∈ tokens, t.span.first.le t.span.last = true

end Token

namespace Source

/-- The token stands in the source: its text is one that is cut off as this token, and its span goes
from the first to the last byte of the text. -/
def HasToken (source : Source) (t : Token) : Prop :=
  ∃ depth piece rest, Piece.IsCut depth piece rest ∧ piece.token? = some t.kind ∧
    source.HasAt t.span piece.text

end Source

namespace Scan

open Token

variable {source : Source} {depth : Nat} {c : Char} {front rest : List Char}

/-- The text of a token holds no line feed, unless the token is a newline. -/
lemma lineFeed_not_mem_of_token {kind : Kind}
    (htoken : (Piece.cut depth c rest).1.token? = some kind) (hkind : kind ≠ .newline) :
    '\n' ∉ (Piece.cut depth c rest).1.text := by
  refine (Piece.isCut_cut depth c rest).lineFeed_not_mem fun htext => ?_
  have happend := Piece.cut_append depth c rest
  rw [htext] at happend
  obtain rfl : '\n' = c := (List.cons.inj happend).1
  cases depth with
  | zero => exact hkind (Option.some.inj htoken).symm
  | succ depth => cases htoken

/-- Columns begin at one. -/
lemma one_le_column_after (front : List Char) : 1 ≤ (Place.start.after front).column := by
  obtain ⟨above, line, -, hplace, -⟩ := Place.exists_line front
  rw [hplace]
  exact Nat.le_add_left ..

/-- What scanning gives from a place on: tokens in order, none before the place, which stand in the
source. -/
structure IsFaithful (source : Source) (place : Place) (tokens : List Token) : Prop where
  ordered : AreOrdered tokens
  place_le : ∀ t ∈ tokens, place.le t.span.first = true
  hasToken : ∀ t ∈ tokens, Line.isInside t = true → source.HasToken t

/-- The end of file alone is faithful to any source. -/
lemma isFaithful_endOfFile (source : Source) (place : Place) :
    IsFaithful source place [⟨.endOfFile, .point place⟩] where
  ordered := ⟨List.pairwise_singleton _ _, List.forall_mem_singleton.mpr (Place.le_refl place)⟩
  place_le := List.forall_mem_singleton.mpr (Place.le_refl place)
  hasToken t ht hinside := by
    obtain rfl := List.mem_singleton.mp ht
    cases hinside

/-- The span of a piece begins at its place and ends before the next one, or there if the piece is a
line feed. -/
lemma span_piece (depth : Nat) (c : Char) (front rest : List Char) :
    let piece := (Piece.cut depth c rest).1
    let place := Place.start.after front
    let span := Span.between place (place.after piece.text)
    place.le span.last = true ∧ span.last.le (place.after piece.text) = true ∧
      ∀ kind, piece.token? = some kind → kind ≠ .newline →
        span.last.Before (place.after piece.text) := by
  intro piece place span
  have hcolumn : 1 ≤ place.column := one_le_column_after front
  -- a line feed is the one piece whose span ends on the next line
  by_cases htext : piece.text = ['\n']
  · have hstop : place.after piece.text = ⟨place.line + 1, 1⟩ := by
      rw [htext]
      rfl
    have hlast : span.last = ⟨place.line + 1, 1⟩ := by
      simp only [span, hstop]
      rfl
    refine ⟨?_, ?_, fun kind htoken hkind => ?_⟩
    · rw [hlast, Place.le_iff]
      simp
    · rw [hlast, hstop]
      exact Place.le_refl _
    · exact absurd (htext ▸ List.mem_singleton_self _) (lineFeed_not_mem_of_token htoken hkind)
  · have hline : '\n' ∉ piece.text := (Piece.isCut_cut depth c rest).lineFeed_not_mem htext
    have hpos : 0 < Text.byteLength piece.text :=
      Text.byteLength_pos (Piece.cut_text_ne_nil depth c rest)
    have hstop := Place.after_of_not_mem hline place
    have hlast : span.last = ⟨place.line, place.column + Text.byteLength piece.text - 1⟩ := by
      simp only [span, hstop, Span.between, Span.last, Place.mk.injEq, true_and]
      omega
    have hbefore : span.last.Before (place.after piece.text) := by
      rw [hlast, hstop]
      refine .inr ⟨rfl, ?_⟩
      simp only
      omega
    refine ⟨?_, hbefore.le, fun _ _ _ => hbefore⟩
    rw [hlast, Place.le_iff]
    refine .inr ⟨rfl, ?_⟩
    simp only
    omega

/-- The token of a piece stands before all that is scanned after it. -/
lemma IsFaithful.piece {more : List Token} (hsource : source.text.toList = front ++ c :: rest)
    (hmore : IsFaithful source
      ((Place.start.after front).after (Piece.cut depth c rest).1.text) more) :
    let piece := (Piece.cut depth c rest).1
    let place := Place.start.after front
    IsFaithful source place
      ((piece.token?.map fun kind => (⟨kind, .between place (place.after piece.text)⟩ :
        Token)).toList ++ more) := by
  intro piece place
  obtain ⟨hplace, hstop, hbefore⟩ := span_piece depth c front rest
  have hlater : ∀ t ∈ more, place.le t.span.first = true := by
    intro t ht
    exact Place.le_trans (Place.le_trans hplace hstop) (hmore.place_le t ht)
  cases htoken : piece.token? with
  | none => exact ⟨hmore.ordered, hlater, hmore.hasToken⟩
  | some kind =>
    refine ⟨⟨?_, ?_⟩, ?_, ?_⟩
    · refine List.pairwise_cons.mpr ⟨fun u hu => ⟨?_, fun h => ?_⟩, hmore.ordered.1⟩
      · exact Place.le_trans hstop (hmore.place_le u hu)
      · exact (hbefore kind htoken (Line.isInside_eq_true.mp h).1).trans_le (hmore.place_le u hu)
    · exact List.forall_mem_cons.mpr ⟨hplace, hmore.ordered.2⟩
    · exact List.forall_mem_cons.mpr ⟨Place.le_refl place, hlater⟩
    · refine List.forall_mem_cons.mpr ⟨fun h => ?_, hmore.hasToken⟩
      refine ⟨depth, piece, _, Piece.isCut_cut depth c rest, htoken, ?_⟩
      have hfront : source.text.toList = front ++ (piece.text ++ (Piece.cut depth c rest).2) := by
        rw [Piece.cut_append, hsource]
      exact Source.hasAt_between hfront (Piece.cut_text_ne_nil depth c rest)
        (lineFeed_not_mem_of_token htoken (Line.isInside_eq_true.mp h).1)

/-- Wherever scanning goes on from, its tokens are in order and stand in the source. -/
theorem isFaithful_scanFrom {place : Place} {report : Report Fault} {text : List Char}
    (hsource : source.text.toList = front ++ text) (hplace : place = Place.start.after front) :
    IsFaithful source place (scanFrom place depth report text).tokens := by
  fun_induction scanFrom place depth report text generalizing front with
  | case1 => exact isFaithful_endOfFile source _
  | case2 =>
    subst hplace
    exact (isFaithful_endOfFile source _).piece hsource
  | case3 =>
    rename_i ih
    subst hplace
    refine IsFaithful.piece hsource (ih ?_ (Place.after_append _ _ _).symm)
    rw [List.append_assoc, Piece.cut_append, hsource]

end Scan

end SheetRules
