import SheetRules.Proofs.Feature.Outline
import SheetRules.Proofs.Feature.Soundness

/-!
# Spans are exact

Every reader merges the spans of what stands at the two ends of what it has read.  Along a line the
tokens are in order, so the merged span goes from the first token to the last one; that is what
`Outline.Covers` asks of every part of an item.  As for the tokens themselves, the relation is one
that readers pass on to one another (`Parser.Reads`).

A feature is read line by line, and a line that cannot be read leaves the spans of the others as
they are.  So the spans are exact whatever the source is (`Source.spans_exact`).
-/

namespace SheetRules

open Token

namespace Parser

variable {α : Type} {p : Parser α} {Q Q' : α → List Token → Prop} {view : α → Outline}

/-- What is read is related to the same tokens in two ways. -/
lemma Reads.and (hQ : Reads p Q) (hQ' : Reads p Q') :
    Reads p fun a used => Q a used ∧ Q' a used := by
  intro c hc a d hrun
  obtain ⟨used, hrest, hstop, h⟩ := hQ c hc a d hrun
  obtain ⟨used', hrest', -, h'⟩ := hQ' c hc a d hrun
  obtain rfl : used = used' := List.append_cancel_right (hrest.symm.trans hrest')
  exact ⟨used, hrest, hstop, h, h'⟩

/-- Where the tokens are a run, they are covered by the outline of what is read. -/
def Outlined (view : α → Outline) (a : α) (used : List Token) : Prop :=
  IsRun used → (view a).Covers used

/-- The token that was looked at is the first one that is passed. -/
lemma Reads.peek {β : Type} {f : Token → Parser β} {R : β → List Token → Prop}
    (h : ∀ token, Reads (f token) fun b used => (∀ t ∈ used.head?, t = token) → R b used) :
    Reads (peek >>= f) R := by
  refine fun c hc => readsFrom_peek fun b d hrun => ?_
  obtain ⟨used, hrest, hstop, hb⟩ := h c.current c hc b d hrun
  refine ⟨used, hrest, hstop, hb fun t ht => ?_⟩
  obtain ⟨more, rfl⟩ := List.head?_eq_some_iff.mp ht
  rw [Cursor.current, hrest]
  rfl

/-! ### Single tokens and paths -/

/-- The token that is expected is the one that is passed. -/
lemma reads_expect_eq (kind : Kind) (hkind : kind.IsInside) :
    Reads (expect kind) fun t used => used = [t] := by
  refine fun c hc => readsFrom_peek ?_
  split
  · rename_i h
    exact Reads.advance hc (h ▸ hkind) (reads_pure rfl)
  · exact reads_failAt _ _ c hc

/-- A name covers its token. -/
lemma outlined_ident : Reads ident (Outlined Ident.outline) := by
  refine fun c hc => readsFrom_peek ?_
  split
  · rename_i text h
    refine Reads.advance hc (h ▸ trivial) (reads_pure fun hrun => ?_)
    exact Outline.covers_written.mpr
      ⟨hrun, Span.covers_singleton _, by simp [h], Outline.inOrder_nil _⟩
  · exact reads_failAt _ _ c hc

/-- A segment has the span of its token. -/
lemma reads_segment_span : Reads segment fun r used => ∃ t : Token, used = [t] ∧ r.2 = t.span := by
  refine fun c hc => readsFrom_peek ?_
  split
  · rename_i text h
    exact Reads.advance hc (h ▸ trivial) (reads_pure ⟨_, rfl, rfl⟩)
  · rename_i text h
    exact Reads.advance hc (h ▸ trivial) (reads_pure ⟨_, rfl, rfl⟩)
  · exact reads_failAt _ _ c hc

/-- The last segment of a path is the one before, or it stands at the end of what was passed. -/
lemma reads_segmentsAfter_span (last : Span) (fuel : Nat) : Reads (segmentsAfter last fuel)
    fun r used => used = [] ∧ r.2 = last ∨
      ∃ (front : List Token) (t : Token), used = front ++ [t] ∧ r.2 = t.span := by
  induction fuel generalizing last with
  | zero => exact reads_failAt _ _
  | succ fuel ih =>
    refine (reads_eat .dot trivial).bind fun found dot hdot => ?_
    cases found with
    | false => exact reads_pure (.inl ⟨by simpa using hdot, rfl⟩)
    | true =>
      refine reads_segment_span.bind fun r first hfirst => ?_
      obtain ⟨t, rfl, hspan⟩ := hfirst
      refine (ih r.2).bind fun r' more hmore => reads_pure (.inr ?_)
      rcases hmore with ⟨rfl, hlast⟩ | ⟨front, u, rfl, hlast⟩
      · exact ⟨dot, t, by simp, hlast.trans hspan⟩
      · exact ⟨dot ++ t :: front, u, by simp, hlast⟩

/-- A path covers its tokens. -/
lemma reads_path_span : Reads path fun p used => IsRun used → p.span.Covers used := by
  refine reads_segment_span.bind fun r first hfirst => ?_
  obtain ⟨t, rfl, hspan⟩ := hfirst
  refine reads_steps.bind fun fuel none hnone => ?_
  subst hnone
  refine (reads_segmentsAfter_span r.2 fuel).bind fun r' more hmore => reads_pure fun hrun => ?_
  rw [List.nil_append, List.append_nil] at hrun ⊢
  have hfront : [t] <+: [t] ++ more := List.prefix_append [t] more
  rw [hspan] at hmore ⊢
  rcases hmore with ⟨rfl, hlast⟩ | ⟨front, u, rfl, hlast⟩
  · rw [hlast]
    exact (Span.covers_singleton t).merge hrun.ordered hfront (Span.covers_singleton t)
      List.suffix_rfl
  · rw [hlast]
    refine (Span.covers_singleton t).merge hrun.ordered hfront (Span.covers_singleton u) ?_
    exact (List.suffix_append front [u]).trans (List.suffix_append [t] _)

/-- A path is outlined by its segments. -/
lemma outlined_path : Reads path (Outlined Path.outline) := by
  refine (reads_path.and reads_path_span).mono fun p used ⟨hkinds, hspan⟩ hrun => ?_
  exact Outline.covers_written.mpr ⟨hrun, hspan hrun, hkinds.2, Outline.inOrder_nil _⟩

/-! ### Lists -/

/-- Values with commas between them stand in order. -/
lemma inOrder_separated {value : Parser α} (h : Reads value (Outlined view)) (fuel : Nat) :
    Reads (separated value fuel) fun as used =>
      IsRun used → Outline.InOrder (as.map view) used := by
  induction fuel with
  | zero => exact reads_failAt _ _
  | succ fuel ih =>
    refine h.bind fun a first hfirst => ?_
    refine (reads_eat .comma trivial).bind fun found comma _ => ?_
    cases found with
    | false => exact reads_pure fun hrun => (hfirst hrun.left).inOrder.extend _
    | true =>
      refine ih.bind fun as more hmore => reads_pure fun hrun => ?_
      rw [List.append_nil] at hrun ⊢
      exact (hfirst hrun.left).inOrder.append ((hmore hrun.right.right).skip comma)

/-- The values of a list cover their runs, and the parenthesis that closes it comes last. -/
lemma inOrder_listed {value : Parser α} (h : Reads value (Outlined view)) :
    Reads (listed value) fun r used => ∃ front : List Token, used = front ++ [r.2] ∧
      (IsRun used → Outline.InOrder (r.1.map view) used) := by
  have hclose : ∀ (as : List α) (before : List Token),
      (IsRun before → Outline.InOrder (as.map view) before) →
      Reads (expect .closeParen >>= fun close => pure (as, close)) fun r used =>
        ∃ front : List Token, before ++ used = front ++ [r.2] ∧
          (IsRun (before ++ used) → Outline.InOrder (r.1.map view) (before ++ used)) := by
    intro as before hbefore
    refine (reads_expect_eq .closeParen trivial).bind fun close used hused => reads_pure ?_
    subst hused
    exact ⟨before, by simp, fun hrun => (hbefore hrun.left).extend _⟩
  refine fun c hc => readsFrom_peek ?_
  split
  · exact hclose [] [] (fun _ => Outline.inOrder_nil _) c hc
  · refine reads_steps.bind (fun fuel none hnone => ?_) c hc
    refine (inOrder_separated h fuel).bind fun as before hbefore => ?_
    subst hnone
    exact hclose as before hbefore

/-! ### Expressions -/

namespace Level

/-- Where the tokens are a run, the expression covers them, and its parts cover runs of them. -/
def Spans (e : Expr) (used : List Token) : Prop :=
  IsRun used → e.span.Covers used ∧ Outline.InOrder e.parts used

/-- A reader whose tokens spell what it reads. -/
lemma outlined_of_spans {tier : Tier} {p : Parser Expr} (hwrites : Reads p (Writes tier))
    (hspans : Reads p Spans) : Reads p (Outlined Expr.outline) := by
  refine (hwrites.and hspans).mono fun e used ⟨hkinds, h⟩ hrun => ?_
  exact Outline.covers_written.mpr ⟨hrun, (h hrun).1, hkinds.2, (h hrun).2⟩

/-- An operand that is a path covers its tokens. -/
lemma spans_pathOperand : Reads (do let value ← path; pure (Expr.path value)) Spans := by
  refine reads_path_span.bind fun value used hvalue => reads_pure fun hrun => ?_
  rw [List.append_nil] at hrun ⊢
  rw [Expr.parts]
  exact ⟨hvalue hrun, Outline.inOrder_nil _⟩

section Operands

variable {inner : Parser Expr} (h : Reads inner (Outlined Expr.outline))

include h

/-- A macro goes from its mark to its name, or to the parenthesis that closes its arguments. -/
lemma spans_macroAfter (mark : Token) :
    Reads (macroAfter mark.span inner) fun e used => Spans e (mark :: used) := by
  have hmark := Span.covers_singleton mark
  refine outlined_ident.bind fun name nameTokens hname => ?_
  refine (reads_eat .openParen trivial).bind fun found paren hparen => ?_
  cases found with
  | false =>
    obtain rfl : paren = [] := by simpa using hparen
    refine reads_pure fun hrun => ?_
    rw [List.append_nil, List.append_nil] at hrun ⊢
    have hname := hname hrun.tail
    rw [Expr.parts]
    refine ⟨hmark.merge hrun.ordered (List.prefix_append [mark] nameTokens) hname.span_covers ?_,
      hname.inOrder.skip [mark]⟩
    exact List.suffix_append [mark] nameTokens
  | true =>
    refine (inOrder_listed h).bind fun r args hargs => reads_pure fun hrun => ?_
    obtain ⟨front, rfl, hargs⟩ := hargs
    rw [List.append_nil] at hrun ⊢
    have hrun' := hrun.tail
    have hname := hname hrun'.left
    have hargs := hargs hrun'.right.right
    rw [Expr.parts, Expr.outlines_eq_map]
    refine ⟨hmark.merge hrun.ordered (List.prefix_append [mark] _) (Span.covers_singleton r.2) ?_,
      (hname.inOrder.append (hargs.skip paren)).skip [mark]⟩
    exact ⟨mark :: (nameTokens ++ (paren ++ front)), by simp⟩

/-- What begins with a name goes from the name to the end of the path or of the arguments. -/
lemma spans_named : Reads (named inner) Spans := by
  intro c hc e d hrun
  rcases opensCall_cases c with ⟨t, paren, more, hrest, hparen, hopens⟩ | hopens
  · rw [named, bind_of_ok hopens] at hrun
    refine ((outlined_ident.and reads_ident) c hc).bind (fun name d used hused hstop hname => ?_)
      e d hrun
    obtain ⟨hname, hkinds⟩ := hname
    obtain ⟨u, rfl, -⟩ := List.map_eq_singleton_iff.mp hkinds
    have hd : d.rest = paren :: more := by
      rw [hrest, List.singleton_append] at hused
      exact (List.cons.inj hused).2.symm
    have hclosed : Cursor.IsClosed ⟨more, d.stop⟩ := by rwa [Cursor.IsClosed, hstop]
    refine readsFrom_advance hd ?_
    refine (inOrder_listed h).bind (fun r args hargs => reads_pure fun hrun => ?_) _ hclosed
    obtain ⟨front, rfl, hargs⟩ := hargs
    rw [List.append_nil] at hrun ⊢
    have hname := hname hrun.left
    have hargs := hargs (hrun.right.tail)
    rw [Expr.parts, Expr.outlines_eq_map]
    refine ⟨hname.span_covers.merge hrun.ordered (List.prefix_append [u] _)
      (Span.covers_singleton r.2) ?_, hname.inOrder.append (hargs.skip [paren])⟩
    exact ⟨u :: paren :: front, by simp⟩
  · rw [named, bind_of_ok hopens] at hrun
    exact spans_pathOperand c hc e d hrun

/-- Every operand covers its tokens. -/
lemma spans_operand : Reads (operand inner) Spans := by
  refine fun c hc => readsFrom_peek ?_
  split
  · rename_i value hkind
    refine Reads.advance hc (hkind ▸ trivial) (reads_pure fun _ => ?_)
    rw [Expr.parts]
    exact ⟨Span.covers_singleton c.current, Outline.inOrder_nil _⟩
  · exact spans_named h c hc
  · exact spans_pathOperand c hc
  · rename_i hkind
    exact Reads.advance hc (hkind ▸ trivial) (spans_macroAfter h c.current)
  · rename_i hkind
    refine Reads.advance hc (hkind ▸ trivial) ?_
    refine h.bind fun value used hvalue => ?_
    refine (reads_expect_eq .closeParen trivial).bind fun close last hlast =>
      reads_pure fun hrun => ?_
    subst hlast
    rw [List.append_nil] at hrun ⊢
    have hvalue := hvalue hrun.tail.left
    rw [Expr.parts]
    refine ⟨(Span.covers_singleton c.current).merge hrun.ordered (List.prefix_append [c.current] _)
      (Span.covers_singleton close) ?_, (hvalue.inOrder.extend [close]).skip [c.current]⟩
    exact ⟨c.current :: used, by simp⟩
  · exact reads_failAt _ _ c hc

end Operands

/-- The readers of the level give expressions that cover their tokens. -/
structure IsExact (level : Level) : Prop where
  sum : Reads level.sum (Outlined Expr.outline)
  product : Reads level.product (Outlined Expr.outline)
  signed : Reads level.signed (Outlined Expr.outline)
  sumAfter : ∀ left before, Outlined Expr.outline left before →
    Reads (level.sumAfter left) fun e used => Outlined Expr.outline e (before ++ used)
  productAfter : ∀ left before, Outlined Expr.outline left before →
    Reads (level.productAfter left) fun e used => Outlined Expr.outline e (before ++ used)

/-- Below the last level nothing is read. -/
lemma isExact_exhausted : exhausted.IsExact where
  sum := reads_tooDeep _
  product := reads_tooDeep _
  signed := reads_tooDeep _
  sumAfter _ _ _ := reads_tooDeep _
  productAfter _ _ _ := reads_tooDeep _

/-- Two operands and the operator between them. -/
lemma outlined_join {left right : Expr} {op : BinaryOp} {before used : List Token} {t : Token}
    (hkind : t.kind = op.kind) (hleft : Outlined Expr.outline left before)
    (hright : Outlined Expr.outline right used) :
    Outlined Expr.outline (join left op right) (before ++ t :: used) := by
  intro hrun
  have hleft := hleft hrun.left
  have hright := hright (hrun.right.tail)
  refine Outline.covers_written.mpr ⟨hrun, ?_, ?_, ?_⟩
  · refine hleft.span_covers.merge hrun.ordered (List.prefix_append _ _) hright.span_covers ?_
    exact (List.suffix_cons t used).trans (List.suffix_append _ _)
  · have hkinds := (Outline.covers_written.mp hleft).2.2.1
    have hkinds' := (Outline.covers_written.mp hright).2.2.1
    rw [join, Expr.kinds, List.map_append, List.map_cons, hkinds, hkinds', hkind]
  · rw [join, Expr.parts]
    exact hleft.inOrder.append (hright.inOrder.skip [t])

/-- The readers of one level more are exact as well. -/
theorem IsExact.above {below : Level} (hsound : below.IsSound) (h : below.IsExact) :
    below.above.IsExact := by
  have signed : Reads below.above.signed (Outlined Expr.outline) := by
    refine outlined_of_spans hsound.above.signed (Reads.peek fun token => ?_)
    refine (reads_eat .minus trivial).bind fun found sign hsign => ?_
    cases found with
    | false =>
      obtain rfl : sign = [] := by simpa using hsign
      exact (spans_operand h.sum).mono fun e used he _ => he
    | true =>
      obtain ⟨t, rfl, -⟩ := List.map_eq_singleton_iff.mp hsign
      refine h.signed.bind fun inner used hinner => reads_pure fun hhead hrun => ?_
      -- the sign is the token that was looked at
      obtain rfl : t = token := hhead t rfl
      rw [List.append_nil] at hrun ⊢
      have hinner := hinner hrun.right
      rw [Expr.parts]
      refine ⟨?_, hinner.inOrder.skip [t]⟩
      exact (Span.covers_singleton t).merge hrun.ordered (List.prefix_append _ _)
        hinner.span_covers (List.suffix_append _ _)
  have productAfter : ∀ left before, Outlined Expr.outline left before →
      Reads (below.above.productAfter left) fun e used =>
        Outlined Expr.outline e (before ++ used) := by
    refine fun left before hleft c hc => readsFrom_peek ?_
    split
    · exact reads_pure (by simpa using hleft) c hc
    · rename_i op hop
      obtain ⟨hkind, -⟩ := kind_of_productOp? hop
      refine Reads.advance hc (hkind ▸ op.isInside_kind) ?_
      refine h.signed.bind fun right used hright => ?_
      refine (h.productAfter _ _ (outlined_join hkind hleft hright)).mono fun e more he => ?_
      simpa using he
  have product : Reads below.above.product (Outlined Expr.outline) :=
    signed.bind productAfter
  have sumAfter : ∀ left before, Outlined Expr.outline left before →
      Reads (below.above.sumAfter left) fun e used =>
        Outlined Expr.outline e (before ++ used) := by
    refine fun left before hleft c hc => readsFrom_peek ?_
    split
    · exact reads_pure (by simpa using hleft) c hc
    · rename_i op hop
      obtain ⟨hkind, -⟩ := kind_of_sumOp? hop
      refine Reads.advance hc (hkind ▸ op.isInside_kind) ?_
      refine h.product.bind fun right used hright => ?_
      refine (h.sumAfter _ _ (outlined_join hkind hleft hright)).mono fun e more he => ?_
      simpa using he
  have sum : Reads below.above.sum (Outlined Expr.outline) :=
    product.bind sumAfter
  exact ⟨sum, product, signed, sumAfter, productAfter⟩

/-- On every level the spans are exact. -/
lemma isExact_ofNat (levels : Nat) : (ofNat levels).IsExact := by
  induction levels with
  | zero => exact isExact_exhausted
  | succ levels ih => exact ih.above (isSound_ofNat levels)

end Level

/-- An expression covers its tokens, and its parts cover theirs in order. -/
lemma outlined_expr : Reads expr (Outlined Expr.outline) :=
  (Level.isExact_ofNat Limit.exprLevels).sum

/-! ### Items -/

/-- Where the tokens are a run, the item covers them, and its parts cover runs of them. -/
def SpansItem (i : Item) (used : List Token) : Prop :=
  IsRun used → i.span.Covers used ∧ Outline.InOrder i.parts used

/-- A definition covers its tokens, and its parts cover theirs in order. -/
lemma spans_macroDef : Reads macroDef fun d used => SpansItem (.define d) used := by
  -- from the equals sign on, after the tokens of the name and the parameters
  have hbody : ∀ (start : Token) (name : Ident) (params : Option (List Ident))
      (before : List Token), (IsRun (start :: before) →
        Outline.InOrder (name.outline :: (params.getD []).map Ident.outline) (start :: before)) →
      Reads (do
        let _ ← expect .equals
        let body ← expr
        pure (⟨name, params, body, start.span.merge body.span⟩ : MacroDef))
      fun d used => SpansItem (.define d) (start :: before ++ used) := by
    intro start name params before hbefore
    refine (reads_expect .equals trivial).bind fun _ equals hequals => ?_
    refine outlined_expr.bind fun body used hused => reads_pure fun hrun => ?_
    rw [List.append_nil] at hrun ⊢
    have hbefore := hbefore hrun.left
    have hused := hused hrun.right.right
    refine ⟨?_, hbefore.append (hused.inOrder.skip equals)⟩
    refine (Span.covers_singleton start).merge hrun.ordered (List.prefix_append [start] _)
      hused.span_covers ?_
    exact (List.suffix_append equals used).trans (List.suffix_append _ _)
  refine (reads_expect_eq .bang trivial).bind fun start bang hbang => ?_
  subst hbang
  refine outlined_ident.bind fun name nameTokens hname => ?_
  refine (reads_eat .openParen trivial).bind fun found paren hparen => ?_
  cases found with
  | false =>
    refine (hbody start name none (nameTokens ++ paren) fun hrun => ?_).mono fun d more hd => ?_
    · exact ((hname hrun.tail.left).inOrder.extend paren).skip [start]
    · simpa using hd
  | true =>
    refine (inOrder_listed outlined_ident).bind fun r tokens htokens => ?_
    obtain ⟨-, -, htokens⟩ := htokens
    refine (hbody start name (some r.1) (nameTokens ++ (paren ++ tokens)) fun hrun => ?_).mono
      fun d more hd => ?_
    · have hrun := hrun.tail
      exact ((hname hrun.left).inOrder.append ((htokens hrun.right.right).skip paren)).skip [start]
    · simpa using hd

/-- A rule covers its tokens, and its parts cover theirs in order. -/
lemma spans_rule : Reads rule fun r used => SpansItem (.rule r) used := by
  refine Reads.peek fun start => ?_
  refine (reads_eat .minus trivial).bind fun negative sign _ => ?_
  refine reads_precedence.bind fun value number hnumber => ?_
  refine (reads_expect .colon trivial).bind fun _ colon _ => ?_
  refine outlined_path.bind fun target path hpath => ?_
  refine reads_ruleOp.bind fun op operator _ => ?_
  refine outlined_expr.bind fun expression used hused => reads_pure fun hhead hrun => ?_
  rw [List.append_nil] at hhead hrun ⊢
  have hpath := hpath hrun.right.right.right.left
  have hused := hused hrun.right.right.right.right.right
  have hstart : [start] <+: sign ++ (number ++ (colon ++ (path ++ (operator ++ used)))) := by
    obtain ⟨t, rfl, -⟩ := List.map_eq_singleton_iff.mp hnumber
    obtain ⟨first, more, hfirst⟩ : ∃ first more,
        sign ++ ([t] ++ (colon ++ (path ++ (operator ++ used)))) = first :: more :=
      List.exists_cons_of_ne_nil (by simp)
    rw [hfirst] at hhead ⊢
    rw [hhead first rfl]
    exact List.prefix_append [start] more
  refine ⟨(Span.covers_singleton start).merge hrun.ordered hstart hused.span_covers ?_, ?_⟩
  · exact ⟨sign ++ (number ++ (colon ++ (path ++ operator))), by simp⟩
  · have hparts := hpath.inOrder.append (hused.inOrder.skip operator)
    exact ((hparts.skip colon).skip number).skip sign

/-- An item covers the tokens that it is read from. -/
theorem outlined_item : Reads item (Outlined Item.outline) := by
  have hrule : Reads (do pure (Item.rule (← rule))) SpansItem := by
    refine spans_rule.bind fun r used hr => reads_pure ?_
    simpa using hr
  have hitem : Reads item SpansItem := by
    refine fun c hc => readsFrom_peek ?_
    split
    · refine spans_macroDef.bind (fun d used hd => reads_pure ?_) c hc
      simpa using hd
    · exact hrule c hc
    · exact hrule c hc
    · exact reads_failAt _ _ c hc
  refine (reads_item.and hitem).mono fun i used ⟨hwrites, hspans⟩ hrun => ?_
  rw [Item.outline, Outline.Covers]
  exact ⟨hrun, (hspans hrun).1, hwrites.2, (hspans hrun).2⟩

end Parser

/-! ### Lines -/

namespace Line

/-- The lines are runs of the tokens, one after the other. -/
def AreIn : List Line → List Token → Prop
  | [], _ => True
  | line :: rest, tokens => ∃ gap after : List Token,
      tokens = gap ++ (line.tokens ++ after) ∧ AreIn rest after

variable {last : Span} {tokens : List Token}

/-- Tokens in front of the lines make no difference. -/
lemma AreIn.skip {lines : List Line} (gap : List Token) (h : AreIn lines tokens) :
    AreIn lines (gap ++ tokens) := by
  cases lines with
  | nil => exact trivial
  | cons line rest =>
    obtain ⟨before, after, rfl, hrest⟩ := h
    exact ⟨gap ++ before, after, (List.append_assoc ..).symm, hrest⟩

/-- The tokens of a line are next to each other. -/
lemma AreIn.isInfix {lines : List Line} {line : Line} (h : AreIn lines tokens)
    (hline : line ∈ lines) : line.tokens <:+: tokens := by
  induction lines generalizing tokens with
  | nil => exact absurd hline List.not_mem_nil
  | cons other rest ih =>
    obtain ⟨gap, after, rfl, hrest⟩ := h
    rcases List.mem_cons.mp hline with rfl | hline
    · exact ⟨gap, after, List.append_assoc ..⟩
    · have hsuffix : after <:+ gap ++ (other.tokens ++ after) :=
        (List.suffix_append _ after).trans (List.suffix_append gap _)
      exact (ih hrest hline).trans hsuffix.isInfix

/-- Cutting tokens into lines. -/
lemma areIn_split (last : Span) (tokens : List Token) : AreIn (split last tokens).1 tokens := by
  fun_induction split last tokens with
  | case1 => exact trivial
  | case2 => exact trivial
  | case3 last t rest hkind ih => exact ih.skip [t]
  | case4 last t rest line after final lines finish heq _ _ ih =>
    rw [heq] at ih
    refine ⟨[], after, ?_, ih⟩
    rw [List.nil_append, List.cons_append, List.takeWhile_append_dropWhile]

/-- No token of a line closes it. -/
lemma isInside_of_mem_split {line : Line} (hline : line ∈ (split last tokens).1) :
    ∀ t ∈ line.tokens, isInside t = true := by
  fun_induction split last tokens with
  | case1 => exact absurd hline List.not_mem_nil
  | case2 => exact absurd hline List.not_mem_nil
  | case3 last t rest hkind ih => exact ih hline
  | case4 last t rest tokens after final lines finish heq hend hnewline ih =>
    rw [heq] at ih
    rcases List.mem_cons.mp hline with rfl | hline
    · have hinside : isInside t = true := isInside_eq_true.mpr ⟨hnewline, hend⟩
      exact List.forall_mem_cons.mpr ⟨hinside, List.all_eq_true.mp List.all_takeWhile⟩
    · exact ih hline

/-- What a line remembers of the tokens before it: the line ends before the places that later lines
begin after, and before the place where reading ends. -/
structure EndBy (last finish : Span) (lines : List Line) : Prop where
  last_le : last.last.le finish.last = true
  before_le : ∀ line ∈ lines, last.last.le line.before.last = true
  le_finish : ∀ line ∈ lines, ∀ t ∈ line.tokens, t.span.last.le finish.last = true
  pairwise : lines.Pairwise fun line next =>
    ∀ t ∈ line.tokens, t.span.last.le next.before.last = true

/-- Without its first line, the rest ends where all of them end. -/
lemma EndBy.tail {finish : Span} {line : Line} {rest : List Line}
    (h : EndBy last finish (line :: rest)) : EndBy last finish rest :=
  ⟨h.last_le, (List.forall_mem_cons.mp h.before_le).2, (List.forall_mem_cons.mp h.le_finish).2,
    (List.pairwise_cons.mp h.pairwise).2⟩

/-- The lines of tokens that are in order end where the last token ends. -/
lemma endBy_split (hordered : AreOrdered tokens)
    (hlast : ∀ t ∈ tokens, last.last.le t.span.first = true) :
    EndBy last (split last tokens).2 (split last tokens).1 := by
  fun_induction split last tokens with
  | case1 => exact ⟨Place.le_refl _, List.forall_mem_nil _, List.forall_mem_nil _, .nil⟩
  | case2 => exact ⟨Place.le_refl _, List.forall_mem_nil _, List.forall_mem_nil _, .nil⟩
  | case3 last t rest hkind ih =>
    have hrest : EndBy t.span (split t.span rest).2 (split t.span rest).1 :=
      ih (hordered.of_infix (List.suffix_cons t rest).isInfix)
        fun u hu => ((List.pairwise_cons.mp hordered.1).1 u hu).1
    have hstep : last.last.le t.span.last = true :=
      Place.le_trans (hlast t List.mem_cons_self) (hordered.2 t List.mem_cons_self)
    exact ⟨Place.le_trans hstep hrest.last_le,
      fun line hline => Place.le_trans hstep (hrest.before_le line hline), hrest.le_finish,
      hrest.pairwise⟩
  | case4 last t rest line after final lines finish heq _ _ ih =>
    -- the tokens begin with the line, and `after` begins with the one that closes it
    have happend : t :: rest = line ++ after := by
      rw [List.cons_append, List.takeWhile_append_dropWhile]
    have hline : t ∈ line := List.mem_cons_self
    have hget : line.getLast? = some (line.getLastD t) := by
      rw [List.getLastD_eq_getLast?, List.getLast?_eq_some_getLast (List.ne_nil_of_mem hline),
        Option.getD_some]
    rw [happend] at hordered
    have hle : ∀ u ∈ line, u.span.last.le final.last = true := fun u hu =>
      (hordered.of_infix (List.prefix_append line after).isInfix).le_getLast hget hu
    have hstep : last.last.le final.last = true := by
      have ht : t.span.first.le t.span.last = true := hordered.2 t (List.mem_append_left _ hline)
      exact Place.le_trans (Place.le_trans (hlast t List.mem_cons_self) ht) (hle t hline)
    have hrest := ih (hordered.of_infix (List.suffix_append line after).isInfix) fun u hu =>
      (hordered.precedes (List.mem_of_getLast? hget) hu).1
    rw [heq] at hrest
    refine ⟨Place.le_trans hstep hrest.last_le, ?_, ?_, ?_⟩
    · refine List.forall_mem_cons.mpr ⟨Place.le_refl _, fun next hnext => ?_⟩
      exact Place.le_trans hstep (hrest.before_le next hnext)
    · refine List.forall_mem_cons.mpr ⟨fun u hu => ?_, hrest.le_finish⟩
      exact Place.le_trans (hle u hu) hrest.last_le
    · refine List.pairwise_cons.mpr ⟨fun next hnext u hu => ?_, hrest.pairwise⟩
      exact Place.le_trans (hle u hu) (hrest.before_le next hnext)

end Line

namespace Parse

variable {finish : Span} {report : Report Fault} {lines : List Line} {tokens : List Token}

/-- The items that are read cover runs of the tokens, also where lines between them are not
read. -/
lemma inOrder_items (hin : Line.AreIn lines tokens)
    (hcovers : ∀ line ∈ lines, ∀ i, line.parse = .ok i → i.outline.Covers line.tokens) :
    Outline.InOrder ((Parse.lines finish report lines).items.map Item.outline) tokens := by
  fun_induction Parse.lines finish report lines generalizing tokens with
  | case1 => exact Outline.inOrder_nil _
  | case2 => exact Outline.inOrder_nil _
  | case3 report line rest _ item hitem more =>
    rename_i ih
    obtain ⟨gap, after, rfl, hrest⟩ := hin
    obtain ⟨hline, hlines⟩ := List.forall_mem_cons.mp hcovers
    exact ((hline item hitem).inOrder.append (ih hrest hlines)).skip gap
  | case4 report line rest _ fault hfault ih =>
    obtain ⟨gap, after, rfl, hrest⟩ := hin
    exact ((ih hrest (List.forall_mem_cons.mp hcovers).2).skip line.tokens).skip gap

/-- Reading ends with the last token of all, or before a line. -/
lemma finish_lines (finish : Span) (report : Report Fault) (lines : List Line) :
    (Parse.lines finish report lines).finish = finish ∨
      ∃ line ∈ lines, (Parse.lines finish report lines).finish = line.before := by
  fun_induction Parse.lines finish report lines with
  | case1 => exact .inl rfl
  | case2 report line rest => exact .inr ⟨line, List.mem_cons_self, rfl⟩
  | case3 report line rest _ item hitem more ih =>
    obtain hfinish | ⟨other, hother, hfinish⟩ := ih
    · exact .inl hfinish
    · exact .inr ⟨other, List.mem_cons_of_mem _ hother, hfinish⟩
  | case4 report line rest _ fault hfault ih =>
    obtain hfinish | ⟨other, hother, hfinish⟩ := ih
    · exact .inl hfinish
    · exact .inr ⟨other, List.mem_cons_of_mem _ hother, hfinish⟩

/-- The lines of the items end before the place where reading ends. -/
lemma le_finish_of_mem_items {last : Span} (h : Line.EndBy last finish lines) {i : Item}
    (hi : i ∈ (Parse.lines finish report lines).items) :
    ∃ line ∈ lines, line.parse = .ok i ∧ ∀ t ∈ line.tokens,
      t.span.last.le (Parse.lines finish report lines).finish.last = true := by
  fun_induction Parse.lines finish report lines with
  | case1 => exact absurd hi List.not_mem_nil
  | case2 => exact absurd hi List.not_mem_nil
  | case3 report line rest _ item hitem more ih =>
    rcases List.mem_cons.mp hi with rfl | hi
    · refine ⟨line, List.mem_cons_self, hitem, fun t ht => ?_⟩
      obtain hfinish | ⟨next, hnext, hfinish⟩ := finish_lines finish report rest
      · rw [show more.finish = finish from hfinish]
        exact h.le_finish line List.mem_cons_self t ht
      · rw [show more.finish = next.before from hfinish]
        exact (List.pairwise_cons.mp h.pairwise).1 next hnext t ht
    · obtain ⟨other, hother, hparse⟩ := ih h.tail hi
      exact ⟨other, List.mem_cons_of_mem _ hother, hparse⟩
  | case4 report line rest _ fault hfault ih =>
    obtain ⟨other, hother, hparse⟩ := ih h.tail hi
    exact ⟨other, List.mem_cons_of_mem _ hother, hparse⟩

end Parse

/-! ### Features -/

namespace Feature

variable {tokens : List Token}

/-- Every line that is read gives an item that covers its tokens. -/
lemma covers_of_parse (hordered : AreOrdered tokens) {line : Line} (hline : line ∈ linesOf tokens)
    {i : Item} (hparse : line.parse = .ok i) : i.outline.Covers line.tokens := by
  have hrun : IsRun line.tokens :=
    ⟨hordered.of_infix ((Line.areIn_split _ tokens).isInfix hline),
      Line.isInside_of_mem_split hline⟩
  exact Line.related_of_parse Parser.outlined_item (Line.isInside_stop_of_mem_split hline) hparse
    hrun

/-- The items of a feature cover runs of its tokens. -/
lemma inOrder_items (hordered : AreOrdered tokens) :
    Outline.InOrder ((parse tokens).1.items.map Item.outline) tokens :=
  Parse.inOrder_items (Line.areIn_split _ tokens) fun _ hline _ hparse =>
    covers_of_parse hordered hline hparse

/-- The items of a feature lie inside its span. -/
lemma isInside_of_mem_items (hordered : AreOrdered tokens)
    (hstart : ∀ t ∈ tokens, Place.start.le t.span.first = true) {i : Item}
    (hi : i ∈ (parse tokens).1.items) : i.span.IsInside (parse tokens).1.span := by
  have hend : Line.EndBy (.point .start) (Line.split (.point .start) tokens).2 (linesOf tokens) :=
    Line.endBy_split hordered hstart
  obtain ⟨line, hline, hparse, hle⟩ := Parse.le_finish_of_mem_items hend hi
  obtain ⟨t, u, ht, hu, hfirst, hlast⟩ := (covers_of_parse hordered hline hparse).span_covers
  have ht : t ∈ tokens :=
    ((Line.areIn_split _ tokens).isInfix hline).subset (List.mem_of_mem_head? ht)
  have hhead : (tokens.headD Line.noToken).span.first.le t.span.first = true := by
    obtain ⟨first, rest, rfl⟩ := List.exists_cons_of_ne_nil (List.ne_nil_of_mem ht)
    exact hordered.head_le rfl ht
  refine ⟨?_, ?_⟩
  · rw [show i.span.first = t.span.first from hfirst]
    exact Place.le_trans (Span.merge_first_le _ _) hhead
  · rw [show i.span.last = u.span.last from hlast]
    exact Place.le_trans (hle u (List.mem_of_getLast? hu)) (Span.le_merge_last _ _)

end Feature

/-- **Spans are exact.**  Whatever a source holds, every token of it stands where its span says, the
tokens are in order, and the items that are read cover runs of the tokens, with all their parts; so
the spans of parts are nested and do not overlap. -/
theorem Source.spans_exact (source : Source) :
    let tokens := source.scan.tokens
    let feature := (Feature.parse tokens).1
    (∀ t ∈ tokens, Line.isInside t = true → source.HasToken t) ∧ AreOrdered tokens ∧
      Outline.InOrder (feature.items.map Item.outline) tokens ∧ feature.outline.IsNested := by
  intro tokens feature
  have hscan : Scan.IsFaithful source .start tokens :=
    Scan.isFaithful_scanFrom (List.nil_append _).symm rfl
  have hitems := Feature.inOrder_items hscan.ordered
  refine ⟨hscan.hasToken, hscan.ordered, hitems, ?_⟩
  rw [Feature.outline, Outline.IsNested]
  refine ⟨fun part hpart => ?_, hitems.pairwise hscan.ordered, hitems.areNested⟩
  obtain ⟨i, hi, rfl⟩ := List.mem_map.mp hpart
  exact Feature.isInside_of_mem_items hscan.ordered hscan.place_le hi

example : (Feature.parse (Source.scan ⟨"lines", "0: x = (a +\n  b)"⟩).tokens).1.items.map
    Item.span = [⟨1, 1, 2, 4⟩] := by
  decide +kernel

end SheetRules
