import Mathlib.Data.List.Forall2
import SheetRules.Proofs.Feature.Lines
import SheetRules.Proofs.Feature.Spelling
import SheetRules.Proofs.Feature.Steps

/-!
# What is read is what was written

Every reader that succeeds has passed some tokens, and they spell what it has read.  This is a
property that readers pass on to one another, `Parser.Reads`: what a reader gives is related to the
tokens between the place where it began and the place where it ended.  For expressions the relation
is that the grammar writes the expression with these tokens; items and features follow.

The token that closes a line is seen but never passed, so a reader that passes a token must know
that it is another one.  It does, since it has looked at the kind of the token before.
-/

namespace SheetRules

/-- The line is closed by a newline or by the end of file. -/
def Cursor.IsClosed (c : Cursor) : Prop := Line.isInside c.stop = false

/-- A token that does not close the line is one of those that are still to be read. -/
lemma Cursor.IsClosed.exists_rest {c : Cursor} (hc : c.IsClosed) (h : c.current.kind.IsInside) :
    ∃ more, c.rest = c.current :: more := by
  obtain ⟨rest, stop⟩ := c
  cases rest with
  | nil =>
    have hinside : Line.isInside stop = true := Line.isInside_eq_true.mpr (Kind.isInside_iff.mp h)
    rw [show Line.isInside stop = false from hc] at hinside
    cases hinside
  | cons t more => exact ⟨more, rfl⟩

namespace Parser

variable {α β : Type} {p : Parser α} {f : α → Parser β} {c : Cursor}
  {Q : α → List Token → Prop} {R : β → List Token → Prop}

/-- If reading succeeds at a place, what is read is related to the tokens that were passed. -/
def ReadsFrom (c : Cursor) (p : Parser α) (Q : α → List Token → Prop) : Prop :=
  ∀ a d, p c = .ok (a, d) → ∃ used, c.rest = used ++ d.rest ∧ d.stop = c.stop ∧ Q a used

/-- Wherever reading succeeds, what is read is related to the tokens that were passed. -/
def Reads (p : Parser α) (Q : α → List Token → Prop) : Prop :=
  ∀ c, c.IsClosed → ReadsFrom c p Q

/-! ### One reader after another -/

/-- Nothing is passed. -/
lemma reads_pure {a : α} (h : Q a []) : Reads (pure a) Q := by
  rintro c - b d ⟨⟩
  exact ⟨[], rfl, rfl, h⟩

/-- What fails reads nothing. -/
lemma reads_failAt (cause : Kind → Cause) (Q : α → List Token → Prop) :
    Reads (failAt cause) Q := by
  rintro c - a d ⟨⟩

/-- Where there is no level left, nothing is read. -/
lemma reads_tooDeep (Q : α → List Token → Prop) : Reads tooDeep Q :=
  reads_failAt _ Q

/-- Two readers one after the other, from a place that is known. -/
lemma ReadsFrom.bind (hp : ReadsFrom c p Q)
    (hf : ∀ a d used, c.rest = used ++ d.rest → d.stop = c.stop → Q a used →
      ReadsFrom d (f a) fun b more => R b (used ++ more)) : ReadsFrom c (p >>= f) R := by
  intro b e hrun
  cases hfirst : p c with
  | error fault =>
    rw [bind_of_error hfirst] at hrun
    cases hrun
  | ok r =>
    obtain ⟨a, d⟩ := r
    rw [bind_of_ok hfirst] at hrun
    obtain ⟨used, hrest, hstop, ha⟩ := hp a d hfirst
    obtain ⟨more, hmore, hstop', hb⟩ := hf a d used hrest hstop ha b e hrun
    exact ⟨used ++ more, by rw [hrest, hmore, List.append_assoc], hstop'.trans hstop, hb⟩

/-- Two readers one after the other. -/
lemma Reads.bind (hp : Reads p Q)
    (hf : ∀ a used, Q a used → Reads (f a) fun b more => R b (used ++ more)) :
    Reads (p >>= f) R := by
  intro c hc
  refine (hp c hc).bind fun a d used _ hstop ha => hf a used ha d ?_
  rwa [Cursor.IsClosed, hstop]

/-- Less may be said about what is read. -/
lemma Reads.mono {Q' : α → List Token → Prop} (hp : Reads p Q)
    (h : ∀ a used, Q a used → Q' a used) : Reads p Q' := by
  intro c hc a d hrun
  obtain ⟨used, hrest, hstop, ha⟩ := hp c hc a d hrun
  exact ⟨used, hrest, hstop, h a used ha⟩

/-- The token at this place is looked at. -/
lemma readsFrom_peek {f : Token → Parser β} (h : ReadsFrom c (f c.current) R) :
    ReadsFrom c (peek >>= f) R :=
  h

/-- The token at this place is passed. -/
lemma readsFrom_advance {f : Unit → Parser β} {t : Token} {more : List Token}
    (hrest : c.rest = t :: more)
    (hf : ReadsFrom ⟨more, c.stop⟩ (f ()) fun b used => R b (t :: used)) :
    ReadsFrom c (advance >>= f) R := by
  obtain ⟨rest, stop⟩ := c
  obtain rfl : rest = t :: more := hrest
  intro b d hrun
  obtain ⟨used, hmore, hstop, hb⟩ := hf b d hrun
  exact ⟨t :: used, congrArg (t :: ·) hmore, hstop, hb⟩

/-- A token is passed after its kind has been looked at. -/
lemma Reads.advance {f : Unit → Parser β} (hc : c.IsClosed) (hinside : c.current.kind.IsInside)
    (hf : Reads (f ()) fun b used => R b (c.current :: used)) :
    ReadsFrom c (advance >>= f) R := by
  obtain ⟨more, hrest⟩ := hc.exists_rest hinside
  exact readsFrom_advance hrest (hf _ hc)

/-! ### Single tokens -/

/-- A token of the kind is passed, or none. -/
lemma reads_eat (kind : Kind) (hkind : kind.IsInside) :
    Reads (eat kind) fun found used => used.map Token.kind = if found then [kind] else [] := by
  refine fun c hc => readsFrom_peek ?_
  split
  · rename_i h
    exact Reads.advance hc (h ▸ hkind) (reads_pure (by simp [h]))
  · exact reads_pure (by simp) c hc

/-- A token of the kind is passed. -/
lemma reads_expect (kind : Kind) (hkind : kind.IsInside) :
    Reads (expect kind) fun _ used => used.map Token.kind = [kind] := by
  refine fun c hc => readsFrom_peek ?_
  split
  · rename_i h
    exact Reads.advance hc (h ▸ hkind) (reads_pure (by simp [h]))
  · exact reads_failAt _ _ c hc

/-- A name is spelled by itself. -/
lemma reads_ident : Reads ident fun name used => used.map Token.kind = [.name name.text] := by
  refine fun c hc => readsFrom_peek ?_
  split
  · rename_i text h
    exact Reads.advance hc (h ▸ trivial) (reads_pure (by simp [h]))
  · exact reads_failAt _ _ c hc

/-- A segment is spelled by its kind. -/
lemma reads_segment : Reads segment fun r used => used.map Token.kind = [r.1.kind] := by
  refine fun c hc => readsFrom_peek ?_
  split
  · rename_i text h
    exact Reads.advance hc (h ▸ trivial) (reads_pure (by simp [h, Segment.kind]))
  · rename_i text h
    exact Reads.advance hc (h ▸ trivial) (reads_pure (by simp [h, Segment.kind]))
  · exact reads_failAt _ _ c hc

/-- A precedence is spelled by a number. -/
lemma reads_precedence :
    Reads precedence fun value used => used.map Token.kind = [.number value] := by
  refine fun c hc => readsFrom_peek ?_
  split
  · rename_i value h
    exact Reads.advance hc (h ▸ trivial) (reads_pure (by simp [h]))
  · exact reads_failAt _ _ c hc

/-- An operator of a rule is spelled by its kind. -/
lemma reads_ruleOp : Reads ruleOp fun op used => used.map Token.kind = [op.kind] := by
  refine fun c hc => readsFrom_peek ?_
  split
  · rename_i h
    exact Reads.advance hc (h ▸ trivial) (reads_pure (by simp [h, RuleOp.kind]))
  · rename_i h
    exact Reads.advance hc (h ▸ trivial) (reads_pure (by simp [h, RuleOp.kind]))
  · exact reads_failAt _ _ c hc

/-- Counting steps passes nothing. -/
lemma reads_steps : Reads steps fun _ used => used = [] := by
  rintro c - n d ⟨⟩
  exact ⟨[], rfl, rfl, rfl⟩

/-! ### Paths and lists -/

/-- Further segments are spelled with their dots. -/
lemma reads_segmentsAfter (last : Span) (fuel : Nat) : Reads (segmentsAfter last fuel)
    fun r used => used.map Token.kind = Segment.kindsAfter r.1 := by
  induction fuel generalizing last with
  | zero => exact reads_failAt _ _
  | succ fuel ih =>
    refine (reads_eat .dot trivial).bind fun found dot hdot => ?_
    cases found with
    | false => exact reads_pure (by simp [hdot, Segment.kindsAfter])
    | true =>
      refine reads_segment.bind fun r first hfirst => ?_
      refine (ih r.2).bind fun r' more hmore => reads_pure ?_
      simp [hdot, hfirst, hmore, Segment.kindsAfter]

/-- The tokens of a path spell it. -/
lemma reads_path : Reads path fun p used => p.segments ≠ [] ∧ used.map Token.kind = p.kinds := by
  refine reads_segment.bind fun r first hfirst => ?_
  refine reads_steps.bind fun fuel none hnone => ?_
  refine (reads_segmentsAfter r.2 fuel).bind fun r' more hmore => reads_pure ?_
  simp [hfirst, hnone, hmore, Path.kinds]

/-- Values are spelled with commas between them. -/
lemma Reads.separated {value : Parser α} {P : α → Prop} {kindsOf : α → List Kind}
    (h : Reads value fun a used => P a ∧ used.map Token.kind = kindsOf a) (fuel : Nat) :
    Reads (separated value fuel) fun as used => (∀ a ∈ as, P a) ∧
      used.map Token.kind = [Kind.comma].intercalate (as.map kindsOf) ∧ as ≠ [] := by
  induction fuel with
  | zero => exact reads_failAt _ _
  | succ fuel ih =>
    refine h.bind fun a first hfirst => ?_
    refine (reads_eat .comma trivial).bind fun found comma hcomma => ?_
    cases found with
    | false => exact reads_pure (by simpa [hcomma] using hfirst)
    | true =>
      refine ih.bind fun as more hmore => reads_pure ?_
      obtain ⟨hall, hkinds, hne⟩ := hmore
      obtain ⟨b, bs, rfl⟩ := List.exists_cons_of_ne_nil hne
      refine ⟨List.forall_mem_cons.mpr ⟨hfirst.1, hall⟩, ?_, List.cons_ne_nil _ _⟩
      rw [List.map_cons, List.map_cons, List.intercalate_cons_cons, ← List.map_cons, ← hkinds]
      simp [hfirst.2, hcomma]

/-- The tokens of a list in parentheses spell its values. -/
lemma Reads.listed {value : Parser α} {P : α → Prop} {kindsOf : α → List Kind}
    (h : Reads value fun a used => P a ∧ used.map Token.kind = kindsOf a) :
    Reads (listed value) fun r used => (∀ a ∈ r.1, P a) ∧
      used.map Token.kind = Kind.listed (r.1.map kindsOf) := by
  have hclose : ∀ (as : List α) (before : List Token), (∀ a ∈ as, P a) →
      before.map Token.kind = [Kind.comma].intercalate (as.map kindsOf) →
      Reads (expect .closeParen >>= fun close => pure (as, close)) fun r used =>
        (∀ a ∈ r.1, P a) ∧ (before ++ used).map Token.kind = Kind.listed (r.1.map kindsOf) := by
    intro as before hall hkinds
    refine (reads_expect .closeParen trivial).bind fun close used hused => reads_pure ?_
    exact ⟨hall, by simp [hkinds, hused, Kind.listed]⟩
  refine fun c hc => readsFrom_peek ?_
  split
  · exact hclose [] [] (fun a ha => absurd ha List.not_mem_nil) rfl c hc
  · refine reads_steps.bind (fun fuel none hnone => ?_) c hc
    refine (h.separated fuel).bind fun as before hbefore => ?_
    subst hnone
    exact hclose as before hbefore.1 hbefore.2.1

/-! ### Expressions -/

namespace Level

/-- The grammar writes the expression with these tokens. -/
def Writes (tier : Tier) (e : Expr) (tokens : List Token) : Prop :=
  Fits tier e ∧ tokens.map Token.kind = e.kinds

/-- What the readers of the level read, the grammar writes. -/
structure IsSound (level : Level) : Prop where
  sum : Reads level.sum (Writes .sum)
  product : Reads level.product (Writes .product)
  signed : Reads level.signed (Writes .signed)
  sumAfter : ∀ left before, Writes .sum left before →
    Reads (level.sumAfter left) fun e used => Writes .sum e (before ++ used)
  productAfter : ∀ left before, Writes .product left before →
    Reads (level.productAfter left) fun e used => Writes .product e (before ++ used)

/-- Below the last level nothing is read. -/
lemma isSound_exhausted : exhausted.IsSound where
  sum := reads_tooDeep _
  product := reads_tooDeep _
  signed := reads_tooDeep _
  sumAfter _ _ _ := reads_tooDeep _
  productAfter _ _ _ := reads_tooDeep _

/-- An operand that is a path is spelled by the path. -/
lemma reads_pathOperand :
    Reads (do let value ← path; pure (Expr.path value)) (Writes .operand) := by
  refine reads_path.bind fun value used hvalue => reads_pure ⟨.path hvalue.1, ?_⟩
  simp [hvalue.2, Expr.kinds]

section Operands

variable {inner : Parser Expr} (h : Reads inner (Writes .sum))

include h

/-- The tokens of arguments spell them. -/
lemma reads_arguments : Reads (listed inner) fun r used => (∀ e ∈ r.1, Fits .sum e) ∧
    used.map Token.kind = Kind.listed (Expr.kindsOfEach r.1) := by
  refine h.listed.mono fun r used hr => ?_
  rwa [Expr.kindsOfEach_eq_map]

/-- A macro is spelled by its mark, its name and its arguments. -/
lemma reads_macroAfter (start : Span) (mark : Token) (hmark : mark.kind = .bang) :
    Reads (macroAfter start inner) fun e used => Writes .operand e (mark :: used) := by
  refine reads_ident.bind fun name nameTokens hname => ?_
  refine (reads_eat .openParen trivial).bind fun found paren hparen => ?_
  cases found with
  | false =>
    refine reads_pure ⟨.macroUse, ?_⟩
    simp [hmark, hname, hparen, Expr.kinds]
  | true =>
    refine (reads_arguments h).bind fun r args hargs => reads_pure ⟨.macroCall hargs.1, ?_⟩
    simp [hmark, hname, hparen, hargs.2, Expr.kinds]

/-- What begins with a name is spelled as a function or as a path. -/
lemma reads_named : Reads (named inner) (Writes .operand) := by
  intro c hc e d hrun
  rcases opensCall_cases c with ⟨t, paren, more, hrest, hparen, hopens⟩ | hopens
  · rw [named, bind_of_ok hopens] at hrun
    refine (reads_ident c hc).bind (fun name d used hused hstop hname => ?_) e d hrun
    obtain ⟨u, rfl, -⟩ := List.map_eq_singleton_iff.mp hname
    have hd : d.rest = paren :: more := by
      rw [hrest, List.singleton_append] at hused
      exact (List.cons.inj hused).2.symm
    have hclosed : Cursor.IsClosed ⟨more, d.stop⟩ := by rwa [Cursor.IsClosed, hstop]
    refine readsFrom_advance hd ?_
    refine (reads_arguments h).bind (fun r args hargs => reads_pure ⟨.call hargs.1, ?_⟩) _ hclosed
    simp only [Expr.kinds, List.map_append, List.map_cons, hname, hparen, hargs.2]
    simp
  · rw [named, bind_of_ok hopens] at hrun
    exact reads_pathOperand c hc e d hrun

/-- What is read as an operand, the grammar writes as one. -/
lemma reads_operand : Reads (operand inner) (Writes .operand) := by
  refine fun c hc => readsFrom_peek ?_
  split
  · rename_i value hkind
    refine Reads.advance hc (hkind ▸ trivial) (reads_pure ⟨.number, ?_⟩)
    simp [hkind, Expr.kinds]
  · exact reads_named h c hc
  · exact reads_pathOperand c hc
  · rename_i hkind
    exact Reads.advance hc (hkind ▸ trivial) (reads_macroAfter h _ _ hkind)
  · rename_i hkind
    refine Reads.advance hc (hkind ▸ trivial) ?_
    refine h.bind fun value used hvalue => ?_
    refine (reads_expect .closeParen trivial).bind fun close last hlast => reads_pure ?_
    exact ⟨.paren hvalue.1, by simp [hkind, hvalue.2, hlast, Expr.kinds]⟩
  · exact reads_failAt _ _ c hc

end Operands

/-- The operator of a sum is spelled by its kind. -/
lemma kind_of_sumOp? {k : Kind} {op : BinaryOp} (h : sumOp? k = some op) :
    k = op.kind ∧ op.tier = .sum := by
  unfold sumOp? at h
  split at h <;> cases h <;> exact ⟨rfl, rfl⟩

/-- The operator of a product is spelled by its kind. -/
lemma kind_of_productOp? {k : Kind} {op : BinaryOp} (h : productOp? k = some op) :
    k = op.kind ∧ op.tier = .product := by
  unfold productOp? at h
  split at h <;> cases h <;> exact ⟨rfl, rfl⟩

/-- The readers of one level more are sound as well. -/
theorem IsSound.above {below : Level} (h : below.IsSound) : below.above.IsSound := by
  have signed : Reads below.above.signed (Writes .signed) := by
    refine fun c hc => readsFrom_peek ?_
    refine (reads_eat .minus trivial).bind (fun found sign hsign => ?_) c hc
    cases found with
    | false =>
      obtain rfl := List.map_eq_nil_iff.mp hsign
      exact (reads_operand h.sum).mono fun e used he => ⟨.unsigned he.1, he.2⟩
    | true =>
      refine h.signed.bind fun inner used hinner => reads_pure ⟨.neg hinner.1, ?_⟩
      simp only [Expr.kinds, List.map_append, hsign, hinner.2]
      simp
  have productAfter : ∀ left before, Writes .product left before →
      Reads (below.above.productAfter left) fun e used => Writes .product e (before ++ used) := by
    refine fun left before hleft c hc => readsFrom_peek ?_
    split
    · exact reads_pure (by simpa using hleft) c hc
    · rename_i op hop
      obtain ⟨hkind, htier⟩ := kind_of_productOp? hop
      refine Reads.advance hc (hkind ▸ op.isInside_kind) ?_
      refine h.signed.bind fun right used hright => ?_
      have hjoin : Writes .product (join left op right) (before ++ c.current :: used) :=
        ⟨.multiply htier hleft.1 hright.1, by simp [join, Expr.kinds, hkind, hleft.2, hright.2]⟩
      refine (h.productAfter _ _ hjoin).mono fun e more he => ?_
      simpa using he
  have product : Reads below.above.product (Writes .product) :=
    signed.bind fun left before hleft => productAfter left before ⟨.factor hleft.1, hleft.2⟩
  have sumAfter : ∀ left before, Writes .sum left before →
      Reads (below.above.sumAfter left) fun e used => Writes .sum e (before ++ used) := by
    refine fun left before hleft c hc => readsFrom_peek ?_
    split
    · exact reads_pure (by simpa using hleft) c hc
    · rename_i op hop
      obtain ⟨hkind, htier⟩ := kind_of_sumOp? hop
      refine Reads.advance hc (hkind ▸ op.isInside_kind) ?_
      refine h.product.bind fun right used hright => ?_
      have hjoin : Writes .sum (join left op right) (before ++ c.current :: used) :=
        ⟨.add htier hleft.1 hright.1, by simp [join, Expr.kinds, hkind, hleft.2, hright.2]⟩
      refine (h.sumAfter _ _ hjoin).mono fun e more he => ?_
      simpa using he
  have sum : Reads below.above.sum (Writes .sum) :=
    product.bind fun left before hleft => sumAfter left before ⟨.term hleft.1, hleft.2⟩
  exact ⟨sum, product, signed, sumAfter, productAfter⟩

/-- On every level what is read is what the grammar writes. -/
lemma isSound_ofNat (levels : Nat) : (ofNat levels).IsSound := by
  induction levels with
  | zero => exact isSound_exhausted
  | succ levels ih => exact ih.above

end Level

/-- An expression is one that the grammar writes. -/
lemma reads_expr : Reads expr (Level.Writes .sum) :=
  (Level.isSound_ofNat Limit.exprLevels).sum

/-! ### Items -/

/-- The grammar writes the item with these tokens. -/
def WritesItem (i : Item) (tokens : List Token) : Prop :=
  i.IsGrammatical ∧ i.Spells (tokens.map Token.kind)

/-- A definition is one that the grammar writes. -/
lemma reads_macroDef : Reads macroDef fun d used => WritesItem (.define d) used := by
  -- from the equals sign on, after tokens that spell the name and the parameters
  have hbody : ∀ (start : Token) (name : Ident) (params : Option (List Ident))
      (before : List Token), before.map Token.kind = .bang :: .name name.text :: paramKinds params →
      Reads (do
        let _ ← expect .equals
        let body ← expr
        pure (⟨name, params, body, start.span.merge body.span⟩ : MacroDef))
      fun d used => WritesItem (.define d) (before ++ used) := by
    intro start name params before hbefore
    refine (reads_expect .equals trivial).bind fun _ equals hequals => ?_
    refine reads_expr.bind fun body used hused => reads_pure ⟨hused.1, ?_⟩
    simp [Item.Spells, hbefore, hequals, hused.2]
  refine (reads_expect .bang trivial).bind fun start bang hbang => ?_
  refine reads_ident.bind fun name used hused => ?_
  refine (reads_eat .openParen trivial).bind fun found paren hparen => ?_
  cases found with
  | false =>
    refine (hbody start name none (bang ++ (used ++ paren)) ?_).mono fun d more hd => ?_
    · simp [hbang, hused, hparen, paramKinds]
    · simpa using hd
  | true =>
    have hparams : Reads (listed ident) fun r tokens =>
        (∀ param ∈ r.1, True) ∧ tokens.map Token.kind =
          Kind.listed (r.1.map fun param => [.name param.text]) :=
      (reads_ident.mono fun name used hname => ⟨trivial, hname⟩).listed
    refine hparams.bind fun r tokens htokens => ?_
    refine (hbody start name (some r.1) (bang ++ (used ++ (paren ++ tokens))) ?_).mono
      fun d more hd => ?_
    · simp [hbang, hused, hparen, htokens.2, paramKinds]
    · simpa using hd

/-- A rule is one that the grammar writes. -/
lemma reads_rule : Reads rule fun r used => WritesItem (.rule r) used := by
  refine fun c hc => readsFrom_peek ?_
  refine (reads_eat .minus trivial).bind (fun negative sign hsign => ?_) c hc
  refine reads_precedence.bind fun value number hnumber => ?_
  have hlead : SpellsPrecedence (if negative then -value else value)
      (sign.map Token.kind ++ number.map Token.kind) := by
    cases negative with
    | false =>
      rw [hsign, hnumber]
      exact .plain
    | true =>
      rw [hsign, hnumber]
      exact .negated rfl
  refine (reads_expect .colon trivial).bind fun _ colon hcolon => ?_
  refine reads_path.bind fun target path hpath => ?_
  refine reads_ruleOp.bind fun op operator hoperator => ?_
  refine reads_expr.bind fun expression used hused => reads_pure ⟨⟨hpath.1, hused.1⟩, _, hlead, ?_⟩
  simp [hcolon, hpath.2, hoperator, hused.2]

/-- The tokens of an item spell it. -/
theorem reads_item : Reads item WritesItem := by
  have hrule : Reads (do pure (Item.rule (← rule))) WritesItem := by
    refine reads_rule.bind fun r used hr => reads_pure ?_
    simpa using hr
  refine fun c hc => readsFrom_peek ?_
  split
  · refine reads_macroDef.bind (fun d used hd => reads_pure ?_) c hc
    simpa using hd
  · exact hrule c hc
  · exact hrule c hc
  · exact reads_failAt _ _ c hc

end Parser

/-- The item that is read from a line is related to all tokens of the line. -/
lemma Line.related_of_parse {Q : Item → List Token → Prop} (hreads : Parser.Reads Parser.item Q)
    {line : Line} {i : Item} (hstop : isInside line.stop = false) (h : line.parse = .ok i) :
    Q i line.tokens := by
  rw [Line.parse, Parser.wholeItem] at h
  cases hrun : Parser.item ⟨line.tokens, line.stop⟩ with
  | error fault =>
    rw [Parser.bind_of_error hrun] at h
    cases h
  | ok r =>
    obtain ⟨i', c⟩ := r
    rw [Parser.bind_of_ok hrun] at h
    obtain ⟨used, hused, -, hrelated⟩ := hreads ⟨line.tokens, line.stop⟩ hstop i' c hrun
    -- nothing is left on the line
    cases hrest : c.rest with
    | nil =>
      simp only [hrest, Except.map, Except.ok.injEq] at h
      rw [hrest, List.append_nil] at hused
      rw [← h, show line.tokens = used from hused]
      exact hrelated
    | cons t rest =>
      simp only [hrest] at h
      cases h

/-- The tokens of a line spell the item that is read from it. -/
lemma Line.writesItem_of_parse {line : Line} {i : Item} (hstop : isInside line.stop = false)
    (h : line.parse = .ok i) : Parser.WritesItem i line.tokens :=
  related_of_parse Parser.reads_item hstop h

/-! ### Features -/

/-- Shortens every run of newlines to a single one, drops those at the start, and closes the last
line.  The first argument tells whether the line before is closed. -/
def Kind.squeeze : Bool → List Kind → List Kind
  | true, [] => []
  | false, [] => [.newline]
  | closed, kind :: rest =>
    if kind = .newline then
      if closed then squeeze true rest else .newline :: squeeze true rest
    else kind :: squeeze false rest

namespace Line

/-- A line that is not closed is closed by the next newline, or by the end. -/
lemma squeeze_false {tokens : List Token} (h : ∀ t ∈ tokens.head?, t.kind = .newline) :
    Kind.squeeze false (tokens.map Token.kind) =
      .newline :: Kind.squeeze true (tokens.map Token.kind) := by
  cases tokens with
  | nil => rfl
  | cons t rest =>
    have ht : t.kind = .newline := h t rfl
    simp [Kind.squeeze, ht]

/-- The tokens of a line are left as they are. -/
lemma squeeze_append {body : List Token} (hbody : ∀ t ∈ body, isInside t = true)
    (rest : List Kind) :
    Kind.squeeze false (body.map Token.kind ++ rest) =
      body.map Token.kind ++ Kind.squeeze false rest := by
  induction body with
  | nil => rfl
  | cons t body ih =>
    obtain ⟨ht, hbody⟩ := List.forall_mem_cons.mp hbody
    simp [Kind.squeeze, (isInside_eq_true.mp ht).1, ih hbody]

/-- Without the end of file, tokens are their lines, up to the number of newlines between them. -/
lemma squeeze_eq_flatMap_bodies (tokens : List Token) (h : ∀ t ∈ tokens, t.kind ≠ .endOfFile) :
    Kind.squeeze true (tokens.map Token.kind) =
      (bodies tokens).flatMap fun body => body.map Token.kind ++ [.newline] := by
  refine induction_on_lines ?nil ?newline ?line tokens h
  case nil => simp [Kind.squeeze]
  case newline =>
    intro t rest ht ih
    rw [bodies_newline ht, ← ih]
    simp [Kind.squeeze, ht]
  case line =>
    intro t rest ht hrest ih
    have hhead : ∀ u ∈ (rest.dropWhile isInside).head?, u.kind = .newline := by
      intro u hu
      have hclose : isInside u = false := List.not_of_mem_head?_dropWhile hu
      have hmem : u ∈ rest := (List.dropWhile_suffix _).subset (List.mem_of_mem_head? hu)
      exact (isInside_eq_false.mp hclose).resolve_right (hrest u hmem)
    have hsplit : rest.map Token.kind = (rest.takeWhile isInside).map Token.kind ++
        (rest.dropWhile isInside).map Token.kind := by
      rw [← List.map_append, List.takeWhile_append_dropWhile]
    rw [bodies_inside ht, List.flatMap_cons, ← ih, List.map_cons, Kind.squeeze,
      if_neg (isInside_eq_true.mp ht).1, hsplit, squeeze_append, squeeze_false hhead]
    · simp
    · exact List.all_eq_true.mp List.all_takeWhile

end Line

namespace Feature

/-- If no line has a fault, every line gives an item, and its tokens spell the item. -/
lemma writesItem_of_fault? {lines : List Line}
    (hstops : ∀ line ∈ lines, Line.isInside line.stop = false)
    (hclean : lines.filterMap Line.fault? = []) :
    List.Forall₂ Parser.WritesItem (lines.filterMap Line.item?) (lines.map Line.tokens) := by
  induction lines with
  | nil => exact .nil
  | cons line rest ih =>
    obtain ⟨hstop, hstops⟩ := List.forall_mem_cons.mp hstops
    cases hparse : line.parse with
    | error fault =>
      have hfault : line.fault? = some fault := by simp [Line.fault?, hparse]
      rw [List.filterMap_cons_some hfault] at hclean
      cases hclean
    | ok i =>
      have hitem : line.item? = some i := by simp [Line.item?, hparse, Except.toOption]
      have hfault : line.fault? = none := by simp [Line.fault?, hparse]
      rw [List.filterMap_cons_none hfault] at hclean
      rw [List.filterMap_cons_some hitem]
      exact .cons (Line.writesItem_of_parse hstop hparse) (ih hstops hclean)

/-- **What is read was written.**  When tokens that end with their only end of file are read and
nothing is reported, every item is one that the grammar derives, and the items, written one a line,
are the tokens again, up to the newlines at both ends and the length of the runs of newlines. -/
theorem parse_sound {before : List Token} {last : Token} (hlast : last.kind = .endOfFile)
    (hbefore : ∀ t ∈ before, t.kind ≠ .endOfFile)
    (hclean : (parse (before ++ [last])).2.total = 0) :
    (∀ i ∈ (parse (before ++ [last])).1.items, i.IsGrammatical) ∧
    ∃ lines, List.Forall₂ Item.Spells (parse (before ++ [last])).1.items lines ∧
      Kind.squeeze true (before.map Token.kind) = lines.flatMap (· ++ [.newline]) := by
  have hroom : (faultsOf (before ++ [last])).length < Report.limit :=
    length_faultsOf_lt (by rw [hclean]; decide)
  have hfaults : faultsOf (before ++ [last]) = [] := by
    rw [report_parse hroom, Report.total_pushAll, Report.total_empty, Nat.zero_add] at hclean
    exact List.eq_nil_of_length_eq_zero hclean
  have hstops : ∀ line ∈ linesOf (before ++ [last]), Line.isInside line.stop = false :=
    fun line => Line.isInside_stop_of_mem_split
  have hwrites := writesItem_of_fault? hstops hfaults
  have hbodies : (linesOf (before ++ [last])).map Line.tokens = Line.bodies before :=
    Line.bodies_append_endOfFile hlast hbefore
  rw [hbodies, ← items_parse hroom] at hwrites
  refine ⟨?_, (Line.bodies before).map (List.map Token.kind), ?_, ?_⟩
  · exact ((List.forall₂_and_left _ _).mp hwrites).1
  · rw [List.forall₂_map_right_iff]
    exact hwrites.imp fun i body hi => hi.2
  · rw [Line.squeeze_eq_flatMap_bodies before hbefore, List.flatMap_map]

/-- A definition and a rule with empty lines around them: the rule has a minus sign before its
precedence and a difference whose subtrahend is a product. -/
theorem parse_sound_lines :
    let definition : List Kind :=
      [.bang, .name "m", .openParen, .name "x", .closeParen, .equals, .name "x"]
    let rule : List Kind := [.minus, .number 2, .colon, .name "a", .dot, .template "b", .equals,
      .number 1, .minus, .name "c", .star, .minus, .openParen, .number 3, .closeParen]
    let before : List Token := (.newline :: definition ++ .newline :: .newline :: rule).map
      fun kind => ⟨kind, .point .start⟩
    let last : Token := ⟨.endOfFile, .point .start⟩
    (parse (before ++ [last])).2.total = 0 ∧
    (∀ i ∈ (parse (before ++ [last])).1.items, i.IsGrammatical) ∧
    ∃ lines, List.Forall₂ Item.Spells (parse (before ++ [last])).1.items lines ∧
      Kind.squeeze true (before.map Token.kind) = lines.flatMap (· ++ [.newline]) := by
  intro definition rule before last
  have hclean : (parse (before ++ [last])).2.total = 0 := by decide +kernel
  exact ⟨hclean, parse_sound rfl (by decide +kernel) hclean⟩

end Feature

end SheetRules
