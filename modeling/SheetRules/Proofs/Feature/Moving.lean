import Mathlib.Data.List.Basic
import SheetRules.Proofs.Feature.Lines
import SheetRules.Proofs.Feature.Spans
import SheetRules.Proofs.Feature.Steps

/-!
# Reading the same line elsewhere

A line is read in the same way wherever it stands.  When the spans of its tokens are changed in a
way that goes through merging, and another token closes it, then reading gives the same item with
its spans changed, or it fails with a fault of the same code at the same token.  This is shown for
two runs side by side: `Parser.Follows` relates a reader to the reader that goes over the changed
tokens.

Readers look at the token that closes the line, and there the two runs see different tokens.  They
never pass it, and none of the kinds that they look for is the kind of such a token.
-/

namespace SheetRules

/-- A change of the spans of a line, and the tokens that close it before and after the change. -/
structure Relocation where
  span : Span → Span
  respectsMerge : Span.RespectsMerge span
  stop : Token
  stop' : Token
  closed : Line.isInside stop = false
  closed' : Line.isInside stop' = false

namespace Relocation

variable (m : Relocation)

/-- A token of the changed line. -/
def token (t : Token) : Token := t.mapSpan m.span

/-- A changed token keeps its kind. -/
@[simp] lemma kind_token (t : Token) : (m.token t).kind = t.kind := rfl

/-- A changed token has the changed span. -/
@[simp] lemma span_token (t : Token) : (m.token t).span = m.span t.span := rfl

/-- The change goes through merging. -/
lemma span_merge (s t : Span) : m.span (s.merge t) = (m.span s).merge (m.span t) :=
  m.respectsMerge s t

end Relocation

namespace Parser

variable {α β : Type} (m : Relocation)

/-- Two readings end alike: both with a value, the second one moved, and with the same tokens to go;
or both with faults of the same code, which stand at a token and the changed token, or at the ends
of the two lines. -/
inductive EndsAlike (move : α → α) :
    Except Fault (α × Cursor) → Except Fault (α × Cursor) → Prop
  | ok (a : α) (rest : List Token) :
    EndsAlike move (.ok (a, ⟨rest, m.stop⟩)) (.ok (move a, ⟨rest.map m.token, m.stop'⟩))
  | error {fault fault' : Fault} (h : fault'.cause.code = fault.cause.code)
      (hspan : fault'.span = m.span fault.span ∨
        fault.span = m.stop.span ∧ fault'.span = m.stop'.span) :
    EndsAlike move (.error fault) (.error fault')

/-- If the change makes no difference to a reading, then it makes none to what is read. -/
lemma EndsAlike.of_eq {m : Relocation} {move : α → α} {r r' : Except Fault (α × Cursor)}
    (h : EndsAlike m move r r') (heq : r = r') :
    (∀ a c, r = .ok (a, c) → move a = a) ∧
      ∀ fault, r = .error fault → m.span fault.span = fault.span ∨ fault.span = m.stop.span := by
  cases h with
  | ok a rest =>
    obtain ⟨hvalue, -⟩ := Prod.mk.inj (Except.ok.inj heq)
    constructor
    · rintro _ _ ⟨⟩
      exact hvalue.symm
    · rintro _ ⟨⟩
  | error h hspan =>
    cases Except.error.inj heq
    constructor
    · rintro _ _ ⟨⟩
    · rintro _ ⟨⟩
      exact hspan.imp Eq.symm And.left

/-- From these tokens on, the second reader does on the changed line what the first one does. -/
def FollowsFrom (rest : List Token) (move : α → α) (p q : Parser α) : Prop :=
  EndsAlike m move (p ⟨rest, m.stop⟩) (q ⟨rest.map m.token, m.stop'⟩)

/-- The second reader does on the changed line what the first one does. -/
def Follows (move : α → α) (p q : Parser α) : Prop :=
  ∀ rest, FollowsFrom m rest move p q

variable {m} {rest : List Token} {move : α → α} {p q : Parser α} {move' : β → β}
  {f g : α → Parser β}

/-! ### One reader after another -/

/-- Both readers find something, the second one the moved value. -/
lemma follows_pure {a b : α} (h : b = move a) : Follows m move (pure a) (pure b) := by
  subst h
  exact fun rest => .ok a rest

/-- Both readers fail with the same code, at tokens that correspond. -/
lemma follows_failAt {cause : Kind → Cause} (h : ∀ k k', (cause k).code = (cause k').code) :
    Follows m move (failAt cause) (failAt cause) := by
  intro rest
  cases rest with
  | nil => exact .error (h _ _) (.inr ⟨rfl, rfl⟩)
  | cons t more => exact .error (h _ _) (.inl rfl)

/-- Both readers see a token that the grammar does not ask for. -/
lemma follows_unexpected (what : Expectation) :
    Follows m move (unexpected what) (unexpected what) :=
  follows_failAt fun _ _ => rfl

/-- Both readers have no more levels to go. -/
lemma follows_tooDeep : Follows m move tooDeep tooDeep :=
  follows_failAt fun _ _ => rfl

/-- Two readers after two others, from a place that is known. -/
lemma FollowsFrom.bind (hp : FollowsFrom m rest move p q)
    (hf : ∀ a, Follows m move' (f a) (g (move a))) :
    FollowsFrom m rest move' (p >>= f) (q >>= g) := by
  unfold FollowsFrom at hp ⊢
  generalize hrun : p ⟨rest, m.stop⟩ = r at hp
  generalize hrun' : q ⟨rest.map m.token, m.stop'⟩ = r' at hp
  cases hp with
  | ok a rest' =>
    rw [bind_of_ok hrun, bind_of_ok hrun']
    exact hf a rest'
  | error h hspan =>
    rw [bind_of_error hrun, bind_of_error hrun']
    exact .error h hspan

/-- Two readers after two others. -/
lemma Follows.bind (hp : Follows m move p q) (hf : ∀ a, Follows m move' (f a) (g (move a))) :
    Follows m move' (p >>= f) (q >>= g) :=
  fun rest => (hp rest).bind hf

/-- The next token is looked at: it is one of the line, or one that closes the line. -/
lemma follows_peek {f g : Token → Parser β}
    (hstop : ∀ t t', Line.isInside t = false → Line.isInside t' = false →
      FollowsFrom m [] move' (f t) (g t'))
    (htoken : ∀ t, Follows m move' (f t) (g (m.token t))) :
    Follows m move' (peek >>= f) (peek >>= g) := by
  intro rest
  cases rest with
  | nil => exact hstop m.stop m.stop' m.closed m.closed'
  | cons t more => exact htoken t (t :: more)

/-- The next token is looked at by a reader that fails where the line ends. -/
lemma follows_peek_of_unexpected (what : Expectation) {f : Token → Parser β}
    (hnewline : ∀ span, f ⟨.newline, span⟩ = unexpected what)
    (hend : ∀ span, f ⟨.endOfFile, span⟩ = unexpected what)
    (htoken : ∀ t, Follows m move' (f t) (f (m.token t))) :
    Follows m move' (peek >>= f) (peek >>= f) := by
  have hstop : ∀ t, Line.isInside t = false → f t = unexpected what := by
    rintro ⟨kind, span⟩ ht
    rcases Line.isInside_eq_false.mp ht with rfl | rfl
    · exact hnewline span
    · exact hend span
  refine follows_peek (fun t t' ht ht' => ?_) htoken
  rw [hstop t ht, hstop t' ht']
  exact follows_unexpected what []

/-- The next token is passed. -/
lemma Follows.advance {f g : Unit → Parser β} (h : Follows m move' (f ()) (g ())) :
    Follows m move' (advance >>= f) (advance >>= g) := by
  intro rest
  cases rest with
  | nil => exact h []
  | cons t more => exact h more

/-- Both lines are equally long. -/
lemma follows_steps : Follows m id steps steps := by
  intro rest
  have hends : EndsAlike m id (.ok (rest.length + 1, ⟨rest, m.stop⟩)) _ := .ok _ rest
  rwa [show id (rest.length + 1) = (rest.map m.token).length + 1 by simp] at hends

/-! ### Single tokens -/

/-- No token of an inner kind is where the line ends. -/
lemma kind_ne_of_closed {t : Token} (ht : Line.isInside t = false) {kind : Kind}
    (hkind : kind.IsInside) : t.kind ≠ kind := by
  rintro rfl
  rw [Line.isInside_eq_true.mpr (Kind.isInside_iff.mp hkind)] at ht
  cases ht

/-- Nothing is passed where the line ends. -/
lemma followsFrom_eat_nil {f g : Bool → Parser β} (kind : Kind) (hkind : kind.IsInside)
    (h : FollowsFrom m [] move' (f false) (g false)) :
    FollowsFrom m [] move' (eat kind >>= f) (eat kind >>= g) := by
  have hnot : ∀ t, Line.isInside t = false → eat kind ⟨[], t⟩ = .ok (false, ⟨[], t⟩) :=
    fun t ht => eat_of_ne (kind_ne_of_closed ht hkind)
  unfold FollowsFrom
  rw [List.map_nil, bind_of_ok (hnot _ m.closed), bind_of_ok (hnot _ m.closed')]
  exact h

/-- Both readers pass a token of a kind, or neither does. -/
lemma follows_eat (kind : Kind) (hkind : kind.IsInside) : Follows m id (eat kind) (eat kind) := by
  refine follows_peek (fun t t' ht ht' => ?_) fun t => ?_
  · rw [if_neg (kind_ne_of_closed ht hkind), if_neg (kind_ne_of_closed ht' hkind)]
    exact follows_pure rfl []
  · rw [m.kind_token]
    split
    · exact .advance (follows_pure rfl)
    · exact follows_pure rfl

/-- Both readers pass a token that has to be of a kind. -/
lemma follows_expect (kind : Kind) (hkind : kind.IsInside) :
    Follows m m.token (expect kind) (expect kind) := by
  refine follows_peek_of_unexpected (.symbol kind)
    (fun span => if_neg (kind_ne_of_closed (t := ⟨.newline, span⟩) rfl hkind))
    (fun span => if_neg (kind_ne_of_closed (t := ⟨.endOfFile, span⟩) rfl hkind)) fun t => ?_
  rw [m.kind_token]
  split
  · exact .advance (follows_pure rfl)
  · exact follows_unexpected _

/-- A name is moved. -/
lemma follows_ident : Follows m (Ident.mapSpan m.span) ident ident := by
  refine follows_peek_of_unexpected .name (fun _ => rfl) (fun _ => rfl) fun t => ?_
  rw [m.kind_token]
  split
  · exact .advance (follows_pure rfl)
  · exact follows_unexpected _

/-- A segment is moved. -/
lemma follows_segment : Follows m (fun r => (r.1, m.span r.2)) segment segment := by
  refine follows_peek_of_unexpected .segment (fun _ => rfl) (fun _ => rfl) fun t => ?_
  rw [m.kind_token]
  split
  · exact .advance (follows_pure rfl)
  · exact .advance (follows_pure rfl)
  · exact follows_unexpected _

/-- A precedence has no span. -/
lemma follows_precedence : Follows m id precedence precedence := by
  refine follows_peek_of_unexpected .precedence (fun _ => rfl) (fun _ => rfl) fun t => ?_
  rw [m.kind_token]
  split
  · exact .advance (follows_pure rfl)
  · exact follows_unexpected _

/-- An operator of a rule has no span. -/
lemma follows_ruleOp : Follows m id ruleOp ruleOp := by
  refine follows_peek_of_unexpected .ruleOperator (fun _ => rfl) (fun _ => rfl) fun t => ?_
  rw [m.kind_token]
  split
  · exact .advance (follows_pure rfl)
  · exact .advance (follows_pure rfl)
  · exact follows_unexpected _

/-! ### Paths and lists -/

/-- Segments are read alike, and the span of the last one is moved. -/
lemma follows_segmentsAfter (last : Span) (fuel : Nat) :
    Follows m (fun r => (r.1, m.span r.2)) (segmentsAfter last fuel)
      (segmentsAfter (m.span last) fuel) := by
  induction fuel generalizing last with
  | zero => exact follows_unexpected _
  | succ fuel ih =>
    refine (follows_eat .dot trivial).bind fun found => ?_
    cases found with
    | false => exact follows_pure rfl
    | true =>
      refine follows_segment.bind fun first => ?_
      exact (ih first.2).bind fun more => follows_pure rfl

/-- A path is moved. -/
lemma follows_path : Follows m (Path.mapSpan m.span) path path := by
  refine follows_segment.bind fun first => ?_
  refine follows_steps.bind fun fuel => ?_
  refine (follows_segmentsAfter first.2 fuel).bind fun more => follows_pure ?_
  simp only [Path.mapSpan, m.span_merge]

/-- Values with commas between them are moved one by one. -/
lemma Follows.separated (h : Follows m move p q) (fuel : Nat) :
    Follows m (List.map move) (separated p fuel) (separated q fuel) := by
  induction fuel with
  | zero => exact follows_unexpected _
  | succ fuel ih =>
    refine h.bind fun first => (follows_eat .comma trivial).bind fun found => ?_
    cases found with
    | false => exact follows_pure rfl
    | true => exact ih.bind fun more => follows_pure rfl

/-- Values in parentheses are moved one by one. -/
lemma Follows.listed (h : Follows m move p q) :
    Follows m (fun r => (r.1.map move, m.token r.2)) (listed p) (listed q) := by
  have hclose : ∀ values : List α, Follows m (fun r => (r.1.map move, m.token r.2))
      (expect .closeParen >>= fun close => pure (values, close))
      (expect .closeParen >>= fun close => pure (values.map move, close)) :=
    fun values => (follows_expect .closeParen trivial).bind fun close => follows_pure rfl
  refine follows_peek (fun t t' ht ht' => ?_) fun t => ?_
  · have hne : ∀ {t : Token}, Line.isInside t = false → t.kind ≠ .closeParen :=
      fun ht => kind_ne_of_closed ht trivial
    rw [if_neg (hne ht), if_neg (hne ht')]
    exact follows_steps.bind (fun fuel => (h.separated fuel).bind hclose) []
  · rw [m.kind_token]
    split
    · exact hclose []
    · exact follows_steps.bind fun fuel => (h.separated fuel).bind hclose

/-! ### Expressions -/

namespace Level

/-- Every reader of the level reads a changed line like the line itself. -/
structure Follows (m : Relocation) (level : Level) : Prop where
  sum : Parser.Follows m (Expr.mapSpans m.span) level.sum level.sum
  product : Parser.Follows m (Expr.mapSpans m.span) level.product level.product
  signed : Parser.Follows m (Expr.mapSpans m.span) level.signed level.signed
  sumAfter : ∀ left, Parser.Follows m (Expr.mapSpans m.span) (level.sumAfter left)
    (level.sumAfter (left.mapSpans m.span))
  productAfter : ∀ left, Parser.Follows m (Expr.mapSpans m.span) (level.productAfter left)
    (level.productAfter (left.mapSpans m.span))

/-- Below the last level both readers fail. -/
lemma follows_exhausted : exhausted.Follows m where
  sum := follows_tooDeep
  product := follows_tooDeep
  signed := follows_tooDeep
  sumAfter _ := follows_tooDeep
  productAfter _ := follows_tooDeep

/-- Joining two operands goes with moving them. -/
lemma mapSpans_join (left right : Expr) (op : BinaryOp) :
    (join left op right).mapSpans m.span =
      join (left.mapSpans m.span) op (right.mapSpans m.span) := by
  simp only [join, Expr.mapSpans, m.span_merge, Expr.span_mapSpans]

variable {inner : Parser Expr}

/-- A macro is moved, if its arguments are. -/
lemma follows_macroAfter (h : Parser.Follows m (Expr.mapSpans m.span) inner inner) (start : Span) :
    Parser.Follows m (Expr.mapSpans m.span) (macroAfter start inner)
      (macroAfter (m.span start) inner) := by
  refine follows_ident.bind fun name => (follows_eat .openParen trivial).bind fun found => ?_
  cases found with
  | false =>
    refine follows_pure ?_
    simp only [Expr.mapSpans, m.span_merge, Ident.mapSpan]
  | true =>
    refine h.listed.bind fun r => follows_pure ?_
    simp only [Expr.mapSpans, m.span_merge, Expr.mapSpansOfAll_eq_map, m.span_token]

/-- A call is seen in both lines or in neither. -/
lemma follows_opensCall : Parser.Follows m id opensCall opensCall := by
  intro rest
  match rest with
  | [] => exact .ok false []
  | [t] => exact .ok false [t]
  | t :: ⟨kind, span⟩ :: more =>
    cases kind with
    | openParen => exact .ok true (t :: ⟨.openParen, span⟩ :: more)
    | _ => exact .ok false (t :: ⟨_, span⟩ :: more)

/-- An operand that is a path is moved. -/
lemma follows_pathOperand : Parser.Follows m (Expr.mapSpans m.span)
    (do let value ← path; pure (.path value)) (do let value ← path; pure (.path value)) :=
  follows_path.bind fun _ => follows_pure rfl

/-- What begins with a name is moved, if its arguments are. -/
lemma follows_named (h : Parser.Follows m (Expr.mapSpans m.span) inner inner) :
    Parser.Follows m (Expr.mapSpans m.span) (named inner) (named inner) := by
  refine follows_opensCall.bind fun found => ?_
  cases found with
  | false => exact follows_pathOperand
  | true =>
    refine follows_ident.bind fun name => .advance ?_
    refine h.listed.bind fun r => follows_pure ?_
    simp only [Expr.mapSpans, m.span_merge, Expr.mapSpansOfAll_eq_map, m.span_token,
      Ident.mapSpan]

/-- An operand is moved, if what it holds is. -/
lemma follows_operand (h : Parser.Follows m (Expr.mapSpans m.span) inner inner) :
    Parser.Follows m (Expr.mapSpans m.span) (operand inner) (operand inner) := by
  refine follows_peek_of_unexpected .expression (fun _ => rfl) (fun _ => rfl) fun t => ?_
  rw [m.kind_token]
  split
  · exact .advance (follows_pure rfl)
  · exact follows_named h
  · exact follows_pathOperand
  · exact .advance (follows_macroAfter h t.span)
  · refine .advance (h.bind fun value => ?_)
    refine (follows_expect .closeParen trivial).bind fun close => follows_pure ?_
    simp only [Expr.mapSpans, m.span_merge, m.span_token]
  · exact follows_unexpected _

/-- No sum goes on at the end of a line. -/
lemma sumOp?_of_closed {t : Token} (ht : Line.isInside t = false) : sumOp? t.kind = none := by
  rcases Line.isInside_eq_false.mp ht with h | h <;> rw [h] <;> rfl

/-- No product goes on at the end of a line. -/
lemma productOp?_of_closed {t : Token} (ht : Line.isInside t = false) :
    productOp? t.kind = none := by
  rcases Line.isInside_eq_false.mp ht with h | h <;> rw [h] <;> rfl

/-- What every level does, one level more does. -/
theorem Follows.above {below : Level} (h : below.Follows m) : below.above.Follows m := by
  -- every reader looks at the next token once on the line and once at its end
  have signed : Parser.Follows m (Expr.mapSpans m.span) below.above.signed below.above.signed := by
    refine follows_peek (fun t t' _ _ => ?_) fun t => ?_
    · exact followsFrom_eat_nil .minus trivial (follows_operand h.sum [])
    · refine (follows_eat .minus trivial).bind fun found => ?_
      cases found with
      | false => exact follows_operand h.sum
      | true =>
        refine h.signed.bind fun inner => follows_pure ?_
        simp only [Expr.mapSpans, m.span_merge, Expr.span_mapSpans, m.span_token]
  have productAfter : ∀ left, Parser.Follows m (Expr.mapSpans m.span)
      (below.above.productAfter left) (below.above.productAfter (left.mapSpans m.span)) := by
    intro left
    refine follows_peek (fun t t' ht ht' => ?_) fun t => ?_
    · rw [productOp?_of_closed ht, productOp?_of_closed ht']
      exact follows_pure rfl []
    · rw [m.kind_token]
      split
      · exact follows_pure rfl
      · refine .advance (h.signed.bind fun right => ?_)
        rw [← mapSpans_join]
        exact h.productAfter _
  have product : Parser.Follows m (Expr.mapSpans m.span) below.above.product below.above.product :=
    signed.bind productAfter
  have sumAfter : ∀ left, Parser.Follows m (Expr.mapSpans m.span)
      (below.above.sumAfter left) (below.above.sumAfter (left.mapSpans m.span)) := by
    intro left
    refine follows_peek (fun t t' ht ht' => ?_) fun t => ?_
    · rw [sumOp?_of_closed ht, sumOp?_of_closed ht']
      exact follows_pure rfl []
    · rw [m.kind_token]
      split
      · exact follows_pure rfl
      · refine .advance (h.product.bind fun right => ?_)
        rw [← mapSpans_join]
        exact h.sumAfter _
  exact ⟨product.bind sumAfter, product, signed, sumAfter, productAfter⟩

/-- On every level expressions are moved. -/
lemma follows_ofNat (levels : Nat) : (ofNat levels).Follows m := by
  induction levels with
  | zero => exact follows_exhausted
  | succ levels ih => exact ih.above

end Level

/-- An expression is moved. -/
lemma follows_expr : Follows m (Expr.mapSpans m.span) expr expr :=
  (Level.follows_ofNat Limit.exprLevels).sum

/-! ### Items -/

/-- A definition is moved. -/
lemma follows_macroDef : Follows m (MacroDef.mapSpans m.span) macroDef macroDef := by
  have hbody : ∀ (start : Token) (name : Ident) (params : Option (List Ident)),
      Follows m (MacroDef.mapSpans m.span)
        (do
          let _ ← expect .equals
          let body ← expr
          pure (⟨name, params, body, start.span.merge body.span⟩ : MacroDef))
        (do
          let _ ← expect .equals
          let body ← expr
          pure (⟨name.mapSpan m.span, params.map (List.map (Ident.mapSpan m.span)), body,
            (m.token start).span.merge body.span⟩ : MacroDef)) := by
    intro start name params
    refine (follows_expect .equals trivial).bind fun _ => ?_
    refine follows_expr.bind fun body => follows_pure ?_
    simp only [MacroDef.mapSpans, m.span_merge, m.span_token, Expr.span_mapSpans]
  refine (follows_expect .bang trivial).bind fun start => ?_
  refine follows_ident.bind fun name => ?_
  refine (follows_eat .openParen trivial).bind fun found => ?_
  cases found with
  | false => exact hbody start name none
  | true => exact follows_ident.listed.bind fun params => hbody start name (some params.1)

/-- There is no precedence where the line ends. -/
lemma followsFrom_precedence_nil {f g : Float → Parser β} :
    FollowsFrom m [] move' (precedence >>= f) (precedence >>= g) := by
  have hfails : ∀ t, Line.isInside t = false →
      precedence ⟨[], t⟩ = .error ⟨.expected .precedence t.kind, t.span⟩ := by
    rintro ⟨kind, span⟩ ht
    rcases Line.isInside_eq_false.mp ht with h | h <;> cases h <;> rfl
  unfold FollowsFrom
  rw [List.map_nil, bind_of_error (hfails _ m.closed), bind_of_error (hfails _ m.closed')]
  exact .error rfl (.inr ⟨rfl, rfl⟩)

/-- A rule is moved. -/
lemma follows_rule : Follows m (Rule.mapSpans m.span) rule rule := by
  refine follows_peek (fun t t' _ _ => ?_) fun start => ?_
  · exact followsFrom_eat_nil .minus trivial followsFrom_precedence_nil
  refine (follows_eat .minus trivial).bind fun negative => ?_
  refine follows_precedence.bind fun value => ?_
  refine (follows_expect .colon trivial).bind fun _ => ?_
  refine follows_path.bind fun target => ?_
  refine follows_ruleOp.bind fun op => ?_
  refine follows_expr.bind fun expression => follows_pure ?_
  simp only [Rule.mapSpans, m.span_merge, m.span_token, Expr.span_mapSpans, id]

/-- An item is moved. -/
lemma follows_item : Follows m (Item.mapSpans m.span) item item := by
  have hrule : Follows m (Item.mapSpans m.span) (do pure (Item.rule (← rule)))
      (do pure (Item.rule (← rule))) :=
    follows_rule.bind fun r => follows_pure rfl
  refine follows_peek_of_unexpected .item (fun _ => rfl) (fun _ => rfl) fun t => ?_
  rw [m.kind_token]
  split
  · exact follows_macroDef.bind fun d => follows_pure rfl
  · exact hrule
  · exact hrule
  · exact follows_unexpected _

/-- An item that takes up the whole line is read alike. -/
theorem follows_wholeItem : Follows m (Item.mapSpans m.span) wholeItem wholeItem := by
  refine follows_item.bind fun i rest => ?_
  cases rest with
  | nil => exact .ok i []
  | cons t more => exact follows_unexpected .endOfLine (t :: more)

end Parser

/-! ### Lines -/

namespace Line

/-- The code of the fault that keeps a line from being read, if there is one. -/
def code? (line : Line) : Option Nat := line.fault?.map (·.cause.code)

/-- The changed line gives the same item with its spans changed, or a fault of the same code. -/
lemma relocate (m : Relocation) (before before' : Span) (body : List Token) :
    (⟨before', body.map m.token, m.stop'⟩ : Line).item? =
        (⟨before, body, m.stop⟩ : Line).item?.map (Item.mapSpans m.span) ∧
      (⟨before', body.map m.token, m.stop'⟩ : Line).code? =
        (⟨before, body, m.stop⟩ : Line).code? := by
  have hends : Parser.EndsAlike m _ _ _ := Parser.follows_wholeItem body
  simp only [item?, code?, fault?, parse]
  generalize Parser.wholeItem ⟨body, m.stop⟩ = r at hends
  generalize Parser.wholeItem ⟨body.map m.token, m.stop'⟩ = r' at hends
  cases hends with
  | ok i rest => exact ⟨rfl, rfl⟩
  | error h _ => exact ⟨rfl, congrArg some h⟩

/-- A change that leaves the spans of all tokens of a line leaves those of its item, and the span of
the fault if there is one. -/
lemma parse_fixed {f : Span → Span} (hf : Span.RespectsMerge f) {line : Line}
    (hclosed : isInside line.stop = false) (hstop : f line.stop.span = line.stop.span)
    (htokens : ∀ t ∈ line.tokens, f t.span = t.span) :
    (∀ i, line.parse = .ok i → i.mapSpans f = i) ∧
      ∀ fault, line.parse = .error fault → f fault.span = fault.span := by
  let m : Relocation := ⟨f, hf, line.stop, line.stop, hclosed, hclosed⟩
  have hsame : line.tokens.map m.token = line.tokens := by
    refine (List.map_congr_left fun t ht => ?_).trans (List.map_id _)
    exact congrArg (Token.mk t.kind) (htokens t ht)
  have hends : Parser.EndsAlike m _ _ _ := Parser.follows_wholeItem line.tokens
  rw [hsame] at hends
  obtain ⟨hitem, hfault⟩ := hends.of_eq rfl
  unfold parse
  cases hrun : Parser.wholeItem ⟨line.tokens, line.stop⟩ with
  | ok r =>
    constructor
    · rintro _ ⟨⟩
      exact hitem r.1 r.2 hrun
    · rintro _ ⟨⟩
  | error fault =>
    constructor
    · rintro _ ⟨⟩
    · rintro _ ⟨⟩
      rcases hfault fault hrun with hspan | hspan
      · exact hspan
      · rw [hspan]
        exact hstop

/-- The tokens as the only line of a text. -/
def alone (body : List Token) : Line := ⟨.point .start, body, noToken⟩

/-- What a line gives depends on its tokens only. -/
lemma alone_tokens {line : Line} (hstop : isInside line.stop = false) :
    (alone line.tokens).item? = line.item? ∧ (alone line.tokens).code? = line.code? := by
  let m : Relocation := ⟨id, Span.respectsMerge_id, line.stop, noToken, hstop, rfl⟩
  have hrelocate := relocate m line.before (.point .start) line.tokens
  have hsame : line.tokens.map m.token = line.tokens := List.map_id _
  have hitems : Item.mapSpans m.span = id := funext Item.mapSpans_id
  rw [hsame, hitems, Option.map_id] at hrelocate
  exact hrelocate

/-- Tokens with changed spans give the same item with its spans changed, or a fault of the same
code. -/
lemma alone_map {f : Span → Span} (hf : Span.RespectsMerge f) (body : List Token) :
    (alone (body.map (Token.mapSpan f))).item? = (alone body).item?.map (Item.mapSpans f) ∧
      (alone (body.map (Token.mapSpan f))).code? = (alone body).code? :=
  relocate ⟨f, hf, noToken, noToken, rfl, rfl⟩ _ _ body

/-- Changing spans does not change where lines begin and end. -/
lemma bodies_map (f : Span → Span) (tokens : List Token)
    (h : ∀ t ∈ tokens, t.kind ≠ .endOfFile) :
    bodies (tokens.map (Token.mapSpan f)) = (bodies tokens).map (List.map (Token.mapSpan f)) := by
  have hinside : isInside ∘ Token.mapSpan f = isInside := rfl
  refine induction_on_lines ?nil ?newline ?line tokens h
  case nil => simp
  case newline =>
    intro t rest ht ih
    rw [List.map_cons, bodies_newline ht, bodies_newline (by exact ht), ih]
  case line =>
    intro t rest ht _ ih
    rw [List.map_cons, bodies_inside ht, bodies_inside (by exact ht), List.takeWhile_map,
      List.dropWhile_map, hinside, ih, List.map_cons, List.map_cons]

end Line

/-! ### Features -/

namespace Feature

variable {tokens : List Token}

/-- The codes of the faults of the lines of a list of tokens. -/
def codesOf (tokens : List Token) : List Nat :=
  (faultsOf tokens).map (·.cause.code)

/-- The items of the lines of a list of tokens. -/
def itemsOf (tokens : List Token) : List Item :=
  (linesOf tokens).filterMap Line.item?

/-- The items of tokens are those of their lines, each read on its own. -/
lemma itemsOf_eq (tokens : List Token) :
    itemsOf tokens = (Line.bodies tokens).filterMap fun body => (Line.alone body).item? := by
  rw [Line.bodies, List.filterMap_map]
  refine List.filterMap_congr fun line hline => ?_
  exact (Line.alone_tokens (Line.isInside_stop_of_mem_split hline)).1.symm

/-- The codes of tokens are those of their lines, each read on its own. -/
lemma codesOf_eq (tokens : List Token) :
    codesOf tokens = (Line.bodies tokens).filterMap fun body => (Line.alone body).code? := by
  rw [codesOf, faultsOf, List.map_filterMap, Line.bodies, List.filterMap_map]
  refine List.filterMap_congr fun line hline => ?_
  exact (Line.alone_tokens (Line.isInside_stop_of_mem_split hline)).2.symm

variable {front back : List Token} {newline last last' : Token} {f : Span → Span}

/-- Two texts of which the second one is moved, with a newline between them, have the lines of
both. -/
lemma bodies_joined (hnewline : newline.kind = .newline) (hlast : last.kind = .endOfFile)
    (hlast' : last'.kind = .endOfFile) (hfront : ∀ t ∈ front, t.kind ≠ .endOfFile)
    (hback : ∀ t ∈ back, t.kind ≠ .endOfFile) :
    Line.bodies (front ++ newline :: (back ++ [last']).map (Token.mapSpan f)) =
      Line.bodies (front ++ [last]) ++
        (Line.bodies (back ++ [last'])).map (List.map (Token.mapSpan f)) := by
  have hback' : ∀ t ∈ back.map (Token.mapSpan f), t.kind ≠ .endOfFile :=
    List.forall_mem_map.mpr hback
  rw [Line.bodies_append (Line.isInside_eq_false.mpr (.inl hnewline)) front _ hfront,
    Line.bodies_newline hnewline, List.map_append, List.map_singleton,
    Line.bodies_append_endOfFile (by exact hlast') hback',
    Line.bodies_append_endOfFile hlast hfront, Line.bodies_append_endOfFile hlast' hback,
    Line.bodies_map f back hback]

/-- What is read from two texts with a newline between them is what is read from each of them. -/
theorem parse_joined (newline last last' : Token) (hf : Span.RespectsMerge f)
    (hnewline : newline.kind = .newline) (hlast : last.kind = .endOfFile)
    (hlast' : last'.kind = .endOfFile) (hfront : ∀ t ∈ front, t.kind ≠ .endOfFile)
    (hback : ∀ t ∈ back, t.kind ≠ .endOfFile)
    (htokens : tokens = front ++ newline :: (back ++ [last']).map (Token.mapSpan f))
    (hroom : (parse tokens).2.total < Report.limit) :
    (parse tokens).1.items = (parse (front ++ [last])).1.items ++
        (parse (back ++ [last'])).1.items.map (Item.mapSpans f) ∧
      (parse tokens).2.entries.map (·.cause.code) =
        (parse (front ++ [last])).2.entries.map (·.cause.code) ++
          (parse (back ++ [last'])).2.entries.map (·.cause.code) := by
  have hbodies := bodies_joined (f := f) hnewline hlast hlast' hfront hback
  have hitems : itemsOf tokens =
      itemsOf (front ++ [last]) ++ (itemsOf (back ++ [last'])).map (Item.mapSpans f) := by
    rw [htokens, itemsOf_eq, itemsOf_eq, itemsOf_eq, hbodies, List.filterMap_append,
      List.filterMap_map, List.map_filterMap]
    exact congrArg _ (List.filterMap_congr fun body _ => (Line.alone_map hf body).1)
  have hcodes : codesOf tokens = codesOf (front ++ [last]) ++ codesOf (back ++ [last']) := by
    rw [htokens, codesOf_eq, codesOf_eq, codesOf_eq, hbodies, List.filterMap_append,
      List.filterMap_map]
    exact congrArg _ (List.filterMap_congr fun body _ => (Line.alone_map hf body).2)
  -- the report of the whole had room for the faults of both texts
  have hall : (faultsOf tokens).length < Report.limit := length_faultsOf_lt hroom
  have hlengths := congrArg List.length hcodes
  simp only [codesOf, List.length_append, List.length_map] at hlengths
  have hroomFront : (faultsOf (front ++ [last])).length < Report.limit := by omega
  have hroomBack : (faultsOf (back ++ [last'])).length < Report.limit := by omega
  rw [items_parse hall, items_parse hroomFront, items_parse hroomBack, entries_parse hall,
    entries_parse hroomFront, entries_parse hroomBack]
  exact ⟨hitems, hcodes⟩

end Feature

end SheetRules
