import SheetRules.Proofs.Feature.SideBySide

/-!
# The levels of a stream

Readers of lines are made level by level, and below the last level they fail.  Readers of the stream
count the levels that they are below an item.  Both come to the same as long as the counter and the
number of levels that are left add up to the limit (`Readers.mirrorsDown_ofNat`), and so do the
readers of items (`Reading.mirrors_item`).

An operator of a chain leaves the counter raised, and it is put back at the end of the chain only.
So readers along a chain say nothing about the counter (`Reading.MirrorsBelow`), and those around it
put it back (`Reading.Mirrors`).
-/

namespace SheetRules

open TokenStream (Around)

namespace Reading

variable {α β : Type} {d : Nat}

/-! ### Levels -/

/-- The counter is put back after readers that leave it anywhere. -/
lemma MirrorsBelow.restoring {m : Reading α} {p : Parser α} (h : MirrorsBelow d m p) :
    Mirrors d (restoring m) p := by
  intro s c around report hs
  have hboth := h s c around report hs
  generalize hline : p c = line at hboth
  generalize hstream : m s = stream at hboth
  have hrun : Reading.restoring m s = (stream.1, { stream.2 with depth := s.depth }) := by
    rw [Reading.restoring, hstream]
    rfl
  rw [hrun, hs.depth]
  cases hboth with
  | ok hat _ hb => exact .ok (hat.with_depth d) rfl hb
  | error hat _ => exact .error (hat.with_depth d) rfl

/-- Below the last level there is none to go down to. -/
lemma mirrorsBelow_deepen_of_le (hd : Limit.exprLevels ≤ d) (f : Unit → Reading α) :
    MirrorsBelow d (deepen >>= f) Parser.tooDeep := by
  intro s c around report hs
  have hdepth : ¬ s.depth + 1 ≤ Limit.exprLevels := by
    rw [hs.depth]
    omega
  have hrun : deepen s = failAt (fun _ => .nestedTooDeep) { s with depth := s.depth + 1 } :=
    if_neg hdepth
  rw [bind_of_none hrun]
  exact .error ((hs.with_depth _).reported _) trivial

/-- One level down is read like a line one level down. -/
lemma MirrorsBelow.deepen {m : Reading α} {p : Parser α} (h : MirrorsBelow (d + 1) m p)
    (hd : d < Limit.exprLevels) : MirrorsBelow d (deepen >>= fun _ => m) p := by
  intro s c around report hs
  have hdepth : s.depth + 1 ≤ Limit.exprLevels := by rwa [hs.depth]
  have hrun : Reading.deepen s = (some (), { s with depth := s.depth + 1 }) := if_pos hdepth
  rw [bind_of_some hrun, hs.depth]
  exact h _ c around report (hs.with_depth _)

/-- The counter may be left anywhere, so it may be put back. -/
lemma Mirrors.mirrorsBelow {m : Reading α} {p : Parser α} (h : Mirrors d m p) :
    MirrorsBelow d m p :=
  fun s c around report hs =>
    (h s c around report hs).mono (fun _ _ _ hb => hb) fun _ _ => trivial

/-- A reader after one that has put the counter back. -/
lemma Mirrors.bind {m : Reading α} {p : Parser α} (h : Mirrors d m p) {f : α → Reading β}
    {g : α → Parser β} (hnext : ∀ a, MirrorsBelow d (f a) (g a)) :
    MirrorsBelow d (m >>= f) (p >>= g) := by
  intro s c around report hs
  refine (h s c around report hs).bind trivial fun a b s' c' _ hs' hb => ?_
  rw [hb]
  exact hnext a s' c' around report hs'

/-- A call is seen by the kind of the next token but one. -/
lemma opensCall_eq {c : Cursor} {t : Token} {more : List Token} (hc : c.IsClosed)
    (hrest : c.rest = t :: more) :
    Parser.Level.opensCall c =
      .ok (decide ((Cursor.mk more c.stop).current.kind = .openParen), c) := by
  rcases Parser.opensCall_cases c with ⟨t', paren, more', hrest', hparen, hopens⟩ | hopens
  · obtain ⟨-, rfl⟩ := List.cons.inj (hrest.symm.trans hrest')
    have hcurrent : (Cursor.mk (paren :: more') c.stop).current.kind = .openParen := hparen
    rw [hopens, decide_eq_true hcurrent]
  · have hnot : (Cursor.mk more c.stop).current.kind ≠ .openParen := by
      intro hparen
      have hinside : (Cursor.mk more c.stop).current.kind.IsInside := by
        rw [hparen]
        trivial
      have hclosed : (Cursor.mk more c.stop).IsClosed := hc
      obtain ⟨more', hmore⟩ := hclosed.exists_rest hinside
      generalize (Cursor.mk more c.stop).current = paren at hparen hmore
      obtain ⟨kind, span⟩ := paren
      cases hparen
      cases hmore
      rw [Parser.Level.opensCall, hrest] at hopens
      cases hopens
    rw [hopens, decide_eq_false hnot]

section Operands

variable {inner : Reading Expr} {argument : Parser Expr} (h : Mirrors d inner argument)
  (hsound : Parser.Reads argument (Parser.Level.Writes .sum))

include h hsound

/-- A macro after its mark. -/
lemma mirrors_macroAfter (start : Span) :
    Mirrors d (macroAfter start inner) (Parser.Level.macroAfter start argument) := by
  intro s c around report hs
  refine (mirrors_ident s c around report hs).bind rfl fun name _ s₁ c₁ _ hs₁ hname => ?_
  rw [hname]
  refine matches_eat hs₁ .openParen trivial (fun t more _ hs₂ => ?_) (matches_pure hs₁ rfl rfl)
  refine (follows_listed h hsound _ _ _ _ hs₂).bind rfl fun r args s₃ c₃ _ hs₃ hargs => ?_
  refine matches_pure hs₃ rfl ?_
  rw [hargs.1, hargs.2]

/-- A function with its arguments, or a path.  One reader looks for the parenthesis in the line,
and the other one looks ahead in the stream. -/
lemma matches_named {s : TokenStream} {c : Cursor} {around : Around} {report : Report Fault}
    (hs : s.At c around d report) {text : String} (hkind : c.current.kind = .name text) :
    Matches around report (· = d) (fun a b _ => b = a) (Parser.Level.named argument c)
      (named c.current.span inner s) := by
  obtain ⟨more, hrest⟩ := hs.exists_rest (by rw [hkind]; trivial)
  have hahead : ahead 1 s = (some (Cursor.mk more c.stop).current.kind, s) :=
    congrArg (some ·, s) (hs.ahead_eq hrest)
  rw [named, bind_of_some hahead, Parser.Level.named,
    Parser.bind_of_ok (opensCall_eq hs.closed hrest)]
  by_cases hparen : (Cursor.mk more c.stop).current.kind = .openParen
  · rw [if_pos hparen, if_pos (decide_eq_true hparen)]
    refine (mirrors_ident s c around report hs).bind rfl fun name _ s₁ c₁ hrun hs₁ hname => ?_
    -- the name is the token under the cursor, and the parenthesis is the next one
    have hident : Parser.ident ⟨c.current :: more, c.stop⟩ = .ok (⟨text, c.current.span⟩, _) :=
      Parser.ident_of_eq hkind
    rw [← hrest] at hident
    obtain ⟨rfl, rfl⟩ := Prod.mk.inj (Except.ok.inj (hrun.symm.trans hident))
    refine matches_advance_of_inside hs₁ (by rw [hparen]; trivial) fun more' hs₂ _ => ?_
    refine (follows_listed h hsound _ _ _ _ hs₂).bind rfl
      fun r args s₃ c₃ _ hs₃ hargs => ?_
    refine matches_pure hs₃ rfl ?_
    rw [hname, hargs.1, hargs.2]
  · rw [if_neg hparen, if_neg (by simpa using hparen)]
    refine (mirrors_path s c around report hs).bind rfl fun value _ s' c' _ hs' hvalue => ?_
    exact matches_pure hs' rfl (by rw [hvalue])

/-- An operand. -/
lemma mirrors_operand : Mirrors d (operand inner) (Parser.Level.operand argument) := by
  intro s c around report hs
  refine matches_peek hs ?_
  generalize hkind : c.current.kind = kind
  cases kind with
  | number value =>
    refine matches_advance_of_inside hs (by rw [hkind]; trivial) fun more hs' _ => ?_
    exact matches_pure hs' rfl rfl
  | name text => exact matches_named h hsound hs hkind
  | template text =>
    refine (mirrors_path s c around report hs).bind rfl fun value _ s' c' _ hs' hvalue => ?_
    exact matches_pure hs' rfl (by rw [hvalue])
  | bang =>
    refine matches_advance_of_inside hs (by rw [hkind]; trivial) fun more hs' _ => ?_
    exact mirrors_macroAfter h hsound _ _ _ _ _ hs'
  | openParen =>
    refine matches_advance_of_inside hs (by rw [hkind]; trivial) fun more hs₁ _ => ?_
    refine (h _ _ _ _ hs₁).bind rfl fun value _ s₂ c₂ _ hs₂ hvalue => ?_
    refine (follows_expect .closeParen trivial _ _ _ _ hs₂).bind rfl
      fun close _ s₃ c₃ _ hs₃ hlast => ?_
    refine matches_pure hs₃ rfl ?_
    rw [hvalue, hlast]
  | _ => exact matches_unexpected hs rfl

end Operands

/-- The readers of a level mirror those of a level of the line. -/
structure Readers.Mirrors (d : Nat) (readers : Readers) (level : Parser.Level) : Prop where
  sum : Reading.Mirrors d readers.sum level.sum
  product : Reading.Mirrors d readers.product level.product
  signed : Reading.Mirrors d readers.signed level.signed
  sumAfter : ∀ left, MirrorsBelow d (readers.sumAfter left) (level.sumAfter left)
  productAfter : ∀ left, MirrorsBelow d (readers.productAfter left) (level.productAfter left)

/-- The readers mirror those of a level of the line once they have gone down a level. -/
structure Readers.MirrorsDown (d : Nat) (below : Readers) (level : Parser.Level) : Prop where
  sum : MirrorsBelow d (deepen >>= fun _ => below.sum) level.sum
  signed : MirrorsBelow d (deepen >>= fun _ => below.signed) level.signed
  sumAfter : ∀ left op, MirrorsBelow d
    (deepen >>= fun _ => below.product >>= fun right => below.sumAfter (Parser.join left op right))
    (level.product >>= fun right => level.sumAfter (Parser.join left op right))
  productAfter : ∀ left op, MirrorsBelow d
    (deepen >>= fun _ => below.signed >>= fun right =>
      below.productAfter (Parser.join left op right))
    (level.signed >>= fun right => level.productAfter (Parser.join left op right))

/-- The next link of a chain.  On a line, `g` ends the chain where there is no operator, and otherwise
it goes on after the operator with `next`. -/
lemma mirrorsBelow_link {op? : Kind → Option BinaryOp}
    (hop : ∀ k op, op? k = some op → k = op.kind) {left : Expr} {operand : Reading Expr}
    {more : Expr → Reading Expr} {g : Token → Parser Expr} {next : BinaryOp → Parser Expr}
    (hnone : ∀ t : Token, op? t.kind = none → g t = pure left)
    (hsome : ∀ (t : Token) (op : BinaryOp), op? t.kind = some op →
      g t = Parser.advance >>= fun _ => next op)
    (h : ∀ op, MirrorsBelow d
      (deepen >>= fun _ => operand >>= fun right => more (Parser.join left op right)) (next op)) :
    MirrorsBelow d (link op? operand more left) (Parser.peek >>= g) := by
  intro s c around report hs
  refine matches_peek hs ?_
  generalize hfound : op? c.current.kind = found
  cases found with
  | none =>
    rw [hnone _ hfound]
    exact matches_pure hs trivial rfl
  | some op =>
    have hinside : c.current.kind.IsInside := by
      rw [hop _ _ hfound]
      exact op.isInside_kind
    rw [hsome _ op hfound]
    exact matches_advance_of_inside hs hinside fun rest hs' _ => h op _ _ _ _ hs'

/-- The readers of a level from those below. -/
lemma Readers.MirrorsDown.above {below : Readers} {level : Parser.Level}
    (h : below.MirrorsDown d level) (hsound : level.IsSound) :
    below.above.Mirrors d level.above := by
  have signed : Reading.Mirrors d below.above.signed level.above.signed := by
    intro s c around report hs
    refine matches_peek hs ?_
    refine matches_eat hs .minus trivial (fun t more _ hs₁ => ?_)
      (mirrors_operand h.sum.restoring hsound.sum _ _ _ _ hs)
    refine (h.signed.restoring _ _ _ _ hs₁).bind rfl fun value _ s₂ c₂ _ hs₂ hvalue => ?_
    exact matches_pure hs₂ rfl (by rw [hvalue])
  have productAfter : ∀ left, MirrorsBelow d (below.above.productAfter left)
      (level.above.productAfter left) := by
    refine fun left => mirrorsBelow_link (fun _ _ hop => (Parser.Level.kind_of_productOp? hop).1)
      (fun t hnone => ?_) (fun t op hsome => ?_) (h.productAfter left)
    · rw [hnone]
    · rw [hsome]
  have product : Reading.Mirrors d below.above.product level.above.product :=
    (signed.bind productAfter).restoring
  have sumAfter : ∀ left, MirrorsBelow d (below.above.sumAfter left)
      (level.above.sumAfter left) := by
    refine fun left => mirrorsBelow_link (fun _ _ hop => (Parser.Level.kind_of_sumOp? hop).1)
      (fun t hnone => ?_) (fun t op hsome => ?_) (h.sumAfter left)
    · rw [hnone]
    · rw [hsome]
  exact ⟨(product.bind sumAfter).restoring, product, signed, sumAfter, productAfter⟩

/-- Who may go down a level reads there what the level below reads. -/
lemma Readers.Mirrors.down {readers : Readers} {level : Parser.Level}
    (h : readers.Mirrors (d + 1) level) (hd : d < Limit.exprLevels) :
    readers.MirrorsDown d level where
  sum := h.sum.mirrorsBelow.deepen hd
  signed := h.signed.mirrorsBelow.deepen hd
  sumAfter _ _ := (h.product.bind fun _ => h.sumAfter _).deepen hd
  productAfter _ _ := (h.signed.bind fun _ => h.productAfter _).deepen hd

/-- Below the last level nothing is read. -/
lemma Readers.mirrorsDown_exhausted (below : Readers) (hd : Limit.exprLevels ≤ d) :
    below.MirrorsDown d .exhausted where
  sum := mirrorsBelow_deepen_of_le hd _
  signed := mirrorsBelow_deepen_of_le hd _
  sumAfter _ _ := mirrorsBelow_deepen_of_le hd _
  productAfter _ _ := mirrorsBelow_deepen_of_le hd _

/-- The counter and the number of readers that are left go together, so the readers never run
out. -/
lemma Readers.mirrorsDown_ofNat (levels : Nat) (hd : d + levels = Limit.exprLevels) :
    (Readers.ofNat levels).MirrorsDown d (.ofNat levels) := by
  induction levels generalizing d with
  | zero => exact mirrorsDown_exhausted _ (Nat.le_of_eq hd.symm)
  | succ levels ih =>
    have hbelow := ih (d := d + 1) (by omega)
    exact (hbelow.above (Parser.Level.isSound_ofNat levels)).down (by omega)

/-- An expression. -/
lemma mirrors_expr : Mirrors 0 expr Parser.expr :=
  (Readers.mirrorsDown_ofNat Limit.exprLevels (Nat.zero_add _)).sum.restoring

/-! ### Items -/

/-- A definition, where a mark has been seen. -/
lemma matches_macroDef {s : TokenStream} {c : Cursor} {around : Around} {report : Report Fault}
    (hs : s.At c around 0 report) (hkind : c.current.kind = .bang) :
    Matches around report (· = 0) (fun a b _ => b = a) (Parser.macroDef c) (macroDef s) := by
  -- from the equals sign on, with the parameters that were found
  have hbody : ∀ (start : Token) (name : Ident) (params : Option (List Ident)) (s : TokenStream)
      (c : Cursor), s.At c around 0 report →
      Matches around report (· = 0) (fun a b _ => b = a)
        ((do
          let _ ← Parser.expect .equals
          let body ← Parser.expr
          pure ⟨name, params, body, start.span.merge body.span⟩ : Parser MacroDef) c)
        ((do
          let _ ← expect .equals
          let body ← expr
          pure ⟨name, params, body, start.span.merge body.span⟩ : Reading MacroDef) s) := by
    intro start name params s c hs
    refine (follows_expect .equals trivial s c around report hs).bind rfl
      fun _ _ s₁ c₁ _ hs₁ _ => ?_
    refine (mirrors_expr s₁ c₁ around report hs₁).bind rfl fun body _ s₂ c₂ _ hs₂ hbody => ?_
    exact matches_pure hs₂ rfl (by rw [hbody])
  -- the line expects the mark, and the stream passes it unseen
  obtain ⟨more, hrest⟩ := hs.exists_rest (by rw [hkind]; trivial)
  have hmark : Parser.expect .bang ⟨c.current :: more, c.stop⟩ = .ok (c.current, ⟨more, c.stop⟩) :=
    Parser.expect_of_eq hkind
  rw [← hrest] at hmark
  have hpassed : advance s = (some c.current, s.advanced) :=
    congrArg (some ·, s.advanced) hs.current_eq
  rw [Parser.macroDef, Parser.bind_of_ok hmark, macroDef, bind_of_some hpassed]
  refine (mirrors_ident _ _ _ _ (hs.advanced hrest).1).bind rfl fun name _ s₁ c₁ _ hs₁ hname => ?_
  rw [hname]
  refine matches_eat hs₁ .openParen trivial (fun t more _ hs₂ => ?_) (hbody _ name none _ _ hs₁)
  refine (follows_listed mirrors_ident Parser.reads_ident _ _ _ _ hs₂).bind rfl
    fun r params s₃ c₃ _ hs₃ hparams => ?_
  rw [hparams.1]
  exact hbody _ name (some r.1) _ _ hs₃

/-- The precedence of a rule. -/
lemma mirrors_precedence : Mirrors d precedence Parser.precedence := by
  intro s c around report hs
  refine matches_peek hs ?_
  generalize hkind : c.current.kind = kind
  cases kind with
  | number value =>
    refine matches_advance_of_inside hs (by rw [hkind]; trivial) fun more hs' _ => ?_
    exact matches_pure hs' rfl rfl
  | _ => exact matches_unexpected hs rfl

/-- The operator of a rule. -/
lemma mirrors_ruleOp : Mirrors d ruleOp Parser.ruleOp := by
  intro s c around report hs
  refine matches_peek hs ?_
  generalize hkind : c.current.kind = kind
  cases kind with
  | equals =>
    refine matches_advance_of_inside hs (by rw [hkind]; trivial) fun more hs' _ => ?_
    exact matches_pure hs' rfl rfl
  | plusPlus =>
    refine matches_advance_of_inside hs (by rw [hkind]; trivial) fun more hs' _ => ?_
    exact matches_pure hs' rfl rfl
  | _ => exact matches_unexpected hs rfl

/-- A rule. -/
lemma mirrors_rule : Mirrors 0 rule Parser.rule := by
  intro s c around report hs
  refine matches_peek hs ?_
  have hbody : ∀ (start : Token) (negative : Bool) (s : TokenStream) (c : Cursor),
      s.At c around 0 report → Matches around report (· = 0) (fun a b _ => b = a)
        ((do
          let value ← Parser.precedence
          let _ ← Parser.expect .colon
          let target ← Parser.path
          let op ← Parser.ruleOp
          let expression ← Parser.expr
          pure ⟨if negative then -value else value, target, op, expression,
            start.span.merge expression.span⟩ : Parser Rule) c)
        ((do
          let value ← precedence
          let _ ← expect .colon
          let target ← path
          let op ← ruleOp
          let expression ← expr
          pure ⟨if negative then -value else value, target, op, expression,
            start.span.merge expression.span⟩ : Reading Rule) s) := by
    intro start negative s c hs
    refine (mirrors_precedence s c around report hs).bind rfl fun value _ s₁ c₁ _ hs₁ hvalue => ?_
    refine (follows_expect .colon trivial s₁ c₁ around report hs₁).bind rfl
      fun _ _ s₂ c₂ _ hs₂ _ => ?_
    refine (mirrors_path s₂ c₂ around report hs₂).bind rfl fun target _ s₃ c₃ _ hs₃ htarget => ?_
    refine (mirrors_ruleOp s₃ c₃ around report hs₃).bind rfl fun op _ s₄ c₄ _ hs₄ hop => ?_
    refine (mirrors_expr s₄ c₄ around report hs₄).bind rfl fun body _ s₅ c₅ _ hs₅ hbody => ?_
    exact matches_pure hs₅ rfl (by rw [hvalue, htarget, hop, hbody])
  exact matches_eat hs .minus trivial (fun t more _ hs' => hbody _ true _ _ hs')
    (hbody _ false _ _ hs)

/-- An item. -/
lemma mirrors_item : Mirrors 0 item Parser.item := by
  intro s c around report hs
  have hrule : Matches around report (· = 0) (fun a b _ => b = a)
      ((Parser.rule >>= fun r => pure (Item.rule r)) c)
      ((rule >>= fun r => pure (Item.rule r) : Reading Item) s) := by
    refine (mirrors_rule s c around report hs).bind rfl fun r _ s' c' _ hs' hr => ?_
    exact matches_pure hs' rfl (by rw [hr])
  refine matches_peek hs ?_
  generalize hkind : c.current.kind = kind
  cases kind with
  | bang =>
    refine (matches_macroDef hs hkind).bind rfl fun m _ s' c' _ hs' hm => ?_
    exact matches_pure hs' rfl (by rw [hm])
  | number value => exact hrule
  | minus => exact hrule
  | _ => exact matches_unexpected hs rfl

end Reading

end SheetRules
