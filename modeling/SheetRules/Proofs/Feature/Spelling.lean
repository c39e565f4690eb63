import Mathlib.Tactic.Common
import SheetRules.Proofs.Feature.Spans

/-!
# How features are written

Every item of a feature is written as one line of tokens, and this module says which line that is.
`Expr.kinds` is the line of an expression, `Item.Spells` relates an item to its lines: a precedence
can be written as it is, or as the negative of another number.  Not every expression is written by
the grammar.  `Fits tier e` is the grammar, with one constructor for each of its alternatives: sums
are chains of products, products are chains of signed operands, chains associate to the left, and
everything else needs parentheses.

An expression that is written by the grammar stands on levels.  `Expr.deepest` is the deepest of
them.  What is read again from a line has spans of its own, so items are compared without theirs.
-/

namespace SheetRules

/-! ### Tokens of paths and operators -/

/-- The token of a segment. -/
def Segment.kind : Segment → Kind
  | .name text => .name text
  | .template text => .template text

/-- The tokens of the segments of a path after its first one. -/
def Segment.kindsAfter (segments : List Segment) : List Kind :=
  segments.flatMap fun segment => [.dot, segment.kind]

/-- The tokens of a path: its segments with dots between them. -/
def Path.kinds (p : Path) : List Kind :=
  match p.segments with
  | [] => []
  | first :: more => first.kind :: Segment.kindsAfter more

/-- The token of an operator. -/
def BinaryOp.kind : BinaryOp → Kind
  | .add => .plus
  | .sub => .minus
  | .mul => .star
  | .div => .slash
  | .floorDiv => .slashSlash

/-- The token of a rule's operator. -/
def RuleOp.kind : RuleOp → Kind
  | .set => .equals
  | .push => .plusPlus

/-- The tokens of a list in parentheses, after the opening one. -/
def Kind.listed (each : List (List Kind)) : List Kind :=
  [Kind.comma].intercalate each ++ [.closeParen]

/-! ### The grammar of expressions -/

/-- The kinds of expressions that the grammar tells apart, from the weakest binding to the
strongest. -/
inductive Tier where
  | sum
  | product
  | signed
  | operand
deriving DecidableEq, Repr

/-- The kind of expression that an operator makes. -/
def BinaryOp.tier : BinaryOp → Tier
  | .add => .sum
  | .sub => .sum
  | .mul => .product
  | .div => .product
  | .floorDiv => .product

/-- The grammar: an expression of a given kind. -/
inductive Fits : Tier → Expr → Prop
  | term {e} (h : Fits .product e) : Fits .sum e
  | add {left op right span} (hop : op.tier = .sum) (hleft : Fits .sum left)
      (hright : Fits .product right) : Fits .sum (.binary left op right span)
  | factor {e} (h : Fits .signed e) : Fits .product e
  | multiply {left op right span} (hop : op.tier = .product) (hleft : Fits .product left)
      (hright : Fits .signed right) : Fits .product (.binary left op right span)
  | unsigned {e} (h : Fits .operand e) : Fits .signed e
  | neg {inner span} (h : Fits .signed inner) : Fits .signed (.neg inner span)
  | number {value span} : Fits .operand (.number value span)
  | path {p : Path} (h : p.segments ≠ []) : Fits .operand (.path p)
  | call {name args span} (hargs : ∀ e ∈ args, Fits .sum e) : Fits .operand (.call name args span)
  | macroUse {name span} : Fits .operand (.macroUse name span)
  | macroCall {name args span} (hargs : ∀ e ∈ args, Fits .sum e) :
      Fits .operand (.macroCall name args span)
  | paren {inner span} (h : Fits .sum inner) : Fits .operand (.paren inner span)

namespace Expr

mutual

/-- The tokens of an expression. -/
def kinds : Expr → List Kind
  | .number value _ => [.number value]
  | .path p => p.kinds
  | .binary left op right _ => left.kinds ++ op.kind :: right.kinds
  | .neg inner _ => .minus :: inner.kinds
  | .call name args _ => .name name.text :: .openParen :: Kind.listed (kindsOfEach args)
  | .macroUse name _ => [.bang, .name name.text]
  | .macroCall name args _ =>
    .bang :: .name name.text :: .openParen :: Kind.listed (kindsOfEach args)
  | .paren inner _ => .openParen :: (inner.kinds ++ [.closeParen])

/-- The tokens of each of several expressions. -/
def kindsOfEach : List Expr → List (List Kind)
  | [] => []
  | e :: rest => e.kinds :: kindsOfEach rest

end

/-- Expressions are spelled one by one. -/
lemma kindsOfEach_eq_map (es : List Expr) : kindsOfEach es = es.map kinds := by
  induction es with
  | nil => simp only [kindsOfEach, List.map_nil]
  | cons e rest ih => simp only [kindsOfEach, ih, List.map_cons]

/-! ### Levels -/

/-- The number of operators in the chain of a given kind that an expression is. -/
def links (tier : Tier) : Expr → Nat
  | .binary left op _ _ => if op.tier = tier then left.links tier + 1 else 0
  | _ => 0

mutual

/-- The deepest level of an expression that stands on a given level.  What is in parentheses, an
argument and the operand of a sign are one level below; the right operand of the `i`-th operator of
a chain is `i` levels below the first operand of the chain. -/
def deepest (level : Nat) : Expr → Nat
  | .number _ _ => level
  | .path _ => level
  | .binary left op right _ =>
    max (left.deepest level) (right.deepest (level + (left.links op.tier + 1)))
  | .neg inner _ => inner.deepest (level + 1)
  | .call _ args _ => deepestOfAll level args
  | .macroUse _ _ => level
  | .macroCall _ args _ => deepestOfAll level args
  | .paren inner _ => inner.deepest (level + 1)

/-- The deepest level of a call that stands on a given level and has the given arguments. -/
def deepestOfAll (level : Nat) : List Expr → Nat
  | [] => level
  | e :: rest => max (e.deepest (level + 1)) (deepestOfAll level rest)

end

variable {e : Expr} {tier : Tier}

mutual

/-- No expression ends above the level where it begins. -/
lemma le_deepest : ∀ (level : Nat) (e : Expr), level ≤ e.deepest level
  | _, .number _ _ => by simp only [deepest, Nat.le_refl]
  | _, .path _ => by simp only [deepest, Nat.le_refl]
  | level, .binary left _ _ _ => by
    simp only [deepest]
    exact Nat.le_trans (le_deepest level left) (Nat.le_max_left _ _)
  | level, .neg inner _ => by
    simp only [deepest]
    exact Nat.le_trans (Nat.le_succ level) (le_deepest (level + 1) inner)
  | level, .call _ args _ => by
    simp only [deepest]
    exact le_deepestOfAll level args
  | _, .macroUse _ _ => by simp only [deepest, Nat.le_refl]
  | level, .macroCall _ args _ => by
    simp only [deepest]
    exact le_deepestOfAll level args
  | level, .paren inner _ => by
    simp only [deepest]
    exact Nat.le_trans (Nat.le_succ level) (le_deepest (level + 1) inner)

/-- No expressions end above the level where they begin. -/
lemma le_deepestOfAll : ∀ (level : Nat) (es : List Expr), level ≤ deepestOfAll level es
  | _, [] => by simp only [deepestOfAll, Nat.le_refl]
  | level, _ :: rest => by
    simp only [deepestOfAll]
    exact Nat.le_trans (le_deepestOfAll level rest) (Nat.le_max_right _ _)

end

/-- A chain is at least as deep as it is long. -/
lemma add_links_le_deepest (tier : Tier) (level : Nat) (e : Expr) :
    level + e.links tier ≤ e.deepest level := by
  cases e with
  | binary left op right span =>
    simp only [links, deepest]
    split
    · rename_i hop
      rw [← hop]
      exact Nat.le_trans (le_deepest _ right) (Nat.le_max_right _ _)
    · exact Nat.le_trans (le_deepest level left) (Nat.le_max_left _ _)
  | number | path | neg | call | macroUse | macroCall | paren => exact le_deepest level _

/-- Several expressions stay within a bound if each of them does. -/
lemma deepestOfAll_le_iff {level bound : Nat} {es : List Expr} (hlevel : level ≤ bound) :
    deepestOfAll level es ≤ bound ↔ ∀ e ∈ es, e.deepest (level + 1) ≤ bound := by
  induction es with
  | nil => simpa only [deepestOfAll, List.not_mem_nil, false_imp_iff, implies_true, iff_true]
  | cons e rest ih => rw [deepestOfAll, Nat.max_le, ih, List.forall_mem_cons]

/-! ### Expressions without places -/

/-- The expression without the places of its parts. -/
def bare (e : Expr) : Expr := e.mapSpans .anywhere

section Bare

variable (span : Span)

@[simp] lemma bare_number (value : Float) :
    (number value span).bare = number value (.point .start) := by
  simp only [bare, mapSpans, Span.anywhere]

@[simp] lemma bare_path (p : Path) : (path p).bare = path ⟨p.segments, .point .start⟩ := by
  simp only [bare, mapSpans, Path.mapSpan, Span.anywhere]

@[simp] lemma bare_binary (left : Expr) (op : BinaryOp) (right : Expr) :
    (binary left op right span).bare = binary left.bare op right.bare (.point .start) := by
  simp only [bare, mapSpans, Span.anywhere]

@[simp] lemma bare_neg (inner : Expr) : (neg inner span).bare = neg inner.bare (.point .start) := by
  simp only [bare, mapSpans, Span.anywhere]

@[simp] lemma bare_call (name : Ident) (args : List Expr) : (call name args span).bare =
    call ⟨name.text, .point .start⟩ (args.map bare) (.point .start) := by
  simp only [bare, mapSpans, mapSpansOfAll_eq_map, Ident.mapSpan, Span.anywhere]
  rfl

@[simp] lemma bare_macroUse (name : Ident) : (macroUse name span).bare =
    macroUse ⟨name.text, .point .start⟩ (.point .start) := by
  simp only [bare, mapSpans, Ident.mapSpan, Span.anywhere]

@[simp] lemma bare_macroCall (name : Ident) (args : List Expr) : (macroCall name args span).bare =
    macroCall ⟨name.text, .point .start⟩ (args.map bare) (.point .start) := by
  simp only [bare, mapSpans, mapSpansOfAll_eq_map, Ident.mapSpan, Span.anywhere]
  rfl

@[simp] lemma bare_paren (inner : Expr) :
    (paren inner span).bare = paren inner.bare (.point .start) := by
  simp only [bare, mapSpans, Span.anywhere]

end Bare

end Expr

namespace Fits

variable {e : Expr}

/-- What needs no parentheses around it anywhere is not a chain. -/
lemma links_of_signed (h : Fits .signed e) (tier : Tier) : e.links tier = 0 := by
  cases h with
  | neg => rfl
  | unsigned h => cases h <;> rfl

/-- A product is not a chain of sums. -/
lemma links_sum_of_product (h : Fits .product e) : e.links .sum = 0 := by
  cases h with
  | factor h => exact h.links_of_signed .sum
  | multiply hop => simp [Expr.links, hop]

/-- How an expression begins: not with a closing parenthesis, and an operand not with a sign. -/
lemma exists_kinds_eq_cons {tier : Tier} (h : Fits tier e) : ∃ first more,
    e.kinds = first :: more ∧ first ≠ .closeParen ∧ (tier = .operand → first ≠ .minus) := by
  induction h with
  | term _ ih | factor _ ih | unsigned _ ih =>
    obtain ⟨first, more, hkinds, hclose, -⟩ := ih
    exact ⟨first, more, hkinds, hclose, by simp⟩
  | @add left op right span _ _ _ ih _ | @multiply left op right span _ _ _ ih _ =>
    obtain ⟨first, more, hkinds, hclose, -⟩ := ih
    exact ⟨first, more ++ op.kind :: right.kinds, by simp [Expr.kinds, hkinds], hclose, by simp⟩
  | @path p h =>
    obtain ⟨segment, more, hp⟩ := List.exists_cons_of_ne_nil h
    refine ⟨segment.kind, Segment.kindsAfter more, by simp [Expr.kinds, Path.kinds, hp], ?_⟩
    cases segment <;> simp [Segment.kind]
  | neg | number | call | macroUse | macroCall | paren =>
    simp only [Expr.kinds]
    exact ⟨_, _, rfl, by simp, by simp⟩

end Fits

/-! ### Items -/

/-- The ways to write a precedence: the number itself, or a sign and a number that it is the
negative of. -/
inductive SpellsPrecedence (precedence : Float) : List Kind → Prop
  | plain : SpellsPrecedence precedence [.number precedence]
  | negated {value} (h : -value = precedence) :
      SpellsPrecedence precedence [.minus, .number value]

/-- The tokens of the parameters of a macro; a static macro has none. -/
def paramKinds : Option (List Ident) → List Kind
  | none => []
  | some params => .openParen :: Kind.listed (params.map fun param => [.name param.text])

namespace Item

/-- The expression of an item. -/
def expr : Item → Expr
  | .define d => d.body
  | .rule r => r.value

/-- The tokens are a way to write the item. -/
def Spells : Item → List Kind → Prop
  | .define d, kinds =>
    kinds = .bang :: .name d.name.text :: (paramKinds d.params ++ .equals :: d.body.kinds)
  | .rule r, kinds => ∃ lead, SpellsPrecedence r.precedence lead ∧
      kinds = lead ++ .colon :: (r.target.kinds ++ r.op.kind :: r.value.kinds)

/-- The grammar writes the item. -/
def IsGrammatical : Item → Prop
  | .define d => Fits .sum d.body
  | .rule r => r.target.segments ≠ [] ∧ Fits .sum r.value

/-- The item without the places of its parts. -/
def bare (i : Item) : Item := i.mapSpans .anywhere

end Item

/-! ### No token closes the line -/

/-- A token of this kind does not close a line. -/
def Kind.IsInside : Kind → Prop
  | .newline => False
  | .endOfFile => False
  | _ => True

/-- The kinds inside a line are those that do not close it. -/
lemma Kind.isInside_iff {kind : Kind} :
    kind.IsInside ↔ kind ≠ .newline ∧ kind ≠ .endOfFile := by
  cases kind <;> simp [IsInside]

/-- What holds of the kinds of the values, of commas and of the closing parenthesis holds of all
kinds of a list. -/
lemma Kind.forall_mem_listed {P : Kind → Prop} {each : List (List Kind)} (hcomma : P .comma)
    (hclose : P .closeParen) (heach : ∀ x ∈ each, ∀ k ∈ x, P k) : ∀ k ∈ Kind.listed each, P k := by
  have hall : ∀ k ∈ [Kind.comma].intercalate each, P k := by
    induction each with
    | nil => exact fun k hk => absurd hk List.not_mem_nil
    | cons x rest ih =>
      obtain ⟨hx, hrest⟩ := List.forall_mem_cons.mp heach
      cases rest with
      | nil => rwa [List.intercalate_singleton]
      | cons y rest =>
        rw [List.intercalate_cons_cons]
        exact List.forall_mem_append.mpr ⟨List.forall_mem_append.mpr
          ⟨hx, List.forall_mem_singleton.mpr hcomma⟩, ih hrest⟩
  exact List.forall_mem_append.mpr ⟨hall, List.forall_mem_singleton.mpr hclose⟩

/-- A segment is inside its line. -/
lemma Segment.isInside_kind (s : Segment) : s.kind.IsInside := by
  cases s <;> exact trivial

/-- An operator is inside its line. -/
lemma BinaryOp.isInside_kind (op : BinaryOp) : op.kind.IsInside := by
  cases op <;> exact trivial

/-- The operator of a rule is inside its line. -/
lemma RuleOp.isInside_kind (op : RuleOp) : op.kind.IsInside := by
  cases op <;> exact trivial

/-- A path is inside its line. -/
lemma Path.isInside_kinds (p : Path) : ∀ k ∈ p.kinds, k.IsInside := by
  unfold Path.kinds
  split
  · exact fun k hk => absurd hk List.not_mem_nil
  · refine List.forall_mem_cons.mpr ⟨Segment.isInside_kind _, fun k hk => ?_⟩
    obtain ⟨s, -, hk⟩ := List.mem_flatMap.mp hk
    rcases List.mem_cons.mp hk with rfl | hk
    · exact trivial
    · exact List.mem_singleton.mp hk ▸ s.isInside_kind

mutual

/-- An expression is inside its line. -/
lemma Expr.isInside_kinds : ∀ e : Expr, ∀ k ∈ e.kinds, k.IsInside
  | .number _ _ => by
    simp only [Expr.kinds, List.forall_mem_singleton]
    exact trivial
  | .path p => by
    simp only [Expr.kinds]
    exact p.isInside_kinds
  | .binary left op right _ => by
    simp only [Expr.kinds, List.forall_mem_append, List.forall_mem_cons]
    exact ⟨left.isInside_kinds, op.isInside_kind, right.isInside_kinds⟩
  | .neg inner _ => by
    simp only [Expr.kinds, List.forall_mem_cons]
    exact ⟨trivial, inner.isInside_kinds⟩
  | .call _ args _ => by
    simp only [Expr.kinds, List.forall_mem_cons]
    exact ⟨trivial, trivial,
      Kind.forall_mem_listed trivial trivial (Expr.isInside_kindsOfEach args)⟩
  | .macroUse _ _ => by
    simp only [Expr.kinds, List.forall_mem_cons]
    exact ⟨trivial, trivial, List.forall_mem_nil _⟩
  | .macroCall _ args _ => by
    simp only [Expr.kinds, List.forall_mem_cons]
    exact ⟨trivial, trivial, trivial,
      Kind.forall_mem_listed trivial trivial (Expr.isInside_kindsOfEach args)⟩
  | .paren inner _ => by
    simp only [Expr.kinds, List.forall_mem_cons, List.forall_mem_append]
    exact ⟨trivial, inner.isInside_kinds, trivial, List.forall_mem_nil _⟩

/-- Each of several expressions is inside its line. -/
lemma Expr.isInside_kindsOfEach :
    ∀ es : List Expr, ∀ x ∈ Expr.kindsOfEach es, ∀ k ∈ x, k.IsInside
  | [] => by
    simp only [Expr.kindsOfEach]
    exact fun x hx => absurd hx List.not_mem_nil
  | e :: rest => by
    simp only [Expr.kindsOfEach, List.forall_mem_cons]
    exact ⟨e.isInside_kinds, Expr.isInside_kindsOfEach rest⟩

end

/-- A precedence is inside its line. -/
lemma SpellsPrecedence.isInside {precedence : Float} {lead : List Kind}
    (h : SpellsPrecedence precedence lead) : ∀ k ∈ lead, k.IsInside := by
  cases h with
  | plain => exact List.forall_mem_singleton.mpr trivial
  | negated =>
    exact List.forall_mem_cons.mpr ⟨trivial, List.forall_mem_singleton.mpr trivial⟩

/-- The parameters of a macro are inside their line. -/
lemma isInside_paramKinds (params : Option (List Ident)) : ∀ k ∈ paramKinds params, k.IsInside := by
  cases params with
  | none => exact fun k hk => absurd hk List.not_mem_nil
  | some params =>
    have heach : ∀ x ∈ params.map fun param => [Kind.name param.text], ∀ k ∈ x, k.IsInside := by
      intro x hx
      obtain ⟨param, -, rfl⟩ := List.mem_map.mp hx
      exact List.forall_mem_singleton.mpr trivial
    simp only [paramKinds, List.forall_mem_cons]
    exact ⟨trivial, Kind.forall_mem_listed trivial trivial heach⟩

/-- An item is written on a line that is not empty, with no token that closes it before its end. -/
lemma Item.Spells.isInside {i : Item} {kinds : List Kind} (h : i.Spells kinds) :
    kinds ≠ [] ∧ ∀ k ∈ kinds, k.IsInside := by
  cases i with
  | define d =>
    obtain rfl := h
    refine ⟨List.cons_ne_nil _ _, ?_⟩
    simp only [List.forall_mem_cons, List.forall_mem_append]
    exact ⟨trivial, trivial, isInside_paramKinds _, trivial,
      d.body.isInside_kinds⟩
  | rule r =>
    obtain ⟨lead, hlead, rfl⟩ := h
    refine ⟨by simp, ?_⟩
    simp only [List.forall_mem_append, List.forall_mem_cons]
    exact ⟨hlead.isInside, trivial, r.target.isInside_kinds, r.op.isInside_kind,
      r.value.isInside_kinds⟩

end SheetRules
