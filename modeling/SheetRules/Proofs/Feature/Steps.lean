import Mathlib.Tactic.Common
import SheetRules.Feature.Parser
import SheetRules.Proofs.Feature.Spelling

/-!
# Single steps of reading

How readers are run one after the other, and what the readers of a single token do at a place that
is known.
-/

namespace SheetRules

namespace Parser

variable {α β : Type} {p : Parser α} {c d : Cursor} {a : α} {fault : Fault}

/-- A reader that has found something is followed by the next one. -/
lemma bind_of_ok (h : p c = .ok (a, d)) (f : α → Parser β) : (p >>= f) c = f a d := by
  change (p c >>= fun r => f r.1 r.2) = _
  rw [h]
  rfl

/-- A reader that has failed is followed by none. -/
lemma bind_of_error (h : p c = .error fault) (f : α → Parser β) :
    (p >>= f) c = .error fault := by
  change (p c >>= fun r => f r.1 r.2) = _
  rw [h]
  rfl

variable {t : Token} {rest : List Token} {stop : Token} {kind : Kind}

/-- A token of the kind is passed. -/
lemma eat_of_eq (h : t.kind = kind) : eat kind ⟨t :: rest, stop⟩ = .ok (true, ⟨rest, stop⟩) := by
  change (if t.kind = kind then _ else _ : Parser Bool) _ = _
  rw [if_pos h]
  rfl

/-- A token of another kind is left. -/
lemma eat_of_ne (h : c.current.kind ≠ kind) : eat kind c = .ok (false, c) := by
  change (if c.current.kind = kind then _ else _ : Parser Bool) _ = _
  rw [if_neg h]
  rfl

/-- The token that is asked for is found. -/
lemma expect_of_eq (h : t.kind = kind) : expect kind ⟨t :: rest, stop⟩ = .ok (t, ⟨rest, stop⟩) := by
  change (if t.kind = kind then _ else _ : Parser Token) _ = _
  rw [if_pos h]
  rfl

/-- A name is found. -/
lemma ident_of_eq {text : String} (h : t.kind = .name text) :
    ident ⟨t :: rest, stop⟩ = .ok (⟨text, t.span⟩, ⟨rest, stop⟩) := by
  obtain ⟨kind, span⟩ := t
  cases h
  rfl

/-- A segment is found. -/
lemma segment_of_eq {s : Segment} (h : t.kind = s.kind) :
    segment ⟨t :: rest, stop⟩ = .ok ((s, t.span), ⟨rest, stop⟩) := by
  obtain ⟨kind, span⟩ := t
  cases s <;> cases h <;> rfl

/-- A precedence is found. -/
lemma precedence_of_eq {value : Float} (h : t.kind = .number value) :
    precedence ⟨t :: rest, stop⟩ = .ok (value, ⟨rest, stop⟩) := by
  obtain ⟨kind, span⟩ := t
  cases h
  rfl

/-- An operator of a rule is found. -/
lemma ruleOp_of_eq {op : RuleOp} (h : t.kind = op.kind) :
    ruleOp ⟨t :: rest, stop⟩ = .ok (op, ⟨rest, stop⟩) := by
  obtain ⟨kind, span⟩ := t
  cases op <;> cases h <;> rfl

/-- A call is seen by the parenthesis that is the next token but one. -/
lemma opensCall_cases (c : Cursor) :
    (∃ t paren more, c.rest = t :: paren :: more ∧ paren.kind = .openParen ∧
      Level.opensCall c = .ok (true, c)) ∨ Level.opensCall c = .ok (false, c) := by
  unfold Level.opensCall
  split
  · rename_i t span more hrest
    exact .inl ⟨t, ⟨.openParen, span⟩, more, hrest, rfl, rfl⟩
  · exact .inr rfl

end Parser

end SheetRules
