import Mathlib.Tactic.Common
import SheetRules.Feature.Basic

/-!
# Changing the spans of an item

An item carries the spans of all its parts.  `mapSpans` changes every one of them and leaves the
rest as it is.  Moving a text down by some lines is one such change, and it goes through the merging
of spans, which is all that reading does with them; forgetting where everything stands is another.
-/

namespace SheetRules

/-! ### Changes -/

namespace Span

/-- The change can be made before or after merging spans. -/
def RespectsMerge (f : Span → Span) : Prop :=
  ∀ s t, f (s.merge t) = (f s).merge (f t)

/-- The same span some lines further down. -/
def down (lines : Nat) (s : Span) : Span :=
  ⟨s.line + lines, s.column, s.endLine + lines, s.endColumn⟩

/-- The span of nothing in particular. -/
def anywhere (_ : Span) : Span := .point .start

/-- Leaving spans as they are goes through merging. -/
lemma respectsMerge_id : RespectsMerge id := fun _ _ => rfl

/-- Moving spans down by some lines goes through merging. -/
lemma respectsMerge_down (lines : Nat) : RespectsMerge (down lines) := by
  intro s t
  have hle : ∀ p q : Place,
      Place.le ⟨p.line + lines, p.column⟩ ⟨q.line + lines, q.column⟩ = p.le q := by
    intro p q
    rw [Bool.eq_iff_iff]
    simp [Place.le]
  have hfirst : ((s.down lines).first).le (t.down lines).first = s.first.le t.first :=
    hle s.first t.first
  have hlast : ((s.down lines).last).le (t.down lines).last = s.last.le t.last :=
    hle s.last t.last
  simp only [merge, hfirst, hlast]
  cases s.first.le t.first <;> cases s.last.le t.last <;> rfl

end Span

/-! ### The parts of an item -/

variable (f : Span → Span)

/-- A token with its span changed. -/
def Token.mapSpan (t : Token) : Token := ⟨t.kind, f t.span⟩

/-- A name with its span changed. -/
def Ident.mapSpan (name : Ident) : Ident := ⟨name.text, f name.span⟩

/-- A path with its span changed. -/
def Path.mapSpan (p : Path) : Path := ⟨p.segments, f p.span⟩

namespace Expr

mutual

/-- An expression with all its spans changed. -/
def mapSpans : Expr → Expr
  | .number value span => .number value (f span)
  | .path p => .path (p.mapSpan f)
  | .binary left op right span => .binary left.mapSpans op right.mapSpans (f span)
  | .neg inner span => .neg inner.mapSpans (f span)
  | .call name args span => .call (name.mapSpan f) (mapSpansOfAll args) (f span)
  | .macroUse name span => .macroUse (name.mapSpan f) (f span)
  | .macroCall name args span => .macroCall (name.mapSpan f) (mapSpansOfAll args) (f span)
  | .paren inner span => .paren inner.mapSpans (f span)

/-- Several expressions with all their spans changed. -/
def mapSpansOfAll : List Expr → List Expr
  | [] => []
  | e :: rest => e.mapSpans :: mapSpansOfAll rest

end

/-- Expressions are changed one by one. -/
lemma mapSpansOfAll_eq_map (es : List Expr) : mapSpansOfAll f es = es.map (mapSpans f) := by
  induction es with
  | nil => simp only [mapSpansOfAll, List.map_nil]
  | cons e rest ih => simp only [mapSpansOfAll, ih, List.map_cons]

/-- The span of an expression changes like all the others. -/
@[simp] lemma span_mapSpans (e : Expr) : (e.mapSpans f).span = f e.span := by
  cases e <;> simp only [mapSpans, span, Path.mapSpan]

mutual

/-- Nothing changes if no span does. -/
lemma mapSpans_id : ∀ e : Expr, e.mapSpans id = e
  | .number _ _ => by simp only [mapSpans, id]
  | .path _ => by simp only [mapSpans, Path.mapSpan, id]
  | .binary left _ right _ => by simp only [mapSpans, mapSpans_id left, mapSpans_id right, id]
  | .neg inner _ => by simp only [mapSpans, mapSpans_id inner, id]
  | .call _ args _ => by simp only [mapSpans, Ident.mapSpan, mapSpansOfAll_id args, id]
  | .macroUse _ _ => by simp only [mapSpans, Ident.mapSpan, id]
  | .macroCall _ args _ => by simp only [mapSpans, Ident.mapSpan, mapSpansOfAll_id args, id]
  | .paren inner _ => by simp only [mapSpans, mapSpans_id inner, id]

/-- Leaving spans as they are leaves expressions as they are. -/
lemma mapSpansOfAll_id : ∀ es : List Expr, mapSpansOfAll id es = es
  | [] => by simp only [mapSpansOfAll]
  | e :: rest => by simp only [mapSpansOfAll, mapSpans_id e, mapSpansOfAll_id rest]

end

end Expr

/-- A rule with all its spans changed. -/
def Rule.mapSpans (r : Rule) : Rule :=
  ⟨r.precedence, r.target.mapSpan f, r.op, r.value.mapSpans f, f r.span⟩

/-- The definition of a macro with all its spans changed. -/
def MacroDef.mapSpans (d : MacroDef) : MacroDef :=
  ⟨d.name.mapSpan f, d.params.map (List.map (Ident.mapSpan f)), d.body.mapSpans f, f d.span⟩

/-- An item with all its spans changed. -/
def Item.mapSpans : Item → Item
  | .define d => .define (d.mapSpans f)
  | .rule r => .rule (r.mapSpans f)

/-- Leaving spans as they are leaves items as they are. -/
lemma Item.mapSpans_id (i : Item) : i.mapSpans id = i := by
  have hidents : List.map (Ident.mapSpan id) = id := by
    funext names
    exact List.map_id names
  cases i with
  | define d => simp [mapSpans, MacroDef.mapSpans, Ident.mapSpan, Expr.mapSpans_id, hidents]
  | rule r => simp [mapSpans, Rule.mapSpans, Path.mapSpan, Expr.mapSpans_id]

end SheetRules
