import SheetRules.Proofs.Feature.Spelling
import SheetRules.Proofs.Token.Order

/-!
# Outlines

The outline of an item is what its spans are about: the item and each of its parts with their spans,
with the tokens that they are written with, and with their own parts in the order in which they are
written.  Names, parameters, paths and expressions are parts; the segments of a path have no spans
of their own.

`Outline.Covers` says that the span of every part goes from the first of its tokens to the last one,
and that the parts of a part have runs of its tokens, one after the other.  Since the tokens stand
in order, the spans are then nested: each lies inside the span that it is a part of, and those of
successive parts do not overlap (`Outline.Covers.isNested`).
-/

namespace SheetRules

/-! ### Runs of tokens -/

namespace Token

/-- Tokens of one line that stand one after the other. -/
structure IsRun (run : List Token) : Prop where
  ordered : AreOrdered run
  inside : ∀ t ∈ run, Line.isInside t = true

variable {run front back : List Token} {t u : Token}

/-- Tokens next to each other in an ordered list are ordered. -/
lemma AreOrdered.of_infix (h : AreOrdered run) (hsub : front <:+: run) : AreOrdered front :=
  ⟨h.1.sublist hsub.sublist, fun t ht => h.2 t (hsub.subset ht)⟩

/-- Some tokens of a run that are next to each other are a run. -/
lemma IsRun.of_infix (h : IsRun run) (hsub : front <:+: run) : IsRun front :=
  ⟨h.ordered.of_infix hsub, fun t ht => h.inside t (hsub.subset ht)⟩

/-- The first tokens of a run are a run. -/
lemma IsRun.left (h : IsRun (front ++ back)) : IsRun front :=
  h.of_infix (List.prefix_append front back).isInfix

/-- The last tokens of a run are a run. -/
lemma IsRun.right (h : IsRun (front ++ back)) : IsRun back :=
  h.of_infix (List.suffix_append front back).isInfix

/-- A run without its first token is a run. -/
lemma IsRun.tail (h : IsRun (t :: run)) : IsRun run :=
  h.of_infix (List.suffix_cons t run).isInfix

/-- A token of the first part comes before one of the second part. -/
lemma AreOrdered.precedes (h : AreOrdered (front ++ back)) (ht : t ∈ front) (hu : u ∈ back) :
    t.Precedes u :=
  (List.pairwise_append.mp h.1).2.2 t ht u hu

/-- The first token begins before all others. -/
lemma AreOrdered.head_le (h : AreOrdered run) (ht : run.head? = some t) (hu : u ∈ run) :
    t.span.first.le u.span.first = true := by
  obtain ⟨rest, rfl⟩ := List.head?_eq_some_iff.mp ht
  rcases List.mem_cons.mp hu with rfl | hu
  · exact Place.le_refl _
  · have hprecedes : t.Precedes u := (List.pairwise_cons.mp h.1).1 u hu
    exact Place.le_trans (h.2 t List.mem_cons_self) hprecedes.1

/-- The last token ends after all others. -/
lemma AreOrdered.le_getLast (h : AreOrdered run) (ht : run.getLast? = some t) (hu : u ∈ run) :
    u.span.last.le t.span.last = true := by
  obtain ⟨rest, rfl⟩ := List.getLast?_eq_some_iff.mp ht
  rcases List.mem_append.mp hu with hu | hu
  · have hprecedes : u.Precedes t := h.precedes hu (List.mem_singleton_self t)
    exact Place.le_trans hprecedes.1 (h.2 t (List.mem_append_right _ (List.mem_singleton_self t)))
  · rw [List.mem_singleton.mp hu]
    exact Place.le_refl _

end Token

open Token

namespace Span

variable {span other : Span} {run front middle back : List Token}

/-- The span goes from the first to the last of the tokens. -/
def Covers (span : Span) (run : List Token) : Prop :=
  ∃ t u, run.head? = some t ∧ run.getLast? = some u ∧
    span.first = t.span.first ∧ span.last = u.span.last

/-- A token is covered by its span. -/
lemma covers_singleton (t : Token) : t.span.Covers [t] :=
  ⟨t, t, rfl, rfl, rfl, rfl⟩

/-- Merging what is covered at both ends covers the whole run. -/
lemma Covers.merge (h : AreOrdered run) (hspan : span.Covers front) (hfront : front <+: run)
    (hother : other.Covers back) (hback : back <:+ run) : (span.merge other).Covers run := by
  obtain ⟨t, u, ht, hu, hfirst, hlast⟩ := hspan
  obtain ⟨t', u', ht', hu', hfirst', hlast'⟩ := hother
  have hrun : run.head? = some t := by
    obtain ⟨more, rfl⟩ := hfront
    rw [List.head?_append, ht, Option.some_or]
  have hrun' : run.getLast? = some u' := by
    obtain ⟨more, rfl⟩ := hback
    rw [List.getLast?_append, hu', Option.some_or]
  have hle : span.first.le other.first = true := by
    rw [hfirst, hfirst']
    exact h.head_le hrun (hback.subset (List.mem_of_mem_head? ht'))
  have hle' : span.last.le other.last = true := by
    rw [hlast, hlast']
    exact h.le_getLast hrun' (hfront.subset (List.mem_of_getLast? hu))
  refine ⟨t, u', hrun, hrun', ?_, ?_⟩
  · rw [← hfirst]
    exact if_pos hle
  · rw [← hlast']
    exact if_pos hle'

/-- A merged span begins no later than the first of the two. -/
lemma merge_first_le (span other : Span) : (span.merge other).first.le span.first = true := by
  have hfirst : (span.merge other).first =
      if span.first.le other.first then span.first else other.first := rfl
  rw [hfirst]
  split
  · exact Place.le_refl _
  · rename_i hle
    exact Place.le_of_not_le hle

/-- A merged span ends no earlier than the second of the two. -/
lemma le_merge_last (span other : Span) : other.last.le (span.merge other).last = true := by
  have hlast : (span.merge other).last =
      if span.last.le other.last then other.last else span.last := rfl
  rw [hlast]
  split
  · exact Place.le_refl _
  · rename_i hle
    exact Place.le_of_not_le hle

/-- What is covered by a part of a run lies inside what the run covers. -/
lemma Covers.isInside (h : AreOrdered run) (hspan : span.Covers run)
    (hother : other.Covers middle) (hsub : middle <:+: run) : other.IsInside span := by
  obtain ⟨t, u, ht, hu, hfirst, hlast⟩ := hspan
  obtain ⟨t', u', ht', hu', hfirst', hlast'⟩ := hother
  refine ⟨?_, ?_⟩
  · rw [hfirst, hfirst']
    exact h.head_le ht (hsub.subset (List.mem_of_mem_head? ht'))
  · rw [hlast, hlast']
    exact h.le_getLast hu (hsub.subset (List.mem_of_getLast? hu'))

/-- What is covered by a run ends before what is covered by a later one. -/
lemma Covers.before (h : AreOrdered (front ++ back)) (hinside : ∀ t ∈ front, Line.isInside t = true)
    (hspan : span.Covers front) (hother : other.Covers middle) (hsub : middle <:+: back) :
    span.Before other := by
  obtain ⟨t, u, ht, hu, hfirst, hlast⟩ := hspan
  obtain ⟨t', u', ht', hu', hfirst', hlast'⟩ := hother
  have hu := List.mem_of_getLast? hu
  have hprecedes := h.precedes hu (hsub.subset (List.mem_of_mem_head? ht'))
  rw [Before, hlast, hfirst']
  exact hprecedes.2 (hinside u hu)

end Span

/-! ### Parts in parts -/

/-- A part of a feature with its span, the ways to write it, and its own parts in the order in which
they are written. -/
inductive Outline where
  | node (span : Span) (spells : List Kind → Prop) (parts : List Outline)

namespace Outline

/-- The span of an outline. -/
def span : Outline → Span
  | .node span _ _ => span

mutual

/-- The tokens are a way to write the outline, its span goes from the first to the last of them, and
so do the spans of its parts. -/
def Covers : Outline → List Token → Prop
  | .node span spells parts, run =>
    IsRun run ∧ span.Covers run ∧ spells (run.map Token.kind) ∧ InOrder parts run

/-- The outlines cover runs of the tokens, one after the other. -/
def InOrder : List Outline → List Token → Prop
  | [], _ => True
  | part :: rest, tokens => ∃ before run after : List Token,
      tokens = before ++ (run ++ after) ∧ part.Covers run ∧ InOrder rest after

end

mutual

/-- The spans of the parts of an outline lie inside its own, and each ends before the next one
begins; and so on for their own parts. -/
def IsNested : Outline → Prop
  | .node span _ parts => (∀ part ∈ parts, part.span.IsInside span) ∧
      (parts.Pairwise fun part next => part.span.Before next.span) ∧ AreNested parts

/-- The outlines are nested. -/
def AreNested : List Outline → Prop
  | [] => True
  | part :: rest => part.IsNested ∧ AreNested rest

end

variable {part : Outline} {parts more : List Outline} {run tokens rest gap : List Token}

/-! ### Putting outlines together -/

/-- No parts are in order in any tokens. -/
lemma inOrder_nil (tokens : List Token) : InOrder [] tokens := by
  rw [InOrder]
  exact trivial

/-- Tokens in front of the parts make no difference. -/
lemma InOrder.skip (gap : List Token) (h : InOrder parts tokens) :
    InOrder parts (gap ++ tokens) := by
  cases parts with
  | nil => exact inOrder_nil _
  | cons part parts =>
    rw [InOrder] at h ⊢
    obtain ⟨before, run, after, rfl, hpart, hparts⟩ := h
    exact ⟨gap ++ before, run, after, (List.append_assoc ..).symm, hpart, hparts⟩

/-- Parts in order, and after them more parts in order. -/
lemma InOrder.append (h : InOrder parts tokens) (hmore : InOrder more rest) :
    InOrder (parts ++ more) (tokens ++ rest) := by
  induction parts generalizing tokens with
  | nil => exact hmore.skip tokens
  | cons part parts ih =>
    rw [InOrder] at h
    obtain ⟨before, run, after, rfl, hpart, hparts⟩ := h
    rw [List.cons_append, InOrder]
    refine ⟨before, run, after ++ rest, ?_, hpart, ih hparts⟩
    rw [List.append_assoc, List.append_assoc]

/-- Tokens after the parts make no difference. -/
lemma InOrder.extend (h : InOrder parts tokens) (rest : List Token) :
    InOrder parts (tokens ++ rest) := by
  have happend := h.append (inOrder_nil rest)
  rwa [List.append_nil] at happend

/-- One part that covers its tokens is in order. -/
lemma Covers.inOrder (h : part.Covers run) : InOrder [part] run := by
  rw [InOrder]
  exact ⟨[], run, [], (List.append_nil run).symm, h, inOrder_nil []⟩

/-! ### Nesting -/

/-- A part that covers tokens does so by its span. -/
lemma Covers.span_covers (h : part.Covers run) : part.span.Covers run := by
  cases part with
  | node span spells parts =>
    rw [Covers] at h
    exact h.2.1

/-- What is covered is a run. -/
lemma Covers.isRun (h : part.Covers run) : IsRun run := by
  cases part with
  | node span spells parts =>
    rw [Covers] at h
    exact h.1

/-- Each of the parts covers some of the tokens. -/
lemma InOrder.exists_infix (h : InOrder parts tokens) :
    ∀ part ∈ parts, ∃ run, run <:+: tokens ∧ part.Covers run := by
  induction parts generalizing tokens with
  | nil => exact List.forall_mem_nil _
  | cons part parts ih =>
    rw [InOrder] at h
    obtain ⟨before, run, after, rfl, hpart, hparts⟩ := h
    refine List.forall_mem_cons.mpr ⟨⟨run, ⟨before, after, List.append_assoc ..⟩, hpart⟩, ?_⟩
    intro other hother
    obtain ⟨run', hrun', hcovers⟩ := ih hparts other hother
    have hsuffix : after <:+ before ++ (run ++ after) :=
      (List.suffix_append run after).trans (List.suffix_append before _)
    exact ⟨run', hrun'.trans hsuffix.isInfix, hcovers⟩

/-- Each of the parts ends before the next one begins. -/
lemma InOrder.pairwise (h : InOrder parts tokens) (hordered : AreOrdered tokens) :
    parts.Pairwise fun part next => part.span.Before next.span := by
  induction parts generalizing tokens with
  | nil => exact .nil
  | cons part parts ih =>
    rw [InOrder] at h
    obtain ⟨before, run, after, rfl, hpart, hparts⟩ := h
    have hrest : AreOrdered (run ++ after) :=
      hordered.of_infix (List.suffix_append before _).isInfix
    refine List.pairwise_cons.mpr ⟨fun next hnext => ?_, ?_⟩
    · obtain ⟨run', hrun', hnext⟩ := hparts.exists_infix next hnext
      exact hpart.span_covers.before hrest hpart.isRun.inside hnext.span_covers hrun'
    · exact ih hparts (hrest.of_infix (List.suffix_append run after).isInfix)

mutual

/-- Spans that cover their tokens are nested. -/
theorem Covers.isNested : ∀ {part : Outline} {run : List Token}, part.Covers run → part.IsNested
  | .node span spells parts, run, h => by
    rw [Covers] at h
    obtain ⟨hrun, hspan, -, hparts⟩ := h
    rw [IsNested]
    refine ⟨fun part hpart => ?_, hparts.pairwise hrun.ordered, hparts.areNested⟩
    obtain ⟨run', hrun', hcovers⟩ := hparts.exists_infix part hpart
    exact hspan.isInside hrun.ordered hcovers.span_covers hrun'

/-- Parts that are in order are nested. -/
lemma InOrder.areNested :
    ∀ {parts : List Outline} {tokens : List Token}, InOrder parts tokens → AreNested parts
  | [], _, _ => by
    rw [AreNested]
    exact trivial
  | part :: parts, tokens, h => by
    rw [InOrder] at h
    obtain ⟨before, run, after, -, hpart, hparts⟩ := h
    rw [AreNested]
    exact ⟨hpart.isNested, hparts.areNested⟩

end

end Outline

/-! ### The outlines of items -/

/-- The outline of what is written in one way only. -/
def Outline.written (span : Span) (kinds : List Kind) (parts : List Outline) : Outline :=
  .node span (· = kinds) parts

/-- A written part covers the tokens of its kinds. -/
lemma Outline.covers_written {span : Span} {kinds : List Kind} {parts : List Outline}
    {run : List Token} : (Outline.written span kinds parts).Covers run ↔
      IsRun run ∧ span.Covers run ∧ run.map Token.kind = kinds ∧ InOrder parts run := by
  rw [written, Covers]

/-- A name has no parts. -/
def Ident.outline (name : Ident) : Outline :=
  .written name.span [.name name.text] []

/-- The segments of a path have no spans. -/
def Path.outline (p : Path) : Outline :=
  .written p.span p.kinds []

namespace Expr

mutual

/-- The parts of an expression that have spans. -/
def parts : Expr → List Outline
  | .number _ _ => []
  | .path _ => []
  | .binary left _ right _ =>
    [.written left.span left.kinds left.parts, .written right.span right.kinds right.parts]
  | .neg inner _ => [.written inner.span inner.kinds inner.parts]
  | .call name args _ => name.outline :: outlines args
  | .macroUse name _ => [name.outline]
  | .macroCall name args _ => name.outline :: outlines args
  | .paren inner _ => [.written inner.span inner.kinds inner.parts]

/-- The outlines of several expressions. -/
def outlines : List Expr → List Outline
  | [] => []
  | e :: rest => .written e.span e.kinds e.parts :: outlines rest

end

/-- The outline of an expression. -/
def outline (e : Expr) : Outline :=
  .written e.span e.kinds e.parts

/-- Expressions are outlined one by one. -/
lemma outlines_eq_map (es : List Expr) : outlines es = es.map outline := by
  induction es with
  | nil => rw [outlines, List.map_nil]
  | cons e rest ih => rw [outlines, ih, List.map_cons, outline]

end Expr

namespace Item

/-- Where an item stands. -/
def span : Item → Span
  | .define d => d.span
  | .rule r => r.span

/-- The parts of an item: the name, the parameters and the body of a macro, or the target and the
value of a rule. -/
def parts : Item → List Outline
  | .define d => d.name.outline :: ((d.params.getD []).map Ident.outline ++ [d.body.outline])
  | .rule r => [r.target.outline, r.value.outline]

/-- The outline of an item. -/
def outline (i : Item) : Outline :=
  .node i.span i.Spells i.parts

end Item

/-- The outline of a feature, whose tokens are those of a whole text. -/
def Feature.outline (feature : Feature) : Outline :=
  .node feature.span (fun _ => True) (feature.items.map Item.outline)

end SheetRules
