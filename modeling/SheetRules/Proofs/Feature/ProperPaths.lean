import Mathlib.Tactic.Common
import SheetRules.Proofs.Feature.Paths
import SheetRules.Proofs.Feature.Soundness
import SheetRules.Token.Scan

/-!
# The paths of a feature are proper

Scanning makes names only from characters of names: this is a property of the pieces that a text is
cut into.  An item that is read from a line is spelled by the tokens of the line, so the segments of
its paths are among these tokens.  Together they say that all paths of a feature that is read from a
text are proper, whatever the text.
-/

namespace SheetRules

/-! ### Tokens -/

/-- A name or a template that the token holds is a name. -/
def Kind.IsProper : Kind → Prop
  | .name text => IsName text
  | .template text => IsName text
  | _ => True

namespace Piece

/-- A token that is cut from a text is proper. -/
def IsProper (piece : Piece) : Prop :=
  ∀ kind, piece.token? = some kind → kind.IsProper

end Piece

/-- The attribute paths that an item is written with. -/
def Item.paths : Item → List Path
  | .define d => d.body.paths
  | .rule r => r.target :: r.value.paths

/-- The attribute paths that a feature is written with. -/
def Feature.paths (feature : Feature) : List Path :=
  feature.items.flatMap Item.paths

/-- The path has segments, and the tokens of all of them are among the given ones. -/
def Path.IsWrittenIn (p : Path) (kinds : List Kind) : Prop :=
  p.segments ≠ [] ∧ ∀ segment ∈ p.segments, segment.kind ∈ kinds

/-- A path that is written in some tokens is written in more of them. -/
lemma Path.IsWrittenIn.mono {p : Path} {kinds more : List Kind} (h : p.IsWrittenIn kinds)
    (hsubset : kinds ⊆ more) : p.IsWrittenIn more :=
  ⟨h.1, fun segment hsegment => hsubset (h.2 segment hsegment)⟩

/-- The tokens of a line are tokens of the text, and so is the one that closes it, if the text has
one there. -/
lemma Line.mem_of_mem_split {last : Span} {tokens : List Token} {line : Line}
    (hline : line ∈ (Line.split last tokens).1) :
    (∀ t ∈ line.tokens, t ∈ tokens) ∧ (line.stop ∈ tokens ∨ line.stop = Line.noToken) := by
  fun_induction Line.split last tokens with
  | case1 => exact absurd hline List.not_mem_nil
  | case2 => exact absurd hline List.not_mem_nil
  | case3 last t rest hkind ih =>
    obtain ⟨htokens, hstop⟩ := ih hline
    exact ⟨fun u hu => List.mem_cons_of_mem _ (htokens u hu),
      hstop.imp_left (List.mem_cons_of_mem _)⟩
  | case4 last t rest tokens after final lines finish heq hend hnewline ih =>
    have hafter : ∀ u ∈ after, u ∈ t :: rest := fun u hu =>
      List.mem_cons_of_mem _ ((List.dropWhile_suffix _).subset hu)
    rcases List.mem_cons.mp hline with rfl | hline
    · refine ⟨fun u hu => ?_, ?_⟩
      · rcases List.mem_cons.mp hu with rfl | hu
        · exact List.mem_cons_self ..
        · exact List.mem_cons_of_mem _ ((List.takeWhile_sublist _).subset hu)
      · cases hcut : after with
        | nil => exact .inr rfl
        | cons u more => exact .inl (hafter u (by simp [hcut]))
    · rw [heq] at ih
      obtain ⟨htokens, hstop⟩ := ih hline
      exact ⟨fun u hu => hafter u (htokens u hu), hstop.imp_left (hafter _)⟩

end SheetRules
