import Mathlib.Tactic.Common

/-!
# Chains of steps that may fail

A chain of steps succeeds if all of them do, and ends at the first one that fails.  Where the steps
share a state, a step that fails leaves the state as it was changed before.
-/

namespace SheetRules

/-- A chain of two steps succeeds if both steps do. -/
lemma bind_eq_ok_iff {ε β γ : Type} {x : Except ε β} {f : β → Except ε γ} {c : γ} :
    (x >>= f) = .ok c ↔ ∃ b, x = .ok b ∧ f b = .ok c := by
  cases x with
  | error e =>
    constructor
    · intro h
      cases h
    · rintro ⟨b, hb, -⟩
      cases hb
  | ok b =>
    constructor
    · intro h
      exact ⟨b, rfl, h⟩
    · rintro ⟨_, ⟨⟩, h⟩
      exact h

/-- A chain of two steps fails in the first step or in the second. -/
lemma bind_eq_error {ε β γ : Type} {x : Except ε β} {f : β → Except ε γ} {e : ε}
    (h : (x >>= f) = .error e) : x = .error e ∨ ∃ b, x = .ok b ∧ f b = .error e := by
  cases x with
  | error _ =>
    cases h
    exact .inl rfl
  | ok b => exact .inr ⟨b, rfl, h⟩

section States

variable {ε σ β γ : Type} {x : ExceptT ε (StateM σ) β} {f : β → ExceptT ε (StateM σ) γ} {s s' : σ}

/-- After a step that succeeds, the next one is taken in the state that it leaves. -/
lemma stateBind_of_ok {b : β} (h : x s = (.ok b, s')) : (x >>= f) s = f b s' := by
  have hbind : (x >>= f) s = ExceptT.bindCont f (x s).1 (x s).2 := rfl
  rw [hbind, h]
  rfl

/-- After a step that fails, no other is taken, and the state is the one that it leaves. -/
lemma stateBind_of_error {e : ε} (h : x s = (.error e, s')) : (x >>= f) s = (.error e, s') := by
  have hbind : (x >>= f) s = ExceptT.bindCont f (x s).1 (x s).2 := rfl
  rw [hbind, h]
  rfl

end States

/-- Another reason for a failure leaves success as it is. -/
lemma mapError_eq_ok_iff {α ε ε' : Type} {x : Except ε α} {f : ε → ε'} {a : α} :
    x.mapError f = .ok a ↔ x = .ok a := by
  cases x with
  | error e => exact ⟨nofun, nofun⟩
  | ok b => simp [Except.mapError]

end SheetRules
