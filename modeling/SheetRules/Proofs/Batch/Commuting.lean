import SheetRules.Proofs.Batch.Runs

/-!
# Statements that change places

Two independent statements, each of which neither reads nor writes what the other one writes, can be
executed in either order.  In a batch that goes on after failures they can change places in the list
as long as this moves them past no statement that is executed between them.
-/

namespace SheetRules

namespace Batch

/-- Statements that are executed one after the other in either order leave the same store. -/
lemma storeAfter_swap {s t : Statement} (h : s.IndependentOf t) (limit : Nat)
    (first last : List Statement) (store : Store) :
    storeAfter limit (first ++ s :: t :: last) store =
      storeAfter limit (first ++ t :: s :: last) store := by
  have hcomm := (h.symm.execute_comm limit (storeAfter limit first store)).2
  simp only [storeAfter_append, storeAfter_cons, hcomm]

/-- Independent statements of a list can change places if none of those between them is executed
between them. -/
theorem run_carryOn_swap {s t : Statement} (h : s.IndependentOf t) {between : List Statement}
    (hbetween : NoneBetween s t between) (before after : List Statement) (limit : Nat)
    (store : Store) :
    (run ⟨.carryOn, limit⟩ (before ++ s :: (between ++ t :: after)) store).2 =
      (run ⟨.carryOn, limit⟩ (before ++ t :: (between ++ s :: after)) store).2 := by
  rw [run_carryOn, run_carryOn]
  rcases inOrder_swap hbetween before after with hsame | ⟨first, last, hfirst, hswapped⟩
  · simp only [hsame]
  · simp only [hfirst, hswapped, storeAfter_swap h]

end Batch

/-- **Independent statements commute.**  If neither target is the other one or leads to it, and no
path that one statement reads is the target of the other one, leads to it or extends it, then the
two statements leave the same store in either order, and each gives the same value or an error of
the same kind in both.  Hence they can change places in a batch that goes on after failures, where
no statement is executed between them: for statements of equal precedence, where none between them
in the list has this precedence as well. -/
theorem Statement.IndependentOf.commute {s t : Statement} (h : s.IndependentOf t) (limit : Nat)
    (store : Store) :
    let sFirst := s.execute limit store
    let tSecond := t.execute limit sFirst.2
    let tFirst := t.execute limit store
    let sSecond := s.execute limit tFirst.2
    tSecond.2 = sSecond.2 ∧ SameOutcome sFirst.1 sSecond.1 ∧ SameOutcome tFirst.1 tSecond.1 ∧
      ∀ before between after : List Statement, Batch.NoneBetween s t between →
        (Batch.run ⟨.carryOn, limit⟩ (before ++ s :: (between ++ t :: after)) store).2 =
          (Batch.run ⟨.carryOn, limit⟩ (before ++ t :: (between ++ s :: after)) store).2 := by
  intro sFirst tSecond tFirst sSecond
  obtain ⟨hs, hstore⟩ := h.execute_comm limit store
  obtain ⟨ht, -⟩ := h.symm.execute_comm limit store
  refine ⟨hstore.symm, hs.symm, ht.symm, ?_⟩
  intro before between after hbetween
  exact Batch.run_carryOn_swap h hbetween before after limit store

/-- Sets an attribute from another one. -/
def hitPoints : Statement :=
  ⟨1, "hits.max", .set, .combine .multiply [.dynamic "level", .static 6]⟩

/-- Appends a number to a list that stands in the same object. -/
def hitRoll : Statement :=
  ⟨1, "hits.rolls", .push, .dynamic "die"⟩

/-- Reads what one of the two writes, with a later precedence. -/
def halfHitPoints : Statement :=
  ⟨2, "bloodied", .set, .combine .multiply [.dynamic "hits.max", .static 0.5]⟩

/-- Whichever of the two statements comes first creates the object of their targets. -/
theorem hitPoints_commute_hitRoll :
    let store : Store := ⟨[("die", .number (.int 4)), ("level", .number (.int 5))]⟩
    (hitPoints.execute 60 store).1.isOk ∧ (hitRoll.execute 60 store).1.isOk ∧
      (hitRoll.execute 60 (hitPoints.execute 60 store).2).2 =
        (hitPoints.execute 60 (hitRoll.execute 60 store).2).2 ∧
      (Batch.run ⟨.carryOn, 60⟩ [hitPoints, halfHitPoints, hitRoll] store).2 =
        (Batch.run ⟨.carryOn, 60⟩ [hitRoll, halfHitPoints, hitPoints] store).2 := by
  intro store
  have hindependent : hitPoints.IndependentOf hitRoll :=
    ⟨by decide +kernel, by decide +kernel, by decide +kernel⟩
  have hbetween : Batch.NoneBetween hitPoints hitRoll [halfHitPoints] := by decide +kernel
  obtain ⟨hstore, -, -, hswap⟩ := Statement.IndependentOf.commute hindependent 60 store
  exact ⟨by decide +kernel, by decide +kernel, hstore, hswap [] [halfHitPoints] [] hbetween⟩

end SheetRules
