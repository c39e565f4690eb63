import Mathlib.Tactic.Common
import SheetRules.Proofs.Batch.Errors
import SheetRules.Proofs.Store.Nodes

/-!
# What executing a statement depends on

A statement depends on the store through the paths that its operand reads and through its target.
Where two stores have the same numbers at the paths of a tree, the tree has the same value in both,
or it fails in both for the same kind of reason; only the wording may differ, since a path can end
earlier in one store than in the other.  What a statement does to the store is one write, and
nothing if it fails.

So two statements can change places if neither reads or writes what the other writes.
-/

namespace SheetRules

/-! ### Outcomes -/

/-- The kinds of errors that a host tells apart. -/
inductive RunError.Kind where
  | unresolved
  | invalidTarget
  | emptyOperands
  | trap
  | tooDeep
deriving DecidableEq, Repr

/-- The kind of an error; values that are no numbers are one kind, wherever they turn up. -/
def RunError.kind : RunError → RunError.Kind
  | .unresolved _ _ => .unresolved
  | .invalidTarget _ _ => .invalidTarget
  | .emptyOperands _ => .emptyOperands
  | .nodeTrap _ _ => .trap
  | .storeTrap _ _ => .trap
  | .tooDeep _ => .tooDeep

/-- Both give the same value, or both fail with errors of the same kind. -/
inductive SameOutcome {β : Type} : Except RunError β → Except RunError β → Prop
  | ok (v : β) : SameOutcome (.ok v) (.ok v)
  | error {e e' : RunError} (h : e.kind = e'.kind) : SameOutcome (.error e) (.error e')

namespace SameOutcome

variable {β γ : Type} {x y : Except RunError β}

/-- Every outcome is the same as itself. -/
@[refl] lemma refl (x : Except RunError β) : SameOutcome x x := by
  cases x with
  | ok v => exact .ok v
  | error e => exact .error rfl

/-- Two outcomes are the same whichever of them comes first. -/
lemma symm (h : SameOutcome x y) : SameOutcome y x := by
  cases h with
  | ok v => exact .ok v
  | error h => exact .error h.symm

/-- A chain goes on with the same value, or it ends with the error of its first step. -/
lemma bind (h : SameOutcome x y) {f g : β → Except RunError γ}
    (hfg : ∀ v, SameOutcome (f v) (g v)) : SameOutcome (x >>= f) (y >>= g) := by
  cases h with
  | ok v => exact hfg v
  | error h => exact .error h

/-- The two outcomes, taken apart. -/
lemma cases_eq (h : SameOutcome x y) :
    (∃ v, x = .ok v ∧ y = .ok v) ∨ ∃ e e', x = .error e ∧ y = .error e' ∧ e.kind = e'.kind := by
  cases h with
  | ok v => exact .inl ⟨v, rfl, rfl⟩
  | error h => exact .inr ⟨_, _, rfl, rfl, h⟩

end SameOutcome

/-! ### Evaluating over two stores -/

namespace Tree

variable {α : Type} [Arithmetic α] {read read' : String → Except RunError α} {limit : Nat}

mutual

/-- A tree has the same outcome wherever its paths have. -/
theorem sameOutcome_evalWithin : ∀ (t : Tree α) (left : Nat),
    (∀ path ∈ t.paths, SameOutcome (read path) (read' path)) →
      SameOutcome (t.evalWithin limit read left) (t.evalWithin limit read' left)
  | t, 0, _ => by
    cases t <;> exact .refl _
  | .static _, _ + 1, _ => .refl _
  | .dynamic path, _ + 1, h =>
    (h path (List.mem_singleton_self path)).bind fun _ => .refl _
  | .combine _ operands, left + 1, h =>
    (sameOutcome_evalAllWithin operands left h).bind fun _ => .refl _
  | .floor operand, left + 1, h => (sameOutcome_evalWithin operand left h).bind fun _ => .refl _

/-- Operands that read the same come to the same. -/
lemma sameOutcome_evalAllWithin : ∀ (ts : List (Tree α)) (left : Nat),
    (∀ path ∈ pathsOfAll ts, SameOutcome (read path) (read' path)) →
      SameOutcome (evalAllWithin limit read ts left) (evalAllWithin limit read' ts left)
  | [], _, _ => .refl _
  | t :: rest, left, h => by
    have ⟨hhead, hrest⟩ := List.forall_mem_append.mp h
    refine (sameOutcome_evalWithin t left hhead).bind fun v => ?_
    exact (sameOutcome_evalAllWithin rest left hrest).bind fun _ => .refl _

end

end Tree

/-- A path at which two stores have the same number, or none, is read with the same outcome. -/
lemma Store.sameOutcome_get {store store' : Store} {path : String}
    (h : (store.get path).toOption = (store'.get path).toOption) :
    SameOutcome (store.get path) (store'.get path) := by
  have hkind : ∀ (st : Store) e, st.get path = .error e → e.kind = .unresolved := by
    intro st e herror
    unfold get at herror
    split at herror
    · cases herror
      rfl
    · split at herror <;> cases herror
      rfl
  cases hget : store.get path with
  | ok v =>
    cases hget' : store'.get path with
    | ok v' =>
      rw [hget, hget'] at h
      rw [Option.some.inj h]
    | error e' =>
      rw [hget, hget'] at h
      cases h
  | error e =>
    cases hget' : store'.get path with
    | ok v' =>
      rw [hget, hget'] at h
      cases h
    | error e' => exact .error ((hkind _ _ hget).trans (hkind _ _ hget').symm)

/-! ### Executing one statement -/

/-- How an action changes the value at the target. -/
def Action.change : Action → Json.Number → Store.Change
  | .set => Store.replace
  | .push => Store.append

/-- Every action may create the value that it writes. -/
lemma Action.creates_change (action : Action) (n : Json.Number) : (action.change n).Creates := by
  cases action with
  | set => exact Store.creates_replace n
  | push => exact Store.creates_append n

namespace Statement

variable {limit : Nat} {s t : Statement} {store : Store} {v : Float} {e : RunError}

/-- A statement whose operand fails leaves the store as it is. -/
lemma execute_of_eval_error (h : s.operand.eval limit store.get = .error e) :
    s.execute limit store = (.error e, store) := by
  simp only [execute, h]

/-- A statement whose operand has a value is a write of this value. -/
lemma execute_of_eval_ok (h : s.operand.eval limit store.get = .ok v) :
    s.execute limit store =
      ((store.writeNumber s.action.change s.target v).1.map fun _ => v,
        (store.writeNumber s.action.change s.target v).2) := by
  unfold execute
  rw [h]
  cases haction : s.action <;> rfl

/-- A statement that fails leaves the store as it was. -/
theorem execute_of_error (h : (s.execute limit store).1 = .error e) :
    (s.execute limit store).2 = store := by
  cases heval : s.operand.eval limit store.get with
  | error e' => rw [execute_of_eval_error heval]
  | ok v =>
    rw [execute_of_eval_ok heval] at h ⊢
    cases houtcome : (store.writeNumber s.action.change s.target v).1 with
    | ok _ =>
      rw [houtcome] at h
      cases h
    | error e' => exact Store.writeNumber_of_error s.action.creates_change houtcome

/-- A statement does not change what is read from a path that is apart from its target. -/
theorem get_execute {path : String} (h : Apart path s.target) (limit : Nat) (store : Store) :
    ((s.execute limit store).2.get path).toOption = (store.get path).toOption := by
  cases heval : s.operand.eval limit store.get with
  | error e => rw [execute_of_eval_error heval]
  | ok v =>
    rw [execute_of_eval_ok heval]
    exact Store.get_writeNumber h _ _ _

/-- All paths that the first statement reads are apart from the target of the second. -/
def ReadsApartFrom (s t : Statement) : Prop :=
  ∀ path ∈ s.operand.paths, Apart path t.target

instance (s t : Statement) : Decidable (s.ReadsApartFrom t) :=
  inferInstanceAs (Decidable (∀ path ∈ s.operand.paths, Apart path t.target))

/-- The operand of a statement has the same outcome before and after a statement that writes to none
of its paths. -/
lemma sameOutcome_eval_execute (h : s.ReadsApartFrom t) (limit : Nat) (store : Store) :
    SameOutcome (s.operand.eval limit (t.execute limit store).2.get)
      (s.operand.eval limit store.get) := by
  refine Tree.sameOutcome_evalWithin s.operand limit fun path hpath => ?_
  exact Store.sameOutcome_get (get_execute (h path hpath) limit store)

/-- Neither statement writes what the other one reads or writes. -/
structure IndependentOf (s t : Statement) : Prop where
  targets : Apart s.target t.target
  reads : s.ReadsApartFrom t
  reads' : t.ReadsApartFrom s

/-- Independence does not depend on the order. -/
lemma IndependentOf.symm (h : s.IndependentOf t) : t.IndependentOf s :=
  ⟨h.targets.symm, h.reads', h.reads⟩

/-- Independent statements can be executed in either order: the store is the same in the end, and
the one that is executed second has the outcome that it has alone. -/
theorem IndependentOf.execute_comm (h : s.IndependentOf t) (limit : Nat) (store : Store) :
    SameOutcome (s.execute limit (t.execute limit store).2).1 (s.execute limit store).1 ∧
      (s.execute limit (t.execute limit store).2).2 =
        (t.execute limit (s.execute limit store).2).2 := by
  rcases (sameOutcome_eval_execute h.reads limit store).cases_eq with
    ⟨v, hsAfter, hs⟩ | ⟨e, e', hsAfter, hs, hkind⟩
  · rw [execute_of_eval_ok hsAfter]
    rcases (sameOutcome_eval_execute h.reads' limit store).cases_eq with
      ⟨w, htAfter, ht⟩ | ⟨f, f', htAfter, ht, -⟩
    · rw [execute_of_eval_ok htAfter, execute_of_eval_ok hs, execute_of_eval_ok ht]
      obtain ⟨houtcome, hstore⟩ := Store.writeNumber_comm h.targets.symm t.action.change
        s.action.change store w v
      rw [houtcome]
      exact ⟨.refl _, hstore⟩
    · rw [execute_of_eval_error htAfter, execute_of_eval_error ht, execute_of_eval_ok hs]
      exact ⟨.refl _, rfl⟩
  · rw [execute_of_eval_error hsAfter, execute_of_eval_error hs]
    exact ⟨.error hkind, rfl⟩

end Statement

/-! ### Failures -/

/-- **A failed write leaves no trace.**  A number that cannot be set or appended leaves the store
equal to what it was, with no object and no list created on the way to where it failed.  It fails
for what is wrong with the number, the path or the values that are there, and never halfway through
what it has created itself.  Hence a statement that fails leaves the store equal to what it was. -/
theorem Store.failed_write_leaves_no_trace (store : Store) :
    (∀ path x e, (store.set path x).1 = .error e →
      (store.set path x).2 = store ∧ store.Refuses path x) ∧
    (∀ path x e, (store.push path x).1 = .error e →
      (store.push path x).2 = store ∧ (store.Refuses path x ∨
        ∃ node, store.toJson.node? (pathSegments path) = some node ∧ node.kind ≠ .list)) ∧
    ∀ (s : Statement) (limit : Nat) (e : RunError), (s.execute limit store).1 = .error e →
      (s.execute limit store).2 = store := by
  refine ⟨?_, ?_, ?_⟩
  · intro path x e h
    exact ⟨writeNumber_of_error creates_replace h, refuses_of_set h⟩
  · intro path x e h
    exact ⟨writeNumber_of_error creates_append h, refuses_or_of_push h⟩
  · intro s limit e h
    exact Statement.execute_of_error h

/-- Two objects below a number, a list in place of a number, and a statement that reads a number and
then fails to append it below itself. -/
theorem Store.failed_write_leaves_no_trace_hits :
    let store : Store := ⟨[("hits", .object [("max", .number (.int 12))])]⟩
    let s : Statement := ⟨0, "hits.max.rolls", .push, .dynamic "hits.max"⟩
    (store.set "hits.max.bonus.fire" 1).1 =
        .error (.invalidTarget "hits.max.bonus.fire" (.notObject "max" .number)) ∧
      (store.set "hits.max.bonus.fire" 1).2 = store ∧
      (store.push "hits.max" 3).1 = .error (.invalidTarget "hits.max" (.notList "max" .number)) ∧
      (store.push "hits.max" 3).2 = store ∧
      (s.execute 60 store).1 = .error (.invalidTarget "hits.max.rolls" (.notObject "max" .number)) ∧
      (s.execute 60 store).2 = store := by
  intro store s
  have hset : (store.set "hits.max.bonus.fire" 1).1 =
      .error (.invalidTarget "hits.max.bonus.fire" (.notObject "max" .number)) := by
    decide +kernel
  have hpush : (store.push "hits.max" 3).1 =
      .error (.invalidTarget "hits.max" (.notList "max" .number)) := by
    decide +kernel
  have hexecute : (s.execute 60 store).1 =
      .error (.invalidTarget "hits.max.rolls" (.notObject "max" .number)) := by
    decide +kernel
  obtain ⟨hsets, hpushes, hstatements⟩ := Store.failed_write_leaves_no_trace store
  exact ⟨hset, (hsets _ _ _ hset).1, hpush, (hpushes _ _ _ hpush).1, hexecute,
    hstatements _ _ _ hexecute⟩

end SheetRules
