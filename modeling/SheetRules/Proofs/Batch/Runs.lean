import SheetRules.Proofs.Batch.Execution
import SheetRules.Proofs.Batch.Order

/-!
# What a run of a batch does

Executed one after the other, each statement finds the store as the ones before have left it.  This
module follows such an execution without a policy (the store after some statements, the statements
that succeed, the failures of the others) and reads the two policies off it: both do the same until
a statement fails, the one ends there, and the other goes through to the end.
-/

namespace SheetRules.Batch

variable {limit : Nat}

/-! ### Executing statements one after the other -/

/-- The store after some statements, whether they succeed or not. -/
def storeAfter (limit : Nat) (statements : List Statement) (store : Store) : Store :=
  statements.foldl (fun store s => (s.execute limit store).2) store

/-- Without statements the store stays. -/
@[simp] lemma storeAfter_nil (store : Store) : storeAfter limit [] store = store := rfl

/-- Each statement meets the store that the one before it leaves. -/
@[simp] lemma storeAfter_cons (s : Statement) (rest : List Statement) (store : Store) :
    storeAfter limit (s :: rest) store = storeAfter limit rest (s.execute limit store).2 := rfl

/-- Two batches are run one after the other. -/
lemma storeAfter_append (first rest : List Statement) (store : Store) :
    storeAfter limit (first ++ rest) store =
      storeAfter limit rest (storeAfter limit first store) :=
  List.foldl_append

/-- Every statement succeeds on the store that those before it leave. -/
def AllSucceed (limit : Nat) : List Statement → Store → Prop
  | [], _ => True
  | s :: rest, store =>
    (∃ v, (s.execute limit store).1 = .ok v) ∧ AllSucceed limit rest (s.execute limit store).2

/-- Statements that do not all succeed have a first one that fails. -/
lemma exists_first_error {batch : List (Statement × Nat)} {store : Store}
    (h : ¬AllSucceed limit (batch.map Prod.fst) store) :
    ∃ before s index after e, batch = before ++ (s, index) :: after ∧
      AllSucceed limit (before.map Prod.fst) store ∧
      (s.execute limit (storeAfter limit (before.map Prod.fst) store)).1 = .error e := by
  induction batch generalizing store with
  | nil => exact absurd trivial h
  | cons entry rest ih =>
    obtain ⟨s, index⟩ := entry
    cases houtcome : (s.execute limit store).1 with
    | error e => exact ⟨[], s, index, rest, e, rfl, trivial, houtcome⟩
    | ok v =>
      have hrest : ¬AllSucceed limit (rest.map Prod.fst) (s.execute limit store).2 :=
        fun hsucceed => h ⟨⟨v, houtcome⟩, hsucceed⟩
      obtain ⟨before, t, index', after, e, rfl, hbefore, herror⟩ := ih hrest
      exact ⟨(s, index) :: before, t, index', after, e, rfl, ⟨⟨v, houtcome⟩, hbefore⟩, herror⟩

/-! ### Failures and survivors -/

/-- The failures of statements that are executed one after the other. -/
def failuresAlong (limit : Nat) : List (Statement × Nat) → Store → List Failure
  | [], _ => []
  | (s, index) :: rest, store =>
    match (s.execute limit store).1 with
    | .ok _ => failuresAlong limit rest (s.execute limit store).2
    | .error e => ⟨index, s.target, e⟩ :: failuresAlong limit rest (s.execute limit store).2

/-- The statements that succeed where they stand. -/
def survivors (limit : Nat) : List (Statement × Nat) → Store → List (Statement × Nat)
  | [], _ => []
  | (s, index) :: rest, store =>
    match (s.execute limit store).1 with
    | .ok _ => (s, index) :: survivors limit rest (s.execute limit store).2
    | .error _ => survivors limit rest (s.execute limit store).2

/-- Every statement succeeds or fails. -/
lemma length_survivors_add (limit : Nat) (batch : List (Statement × Nat)) (store : Store) :
    (survivors limit batch store).length + (failuresAlong limit batch store).length =
      batch.length := by
  fun_induction failuresAlong limit batch store with
  | case1 => rfl
  | case2 s index rest store v hok ih =>
    simp only [survivors, hok, List.length_cons]
    omega
  | case3 s index rest store e herror ih =>
    simp only [survivors, herror, List.length_cons]
    omega

/-! ### The two policies -/

/-- Until a statement fails, a run counts the statements, whatever its policy. -/
lemma runInOrder_append {options : Options} {before : List (Statement × Nat)} {store : Store}
    (h : AllSucceed options.maxDepth (before.map Prod.fst) store) (rest : List (Statement × Nat))
    (report : BatchReport) :
    runInOrder options (before ++ rest) report store =
      runInOrder options rest { report with executed := report.executed + before.length }
        (storeAfter options.maxDepth (before.map Prod.fst) store) := by
  induction before generalizing report store with
  | nil => rfl
  | cons entry before ih =>
    obtain ⟨s, index⟩ := entry
    obtain ⟨⟨v, houtcome⟩, hbefore⟩ := h
    have hrun : s.execute options.maxDepth store = (.ok v, (s.execute options.maxDepth store).2) :=
      Prod.ext houtcome rfl
    have hcount : report.executed + 1 + before.length = report.executed + (before.length + 1) := by
      omega
    rw [List.cons_append, runInOrder, hrun]
    simp only [ih hbefore, hcount, List.length_cons, List.map_cons, storeAfter_cons]

/-- If every statement succeeds, a run executes all of them. -/
lemma run_of_allSucceed {options : Options} {statements : List Statement} {store : Store}
    (h : AllSucceed options.maxDepth (inOrder statements) store) :
    run options statements store =
      (.ok ⟨statements.length, []⟩, storeAfter options.maxDepth (inOrder statements) store) := by
  have happend := runInOrder_append h [] {}
  rw [List.append_nil] at happend
  rw [run, happend, runInOrder, length_ordered, Nat.zero_add]
  rfl

/-- A run that goes on after failures goes through all statements. -/
lemma runInOrder_carryOn (batch : List (Statement × Nat)) (report : BatchReport) (store : Store) :
    runInOrder ⟨.carryOn, limit⟩ batch report store =
      (.ok ⟨report.executed + (survivors limit batch store).length,
          report.failures ++ failuresAlong limit batch store⟩,
        storeAfter limit (batch.map Prod.fst) store) := by
  induction batch generalizing report store with
  | nil => simp [runInOrder, survivors, failuresAlong]
  | cons entry rest ih =>
    obtain ⟨s, index⟩ := entry
    cases hrun : s.execute limit store with
    | mk outcome store' =>
      cases outcome with
      | ok v =>
        have hcount : report.executed + 1 + (survivors limit rest store').length =
            report.executed + ((survivors limit rest store').length + 1) := by
          omega
        simp only [runInOrder, hrun, ih, survivors, failuresAlong, hcount, List.length_cons,
          List.map_cons, storeAfter_cons]
      | error e =>
        simp only [runInOrder, hrun, ih, survivors, failuresAlong, List.append_assoc,
          List.singleton_append, List.map_cons, storeAfter_cons]

/-- A run that carries on counts the statements that succeed, lists the others, and leaves the store
that all of them leave. -/
lemma run_carryOn (statements : List Statement) (store : Store) :
    run ⟨.carryOn, limit⟩ statements store =
      (.ok ⟨(survivors limit (ordered statements) store).length,
          failuresAlong limit (ordered statements) store⟩,
        storeAfter limit (inOrder statements) store) := by
  rw [run, runInOrder_carryOn, Nat.zero_add]
  rfl

end SheetRules.Batch
