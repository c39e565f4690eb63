import SheetRules.Proofs.Batch.Runs

/-!
# The two policies agree

Where every statement succeeds, the policy of a run does not matter.  Otherwise a run that ends at
the first failure ends with the failure that the other run records first, and a run that goes on
does what it would do without the statements that fail.  The second point rests on two facts: a
statement that fails leaves the store as it was, and taking statements away keeps the order of the
others.
-/

namespace SheetRules

/-- The failure is that of a statement of the batch that is executed after `before`. -/
def Failure.Follows (f : Failure) (before : List (Statement × Nat)) (limit : Nat)
    (batch : List (Statement × Nat)) (store : Store) : Prop :=
  ∃ s after, batch = before ++ (s, f.index) :: after ∧ f.target = s.target ∧
    (s.execute limit (Batch.storeAfter limit (before.map Prod.fst) store)).1 = .error f.error

namespace Batch

variable {limit : Nat}

/-! ### The failures of a run -/

/-- Failures are recorded in the order of execution. -/
lemma sublist_failuresAlong (limit : Nat) (batch : List (Statement × Nat)) (store : Store) :
    ((failuresAlong limit batch store).map Failure.index).Sublist (batch.map Prod.snd) := by
  fun_induction failuresAlong limit batch store with
  | case1 => exact List.Sublist.slnil
  | case2 s index rest store v hok ih => exact ih.cons index
  | case3 s index rest store e herror ih => exact ih.cons_cons index

/-- The failures of two batches one after the other: the second one meets the store that the first
one leaves. -/
lemma failuresAlong_append (first rest : List (Statement × Nat)) (store : Store) :
    failuresAlong limit (first ++ rest) store = failuresAlong limit first store ++
      failuresAlong limit rest (storeAfter limit (first.map Prod.fst) store) := by
  induction first generalizing store with
  | nil => rfl
  | cons entry first ih =>
    obtain ⟨s, index⟩ := entry
    simp only [List.cons_append, List.map_cons, storeAfter_cons, failuresAlong, ih]
    split <;> rfl

/-- Statements that all succeed have no failures. -/
lemma failuresAlong_of_allSucceed {batch : List (Statement × Nat)} {store : Store}
    (h : AllSucceed limit (batch.map Prod.fst) store) : failuresAlong limit batch store = [] := by
  induction batch generalizing store with
  | nil => rfl
  | cons entry rest ih =>
    obtain ⟨⟨v, hok⟩, hrest⟩ := h
    rw [failuresAlong, hok]
    exact ih hrest

/-- The failures of a run are those of the statements that fail where they stand. -/
theorem mem_failuresAlong_iff {f : Failure} {batch : List (Statement × Nat)} {store : Store} :
    f ∈ failuresAlong limit batch store ↔ ∃ before, f.Follows before limit batch store := by
  constructor
  · intro h
    induction batch generalizing store with
    | nil => exact absurd h List.not_mem_nil
    | cons entry rest ih =>
      obtain ⟨s, index⟩ := entry
      have hlater : f ∈ failuresAlong limit rest (s.execute limit store).2 →
          ∃ before, f.Follows before limit ((s, index) :: rest) store := by
        intro hmem
        obtain ⟨before, t, after, rfl, htarget, herror⟩ := ih hmem
        exact ⟨(s, index) :: before, t, after, rfl, htarget, herror⟩
      rw [failuresAlong] at h
      split at h
      · exact hlater h
      · rename_i e herror
        rcases List.mem_cons.mp h with rfl | hmem
        · exact ⟨[], s, rest, rfl, rfl, herror⟩
        · exact hlater hmem
  · rintro ⟨before, s, after, rfl, htarget, herror⟩
    rw [failuresAlong_append, failuresAlong, herror, ← htarget]
    exact List.mem_append_right _ (List.mem_cons_self ..)

/-! ### The statements that succeed -/

/-- The statements that succeed do so without the others as well, and leave the same store. -/
theorem allSucceed_survivors (limit : Nat) (batch : List (Statement × Nat)) (store : Store) :
    AllSucceed limit ((survivors limit batch store).map Prod.fst) store ∧
      storeAfter limit ((survivors limit batch store).map Prod.fst) store =
        storeAfter limit (batch.map Prod.fst) store := by
  fun_induction survivors limit batch store with
  | case1 => exact ⟨trivial, rfl⟩
  | case2 s index rest store v hok ih => exact ⟨⟨⟨v, hok⟩, ih.1⟩, ih.2⟩
  | case3 s index rest store e herror ih =>
    -- The statement that is left out has not changed the store.
    rw [Statement.execute_of_error herror] at ih
    rw [List.map_cons, storeAfter_cons, Statement.execute_of_error herror]
    exact ih

/-- The statements that succeed are those at whose index no failure is recorded. -/
lemma survivors_eq_filter {batch : List (Statement × Nat)} (hnodup : (batch.map Prod.snd).Nodup)
    (store : Store) :
    survivors limit batch store = batch.filter fun entry =>
      entry.2 ∉ (failuresAlong limit batch store).map Failure.index := by
  induction batch generalizing store with
  | nil => rfl
  | cons entry rest ih =>
    obtain ⟨s, index⟩ := entry
    obtain ⟨hindex, hrest⟩ := List.nodup_cons.mp hnodup
    have hother : ∀ later : Store,
        index ∉ (failuresAlong limit rest later).map Failure.index := fun later hmem =>
      hindex ((sublist_failuresAlong limit rest later).subset hmem)
    cases houtcome : (s.execute limit store).1 with
    | ok v =>
      simp only [survivors, failuresAlong, houtcome]
      rw [List.filter_cons_of_pos (by simpa using hother _), ih hrest]
    | error e =>
      simp only [survivors, failuresAlong, houtcome, List.map_cons]
      rw [List.filter_cons_of_neg (by simp), ih hrest]
      refine List.filter_congr fun entry hentry => ?_
      have hne : entry.2 ≠ index := fun heq =>
        hindex (List.mem_map.mpr ⟨entry, hentry, heq⟩)
      simp [hne]

/-- Without the statements that fail, a run under either policy executes the others and leaves the
store that the run with all of them leaves. -/
theorem run_keep (policy : Policy) (limit : Nat) (statements : List Statement) (store : Store) :
    run ⟨policy, limit⟩
        (keep (fun index => index ∉
          (failuresAlong limit (ordered statements) store).map Failure.index) statements) store =
      (.ok ⟨(survivors limit (ordered statements) store).length, []⟩,
        storeAfter limit (inOrder statements) store) := by
  have hkeep := inOrder_keep (fun index => index ∉
    (failuresAlong limit (ordered statements) store).map Failure.index) statements
  rw [← survivors_eq_filter (nodup_order statements)] at hkeep
  obtain ⟨hsucceed, hstore⟩ := allSucceed_survivors limit (ordered statements) store
  rw [← hkeep] at hsucceed hstore
  have hlength := congrArg List.length hkeep
  rw [inOrder, List.length_map, length_ordered, List.length_map] at hlength
  rw [run_of_allSucceed hsucceed, hlength, hstore]
  rfl

/-! ### The first failure -/

/-- A run that ends at the first failure ends there, after the statements before it. -/
theorem run_failFast_of_first {statements : List Statement} {store : Store} {f : Failure}
    {before : List (Statement × Nat)} (hbefore : AllSucceed limit (before.map Prod.fst) store)
    (hf : f.Follows before limit (ordered statements) store) :
    run ⟨.failFast, limit⟩ statements store =
      (.error f, storeAfter limit (before.map Prod.fst) store) := by
  obtain ⟨s, after, hordered, htarget, herror⟩ := hf
  have hunchanged := Statement.execute_of_error herror
  have hrun : s.execute limit (storeAfter limit (before.map Prod.fst) store) =
      (.error f.error, storeAfter limit (before.map Prod.fst) store) :=
    Prod.ext herror hunchanged
  rw [run, hordered, runInOrder_append hbefore, runInOrder, hrun, ← htarget]

/-- **The policies agree.**  If every statement succeeds in the order of execution, a run executes
all of them under either policy, and leaves the same store.  Otherwise the run that ends at the
first failure ends with the one that the other run records first, on the store that the statements
before it leave.  The other run executes or records every statement, it records those that fail
where they stand, in the order of execution, and it leaves the store that a run of the list without
them leaves. -/
theorem policies_agree (limit : Nat) (statements : List Statement) (store : Store) :
    let strict := run ⟨.failFast, limit⟩ statements store
    let lenient := run ⟨.carryOn, limit⟩ statements store
    (AllSucceed limit (inOrder statements) store →
      strict = (.ok ⟨statements.length, []⟩, storeAfter limit (inOrder statements) store) ∧
        lenient = strict) ∧
    (¬AllSucceed limit (inOrder statements) store → ∃ executed first others before,
      lenient.1 = .ok ⟨executed, first :: others⟩ ∧
      strict = (.error first, storeAfter limit (before.map Prod.fst) store) ∧
      AllSucceed limit (before.map Prod.fst) store ∧
      first.Follows before limit (ordered statements) store ∧
      executed + (first :: others).length = statements.length ∧
      ((first :: others).map Failure.index).Sublist (order statements) ∧
      (∀ f, f ∈ first :: others ↔ ∃ before, f.Follows before limit (ordered statements) store) ∧
      ∀ policy, run ⟨policy, limit⟩
          (keep (fun index => index ∉ (first :: others).map Failure.index) statements) store =
        (.ok ⟨executed, []⟩, lenient.2)) := by
  intro strict lenient
  refine ⟨fun hsucceed => ?_, fun hfail => ?_⟩
  · have hstrict : strict = _ := run_of_allSucceed hsucceed
    have hlenient : lenient = _ := run_of_allSucceed hsucceed
    exact ⟨hstrict, hlenient.trans hstrict.symm⟩
  · -- the first statement that fails is the same under both policies
    obtain ⟨before, s, index, after, e, hordered, hbefore, herror⟩ := exists_first_error hfail
    have hfollows : Failure.Follows ⟨index, s.target, e⟩ before limit (ordered statements) store :=
      ⟨s, after, hordered, rfl, herror⟩
    have hfailures : failuresAlong limit (ordered statements) store = ⟨index, s.target, e⟩ ::
        failuresAlong limit after
          (s.execute limit (storeAfter limit (before.map Prod.fst) store)).2 := by
      rw [hordered, failuresAlong_append, failuresAlong_of_allSucceed hbefore, failuresAlong,
        herror]
      rfl
    have hlenient : lenient = _ := run_carryOn statements store
    have hcount := length_survivors_add limit (ordered statements) store
    have hsublist := sublist_failuresAlong limit (ordered statements) store
    have hkeep := fun policy => run_keep policy limit statements store
    have hmem : ∀ f, f ∈ failuresAlong limit (ordered statements) store ↔
        ∃ before, f.Follows before limit (ordered statements) store :=
      fun f => mem_failuresAlong_iff
    rw [hfailures] at hlenient hcount hsublist hkeep hmem
    rw [length_ordered] at hcount
    refine ⟨_, _, _, before, congrArg Prod.fst hlenient, run_failFast_of_first hbefore hfollows,
      hbefore, hfollows, hcount, hsublist, hmem, fun policy => ?_⟩
    rw [hkeep policy, hlenient]

end Batch

end SheetRules
