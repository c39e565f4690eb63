import SheetRules.Proofs.Batch.Policies

/-!
# Running a batch again

A batch that only sets numbers, and whose statements read nothing that is set by themselves or later
on, can be run again without effect.  In the second run all targets are there from the start, and a
target that is set twice holds its last number before it is set to its first, so the stores of the
two runs are not the same step by step.  What the two runs share is where they lead: the settings
that are still to come take both stores to the same store (`Writes.again`).  The paths that a
statement reads are not touched by those settings, so it reads the same numbers in both runs.

That the second run leads there at all is the law of settings that repeating them changes nothing
(`setAll_setAll`): each setting of the first time is made good by the later one of the same path.
-/

namespace SheetRules

/-- The paths are the same, segment by segment, or they are apart. -/
def SameOrApart (path path' : String) : Prop :=
  pathSegments path = pathSegments path' ∨ Apart path path'

/-- Two paths of which neither leads to the other are the same or apart. -/
lemma sameOrApart_of_not_leadsTo {path path' : String} (h : ¬LeadsTo path path')
    (h' : ¬LeadsTo path' path) : SameOrApart path path' := by
  by_cases hsame : pathSegments path = pathSegments path'
  · exact .inl hsame
  · refine .inr ⟨fun hbegins => h ⟨hbegins, hsame⟩, fun hbegins => h' ⟨hbegins, ?_⟩⟩
    exact fun heq => hsame heq.symm

namespace Store

variable {path path' : String} {x y : Float} {store : Store} {writes : List (String × Float)}

/-! ### Settings -/

/-- A setting has the outcome that it has before another one, of the same path or of one that is
apart. -/
lemma set_outcome (h : SameOrApart path path') (hy : Double.nonFinite? y = none) (store : Store)
    (x : Float) : ((store.set path x).2.set path' y).1 = (store.set path' y).1 := by
  rcases h with hsame | hapart
  · rw [set_set hsame hy]
  · exact (writeNumber_comm hapart replace replace store x y).1

/-- Sets numbers at paths, one after the other. -/
def setAll (writes : List (String × Float)) (store : Store) : Store :=
  writes.foldl (fun store write => (store.set write.1 write.2).2) store

/-- Without writes the store stays. -/
@[simp] lemma setAll_nil (store : Store) : setAll [] store = store := rfl

/-- Writes are made one after the other. -/
@[simp] lemma setAll_cons (write : String × Float) (rest : List (String × Float)) (store : Store) :
    setAll (write :: rest) store = setAll rest (store.set write.1 write.2).2 := rfl

/-- Each of the numbers can be set in the store as it is. -/
def CanSet (writes : List (String × Float)) (store : Store) : Prop :=
  ∀ write ∈ writes, (store.set write.1 write.2).1 = .ok ()

/-- A write to the same path, or apart from all of them, keeps every write possible. -/
lemma CanSet.set (h : CanSet writes store) (hpath : ∀ write ∈ writes, SameOrApart path write.1)
    (x : Float) : CanSet writes (store.set path x).2 := by
  intro write hwrite
  have hset := h write hwrite
  rw [set_outcome (hpath write hwrite) (finite_of_set hset), hset]

/-- Several such writes keep every write possible. -/
lemma CanSet.setAll {others : List (String × Float)} (h : CanSet writes store)
    (hothers : ∀ other ∈ others, ∀ write ∈ writes, SameOrApart other.1 write.1) :
    CanSet writes (setAll others store) := by
  induction others generalizing store with
  | nil => exact h
  | cons other rest ih =>
    obtain ⟨hother, hrest⟩ := List.forall_mem_cons.mp hothers
    exact ih (h.set hother other.2) hrest

/-- A setting that comes before settings which set its path again makes no difference.  It passes
the settings of other paths, up to the one that replaces it. -/
lemma setAll_set (hset : CanSet writes store)
    (hpath : ∀ write ∈ writes, SameOrApart path write.1)
    (hwrites : ∀ write ∈ writes, ∀ other ∈ writes, SameOrApart write.1 other.1)
    (hagain : ∃ write ∈ writes, pathSegments path = pathSegments write.1) (x : Float) :
    setAll writes (store.set path x).2 = setAll writes store := by
  induction writes generalizing store with
  | nil =>
    obtain ⟨write, hwrite, -⟩ := hagain
    exact absurd hwrite List.not_mem_nil
  | cons write rest ih =>
    have hfinite := finite_of_set (hset write (List.mem_cons_self ..))
    obtain ⟨hhead, hpathRest⟩ := List.forall_mem_cons.mp hpath
    rw [setAll_cons, setAll_cons]
    rcases hhead with hsame | hapart
    · rw [set_set hsame hfinite]
    · -- the write goes past the first one, to the later one that repeats its path
      have hcomm := (writeNumber_comm hapart replace replace store x write.2).2
      have hagainRest : ∃ other ∈ rest, pathSegments path = pathSegments other.1 := by
        obtain ⟨other, hother, hsame⟩ := hagain
        rcases List.mem_cons.mp hother with rfl | hrest
        · exact absurd (hsame ▸ List.prefix_rfl) hapart.1
        · exact ⟨other, hrest, hsame⟩
      have hsetRest : CanSet rest (store.set write.1 write.2).2 := by
        refine CanSet.set (fun other hother => hset other (List.mem_cons_of_mem _ hother)) ?_ _
        exact fun other hother =>
          hwrites write (List.mem_cons_self ..) other (List.mem_cons_of_mem _ hother)
      calc setAll rest ((store.set path x).2.set write.1 write.2).2
          = setAll rest ((store.set write.1 write.2).2.set path x).2 := congrArg _ hcomm
        _ = setAll rest (store.set write.1 write.2).2 :=
          ih hsetRest hpathRest
            (fun write hwrite other hother => hwrites write (List.mem_cons_of_mem _ hwrite) other
              (List.mem_cons_of_mem _ hother)) hagainRest

/-- Settings that come before settings of the same paths make no difference. -/
lemma setAll_setAll_of_subset {others : List (String × Float)} (hset : CanSet writes store)
    (hwrites : ∀ write ∈ writes, ∀ other ∈ writes, SameOrApart write.1 other.1)
    (hothers : ∀ other ∈ others, other ∈ writes) :
    setAll writes (setAll others store) = setAll writes store := by
  induction others generalizing store with
  | nil => rfl
  | cons other rest ih =>
    obtain ⟨hother, hrest⟩ := List.forall_mem_cons.mp hothers
    have hpath : ∀ write ∈ writes, SameOrApart other.1 write.1 := hwrites other hother
    rw [setAll_cons, ih (hset.set hpath other.2) hrest,
      setAll_set hset hpath hwrites ⟨other, hother, rfl⟩]

/-- Setting numbers a second time changes nothing. -/
theorem setAll_setAll (hset : CanSet writes store)
    (hwrites : ∀ write ∈ writes, ∀ other ∈ writes, SameOrApart write.1 other.1) :
    setAll writes (setAll writes store) = setAll writes store :=
  setAll_setAll_of_subset hset hwrites fun _ hwrite => hwrite

/-- Settings do not change what is read from a path that is apart from all of theirs. -/
lemma get_setAll (h : ∀ write ∈ writes, Apart path write.1) (store : Store) :
    ((setAll writes store).get path).toOption = (store.get path).toOption := by
  induction writes generalizing store with
  | nil => rfl
  | cons write rest ih =>
    obtain ⟨hwrite, hrest⟩ := List.forall_mem_cons.mp h
    exact (ih hrest _).trans (get_writeNumber hwrite replace store write.2)

end Store

namespace Batch

open Store (setAll CanSet)

/-! ### Statements as settings -/

/-- Executed one after the other, the statements evaluate their operands and make the settings. -/
inductive Writes (limit : Nat) : List Statement → Store → List (String × Float) → Prop
  | nil {store} : Writes limit [] store []
  | cons {s rest store v writes} (heval : s.operand.eval limit store.get = .ok v)
      (hset : (store.set s.target v).1 = .ok ())
      (hrest : Writes limit rest (store.set s.target v).2 writes) :
      Writes limit (s :: rest) store ((s.target, v) :: writes)

variable {limit : Nat} {statements : List Statement} {store : Store}
  {writes : List (String × Float)}

/-- Statements that set numbers and succeed make settings. -/
lemma exists_writes (haction : ∀ s ∈ statements, s.action = .set)
    (h : AllSucceed limit statements store) : ∃ writes, Writes limit statements store writes := by
  induction statements generalizing store with
  | nil => exact ⟨[], .nil⟩
  | cons s rest ih =>
    obtain ⟨hs, hrest⟩ := List.forall_mem_cons.mp haction
    obtain ⟨⟨v, hok⟩, hsucceed⟩ := h
    cases heval : s.operand.eval limit store.get with
    | error e =>
      rw [Statement.execute_of_eval_error heval] at hok
      cases hok
    | ok w =>
      rw [Statement.execute_of_eval_ok heval, hs] at hok hsucceed
      have hset : (store.set s.target w).1 = .ok () := by
        cases houtcome : (store.set s.target w).1 with
        | ok _ => rfl
        | error e =>
          have herror : Except.map (fun _ => w) (store.set s.target w).1 = .ok v := hok
          rw [houtcome] at herror
          cases herror
      obtain ⟨writes, hwrites⟩ := ih hrest hsucceed
      exact ⟨(s.target, w) :: writes, .cons heval hset hwrites⟩

namespace Writes

/-- Statements that make settings succeed, and leave the store that the settings leave. -/
lemma allSucceed (h : Writes limit statements store writes)
    (haction : ∀ s ∈ statements, s.action = .set) :
    AllSucceed limit statements store ∧
      storeAfter limit statements store = setAll writes store := by
  induction h with
  | nil => exact ⟨trivial, rfl⟩
  | @cons s rest store v writes heval hset hrest ih =>
    obtain ⟨hs, hactions⟩ := List.forall_mem_cons.mp haction
    have hexecute : s.execute limit store = (.ok v, (store.set s.target v).2) := by
      rw [Statement.execute_of_eval_ok heval, hs]
      have houtcome : Except.map (fun _ => v) (store.set s.target v).1 = .ok v := by
        rw [hset]
        rfl
      exact Prod.ext houtcome rfl
    obtain ⟨hsucceed, hstore⟩ := ih hactions
    refine ⟨⟨⟨v, congrArg Prod.fst hexecute⟩, ?_⟩, ?_⟩
    · rwa [hexecute]
    · rw [storeAfter_cons, hexecute]
      exact hstore

/-- The settings are those of the targets: what holds of all targets holds of their paths. -/
lemma forall_target {P : String → Prop} (h : Writes limit statements store writes)
    (htargets : ∀ s ∈ statements, P s.target) : ∀ write ∈ writes, P write.1 := by
  induction h with
  | nil => exact fun write hwrite => absurd hwrite List.not_mem_nil
  | cons heval hset hrest ih =>
    obtain ⟨hhead, htail⟩ := List.forall_mem_cons.mp htargets
    exact List.forall_mem_cons.mpr ⟨hhead, ih htail⟩

/-- Each setting of a run can be made at its start already. -/
lemma canSet (h : Writes limit statements store writes)
    (htargets : ∀ s ∈ statements, ∀ t ∈ statements, SameOrApart s.target t.target) :
    CanSet writes store := by
  induction h with
  | nil => exact fun write hwrite => absurd hwrite List.not_mem_nil
  | @cons s rest store v writes heval hset hrest ih =>
    refine List.forall_mem_cons.mpr ⟨hset, fun write hwrite => ?_⟩
    have hlater : (((store.set s.target v).2).set write.1 write.2).1 = .ok () := by
      refine ih (fun s hs t ht => ?_) write hwrite
      exact htargets s (List.mem_cons_of_mem _ hs) t (List.mem_cons_of_mem _ ht)
    have hpath : SameOrApart s.target write.1 :=
      hrest.forall_target (List.forall_mem_cons.mp (htargets s (List.mem_cons_self ..))).2 write
        hwrite
    rwa [Store.set_outcome hpath (Store.finite_of_set hlater)] at hlater

/-- Two stores from which the settings of a run lead to the same store are the same to the run: it
makes the same settings in both.  The statements read only what those settings leave alone. -/
theorem again (h : Writes limit statements store writes)
    (htargets : ∀ s ∈ statements, ∀ t ∈ statements, SameOrApart s.target t.target)
    (hown : ∀ s ∈ statements, s.ReadsApartFrom s)
    (hlater : statements.Pairwise Statement.ReadsApartFrom) {other : Store}
    (hset : CanSet writes other) (hsame : setAll writes other = setAll writes store) :
    Writes limit statements other writes := by
  induction h generalizing other with
  | nil => exact .nil
  | @cons s rest store v writes heval hsetHead hrest ih =>
    obtain ⟨hs, hownRest⟩ := List.forall_mem_cons.mp hown
    obtain ⟨hsLater, hlaterRest⟩ := List.pairwise_cons.mp hlater
    obtain ⟨hsetOther, hsetRest⟩ := List.forall_mem_cons.mp hset
    have hreads : ∀ path ∈ s.operand.paths,
        ∀ write ∈ (s.target, v) :: writes, Apart path write.1 := by
      intro path hpath
      refine List.forall_mem_cons.mpr ⟨hs path hpath, ?_⟩
      exact hrest.forall_target fun t ht => hsLater t ht path hpath
    -- what the operand reads is apart from all writes, so it is the same in the final store
    have heval' : s.operand.eval limit other.get = .ok v := by
      have houtcome : SameOutcome (s.operand.eval limit other.get)
          (s.operand.eval limit store.get) := by
        refine Tree.sameOutcome_evalWithin s.operand limit fun path hpath => ?_
        have hfinal := Store.get_setAll (hreads path hpath)
        exact Store.sameOutcome_get ((hfinal other).symm.trans (hsame ▸ hfinal store))
      rw [heval] at houtcome
      rcases houtcome.cases_eq with ⟨w, hw, hv⟩ | ⟨e, e', -, hv, -⟩
      · rw [hw, hv]
      · cases hv
    have hpath : ∀ write ∈ writes, SameOrApart s.target write.1 :=
      hrest.forall_target (List.forall_mem_cons.mp (htargets s (List.mem_cons_self ..))).2
    refine .cons heval' hsetOther (ih (fun s hs t ht => ?_) hownRest hlaterRest ?_ hsame)
    · exact htargets s (List.mem_cons_of_mem _ hs) t (List.mem_cons_of_mem _ ht)
    · exact Store.CanSet.set hsetRest hpath v

end Writes

/-! ### Batches -/

/-- A run that ends at the first failure and does not fail has executed every statement. -/
lemma allSucceed_of_run {report : BatchReport} {store' : Store}
    (h : run ⟨.failFast, limit⟩ statements store = (.ok report, store')) :
    AllSucceed limit (inOrder statements) store := by
  by_contra hfail
  obtain ⟨before, s, index, after, e, hordered, hbefore, herror⟩ := exists_first_error hfail
  have hfollows : Failure.Follows ⟨index, s.target, e⟩ before limit (ordered statements) store :=
    ⟨s, after, hordered, rfl, herror⟩
  rw [run_failFast_of_first hbefore hfollows] at h
  cases h

/-- **Running a batch again changes nothing.**  If all statements set numbers, no target leads to
another one, and no statement reads a path that is not apart from its own target or from that of a
statement executed later, then after a run without failure a second run gives the same report and
leaves the store as it is. -/
theorem run_again {limit : Nat} {statements : List Statement} {store store' : Store}
    {report : BatchReport} (haction : ∀ s ∈ statements, s.action = .set)
    (htargets : ∀ s ∈ statements, ∀ t ∈ statements, ¬LeadsTo s.target t.target)
    (hown : ∀ s ∈ statements, s.ReadsApartFrom s)
    (hlater : (inOrder statements).Pairwise Statement.ReadsApartFrom)
    (hrun : run ⟨.failFast, limit⟩ statements store = (.ok report, store')) :
    run ⟨.failFast, limit⟩ statements store' = (.ok report, store') := by
  -- everything that is said of the statements holds in the order of execution as well
  have hmem : ∀ s ∈ inOrder statements, s ∈ statements := fun s hs => mem_inOrder.mp hs
  have haction' : ∀ s ∈ inOrder statements, s.action = .set := fun s hs => haction s (hmem s hs)
  have htargets' : ∀ s ∈ inOrder statements, ∀ t ∈ inOrder statements,
      SameOrApart s.target t.target := fun s hs t ht =>
    sameOrApart_of_not_leadsTo (htargets s (hmem s hs) t (hmem t ht))
      (htargets t (hmem t ht) s (hmem s hs))
  have hsucceed := allSucceed_of_run hrun
  obtain ⟨writes, hwrites⟩ := exists_writes haction' hsucceed
  -- the first run has set all values, one after the other
  have hstore' : store' = setAll writes store := by
    rw [run_of_allSucceed hsucceed, (hwrites.allSucceed haction').2] at hrun
    exact (Prod.mk.inj hrun).2.symm
  have hcompatible : ∀ write ∈ writes, ∀ other ∈ writes, SameOrApart write.1 other.1 :=
    hwrites.forall_target (P := fun path => ∀ other ∈ writes, SameOrApart path other.1)
      fun s hs => hwrites.forall_target (htargets' s hs)
  have hset : CanSet writes store := hwrites.canSet htargets'
  -- setting them again changes nothing
  have hfixed : setAll writes store' = store' := by
    rw [hstore', Store.setAll_setAll hset hcompatible]
  have hagain : Writes limit (inOrder statements) store' writes := by
    refine hwrites.again htargets' (fun s hs => hown s (hmem s hs)) hlater ?_ ?_
    · exact hstore' ▸ hset.setAll hcompatible
    · exact hfixed.trans hstore'
  obtain ⟨hsucceed', hstore''⟩ := hagain.allSucceed haction'
  rw [run_of_allSucceed hsucceed', hstore'', hfixed]
  rw [run_of_allSucceed hsucceed] at hrun
  exact Prod.ext (Prod.mk.inj hrun).1 rfl

/-- Sets an attribute to a number. -/
def mightOfThree : Statement := ⟨0, "base.might", .set, .static 3⟩

/-- Sets the same attribute again, from another one. -/
def mightOfLevel : Statement :=
  ⟨1, "base.might", .set, .combine .add [.dynamic "level", .static 4]⟩

/-- Reads the attribute after both. -/
def doubleMight : Statement :=
  ⟨2, "bonus.might", .set, .combine .multiply [.dynamic "base.might", .static 2]⟩

/-- The order in which the three statements about might are run. -/
lemma ordered_might : ordered [doubleMight, mightOfThree, mightOfLevel] =
    [(mightOfThree, 1), (mightOfLevel, 2), (doubleMight, 0)] := by
  have h0 : Double.rank 0 = 0 := by decide +kernel
  have h1 : Double.rank 1 = 4607182418800017408 := by decide +kernel
  have h2 : Double.rank 2 = 4611686018427387904 := by decide +kernel
  simp [ordered, doubleMight, mightOfThree, mightOfLevel, List.mergeSort, h0, h1, h2]

/-- In the second run the attribute is set back to its first number and then set again. -/
theorem run_again_might : ∃ store',
    run ⟨.failFast, 60⟩ [doubleMight, mightOfThree, mightOfLevel]
        ⟨[("level", .number (.int 5))]⟩ = (.ok ⟨3, []⟩, store') ∧
      run ⟨.failFast, 60⟩ [doubleMight, mightOfThree, mightOfLevel] store' =
        (.ok ⟨3, []⟩, store') := by
  have hok : (run ⟨.failFast, 60⟩ [doubleMight, mightOfThree, mightOfLevel]
      ⟨[("level", .number (.int 5))]⟩).1 = .ok ⟨3, []⟩ := by
    rw [run, ordered_might]
    decide +kernel
  refine ⟨_, Prod.ext hok rfl, run_again ?_ ?_ ?_ ?_ (Prod.ext hok rfl)⟩
  · decide +kernel
  · decide +kernel
  · decide +kernel
  · rw [inOrder, ordered_might]
    decide +kernel

end Batch

end SheetRules
