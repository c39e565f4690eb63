import SheetRules.Proofs.Batch.Errors

/-!
# The limit of evaluation is the depth of the tree

The depth of a tree is found from its leaves up, and the limit is counted down from its root.  The
two meet at every node: where the depth fits, the limit is never reached, and where it does not,
there is no value.  For no operand is passed over, so the only thing that keeps evaluation from the
level that is too deep is another error on the way to it (`eqUnlessTooDeep_evalWithin`), and that
error is then found under every larger limit too.
-/

namespace SheetRules

/-- The error is that a tree is deeper than some limit. -/
def RunError.IsTooDeep (e : RunError) : Prop :=
  ∃ limit, e = .tooDeep limit

/-- A store never says that a tree is too deep. -/
lemma Store.not_isTooDeep_of_get {store : Store} {path : String} {e : RunError}
    (h : store.get path = .error e) : ¬ e.IsTooDeep := by
  rintro ⟨limit, rfl⟩
  unfold Store.get at h
  split at h
  · cases h
  split at h <;> cases h

/-- The first outcome is that a tree is deeper than the limit, or else it is the second one. -/
def EqUnlessTooDeep {β : Type} (limit : Nat) (x y : Except RunError β) : Prop :=
  x = .error (.tooDeep limit) ∨ x = y

namespace EqUnlessTooDeep

variable {β γ : Type} {limit : Nat} {x y : Except RunError β}

/-- An outcome is equal to itself. -/
lemma refl (x : Except RunError β) : EqUnlessTooDeep limit x x :=
  .inr rfl

/-- Two steps that are equal unless they are too deep. -/
lemma bind (h : EqUnlessTooDeep limit x y) {f g : β → Except RunError γ}
    (hfg : ∀ v, EqUnlessTooDeep limit (f v) (g v)) :
    EqUnlessTooDeep limit (x >>= f) (y >>= g) := by
  rcases h with rfl | rfl
  · exact .inl rfl
  · cases x with
    | error e => exact .refl _
    | ok v => exact hfg v

/-- An outcome that is not about the depth is the other one. -/
lemma eq_of_ne (h : EqUnlessTooDeep limit x y) (hne : x ≠ .error (.tooDeep limit)) : x = y :=
  h.resolve_left hne

end EqUnlessTooDeep

namespace Tree

variable {α : Type} [Arithmetic α] {read : String → Except RunError α} {limit : Nat}

/-! ### Larger limits -/

mutual

/-- With more levels the outcome stays as it is, unless it was that the tree is too deep. -/
theorem eqUnlessTooDeep_evalWithin (limit' : Nat) : ∀ (t : Tree α) {left left' : Nat},
    left ≤ left' →
      EqUnlessTooDeep limit (t.evalWithin limit read left) (t.evalWithin limit' read left')
  | t, 0, _, _ => .inl (by cases t <;> rfl)
  | .static _, _ + 1, _ + 1, _ => .refl _
  | .dynamic _, _ + 1, _ + 1, _ => .refl _
  | .combine _ operands, _ + 1, _ + 1, h =>
    (eqUnlessTooDeep_evalAllWithin limit' operands (Nat.le_of_succ_le_succ h)).bind
      fun _ => .refl _
  | .floor operand, _ + 1, _ + 1, h =>
    (eqUnlessTooDeep_evalWithin limit' operand (Nat.le_of_succ_le_succ h)).bind fun _ => .refl _

/-- Operands come to the same within a larger limit. -/
lemma eqUnlessTooDeep_evalAllWithin (limit' : Nat) : ∀ (ts : List (Tree α)) {left left' : Nat},
    left ≤ left' →
      EqUnlessTooDeep limit (evalAllWithin limit read ts left) (evalAllWithin limit' read ts left')
  | [], _, _, _ => .refl _
  | t :: rest, _, _, h =>
    (eqUnlessTooDeep_evalWithin limit' t h).bind fun _ =>
      (eqUnlessTooDeep_evalAllWithin limit' rest h).bind fun _ => .refl _

end

/-! ### Trees that do not fit -/

mutual

/-- A tree that has a value fits in the levels: all its nodes were entered. -/
theorem depth_le_of_evalWithin : ∀ (t : Tree α) (left : Nat) {v : α},
    t.evalWithin limit read left = .ok v → t.depth ≤ left
  | t, 0, _, h => by cases t <;> cases h
  | .static _, left + 1, _, _ => by
    rw [depth]
    exact Nat.le_add_left 1 left
  | .dynamic _, left + 1, _, _ => by
    rw [depth]
    exact Nat.le_add_left 1 left
  | .combine _ operands, left + 1, _, h => by
    obtain ⟨values, hvalues, -⟩ := bind_eq_ok_iff.mp h
    have hdeepest := deepest_le_of_evalAllWithin operands left hvalues
    rw [depth]
    omega
  | .floor operand, left + 1, _, h => by
    obtain ⟨v, hv, -⟩ := bind_eq_ok_iff.mp h
    have hdepth := depth_le_of_evalWithin operand left hv
    rw [depth]
    omega

/-- Operands that are evaluated are not deeper than the limit. -/
lemma deepest_le_of_evalAllWithin : ∀ (ts : List (Tree α)) (left : Nat) {vs : List α},
    evalAllWithin limit read ts left = .ok vs → deepest ts ≤ left
  | [], left, _, _ => Nat.zero_le left
  | t :: rest, left, _, h => by
    obtain ⟨v, hv, htail⟩ := bind_eq_ok_iff.mp h
    obtain ⟨vs, hvs, -⟩ := bind_eq_ok_iff.mp htail
    exact Nat.max_le.mpr
      ⟨depth_le_of_evalWithin t left hv, deepest_le_of_evalAllWithin rest left hvs⟩

end

/-! ### Trees that fit -/

/-- A check never fails for depth. -/
lemma not_isTooDeep_of_checked {op : Operator} {value : α} {e : RunError}
    (h : op.checked value = .error e) : ¬ e.IsTooDeep := by
  rintro ⟨limit, rfl⟩
  unfold Operator.checked at h
  split at h <;> cases h

/-- Applying an operator never fails for depth. -/
lemma not_isTooDeep_of_apply {op : Combine} {values : List α} {e : RunError}
    (h : op.apply values = .error e) : ¬ e.IsTooDeep := by
  rintro ⟨limit, rfl⟩
  unfold Combine.apply at h
  split at h <;> cases h

mutual

/-- A tree that fits in the levels is not too deep, if no path says so. -/
theorem not_isTooDeep_of_evalWithin
    (hread : ∀ path e, read path = .error e → ¬ e.IsTooDeep) :
    ∀ (t : Tree α) (left : Nat) {e : RunError}, t.depth ≤ left →
      t.evalWithin limit read left = .error e → ¬ e.IsTooDeep
  | t, 0, _, hdepth, _ => by cases t <;> simp [depth] at hdepth
  | .static _, _ + 1, _, _, h => not_isTooDeep_of_checked h
  | .dynamic path, _ + 1, _, _, h => by
    rcases bind_eq_error h with hpath | ⟨v, -, hcheck⟩
    · exact hread path _ hpath
    · exact not_isTooDeep_of_checked hcheck
  | .combine op operands, left + 1, _, hdepth, h => by
    have hdeepest : deepest operands ≤ left := by
      rw [depth] at hdepth
      omega
    rcases bind_eq_error h with hall | ⟨values, -, hnode⟩
    · exact not_isTooDeep_of_evalAllWithin hread operands left hdeepest hall
    rcases bind_eq_error hnode with happly | ⟨v, -, hcheck⟩
    · exact not_isTooDeep_of_apply happly
    · exact not_isTooDeep_of_checked hcheck
  | .floor operand, left + 1, _, hdepth, h => by
    have hinner : operand.depth ≤ left := by
      rw [depth] at hdepth
      omega
    rcases bind_eq_error h with hoperand | ⟨v, -, hcheck⟩
    · exact not_isTooDeep_of_evalWithin hread operand left hinner hoperand
    · exact not_isTooDeep_of_checked hcheck

/-- Operands that are not deeper than the limit do not fail for depth. -/
lemma not_isTooDeep_of_evalAllWithin
    (hread : ∀ path e, read path = .error e → ¬ e.IsTooDeep) :
    ∀ (ts : List (Tree α)) (left : Nat) {e : RunError}, deepest ts ≤ left →
      evalAllWithin limit read ts left = .error e → ¬ e.IsTooDeep
  | [], _, _, _, h => by cases h
  | t :: rest, left, _, hdeepest, h => by
    obtain ⟨hhead, htail⟩ := Nat.max_le.mp hdeepest
    rcases bind_eq_error h with ht | ⟨v, -, hmore⟩
    · exact not_isTooDeep_of_evalWithin hread t left hhead ht
    rcases bind_eq_error hmore with hrest | ⟨vs, -, hdone⟩
    · exact not_isTooDeep_of_evalAllWithin hread rest left htail hrest
    · cases hdone

end

/-! ### Evaluating over a store -/

variable {t : Tree Float} {store : Store} {larger : Nat}

/-- Within its limit a tree is never too deep. -/
lemma eval_ne_tooDeep (h : t.depth ≤ limit) (limit' : Nat) :
    t.eval limit store.get ≠ .error (.tooDeep limit') := by
  intro herror
  have hordinary := not_isTooDeep_of_evalWithin (fun _ _ => Store.not_isTooDeep_of_get) t limit h
    herror
  exact hordinary ⟨limit', rfl⟩

/-- Within its limit a tree has the same outcome as within any larger one. -/
lemma eval_eq_of_depth_le (h : t.depth ≤ limit) (hlarger : limit ≤ larger) :
    t.eval larger store.get = t.eval limit store.get :=
  ((eqUnlessTooDeep_evalWithin larger t hlarger).eq_of_ne (eval_ne_tooDeep h limit)).symm

/-- **The limit is the depth.**  A tree has a value within a limit exactly if it is no deeper than
the limit and has that value within a larger one, whichever that is.  A tree that is no deeper than
the limit has the same outcome within every larger limit, and is never too deep.  A tree that is
deeper than the limit has no value there: either it is said to be too deep, or another error comes
first, which it ends with under every larger limit. -/
theorem eval_limit_iff_depth (t : Tree Float) (store : Store) (limit : Nat) :
    (∀ larger ≥ limit, ∀ v, t.eval limit store.get = .ok v ↔
      t.depth ≤ limit ∧ t.eval larger store.get = .ok v) ∧
    (t.depth ≤ limit →
      (∀ larger ≥ limit, t.eval larger store.get = t.eval limit store.get) ∧
        ∀ limit', t.eval limit store.get ≠ .error (.tooDeep limit')) ∧
    (limit < t.depth → ∃ e, t.eval limit store.get = .error e ∧
      (e = .tooDeep limit ∨ ∀ larger ≥ limit, t.eval larger store.get = .error e)) := by
  refine ⟨fun larger hlarger v => ⟨fun h => ?_, fun ⟨hdepth, h⟩ => ?_⟩, fun hdepth => ?_,
    fun h => ?_⟩
  · have hdepth := depth_le_of_evalWithin t limit h
    exact ⟨hdepth, (eval_eq_of_depth_le hdepth hlarger).trans h⟩
  · exact (eval_eq_of_depth_le hdepth hlarger).symm.trans h
  · exact ⟨fun larger hlarger => eval_eq_of_depth_le hdepth hlarger, eval_ne_tooDeep hdepth⟩
  · cases heval : t.eval limit store.get with
    | ok v =>
      have hdepth := depth_le_of_evalWithin t limit heval
      omega
    | error e =>
      refine ⟨e, rfl, ?_⟩
      -- the only fault that a larger limit could take away is that of the limit
      by_cases he : e = .tooDeep limit
      · exact .inl he
      · right
        intro larger hlarger
        have hne : t.eval limit store.get ≠ .error (.tooDeep limit) := by
          rw [heval]
          exact fun heq => he (Except.error.inj heq)
        rw [← heval]
        exact ((eqUnlessTooDeep_evalWithin larger t hlarger).eq_of_ne hne).symm

/-- The second operand is a sum of nothing three levels down. -/
def emptySumBelow : Tree Float :=
  .combine .max [.dynamic "level", .floor (.combine .add [])]

/-- A store with the level 2. -/
def levelTwo : Store :=
  ⟨[("level", .number (.int 2))]⟩

/-- Three levels are enough.  With two the tree is too deep, unless the path that is read first is
not there. -/
theorem eval_limit_iff_depth_emptySumBelow :
    emptySumBelow.depth = 3 ∧
    (∃ v, emptySumBelow.eval 3 levelTwo.get = .ok v ∧ emptySumBelow.eval 60 levelTwo.get = .ok v) ∧
    emptySumBelow.eval 2 levelTwo.get = .error (.tooDeep 2) ∧
    ∀ larger ≥ 2, emptySumBelow.eval larger Store.empty.get =
      .error (.unresolved "level" (.missing "level")) := by
  have hdepth : emptySumBelow.depth = 3 := by decide
  have hthree : (emptySumBelow.eval 3 levelTwo.get).isOk = true := by decide +kernel
  have hshallow : emptySumBelow.eval 2 Store.empty.get =
      .error (.unresolved "level" (.missing "level")) := by rfl
  refine ⟨hdepth, ?_, by rfl, ?_⟩
  · cases heval : emptySumBelow.eval 3 levelTwo.get with
    | error e =>
      rw [heval] at hthree
      cases hthree
    | ok v =>
      have hlimit := (eval_limit_iff_depth emptySumBelow levelTwo 3).1 60 (by decide) v
      exact ⟨v, rfl, (hlimit.mp heval).2⟩
  · obtain ⟨e, he, hlarger⟩ := (eval_limit_iff_depth emptySumBelow Store.empty 2).2.2 (by
      rw [hdepth]
      decide)
    obtain rfl := Except.error.inj (hshallow.symm.trans he)
    exact hlarger.resolve_left (by decide)

end Tree

end SheetRules
