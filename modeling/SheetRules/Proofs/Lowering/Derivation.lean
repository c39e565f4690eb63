import Mathlib.Tactic.Common
import SheetRules.Compile.Lower

/-!
# Derivations of lowerings

`Lowers levels scope e t cost` says that the expression `e` stands for the tree `t` in a scope from
which `levels` nested expansions can be entered, and that finding this out charges `cost` nodes.
There is one rule for each form of expression, and no rule looks at the budget.

The relation describes the lowering completely.  Every successful run has a derivation
(`lowers_of_lowerAt`), and a derivation decides what a run does from any point of the budget
(`Lowers.costs`): it gives the tree if the cost fits into the budget, and otherwise it fails because
the tree is too large.  What is proved about the trees that are made is proved along derivations.
-/

namespace SheetRules

/-- A tree is a constant exactly if it is a leaf that holds it. -/
lemma Tree.constant?_eq_some {α : Type} {t : Tree α} {k : α} :
    t.constant? = some k ↔ t = .static k := by
  cases t <;> simp [Tree.constant?]

/-- A function takes at least one argument. -/
lemma Builtin.pos_of_takes (f : Builtin) {count : Nat} (h : f.takes count = true) :
    0 < count := by
  cases f <;> simp [Builtin.takes] at h <;> omega

namespace Lowering

variable {α β γ : Type}

/-! ### Running one lowering after another -/

/-- A lowering that follows another succeeds exactly if both do, the second one from where the
first one left the budget. -/
lemma bind_eq_ok {m : Lowering β} {f : β → Lowering γ} {used : Nat} {r : γ × Nat} :
    (m >>= f) used = .ok r ↔ ∃ b mid, m used = .ok (b, mid) ∧ f b mid = .ok r := by
  change (m used).bind (fun p => f p.1 p.2) = .ok r ↔ _
  cases h : m used with
  | error fault => simp [Except.bind]
  | ok p =>
    obtain ⟨b, mid⟩ := p
    simp [Except.bind]

/-- A charge succeeds exactly if it fits into the budget. -/
lemma charge_eq_ok {count : Nat} {span : Span} {used : Nat} {r : Unit × Nat} :
    charge count span used = .ok r ↔ used + count ≤ Limit.nodes ∧ r = ((), used + count) := by
  unfold charge
  split
  · rename_i h
    simp only [reduceCtorEq, false_iff, not_and]
    omega
  · rename_i h
    simp only [Except.ok.injEq, eq_comm (a := r)]
    exact ⟨fun hr => ⟨by omega, hr⟩, fun hr => hr.2⟩

/-- A lowering that is a plain value leaves the budget as it is. -/
lemma pure_eq_ok {b : β} {used : Nat} {r : β × Nat} :
    (pure b : Lowering β) used = .ok r ↔ r = (b, used) := by
  change Except.ok (b, used) = .ok r ↔ _
  simp [eq_comm]

/-- A fault is no success. -/
lemma fail_ne_ok {cause : Cause} {span : Span} {used : Nat} {r : β × Nat} :
    fail cause span used ≠ .ok r := by
  simp [fail]

/-! ### Lowerings that charge nothing -/

/-- The lowering gives `b` from every point of the budget, and charges nothing. -/
def Gives (m : Lowering β) (b : β) : Prop :=
  ∀ used, m used = .ok (b, used)

/-- The lowering does not look at the budget, and charges nothing. -/
def IsFree (m : Lowering β) : Prop :=
  ∃ outcome : Except Fault β, ∀ used, m used = outcome.map (·, used)

/-- A free lowering that succeeds once always succeeds in the same way. -/
lemma IsFree.gives_of_eq_ok {m : Lowering β} (hm : IsFree m) {b : β} {used used' : Nat}
    (h : m used = .ok (b, used')) : used' = used ∧ Gives m b := by
  obtain ⟨outcome, houtcome⟩ := hm
  cases outcome with
  | error fault => simp [houtcome, Except.map] at h
  | ok value =>
    simp only [houtcome, Except.map, Except.ok.injEq, Prod.mk.injEq] at h
    obtain ⟨rfl, rfl⟩ := h
    exact ⟨rfl, fun used => by simp [houtcome, Except.map]⟩

/-- What succeeds gives its value and nothing else. -/
lemma gives_pure {b b' : β} : Gives (pure b : Lowering β) b' ↔ b' = b := by
  constructor
  · intro h
    exact (Prod.mk.inj (pure_eq_ok.mp (h 0))).1
  · rintro rfl
    exact fun _ => rfl

/-- What fails gives nothing. -/
lemma not_gives_fail {cause : Cause} {span : Span} {b : β} :
    ¬ Gives (fail cause span : Lowering β) b :=
  fun h => fail_ne_ok (h 0)

/-- Success is free. -/
lemma isFree_pure (b : β) : IsFree (pure b : Lowering β) :=
  ⟨.ok b, fun _ => rfl⟩

/-- Failure is free. -/
lemma isFree_fail (cause : Cause) (span : Span) : IsFree (fail cause span : Lowering β) :=
  ⟨.error ⟨cause, span⟩, fun _ => rfl⟩

/-- What an exception holds, taken into a lowering, charges nothing. -/
lemma isFree_lift (x : Except Fault β) : IsFree (liftM x : Lowering β) := by
  refine ⟨x, fun used => ?_⟩
  cases x <;> rfl

/-- Two free steps are free. -/
lemma IsFree.bind {m : Lowering β} {f : β → Lowering γ} (hm : IsFree m)
    (hf : ∀ b, IsFree (f b)) : IsFree (m >>= f) := by
  obtain ⟨outcome, houtcome⟩ := hm
  cases outcome with
  | error fault =>
    refine ⟨.error fault, fun used => ?_⟩
    change (m used).bind (fun p => f p.1 p.2) = _
    rw [houtcome]
    rfl
  | ok b =>
    obtain ⟨after, hafter⟩ := hf b
    refine ⟨after, fun used => ?_⟩
    change (m used).bind (fun p => f p.1 p.2) = _
    rw [houtcome, ← hafter]
    rfl

/-- Of two free lowerings one after the other, both give a value. -/
lemma gives_bind {m : Lowering β} (hm : IsFree m) {f : β → Lowering γ} {c : γ} :
    Gives (m >>= f) c ↔ ∃ b, Gives m b ∧ Gives (f b) c := by
  constructor
  · intro h
    obtain ⟨b, mid, hb, -⟩ := bind_eq_ok.mp (h 0)
    have hgives := (hm.gives_of_eq_ok hb).2
    refine ⟨b, hgives, fun used => ?_⟩
    obtain ⟨b', mid', hb', hc⟩ := bind_eq_ok.mp (h used)
    obtain ⟨rfl, rfl⟩ := Prod.mk.inj (Except.ok.inj ((hgives used).symm.trans hb'))
    exact hc
  · rintro ⟨b, hb, hc⟩ used
    exact bind_eq_ok.mpr ⟨b, used, hb used, hc used⟩

/-- A function of what a free step gives. -/
lemma gives_map {m : Lowering β} (hm : IsFree m) {f : β → γ} {c : γ} :
    Gives (f <$> m) c ↔ ∃ b, Gives m b ∧ c = f b := by
  rw [map_eq_pure_bind, gives_bind hm]
  simp only [gives_pure]

/-- A step without charge gives what it comes to. -/
lemma gives_lift {x : Except Fault β} {b : β} : Gives (liftM x : Lowering β) b ↔ x = .ok b := by
  constructor
  · intro h
    have h0 := h 0
    cases x with
    | error fault => exact absurd h0 (by intro h; cases h)
    | ok value =>
      have hvalue : (value, 0) = (b, 0) := Except.ok.inj h0
      rw [(Prod.mk.inj hvalue).1]
  · rintro rfl
    exact fun _ => rfl

/-! ### The steps that make a node -/

/-- Operands that are all constant are the constants found. -/
lemma constants?_eq_some {operands : List (Tree α)} {ks : List α} :
    constants? operands = some ks ↔ operands = ks.map .static := by
  induction operands generalizing ks with
  | nil => cases ks <;> simp [constants?]
  | cons t rest ih =>
    simp only [constants?, Option.bind_eq_bind, Option.bind_eq_some_iff, Option.pure_def,
      Option.some.injEq]
    constructor
    · rintro ⟨v, hv, ws, hws, rfl⟩
      rw [Tree.constant?_eq_some] at hv
      rw [List.map_cons, hv, ih.mp hws]
    · intro h
      cases ks with
      | nil => simp at h
      | cons v ws =>
        obtain ⟨rfl, hrest⟩ := List.cons.inj h
        exact ⟨v, rfl, ws, ih.mpr hrest, rfl⟩

section Nodes

variable [Arithmetic α]

/-- A constant is free. -/
lemma isFree_constant (value : α) (span : Span) : IsFree (constant value span) := by
  unfold constant
  split
  · exact isFree_fail _ _
  · exact isFree_pure _

/-- A quotient is free. -/
lemma isFree_quotient (op : BinaryOp) (left right : Tree α) (divisor : Span) :
    IsFree (quotient op left right divisor) := by
  unfold quotient
  split
  · exact isFree_fail _ _
  split
  · exact isFree_fail _ _
  split
  · exact isFree_pure _
  · exact (isFree_constant _ _).bind fun _ => isFree_pure _

/-- An operation is free. -/
lemma isFree_binary (left : Tree α) (op : BinaryOp) (right : Tree α) (divisor span : Span) :
    IsFree (binary left op right divisor span) := by
  unfold binary
  split
  · exact (isFree_lift _).bind fun _ => isFree_constant _ _
  cases op with
  | add => exact isFree_pure _
  | sub => exact isFree_pure _
  | mul => exact isFree_pure _
  | div => exact isFree_quotient _ _ _ _
  | floorDiv => exact (isFree_quotient _ _ _ _).bind fun _ => isFree_pure _

/-- A sign is free. -/
lemma isFree_negate (tree : Tree α) (span : Span) : IsFree (negate tree span) := by
  unfold negate
  split
  · exact isFree_constant _ _
  · exact isFree_pure _

/-- A function is free. -/
lemma isFree_apply (f : Builtin) (operands : List (Tree α)) (span : Span) :
    IsFree (apply f operands span) := by
  unfold apply
  split
  · exact isFree_constant _ _
  · exact isFree_constant _ _
  · exact isFree_constant _ _
  · exact isFree_pure _
  · exact isFree_pure _
  · exact isFree_pure _
  · exact isFree_fail _ _

/-- Folding an operator with the constants `a` and `b` gives `v`. -/
def Folds (op : BinaryOp) (a b v : α) : Prop :=
  match op with
  | .add => v = Arithmetic.add a b
  | .sub => v = Arithmetic.sub a b
  | .mul => v = Arithmetic.mul a b
  | .div => Arithmetic.same b Arithmetic.zero = false ∧ v = Arithmetic.div a b
  | .floorDiv =>
    Arithmetic.same b Arithmetic.zero = false ∧ v = Arithmetic.floor (Arithmetic.div a b)

/-- Two constants are folded to a value exactly if the rules say so. -/
lemma fold_eq_ok_iff {op : BinaryOp} {a b v : α} {divisor : Span} :
    fold op a b divisor = .ok v ↔ Folds op a b v := by
  cases op with
  | add => simp [fold, Folds, eq_comm]
  | sub => simp [fold, Folds, eq_comm]
  | mul => simp [fold, Folds, eq_comm]
  | div => cases h : Arithmetic.same b Arithmetic.zero <;> simp [fold, Folds, h, eq_comm]
  | floorDiv => cases h : Arithmetic.same b Arithmetic.zero <;> simp [fold, Folds, h, eq_comm]

/-- A constant is made of every value that is a number. -/
lemma gives_constant_iff {value : α} {span : Span} {t : Tree α} :
    Gives (constant value span) t ↔ Arithmetic.nonFinite? value = none ∧ t = .static value := by
  unfold constant
  cases h : Arithmetic.nonFinite? value with
  | some reason => simp [not_gives_fail]
  | none => simp [gives_pure]

/-- A quotient needs a constant divisor other than zero.  A divisor of one is dropped, and any other
becomes a factor. -/
lemma gives_quotient_iff {op : BinaryOp} {left right t : Tree α} {divisor : Span} :
    Gives (quotient op left right divisor) t ↔
      ∃ k, right.constant? = some k ∧ Arithmetic.same k Arithmetic.zero = false ∧
        (Arithmetic.same k Arithmetic.one = true ∧ t = left ∨
          Arithmetic.same k Arithmetic.one = false ∧
            Arithmetic.nonFinite? (Arithmetic.div Arithmetic.one k) = none ∧
            t = multiply left (.static (Arithmetic.div Arithmetic.one k))) := by
  unfold quotient
  cases hk : right.constant? with
  | none => simp [not_gives_fail]
  | some k =>
    cases hzero : Arithmetic.same k Arithmetic.zero with
    | true => simp [hzero, not_gives_fail]
    | false =>
      cases hone : Arithmetic.same k Arithmetic.one with
      | true => simp [hzero, hone, gives_pure]
      | false =>
        simp [hzero, hone, gives_map (isFree_constant _ _), gives_constant_iff]

/-- Two constants are folded; otherwise each operator has its own way to make a tree. -/
lemma gives_binary_iff {op : BinaryOp} {left right t : Tree α} {divisor span : Span} :
    Gives (binary left op right divisor span) t ↔
      (∃ a b v, left.constant? = some a ∧ right.constant? = some b ∧ Folds op a b v ∧
        Arithmetic.nonFinite? v = none ∧ t = .static v) ∨
      (left.constant? = none ∨ right.constant? = none) ∧
        match op with
        | .add => t = sum left right
        | .sub => t = difference left right
        | .mul => t = product left right
        | .div => Gives (quotient .div left right divisor) t
        | .floorDiv => ∃ scaled, Gives (quotient .floorDiv left right divisor) scaled ∧
            t = .floor scaled := by
  unfold binary
  cases hleft : left.constant? with
  | some a =>
    cases hright : right.constant? with
    | some b =>
      simp only [gives_bind (isFree_lift _), gives_lift, fold_eq_ok_iff, gives_constant_iff]
      simp
    | none =>
      cases op <;> simp [gives_pure, gives_map (isFree_quotient _ _ _ _)]
  | none =>
    cases op <;> simp [gives_pure, gives_map (isFree_quotient _ _ _ _)]

/-- The opposite of a constant is folded; of any other tree it is a product. -/
lemma gives_negate_iff {tree t : Tree α} {span : Span} :
    Gives (negate tree span) t ↔
      (∃ k, tree.constant? = some k ∧ Arithmetic.nonFinite? (Arithmetic.neg k) = none ∧
        t = .static (Arithmetic.neg k)) ∨
      tree.constant? = none ∧ t = negated tree := by
  unfold negate
  cases h : tree.constant? with
  | some k => simp [gives_constant_iff]
  | none => simp [gives_pure]

/-- Folding a function with constant arguments gives `v`. -/
def Applies (f : Builtin) (ks : List α) (v : α) : Prop :=
  match f, ks with
  | .min, k :: rest => v = rest.foldl Arithmetic.least k
  | .max, k :: rest => v = rest.foldl Arithmetic.greatest k
  | .floor, k :: _ => v = Arithmetic.floor k
  | _, [] => False

/-- The tree of a function whose operands are not all constant. -/
def IsApplication (f : Builtin) (operands : List (Tree α)) (t : Tree α) : Prop :=
  match f, operands with
  | .min, operands => t = .combine .min operands
  | .max, operands => t = .combine .max operands
  | .floor, operand :: _ => t = .floor operand
  | .floor, [] => False

/-- A function of constants is folded; any other has a node of its own. -/
lemma gives_apply_iff {f : Builtin} {operands : List (Tree α)} {span : Span} {t : Tree α}
    (harity : f.takes operands.length = true) :
    Gives (apply f operands span) t ↔
      (∃ ks v, constants? operands = some ks ∧ Applies f ks v ∧
        Arithmetic.nonFinite? v = none ∧ t = .static v) ∨
      constants? operands = none ∧ IsApplication f operands t := by
  obtain ⟨operand, rest, rfl⟩ := List.exists_cons_of_length_pos (f.pos_of_takes harity)
  cases hks : constants? (operand :: rest) with
  | none => cases f <;> simp [apply, hks, IsApplication, gives_pure]
  | some ks =>
    cases ks with
    | nil => simp [constants?_eq_some] at hks
    | cons k ks => cases f <;> simp [apply, hks, Applies, gives_constant_iff]

end Nodes

/-! ### Derivations -/

section Derivations

variable [Arithmetic α]

mutual

/-- In `scope`, from which `levels` nested expansions can be entered, an expression stands for a
tree, and `cost` nodes are charged for it. -/
inductive Lowers : (levels : Nat) → Scope α → Expr → Tree α → (cost : Nat) → Prop
  | number {levels scope value span t}
      (hvalue : Gives (constant (Arithmetic.ofFloat value) span) t) :
      Lowers levels scope (.number value span) t 1
  | path {levels scope p} : Lowers levels scope (.path p) (.dynamic p.text) 1
  | paren {levels scope inner span t cost} (hinner : Lowers levels scope inner t cost) :
      Lowers levels scope (.paren inner span) t (1 + cost)
  | neg {levels scope inner span operand t cost} (hinner : Lowers levels scope inner operand cost)
      (hnode : Gives (negate operand span) t) :
      Lowers levels scope (.neg inner span) t (1 + cost)
  | binary {levels scope left op right span lhs rhs t costLeft costRight}
      (hleft : Lowers levels scope left lhs costLeft)
      (hright : Lowers levels scope right rhs costRight)
      (hnode : Gives (Lowering.binary lhs op rhs right.span span) t) :
      Lowers levels scope (.binary left op right span) t (1 + costLeft + costRight)
  | call {levels scope name args span f operands t cost}
      (hname : Builtin.ofName? name.text = some f) (harity : f.takes args.length = true)
      (hargs : LowersAll levels scope args operands cost)
      (hnode : Gives (apply f operands span) t) :
      Lowers levels scope (.call name args span) t (1 + cost)
  | macroUse {levels scope name span t} (hlookup : scope.lookup? name.text = some t) :
      Lowers levels scope (.macroUse name span) t (1 + t.size)
  | macroCall {levels scope name args span definition values t costArgs costBody}
      (hname : scope.macros.functional? name.text = some definition)
      (hargs : LowersAll (levels + 1) scope args values costArgs)
      (harity : (definition.params.getD []).length = values.length)
      (hbody : Lowers levels (scope.enter (definition.params.getD []) values) definition.body t
        costBody) :
      Lowers (levels + 1) scope (.macroCall name args span) t (1 + costArgs + costBody)

/-- Several expressions stand for as many trees, and `cost` nodes are charged for all of them. -/
inductive LowersAll : (levels : Nat) → Scope α → List Expr → List (Tree α) → (cost : Nat) → Prop
  | nil {levels scope} : LowersAll levels scope [] [] 0
  | cons {levels scope e rest t trees costHead costRest} (hhead : Lowers levels scope e t costHead)
      (hrest : LowersAll levels scope rest trees costRest) :
      LowersAll levels scope (e :: rest) (t :: trees) (costHead + costRest)

end

/-- What lowers the body of a functional macro where `levels` more expansions can be entered. -/
def expandAt : (levels : Nat) → Expand α
  | 0 => noExpansion
  | levels + 1 => fun _ _ => lowerAt levels

/-- Expressions of a level are lowered with the expansion of that level. -/
lemma lowerAt_eq (levels : Nat) :
    (lowerAt levels : Scope α → Expr → Lowering (Tree α)) = lowerWith (expandAt levels) := by
  cases levels <;> rfl

/-! ### Every successful run has a derivation -/

/-- A run that charges one node and goes on has charged that node. -/
lemma charge_one_bind {m : Lowering β} {span : Span} {used : Nat} {r : β × Nat}
    (h : (charge 1 span >>= fun _ => m) used = .ok r) : m (used + 1) = .ok r := by
  obtain ⟨_, mid, hcharge, hm⟩ := bind_eq_ok.mp h
  obtain ⟨-, hmid⟩ := charge_eq_ok.mp hcharge
  rwa [(Prod.mk.inj hmid).2] at hm

-- The recursion goes down the expression at one level, and to the body of a functional macro, which
-- is no part of the expression, at the level below.
mutual

/-- A successful run of the lowering has a derivation, whose cost it charges. -/
theorem lowers_of_lowerWith (levels : Nat) (scope : Scope α) (e : Expr) {used used' : Nat}
    {t : Tree α} (h : lowerWith (expandAt levels) scope e used = .ok (t, used')) :
    ∃ cost, Lowers levels scope e t cost ∧ used' = used + cost := by
  -- each case goes through the steps of a run: the charge, the operands, the node
  cases e with
  | number value span =>
    simp only [lowerWith] at h
    obtain ⟨hused, hgives⟩ := (isFree_constant _ _).gives_of_eq_ok (charge_one_bind h)
    exact ⟨1, .number hgives, hused⟩
  | path p =>
    simp only [lowerWith] at h
    obtain ⟨rfl, rfl⟩ := Prod.mk.inj (pure_eq_ok.mp (charge_one_bind h))
    exact ⟨1, .path, rfl⟩
  | paren inner span =>
    simp only [lowerWith] at h
    obtain ⟨cost, hinner, rfl⟩ := lowers_of_lowerWith levels scope inner (charge_one_bind h)
    exact ⟨1 + cost, .paren hinner, by omega⟩
  | neg inner span =>
    simp only [lowerWith] at h
    obtain ⟨operand, mid, hrun, hnode⟩ := bind_eq_ok.mp (charge_one_bind h)
    obtain ⟨cost, hinner, rfl⟩ := lowers_of_lowerWith levels scope inner hrun
    obtain ⟨rfl, hgives⟩ := (isFree_negate _ _).gives_of_eq_ok hnode
    exact ⟨1 + cost, .neg hinner hgives, by omega⟩
  | binary left op right span =>
    simp only [lowerWith] at h
    obtain ⟨lhs, mid, hrunLeft, hafter⟩ := bind_eq_ok.mp (charge_one_bind h)
    obtain ⟨rhs, mid', hrunRight, hnode⟩ := bind_eq_ok.mp hafter
    obtain ⟨costLeft, hleft, rfl⟩ := lowers_of_lowerWith levels scope left hrunLeft
    obtain ⟨costRight, hright, rfl⟩ := lowers_of_lowerWith levels scope right hrunRight
    obtain ⟨rfl, hgives⟩ := (isFree_binary _ _ _ _ _).gives_of_eq_ok hnode
    exact ⟨1 + costLeft + costRight, .binary hleft hright hgives, by omega⟩
  | call name args span =>
    simp only [lowerWith] at h
    have hafter := charge_one_bind h
    cases hname : Builtin.ofName? name.text with
    | none =>
      rw [hname] at hafter
      exact absurd hafter fail_ne_ok
    | some f =>
      simp only [hname] at hafter
      split at hafter
      · rename_i harity
        obtain ⟨operands, mid, hrun, hnode⟩ := bind_eq_ok.mp hafter
        obtain ⟨cost, hargs, rfl⟩ := lowersAll_of_lowerAllWith levels scope args hrun
        obtain ⟨rfl, hgives⟩ := (isFree_apply _ _ _).gives_of_eq_ok hnode
        exact ⟨1 + cost, .call hname harity hargs hgives, by omega⟩
      · exact absurd hafter fail_ne_ok
  | macroUse name span =>
    simp only [lowerWith, useMacro] at h
    have hafter := charge_one_bind h
    cases hlookup : scope.lookup? name.text with
    | none =>
      simp only [hlookup] at hafter
      exact absurd hafter fail_ne_ok
    | some tree =>
      simp only [hlookup] at hafter
      obtain ⟨_, mid, hcharge, hpure⟩ := bind_eq_ok.mp hafter
      obtain ⟨-, hmid⟩ := charge_eq_ok.mp hcharge
      obtain ⟨rfl, rfl⟩ := Prod.mk.inj (pure_eq_ok.mp hpure)
      exact ⟨1 + t.size, .macroUse hlookup, by have := (Prod.mk.inj hmid).2; omega⟩
  | macroCall name args span =>
    simp only [lowerWith, functional] at h
    have hafter := charge_one_bind h
    cases hname : scope.macros.functional? name.text with
    | none =>
      simp only [hname] at hafter
      obtain ⟨_, _, hfail, -⟩ := bind_eq_ok.mp hafter
      exact absurd hfail fail_ne_ok
    | some definition =>
      simp only [hname] at hafter
      obtain ⟨_, _, hpure, hargsRun⟩ := bind_eq_ok.mp hafter
      obtain ⟨rfl, rfl⟩ := Prod.mk.inj (pure_eq_ok.mp hpure)
      obtain ⟨values, mid, hrun, hbodyRun⟩ := bind_eq_ok.mp hargsRun
      obtain ⟨costArgs, hargs, rfl⟩ := lowersAll_of_lowerAllWith levels scope args hrun
      split at hbodyRun
      · rename_i harity
        -- the body is lowered one level down, which is what the recursion is on
        cases levels with
        | zero => simp [expandAt, noExpansion, fail] at hbodyRun
        | succ levels =>
          change lowerAt levels _ _ _ = _ at hbodyRun
          rw [lowerAt_eq] at hbodyRun
          obtain ⟨costBody, hbody, rfl⟩ := lowers_of_lowerWith levels _ _ hbodyRun
          exact ⟨1 + costArgs + costBody, .macroCall hname hargs harity hbody, by omega⟩
      · exact absurd hbodyRun fail_ne_ok
termination_by (levels, sizeOf e)

/-- A successful run of the lowering on several expressions has a derivation. -/
theorem lowersAll_of_lowerAllWith (levels : Nat) (scope : Scope α) (es : List Expr)
    {used used' : Nat} {trees : List (Tree α)}
    (h : lowerAllWith (expandAt levels) scope es used = .ok (trees, used')) :
    ∃ cost, LowersAll levels scope es trees cost ∧ used' = used + cost := by
  cases es with
  | nil =>
    simp only [lowerAllWith] at h
    obtain ⟨rfl, rfl⟩ := Prod.mk.inj (pure_eq_ok.mp h)
    exact ⟨0, .nil, rfl⟩
  | cons e rest =>
    simp only [lowerAllWith] at h
    obtain ⟨t, mid, hrunHead, hafter⟩ := bind_eq_ok.mp h
    obtain ⟨more, mid', hrunRest, hpure⟩ := bind_eq_ok.mp hafter
    obtain ⟨rfl, rfl⟩ := Prod.mk.inj (pure_eq_ok.mp hpure)
    obtain ⟨costHead, hhead, rfl⟩ := lowers_of_lowerWith levels scope e hrunHead
    obtain ⟨costRest, hrest, rfl⟩ := lowersAll_of_lowerAllWith levels scope rest hrunRest
    exact ⟨costHead + costRest, .cons hhead hrest, by omega⟩
termination_by (levels, sizeOf es)

end

/-- A successful run of the lowering has a derivation, whose cost it charges. -/
theorem lowers_of_lowerAt {levels : Nat} {scope : Scope α} {e : Expr} {used used' : Nat}
    {t : Tree α} (h : lowerAt levels scope e used = .ok (t, used')) :
    ∃ cost, Lowers levels scope e t cost ∧ used' = used + cost := by
  rw [lowerAt_eq] at h
  exact lowers_of_lowerWith levels scope e h

/-! ### What a derivation says about every run -/

/-- The lowering gives `b` for `cost` nodes: from every point of the budget it succeeds if the cost
still fits, and otherwise fails because the tree is too large. -/
def Costs (m : Lowering β) (b : β) (cost : Nat) : Prop :=
  ∀ used ≤ Limit.nodes,
    (used + cost ≤ Limit.nodes → m used = .ok (b, used + cost)) ∧
    (Limit.nodes < used + cost → ∃ span, m used = .error ⟨.treeTooLarge, span⟩)

/-- What a free step gives costs nothing. -/
lemma Gives.costs {m : Lowering β} {b : β} (h : Gives m b) : Costs m b 0 :=
  fun used hused => ⟨fun _ => h used, fun hlt => absurd hlt (by omega)⟩

/-- A charge costs what is charged. -/
lemma costs_charge (count : Nat) (span : Span) : Costs (charge count span) () count := by
  intro used _
  refine ⟨fun hfits => charge_eq_ok.mpr ⟨hfits, rfl⟩, fun hlt => ⟨span, ?_⟩⟩
  simp [charge, hlt]

/-- Costs add up. -/
lemma Costs.bind {m : Lowering β} {f : β → Lowering γ} {b : β} {c : γ} {cost cost' : Nat}
    (hm : Costs m b cost) (hf : Costs (f b) c cost') : Costs (m >>= f) c (cost + cost') := by
  intro used hused
  have heq : (m >>= f) used = (m used).bind fun p => f p.1 p.2 := rfl
  rw [heq]
  -- If the first part fits, the second one decides from where the first one ended.
  by_cases hfits : used + cost ≤ Limit.nodes
  · obtain ⟨hok, hlarge⟩ := hf (used + cost) hfits
    rw [(hm used hused).1 hfits]
    rw [← Nat.add_assoc]
    exact ⟨hok, hlarge⟩
  · obtain ⟨span, herror⟩ := (hm used hused).2 (by omega)
    rw [herror]
    exact ⟨fun hle => absurd hle (by omega), fun _ => ⟨span, rfl⟩⟩

/-- What charges nothing can follow at no cost. -/
lemma Costs.bind_gives {m : Lowering β} {f : β → Lowering γ} {b : β} {c : γ} {cost : Nat}
    (hm : Costs m b cost) (hf : Gives (f b) c) : Costs (m >>= f) c cost :=
  hm.bind hf.costs

mutual

/-- A derivation decides what the lowering does from every point of the budget. -/
theorem Lowers.costs_lowerWith : ∀ {levels : Nat} {scope : Scope α} {e : Expr} {t : Tree α}
    {cost : Nat}, Lowers levels scope e t cost →
      Costs (lowerWith (expandAt levels) scope e) t cost
  | _, _, _, _, _, .number hvalue => by
    simp only [lowerWith]
    exact (costs_charge 1 _).bind_gives hvalue
  | _, _, _, _, _, .path => by
    simp only [lowerWith]
    exact (costs_charge 1 _).bind_gives (gives_pure.mpr rfl)
  | _, _, _, _, _, .paren hinner => by
    simp only [lowerWith]
    exact (costs_charge 1 _).bind hinner.costs_lowerWith
  | _, _, _, _, _, .neg hinner hnode => by
    simp only [lowerWith]
    exact (costs_charge 1 _).bind (hinner.costs_lowerWith.bind_gives hnode)
  | _, _, _, _, _, .binary hleft hright hnode => by
    simp only [lowerWith, Nat.add_assoc]
    exact (costs_charge 1 _).bind
      (hleft.costs_lowerWith.bind (hright.costs_lowerWith.bind_gives hnode))
  | _, _, _, _, _, .call hname harity hargs hnode => by
    simp only [lowerWith, hname, harity, if_true]
    exact (costs_charge 1 _).bind (hargs.costs_lowerAllWith.bind_gives hnode)
  | _, _, _, _, _, .macroUse hlookup => by
    simp only [lowerWith, useMacro, hlookup]
    exact (costs_charge 1 _).bind ((costs_charge _ _).bind_gives (gives_pure.mpr rfl))
  | _, _, _, _, _, .macroCall hname hargs harity hbody => by
    simp only [lowerWith, functional, hname, Nat.add_assoc, pure_bind]
    refine (costs_charge 1 _).bind (hargs.costs_lowerAllWith.bind ?_)
    simp only [harity, if_true]
    change Costs (lowerAt _ _ _) _ _
    rw [lowerAt_eq]
    exact hbody.costs_lowerWith

/-- A derivation for several expressions decides what lowering them does. -/
theorem LowersAll.costs_lowerAllWith : ∀ {levels : Nat} {scope : Scope α} {es : List Expr}
    {trees : List (Tree α)} {cost : Nat}, LowersAll levels scope es trees cost →
      Costs (lowerAllWith (expandAt levels) scope es) trees cost
  | _, _, _, _, _, .nil => by
    simp only [lowerAllWith]
    exact (gives_pure.mpr rfl).costs
  | _, _, _, _, _, .cons hhead hrest => by
    simp only [lowerAllWith]
    exact hhead.costs_lowerWith.bind (hrest.costs_lowerAllWith.bind_gives (gives_pure.mpr rfl))

end

/-- A derivation decides what the lowering does from every point of the budget. -/
theorem Lowers.costs {levels : Nat} {scope : Scope α} {e : Expr} {t : Tree α} {cost : Nat}
    (h : Lowers levels scope e t cost) : Costs (lowerAt levels scope e) t cost := by
  rw [lowerAt_eq]
  exact h.costs_lowerWith

/-- Each expression stands for one tree. -/
lemma LowersAll.length_eq {levels : Nat} {scope : Scope α} {es : List Expr} {trees : List (Tree α)}
    {cost : Nat} (h : LowersAll levels scope es trees cost) : trees.length = es.length := by
  induction es generalizing trees cost with
  | nil => cases h with | nil => rfl
  | cons e rest ih =>
    cases h with
    | cons _ hrest => rw [List.length_cons, List.length_cons, ih hrest]

/-! ### The lowering of an item -/

/-- An item's expression that is lowered has a derivation, and its tree is not too deep. -/
lemma lowers_of_lower {macros : Macros α} {e : Expr} {t : Tree α} (h : lower macros e = .ok t) :
    t.depth ≤ Tree.depthLimit ∧ ∃ cost, Lowers Limit.expansions (.top macros) e t cost := by
  unfold lower at h
  cases hrun : lowerAt Limit.expansions (.top macros) e 0 with
  | error fault =>
    rw [hrun] at h
    cases h
  | ok lowered =>
    obtain ⟨tree, used⟩ := lowered
    obtain ⟨cost, hderivation, -⟩ := lowers_of_lowerAt hrun
    rw [hrun] at h
    change (if tree.depth > Tree.depthLimit then _ else Except.ok tree) = _ at h
    split at h
    · cases h
    · rename_i hdepth
      cases h
      exact ⟨by omega, cost, hderivation⟩

/-- An expression that stands for a tree that is not too deep is lowered to it, if its cost is
within the budget. -/
lemma Lowers.lower_eq_ok {macros : Macros α} {e : Expr} {t : Tree α} {cost : Nat}
    (h : Lowers Limit.expansions (.top macros) e t cost) (hdepth : t.depth ≤ Tree.depthLimit)
    (hcost : cost ≤ Limit.nodes) : lower macros e = .ok t := by
  unfold lower
  rw [(h.costs 0 (Nat.zero_le _)).1 (by omega)]
  change (if t.depth > Tree.depthLimit then _ else Except.ok t) = _
  rw [if_neg (by omega)]

/-- An expression that stands for a tree that is not too deep is lowered to it, unless its cost
exceeds the budget. -/
lemma Lowers.lower_eq {macros : Macros α} {e : Expr} {t : Tree α} {cost : Nat}
    (h : Lowers Limit.expansions (.top macros) e t cost) (hdepth : t.depth ≤ Tree.depthLimit) :
    lower macros e = .ok t ∨ ∃ span, lower macros e = .error ⟨.treeTooLarge, span⟩ := by
  by_cases hfits : cost ≤ Limit.nodes
  · exact .inl (h.lower_eq_ok hdepth hfits)
  · right
    obtain ⟨span, herror⟩ := (h.costs 0 (Nat.zero_le _)).2 (by omega)
    exact ⟨span, by rw [lower, herror]; rfl⟩

end Derivations

end Lowering

end SheetRules
