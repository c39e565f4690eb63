import Mathlib.Data.List.Chain
import Mathlib.Logic.Relation
import SheetRules.Proofs.Compile.Faults
import SheetRules.Proofs.Lowering.Derivation

/-!
# Recursive macros

Functional macros may call each other in any way, and themselves.  Expanding them makes nothing
smaller: the body of a macro is no part of the call.  It comes to an end because expansions are
nested at most `Limit.expansions` deep, and inside one expansion the expressions get smaller
(`wellFounded_enters`).

The limit is exact.  The macros in force link each functional macro to those that its body calls.
An expression whose lowering succeeds has had each of its calls expanded, one level below, so a
chain of calls is at most as long as there are levels (`Lowers.length_le`).  On the other side, a
fault because of the limit arises at the end of a chain that has used up all levels
(`exists_callChain`).
-/

namespace SheetRules

open Relation (ReflTransGen TransGen)

/-! ### Chains of calls -/

namespace Macros

variable {α : Type} {macros : Macros α} {f g : String} {d : MacroDef} {e : Expr}
  {chain : List String}

/-- The names of the functional macros that the body of a functional macro calls. -/
def calledBy (macros : Macros α) (f : String) : List String :=
  match macros.functional? f with
  | some d => d.body.callNames
  | none => []

/-- The functional macro `f` calls the functional macro `g`. -/
def Calls (macros : Macros α) (f g : String) : Prop :=
  g ∈ macros.calledBy f

instance (macros : Macros α) : DecidableRel macros.Calls :=
  fun f g => inferInstanceAs (Decidable (g ∈ macros.calledBy f))

/-- Calls that are made one inside the other: the first one in the expression, and each other one in
the body of the macro that is called before it. -/
def IsCallChain (macros : Macros α) (e : Expr) (chain : List String) : Prop :=
  (∀ g ∈ chain.head?, g ∈ e.callNames) ∧ chain.IsChain macros.Calls

/-- A macro calls what its body calls. -/
lemma calledBy_eq (hd : macros.functional? f = some d) :
    macros.calledBy f = d.body.callNames := by
  rw [calledBy, hd]

/-- A call is a chain of one. -/
lemma isCallChain_singleton (hg : g ∈ e.callNames) : macros.IsCallChain e [g] := by
  refine ⟨?_, .singleton g⟩
  rintro _ ⟨⟩
  exact hg

/-- A chain goes on in the body of the macro that is called first. -/
lemma isCallChain_cons (hd : macros.functional? g = some d) :
    macros.IsCallChain e (g :: chain) ↔ g ∈ e.callNames ∧ macros.IsCallChain d.body chain := by
  have hhead : (∀ g' ∈ (g :: chain).head?, g' ∈ e.callNames) ↔ g ∈ e.callNames := by
    rw [List.head?_cons]
    exact ⟨fun h => h g rfl, fun h _ heq => Option.some.inj heq ▸ h⟩
  simp only [IsCallChain, hhead, List.isChain_cons, Calls, calledBy_eq hd]

/-- From a macro that calls itself, through others or not, there are chains of any length. -/
lemma exists_chain_of_cycle (hcycle : TransGen macros.Calls g g) (length : Nat)
    (hreach : TransGen macros.Calls f g) :
    ∃ rest : List String, rest.length = length ∧ (f :: rest).IsChain macros.Calls := by
  induction length generalizing f with
  | zero => exact ⟨[], rfl, .singleton f⟩
  | succ length ih =>
    -- the next macro on the way to `g` reaches `g` too: by what is left of the way, or by the cycle
    obtain ⟨next, hnext, hway⟩ := TransGen.head'_iff.mp hreach
    obtain ⟨rest, hlength, hrest⟩ := ih (TransGen.trans_right hway hcycle)
    exact ⟨next :: rest, by rw [List.length_cons, hlength], hrest.cons_cons hnext⟩

/-- If a macro that calls itself can be reached, there is a chain that is longer than any limit. -/
lemma exists_callChain_of_cycle (hf : f ∈ e.callNames) (hreach : ReflTransGen macros.Calls f g)
    (hcycle : TransGen macros.Calls g g) (limit : Nat) :
    ∃ chain, macros.IsCallChain e chain ∧ limit < chain.length := by
  obtain ⟨rest, hlength, hrest⟩ :=
    exists_chain_of_cycle hcycle limit (TransGen.trans_right hreach hcycle)
  refine ⟨f :: rest, ⟨?_, hrest⟩, ?_⟩
  · rintro _ ⟨⟩
    exact hf
  · rw [List.length_cons, hlength]
    exact Nat.lt_succ_self limit

end Macros

namespace Lowering

variable {α : Type}

/-! ### Expanding comes to an end -/

/-- Lowering the second expression in its scope goes on with the first one: with a part of it in the
same scope, or, where an expansion may still be entered, with the body of a functional macro that it
calls, in the scope of any arguments. -/
inductive Enters : Scope α × Expr → Scope α × Expr → Prop
  | paren {scope inner span} : Enters (scope, inner) (scope, .paren inner span)
  | neg {scope inner span} : Enters (scope, inner) (scope, .neg inner span)
  | left {scope left op right span} : Enters (scope, left) (scope, .binary left op right span)
  | right {scope left op right span} : Enters (scope, right) (scope, .binary left op right span)
  | argument {scope name args span e} (he : e ∈ args) :
      Enters (scope, e) (scope, .call name args span)
  | macroArgument {scope name args span e} (he : e ∈ args) :
      Enters (scope, e) (scope, .macroCall name args span)
  | body {scope name args span definition values}
      (hname : scope.macros.functional? name.text = some definition)
      (hroom : scope.frames.length < Limit.expansions) :
      Enters (scope.enter (definition.params.getD []) values, definition.body)
        (scope, .macroCall name args span)

/-- The expansions that can still be entered, and then the size of the expression, get smaller with
every step. -/
theorem wellFounded_enters :
    WellFounded (Enters : Scope α × Expr → Scope α × Expr → Prop) := by
  let measure (p : Scope α × Expr) : Nat × Nat :=
    (Limit.expansions - p.1.frames.length, sizeOf p.2)
  have hlex : WellFounded (InvImage (Prod.Lex (· < ·) (· < ·)) measure) :=
    InvImage.wf measure (Prod.lex Nat.lt_wfRel Nat.lt_wfRel).wf
  refine Subrelation.wf (fun {p q} hstep => ?_) hlex
  cases hstep with
  | body hname hroom =>
    apply Prod.Lex.left
    simp only [Scope.enter, List.length_cons]
    omega
  | argument he | macroArgument he =>
    apply Prod.Lex.right
    have hsize := List.sizeOf_lt_of_mem he
    simp only [Expr.call.sizeOf_spec, Expr.macroCall.sizeOf_spec]
    omega
  | paren | neg | left | right =>
    apply Prod.Lex.right
    simp only [Expr.paren.sizeOf_spec, Expr.neg.sizeOf_spec, Expr.binary.sizeOf_spec]
    omega

variable [Arithmetic α]

/-- Expansions one scope further in are lowered by `f`, unless more are open than may be. -/
def nested (f : Scope α → Expr → Lowering (Tree α)) : Expand α := fun name span scope body =>
  if Limit.expansions < scope.frames.length then fail (.expansionTooDeep name.text) span
  else f scope body

/-- Lowers an expression in a scope in which as many expansions are open as it has frames. -/
def lowerIn (scope : Scope α) (e : Expr) : Lowering (Tree α) :=
  lowerAt (Limit.expansions - scope.frames.length) scope e

/-- Two ways to expand macros that agree one scope further in. -/
def AgreeInside (scope : Scope α) (expand expand' : Expand α) : Prop :=
  ∀ name span (inner : Scope α) body, inner.frames.length = scope.frames.length + 1 →
    expand name span inner body = expand' name span inner body

mutual

/-- Lowering expands macros one scope further in only. -/
lemma lowerWith_congr {expand expand' : Expand α} {scope : Scope α}
    (h : AgreeInside scope expand expand') :
    ∀ e : Expr, lowerWith expand scope e = lowerWith expand' scope e
  | .number _ _ => by simp only [lowerWith]
  | .path _ => by simp only [lowerWith]
  | .paren inner _ => by simp only [lowerWith, lowerWith_congr h inner]
  | .neg inner _ => by simp only [lowerWith, lowerWith_congr h inner]
  | .binary left _ right _ => by
    simp only [lowerWith, lowerWith_congr h left, lowerWith_congr h right]
  | .call _ args _ => by simp only [lowerWith, lowerAllWith_congr h args]
  | .macroUse _ _ => by simp only [lowerWith]
  | .macroCall name args span => by
    have hexpand : ∀ params values body, expand name span (scope.enter params values) body =
        expand' name span (scope.enter params values) body :=
      fun params values body => h name span _ body rfl
    simp only [lowerWith, lowerAllWith_congr h args, hexpand]

/-- Arguments are lowered alike by expansions that agree inside the scope. -/
lemma lowerAllWith_congr {expand expand' : Expand α} {scope : Scope α}
    (h : AgreeInside scope expand expand') :
    ∀ es : List Expr, lowerAllWith expand scope es = lowerAllWith expand' scope es
  | [] => by simp only [lowerAllWith]
  | e :: rest => by simp only [lowerAllWith, lowerWith_congr h e, lowerAllWith_congr h rest]

end

/-- Counting the levels that are left is counting the scopes that are open. -/
lemma lowerIn_eq (scope : Scope α) (e : Expr) :
    lowerIn scope e = lowerWith (nested lowerIn) scope e := by
  rw [lowerIn, lowerAt_eq]
  refine lowerWith_congr (fun name span scope' body hlength => ?_) e
  cases hleft : Limit.expansions - scope.frames.length with
  | zero =>
    rw [nested, if_pos (by omega)]
    rfl
  | succ levels =>
    have hlevels : levels = Limit.expansions - scope'.frames.length := by omega
    rw [nested, if_neg (by omega), lowerIn, ← hlevels]
    rfl

/-- No other function lowers expressions in this way. -/
lemma eq_lowerIn {f : Scope α → Expr → Lowering (Tree α)}
    (hf : ∀ scope e, f scope e = lowerWith (nested f) scope e) : f = lowerIn := by
  have hlevels : ∀ levels scope e, Limit.expansions - scope.frames.length ≤ levels →
      f scope e = lowerIn scope e := by
    intro levels
    induction levels with
    | zero =>
      intro scope e hlevels
      rw [hf, lowerIn_eq]
      refine lowerWith_congr (fun name span scope' body hlength => ?_) e
      rw [nested, nested, if_pos (by omega), if_pos (by omega)]
    | succ levels ih =>
      intro scope e hlevels
      rw [hf, lowerIn_eq]
      refine lowerWith_congr (fun name span scope' body hlength => ?_) e
      rw [nested, nested, ih scope' body (by omega)]
  funext scope e
  exact hlevels _ scope e (Nat.le_refl _)

/-! ### Long chains fail -/

/-- The functional macro `g` is in force, and its body is lowered with one level less. -/
def IsExpanded (levels : Nat) (macros : Macros α) (g : String) : Prop :=
  ∃ (inner : Nat) (scope : Scope α) (d : MacroDef) (t : Tree α) (cost : Nat),
    levels = inner + 1 ∧ macros.functional? g = some d ∧ scope.macros = macros ∧
      Lowers inner scope d.body t cost

mutual

/-- Every call in an expression that is lowered is expanded: nothing is left out. -/
lemma Lowers.isExpanded {g : String} : ∀ {levels : Nat} {scope : Scope α} {e : Expr} {t : Tree α}
    {cost : Nat}, Lowers levels scope e t cost → g ∈ e.callNames →
      IsExpanded levels scope.macros g
  | _, _, _, _, _, .number _, hg => absurd hg List.not_mem_nil
  | _, _, _, _, _, .path, hg => absurd hg List.not_mem_nil
  | _, _, _, _, _, .paren hinner, hg => hinner.isExpanded hg
  | _, _, _, _, _, .neg hinner _, hg => hinner.isExpanded hg
  | _, _, _, _, _, .binary hleft hright _, hg => by
    rcases List.mem_append.mp hg with hg | hg
    · exact hleft.isExpanded hg
    · exact hright.isExpanded hg
  | _, _, _, _, _, .call _ _ hargs _, hg => hargs.isExpanded hg
  | _, _, _, _, _, .macroUse _, hg => absurd hg List.not_mem_nil
  | _, _, _, _, _, .macroCall hname hargs _ hbody, hg => by
    rcases List.mem_cons.mp hg with rfl | hg
    · refine ⟨_, _, _, _, _, rfl, hname, ?_, hbody⟩
      rfl
    · exact hargs.isExpanded hg

/-- What lowered arguments call has been expanded. -/
lemma LowersAll.isExpanded {g : String} : ∀ {levels : Nat} {scope : Scope α} {es : List Expr}
    {trees : List (Tree α)} {cost : Nat}, LowersAll levels scope es trees cost →
      g ∈ Expr.callNamesOfAll es → IsExpanded levels scope.macros g
  | _, _, _, _, _, .nil, hg => absurd hg List.not_mem_nil
  | _, _, _, _, _, .cons hhead hrest, hg => by
    rcases List.mem_append.mp hg with hg | hg
    · exact hhead.isExpanded hg
    · exact hrest.isExpanded hg

end

/-- Where an expression is lowered, no chain of calls is longer than the levels. -/
lemma Lowers.length_le {levels : Nat} {scope : Scope α} {e : Expr} {t : Tree α} {cost : Nat}
    (h : Lowers levels scope e t cost) {chain : List String}
    (hchain : scope.macros.IsCallChain e chain) : chain.length ≤ levels := by
  induction chain generalizing levels scope e t cost with
  | nil => exact Nat.zero_le levels
  | cons g rest ih =>
    have hg : g ∈ e.callNames := hchain.1 g rfl
    obtain ⟨inner, scope', d, t', cost', rfl, hd, hscope, hbody⟩ := h.isExpanded hg
    have hrest := ((Macros.isCallChain_cons hd).mp hchain).2
    rw [← hscope] at hrest
    exact Nat.succ_le_succ (ih hbody hrest)

/-! ### Only long chains are too deep -/

/-- A fault because of the depth of expansions has a chain of calls that uses up all levels. -/
lemma failsWithin_exists_callChain (levels : Nat) (scope : Scope α) (e : Expr) :
    FailsWithin (fun fault => fault.cause.code = 203 →
        ∃ chain, scope.macros.IsCallChain e chain ∧ chain.length = levels + 1)
      (lowerAt levels scope e) := by
  have hown : ∀ (P : Prop) (span : Span), Function.IsFixedPt id span →
      Allows (fun fault => fault.cause.code = 203 → P) span :=
    fun P span _ cause hshallow hcode => absurd hcode (Cause.isShallow_iff.mp hshallow)
  induction levels generalizing scope e with
  | zero =>
    refine failsWithin_lowerWith (hown _) e (Expr.mapSpans_id e) ?_
    intro name span scope' d hname hd hscope _
    exact failsWithin_fail fun _ => ⟨[name.text], Macros.isCallChain_singleton hname, rfl⟩
  | succ levels ih =>
    refine failsWithin_lowerWith (hown _) e (Expr.mapSpans_id e) ?_
    intro name span scope' d hname hd hscope _
    refine ⟨fun used fault hrun hcode => ?_⟩
    obtain ⟨chain, hchain, hlength⟩ := (ih scope' d.body).fault used fault hrun hcode
    rw [hscope] at hchain
    exact ⟨name.text :: chain, (Macros.isCallChain_cons hd).mpr ⟨hname, hchain⟩,
      by rw [List.length_cons, hlength]⟩

/-- An expression that fails because of the depth of expansions has a chain of calls that is longer
than the limit. -/
lemma exists_callChain {macros : Macros α} {e : Expr} {fault : Fault}
    (h : lower macros e = .error fault) (hcode : fault.cause.code = 203) :
    ∃ chain, macros.IsCallChain e chain ∧ Limit.expansions < chain.length := by
  unfold lower at h
  cases hrun : lowerAt Limit.expansions (Scope.top macros) e 0 with
  | error first =>
    rw [hrun] at h
    cases h
    obtain ⟨chain, hchain, hlength⟩ :=
      (failsWithin_exists_callChain Limit.expansions (Scope.top macros) e).fault 0 fault hrun hcode
    exact ⟨chain, hchain, by omega⟩
  | ok r =>
    rw [hrun] at h
    change (if r.1.depth > Tree.depthLimit then _ else _) = _ at h
    split at h
    · cases h
      exact nomatch hcode
    · exact nomatch h

end Lowering

/-! ### Rules of a feature -/

/-- A rule whose expression has no derivation does not compile. -/
lemma Rule.exists_fault_of_not_lowers {macros : Macros Float} {r : Rule}
    (h : ∀ t cost, ¬ Lowering.Lowers Limit.expansions (.top macros) r.value t cost) :
    ∃ fault, r.compile macros = .fault fault := by
  unfold Rule.compile
  cases hlower : Lowering.lower macros r.value with
  | error fault => exact ⟨fault, rfl⟩
  | ok tree =>
    obtain ⟨-, cost, hderivation⟩ := Lowering.lowers_of_lower hlower
    exact absurd hderivation (h tree cost)

/-- A rule with a chain of calls that is longer than the limit does not compile. -/
lemma Rule.exists_fault_of_callChain {macros : Macros Float} {r : Rule} {chain : List String}
    (hchain : macros.IsCallChain r.value chain) (hlong : Limit.expansions < chain.length) :
    ∃ fault, r.compile macros = .fault fault := by
  refine r.exists_fault_of_not_lowers fun t cost hderivation => ?_
  have hle := hderivation.length_le hchain
  omega

/-- A rule that fails because of the depth of expansions has such a chain. -/
lemma Rule.exists_callChain {macros : Macros Float} {r : Rule} {fault : Fault}
    (h : r.compile macros = .fault fault) (hcode : fault.cause.code = 203) :
    ∃ chain, macros.IsCallChain r.value chain ∧ Limit.expansions < chain.length := by
  unfold Rule.compile at h
  split at h
  · exact nomatch h
  · next hlower =>
    cases h
    exact Lowering.exists_callChain hlower hcode

/-- **Recursion is caught exactly.**  Expanding macros comes to an end, however they call each
other, and lowering is the only function that expands the body of each call one scope further in, up
to the limit.  If a chain of more calls than the limit allows starts in a rule, and in particular if
a macro is reached from it that calls itself, through others or not, the rule fails; and if no such
chain starts in it, it does not fail because of the depth of expansions. -/
theorem Feature.recursion_caught :
    WellFounded (Lowering.Enters : Scope Float × Expr → Scope Float × Expr → Prop) ∧
    (∀ f : Scope Float → Expr → Lowering (Tree Float),
      (∀ scope e, f scope e = Lowering.lowerWith (Lowering.nested f) scope e) ↔
        f = Lowering.lowerIn) ∧
    ∀ (feature : Feature) (before after : List Item) (r : Rule),
      feature.items = before ++ .rule r :: after →
      let macros := macrosAfter .empty before
      let outcome := (outcomes .empty feature.items)[before.length]?
      ((∃ chain, macros.IsCallChain r.value chain ∧ Limit.expansions < chain.length) →
        ∃ fault, outcome = some (.fault fault)) ∧
      ((∃ f ∈ r.value.callNames, ∃ g, ReflTransGen macros.Calls f g ∧ TransGen macros.Calls g g) →
        ∃ fault, outcome = some (.fault fault)) ∧
      ((∀ chain, macros.IsCallChain r.value chain → chain.length ≤ Limit.expansions) →
        ∀ fault, outcome = some (.fault fault) → fault.cause.code ≠ 203) := by
  refine ⟨Lowering.wellFounded_enters, fun f => ⟨Lowering.eq_lowerIn, ?_⟩, ?_⟩
  · rintro rfl
    exact Lowering.lowerIn_eq
  intro feature before after r hitems macros outcome
  have houtcome : outcome = some (r.compile macros) := by
    change (outcomes .empty feature.items)[before.length]? = _
    rw [hitems, getElem?_outcomes]
    rfl
  have hlong : (∃ chain, macros.IsCallChain r.value chain ∧ Limit.expansions < chain.length) →
      ∃ fault, outcome = some (.fault fault) := by
    rintro ⟨chain, hchain, hlength⟩
    obtain ⟨fault, hfault⟩ := Rule.exists_fault_of_callChain hchain hlength
    exact ⟨fault, by rw [houtcome, hfault]⟩
  refine ⟨hlong, ?_, ?_⟩
  · rintro ⟨f, hf, g, hreach, hcycle⟩
    exact hlong (Macros.exists_callChain_of_cycle hf hreach hcycle Limit.expansions)
  · intro hshort fault hfault hcode
    rw [houtcome, Option.some.injEq] at hfault
    obtain ⟨chain, hchain, hlength⟩ := Rule.exists_callChain hfault hcode
    exact absurd (hshort chain hchain) (by omega)

/-- Functional macros `!m0`, `!m1` and so on, each of which calls the one before it. -/
def stairs (count : Nat) : List Item :=
  let span := Span.point .start
  let use : Expr := .macroUse ⟨"v", span⟩ span
  let body : Nat → Expr
    | 0 => use
    | i + 1 => .binary (.macroCall ⟨"m" ++ toString i, span⟩ [use] span) .add (.number 1 span) span
  (List.range count).map fun i =>
    .define ⟨⟨"m" ++ toString i, span⟩, some [⟨"v", span⟩], body i, span⟩

/-- A rule that calls the last of these macros. -/
def topOfStairs (count : Nat) : Rule :=
  let span := Span.point .start
  ⟨0, ⟨[.name "x"], span⟩, .set,
    .macroCall ⟨"m" ++ toString (count - 1), span⟩ [.number 0 span] span, span⟩

/-- The calls that the rule makes, from the last macro down to the first. -/
def downStairs (count : Nat) : List String :=
  (List.range count).reverse.map fun i => "m" ++ toString i

/-- Thirty-two macros that call each other are expanded, and with one more the rule fails. -/
theorem Feature.recursion_caught_stairs :
    (∃ s, (topOfStairs 32).compile (macrosAfter .empty (stairs 32)) = .statement s) ∧
      (macrosAfter .empty (stairs 33)).IsCallChain (topOfStairs 33).value (downStairs 33) ∧
      ∃ fault, (outcomes .empty (stairs 33 ++ [.rule (topOfStairs 33)]))[33]? =
        some (.fault fault) := by
  have hchain :
      (macrosAfter .empty (stairs 33)).IsCallChain (topOfStairs 33).value (downStairs 33) := by
    unfold Macros.IsCallChain
    decide +kernel
  refine ⟨?_, hchain, ?_⟩
  · have hok : ((topOfStairs 32).compile (macrosAfter .empty (stairs 32))).statement?.isSome := by
      decide +kernel
    cases hcompiled : (topOfStairs 32).compile (macrosAfter .empty (stairs 32)) with
    | statement s => exact ⟨s, rfl⟩
    | fault | nothing =>
      rw [hcompiled] at hok
      exact nomatch hok
  · have hcaught := Feature.recursion_caught.2.2
      ⟨stairs 33 ++ [.rule (topOfStairs 33)], .point .start⟩ (stairs 33) [] (topOfStairs 33) rfl
    have hlength : (stairs 33).length = 33 := by decide +kernel
    rw [hlength] at hcaught
    exact hcaught.1 ⟨downStairs 33, hchain, by decide⟩

end SheetRules
