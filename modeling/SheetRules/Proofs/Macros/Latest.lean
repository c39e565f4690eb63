import Mathlib.Data.List.Nodup
import SheetRules.Proofs.Compile.Outcomes
import SheetRules.Proofs.Macros.Recursion
import SheetRules.Proofs.Text.Cuts

/-!
# The latest definition of a macro

A macro may be defined again and again, and a definition may be rejected.  Which definition is in
force after some items is decided by the last of them that defines the macro: `IsLatest` finds it in
the list of items, without compiling anything.

For a static macro this is all there is to it.  If the body of the latest definition is lowered,
the macro stands for its tree, and otherwise the macro is not defined, whatever was defined before.
A functional macro differs in one point: a definition with a repeated parameter is reported and then
passed over, so the definition before it stays in force.
-/

namespace SheetRules

/-! ### Definitions among items -/

/-- Of the definitions that are wanted, `d` is the latest one among the items, and `earlier` are the
items before it. -/
structure IsLatest (wanted : MacroDef → Prop) (items earlier : List Item) (d : MacroDef) :
    Prop where
  isWanted : wanted d
  eq_append : ∃ later, items = earlier ++ .define d :: later ∧
    ∀ d', Item.define d' ∈ later → ¬ wanted d'

namespace IsLatest

variable {wanted : MacroDef → Prop} {items earlier earlier' : List Item} {item : Item}
  {d d' : MacroDef}

/-- A definition that is wanted is the latest one if no item follows it. -/
lemma concat_self (hd : wanted d) : IsLatest wanted (items ++ [.define d]) items d :=
  ⟨hd, [], rfl, fun _ hd' => absurd hd' List.not_mem_nil⟩

/-- The latest definition is the last item, or else the last item is not wanted. -/
lemma concat_cases (h : IsLatest wanted (items ++ [item]) earlier d) :
    item = .define d ∧ earlier = items ∨
      IsLatest wanted items earlier d ∧ ∀ d', item = .define d' → ¬ wanted d' := by
  obtain ⟨hd, later, heq, hlater⟩ := h
  rcases List.eq_nil_or_concat later with rfl | ⟨more, last, rfl⟩
  · obtain ⟨hitems, hitem⟩ := List.append_inj' heq rfl
    exact .inl ⟨List.singleton_inj.mp hitem, hitems.symm⟩
  · have hlist : items ++ [item] = (earlier ++ .define d :: more) ++ [last] := by
      simpa using heq
    obtain ⟨hitems, hitem⟩ := List.append_inj' hlist rfl
    obtain rfl := List.singleton_inj.mp hitem
    refine .inr ⟨⟨hd, more, hitems, fun d' hd' => ?_⟩, fun d' hd' => ?_⟩
    · exact hlater d' (by simp [hd'])
    · exact hlater d' (by simp [hd'])

/-- What is not wanted does not count at the end. -/
lemma concat_iff (hitem : ∀ d', item = .define d' → ¬ wanted d') :
    IsLatest wanted (items ++ [item]) earlier d ↔ IsLatest wanted items earlier d := by
  constructor
  · intro h
    rcases h.concat_cases with ⟨heq, -⟩ | ⟨hlatest, -⟩
    · exact absurd h.isWanted (hitem d heq)
    · exact hlatest
  · rintro ⟨hd, later, rfl, hlater⟩
    refine ⟨hd, later ++ [item], by simp, fun d' hd' => ?_⟩
    rcases List.mem_append.mp hd' with hd' | hd'
    · exact hlater d' hd'
    · exact hitem d' (List.mem_singleton.mp hd').symm

/-- Neither do several items at the end among which nothing is wanted. -/
lemma append_iff {rest : List Item} (hrest : ∀ d', Item.define d' ∈ rest → ¬ wanted d') :
    IsLatest wanted (items ++ rest) earlier d ↔ IsLatest wanted items earlier d := by
  induction rest using List.reverseRecOn with
  | nil => rw [List.append_nil]
  | append_singleton rest item ih =>
    rw [← List.append_assoc, concat_iff, ih]
    · exact fun d' hd' => hrest d' (List.mem_append_left _ hd')
    · rintro d' rfl
      exact hrest d' (List.mem_append_right _ (List.mem_singleton_self _))

/-- The latest definition is the latest one of fewer that are wanted, if it is one of them. -/
lemma of_imp {fewer : MacroDef → Prop} (h : IsLatest wanted items earlier d)
    (himp : ∀ d', fewer d' → wanted d') (hd : fewer d) : IsLatest fewer items earlier d := by
  obtain ⟨-, later, heq, hlater⟩ := h
  exact ⟨hd, later, heq, fun d' hd' hfewer => hlater d' hd' (himp d' hfewer)⟩

/-- The latest definition is an item of the feature. -/
lemma mem (h : IsLatest wanted items earlier d) : Item.define d ∈ items := by
  obtain ⟨-, later, rfl, -⟩ := h
  simp

/-- The items before the definition are fewer. -/
lemma length_lt (h : IsLatest wanted items earlier d) : earlier.length < items.length := by
  obtain ⟨-, later, rfl, -⟩ := h
  simp

/-- Only one definition is the latest one. -/
lemma unique (h : IsLatest wanted items earlier d) (h' : IsLatest wanted items earlier' d') :
    earlier = earlier' ∧ d = d' := by
  induction items using List.reverseRecOn with
  | nil => exact absurd h.mem List.not_mem_nil
  | append_singleton items item ih =>
    rcases h.concat_cases with ⟨rfl, rfl⟩ | ⟨hlatest, hnot⟩
    · rcases h'.concat_cases with ⟨heq, rfl⟩ | ⟨-, hnot'⟩
      · exact ⟨rfl, Item.define.inj heq⟩
      · exact absurd h.isWanted (hnot' d rfl)
    · exact ih hlatest ((concat_iff hnot).mp h')

end IsLatest

namespace MacroDef

/-- The definition is one of the static macro of a given name. -/
def DefinesStatic (name : String) (d : MacroDef) : Prop :=
  d.params = none ∧ d.name.text = name

/-- The definition is one of the functional macro of a given name. -/
def DefinesFunctional (name : String) (d : MacroDef) : Prop :=
  d.params.isSome = true ∧ d.name.text = name

/-- No two parameters have the same name. -/
def HasDistinctParams (d : MacroDef) : Prop :=
  ((d.params.getD []).map Ident.text).Nodup

/-- The definition is one of the functional macro of a given name, and is not rejected. -/
def BindsFunctional (name : String) (d : MacroDef) : Prop :=
  d.DefinesFunctional name ∧ d.HasDistinctParams

end MacroDef

/-- No parameter is repeated exactly if all of them are different and none has come before. -/
lemma repeatedParam?_eq_none_iff {earlier params : List Ident} :
    repeatedParam? earlier params = none ↔
      (params.map Ident.text).Nodup ∧ ∀ p ∈ params, p.text ∉ earlier.map Ident.text := by
  induction params generalizing earlier with
  | nil => simp [repeatedParam?]
  | cons p rest ih =>
    rw [repeatedParam?]
    by_cases hp : p.text ∈ earlier.map Ident.text
    · have hany : (earlier.any fun q => q.text == p.text) = true := by
        simpa using hp
      rw [if_pos hany]
      exact iff_of_false (by simp) fun h => h.2 p List.mem_cons_self hp
    · have hany : ¬ (earlier.any fun q => q.text == p.text) = true := by
        simpa using hp
      rw [if_neg hany, ih]
      simp only [List.map_cons, List.nodup_cons, List.mem_cons, List.mem_map]
      grind

/-! ### What one item does to the macros in force -/

variable {macros : Macros Float} {d : MacroDef} {name : String} {items earlier : List Item}

/-- A static macro whose body can be lowered is defined by its tree. -/
lemma MacroDef.DefinesStatic.compile_of_ok (h : d.DefinesStatic name) {t : Tree Float}
    (hbody : Lowering.lower macros d.body = .ok t) :
    d.compile macros = (macros.defineStatic name t, .nothing) := by
  simp only [MacroDef.compile, h.1, h.2, hbody]

/-- A static macro whose body cannot be lowered is marked as failed. -/
lemma MacroDef.DefinesStatic.compile_of_error (h : d.DefinesStatic name) {fault : Fault}
    (hbody : Lowering.lower macros d.body = .error fault) :
    d.compile macros = (macros.failStatic name, .fault fault) := by
  simp only [MacroDef.compile, h.1, h.2, hbody]

/-- A static macro stands for the tree of its body, if that is lowered, and else for nothing. -/
lemma MacroDef.DefinesStatic.lookup_compile_iff (h : d.DefinesStatic name) {t : Tree Float} :
    (d.compile macros).1.statics.lookup name = some t ↔
      Lowering.lower macros d.body = .ok t := by
  cases hbody : Lowering.lower macros d.body with
  | ok tree =>
    rw [h.compile_of_ok hbody]
    simp [Macros.defineStatic]
  | error fault =>
    have hnone : (macros.failStatic name).statics.lookup name = none := by
      refine List.lookup_eq_none_iff.mpr fun entry hentry => ?_
      have hne : entry.1 ≠ name := by simpa using (List.mem_filter.mp hentry).2
      simpa using hne.symm
    rw [h.compile_of_error hbody]
    simp [hnone]

/-- A definition does not change what other static macros stand for. -/
lemma MacroDef.lookup_compile_of_not (h : ¬ d.DefinesStatic name) :
    (d.compile macros).1.statics.lookup name = macros.statics.lookup name := by
  unfold MacroDef.compile
  cases hparams : d.params with
  | none =>
    have hname : name ≠ d.name.text := fun heq => h ⟨hparams, heq.symm⟩
    dsimp only
    split
    · simp only [Macros.defineStatic, List.lookup_cons, beq_eq_false_iff_ne.mpr hname]
      exact List.lookup_filter_ne hname _
    · exact List.lookup_filter_ne hname _
  | some params =>
    dsimp only
    split <;> rfl

/-- A functional macro is in force as its definition is written. -/
lemma MacroDef.BindsFunctional.functional?_compile (h : d.BindsFunctional name) :
    (d.compile macros).1.functional? name = some d := by
  obtain ⟨⟨hsome, hname⟩, hdistinct⟩ := h
  obtain ⟨params, hparams⟩ := Option.isSome_iff_exists.mp hsome
  have hrepeated : repeatedParam? [] params = none := by
    rw [repeatedParam?_eq_none_iff]
    refine ⟨?_, by simp⟩
    simpa [HasDistinctParams, hparams] using hdistinct
  simp [MacroDef.compile, hparams, hrepeated, Macros.functional?, Macros.defineFunctional, hname]

/-- A definition that is rejected, or of another macro, leaves a functional macro as it is. -/
lemma MacroDef.functional?_compile_of_not (h : ¬ d.BindsFunctional name) :
    (d.compile macros).1.functional? name = macros.functional? name := by
  unfold MacroDef.compile
  cases hparams : d.params with
  | none =>
    dsimp only
    split <;> rfl
  | some params =>
    dsimp only
    split
    · rfl
    · next hrepeated =>
      have hname : d.name.text ≠ name := by
        intro hname
        refine h ⟨⟨by simp [hparams], hname⟩, ?_⟩
        simpa [HasDistinctParams, hparams] using (repeatedParam?_eq_none_iff.mp hrepeated).1
      simp [Macros.functional?, Macros.defineFunctional, hname]

/-- A functional definition is rejected exactly if a parameter is repeated. -/
lemma MacroDef.DefinesFunctional.compile_eq_nothing (h : d.DefinesFunctional name) :
    (d.compile macros).2 = .nothing ↔ d.HasDistinctParams := by
  obtain ⟨params, hparams⟩ := Option.isSome_iff_exists.mp h.1
  have hdistinct : d.HasDistinctParams ↔ repeatedParam? [] params = none := by
    rw [repeatedParam?_eq_none_iff, HasDistinctParams, hparams]
    simp
  rw [hdistinct, MacroDef.compile, hparams]
  dsimp only
  split
  · next hrepeated => simp [hrepeated]
  · next hrepeated => simp [hrepeated]

/-! ### What all items together do -/

/-- The last item is compiled with the macros of the items before it. -/
lemma macrosAfter_concat (macros : Macros Float) (items : List Item) (item : Item) :
    macrosAfter macros (items ++ [item]) = (item.compile (macrosAfter macros items)).1 := by
  induction items generalizing macros with
  | nil => rfl
  | cons first rest ih => exact ih (first.compile macros).1

/-- A static macro stands for the tree of its latest definition. -/
theorem lookup_macrosAfter (name : String) (items : List Item) (t : Tree Float) :
    (macrosAfter .empty items).statics.lookup name = some t ↔
      ∃ earlier d, IsLatest (MacroDef.DefinesStatic name) items earlier d ∧
        Lowering.lower (macrosAfter .empty earlier) d.body = .ok t := by
  induction items using List.reverseRecOn with
  | nil =>
    constructor
    · intro h
      cases h
    · rintro ⟨earlier, d, h, -⟩
      exact absurd h.mem List.not_mem_nil
  | append_singleton items item ih =>
    rw [macrosAfter_concat]
    -- either the last item defines the name, or the latest definition is one before it
    by_cases hitem : ∃ d, item = .define d ∧ d.DefinesStatic name
    · obtain ⟨d, rfl, hd⟩ := hitem
      change (d.compile _).1.statics.lookup name = some t ↔ _
      rw [hd.lookup_compile_iff]
      constructor
      · exact fun h => ⟨items, d, .concat_self hd, h⟩
      · rintro ⟨earlier, d', hlatest, h⟩
        obtain ⟨rfl, rfl⟩ := hlatest.unique (.concat_self hd)
        exact h
    · have hnot : ∀ d, item = .define d → ¬ d.DefinesStatic name :=
        fun d heq hd => hitem ⟨d, heq, hd⟩
      simp only [IsLatest.concat_iff hnot, ← ih]
      cases item with
      | rule r => rfl
      | define d =>
        change (d.compile _).1.statics.lookup name = some t ↔ _
        rw [MacroDef.lookup_compile_of_not (hnot d rfl)]

/-- A functional macro is that of its latest definition that is not rejected. -/
theorem functional?_macrosAfter (name : String) (items : List Item) (d : MacroDef) :
    (macrosAfter .empty items).functional? name = some d ↔
      ∃ earlier, IsLatest (MacroDef.BindsFunctional name) items earlier d := by
  induction items using List.reverseRecOn with
  | nil =>
    constructor
    · intro h
      cases h
    · rintro ⟨earlier, h⟩
      exact absurd h.mem List.not_mem_nil
  | append_singleton items item ih =>
    rw [macrosAfter_concat]
    by_cases hitem : ∃ d', item = .define d' ∧ d'.BindsFunctional name
    · obtain ⟨d', rfl, hd'⟩ := hitem
      change (d'.compile _).1.functional? name = some d ↔ _
      rw [hd'.functional?_compile, Option.some.injEq]
      constructor
      · rintro rfl
        exact ⟨items, .concat_self hd'⟩
      · rintro ⟨earlier, hlatest⟩
        exact (hlatest.unique (.concat_self hd')).2.symm
    · have hnot : ∀ d', item = .define d' → ¬ d'.BindsFunctional name :=
        fun d' heq hd' => hitem ⟨d', heq, hd'⟩
      simp only [IsLatest.concat_iff hnot, ← ih]
      cases item with
      | rule r => rfl
      | define d' =>
        change (d'.compile _).1.functional? name = some d ↔ _
        rw [MacroDef.functional?_compile_of_not (hnot d' rfl)]

namespace IsLatest

variable {rest : List Item} {item : Item}

/-- The outcome of the latest definition among the items before another one. -/
lemma getElem?_outcomes {wanted : MacroDef → Prop} (h : IsLatest wanted items earlier d) :
    (outcomes .empty (items ++ item :: rest))[earlier.length]? =
      some (d.compile (macrosAfter .empty earlier)).2 := by
  obtain ⟨-, later, rfl, -⟩ := h
  rw [List.append_assoc, List.cons_append, SheetRules.getElem?_outcomes]
  rfl

/-- A static macro stands for nothing but the tree of its latest definition. -/
lemma lookup_iff (h : IsLatest (MacroDef.DefinesStatic name) items earlier d) (t : Tree Float) :
    (macrosAfter .empty items).statics.lookup name = some t ↔
      Lowering.lower (macrosAfter .empty earlier) d.body = .ok t := by
  rw [lookup_macrosAfter]
  constructor
  · rintro ⟨earlier', d', h', hbody⟩
    obtain ⟨rfl, rfl⟩ := h.unique h'
    exact hbody
  · exact fun hbody => ⟨earlier, d, h, hbody⟩

/-- A functional macro is that of its latest definition, if this is not rejected. -/
lemma functional?_of_nothing (h : IsLatest (MacroDef.DefinesFunctional name) items earlier d)
    (hnothing : (d.compile (macrosAfter .empty earlier)).2 = .nothing) :
    (macrosAfter .empty items).functional? name = some d := by
  have hbinds : d.BindsFunctional name :=
    ⟨h.isWanted, h.isWanted.compile_eq_nothing.mp hnothing⟩
  rw [functional?_macrosAfter]
  exact ⟨earlier, h.of_imp (fun _ hd => hd.1) hbinds⟩

/-- A rejected definition of a functional macro leaves in force what was in force before it. -/
lemma functional?_of_fault (h : IsLatest (MacroDef.DefinesFunctional name) items earlier d)
    {fault : Fault} (hfault : (d.compile (macrosAfter .empty earlier)).2 = .fault fault) :
    (macrosAfter .empty items).functional? name =
      (macrosAfter .empty earlier).functional? name := by
  have hrejected : ¬ d.HasDistinctParams := by
    intro hdistinct
    rw [h.isWanted.compile_eq_nothing.mpr hdistinct] at hfault
    cases hfault
  obtain ⟨-, later, rfl, hlater⟩ := h
  have hnot : ∀ d', Item.define d' ∈ .define d :: later → ¬ d'.BindsFunctional name := by
    intro d' hd' hbinds
    rcases List.mem_cons.mp hd' with heq | hd'
    · cases heq
      exact hrejected hbinds.2
    · exact hlater d' hd' hbinds.1
  ext d'
  rw [functional?_macrosAfter, functional?_macrosAfter]
  simp only [append_iff hnot]

end IsLatest

/-! ### Rules that use a macro -/

/-- In the scope of a feature a name means a static macro. -/
lemma Scope.lookup?_top (macros : Macros Float) (name : String) :
    (Scope.top macros).lookup? name = macros.statics.lookup name := by
  simp [Scope.lookup?, Scope.top]

namespace Lowering

variable {α : Type} [Arithmetic α]

mutual

/-- Every macro that is used without arguments in an expression that is lowered stands for a
tree. -/
lemma Lowers.exists_lookup? {name : String} : ∀ {levels : Nat} {scope : Scope α} {e : Expr}
    {t : Tree α} {cost : Nat}, Lowers levels scope e t cost → name ∈ e.plainNames →
      ∃ u, scope.lookup? name = some u
  | _, _, _, _, _, .number _, hname => absurd hname List.not_mem_nil
  | _, _, _, _, _, .path, hname => absurd hname List.not_mem_nil
  | _, _, _, _, _, .paren hinner, hname => hinner.exists_lookup? hname
  | _, _, _, _, _, .neg hinner _, hname => hinner.exists_lookup? hname
  | _, _, _, _, _, .binary hleft hright _, hname => by
    rcases List.mem_append.mp hname with hname | hname
    · exact hleft.exists_lookup? hname
    · exact hright.exists_lookup? hname
  | _, _, _, _, _, .call _ _ hargs _, hname => hargs.exists_lookup? hname
  | _, _, _, t, _, .macroUse hlookup, hname => ⟨t, List.mem_singleton.mp hname ▸ hlookup⟩
  | _, _, _, _, _, .macroCall _ hargs _ _, hname => hargs.exists_lookup? hname

/-- Every name without arguments that arguments use is bound. -/
lemma LowersAll.exists_lookup? {name : String} : ∀ {levels : Nat} {scope : Scope α}
    {es : List Expr} {trees : List (Tree α)} {cost : Nat}, LowersAll levels scope es trees cost →
      name ∈ Expr.plainNamesOfAll es → ∃ u, scope.lookup? name = some u
  | _, _, _, _, _, .nil, hname => absurd hname List.not_mem_nil
  | _, _, _, _, _, .cons hhead hrest, hname => by
    rcases List.mem_append.mp hname with hname | hname
    · exact hhead.exists_lookup? hname
    · exact hrest.exists_lookup? hname

end

end Lowering

/-- A rule that uses a static macro that stands for nothing does not compile. -/
lemma Rule.exists_fault_of_lookup_ne {r : Rule} (hname : name ∈ r.value.plainNames)
    (hnone : ∀ t, macros.statics.lookup name ≠ some t) :
    ∃ fault, r.compile macros = .fault fault := by
  refine r.exists_fault_of_not_lowers fun t cost hderivation => ?_
  obtain ⟨u, hu⟩ := hderivation.exists_lookup? hname
  rw [Scope.lookup?_top] at hu
  exact hnone u hu

/-- A rule that calls a functional macro that is not in force does not compile. -/
lemma Rule.exists_fault_of_functional?_eq_none {r : Rule} (hname : name ∈ r.value.callNames)
    (hnone : macros.functional? name = none) : ∃ fault, r.compile macros = .fault fault := by
  refine r.exists_fault_of_not_lowers fun t cost hderivation => ?_
  obtain ⟨_, _, d, _, _, -, hd, -, -⟩ := hderivation.isExpanded hname
  exact absurd (hnone.symm.trans hd) (by simp)

/-- **The latest definition decides.**  Take a rule of a feature and a macro that its expression
uses.

A static macro stands for the tree of its latest definition before the rule, and for no other tree.
If that definition is rejected, or if there is none, the rule fails.

A functional macro is expanded as its latest definition before the rule says, if that is not
rejected, and the rule fails if there is none.  If the latest definition is rejected, what was in
force before it stays in force, and only if that is nothing the rule fails. -/
theorem Feature.latest_definition_decides (feature : Feature) (before after : List Item) (r : Rule)
    (hitems : feature.items = before ++ .rule r :: after) :
    let macros := macrosAfter .empty before
    let outcome (index : Nat) := (outcomes .empty feature.items)[index]?
    let fails := ∃ fault, outcome before.length = some (.fault fault)
    (∀ name ∈ r.value.plainNames,
      ((∀ d, Item.define d ∈ before → ¬ d.DefinesStatic name) → fails) ∧
      ∀ earlier d, IsLatest (MacroDef.DefinesStatic name) before earlier d →
        (∀ t, (Scope.top macros).lookup? name = some t ↔
          Lowering.lower (macrosAfter .empty earlier) d.body = .ok t) ∧
        ∀ fault, outcome earlier.length = some (.fault fault) → fails) ∧
    ∀ name ∈ r.value.callNames,
      ((∀ d, Item.define d ∈ before → ¬ d.DefinesFunctional name) → fails) ∧
      ∀ earlier d, IsLatest (MacroDef.DefinesFunctional name) before earlier d →
        (outcome earlier.length = some .nothing → macros.functional? name = some d) ∧
        ∀ fault, outcome earlier.length = some (.fault fault) →
          macros.functional? name = (macrosAfter .empty earlier).functional? name ∧
            ((macrosAfter .empty earlier).functional? name = none → fails) := by
  intro macros outcome fails
  -- the rule is compiled with the macros that are in force before it
  have hfails : (∃ fault, r.compile macros = .fault fault) → fails := by
    rintro ⟨fault, hfault⟩
    refine ⟨fault, ?_⟩
    rw [← hfault]
    simp only [outcome, hitems, getElem?_outcomes]
    rfl
  have hdefinition : ∀ {wanted earlier d}, IsLatest wanted before earlier d →
      outcome earlier.length = some (d.compile (macrosAfter .empty earlier)).2 := by
    intro wanted earlier d hlatest
    simp only [outcome, hitems, hlatest.getElem?_outcomes]
  refine ⟨fun name hname => ⟨fun hnone => ?_, fun earlier d hlatest => ?_⟩,
    fun name hname => ⟨fun hnone => ?_, fun earlier d hlatest => ?_⟩⟩
  · refine hfails (Rule.exists_fault_of_lookup_ne hname fun t ht => ?_)
    obtain ⟨_, d, hlatest, -⟩ := (lookup_macrosAfter name before t).mp ht
    exact hnone d hlatest.mem hlatest.isWanted
  · refine ⟨fun t => by rw [Scope.lookup?_top, hlatest.lookup_iff], fun fault hfault => ?_⟩
    refine hfails (Rule.exists_fault_of_lookup_ne hname fun t ht => ?_)
    rw [hdefinition hlatest,
      hlatest.isWanted.compile_of_ok ((hlatest.lookup_iff t).mp ht)] at hfault
    cases hfault
  · refine hfails (Rule.exists_fault_of_functional?_eq_none hname ?_)
    refine Option.eq_none_iff_forall_ne_some.mpr fun d hd => ?_
    obtain ⟨_, hlatest⟩ := (functional?_macrosAfter name before d).mp hd
    exact hnone d hlatest.mem hlatest.isWanted.1
  · rw [hdefinition hlatest]
    refine ⟨fun hnothing => hlatest.functional?_of_nothing (Option.some.inj hnothing),
      fun fault hfault => ?_⟩
    have hsame := hlatest.functional?_of_fault (Option.some.inj hfault)
    refine ⟨hsame, fun hnone => ?_⟩
    exact hfails (Rule.exists_fault_of_functional?_eq_none hname (hsame.trans hnone))

/-- Two definitions of a static and of a functional macro.  The second one is rejected each time: it
divides by zero, or it repeats its parameter. -/
def redefinitions : List MacroDef :=
  let span := Span.point .start
  let x : Expr := .macroUse ⟨"x", span⟩ span
  [⟨⟨"bonus", span⟩, none, .number 2 span, span⟩,
    ⟨⟨"bonus", span⟩, none, .binary (.number 1 span) .div (.number 0 span) span, span⟩,
    ⟨⟨"half", span⟩, some [⟨"x", span⟩], .binary x .div (.number 2 span) span, span⟩,
    ⟨⟨"half", span⟩, some [⟨"x", span⟩, ⟨"x", span⟩], x, span⟩]

/-- A rule that writes the value of an expression. -/
def writing (value : Expr) : Rule :=
  let span := Span.point .start
  ⟨0, ⟨[.name "total"], span⟩, .set, value, span⟩

/-- The definitions and a rule that uses one of the two macros. -/
def redefined (value : Expr) : Feature :=
  ⟨redefinitions.map .define ++ [.rule (writing value)], .point .start⟩

/-- The static macro is not defined any more, though its first definition was all right. -/
theorem Feature.latest_definition_decides_bonus :
    let feature := redefined (.macroUse ⟨"bonus", .point .start⟩ (.point .start))
    IsLatest (MacroDef.DefinesStatic "bonus") (redefinitions.map .define)
        ((redefinitions.take 1).map .define) (redefinitions.get ⟨1, by decide⟩) ∧
      ∃ fault, (outcomes .empty feature.items)[4]? = some (.fault fault) := by
  intro feature
  have hlatest : IsLatest (MacroDef.DefinesStatic "bonus") (redefinitions.map .define)
      ((redefinitions.take 1).map .define) (redefinitions.get ⟨1, by decide⟩) := by
    refine ⟨⟨rfl, rfl⟩, (redefinitions.drop 2).map .define, rfl, fun d hd => ?_⟩
    obtain ⟨d', hd', heq⟩ := List.mem_map.mp hd
    cases heq
    have hparams : ∀ d' ∈ redefinitions.drop 2, d'.params ≠ none := by decide
    exact fun hstatic => hparams d hd' hstatic.1
  obtain ⟨-, hdecides⟩ := (feature.latest_definition_decides _ [] _ rfl).1 "bonus"
    (List.mem_singleton_self _)
  exact ⟨hlatest, (hdecides _ _ hlatest).2 _ rfl⟩

/-- The latest definition of the functional macro is rejected because of its parameters, but the
rule compiles, with half of six by the definition before it. -/
theorem Feature.rejected_functional_passed_over :
    let feature := redefined
      (.macroCall ⟨"half", .point .start⟩ [.number 6 (.point .start)] (.point .start))
    IsLatest (MacroDef.DefinesFunctional "half") (redefinitions.map .define)
        ((redefinitions.take 3).map .define) (redefinitions.get ⟨3, by decide⟩) ∧
      (∃ fault, (outcomes .empty feature.items)[3]? = some (.fault fault) ∧
        fault.cause.code = 201) ∧
      ∃ s, (outcomes .empty feature.items)[4]? = some (.statement s) ∧ s.operand = .static 3 := by
  refine ⟨⟨⟨rfl, rfl⟩, [], rfl, fun d hd => absurd hd List.not_mem_nil⟩, ⟨_, rfl, rfl⟩, ?_⟩
  exact ⟨_, rfl, rfl⟩

end SheetRules
