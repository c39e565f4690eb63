import Mathlib.Data.List.Forall2
import SheetRules.Proofs.Feature.Lines
import SheetRules.Proofs.Feature.Reading

/-!
# What the grammar writes is read again

A feature is written one item a line.  From any tokens of these kinds, wherever they stand, the same
items are read again, and nothing is reported.  An item whose expression has a level too many is not
read, and this is what is reported about it.
-/

namespace SheetRules

namespace Parser

/-- What can stand right after an item. -/
def EndsItem (k : Kind) : Prop := k = .newline ∨ k = .endOfFile

/-- What ends an item ends its sum. -/
lemma EndsItem.endsSum {k : Kind} (h : EndsItem k) : Level.EndsSum k := by
  rcases h with rfl | rfl <;> exact ⟨⟨⟨by simp, by simp⟩, rfl⟩, rfl⟩

/-! ### Rules -/

/-- Reading a rule comes to reading its value. -/
lemma runs_rule {r : Rule} {lead : List Kind} {follow : Kind → Prop}
    {P : Cursor → Outcome Rule → Prop} (hlead : SpellsPrecedence r.precedence lead)
    (htarget : r.target.segments ≠ [])
    (hvalue : ∀ (start : Span) (target : Path), target.segments = r.target.segments →
      Runs (expr >>= fun value => pure ⟨r.precedence, target, r.op, value, start.merge value.span⟩)
        r.value.kinds follow P) :
    Runs rule (lead ++ .colon :: (r.target.kinds ++ r.op.kind :: r.value.kinds)) follow P := by
  -- from the colon on, whatever the precedence was
  have hrest : ∀ start : Span, Runs (do
      let _ ← expect .colon
      let target ← path
      let op ← ruleOp
      let value ← expr
      pure ⟨r.precedence, target, op, value, start.merge value.span⟩)
      (.colon :: (r.target.kinds ++ r.op.kind :: r.value.kinds)) follow P := by
    intro start
    refine runs_expect fun _ => ?_
    have hpath : Runs path r.target.kinds (· ≠ .dot)
        (Yields fun target => target.segments = r.target.segments) :=
      runs_path (fun k hk => hk) htarget
    refine hpath.bind (fun target htarget => ?_) fun k hk => ?_
    · exact runs_token (fun _ _ _ => ruleOp_of_eq) fun _ => hvalue start target htarget
    · obtain rfl : k = r.op.kind := hk
      cases r.op <;> simp [RuleOp.kind]
  refine runs_peek fun start _ => ?_
  cases hlead with
  | plain =>
    refine runs_not_eat (fun k hk => by simp [show k = .number _ from hk]) ?_
    exact runs_token (fun _ _ _ => precedence_of_eq) fun _ => hrest start.span
  | negated hneg =>
    refine runs_eat (runs_token (fun _ _ _ => precedence_of_eq) fun _ => ?_)
    rw [← hneg] at hrest
    exact hrest start.span

/-- A line that begins like a rule is read as one. -/
lemma runs_item_of_rule {precedence : Float} {lead kinds : List Kind} {follow : Kind → Prop}
    {P : Cursor → Outcome Item → Prop} (hlead : SpellsPrecedence precedence lead)
    (h : Runs (do pure (.rule (← rule))) (lead ++ kinds) follow P) :
    Runs item (lead ++ kinds) follow P := by
  refine runs_peek ?_
  rintro ⟨kind, start⟩ hkind
  cases hlead with
  | plain =>
    obtain rfl : kind = .number precedence := hkind
    exact h
  | negated hneg =>
    obtain rfl : kind = .minus := hkind
    exact h

/-! ### Definitions -/

/-- A parameter is read from its name. -/
lemma runs_parameter (param : Ident) : Runs ident [.name param.text] (fun _ => True)
    (Yields fun name => name.text = param.text) := by
  intro used rest stop hused _
  obtain ⟨t, used, rfl, ht, hused⟩ := List.map_eq_cons_iff.mp hused
  obtain rfl := List.map_eq_nil_iff.mp hused
  exact ⟨⟨param.text, t.span⟩, rfl, ident_of_eq ht⟩

/-- Parameters with the same names are the same, places aside. -/
lemma map_mapSpan_of_map_text {params params' : Option (List Ident)}
    (h : params.map (List.map Ident.text) = params'.map (List.map Ident.text)) :
    params.map (List.map (Ident.mapSpan .anywhere)) =
      params'.map (List.map (Ident.mapSpan .anywhere)) := by
  have hview : List.map (Ident.mapSpan .anywhere) =
      List.map (fun text => (⟨text, .point .start⟩ : Ident)) ∘ List.map Ident.text := by
    funext names
    rw [Function.comp_apply, List.map_map]
    rfl
  rw [hview, ← Option.map_map, ← Option.map_map, h]

/-- Reading a definition comes to reading its body. -/
lemma runs_macroDef {d : MacroDef} {follow : Kind → Prop} {P : Cursor → Outcome MacroDef → Prop}
    (hbody : ∀ (start nameSpan : Span) (params : Option (List Ident)),
      params.map (List.map Ident.text) = d.params.map (List.map Ident.text) →
      Runs (expr >>= fun body =>
        pure ⟨⟨d.name.text, nameSpan⟩, params, body, start.merge body.span⟩)
        d.body.kinds follow P) :
    Runs macroDef (.bang :: .name d.name.text :: (paramKinds d.params ++ .equals :: d.body.kinds))
      follow P := by
  -- from the equals sign on, whatever the parameters were
  have hrest : ∀ (start nameSpan : Span) (params : Option (List Ident)),
      params.map (List.map Ident.text) = d.params.map (List.map Ident.text) →
      Runs (do
        let _ ← expect .equals
        let body ← expr
        pure (⟨⟨d.name.text, nameSpan⟩, params, body, start.merge body.span⟩ : MacroDef))
        (.equals :: d.body.kinds) follow P :=
    fun start nameSpan params hparams => runs_expect fun _ => hbody start nameSpan params hparams
  refine runs_expect fun start => runs_ident fun nameSpan => ?_
  cases hparams : d.params with
  | none =>
    refine runs_not_eat (fun k hk => by simp [show k = .equals from hk]) ?_
    exact hrest start.span nameSpan none (by rw [hparams])
  | some params =>
    have hlist : Runs (listed ident) (Kind.listed (params.map fun param => [.name param.text]))
        (fun _ => True) (Yields fun r => r.1.map Ident.text = params.map Ident.text) := by
      refine runs_listed ?_ ?_ ?_ fun param _ => runs_parameter param
      · trivial
      · trivial
      · exact fun param _ => ⟨.name param.text, [], rfl, by simp⟩
    refine runs_eat (hlist.bind (fun r hr => ?_) fun _ _ => trivial)
    exact hrest start.span nameSpan (some r.1) (by rw [hparams]; exact congrArg some hr)

/-! ### Items -/

variable {i : Item} {kinds : List Kind}

/-- What the grammar writes as an item is read as that item. -/
lemma runs_item (hspells : i.Spells kinds) (hgrammar : i.IsGrammatical)
    (hlevels : i.expr.deepest 1 ≤ Limit.exprLevels) :
    Runs item kinds EndsItem (Yields fun i' => i'.bare = i.bare) := by
  cases i with
  | define d =>
    obtain rfl := hspells
    refine runs_peek ?_
    rintro ⟨kind, start⟩ rfl
    have hread := (runs_expr hgrammar hlevels).mono fun k hk => EndsItem.endsSum hk
    -- spans are forgotten, so only the texts of the parameters count
    have hdefine : Runs macroDef
        (.bang :: .name d.name.text :: (paramKinds d.params ++ .equals :: d.body.kinds)) EndsItem
        (Yields fun d' => (Item.define d').bare = (Item.define d).bare) := by
      refine runs_macroDef fun start nameSpan params hparams => ?_
      refine hread.last fun body hbody => runs_pure ?_
      have hbare : params.map (List.map (Ident.mapSpan .anywhere)) =
          d.params.map (List.map (Ident.mapSpan .anywhere)) := map_mapSpan_of_map_text hparams
      simp only [Item.bare, Item.mapSpans, MacroDef.mapSpans, Ident.mapSpan, hbare]
      rw [show body.mapSpans .anywhere = d.body.mapSpans .anywhere from hbody]
      rfl
    exact hdefine.last fun d' hd' => runs_pure hd'
  | rule r =>
    obtain ⟨lead, hlead, rfl⟩ := hspells
    obtain ⟨htarget, hvalue⟩ := hgrammar
    have hread := (runs_expr hvalue hlevels).mono fun k hk => EndsItem.endsSum hk
    have hrule : Runs rule (lead ++ .colon :: (r.target.kinds ++ r.op.kind :: r.value.kinds))
        EndsItem (Yields fun r' => (Item.rule r').bare = (Item.rule r).bare) := by
      refine runs_rule hlead htarget fun start target htarget => ?_
      refine hread.last fun value hvalue => runs_pure ?_
      simp only [Item.bare, Item.mapSpans, Rule.mapSpans, Path.mapSpan, htarget]
      rw [show value.mapSpans .anywhere = r.value.mapSpans .anywhere from hvalue]
      rfl
    exact runs_item_of_rule hlead (hrule.last fun r' hr' => runs_pure hr')

/-- An item with a level too many is found too deep. -/
lemma overruns_item (hspells : i.Spells kinds) (hgrammar : i.IsGrammatical)
    (hlevels : Limit.exprLevels < i.expr.deepest 1) : Overruns item kinds := by
  cases i with
  | define d =>
    obtain rfl := hspells
    refine runs_peek ?_
    rintro ⟨kind, start⟩ rfl
    have hdefine : Overruns macroDef
        (.bang :: .name d.name.text :: (paramKinds d.params ++ .equals :: d.body.kinds)) :=
      runs_macroDef fun start nameSpan params _ => (overruns_expr hgrammar hlevels).bind _
    exact hdefine.bind _
  | rule r =>
    obtain ⟨lead, hlead, rfl⟩ := hspells
    obtain ⟨htarget, hvalue⟩ := hgrammar
    have hrule : Overruns rule (lead ++ .colon :: (r.target.kinds ++ r.op.kind :: r.value.kinds)) :=
      runs_rule hlead htarget fun start target _ => (overruns_expr hvalue hlevels).bind _
    exact runs_item_of_rule hlead (hrule.bind _)

end Parser

/-! ### Lines -/

/-- The kinds of tokens on several lines: each is closed by a newline, and the last is followed by
the end of file. -/
def Kind.ofLines (lines : List (List Kind)) : List Kind :=
  lines.flatMap (· ++ [.newline]) ++ [.endOfFile]

/-- Lines are spelled one after the other. -/
lemma Kind.ofLines_cons (kinds : List Kind) (rest : List (List Kind)) :
    Kind.ofLines (kinds :: rest) = kinds ++ .newline :: Kind.ofLines rest := by
  simp [ofLines]

namespace Line

variable {line : Line} {i : Item}

/-- A line that is written as an item is read as that item. -/
lemma parse_of_spells (hspells : i.Spells (line.tokens.map Token.kind))
    (hstop : isInside line.stop = false) (hgrammar : i.IsGrammatical)
    (hlevels : i.expr.deepest 1 ≤ Limit.exprLevels) :
    ∃ i', line.parse = .ok i' ∧ i'.bare = i.bare := by
  obtain ⟨i', hbare, hrun⟩ := Parser.runs_item hspells hgrammar hlevels line.tokens [] line.stop rfl
    (isInside_eq_false.mp hstop)
  rw [List.append_nil] at hrun
  refine ⟨i', ?_, hbare⟩
  rw [Line.parse, Parser.wholeItem, Parser.bind_of_ok hrun]
  rfl

/-- A line that is written as an item with a level too many is not read. -/
lemma parse_of_overruns (hspells : i.Spells (line.tokens.map Token.kind))
    (hgrammar : i.IsGrammatical) (hlevels : Limit.exprLevels < i.expr.deepest 1) :
    ∃ span, line.parse = .error ⟨.nestedTooDeep, span⟩ := by
  obtain ⟨span, hrun⟩ :=
    Parser.overruns_item hspells hgrammar hlevels line.tokens [] line.stop rfl trivial
  rw [List.append_nil] at hrun
  refine ⟨span, ?_⟩
  rw [Line.parse, Parser.wholeItem, Parser.bind_of_error hrun]
  rfl

/-- Lines that are written one after the other are found again. -/
lemma kinds_bodies {lines : List (List Kind)}
    (hlines : ∀ kinds ∈ lines, kinds ≠ [] ∧ ∀ k ∈ kinds, k.IsInside) {tokens : List Token}
    (htokens : tokens.map Token.kind = Kind.ofLines lines) :
    (bodies tokens).map (List.map Token.kind) = lines := by
  induction lines generalizing tokens with
  | nil =>
    obtain ⟨t, rest, rfl, ht, -⟩ := List.map_eq_cons_iff.mp htokens
    rw [bodies_endOfFile ht, List.map_nil]
  | cons kinds rest ih =>
    obtain ⟨⟨hne, hinside⟩, hrest⟩ := List.forall_mem_cons.mp hlines
    rw [Kind.ofLines_cons] at htokens
    obtain ⟨body, more, rfl, hbody, hmore⟩ := List.map_eq_append_iff.mp htokens
    obtain ⟨t, more, rfl, ht, hmore⟩ := List.map_eq_cons_iff.mp hmore
    have hbodyne : body ≠ [] := by
      rintro rfl
      exact hne hbody.symm
    have hall : ∀ u ∈ body, isInside u = true := fun u hu =>
      isInside_eq_true.mpr (Kind.isInside_iff.mp (hinside _ (hbody ▸ List.mem_map_of_mem hu)))
    rw [bodies_append_newline hbodyne hall ht, List.map_cons, hbody, ih hrest hmore]

end Line

/-! ### Features -/

namespace Feature

/-- The grammar writes the items on the lines, one on each, and the levels suffice. -/
structure IsWritten (items : List Item) (lines : List (List Kind)) : Prop where
  spells : List.Forall₂ Item.Spells items lines
  grammatical : ∀ i ∈ items, i.IsGrammatical
  levels : ∀ i ∈ items, i.expr.deepest 1 ≤ Limit.exprLevels

variable {items : List Item} {lines : List (List Kind)} {tokens : List Token}

/-- The tokens of a written feature are cut into the lines that it is written on. -/
lemma spells_linesOf (h : List.Forall₂ Item.Spells items lines)
    (htokens : tokens.map Token.kind = Kind.ofLines lines) :
    List.Forall₂ (fun (i : Item) (line : Line) => i.Spells (line.tokens.map Token.kind)) items
      (linesOf tokens) := by
  have hinside : List.Forall₂ (fun kinds (_ : Item) =>
      (kinds ≠ [] ∧ ∀ k ∈ kinds, k.IsInside) ∧ True) lines items :=
    (h.imp fun i kinds hi => ⟨hi.isInside, trivial⟩).flip
  have hbodies : (linesOf tokens).map (fun line => line.tokens.map Token.kind) = lines := by
    have hkinds := Line.kinds_bodies ((List.forall₂_and_left _ _).mp hinside).1 htokens
    rwa [Line.bodies, List.map_map] at hkinds
  rw [← hbodies] at h
  exact List.forall₂_map_right_iff.mp h

/-- Lines that give the items of a list leave nothing to report. -/
lemma filterMap_of_parse {items : List Item} {lines : List Line}
    (h : List.Forall₂ (fun (i : Item) (line : Line) => ∃ i', line.parse = .ok i' ∧ i'.bare = i.bare)
      items lines) :
    (lines.filterMap Line.item?).map Item.bare = items.map Item.bare ∧
      lines.filterMap Line.fault? = [] := by
  induction h with
  | nil => exact ⟨rfl, rfl⟩
  | @cons i line items lines hline _ ih =>
    obtain ⟨i', hparse, hbare⟩ := hline
    have hitem : line.item? = some i' := by simp [Line.item?, hparse, Except.toOption]
    have hfault : line.fault? = none := by simp [Line.fault?, hparse]
    rw [List.filterMap_cons_some hitem, List.filterMap_cons_none hfault, List.map_cons,
      List.map_cons, hbare, ih.1]
    exact ⟨rfl, ih.2⟩

/-- A written feature is read again, and nothing is reported. -/
lemma parse_of_isWritten (h : IsWritten items lines)
    (htokens : tokens.map Token.kind = Kind.ofLines lines) :
    (parse tokens).1.items.map Item.bare = items.map Item.bare ∧ (parse tokens).2 = .empty := by
  have hstops : ∀ line ∈ linesOf tokens, Line.isInside line.stop = false :=
    fun line => Line.isInside_stop_of_mem_split
  have hspells := ((List.forall₂_and_left _ _).mpr
    ⟨hstops, (spells_linesOf h.spells htokens).flip⟩).flip
  have hread := ((List.forall₂_and_left _ _).mpr ⟨h.grammatical,
    (List.forall₂_and_left _ _).mpr ⟨h.levels, hspells⟩⟩).imp
    fun i line ⟨hgrammar, hlevels, hstop, hspells⟩ =>
      Line.parse_of_spells hspells hstop hgrammar hlevels
  obtain ⟨hitems, hfaults⟩ := filterMap_of_parse hread
  have hroom : (faultsOf tokens).length < Report.limit := by
    rw [faultsOf, hfaults]
    decide
  rw [items_parse hroom, report_parse hroom, faultsOf, hfaults]
  exact ⟨hitems, rfl⟩

/-- An item with a level too many is not read, and that is all that is reported. -/
lemma parse_of_overruns {i : Item} {kinds : List Kind} (hspells : i.Spells kinds)
    (hgrammar : i.IsGrammatical) (hlevels : Limit.exprLevels < i.expr.deepest 1)
    (htokens : tokens.map Token.kind = Kind.ofLines [kinds]) :
    (parse tokens).1.items = [] ∧
      ∃ span, (parse tokens).2 = Report.empty.push ⟨.nestedTooDeep, span⟩ := by
  have hlines := spells_linesOf (.cons hspells .nil) htokens
  cases hline : linesOf tokens with
  | nil =>
    rw [hline] at hlines
    cases hlines
  | cons line rest =>
    rw [hline] at hlines
    obtain ⟨hspells, hnil⟩ := List.forall₂_cons.mp hlines
    obtain rfl := List.forall₂_nil_left_iff.mp hnil
    obtain ⟨span, hparse⟩ := Line.parse_of_overruns hspells hgrammar hlevels
    have hitem : line.item? = none := by simp [Line.item?, hparse, Except.toOption]
    have hfault : line.fault? = some ⟨.nestedTooDeep, span⟩ := by simp [Line.fault?, hparse]
    have hfaults : faultsOf tokens = [⟨.nestedTooDeep, span⟩] := by
      rw [faultsOf, hline, List.filterMap_cons_some hfault, List.filterMap_nil]
    have hroom : (faultsOf tokens).length < Report.limit := by
      rw [hfaults, List.length_singleton]
      decide
    rw [items_parse hroom, report_parse hroom, hfaults, hline, List.filterMap_cons_none hitem]
    exact ⟨rfl, span, rfl⟩

/-- **Reading undoes writing.**  Whatever the grammar writes within the levels, on lines of tokens,
is read again, places aside, with nothing reported; so no two features are written alike.  A rule
that has a level too many gives no item and one fault, which says so. -/
theorem parse_written :
    (∀ items lines tokens, IsWritten items lines → tokens.map Token.kind = Kind.ofLines lines →
      (parse tokens).1.items.map Item.bare = items.map Item.bare ∧ (parse tokens).2 = .empty) ∧
    (∀ items items' lines, IsWritten items lines → IsWritten items' lines →
      items.map Item.bare = items'.map Item.bare) ∧
    (∀ r kinds tokens, (Item.rule r).Spells kinds → (Item.rule r).IsGrammatical →
      Limit.exprLevels < r.value.deepest 1 → tokens.map Token.kind = Kind.ofLines [kinds] →
      (parse tokens).1.items = [] ∧ (parse tokens).2.total = 1 ∧
        (parse tokens).2.entries.map (·.cause.code) = [500]) := by
  refine ⟨fun items lines tokens h htokens => parse_of_isWritten h htokens, ?_, ?_⟩
  · intro items items' lines h h'
    let tokens := (Kind.ofLines lines).map fun kind => (⟨kind, .point .start⟩ : Token)
    have htokens : tokens.map Token.kind = Kind.ofLines lines := by
      simp [tokens, Function.comp_def]
    exact (parse_of_isWritten h htokens).1.symm.trans (parse_of_isWritten h' htokens).1
  · intro r kinds tokens hspells hgrammar hlevels htokens
    obtain ⟨hitems, span, hreport⟩ := parse_of_overruns hspells hgrammar hlevels htokens
    rw [hreport]
    exact ⟨hitems, rfl, rfl⟩

/-- A name from which as many others are subtracted as are asked for. -/
def differenceOf (count : Nat) : Expr :=
  (List.range count).foldl
    (fun left _ => .binary left .sub (.path ⟨[.name "b"], .point .start⟩) (.point .start))
    (.path ⟨[.name "a"], .point .start⟩)

/-- A rule with such a value, before all others. -/
def differenceRule (count : Nat) : Rule :=
  ⟨-1, ⟨[.name "x", .template "y"], .point .start⟩, .push, differenceOf count, .point .start⟩

/-- Repeated differences are sums of the grammar. -/
lemma fits_differenceOf (count : Nat) : Fits .sum (differenceOf count) := by
  have hname : ∀ text, Fits .signed (.path ⟨[.name text], .point .start⟩) :=
    fun text => .unsigned (.path (List.cons_ne_nil _ _))
  induction count with
  | zero => exact .term (.factor (hname "a"))
  | succ count ih =>
    rw [differenceOf, List.range_succ, List.foldl_append]
    exact .add rfl ih (.factor (hname "b"))

/-- With sixty-three subtractions the rule is read, and with one more it is too deep. -/
theorem parse_written_difference :
    (∃ tokens, (parse tokens).1.items.map Item.bare = [(Item.rule (differenceRule 63)).bare] ∧
      (parse tokens).2 = .empty) ∧
    (∃ tokens, (parse tokens).1.items = [] ∧ (parse tokens).2.total = 1 ∧
      (parse tokens).2.entries.map (·.cause.code) = [500]) := by
  let kindsOf (count : Nat) : List Kind :=
    [.minus, .number 1, .colon, .name "x", .dot, .template "y", .plusPlus] ++
      (differenceOf count).kinds
  let tokensOf (count : Nat) : List Token :=
    (Kind.ofLines [kindsOf count]).map fun kind => ⟨kind, .point .start⟩
  have hspells : ∀ count, (Item.rule (differenceRule count)).Spells (kindsOf count) :=
    fun count => ⟨_, .negated rfl, rfl⟩
  have hgrammar : ∀ count, (Item.rule (differenceRule count)).IsGrammatical :=
    fun count => ⟨List.cons_ne_nil _ _, fits_differenceOf count⟩
  have htokens : ∀ count, (tokensOf count).map Token.kind = Kind.ofLines [kindsOf count] := by
    simp [tokensOf, Function.comp_def]
  have hread : (differenceOf 63).deepest 1 ≤ Limit.exprLevels := by decide +kernel
  have hdeep : Limit.exprLevels < (differenceOf 64).deepest 1 := by decide +kernel
  obtain ⟨hwritten, -, hoverrun⟩ := parse_written
  refine ⟨⟨tokensOf 63, hwritten [.rule (differenceRule 63)] [kindsOf 63] _ ?_ (htokens 63)⟩,
    ⟨tokensOf 64, hoverrun _ _ _ (hspells 64) (hgrammar 64) hdeep (htokens 64)⟩⟩
  exact ⟨.cons (hspells 63) .nil, List.forall_mem_singleton.mpr (hgrammar 63),
    List.forall_mem_singleton.mpr hread⟩

end Feature

end SheetRules
