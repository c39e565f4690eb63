import Mathlib.Tactic.Ring
import SheetRules.Proofs.Feature.Completeness
import SheetRules.Proofs.Feature.Soundness
import SheetRules.Token.Scan

/-!
# How deep the expressions of a feature are

The levels of an expression are counted while it is read, and there is a limit to them.  Levels are
depth where an expression grows to the right: then every node puts what is below it one level down
(`Expr.depth_le_deepest`).  But the first operand of a chain has been read before the operators
after it are counted, so its parts may lie as many levels down as there are, and every operator puts
one more node above them.

With `r` levels below its own, an expression can have a product of `r` operators and on top of it a
sum of `r` operators before the next pair of parentheses, which leads one level down.  So depth can
grow by `2 r + 1` from level to level, and it is the square of the number of levels that bounds it
(`Fits.depth_le`).  The bound is attained (`depth_tower`).
-/

namespace SheetRules

namespace Expr

mutual

/-- The number of nodes on the longest way from the root of an expression to a leaf. -/
def depth : Expr → Nat
  | .number _ _ => 1
  | .path _ => 1
  | .binary left _ right _ => max left.depth right.depth + 1
  | .neg inner _ => inner.depth + 1
  | .call _ args _ => depthOfAll args + 1
  | .macroUse _ _ => 1
  | .macroCall _ args _ => depthOfAll args + 1
  | .paren inner _ => inner.depth + 1

/-- The depth of the deepest of several expressions. -/
def depthOfAll : List Expr → Nat
  | [] => 0
  | e :: rest => max e.depth (depthOfAll rest)

end

/-- Every expression has a level. -/
lemma depth_pos (e : Expr) : 1 ≤ e.depth := by
  cases e <;> simp only [depth] <;> omega

/-- The depth of several expressions is bounded if each of them is. -/
lemma depthOfAll_le_iff {es : List Expr} {bound : Nat} :
    depthOfAll es ≤ bound ↔ ∀ e ∈ es, e.depth ≤ bound := by
  induction es with
  | nil => simp [depthOfAll]
  | cons e rest ih => rw [depthOfAll, Nat.max_le, ih, List.forall_mem_cons]

mutual

/-- Depth does not depend on places. -/
@[simp] lemma depth_mapSpans (f : Span → Span) : ∀ e : Expr, (e.mapSpans f).depth = e.depth
  | .number _ _ => by simp only [mapSpans, depth]
  | .path _ => by simp only [mapSpans, depth]
  | .binary left _ right _ => by
    simp only [mapSpans, depth, depth_mapSpans f left, depth_mapSpans f right]
  | .neg inner _ => by simp only [mapSpans, depth, depth_mapSpans f inner]
  | .call _ args _ => by simp only [mapSpans, depth, depthOfAll_mapSpansOfAll f args]
  | .macroUse _ _ => by simp only [mapSpans, depth]
  | .macroCall _ args _ => by simp only [mapSpans, depth, depthOfAll_mapSpansOfAll f args]
  | .paren inner _ => by simp only [mapSpans, depth, depth_mapSpans f inner]

/-- Spans make no difference to the depth of several expressions. -/
lemma depthOfAll_mapSpansOfAll (f : Span → Span) :
    ∀ es : List Expr, depthOfAll (mapSpansOfAll f es) = depthOfAll es
  | [] => by simp only [mapSpansOfAll]
  | e :: rest => by
    simp only [mapSpansOfAll, depthOfAll, depth_mapSpans f e, depthOfAll_mapSpansOfAll f rest]

end

end Expr

namespace Expr

/-! ### Where levels are depth -/

mutual

/-- The expression grows to the right: what stands before the last operator of a chain is no deeper
than its own operators make it. -/
def growsRight : Expr → Bool
  | .number _ _ => true
  | .path _ => true
  | .binary left op right _ => decide (left.depth ≤ left.links op.tier + 1) && right.growsRight
  | .neg inner _ => inner.growsRight
  | .call _ args _ => growRight args
  | .macroUse _ _ => true
  | .macroCall _ args _ => growRight args
  | .paren inner _ => inner.growsRight

/-- All of the expressions grow to the right. -/
def growRight : List Expr → Bool
  | [] => true
  | e :: rest => e.growsRight && growRight rest

end

mutual

/-- An expression that grows to the right goes down one level with every node. -/
lemma depth_le_deepest (level : Nat) : ∀ e : Expr, e.growsRight = true →
    level + e.depth ≤ e.deepest level + 1
  | .number _ _, _ => by simp only [depth, deepest, Nat.le_refl]
  | .path _, _ => by simp only [depth, deepest, Nat.le_refl]
  | .binary left op right _, h => by
    simp only [growsRight, Bool.and_eq_true, decide_eq_true_eq] at h
    have hlast := depth_le_deepest (level + (left.links op.tier + 1)) right h.2
    have hlevel := le_deepest (level + (left.links op.tier + 1)) right
    simp only [depth, deepest]
    omega
  | .neg inner _, h => by
    have hinner := depth_le_deepest (level + 1) inner (by simpa only [growsRight] using h)
    simp only [depth, deepest]
    omega
  | .call _ args _, h => by
    have hargs := depthOfAll_le_deepestOfAll level args (by simpa only [growsRight] using h)
    simp only [depth, deepest]
    omega
  | .macroUse _ _, _ => by simp only [depth, deepest, Nat.le_refl]
  | .macroCall _ args _, h => by
    have hargs := depthOfAll_le_deepestOfAll level args (by simpa only [growsRight] using h)
    simp only [depth, deepest]
    omega
  | .paren inner _, h => by
    have hinner := depth_le_deepest (level + 1) inner (by simpa only [growsRight] using h)
    simp only [depth, deepest]
    omega

/-- Expressions that grow to the right are as deep as the grammar counts them. -/
lemma depthOfAll_le_deepestOfAll (level : Nat) : ∀ es : List Expr, growRight es = true →
    level + depthOfAll es ≤ deepestOfAll level es
  | [], _ => by simp only [depthOfAll, deepestOfAll, Nat.add_zero, Nat.le_refl]
  | e :: rest, h => by
    simp only [growRight, Bool.and_eq_true] at h
    have hhead := depth_le_deepest (level + 1) e h.1
    have hrest := depthOfAll_le_deepestOfAll level rest h.2
    simp only [depthOfAll, deepestOfAll]
    omega

end

end Expr

/-- Items that differ in places only have expressions of the same depth. -/
lemma Item.depth_expr_of_bare {i i' : Item} (h : i'.bare = i.bare) :
    i'.expr.depth = i.expr.depth := by
  have hbare : ∀ j : Item, j.bare.expr.depth = j.expr.depth := by
    intro j
    cases j with
    | define d => exact Expr.depth_mapSpans _ d.body
    | rule r => exact Expr.depth_mapSpans _ r.value
  rw [← hbare i', h, hbare i]

/-! ### The bound -/

/-- How deep an expression of a given kind can be if there are `room` levels below its own. -/
def Tier.maxDepth (tier : Tier) (room : Nat) (e : Expr) : Nat :=
  match tier with
  | .sum => room ^ 2 + room + 1 + e.links .sum
  | .product => room ^ 2 + 1 + e.links .product
  | .signed => room ^ 2 + 1
  | .operand => room ^ 2 + 1

namespace Expr

variable {e : Expr} {tier : Tier} {level room : Nat}

/-- What lies below a level has the room that is left there. -/
lemma exists_room {steps : Nat} (h : e.deepest (level + steps) ≤ level + room) :
    ∃ below, room = below + steps ∧ e.deepest (level + steps) ≤ level + steps + below := by
  have hle := le_deepest (level + steps) e
  exact ⟨room - steps, by omega, by omega⟩

/-- An expression that fits into the room has no more links than the room. -/
lemma links_le (h : e.deepest level ≤ level + room) : e.links tier ≤ room := by
  have hle := add_links_le_deepest tier level e
  omega

/-- A whole sum is at most as deep as the square of the levels from its own on. -/
lemma depth_le_sq (h : e.depth ≤ Tier.sum.maxDepth room e)
    (hroom : e.deepest level ≤ level + room) : e.depth ≤ (room + 1) ^ 2 := by
  have hlinks : e.links .sum ≤ room := links_le hroom
  have hsq : (room + 1) ^ 2 = room ^ 2 + room + 1 + room := by ring
  rw [hsq]
  exact Nat.le_trans h (Nat.add_le_add_left hlinks _)

end Expr

/-- An expression one level down is at most as deep as the square of the room. -/
private lemma depth_le_of_below {inner : Expr}
    (ih : ∀ level room, inner.deepest level ≤ level + room →
      inner.depth ≤ Tier.sum.maxDepth room inner)
    {level room : Nat} (h : inner.deepest (level + 1) ≤ level + room) :
    inner.depth ≤ room ^ 2 := by
  obtain ⟨below, rfl, hbelow⟩ := Expr.exists_room h
  exact Expr.depth_le_sq (ih (level + 1) below hbelow) hbelow

/-- The arguments of a call are one level down. -/
private lemma depthOfAll_le_of_below {args : List Expr}
    (ih : ∀ e ∈ args, ∀ level room, e.deepest level ≤ level + room →
      e.depth ≤ Tier.sum.maxDepth room e)
    {level room : Nat} (h : Expr.deepestOfAll level args ≤ level + room) :
    Expr.depthOfAll args ≤ room ^ 2 := by
  have hargs := (Expr.deepestOfAll_le_iff (Nat.le_add_right level room)).mp h
  exact Expr.depthOfAll_le_iff.mpr fun e he => depth_le_of_below (ih e he) (hargs e he)

/-- **Levels bound depth.**  The induction is on the grammar.  Along a chain the bound of the first
operand is the one to carry: it has all the room, while the operands after it have less and less. -/
theorem Fits.depth_le {tier : Tier} {e : Expr} (h : Fits tier e) :
    ∀ level room, e.deepest level ≤ level + room → e.depth ≤ tier.maxDepth room e := by
  induction h with
  | @term e h ih =>
    intro level room hroom
    have hdepth := ih level room hroom
    have hlinks : e.links .product ≤ room := Expr.links_le hroom
    simp only [Tier.maxDepth, h.links_sum_of_product] at hdepth ⊢
    omega
  | @add left op right span hop hleft hright ihleft ihright =>
    intro level room hroom
    simp only [Expr.deepest, Nat.max_le, hop] at hroom
    have hfirst := ihleft level room hroom.1
    obtain ⟨below, hbelow, hlast⟩ := Expr.exists_room hroom.2
    have hsecond := ihright _ below hlast
    have hlinks : right.links .product ≤ below := Expr.links_le hlast
    have hsq : below ^ 2 ≤ room ^ 2 := Nat.pow_le_pow_left (by omega) 2
    simp only [Tier.maxDepth] at hfirst hsecond
    simp only [Tier.maxDepth, Expr.depth, Expr.links, hop, if_pos]
    omega
  | @factor e h ih =>
    intro level room hroom
    have hdepth := ih level room hroom
    simp only [Tier.maxDepth] at hdepth ⊢
    omega
  | @multiply left op right span hop hleft hright ihleft ihright =>
    intro level room hroom
    simp only [Expr.deepest, Nat.max_le, hop] at hroom
    have hfirst := ihleft level room hroom.1
    obtain ⟨below, hbelow, hlast⟩ := Expr.exists_room hroom.2
    have hsecond := ihright _ below hlast
    have hsq : below ^ 2 ≤ room ^ 2 := Nat.pow_le_pow_left (by omega) 2
    simp only [Tier.maxDepth] at hfirst hsecond
    simp only [Tier.maxDepth, Expr.depth, Expr.links, hop, if_pos]
    omega
  | unsigned h ih => exact ih
  | @neg inner span h ih =>
    intro level room hroom
    simp only [Expr.deepest] at hroom
    obtain ⟨below, rfl, hbelow⟩ := Expr.exists_room hroom
    have hdepth := ih (level + 1) below hbelow
    have hsq : (below + 1) ^ 2 = below ^ 2 + 2 * below + 1 := by ring
    simp only [Tier.maxDepth] at hdepth
    simp only [Tier.maxDepth, Expr.depth, hsq]
    omega
  | number | path | macroUse =>
    intro level room _
    simp only [Expr.depth, Tier.maxDepth]
    omega
  | call hargs ih | macroCall hargs ih =>
    intro level room hroom
    simp only [Expr.deepest] at hroom
    simp only [Expr.depth, Tier.maxDepth]
    exact Nat.succ_le_succ (depthOfAll_le_of_below ih hroom)
  | paren h ih =>
    intro level room hroom
    simp only [Expr.deepest] at hroom
    simp only [Expr.depth, Tier.maxDepth]
    exact Nat.succ_le_succ (depth_le_of_below ih hroom)

/-! ### Expressions that attain the bound -/

/-- An operand with a chain of as many operators after it, all with the number one. -/
def chained (op : BinaryOp) (first : Expr) : Nat → Expr
  | 0 => first
  | count + 1 => .binary (chained op first count) op (.number 1 (.point .start)) (.point .start)

/-- On each level a product and a sum, both as long as the levels below allow, that begin with what
is on the next level. -/
def tower : Nat → Expr
  | 0 => .number 1 (.point .start)
  | room + 1 =>
    chained .add (chained .mul (.paren (tower room) (.point .start)) (room + 1)) (room + 1)

section Chained

variable {op : BinaryOp} {first : Expr}

/-- Every link of a chain adds a level. -/
lemma depth_chained (count : Nat) : (chained op first count).depth = first.depth + count := by
  induction count with
  | zero => rfl
  | succ count ih =>
    have hpos := first.depth_pos
    simp only [chained, Expr.depth, ih]
    omega

/-- The links of a chain are counted. -/
lemma links_chained (hfirst : first.links op.tier = 0) (count : Nat) :
    (chained op first count).links op.tier = count := by
  induction count with
  | zero => exact hfirst
  | succ count ih => simp only [chained, Expr.links, if_pos, ih]

/-- A chain goes as deep as its first operand or its last link. -/
lemma deepest_chained (hfirst : first.links op.tier = 0) (level count : Nat) :
    (chained op first count).deepest level = max (first.deepest level) (level + count) := by
  induction count with
  | zero => exact (Nat.max_eq_left (Expr.le_deepest level first)).symm
  | succ count ih =>
    simp only [chained, Expr.deepest, ih, links_chained hfirst]
    omega

/-- A chain of factors is a product. -/
lemma fits_chained_mul (h : Fits .signed first) (count : Nat) :
    Fits .product (chained .mul first count) := by
  induction count with
  | zero => exact .factor h
  | succ count ih => exact .multiply rfl ih (.unsigned .number)

/-- A chain of summands is a sum. -/
lemma fits_chained_add (h : Fits .product first) (count : Nat) :
    Fits .sum (chained .add first count) := by
  induction count with
  | zero => exact .term h
  | succ count ih => exact .add rfl ih (.factor (.unsigned .number))

end Chained

/-- A chain that begins with a tower in parentheses is a product. -/
lemma fits_tower_paren {room : Nat} (h : Fits .sum (tower room)) (count : Nat) :
    Fits .product (chained .mul (.paren (tower room) (.point .start)) count) :=
  fits_chained_mul (.unsigned (.paren h)) count

/-- A tower is a sum of the grammar. -/
lemma fits_tower (room : Nat) : Fits .sum (tower room) := by
  induction room with
  | zero => exact .term (.factor (.unsigned .number))
  | succ room ih => exact fits_chained_add (fits_tower_paren ih _) _

/-- A tower is as deep as its kind allows. -/
lemma depth_tower (room : Nat) : (tower room).depth = (room + 1) ^ 2 := by
  induction room with
  | zero => rfl
  | succ room ih =>
    rw [tower, depth_chained, depth_chained, Expr.depth, ih]
    ring

/-- A tower goes down no more levels than it is built for. -/
lemma deepest_tower (room level : Nat) : (tower room).deepest level = level + room := by
  induction room generalizing level with
  | zero => rfl
  | succ room ih =>
    let inner : Expr := .paren (tower room) (.point .start)
    have hproduct : inner.links BinaryOp.mul.tier = 0 := rfl
    have hsum : (chained .mul inner (room + 1)).links BinaryOp.add.tier = 0 :=
      (fits_tower_paren (fits_tower room) (room + 1)).links_sum_of_product
    rw [tower, deepest_chained hsum, deepest_chained hproduct, Expr.deepest, ih]
    omega

/-! ### Features -/

namespace Feature

/-- Every item that is read is written by the grammar, and the levels suffice for it. -/
lemma levels_of_mem_items {tokens : List Token} {i : Item} (hi : i ∈ (parse tokens).1.items) :
    Fits .sum i.expr ∧ i.expr.deepest 1 ≤ Limit.exprLevels := by
  obtain ⟨line, hline, hparse⟩ := Parse.exists_line hi
  obtain ⟨hgrammar, hspells⟩ :=
    Line.writesItem_of_parse (Line.isInside_stop_of_mem_split hline) hparse
  refine ⟨?_, Nat.not_lt.mp fun hdeep => ?_⟩
  · cases i with
    | define d => exact hgrammar
    | rule r => exact hgrammar.2
  · obtain ⟨span, hfault⟩ := Line.parse_of_overruns hspells hgrammar hdeep
    rw [hparse] at hfault
    cases hfault

/-- A rule whose value is a tower. -/
def towerRule (room : Nat) : Rule :=
  ⟨0, ⟨[.name "x"], .point .start⟩, .set, tower room, .point .start⟩

/-- The tokens of the rule. -/
def towerKinds (room : Nat) : List Kind :=
  [.number 0, .colon, .name "x", .equals] ++ (tower room).kinds

/-- The rule of a tower is written by the grammar. -/
lemma isWritten_towerRule {room : Nat} (hroom : room < Limit.exprLevels) :
    IsWritten [.rule (towerRule room)] [towerKinds room] where
  spells := .cons ⟨[.number 0], .plain, rfl⟩ .nil
  grammatical := List.forall_mem_singleton.mpr ⟨List.cons_ne_nil _ _, fits_tower room⟩
  levels := by
    refine List.forall_mem_singleton.mpr ?_
    change (tower room).deepest 1 ≤ Limit.exprLevels
    rw [deepest_tower]
    omega

/-- **Reading bounds depth.**  An expression of a feature that grows to the right is at most as deep
as there are levels.  Any other is at most as deep as the square of their number. -/
theorem depth_le_exprLevels {tokens : List Token} {i : Item} (hi : i ∈ (parse tokens).1.items) :
    (i.expr.growsRight = true → i.expr.depth ≤ Limit.exprLevels) ∧
      i.expr.depth ≤ Limit.exprLevels ^ 2 := by
  obtain ⟨hfits, hlevels⟩ := levels_of_mem_items hi
  constructor
  · intro hright
    have hdepth := i.expr.depth_le_deepest 1 hright
    omega
  · have hroom : i.expr.deepest 1 ≤ 1 + (Limit.exprLevels - 1) := hlevels
    exact Expr.depth_le_sq (hfits.depth_le 1 _ hroom) hroom

/-- A character that is written several times. -/
lemma toList_pushn (text : String) (c : Char) (count : Nat) :
    (text.pushn c count).toList = text.toList ++ List.replicate count c := by
  rw [String.pushn]
  induction count with
  | zero => exact (List.append_nil _).symm
  | succ count ih =>
    rw [Nat.repeat, String.toList_push, ih, List.append_assoc, ← List.replicate_succ']

/-- A text is scanned character by character. -/
lemma scan_of_toList {text : String} {chars : List Char} (h : text.toList = chars) :
    (Source.mk "" text).scan = Scan.scanFrom .start 0 .empty chars :=
  congrArg (Scan.scanFrom .start 0 .empty) h

/-- A sum of sixty-four numbers is as deep as there are levels. -/
theorem depth_le_exprLevels_sum :
    let text := "0: x = 1" ++ String.join (List.replicate 63 " + 1")
    let parsed := parse (Source.mk "" text).scan.tokens
    ∃ i ∈ parsed.1.items, i.expr.growsRight = true ∧ i.expr.depth = Limit.exprLevels ∧
      i.expr.depth ≤ Limit.exprLevels ∧ i.expr.depth ≤ Limit.exprLevels ^ 2 := by
  have htext : ("0: x = 1" ++ String.join (List.replicate 63 " + 1")).toList =
      ['0', ':', ' ', 'x', ' ', '=', ' ', '1'] ++
        (List.replicate 63 [' ', '+', ' ', '1']).flatten := by
    rw [String.toList_append, String.toList_join, List.flatMap_replicate]
    rfl
  have hitems : (parse (Scan.scanFrom .start 0 .empty (['0', ':', ' ', 'x', ' ', '=', ' ', '1'] ++
      (List.replicate 63 [' ', '+', ' ', '1']).flatten)).tokens).1.items.map
        (fun i => (i.expr.growsRight, i.expr.depth)) = [(true, Limit.exprLevels)] := by
    decide +kernel
  dsimp only
  rw [scan_of_toList htext]
  -- from here on the tokens are not looked at
  generalize (Scan.scanFrom _ _ _ _).tokens = tokens at hitems ⊢
  obtain ⟨i, hi, hpair⟩ := List.map_eq_singleton_iff.mp hitems
  obtain ⟨hright, hdepth⟩ := Prod.mk.inj hpair
  have hmem : i ∈ (parse tokens).1.items := by
    rw [hi]
    exact List.mem_singleton_self i
  have hbounds := depth_le_exprLevels hmem
  exact ⟨i, hmem, hright, hdepth, hbounds.1 hright, hbounds.2⟩

/-- Sixty-three pairs of parentheses use up the levels, and a sum puts one more node above them:
there is nothing to report, but the value is deeper than there are levels.  A tower is read that is
as deep as the square of their number. -/
theorem depth_exceeds_exprLevels :
    (let text := "0: x = " ++ "".pushn '(' 63 ++ "1" ++ "".pushn ')' 63 ++ " + 1"
      let parsed := parse (Source.mk "" text).scan.tokens
      parsed.2.total = 0 ∧ parsed.1.items.map (·.expr.depth) = [Limit.exprLevels + 1]) ∧
    ∃ tokens i, tokens.getLast?.map Token.kind = some .endOfFile ∧
      (parse tokens).1.items = [i] ∧ (parse tokens).2 = .empty ∧
      i.expr.depth = Limit.exprLevels ^ 2 := by
  have htext : ("0: x = " ++ "".pushn '(' 63 ++ "1" ++ "".pushn ')' 63 ++ " + 1").toList =
      "0: x = ".toList ++ List.replicate 63 '(' ++ "1".toList ++ List.replicate 63 ')' ++
        " + 1".toList := by
    rw [String.toList_append, String.toList_append, String.toList_append, String.toList_append,
      toList_pushn, toList_pushn, String.toList_empty, List.nil_append, List.nil_append]
  refine ⟨?_, ?_⟩
  · dsimp only
    rw [scan_of_toList htext]
    decide +kernel
  let tokens : List Token := (Kind.ofLines [towerKinds 63]).map fun kind => ⟨kind, .point .start⟩
  have htokens : tokens.map Token.kind = Kind.ofLines [towerKinds 63] := by
    simp only [tokens, List.map_map, Function.comp_def, List.map_id']
  have hwritten := isWritten_towerRule (show 63 < Limit.exprLevels by decide)
  obtain ⟨hitems, hreport⟩ := parse_of_isWritten hwritten htokens
  obtain ⟨i, hi, hbare⟩ := List.map_eq_singleton_iff.mp hitems
  refine ⟨tokens, i, ?_, hi, hreport, ?_⟩
  · simp only [tokens, Kind.ofLines, List.map_append, List.map_cons, List.map_nil,
      List.getLast?_concat, Option.map_some]
  · rw [Item.depth_expr_of_bare hbare]
    exact depth_tower 63

end Feature

end SheetRules
