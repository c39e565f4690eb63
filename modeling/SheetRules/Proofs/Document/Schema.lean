import SheetRules.Proofs.Document.RoundTrip

/-!
# The schema of documents

`IsDocument` says which JSON values are documents.  It is about whole values: an expression is well
formed if it has the right fields and the expressions in it are well formed.  Fields that the schema
does not name may be there, and do not count.

The same can be said node by node.  Every value that the schema looks at has a role, and
`Role.Accepts` is what a role asks of its value alone, without looking into the parts of it that
have roles of their own.  `nodes` lists all nodes in the order of the document: each one before its
parts, and these from left to right.  A value is a document exactly if each of its nodes passes the
check of its role (`isDocument_iff`).
-/

namespace SheetRules

/-- A member of an object is smaller than the object. -/
lemma Json.sizeOf_lt_of_get? {fields : Fields} {name : String} {v : Json}
    (h : Fields.get? name fields = some v) : sizeOf v < sizeOf (object fields) := by
  have hlt := Fields.sizeOf_get? h
  rw [object.sizeOf_spec]
  omega

/-- The part of a value to which a step leads. -/
def Step.find? : Step → Json → Option Json
  | .field name, .object fields => Json.Fields.get? name fields
  | .item index, .list items => items[index]?
  | _, _ => none

/-- A part is smaller than the whole. -/
lemma Step.sizeOf_lt_of_find? {step : Step} {v w : Json} (h : step.find? v = some w) :
    sizeOf w < sizeOf v := by
  unfold find? at h
  split at h
  · exact Json.sizeOf_lt_of_get? h
  · have hlt := List.sizeOf_lt_of_mem (List.mem_of_getElem? h)
    rw [Json.list.sizeOf_spec]
    omega
  · cases h

namespace Document

open Json (Fields)

/-! ### Tags -/

/-- The tags of statements. -/
def statementTags : List String := ["SET", "PUSH"]

/-- The tags of expressions. -/
def expressionTags : List String :=
  ["STATIC_VALUE", "DYNAMIC_VALUE", "ADD", "MULTIPLY", "MIN", "MAX", "FLOOR"]

/-- The operator that the tag of an expression stands for. -/
def operatorOf? : String → Option Operator
  | "STATIC_VALUE" => some .static
  | "DYNAMIC_VALUE" => some .dynamic
  | "ADD" => some (.combine .add)
  | "MULTIPLY" => some (.combine .multiply)
  | "MIN" => some (.combine .min)
  | "MAX" => some (.combine .max)
  | "FLOOR" => some .floor
  | _ => none

/-- Looking for the operator with a tag finds the one that the tag stands for. -/
lemma ofTag?_eq_operatorOf? (tag : String) : Operator.ofTag? tag = operatorOf? tag := by
  unfold operatorOf?
  split
  case h_8 hstatic hdynamic hadd hmultiply hmin hmax hfloor =>
    refine List.find?_eq_none.mpr fun op _ htag => ?_
    obtain rfl : op.tag = tag := by simpa using htag
    match op with
    | .static => exact hstatic rfl
    | .dynamic => exact hdynamic rfl
    | .combine .add => exact hadd rfl
    | .combine .multiply => exact hmultiply rfl
    | .combine .min => exact hmin rfl
    | .combine .max => exact hmax rfl
    | .floor => exact hfloor rfl
  all_goals rfl

/-- A tag stands for an operator exactly if it is in the list. -/
lemma mem_expressionTags_iff {tag : String} :
    tag ∈ expressionTags ↔ ∃ op, operatorOf? tag = some op := by
  constructor
  · intro htag
    simp only [expressionTags, List.mem_cons, List.not_mem_nil, or_false] at htag
    rcases htag with rfl | rfl | rfl | rfl | rfl | rfl | rfl <;> exact ⟨_, rfl⟩
  · rintro ⟨op, hop⟩
    unfold operatorOf? at hop
    split at hop
    case h_8 => cases hop
    all_goals simp [expressionTags]

/-- There is an action with a tag exactly if the tag is in the list. -/
lemma mem_statementTags_iff {tag : String} :
    tag ∈ statementTags ↔ ∃ action, Action.ofTag? tag = some action := by
  constructor
  · intro htag
    simp only [statementTags, List.mem_cons, List.not_mem_nil, or_false] at htag
    rcases htag with rfl | rfl
    · exact ⟨.set, rfl⟩
    · exact ⟨.push, rfl⟩
  · rintro ⟨action, haction⟩
    obtain rfl : action.tag = tag := by simpa using List.find?_some haction
    cases action <;> simp [statementTags, Action.tag]

/-! ### Whole values -/

mutual

/-- An expression names its operator, and its operands fit the operator. -/
inductive IsExpression : Json → Prop
  | intro {fields : Fields} {tag : String} {op : Operator} {operands : Json}
      (hoperator : Fields.get? "operator" fields = some (.text tag))
      (hop : operatorOf? tag = some op)
      (hoperands : Fields.get? "operands" fields = some operands)
      (h : AreOperands op operands) : IsExpression (.object fields)

/-- The operands are a number for a constant, a text for a path, expressions in a list for a
combination, and one expression for a floor, in a list or bare. -/
inductive AreOperands : Operator → Json → Prop
  | static {n : Json.Number} : AreOperands .static (.number n)
  | dynamic {path : String} : AreOperands .dynamic (.text path)
  | combine {op : Combine} {items : List Json} (h : ∀ v ∈ items, IsExpression v) :
      AreOperands (.combine op) (.list items)
  | floor {v : Json} (h : IsExpression v) : AreOperands .floor (.list [v])
  | bareFloor {fields : Fields} (h : IsExpression (.object fields)) :
      AreOperands .floor (.object fields)

end

/-- A statement has a number as its precedence, a text as its target, the tag of an action and an
expression. -/
inductive IsStatement : Json → Prop
  | intro {fields : Fields} {n : Json.Number} {target tag : String} {operand : Json}
      (hprecedence : Fields.get? "precedence" fields = some (.number n))
      (htarget : Fields.get? "target" fields = some (.text target))
      (hoperator : Fields.get? "operator" fields = some (.text tag))
      (htag : tag ∈ statementTags)
      (hoperand : Fields.get? "operand" fields = some operand) (h : IsExpression operand) :
      IsStatement (.object fields)

/-- A document is a list of statements. -/
inductive IsDocument : Json → Prop
  | intro {items : List Json} (h : ∀ v ∈ items, IsStatement v) : IsDocument (.list items)

/-! ### Node by node -/

/-- What a value in a document stands for. -/
inductive Role where
  | document
  | statement
  | expression
  | operands (op : Operator)

/-- The role of the operands of an operator.  An object below a floor is an expression itself. -/
def Role.ofOperands : Operator → Json → Role
  | .floor, .object _ => .expression
  | op, _ => .operands op

/-- A floor whose operand is not an object has a list of operands. -/
lemma Role.ofOperands_floor {v : Json} (h : ∀ fields, v ≠ .object fields) :
    ofOperands .floor v = .operands .floor := by
  cases v with
  | object fields => exact absurd rfl (h fields)
  | _ => rfl

/-- What a role asks of its value, apart from what it asks of the parts. -/
def Role.Accepts : Role → Json → Prop
  | .document, v => ∃ items, v = .list items
  | .statement, v => ∃ fields, v = .object fields ∧
      (∃ n, Fields.get? "precedence" fields = some (.number n)) ∧
      (∃ target, Fields.get? "target" fields = some (.text target)) ∧
      (∃ tag ∈ statementTags, Fields.get? "operator" fields = some (.text tag)) ∧
      ∃ operand, Fields.get? "operand" fields = some operand
  | .expression, v => ∃ fields, v = .object fields ∧
      (∃ tag ∈ expressionTags, Fields.get? "operator" fields = some (.text tag)) ∧
      ∃ operands, Fields.get? "operands" fields = some operands
  | .operands .static, v => ∃ n, v = .number n
  | .operands .dynamic, v => ∃ path, v = .text path
  | .operands (.combine _), v => ∃ items, v = .list items
  | .operands .floor, v => ∃ inner, v = .list [inner]

/-- A part of a value that has a role of its own. -/
structure Part where
  step : Step
  role : Role
  value : Json

/-- The items of a list as parts, counted from a given index on. -/
def itemParts (role : Role) (index : Nat) (items : List Json) : List Part :=
  (items.zipIdx index).map fun item => ⟨.item item.2, role, item.1⟩

/-- The operator that an expression names, if there is such an operator. -/
def operator? (fields : Fields) : Option Operator :=
  match Fields.get? "operator" fields with
  | some (.text tag) => operatorOf? tag
  | _ => none

/-- The parts of a value, from left to right. -/
def Role.parts : Role → Json → List Part
  | .document, .list items => itemParts .statement 0 items
  | .statement, .object fields =>
    (Fields.get? "operand" fields).toList.map fun v => ⟨.field "operand", .expression, v⟩
  | .expression, .object fields =>
    match operator? fields, Fields.get? "operands" fields with
    | some op, some v => [⟨.field "operands", .ofOperands op v, v⟩]
    | _, _ => []
  | .operands (.combine _), .list items => itemParts .expression 0 items
  | .operands .floor, .list items => itemParts .expression 0 items
  | _, _ => []

/-- The parts of a list are its items, each with its index. -/
lemma mem_itemParts {role : Role} {index : Nat} {items : List Json} {p : Part} :
    p ∈ itemParts role index items ↔
      ∃ i v, items[i]? = some v ∧ p = ⟨.item (index + i), role, v⟩ := by
  simp only [itemParts, List.mem_map, Prod.exists, List.mk_mem_zipIdx_iff_le_and_getElem?_sub]
  constructor
  · rintro ⟨v, i, ⟨hle, hv⟩, rfl⟩
    exact ⟨i - index, v, hv, by rw [Nat.add_sub_cancel' hle]⟩
  · rintro ⟨i, v, hv, rfl⟩
    exact ⟨v, index + i, ⟨Nat.le_add_right _ _, by rwa [Nat.add_sub_cancel_left]⟩, rfl⟩

/-- A part is where its step leads to.  The step goes to an operand or to the item of a list. -/
lemma Role.find?_of_mem_parts {role : Role} {v : Json} {p : Part} (h : p ∈ role.parts v) :
    p.step.find? v = some p.value ∧
      (p.step = .field "operand" ∨ p.step = .field "operands" ∨ ∃ index, p.step = .item index) := by
  have hitem : ∀ {role items}, p ∈ itemParts role 0 items →
      p.step.find? (.list items) = some p.value ∧
        (p.step = .field "operand" ∨ p.step = .field "operands" ∨
          ∃ index, p.step = .item index) := by
    intro role items hp
    obtain ⟨i, w, hw, rfl⟩ := mem_itemParts.mp hp
    refine ⟨?_, .inr (.inr ⟨_, rfl⟩)⟩
    rwa [Nat.zero_add]
  unfold parts at h
  split at h
  · exact hitem h
  · obtain ⟨w, hw, rfl⟩ := List.mem_map.mp h
    exact ⟨Option.mem_toList.mp hw, .inl rfl⟩
  · split at h
    · next hget =>
      obtain rfl := List.mem_singleton.mp h
      exact ⟨hget, .inr (.inl rfl)⟩
    · exact absurd h List.not_mem_nil
  · exact hitem h
  · exact hitem h
  · exact absurd h List.not_mem_nil

/-- A value in a document, with its role and where it stands. -/
structure Node where
  pointer : Pointer
  role : Role
  value : Json

/-- The node passes the check of its role. -/
def Node.Passes (n : Node) : Prop :=
  n.role.Accepts n.value

/-- The nodes of a value that stands at `here`: the value itself, and then its parts from left to
right, each with all nodes in it. -/
def nodes (role : Role) (here : Pointer) (v : Json) : List Node :=
  ⟨here, role, v⟩ :: (role.parts v).attach.flatMap fun p =>
    nodes p.1.role (here ++ [p.1.step]) p.1.value
termination_by sizeOf v
decreasing_by exact Step.sizeOf_lt_of_find? (Role.find?_of_mem_parts p.2).1

/-- The nodes of some parts of a value that stands at `here`. -/
def nodesOf (here : Pointer) (parts : List Part) : List Node :=
  parts.flatMap fun p => nodes p.role (here ++ [p.step]) p.value

/-- The nodes of a value are the value itself and those of its parts. -/
lemma nodes_eq (role : Role) (here : Pointer) (v : Json) :
    nodes role here v = ⟨here, role, v⟩ :: nodesOf here (role.parts v) := by
  rw [nodes, nodesOf,
    List.flatMap_subtype (g := fun p => nodes p.role (here ++ [p.step]) p.value) fun _ _ => rfl,
    List.unattach_attach]

/-- Without parts there are no nodes. -/
lemma nodesOf_nil (here : Pointer) : nodesOf here [] = [] := rfl

/-- The nodes of parts are listed part by part. -/
lemma nodesOf_cons (here : Pointer) (p : Part) (rest : List Part) :
    nodesOf here (p :: rest) = nodes p.role (here ++ [p.step]) p.value ++ nodesOf here rest := by
  rw [nodesOf, List.flatMap_cons, nodesOf]

/-- The items of a list get indices one after the other. -/
lemma itemParts_cons (role : Role) (index : Nat) (v : Json) (rest : List Json) :
    itemParts role index (v :: rest) = ⟨.item index, role, v⟩ :: itemParts role (index + 1) rest :=
  rfl

/-- A list with one item has one part. -/
lemma itemParts_singleton (role : Role) (index : Nat) (v : Json) :
    itemParts role index [v] = [⟨.item index, role, v⟩] :=
  rfl

/-- The only part of an expression is its operands. -/
lemma parts_expression {fields : Fields} {tag : String} {op : Operator} {operands : Json}
    (hoperator : Fields.get? "operator" fields = some (.text tag)) (hop : operatorOf? tag = some op)
    (hoperands : Fields.get? "operands" fields = some operands) :
    Role.parts .expression (.object fields) =
      [⟨.field "operands", .ofOperands op operands, operands⟩] := by
  simp only [Role.parts, operator?, hoperator, hop, hoperands]

/-- The only part of a statement is its operand. -/
lemma parts_statement {fields : Fields} {operand : Json}
    (hoperand : Fields.get? "operand" fields = some operand) :
    Role.parts .statement (.object fields) = [⟨.field "operand", .expression, operand⟩] := by
  simp only [Role.parts, hoperand, Option.toList_some, List.map_cons, List.map_nil]

/-! ### The schema node by node -/

/-- All nodes of a value pass if the value itself does and all nodes of its parts pass. -/
lemma forall_nodes_iff {role : Role} {here : Pointer} {v : Json} :
    (∀ n ∈ nodes role here v, n.Passes) ↔
      role.Accepts v ∧ ∀ n ∈ nodesOf here (role.parts v), n.Passes := by
  rw [nodes_eq, List.forall_mem_cons]
  rfl

/-- All nodes of the items of a list pass if the items are what their role asks for. -/
lemma forall_nodesOf_itemParts_iff {role : Role} {items : List Json} {P : Json → Prop}
    (h : ∀ v ∈ items, ∀ here, (∀ n ∈ nodes role here v, n.Passes) ↔ P v) (here : Pointer)
    (index : Nat) :
    (∀ n ∈ nodesOf here (itemParts role index items), n.Passes) ↔ ∀ v ∈ items, P v := by
  induction items generalizing index with
  | nil => simp [itemParts, nodesOf_nil]
  | cons v rest ih =>
    obtain ⟨hv, hrest⟩ := List.forall_mem_cons.mp h
    rw [itemParts_cons, nodesOf_cons, List.forall_mem_append, List.forall_mem_cons, hv,
      ih hrest (index + 1)]

/-- A constant, a path, and everything else without parts: only the value itself has to pass. -/
lemma forall_nodes_iff_of_parts_eq_nil {role : Role} {here : Pointer} {v : Json}
    (hparts : role.parts v = []) :
    (∀ n ∈ nodes role here v, n.Passes) ↔ role.Accepts v := by
  rw [forall_nodes_iff, hparts, nodesOf_nil]
  simp

/-- A value holds the operands of an operator exactly if all nodes in it pass, provided that this
decides which values up to its size are expressions. -/
lemma areOperands_iff (op : Operator) (v : Json) (here : Pointer)
    (hexpression : ∀ w, sizeOf w ≤ sizeOf v → ∀ there,
      (∀ n ∈ nodes .expression there w, n.Passes) ↔ IsExpression w) :
    (∀ n ∈ nodes (.ofOperands op v) here v, n.Passes) ↔ AreOperands op v := by
  have hitems : ∀ items, v = .list items →
      ((∀ n ∈ nodesOf here (itemParts .expression 0 items), n.Passes) ↔
        ∀ w ∈ items, IsExpression w) := by
    rintro items rfl
    refine forall_nodesOf_itemParts_iff (fun w hw there => hexpression w ?_ there) here 0
    have hlt := List.sizeOf_lt_of_mem hw
    rw [Json.list.sizeOf_spec]
    omega
  cases op with
  | static =>
    rw [forall_nodes_iff_of_parts_eq_nil (by rfl)]
    constructor
    · rintro ⟨n, rfl⟩
      exact .static
    · rintro ⟨⟩
      exact ⟨_, rfl⟩
  | dynamic =>
    rw [forall_nodes_iff_of_parts_eq_nil (by rfl)]
    constructor
    · rintro ⟨path, rfl⟩
      exact .dynamic
    · rintro ⟨⟩
      exact ⟨_, rfl⟩
  | combine op =>
    rw [forall_nodes_iff]
    constructor
    · rintro ⟨⟨items, rfl⟩, hparts⟩
      exact .combine ((hitems items rfl).mp hparts)
    · rintro (_ | _ | h)
      exact ⟨⟨_, rfl⟩, (hitems _ rfl).mpr h⟩
  | floor =>
    -- the operand of a floor may stand alone, without a list around it
    by_cases hobject : ∃ fields, v = .object fields
    · obtain ⟨fields, rfl⟩ := hobject
      change (∀ n ∈ nodes .expression here _, n.Passes) ↔ _
      rw [hexpression _ (Nat.le_refl _)]
      constructor
      · exact .bareFloor
      · rintro (_ | _ | _ | _ | h)
        exact h
    · rw [Role.ofOperands_floor fun fields heq => hobject ⟨fields, heq⟩, forall_nodes_iff]
      constructor
      · rintro ⟨⟨inner, rfl⟩, hparts⟩
        exact .floor ((hitems _ rfl).mp hparts inner (List.mem_singleton_self _))
      · rintro (_ | _ | _ | h | h)
        · exact ⟨⟨_, rfl⟩, (hitems _ rfl).mpr (List.forall_mem_singleton.mpr h)⟩
        · exact absurd ⟨_, rfl⟩ hobject

/-- A value is an expression exactly if all nodes in it pass. -/
theorem isExpression_iff (v : Json) (here : Pointer) :
    (∀ n ∈ nodes .expression here v, n.Passes) ↔ IsExpression v := by
  induction hsize : sizeOf v using Nat.strongRecOn generalizing v here with
  | _ size ih =>
  subst hsize
  -- the operands are smaller than the object that they are a field of
  have hoperandsIff : ∀ {fields op operands}, v = .object fields →
      Fields.get? "operands" fields = some operands →
      ((∀ n ∈ nodes (.ofOperands op operands) (here ++ [.field "operands"]) operands, n.Passes) ↔
        AreOperands op operands) := by
    rintro fields op operands rfl hoperands
    have hlt := Json.sizeOf_lt_of_get? hoperands
    exact areOperands_iff op operands _ fun w hw there => ih (sizeOf w) (by omega) w there rfl
  rw [forall_nodes_iff]
  constructor
  · rintro ⟨⟨fields, rfl, ⟨tag, htag, hoperator⟩, operands, hoperands⟩, hparts⟩
    obtain ⟨op, hop⟩ := mem_expressionTags_iff.mp htag
    rw [parts_expression hoperator hop hoperands, nodesOf_cons, nodesOf_nil,
      List.append_nil] at hparts
    exact .intro hoperator hop hoperands ((hoperandsIff rfl hoperands).mp hparts)
  · rintro ⟨hoperator, hop, hoperands, h⟩
    refine ⟨⟨_, rfl, ⟨_, mem_expressionTags_iff.mpr ⟨_, hop⟩, hoperator⟩, _, hoperands⟩, ?_⟩
    rw [parts_expression hoperator hop hoperands, nodesOf_cons, nodesOf_nil, List.append_nil]
    exact (hoperandsIff rfl hoperands).mpr h

/-- A value is a statement exactly if all nodes in it pass. -/
theorem isStatement_iff (v : Json) (here : Pointer) :
    (∀ n ∈ nodes .statement here v, n.Passes) ↔ IsStatement v := by
  rw [forall_nodes_iff]
  constructor
  · rintro ⟨⟨fields, rfl, ⟨n, hprecedence⟩, ⟨target, htarget⟩, ⟨tag, htag, hoperator⟩, operand,
      hoperand⟩, hparts⟩
    rw [parts_statement hoperand, nodesOf_cons, nodesOf_nil, List.append_nil] at hparts
    exact .intro hprecedence htarget hoperator htag hoperand ((isExpression_iff _ _).mp hparts)
  · rintro ⟨hprecedence, htarget, hoperator, htag, hoperand, h⟩
    refine ⟨⟨_, rfl, ⟨_, hprecedence⟩, ⟨_, htarget⟩, ⟨_, htag, hoperator⟩, _, hoperand⟩, ?_⟩
    rw [parts_statement hoperand, nodesOf_cons, nodesOf_nil, List.append_nil]
    exact (isExpression_iff _ _).mpr h

/-- A value is a document exactly if all nodes in it pass. -/
theorem isDocument_iff (v : Json) : (∀ n ∈ nodes .document [] v, n.Passes) ↔ IsDocument v := by
  have hitems : ∀ items, (∀ n ∈ nodesOf [] (itemParts .statement 0 items), n.Passes) ↔
      ∀ w ∈ items, IsStatement w :=
    fun items => forall_nodesOf_itemParts_iff (fun w _ there => isStatement_iff w there) [] 0
  rw [forall_nodes_iff]
  constructor
  · rintro ⟨⟨items, rfl⟩, hparts⟩
    exact .intro ((hitems items).mp hparts)
  · rintro ⟨h⟩
    exact ⟨⟨_, rfl⟩, (hitems _).mpr h⟩

end Document

end SheetRules
