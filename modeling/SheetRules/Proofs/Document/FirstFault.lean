import SheetRules.Proofs.Document.Pointers

/-!
# Decoding reports the first fault

Decoding accepts exactly the documents of the schema.  From any other value it comes back with the
first node, in the order of the document, that does not pass the check of its role; the pointer
leads to that node, and the cause says what is wrong with it.

Decoding walks through the nodes in order, so what it has done up to some point is described by the
nodes gone through: `Reports x ns` says that `x` is the outcome of decoding the nodes `ns`.  If it
is a success, all of them pass; if it is an error, then it is about the first of them that does not
pass.  One decoding after another goes through the nodes of both (`Reports.bind`).
-/

namespace SheetRules

namespace Document

open Json (Fields)

/-! ### What is wrong with a node -/

/-- The fields that a value needs in its role. -/
def Role.fieldNames : Role → List String
  | .statement => ["precedence", "target", "operator", "operand"]
  | .expression => ["operator", "operands"]
  | _ => []

/-- Those of them that hold a text. -/
def Role.textNames : Role → List String
  | .statement => ["target", "operator"]
  | .expression => ["operator"]
  | _ => []

/-- The fields that are texts are fields. -/
lemma Role.textNames_subset (role : Role) : role.textNames ⊆ role.fieldNames := by
  cases role <;> simp [textNames, fieldNames]

/-- The role of the nodes of a kind. -/
def Role.ofKind : NodeKind → Role
  | .statement => .statement
  | .expression => .expression

/-- The tag is one of those that the nodes of a kind can have. -/
def IsKnown (tag : String) : NodeKind → Prop
  | .statement => tag ∈ statementTags
  | .expression => tag ∈ expressionTags

/-- The cause says what is wrong with a value in its role. -/
inductive Blames : DecodeCause → Role → Json → Prop
  | notDocument {v : Json} (h : ∀ items, v ≠ .list items) : Blames .notDocument .document v
  | notObject {kind : NodeKind} {v : Json} (h : ∀ fields, v ≠ .object fields) :
      Blames (.notObject kind) (.ofKind kind) v
  | missing {role : Role} {fields : Fields} {name : String} (hname : name ∈ role.fieldNames)
      (h : Fields.get? name fields = none) : Blames (.missing name) role (.object fields)
  | notNumber {fields : Fields} {v : Json} (hget : Fields.get? "precedence" fields = some v)
      (h : ∀ n, v ≠ .number n) : Blames (.notNumber "precedence") .statement (.object fields)
  | notText {role : Role} {fields : Fields} {name : String} {v : Json}
      (hname : name ∈ role.textNames) (hget : Fields.get? name fields = some v)
      (h : ∀ text, v ≠ .text text) : Blames (.notText name) role (.object fields)
  | unknownOperator {kind : NodeKind} {fields : Fields} {tag : String}
      (hget : Fields.get? "operator" fields = some (.text tag)) (h : ¬ IsKnown tag kind) :
      Blames (.unknownOperator kind tag) (.ofKind kind) (.object fields)
  | staticShape {v : Json} (h : ∀ n, v ≠ .number n) : Blames .staticShape (.operands .static) v
  | dynamicShape {v : Json} (h : ∀ path, v ≠ .text path) :
      Blames .dynamicShape (.operands .dynamic) v
  | combineShape {op : Combine} {v : Json} (h : ∀ items, v ≠ .list items) :
      Blames (.combineShape op) (.operands (.combine op)) v
  | floorShape {v : Json} (h : ∀ items, v ≠ .list items) : Blames .floorShape (.operands .floor) v
  | floorCount {items : List Json} (h : items.length ≠ 1) :
      Blames (.floorCount items.length) (.operands .floor) (.list items)

/-- An accepted object has all fields of its role. -/
lemma Role.Accepts.get?_ne_none {role : Role} {fields : Fields}
    (h : role.Accepts (.object fields)) {name : String} (hname : name ∈ role.fieldNames) :
    Fields.get? name fields ≠ none := by
  cases role with
  | statement =>
    obtain ⟨_, ⟨⟩, ⟨_, h₁⟩, ⟨_, h₂⟩, ⟨_, -, h₃⟩, _, h₄⟩ := h
    simp only [fieldNames, List.mem_cons, List.not_mem_nil, or_false] at hname
    rcases hname with rfl | rfl | rfl | rfl <;> simp [h₁, h₂, h₃, h₄]
  | expression =>
    obtain ⟨_, ⟨⟩, ⟨_, -, h₁⟩, _, h₂⟩ := h
    simp only [fieldNames, List.mem_cons, List.not_mem_nil, or_false] at hname
    rcases hname with rfl | rfl <;> simp [h₁, h₂]
  | document => exact absurd hname List.not_mem_nil
  | operands op => exact absurd hname List.not_mem_nil

/-- In an accepted object the fields for texts are texts. -/
lemma Role.Accepts.exists_text {role : Role} {fields : Fields}
    (h : role.Accepts (.object fields)) {name : String} (hname : name ∈ role.textNames) :
    ∃ text, Fields.get? name fields = some (.text text) := by
  cases role with
  | statement =>
    obtain ⟨_, ⟨⟩, -, ⟨target, htarget⟩, ⟨tag, -, hoperator⟩, -⟩ := h
    simp only [textNames, List.mem_cons, List.not_mem_nil, or_false] at hname
    rcases hname with rfl | rfl
    · exact ⟨target, htarget⟩
    · exact ⟨tag, hoperator⟩
  | expression =>
    obtain ⟨_, ⟨⟩, ⟨tag, -, hoperator⟩, -⟩ := h
    obtain rfl := List.mem_singleton.mp hname
    exact ⟨tag, hoperator⟩
  | document => exact absurd hname List.not_mem_nil
  | operands op => exact absurd hname List.not_mem_nil

/-- The tag of an accepted node is known. -/
lemma Role.Accepts.isKnown {kind : NodeKind} {fields : Fields}
    (h : (ofKind kind).Accepts (.object fields)) {tag : String}
    (hget : Fields.get? "operator" fields = some (.text tag)) : IsKnown tag kind := by
  cases kind with
  | statement =>
    obtain ⟨_, ⟨⟩, -, -, ⟨named, hnamed, hoperator⟩, -⟩ := h
    rw [hget] at hoperator
    cases hoperator
    exact hnamed
  | expression =>
    obtain ⟨_, ⟨⟩, ⟨named, hnamed, hoperator⟩, -⟩ := h
    rw [hget] at hoperator
    cases hoperator
    exact hnamed

/-- What has a fault does not pass. -/
theorem Blames.not_accepts {cause : DecodeCause} {role : Role} {v : Json}
    (h : Blames cause role v) : ¬ role.Accepts v := by
  intro haccepts
  -- each cause says that something is wrong which an accepted value has right
  cases h with
  | notDocument h | combineShape h =>
    obtain ⟨items, rfl⟩ := haccepts
    exact h items rfl
  | @notObject kind _ h =>
    cases kind <;> obtain ⟨fields, rfl, -⟩ := haccepts <;> exact h fields rfl
  | missing hname h => exact haccepts.get?_ne_none hname h
  | notNumber hget h =>
    obtain ⟨_, ⟨⟩, ⟨n, hn⟩, -⟩ := haccepts
    exact h n (Option.some.inj (hget.symm.trans hn))
  | notText hname hget h =>
    obtain ⟨text, htext⟩ := haccepts.exists_text hname
    exact h text (Option.some.inj (hget.symm.trans htext))
  | unknownOperator hget h => exact h (haccepts.isKnown hget)
  | staticShape h =>
    obtain ⟨n, rfl⟩ := haccepts
    exact h n rfl
  | dynamicShape h =>
    obtain ⟨path, rfl⟩ := haccepts
    exact h path rfl
  | floorShape h =>
    obtain ⟨inner, rfl⟩ := haccepts
    exact h [inner] rfl
  | floorCount h =>
    obtain ⟨inner, hinner⟩ := haccepts
    cases hinner
    exact h rfl

/-! ### Outcomes of decoding -/

variable {β γ : Type}

/-- The error is about the first node that does not pass. -/
def PointsAtFirst (e : DecodeError) (ns : List Node) : Prop :=
  ∃ (before : List Node) (node : Node) (after : List Node), ns = before ++ node :: after ∧
    (∀ n ∈ before, n.Passes) ∧ e.pointer = node.pointer ∧ Blames e.cause node.role node.value

/-- The outcome of decoding some nodes: all of them pass, or the error is about the first one that
does not. -/
def Reports (x : Except DecodeError β) (ns : List Node) : Prop :=
  (∀ b, x = .ok b → ∀ n ∈ ns, n.Passes) ∧ ∀ e, x = .error e → PointsAtFirst e ns

/-- The outcome of checking one value that stands at `here`: what is looked for, or an error about
that value. -/
def Checks (here : Pointer) (role : Role) (v : Json) (x : Except DecodeError β)
    (found : β → Prop) : Prop :=
  (∀ b, x = .ok b → found b) ∧ ∀ e, x = .error e → e.pointer = here ∧ Blames e.cause role v

/-- If all nodes pass, nothing is to be reported. -/
lemma reports_ok {b : β} {ns : List Node} (h : ∀ n ∈ ns, n.Passes) :
    Reports (.ok b : Except DecodeError β) ns :=
  ⟨fun _ _ => h, fun _ herror => by cases herror⟩

/-- An error about the first node of all. -/
lemma reports_error {here : Pointer} {cause : DecodeCause} {role : Role} {v : Json}
    (h : Blames cause role v) (rest : List Node) :
    Reports (.error ⟨here, cause⟩ : Except DecodeError β) (⟨here, role, v⟩ :: rest) := by
  refine ⟨fun _ hok => (by cases hok), fun e he => ?_⟩
  cases he
  exact ⟨[], _, rest, rfl, fun _ hn => absurd hn List.not_mem_nil, rfl, h⟩

/-- A check that finds what it looks for. -/
lemma checks_ok {here : Pointer} {role : Role} {v : Json} {b : β} {found : β → Prop}
    (h : found b) : Checks here role v (.ok b) found :=
  ⟨fun _ hok => Except.ok.inj hok ▸ h, fun _ herror => by cases herror⟩

/-- A check that blames the node for what is wrong with it. -/
lemma checks_error {here : Pointer} {role : Role} {v : Json} {cause : DecodeCause}
    {found : β → Prop} (h : Blames cause role v) :
    Checks here role v (.error ⟨here, cause⟩) found :=
  ⟨fun _ hok => (by cases hok), fun _ herror => Except.error.inj herror ▸ ⟨rfl, h⟩⟩

namespace Reports

/-- A node that passes can stand in front. -/
lemma cons {x : Except DecodeError β} {node : Node} {ns : List Node} (hnode : node.Passes)
    (h : Reports x ns) : Reports x (node :: ns) := by
  refine ⟨fun b hb => List.forall_mem_cons.mpr ⟨hnode, h.1 b hb⟩, fun e he => ?_⟩
  obtain ⟨before, first, after, rfl, hbefore, hfirst⟩ := h.2 e he
  exact ⟨node :: before, first, after, rfl, List.forall_mem_cons.mpr ⟨hnode, hbefore⟩, hfirst⟩

/-- Two decodings, one after the other, go through the nodes of both. -/
lemma bind {x : Except DecodeError β} {f : β → Except DecodeError γ} {ns ms : List Node}
    (hx : Reports x ns) (hf : ∀ b, Reports (f b) ms) : Reports (x >>= f) (ns ++ ms) := by
  cases x with
  | error e =>
    refine ⟨fun _ hok => (by cases hok), fun e' he => ?_⟩
    cases he
    obtain ⟨before, first, after, rfl, hbefore, hfirst⟩ := hx.2 e rfl
    exact ⟨before, first, after ++ ms, by simp, hbefore, hfirst⟩
  | ok b =>
    have hns := hx.1 b rfl
    refine ⟨fun c hc => List.forall_mem_append.mpr ⟨hns, (hf b).1 c hc⟩, fun e he => ?_⟩
    obtain ⟨before, first, after, rfl, hbefore, hfirst⟩ := (hf b).2 e he
    exact ⟨ns ++ before, first, after, by simp, List.forall_mem_append.mpr ⟨hns, hbefore⟩, hfirst⟩

/-- What is made of the result in the end does not matter. -/
lemma map {x : Except DecodeError β} {ns : List Node} (hx : Reports x ns) (g : β → γ) :
    Reports (x >>= fun b => .ok (g b)) ns := by
  rw [← List.append_nil ns]
  exact hx.bind fun _ => reports_ok fun _ hn => absurd hn List.not_mem_nil

end Reports

namespace Checks

variable {here : Pointer} {role : Role} {v : Json} {x : Except DecodeError β} {found : β → Prop}

/-- A check after a check of the same node. -/
lemma bind {f : β → Except DecodeError γ} {found' : γ → Prop} (hx : Checks here role v x found)
    (hf : ∀ b, found b → Checks here role v (f b) found') :
    Checks here role v (x >>= f) found' := by
  cases x with
  | error e =>
    refine ⟨fun _ hok => (by cases hok), fun e' he => ?_⟩
    cases he
    exact hx.2 e rfl
  | ok b => exact hf b (hx.1 b rfl)

/-- A check of a value comes before everything that is decoded in it. -/
lemma reports {f : β → Except DecodeError γ} {rest : List Node} (hx : Checks here role v x found)
    (hf : ∀ b, found b → Reports (f b) (⟨here, role, v⟩ :: rest)) :
    Reports (x >>= f) (⟨here, role, v⟩ :: rest) := by
  cases x with
  | error e =>
    obtain ⟨rfl, hblames⟩ := hx.2 e rfl
    exact reports_error hblames rest
  | ok b => exact hf b (hx.1 b rfl)

end Checks

/-! ### Fields -/

section Fields

variable {here : Pointer} {role : Role} {fields : Fields} {name : String}

/-- A field of the role is there, or its lack is blamed on the node. -/
lemma checks_field (hname : name ∈ role.fieldNames) :
    Checks here role (.object fields) (field here name fields)
      fun v => Fields.get? name fields = some v := by
  unfold field
  cases hget : Fields.get? name fields with
  | some v => exact checks_ok rfl
  | none => exact checks_error (.missing hname hget)

/-- The precedence is a number, or the node is blamed. -/
lemma checks_precedence :
    Checks here .statement (.object fields) (numberField here "precedence" fields)
      fun _ => ∃ n, Fields.get? "precedence" fields = some (.number n) := by
  refine (checks_field List.mem_cons_self).bind fun v hget => ?_
  split
  · exact checks_ok ⟨_, hget⟩
  · next hnot => exact checks_error (.notNumber hget hnot)

/-- A field for a text is a text, or the node is blamed. -/
lemma checks_textField (hname : name ∈ role.textNames) :
    Checks here role (.object fields) (textField here name fields)
      fun text => Fields.get? name fields = some (.text text) := by
  refine (checks_field (role.textNames_subset hname)).bind fun v hget => ?_
  split
  · exact checks_ok hget
  · next hnot => exact checks_error (.notText hname hget hnot)

/-- The operator of an expression is the one that its tag stands for. -/
lemma checks_operatorField :
    Checks here .expression (.object fields) (operatorField here fields)
      fun op => ∃ tag, Fields.get? "operator" fields = some (.text tag) ∧
        operatorOf? tag = some op := by
  refine (checks_textField List.mem_cons_self).bind fun tag hget => ?_
  rw [ofTag?_eq_operatorOf?]
  cases hop : operatorOf? tag with
  | some op => exact checks_ok ⟨tag, hget, hop⟩
  | none =>
    refine checks_error (.unknownOperator hget fun hknown => ?_)
    obtain ⟨op, hsome⟩ := mem_expressionTags_iff.mp hknown
    rw [hop] at hsome
    cases hsome

end Fields

/-! ### Whole values -/

/-- The items of a list are gone through from left to right. -/
lemma reports_decodeTrees {items : List Json}
    (h : ∀ v ∈ items, ∀ there, Reports (decodeTree there v) (nodes .expression there v))
    (here : Pointer) (index : Nat) :
    Reports (decodeTrees here index items) (nodesOf here (itemParts .expression index items)) := by
  induction items generalizing index with
  | nil =>
    rw [decodeTrees]
    exact reports_ok fun _ hn => absurd hn List.not_mem_nil
  | cons v rest ih =>
    obtain ⟨hv, hrest⟩ := List.forall_mem_cons.mp h
    rw [decodeTrees, itemParts_cons, nodesOf_cons]
    exact (hv _).bind fun t => (ih hrest (index + 1)).map _

/-- An expression that names its operator and has operands passes, and its operands come next. -/
lemma reports_of_operands {here : Pointer} {fields : Fields} {op : Operator} {operands : Json}
    (hoperator : ∃ tag, Fields.get? "operator" fields = some (.text tag) ∧
      operatorOf? tag = some op)
    (hoperands : Fields.get? "operands" fields = some operands) {x : Except DecodeError β}
    (h : Reports x (nodes (.ofOperands op operands) (here ++ [.field "operands"]) operands)) :
    Reports x (nodes .expression here (.object fields)) := by
  obtain ⟨tag, htag, hop⟩ := hoperator
  rw [nodes_eq, parts_expression htag hop hoperands, nodesOf_cons, nodesOf_nil, List.append_nil]
  exact h.cons
    ⟨fields, rfl, ⟨tag, mem_expressionTags_iff.mpr ⟨op, hop⟩, htag⟩, operands, hoperands⟩

/-- A list of operands that passes comes before its items. -/
lemma reports_list {there : Pointer} {op : Operator} {items : List Json}
    {x : Except DecodeError β}
    (hparts : (Role.operands op).parts (.list items) = itemParts .expression 0 items)
    (haccepts : (Role.operands op).Accepts (.list items))
    (h : Reports x (nodesOf there (itemParts .expression 0 items))) :
    Reports x (nodes (.ofOperands op (.list items)) there (.list items)) := by
  have hrole : Role.ofOperands op (.list items) = .operands op := by
    cases op <;> rfl
  rw [hrole, nodes_eq, hparts]
  exact h.cons haccepts

/-- Operands of a wrong form are the first fault in them. -/
lemma reports_operands_error {there : Pointer} {op : Operator} {operands : Json}
    {cause : DecodeCause} (hrole : Role.ofOperands op operands = .operands op)
    (h : Blames cause (.operands op) operands) :
    Reports (.error ⟨there, cause⟩ : Except DecodeError β)
      (nodes (.ofOperands op operands) there operands) := by
  rw [hrole, nodes_eq]
  exact reports_error h _

/-- Decoding an expression goes through its nodes. -/
theorem reports_decodeTree (v : Json) (here : Pointer) :
    Reports (decodeTree here v) (nodes .expression here v) := by
  induction hsize : sizeOf v using Nat.strongRecOn generalizing v here with
  | _ size ih =>
  subst hsize
  rw [decodeTree.eq_def]
  split
  case h_2 hnot =>
    rw [nodes_eq]
    exact reports_error (.notObject hnot) _
  case h_1 fields =>
    have hitems : ∀ {items}, Fields.get? "operands" fields = some (.list items) → ∀ w ∈ items,
        ∀ there, Reports (decodeTree there w) (nodes .expression there w) := by
      intro items hget w hw there
      have hlist := Json.sizeOf_lt_of_get? hget
      have hitem := List.sizeOf_lt_of_mem hw
      rw [Json.list.sizeOf_spec] at hlist
      exact ih (sizeOf w) (by omega) w there rfl
    rw [nodes_eq]
    refine checks_operatorField.reports fun op hoperator => ?_
    rw [← nodes_eq]
    dsimp only
    -- Each operator looks at its operands in its own way.  They come after the expression itself,
    -- which has passed by now, unless they are missing.
    split
    case h_1 hget =>
      rw [nodes_eq]
      exact reports_error (.missing (by simp [Role.fieldNames]) hget) _
    case h_2 n hget =>
      refine reports_of_operands hoperator hget (reports_ok ?_)
      exact (forall_nodes_iff_of_parts_eq_nil (by rfl)).mpr ⟨n, rfl⟩
    case h_3 hnot hget =>
      exact reports_of_operands hoperator hget (reports_operands_error rfl (.staticShape hnot))
    case h_4 path hget =>
      refine reports_of_operands hoperator hget (reports_ok ?_)
      exact (forall_nodes_iff_of_parts_eq_nil (by rfl)).mpr ⟨path, rfl⟩
    case h_5 hnot hget =>
      exact reports_of_operands hoperator hget (reports_operands_error rfl (.dynamicShape hnot))
    case h_6 inner hget =>
      have hinner := hitems hget inner (List.mem_singleton_self inner)
        (here ++ [.field "operands"] ++ [.item 0])
      refine reports_of_operands hoperator hget (Reports.map ?_ Tree.floor)
      refine reports_list rfl ⟨inner, rfl⟩ ?_
      rwa [itemParts_singleton, nodesOf_cons, nodesOf_nil, List.append_nil]
    case h_7 items hnot hget =>
      refine reports_of_operands hoperator hget (reports_operands_error rfl (.floorCount ?_))
      intro hone
      obtain ⟨inner, rfl⟩ := List.length_eq_one_iff.mp hone
      exact hnot inner rfl
    case h_8 inner hget =>
      have hinner := ih _ (Json.sizeOf_lt_of_get? hget) _ (here ++ [.field "operands"]) rfl
      exact reports_of_operands hoperator hget (Reports.map hinner Tree.floor)
    case h_9 hnotOne hnotList hnotObject hget =>
      refine reports_of_operands hoperator hget (reports_operands_error ?_ (.floorShape hnotList))
      exact Role.ofOperands_floor hnotObject
    case h_10 op items hget =>
      have hall := reports_decodeTrees (hitems hget) (here ++ [.field "operands"]) 0
      refine reports_of_operands hoperator hget (Reports.map ?_ (Tree.combine op))
      exact reports_list rfl ⟨items, rfl⟩ hall
    case h_11 op hnot hget =>
      exact reports_of_operands hoperator hget (reports_operands_error rfl (.combineShape hnot))

/-- Decoding a statement goes through its nodes. -/
theorem reports_decodeStatement (v : Json) (here : Pointer) :
    Reports (decodeStatement here v) (nodes .statement here v) := by
  rw [nodes_eq]
  unfold decodeStatement
  split
  case h_2 hnot => exact reports_error (.notObject hnot) _
  case h_1 fields =>
    refine checks_precedence.reports fun precedence hprecedence => ?_
    refine (checks_textField (by simp [Role.textNames])).reports fun target htarget => ?_
    refine (checks_textField (by simp [Role.textNames])).reports fun tag htag => ?_
    cases haction : Action.ofTag? tag with
    | none =>
      refine reports_error (.unknownOperator htag fun hknown => ?_) _
      obtain ⟨action, hsome⟩ := mem_statementTags_iff.mp hknown
      rw [haction] at hsome
      cases hsome
    | some action =>
      have hknown : tag ∈ statementTags := mem_statementTags_iff.mpr ⟨action, haction⟩
      refine (checks_field (by simp [Role.fieldNames])).reports fun operand hoperand => ?_
      rw [parts_statement hoperand, nodesOf_cons, nodesOf_nil, List.append_nil]
      refine Reports.cons ?_ ((reports_decodeTree operand _).map _)
      exact ⟨fields, rfl, hprecedence, ⟨target, htarget⟩, ⟨tag, hknown, htag⟩, operand, hoperand⟩

/-- The first statement that is not accepted is reported. -/
lemma reports_decodeStatements (items : List Json) (index : Nat) :
    Reports (decodeStatements index items) (nodesOf [] (itemParts .statement index items)) := by
  induction items generalizing index with
  | nil => exact reports_ok fun _ hn => absurd hn List.not_mem_nil
  | cons v rest ih =>
    rw [decodeStatements, itemParts_cons, nodesOf_cons]
    exact (reports_decodeStatement v _).bind fun s => (ih (index + 1)).map _

/-- Decoding a document goes through its nodes. -/
theorem reports_decode (v : Json) : Reports (decode v) (nodes .document [] v) := by
  rw [nodes_eq]
  unfold decode
  split
  · next items => exact (reports_decodeStatements items 0).cons ⟨items, rfl⟩
  · next hnot => exact reports_error (.notDocument hnot) _

/-- An error is about a node that does not pass, and leads to it. -/
lemma exists_node_of_decode_eq_error {v : Json} {e : DecodeError} (h : decode v = .error e) :
    ∃ (before : List Node) (node : Node) (after : List Node),
      nodes .document [] v = before ++ node :: after ∧ e.pointer = node.pointer ∧
      v.pointed? e.pointer.text = some node.value ∧
      ¬ node.Passes ∧ Blames e.cause node.role node.value ∧ ∀ n ∈ before, n.Passes := by
  obtain ⟨before, node, after, hnodes, hbefore, hpointer, hblames⟩ := (reports_decode v).2 e h
  have hmem : node ∈ nodes .document [] v := by
    rw [hnodes]
    exact List.mem_append_right _ List.mem_cons_self
  refine ⟨before, node, after, hnodes, hpointer, ?_, hblames.not_accepts, hblames, hbefore⟩
  rw [hpointer]
  exact pointed?_of_mem_nodes hmem

/-- **Decoding accepts the schema and reports the first fault.**  A value is decoded exactly if it
is a document, that is, if all its nodes pass the checks of their roles.

Otherwise the pointer of the error, as it is written, leads to a node of the value that does not
pass, the cause of the error says what is wrong with that node, and all nodes before it in the order
of the document pass. -/
theorem decode_reports_first_fault (v : Json) :
    ((∃ statements, decode v = .ok statements) ↔ IsDocument v) ∧
    (IsDocument v ↔ ∀ n ∈ nodes .document [] v, n.Passes) ∧
    ∀ e, decode v = .error e →
      ∃ (before : List Node) (node : Node) (after : List Node),
        nodes .document [] v = before ++ node :: after ∧ e.pointer = node.pointer ∧
        v.pointed? e.pointer.text = some node.value ∧
        ¬ node.Passes ∧ Blames e.cause node.role node.value ∧ ∀ n ∈ before, n.Passes := by
  refine ⟨⟨?_, fun hdocument => ?_⟩, (isDocument_iff v).symm,
    fun e he => exists_node_of_decode_eq_error he⟩
  · rintro ⟨statements, hstatements⟩
    exact (isDocument_iff v).mp ((reports_decode v).1 statements hstatements)
  · cases hdecode : decode v with
    | ok statements => exact ⟨statements, rfl⟩
    | error e =>
      obtain ⟨before, node, after, hnodes, -, -, hfails, -⟩ :=
        exists_node_of_decode_eq_error hdecode
      have hpasses := (isDocument_iff v).mpr hdocument node (by simp [hnodes])
      exact absurd hpasses hfails

/-- The greater of a constant and a path, pushed to a list. -/
def pushedMaximum : Json :=
  .object [("operand", .object [("operator", .text "MAX"), ("operands", .list [
      .object [("operator", .text "STATIC_VALUE"), ("operands", .number (.int 3))],
      .object [("operator", .text "DYNAMIC_VALUE"), ("operands", .text "armor")]])]),
    ("operator", .text "PUSH"), ("precedence", .number (.int 0)), ("target", .text "bounds")]

/-- A path that is not a text, in a minimum in a product below a bare floor. -/
def numberAsPath : Json :=
  .object [("operand", .object [("operator", .text "FLOOR"), ("operands",
      .object [("operator", .text "MULTIPLY"), ("operands", .list [
        .object [("operator", .text "STATIC_VALUE"), ("operands", .number (.int 2))],
        .object [("operator", .text "MIN"), ("operands", .list [
          .object [("operator", .text "DYNAMIC_VALUE"), ("operands", .number (.int 7))]])]])])]),
    ("operator", .text "SET"), ("precedence", .number (.int 1)), ("target", .text "total")]

/-- The first statement alone is a document.  With the second one, the pointer goes through the
floor and the product to the minimum, and leads to operands that are not those of a path. -/
theorem decode_reports_first_fault_numberAsPath :
    IsDocument (.list [pushedMaximum]) ∧
    ∃ e operands, decode (.list [pushedMaximum, numberAsPath]) = .error e ∧
      e.pointer.text = "/1/operand/operands/operands/1/operands/0/operands" ∧
      Json.pointed? (.list [pushedMaximum, numberAsPath]) e.pointer.text = some operands ∧
      ¬ (Role.operands .dynamic).Accepts operands := by
  have hset : Action.ofTag? "SET" = some .set := rfl
  have hpush : Action.ofTag? "PUSH" = some .push := rfl
  have hpushed : ∃ statements, decode (.list [pushedMaximum]) = .ok statements := by
    simp [pushedMaximum, decode, decodeStatements, decodeStatement, numberField, textField, field,
      Fields.get?, decodeTree, decodeTrees, operatorField, ofTag?_eq_operatorOf?, operatorOf?,
      hpush, bind, Except.bind]
  have hdecode : decode (.list [pushedMaximum, numberAsPath]) =
      .error ⟨[.item 1, .field "operand", .field "operands", .field "operands", .item 1,
        .field "operands", .item 0, .field "operands"], .dynamicShape⟩ := by
    simp [pushedMaximum, numberAsPath, decode, decodeStatements, decodeStatement, numberField,
      textField, field, Fields.get?, decodeTree, decodeTrees, operatorField,
      ofTag?_eq_operatorOf?, operatorOf?, hpush, hset, bind, Except.bind]
  refine ⟨(decode_reports_first_fault _).1.mp hpushed, ?_⟩
  obtain ⟨_, ⟨_, role, operands⟩, _, -, -, hpointed, hfails, hblames, -⟩ :=
    (decode_reports_first_fault _).2.2 _ hdecode
  cases hblames with
  | dynamicShape _ => exact ⟨_, operands, hdecode, by decide +kernel, hpointed, hfails⟩

end Document

end SheetRules
