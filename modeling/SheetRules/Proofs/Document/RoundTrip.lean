import Mathlib.Algebra.Group.Int.Defs
import SheetRules.Batch.Basic
import SheetRules.Document.Codec
import SheetRules.Json.Reader
import SheetRules.Proofs.Batch.Errors
import SheetRules.Proofs.Number.Integers

/-!
# Documents are read back

A list of statements whose numbers are finite is encoded to a document that is decoded to the same
statements.  One thing may be lost: a constant that is the negative zero is written as an integer
and comes back without its sign.  Precedences are always written as doubles and keep theirs, so the
order of execution stays.  A document nests two levels for each level of its trees, and so the
documents of trees within the depth limit can be read.
-/

namespace SheetRules

/-! ### What is compared -/

namespace Tree

variable {α β : Type}

mutual

/-- The constants of a tree, from left to right. -/
def constants : Tree α → List α
  | .static v => [v]
  | .dynamic _ => []
  | .combine _ operands => constantsOfAll operands
  | .floor operand => operand.constants

/-- The constants of several trees. -/
def constantsOfAll : List (Tree α) → List α
  | [] => []
  | t :: rest => t.constants ++ constantsOfAll rest

end

mutual

/-- The tree with other constants. -/
def map (f : α → β) : Tree α → Tree β
  | .static v => .static (f v)
  | .dynamic path => .dynamic path
  | .combine op operands => .combine op (mapAll f operands)
  | .floor operand => .floor (operand.map f)

/-- Several trees with other constants. -/
def mapAll (f : α → β) : List (Tree α) → List (Tree β)
  | [] => []
  | t :: rest => t.map f :: mapAll f rest

end

end Tree

namespace Statement

/-- The precedence and all constants are finite. -/
def IsFinite (s : Statement) : Prop :=
  Double.nonFinite? s.precedence = none ∧ ∀ k ∈ s.operand.constants, Double.nonFinite? k = none

/-- The statement with zero for each constant that is the negative zero. -/
def unsigned (s : Statement) : Statement :=
  { s with operand := s.operand.map Double.unsignedZero }

end Statement

namespace Json

/-- The number is an integer of 64 bits, with or without a sign, or a finite double. -/
def Number.IsStandard : Number → Prop
  | .int n => -(2 ^ 63) ≤ n ∧ n < 2 ^ 64
  | .float x => Double.nonFinite? x = none

mutual

/-- The numbers in a value. -/
def numbers : Json → List Number
  | .null => []
  | .bool _ => []
  | .number n => [n]
  | .text _ => []
  | .list items => numbersOfItems items
  | .object fields => numbersOfFields fields

/-- The numbers in the items of a list. -/
def numbersOfItems : List Json → List Number
  | [] => []
  | v :: rest => v.numbers ++ numbersOfItems rest

/-- The numbers in the fields of an object. -/
def numbersOfFields : List (String × Json) → List Number
  | [] => []
  | (_, v) :: rest => v.numbers ++ numbersOfFields rest

end

mutual

/-- How deep lists and objects are nested in a value. -/
def nesting : Json → Nat
  | .null => 0
  | .bool _ => 0
  | .number _ => 0
  | .text _ => 0
  | .list items => 1 + nestingOfItems items
  | .object fields => 1 + nestingOfFields fields

/-- How deep lists and objects are nested in the items of a list. -/
def nestingOfItems : List Json → Nat
  | [] => 0
  | v :: rest => max v.nesting (nestingOfItems rest)

/-- How deep lists and objects are nested in the fields of an object. -/
def nestingOfFields : List (String × Json) → Nat
  | [] => 0
  | (_, v) :: rest => max v.nesting (nestingOfFields rest)

end

/-! ### Numbers -/

/-- A standard number stands for a finite double. -/
lemma Number.IsStandard.nonFinite? {n : Number} (h : n.IsStandard) :
    Double.nonFinite? n.toFloat = none := by
  cases n with
  | int n =>
    obtain ⟨hlower, hupper⟩ := h
    exact Double.nonFinite?_ofInt (by omega)
  | float x => exact h

end Json

/-- The tag of an operator is read back. -/
lemma Operator.ofTag?_tag (op : Operator) : Operator.ofTag? op.tag = some op := by
  cases op with
  | combine op => cases op <;> rfl
  | _ => rfl

/-- The tag of an action is read back. -/
lemma Action.ofTag?_tag (action : Action) : Action.ofTag? action.tag = some action := by
  cases action <;> rfl

namespace Document

open Json (Fields)

/-- A finite double is encoded as the number that is given for it. -/
lemma encodeDouble_of_finite {x : Float} (h : Double.nonFinite? x = none) (number : Json.Number) :
    encodeDouble x number = .number number := by
  simp [encodeDouble, h]

/-! ### Decoding what was encoded -/

section Nodes

variable (here : Pointer)

/-- The operator of a node is found by its tag. -/
lemma operatorField_node (op : Operator) (operands : Json) :
    operatorField here [("operands", operands), ("operator", .text op.tag)] = .ok op := by
  have htag : textField here "operator" [("operands", operands), ("operator", .text op.tag)] =
    .ok op.tag := rfl
  simp only [operatorField, htag, bind, Except.bind, Operator.ofTag?_tag]

/-- A constant is decoded from its number. -/
lemma decodeTree_static (n : Json.Number) :
    decodeTree here (node .static (.number n)) = .ok (.static n.toFloat) := by
  rw [node, decodeTree, operatorField_node]
  rfl

/-- A path is decoded from its text. -/
lemma decodeTree_dynamic (path : String) :
    decodeTree here (node .dynamic (.text path)) = .ok (.dynamic path) := by
  rw [node, decodeTree, operatorField_node]
  rfl

/-- Operands are decoded one by one. -/
lemma decodeTree_combine (op : Combine) (vs : List Json) :
    decodeTree here (node (.combine op) (.list vs)) =
      (decodeTrees (here ++ [.field "operands"]) 0 vs).map (.combine op) := by
  rw [node, decodeTree, operatorField_node]
  rfl

/-- The operand of a floor is the one item of its list. -/
lemma decodeTree_floor (v : Json) :
    decodeTree here (node .floor (.list [v])) =
      (decodeTree (here ++ [.field "operands"] ++ [.item 0]) v).map .floor := by
  rw [node, decodeTree, operatorField_node]
  rfl

end Nodes

mutual

/-- A tree with finite constants is decoded from its JSON form, without the signs of zeros. -/
theorem decodeTree_encodeTree : ∀ (t : Tree Float) (here : Pointer),
    (∀ k ∈ t.constants, Double.nonFinite? k = none) →
      decodeTree here (encodeTree t) = .ok (t.map Double.unsignedZero)
  | .static v, here, hfinite => by
    have hv : Double.nonFinite? v = none := hfinite v (List.mem_singleton_self v)
    rw [encodeTree, encodeDouble_of_finite hv, decodeTree_static, Json.Number.toFloat_ofFloat,
      Tree.map]
  | .dynamic path, here, _ => by
    rw [encodeTree, decodeTree_dynamic, Tree.map]
  | .combine op operands, here, hfinite => by
    rw [encodeTree, decodeTree_combine, decodeTrees_encodeTrees operands _ 0 hfinite, Tree.map]
    rfl
  | .floor operand, here, hfinite => by
    rw [encodeTree, decodeTree_floor, decodeTree_encodeTree operand _ hfinite, Tree.map]
    rfl

/-- Operands that are encoded are decoded to the same operands, without signs of zeros. -/
theorem decodeTrees_encodeTrees : ∀ (ts : List (Tree Float)) (here : Pointer) (index : Nat),
    (∀ k ∈ Tree.constantsOfAll ts, Double.nonFinite? k = none) →
      decodeTrees here index (encodeTrees ts) = .ok (Tree.mapAll Double.unsignedZero ts)
  | [], here, index, _ => by
    rw [encodeTrees, decodeTrees, Tree.mapAll]
  | t :: rest, here, index, hfinite => by
    obtain ⟨hhead, hrest⟩ := List.forall_mem_append.mp hfinite
    rw [encodeTrees, decodeTrees, decodeTree_encodeTree t _ hhead,
      decodeTrees_encodeTrees rest here (index + 1) hrest, Tree.mapAll]
    rfl

end

/-- A statement that is encoded is decoded to itself, without signs of zeros. -/
lemma decodeStatement_encodeStatement {s : Statement} (h : s.IsFinite) (here : Pointer) :
    decodeStatement here (encodeStatement s) = .ok s.unsigned := by
  obtain ⟨hprecedence, hconstants⟩ := h
  rw [encodeStatement, encodeDouble_of_finite hprecedence, decodeStatement]
  generalize hfields : ([("operand", encodeTree s.operand), ("operator", .text s.action.tag),
    ("precedence", .number (.float s.precedence)), ("target", .text s.target)] : Fields) = fields
  have hnumber : numberField here "precedence" fields = .ok s.precedence := by
    subst hfields
    rfl
  have htarget : textField here "target" fields = .ok s.target := by
    subst hfields
    rfl
  have htag : textField here "operator" fields = .ok s.action.tag := by
    subst hfields
    rfl
  have hoperand : field here "operand" fields = .ok (encodeTree s.operand) := by
    subst hfields
    rfl
  simp only [hnumber, htarget, htag, hoperand, bind, Except.bind, Action.ofTag?_tag,
    decodeTree_encodeTree _ _ hconstants]
  rfl

/-- Statements that are encoded are decoded to themselves, without signs of zeros. -/
lemma decodeStatements_encode {statements : List Statement} (h : ∀ s ∈ statements, s.IsFinite)
    (index : Nat) : decodeStatements index (statements.map encodeStatement) =
      .ok (statements.map Statement.unsigned) := by
  induction statements generalizing index with
  | nil => rfl
  | cons s rest ih =>
    obtain ⟨hs, hrest⟩ := List.forall_mem_cons.mp h
    rw [List.map_cons, decodeStatements, decodeStatement_encodeStatement hs, List.map_cons]
    change (decodeStatements (index + 1) (rest.map encodeStatement)).map (s.unsigned :: ·) = _
    rw [ih hrest]
    rfl

/-- Statements with finite numbers are decoded from their document, without the signs of zeros
among the constants. -/
theorem decode_encode_eq {statements : List Statement} (h : ∀ s ∈ statements, s.IsFinite) :
    decode (encode statements) = .ok (statements.map Statement.unsigned) :=
  decodeStatements_encode h 0

/-! ### Decoded statements are finite -/

/-- The numbers of a field are numbers of the object. -/
lemma mem_numbersOfFields {name : String} {fields : Fields} {v : Json}
    (h : Fields.get? name fields = some v) {n : Json.Number} (hn : n ∈ v.numbers) :
    n ∈ Json.numbersOfFields fields := by
  induction fields with
  | nil => cases h
  | cons entry rest ih =>
    obtain ⟨key, w⟩ := entry
    simp only [Fields.get?] at h
    rw [Json.numbersOfFields, List.mem_append]
    split at h
    · cases h
      exact .inl hn
    · exact .inr (ih h)

/-- A tree is decoded from the operands of an object: a constant from a number, a path from a text,
a floor from a list of one or from an object, and a combination from a list. -/
lemma decodeTree_eq_ok {here : Pointer} {v : Json} {t : Tree Float}
    (h : decodeTree here v = .ok t) :
    ∃ fields operands, v = .object fields ∧ Fields.get? "operands" fields = some operands ∧
      ((∃ n, operands = .number n ∧ t = .static n.toFloat) ∨
        (∃ path, operands = .text path ∧ t = .dynamic path) ∨
        (∃ inner there u, (operands = .list [inner] ∨ operands = inner) ∧
          decodeTree there inner = .ok u ∧ t = .floor u) ∨
        ∃ op vs there us, operands = .list vs ∧ decodeTrees there 0 vs = .ok us ∧
          t = .combine op us) := by
  rw [decodeTree.eq_def] at h
  split at h
  · rename_i fields
    obtain ⟨op, -, h⟩ := bind_eq_ok_iff.mp h
    dsimp only at h
    -- the cases that give a tree; all others are faults
    split at h
    case h_2 n hget =>
      cases h
      exact ⟨fields, _, rfl, hget, .inl ⟨n, rfl, rfl⟩⟩
    case h_4 path hget =>
      cases h
      exact ⟨fields, _, rfl, hget, .inr (.inl ⟨path, rfl, rfl⟩)⟩
    case h_6 inner hget =>
      obtain ⟨u, hu, hfloor⟩ := bind_eq_ok_iff.mp h
      cases hfloor
      exact ⟨fields, _, rfl, hget, .inr (.inr (.inl ⟨inner, _, u, .inl rfl, hu, rfl⟩))⟩
    case h_8 inner hget =>
      obtain ⟨u, hu, hfloor⟩ := bind_eq_ok_iff.mp h
      cases hfloor
      exact ⟨fields, _, rfl, hget, .inr (.inr (.inl ⟨.object inner, _, u, .inr rfl, hu, rfl⟩))⟩
    case h_10 op vs hget =>
      obtain ⟨us, hus, hcombine⟩ := bind_eq_ok_iff.mp h
      cases hcombine
      exact ⟨fields, _, rfl, hget, .inr (.inr (.inr ⟨op, vs, _, us, rfl, hus, rfl⟩))⟩
    all_goals cases h
  · cases h

mutual

/-- The constants of a decoded tree are finite if the numbers of the value are standard. -/
theorem nonFinite?_of_decodeTree (v : Json) {here : Pointer} {t : Tree Float}
    (hv : ∀ n ∈ v.numbers, n.IsStandard) (h : decodeTree here v = .ok t) :
    ∀ k ∈ t.constants, Double.nonFinite? k = none := by
  obtain ⟨fields, operands, hobject, hget, hshape⟩ := decodeTree_eq_ok h
  have hoperands : ∀ n ∈ operands.numbers, n.IsStandard := by
    rw [hobject] at hv
    exact fun n hn => hv n (mem_numbersOfFields hget hn)
  -- the operands are smaller than the node, which the recursion is on
  have hsize : sizeOf operands < sizeOf v := by
    have hfield : sizeOf operands < sizeOf fields := Fields.sizeOf_get? hget
    rw [hobject, Json.object.sizeOf_spec]
    omega
  obtain ⟨n, rfl, rfl⟩ | ⟨path, rfl, rfl⟩ | ⟨inner, there, u, hinner, hu, rfl⟩ |
    ⟨op, vs, there, us, rfl, hus, rfl⟩ := hshape
  · have hn := (hoperands n (List.mem_singleton_self n)).nonFinite?
    exact List.forall_mem_singleton.mpr hn
  · exact fun k hk => absurd hk List.not_mem_nil
  · have hpart : (∀ n ∈ inner.numbers, n.IsStandard) ∧ sizeOf inner < sizeOf v := by
      rcases hinner with rfl | rfl
      · refine ⟨fun n hn => hoperands n (List.mem_append_left _ hn), ?_⟩
        simp only [Json.list.sizeOf_spec, List.cons.sizeOf_spec] at hsize
        omega
      · exact ⟨hoperands, hsize⟩
    have hconstants := nonFinite?_of_decodeTree inner hpart.1 hu
    exact hconstants
  · have hconstants := nonFinite?_of_decodeTrees vs hoperands hus
    exact hconstants
termination_by sizeOf v
decreasing_by
  · exact hpart.2
  · simp only [Json.list.sizeOf_spec] at hsize
    omega

/-- Operands of a standard document have finite constants. -/
theorem nonFinite?_of_decodeTrees (vs : List Json) {here : Pointer} {index : Nat}
    {ts : List (Tree Float)} (hvs : ∀ n ∈ Json.numbersOfItems vs, n.IsStandard)
    (h : decodeTrees here index vs = .ok ts) :
    ∀ k ∈ Tree.constantsOfAll ts, Double.nonFinite? k = none := by
  cases vs with
  | nil =>
    rw [decodeTrees] at h
    cases h
    exact fun k hk => absurd hk List.not_mem_nil
  | cons v rest =>
    rw [decodeTrees] at h
    obtain ⟨t, ht, h⟩ := bind_eq_ok_iff.mp h
    obtain ⟨us, hus, h⟩ := bind_eq_ok_iff.mp h
    cases h
    obtain ⟨hhead, hrest⟩ := List.forall_mem_append.mp hvs
    exact List.forall_mem_append.mpr
      ⟨nonFinite?_of_decodeTree v hhead ht, nonFinite?_of_decodeTrees rest hrest hus⟩
termination_by sizeOf vs

end

/-- A field that is found is one of the object. -/
lemma get?_of_field {here : Pointer} {name : String} {fields : Fields} {v : Json}
    (h : field here name fields = .ok v) : Fields.get? name fields = some v := by
  unfold field at h
  split at h
  · cases h
    assumption
  · cases h

/-- A number field that is found is a number of the object. -/
lemma get?_of_numberField {here : Pointer} {name : String} {fields : Fields} {x : Float}
    (h : numberField here name fields = .ok x) :
    ∃ n, Fields.get? name fields = some (.number n) ∧ x = n.toFloat := by
  obtain ⟨v, hfield, h⟩ := bind_eq_ok_iff.mp h
  split at h
  · rename_i n
    cases h
    exact ⟨n, get?_of_field hfield, rfl⟩
  · cases h

/-- A statement that is decoded from a value with standard numbers has finite numbers. -/
lemma isFinite_of_decodeStatement {here : Pointer} {v : Json} {s : Statement}
    (hv : ∀ n ∈ v.numbers, n.IsStandard) (h : decodeStatement here v = .ok s) : s.IsFinite := by
  unfold decodeStatement at h
  split at h
  · rename_i fields
    obtain ⟨precedence, hprecedence, h⟩ := bind_eq_ok_iff.mp h
    obtain ⟨target, -, h⟩ := bind_eq_ok_iff.mp h
    obtain ⟨tag, -, h⟩ := bind_eq_ok_iff.mp h
    split at h
    · cases h
    · obtain ⟨operand, hoperand, h⟩ := bind_eq_ok_iff.mp h
      obtain ⟨tree, htree, h⟩ := bind_eq_ok_iff.mp h
      cases h
      obtain ⟨n, hn, rfl⟩ := get?_of_numberField hprecedence
      refine ⟨?_, nonFinite?_of_decodeTree operand (fun m hm => ?_) htree⟩
      · exact (hv n (mem_numbersOfFields hn (List.mem_singleton_self n))).nonFinite?
      · exact hv m (mem_numbersOfFields (get?_of_field hoperand) hm)
  · cases h

/-- Statements of a standard document are finite. -/
lemma isFinite_of_decodeStatements {vs : List Json} {index : Nat} {statements : List Statement}
    (hvs : ∀ n ∈ Json.numbersOfItems vs, n.IsStandard)
    (h : decodeStatements index vs = .ok statements) : ∀ s ∈ statements, s.IsFinite := by
  induction vs generalizing index statements with
  | nil =>
    cases h
    exact fun s hs => absurd hs List.not_mem_nil
  | cons v rest ih =>
    obtain ⟨s, hs, h⟩ := bind_eq_ok_iff.mp h
    obtain ⟨ss, hss, h⟩ := bind_eq_ok_iff.mp h
    cases h
    obtain ⟨hhead, hrest⟩ := List.forall_mem_append.mp hvs
    exact List.forall_mem_cons.mpr ⟨isFinite_of_decodeStatement hhead hs, ih hrest hss⟩

/-- Statements that are decoded from a value with standard numbers have finite numbers. -/
theorem isFinite_of_decode {v : Json} {statements : List Statement}
    (hv : ∀ n ∈ v.numbers, n.IsStandard) (h : decode v = .ok statements) :
    ∀ s ∈ statements, s.IsFinite := by
  unfold decode at h
  split at h
  · exact isFinite_of_decodeStatements hv h
  · cases h

/-! ### Nesting -/

/-- A node adds a level to its operands. -/
lemma nesting_node (op : Operator) (operands : Json) :
    (node op operands).nesting = 1 + operands.nesting := by
  simp [node, Json.nesting, Json.nestingOfFields]

/-- A number has no levels. -/
lemma nesting_encodeDouble (x : Float) (number : Json.Number) :
    (encodeDouble x number).nesting = 0 := by
  unfold encodeDouble
  split <;> simp [Json.nesting]

mutual

/-- A tree nests an object and a list for each of its levels. -/
theorem nesting_encodeTree : ∀ t : Tree Float, (encodeTree t).nesting ≤ 2 * t.depth
  | .static v => by
    rw [encodeTree, nesting_node, nesting_encodeDouble, Tree.depth]
    decide
  | .dynamic path => by
    rw [encodeTree, nesting_node, Json.nesting, Tree.depth]
    decide
  | .combine op operands => by
    have hoperands := nestingOfItems_encodeTrees operands
    rw [encodeTree, nesting_node, Json.nesting, Tree.depth]
    omega
  | .floor operand => by
    have hoperand := nesting_encodeTree operand
    rw [encodeTree, nesting_node, Json.nesting, Json.nestingOfItems, Json.nestingOfItems,
      Tree.depth]
    omega

/-- Operands are encoded in at most two levels for each of theirs. -/
theorem nestingOfItems_encodeTrees :
    ∀ ts : List (Tree Float), Json.nestingOfItems (encodeTrees ts) ≤ 2 * Tree.deepest ts
  | [] => Nat.le_refl 0
  | t :: rest => by
    have hhead := nesting_encodeTree t
    have hrest := nestingOfItems_encodeTrees rest
    rw [encodeTrees, Json.nestingOfItems, Tree.deepest]
    omega

end

/-- A statement adds one level to those of its operand. -/
lemma nesting_encodeStatement (s : Statement) :
    (encodeStatement s).nesting ≤ 2 * s.operand.depth + 1 := by
  have hoperand := nesting_encodeTree s.operand
  simp only [encodeStatement, Json.nesting, Json.nestingOfFields, nesting_encodeDouble]
  omega

/-- The document of statements with trees of at most `d` levels nests at most `2 * d + 2` lists and
objects. -/
theorem nesting_encode {statements : List Statement} {d : Nat}
    (h : ∀ s ∈ statements, s.operand.depth ≤ d) : (encode statements).nesting ≤ 2 * d + 2 := by
  have hitems : Json.nestingOfItems (statements.map encodeStatement) ≤ 2 * d + 1 := by
    induction statements with
    | nil => exact Nat.zero_le _
    | cons s rest ih =>
      obtain ⟨hs, hrest⟩ := List.forall_mem_cons.mp h
      have hhead := nesting_encodeStatement s
      have htail := ih hrest
      rw [List.map_cons, Json.nestingOfItems]
      omega
  rw [encode, Json.nesting]
  omega

end Document

/-- Statements of the same precedences are executed in the same order. -/
lemma Batch.order_map (f : Statement → Statement) (h : ∀ s, (f s).precedence = s.precedence)
    (statements : List Statement) : Batch.order (statements.map f) = Batch.order statements := by
  unfold Batch.order Batch.ordered
  rw [List.zipIdx_map, ← List.map_mergeSort, List.map_map]
  · rfl
  · intro a _ b _
    simp [h]

namespace Document

/-- **Documents are read back.**  Statements with finite numbers are decoded from their document,
but for the signs of zeros among the constants, and are executed in the same order.  So are the
statements of any value with standard numbers, once they are encoded again.  A document nests at
most two levels more than twice the depth of its trees, which for trees within the depth limit is
below what the reader accepts. -/
theorem decode_encode_unsigned :
    (∀ statements : List Statement, (∀ s ∈ statements, s.IsFinite) →
      decode (encode statements) = .ok (statements.map Statement.unsigned) ∧
        Batch.order (statements.map Statement.unsigned) = Batch.order statements) ∧
    (∀ (v : Json) (statements : List Statement), (∀ n ∈ v.numbers, n.IsStandard) →
      decode v = .ok statements →
        decode (encode statements) = .ok (statements.map Statement.unsigned)) ∧
    (∀ (statements : List Statement) (d : Nat), (∀ s ∈ statements, s.operand.depth ≤ d) →
      (encode statements).nesting ≤ 2 * d + 2) ∧
    ∀ statements : List Statement, (∀ s ∈ statements, s.operand.depth ≤ Tree.depthLimit) →
      (encode statements).nesting < Json.nestingLimit := by
  refine ⟨fun statements hfinite => ⟨decode_encode_eq hfinite, ?_⟩, ?_, ?_, ?_⟩
  · exact Batch.order_map Statement.unsigned (fun _ => rfl) statements
  · exact fun v statements hv h => decode_encode_eq (isFinite_of_decode hv h)
  · exact fun statements d hdepth => nesting_encode hdepth
  · intro statements hdepth
    have hnesting := nesting_encode hdepth
    have hlimit : 2 * Tree.depthLimit + 2 < Json.nestingLimit := by decide
    omega

/-- A statement with the negative zero both as its precedence and as a constant. -/
def signedZeros : List Statement :=
  [⟨-0.0, "a", .set, .combine .add [.static (-0.0), .static 0.5, .floor (.dynamic "b")]⟩]

/-- The statement is decoded from its document, which nests eight levels at most. -/
theorem decode_encode_unsigned_signedZeros :
    (∀ s ∈ signedZeros, s.IsFinite) ∧
      decode (encode signedZeros) = .ok (signedZeros.map Statement.unsigned) ∧
      (encode signedZeros).nesting ≤ 2 * 3 + 2 := by
  have hfinite : ∀ s ∈ signedZeros, s.IsFinite :=
    List.forall_mem_singleton.mpr ⟨by decide +kernel, by decide +kernel⟩
  have hdepth : ∀ s ∈ signedZeros, s.operand.depth ≤ 3 :=
    List.forall_mem_singleton.mpr (by decide)
  obtain ⟨hdecode, -, hnesting, -⟩ := decode_encode_unsigned
  exact ⟨hfinite, (hdecode signedZeros hfinite).1, hnesting signedZeros 3 hdepth⟩

end Document

end SheetRules
