import SheetRules.Proofs.Document.Schema
import SheetRules.Proofs.Text.Cuts

/-!
# Reading pointers

The error of a document tells in writing where the fault is, as a JSON pointer: every step down
starts with a slash.  `Json.pointed?` reads such a text and follows it through a value, by nothing
but the rules of JSON pointers: the text is cut at its slashes, `~1` and `~0` stand for a slash and
a tilde, and a step is the name of a field of an object or the index of an item of a list, written
in decimal digits without leading zeros.

The pointer of every node of a document, written and read in this way, leads to the value of the
node (`pointed?_of_mem_nodes`).
-/

namespace SheetRules

namespace Json

/-- The name that a step of a pointer stands for. -/
def unescape : List Char → List Char
  | '~' :: '1' :: rest => '/' :: unescape rest
  | '~' :: '0' :: rest => '~' :: unescape rest
  | c :: rest => c :: unescape rest
  | [] => []

/-- The index that is written in decimal digits, without leading zeros. -/
def index? (digits : List Char) : Option Nat :=
  let index := Nat.ofDigitChars 10 digits 0
  if Nat.toDigits 10 index = digits then some index else none

/-- The field or the item of a value with a given name. -/
def member? (v : Json) (name : List Char) : Option Json :=
  match v with
  | .object fields => Fields.get? (String.ofList name) fields
  | .list items => (index? name).bind fun index => items[index]?
  | _ => none

/-- The value that a written pointer leads to. -/
def pointed? (v : Json) (pointer : String) : Option Json :=
  match Text.split '/' pointer.toList with
  | [] :: names => names.foldlM (fun w name => w.member? (unescape name)) v
  | _ => none

/-- A name without tildes stands for itself. -/
lemma unescape_of_not_mem {name : List Char} (h : '~' ∉ name) : unescape name = name := by
  fun_induction unescape name with
  | case1 rest ih => simp at h
  | case2 rest ih => simp at h
  | case3 c rest _ _ ih => rw [ih fun hmem => h (List.mem_cons_of_mem c hmem)]
  | case4 => rfl

/-- The digits of an index are read back. -/
lemma index?_toDigits (index : Nat) : index? (Nat.toDigits 10 index) = some index := by
  simp [index?, Nat.ofDigitChars_ten_toDigits]

end Json

namespace Step

/-- The name of a step as it is written. -/
def name : Step → List Char
  | .field name => name.toList
  | .item index => Nat.toDigits 10 index

/-- The step is written as it is named. -/
def IsPlain (step : Step) : Prop :=
  '/' ∉ step.name ∧ '~' ∉ step.name

/-- A step is written as a slash and its name. -/
lemma toList_text (step : Step) : step.text.toList = '/' :: step.name := by
  cases step with
  | field name => simp [text, Step.name]
  | item index => simp [text, Step.name, Nat.toString_eq_repr]

/-- An index needs no escapes. -/
lemma isPlain_item (index : Nat) : (Step.item index).IsPlain := by
  have hdigit : ∀ c ∈ Nat.toDigits 10 index, c.isDigit = true :=
    fun c hc => Nat.isDigit_of_mem_toDigits (by decide) (by decide) hc
  exact ⟨fun h => absurd (hdigit _ h) (by decide), fun h => absurd (hdigit _ h) (by decide)⟩

/-- A plain step leads where its name does. -/
lemma IsPlain.member?_eq {step : Step} (h : step.IsPlain) {v w : Json}
    (hw : step.find? v = some w) : v.member? (Json.unescape step.name) = some w := by
  rw [Json.unescape_of_not_mem h.2]
  cases step with
  | field name =>
    cases v with
    | object fields =>
      rw [Json.member?, Step.name, String.ofList_toList]
      exact hw
    | _ => cases hw
  | item index =>
    cases v with
    | list items =>
      rw [Json.member?, Step.name, Json.index?_toDigits]
      exact hw
    | _ => cases hw

end Step

namespace Pointer

/-- The value to which all steps of a pointer lead, one after the other. -/
def find? (pointer : Pointer) (v : Json) : Option Json :=
  pointer.foldlM (fun w step => step.find? w) v

/-- A pointer is followed step by step. -/
lemma find?_cons (step : Step) (rest : Pointer) (v : Json) :
    find? (step :: rest) v = (step.find? v).bind (find? rest) :=
  List.foldlM_cons

/-- A pointer is written step by step. -/
lemma toList_text_cons (step : Step) (rest : Pointer) :
    (text (step :: rest)).toList = '/' :: (step.name ++ (text rest).toList) := by
  simp [text, Step.toList_text]

/-- A pointer with plain steps is cut into their names at its slashes. -/
lemma split_text {pointer : Pointer} (h : ∀ step ∈ pointer, step.IsPlain) :
    Text.split '/' (text pointer).toList = [] :: pointer.map Step.name := by
  induction pointer with
  | nil => rfl
  | cons step rest ih =>
    obtain ⟨hstep, hrest⟩ := List.forall_mem_cons.mp h
    rw [toList_text_cons]
    simpa [Text.split] using Text.split_append_cons hstep.1 (ih hrest)

/-- A pointer with plain steps leads to the same value when it is written and read. -/
theorem pointed?_text {pointer : Pointer} (h : ∀ step ∈ pointer, step.IsPlain) {v w : Json}
    (hw : pointer.find? v = some w) : v.pointed? (text pointer) = some w := by
  rw [Json.pointed?, split_text h]
  dsimp only
  induction pointer generalizing v with
  | nil => exact hw
  | cons step rest ih =>
    obtain ⟨hstep, hrest⟩ := List.forall_mem_cons.mp h
    rw [find?_cons, Option.bind_eq_some_iff] at hw
    obtain ⟨u, hu, hw⟩ := hw
    rw [List.map_cons, List.foldlM_cons, hstep.member?_eq hu]
    exact ih hrest hw

end Pointer

namespace Document

/-- The steps to the parts of a node need no escapes. -/
lemma Role.isPlain_of_mem_parts {role : Role} {v : Json} {p : Part} (h : p ∈ role.parts v) :
    p.step.IsPlain := by
  obtain ⟨-, hstep | hstep | ⟨index, hstep⟩⟩ := Role.find?_of_mem_parts h
  · exact hstep ▸ ⟨by decide, by decide⟩
  · exact hstep ▸ ⟨by decide, by decide⟩
  · exact hstep ▸ Step.isPlain_item index

/-- A node stands where its pointer leads to. -/
lemma find?_of_mem_nodes {role : Role} {here : Pointer} {v : Json} {n : Node}
    (h : n ∈ nodes role here v) :
    ∃ way : Pointer, n.pointer = here ++ way ∧ (∀ step ∈ way, step.IsPlain) ∧
      way.find? v = some n.value := by
  rw [nodes_eq, List.mem_cons] at h
  rcases h with rfl | h
  · exact ⟨[], (List.append_nil _).symm, fun _ hstep => absurd hstep List.not_mem_nil, rfl⟩
  · obtain ⟨p, hp, hn⟩ := List.mem_flatMap.mp h
    obtain ⟨hfind, -⟩ := Role.find?_of_mem_parts hp
    have hsmaller := Step.sizeOf_lt_of_find? hfind
    obtain ⟨way, hpointer, hway, hvalue⟩ := find?_of_mem_nodes hn
    refine ⟨p.step :: way, ?_, List.forall_mem_cons.mpr ⟨Role.isPlain_of_mem_parts hp, hway⟩, ?_⟩
    · rw [hpointer, List.append_assoc, List.singleton_append]
    · rw [Pointer.find?_cons, hfind]
      exact hvalue
termination_by sizeOf v

/-- The pointer of a node, written and read, leads to the value of the node. -/
theorem pointed?_of_mem_nodes {role : Role} {v : Json} {n : Node} (h : n ∈ nodes role [] v) :
    v.pointed? n.pointer.text = some n.value := by
  obtain ⟨way, hpointer, hplain, hvalue⟩ := find?_of_mem_nodes h
  rw [hpointer, List.nil_append]
  exact Pointer.pointed?_text hplain hvalue

end Document

end SheetRules
