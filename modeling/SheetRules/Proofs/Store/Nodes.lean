import Mathlib.Data.List.Basic
import SheetRules.Proofs.Number.Integers
import SheetRules.Proofs.Store.Writes
import SheetRules.Proofs.Text.Cuts

/-!
# The nodes of a store

A store is a tree of JSON values.  `Json.node?` is the value that a way through nested objects leads
to, of any kind and whether it can be read as a number or not; reading a number is looking at a node
(`Store.find_eq_ok_iff`).

A write that succeeds is followed object by object: `Wrote` relates the fields before it to those
after it, and each fact about the nodes of a written store is one induction along the way.  The node
at the target is changed, the nodes above it are objects, and the nodes elsewhere are what they
were.  A write that fails has met a value that it cannot go through or cannot change.
-/

namespace SheetRules

namespace Json

/-! ### Nodes -/

/-- The value at the end of a way through nested objects. -/
def node? : List String → Json → Option Json
  | [], v => some v
  | segment :: rest, .object fields => (Fields.get? segment fields).bind (node? rest)
  | _ :: _, _ => none

/-- The empty way leads to the value itself. -/
@[simp] lemma node?_nil (v : Json) : v.node? [] = some v := by
  simp only [node?]

/-- A way leads through the field of its first segment. -/
@[simp] lemma node?_cons_object (segment : String) (rest : List String) (fields : Fields) :
    (object fields).node? (segment :: rest) = (fields.get? segment).bind (node? rest) := by
  simp only [node?]

/-- A way of one segment leads to a field. -/
@[simp] lemma node?_singleton (segment : String) (fields : Fields) :
    (object fields).node? [segment] = fields.get? segment := by
  rw [node?_cons_object]
  cases fields.get? segment <;> simp

/-- Only an object has nodes below it. -/
lemma node?_cons_of_kind_ne {v : Json} (h : v.kind ≠ .object) (segment : String)
    (rest : List String) : v.node? (segment :: rest) = none := by
  cases v with
  | object fields => exact absurd rfl h
  | _ => simp only [node?]

/-- A way that goes on leads from the node that its first part leads to. -/
lemma node?_append (way rest : List String) (v : Json) :
    v.node? (way ++ rest) = (v.node? way).bind (node? rest) := by
  induction way generalizing v with
  | nil => simp
  | cons segment way ih =>
    cases v with
    | object fields =>
      rw [List.cons_append, node?_cons_object, node?_cons_object, Option.bind_assoc]
      exact congrArg _ (funext fun inner => ih inner)
    | _ => rfl

/-- Nothing is below a node that is no object, nor below one that is not there. -/
lemma node?_below {way way' : List String} {v : Json} (hbegins : way <+: way') (hne : way ≠ way')
    (h : ∀ fields, v.node? way ≠ some (object fields)) : v.node? way' = none := by
  obtain ⟨rest, rfl⟩ := hbegins
  cases rest with
  | nil => exact absurd (List.append_nil way).symm hne
  | cons segment rest =>
    rw [node?_append]
    cases hnode : v.node? way with
    | none => rfl
    | some node =>
      refine node?_cons_of_kind_ne ?_ segment rest
      cases node with
      | object fields => exact absurd hnode (h fields)
      | _ => nofun

/-- A way through a segment leads to what the rest of it leads to from there. -/
lemma node?_through {segment : String} {rest : List String} {fields inner : Fields}
    (hrest : rest ≠ []) (h : fields.entered? segment = some inner) :
    (object fields).node? (segment :: rest) = (object inner).node? rest := by
  rcases Fields.get?_of_entered? h with hget | ⟨hget, rfl⟩
  · rw [node?_cons_object, hget, Option.bind_some]
  · obtain ⟨next, more, rfl⟩ := List.exists_cons_of_ne_nil hrest
    rw [node?_cons_object, node?_cons_object, hget, Fields.get?_nil]
    rfl

/-- A value above the end of the way is no object. -/
def Blocks (v : Json) (way : List String) : Prop :=
  ∃ front node, front <+: way ∧ front ≠ way ∧ v.node? front = some node ∧ node.kind ≠ .object

/-- What blocks the rest of a way blocks the way. -/
lemma Blocks.through {segment : String} {rest : List String} {fields inner : Fields}
    (h : (object inner).Blocks rest) (hentered : fields.entered? segment = some inner) :
    (object fields).Blocks (segment :: rest) := by
  obtain ⟨front, node, hbegins, hne, hnode, hkind⟩ := h
  refine ⟨segment :: front, node, (List.prefix_cons_inj segment).mpr hbegins, by simpa, ?_, hkind⟩
  have hfront : front ≠ [] := by
    rintro rfl
    obtain rfl : object inner = node := Option.some.inj hnode
    exact hkind rfl
  rwa [node?_through hfront hentered]

end Json

namespace Store

open Json (Fields)

variable {change : Change} {way way' : List String} {fields before after : Fields}

/-- A number is found where the node is one. -/
lemma find_eq_ok_iff {n : Json.Number} :
    find way fields = .ok n ↔ (Json.object fields).node? way = some (.number n) := by
  induction way generalizing fields with
  | nil => simp [find]
  | cons segment rest ih =>
    rw [Json.node?_cons_object]
    cases rest with
    | nil =>
      cases hget : fields.get? segment with
      | none => simp [find, hget]
      | some v => cases v <;> simp [find, hget]
    | cons next rest =>
      cases hget : fields.get? segment with
      | none => simp [find, hget]
      | some v =>
        cases v with
        | object inner => simpa only [find, hget, Option.bind_some] using ih
        | _ => simp [find, hget, Json.node?]

/-! ### Writes that succeed -/

/-- The fields before and after a write that succeeds. -/
inductive Wrote (change : Change) : List String → Fields → Fields → Prop
  | leaf {leaf fields v} (h : change leaf (fields.get? leaf) = .ok v) :
      Wrote change [leaf] fields (fields.put leaf v)
  | through {segment rest fields inner inner'} (h : fields.entered? segment = some inner)
      (hrest : Wrote change rest inner inner') :
      Wrote change (segment :: rest) fields (fields.put segment (.object inner'))

/-- A write that succeeds has written along the way. -/
lemma wrote_of_write (hway : way ≠ []) (h : (write change way fields).1 = .ok ()) :
    Wrote change way fields (write change way fields).2 := by
  induction way generalizing fields with
  | nil => exact absurd rfl hway
  | cons segment rest ih =>
    by_cases hrest : rest = []
    · subst hrest
      rw [write_leaf] at h ⊢
      cases hchange : change segment (fields.get? segment) with
      | ok v => exact .leaf hchange
      | error fault =>
        rw [hchange] at h
        cases h
    · cases hentered : fields.entered? segment with
      | none =>
        obtain ⟨v, -, hwrite⟩ := write_barred change hrest hentered
        rw [hwrite] at h
        cases h
      | some inner =>
        rw [write_through hrest hentered] at h ⊢
        exact .through hentered (ih hrest h)

namespace Wrote

/-- Nothing is written along the empty way. -/
lemma ne_nil (h : Wrote change way before after) : way ≠ [] := by
  cases h <;> exact List.cons_ne_nil _ _

/-- The node at the end of the way is what the change makes of the node that was there. -/
lemma node?_target (h : Wrote change way before after) :
    ∃ leaf v, change leaf ((Json.object before).node? way) = .ok v ∧
      (Json.object after).node? way = some v := by
  induction h with
  | @leaf leaf fields v hchange =>
    refine ⟨leaf, v, ?_, ?_⟩
    · rwa [Json.node?_singleton]
    · rw [Json.node?_singleton, Fields.get?_put_self]
  | @through segment rest fields inner inner' hentered hrest ih =>
    rw [Json.node?_through hrest.ne_nil hentered,
      Json.node?_through hrest.ne_nil (Fields.entered?_put_object ..)]
    exact ih

/-- A way above a way through a segment is the empty one, or it goes through the segment too. -/
lemma above_cases {segment : String} {rest : List String} (hbegins : way' <+: segment :: rest)
    (hne : way' ≠ segment :: rest) :
    way' = [] ∨ ∃ front, way' = segment :: front ∧ front <+: rest ∧ front ≠ rest := by
  rcases List.prefix_cons_iff.mp hbegins with rfl | ⟨front, rfl, hfront⟩
  · exact .inl rfl
  · refine .inr ⟨front, rfl, hfront, ?_⟩
    rintro rfl
    exact hne rfl

/-- The nodes above the target were objects, where there were any. -/
lemma node?_above_before (h : Wrote change way before after) (hbegins : way' <+: way)
    (hne : way' ≠ way) {v : Json} (hnode : (Json.object before).node? way' = some v) :
    ∃ inner, v = .object inner := by
  induction h generalizing way' with
  | @leaf leaf fields _ hchange =>
    rcases above_cases hbegins hne with rfl | ⟨front, rfl, hfront, hother⟩
    · exact ⟨fields, (Option.some.inj hnode).symm⟩
    · exact absurd (List.prefix_nil.mp hfront) hother
  | @through segment rest fields inner inner' hentered hrest ih =>
    rcases above_cases hbegins hne with rfl | ⟨front, rfl, hfront, hother⟩
    · exact ⟨fields, (Option.some.inj hnode).symm⟩
    · rw [Json.node?_cons_object] at hnode
      rcases Fields.get?_of_entered? hentered with hget | ⟨hget, -⟩
      · rw [hget, Option.bind_some] at hnode
        exact ih hfront hother hnode
      · rw [hget] at hnode
        cases hnode

/-- The nodes above the target are objects. -/
lemma node?_above_after (h : Wrote change way before after) (hbegins : way' <+: way)
    (hne : way' ≠ way) : ∃ inner, (Json.object after).node? way' = some (.object inner) := by
  induction h generalizing way' with
  | leaf hchange =>
    rcases above_cases hbegins hne with rfl | ⟨front, rfl, hfront, hother⟩
    · exact ⟨_, Json.node?_nil _⟩
    · exact absurd (List.prefix_nil.mp hfront) hother
  | through hentered hrest ih =>
    rcases above_cases hbegins hne with rfl | ⟨front, rfl, hfront, hother⟩
    · exact ⟨_, Json.node?_nil _⟩
    · rw [Json.node?_cons_object, Fields.get?_put_self, Option.bind_some]
      exact ih hfront hother

/-- The nodes along ways that part from that of the write are what they were. -/
lemma node?_elsewhere (h : Wrote change way before after) (hparts : Parts way' way) :
    (Json.object after).node? way' = (Json.object before).node? way' := by
  induction h generalizing way' with
  | @leaf leaf fields v hchange =>
    cases hparts with
    | here hne => rw [Json.node?_cons_object, Json.node?_cons_object, Fields.get?_put_of_ne hne]
    | there hparts => exact absurd rfl hparts.symm.ne_nil
  | @through segment rest fields inner inner' hentered hrest ih =>
    cases hparts with
    | here hne => rw [Json.node?_cons_object, Json.node?_cons_object, Fields.get?_put_of_ne hne]
    | there hparts =>
      rw [Json.node?_through hparts.ne_nil (Fields.entered?_put_object ..), ih hparts,
        Json.node?_through hparts.ne_nil hentered]

end Wrote

/-! ### Writes that fail -/

/-- A write that fails has met a value on its way that is no object, or one that cannot be changed
at its end. -/
lemma blocks_or_of_write (hway : way ≠ []) {fault : PathFault}
    (h : (write change way fields).1 = .error fault) :
    (Json.object fields).Blocks way ∨
      ∃ leaf, change leaf ((Json.object fields).node? way) = .error fault := by
  induction way generalizing fields with
  | nil => exact absurd rfl hway
  | cons segment rest ih =>
    by_cases hrest : rest = []
    · subst hrest
      rw [write_leaf] at h
      cases hchange : change segment (fields.get? segment) with
      | ok v =>
        rw [hchange] at h
        cases h
      | error fault' =>
        rw [hchange] at h
        cases h
        exact .inr ⟨segment, by rwa [Json.node?_singleton]⟩
    · -- on the way to the leaf there is an object to enter, or something that blocks the way
      cases hentered : fields.entered? segment with
      | none =>
        obtain ⟨v, hget, -⟩ := write_barred change hrest hentered
        have hkind : v.kind ≠ .object := by
          cases v with
          | object inner => simp [Fields.entered?, hget] at hentered
          | _ => exact fun hobject => by cases hobject
        refine .inl ⟨[segment], v, ?_, ?_, ?_, hkind⟩
        · exact (List.prefix_cons_inj segment).mpr List.nil_prefix
        · simpa using Ne.symm hrest
        · rwa [Json.node?_singleton]
      | some inner =>
        rw [write_through hrest hentered] at h
        rcases ih hrest h with hblocks | ⟨leaf, hchange⟩
        · exact .inl (hblocks.through hentered)
        · exact .inr ⟨leaf, by rwa [Json.node?_through hrest hentered]⟩

end Store

/-! ### Numbers at paths -/

/-- A path is known by its segments. -/
lemma pathSegments_injective : Function.Injective pathSegments := by
  intro path path' h
  have hparts : Text.split '.' path.toList = Text.split '.' path'.toList :=
    List.map_injective_iff.mpr (fun _ _ => String.ofList_injective) h
  have hjoined := congrArg ['.'].intercalate hparts
  rw [Text.intercalate_split, Text.intercalate_split] at hjoined
  exact String.toList_injective hjoined

/-- Every path has segments. -/
lemma pathSegments_ne_nil (path : String) : pathSegments path ≠ [] := by
  simp [pathSegments, Text.split_ne_nil]

namespace Store

variable {change : Json.Number → Change} {store store' : Store} {path path' : String} {x : Float}

/-- What is read at a path is the number that the node there is. -/
lemma get_eq_ok_iff : store.get path = .ok x ↔
    properSegments? path = some (pathSegments path) ∧
      ∃ n, store.toJson.node? (pathSegments path) = some (.number n) ∧ n.toFloat = x := by
  unfold get
  cases hpath : properSegments? path with
  | none => simp
  | some segments =>
    obtain rfl := pathSegments_of_properSegments? hpath
    have hnode : ∀ n, find (pathSegments path) store.fields = .ok n ↔
        store.toJson.node? (pathSegments path) = some (.number n) :=
      fun n => find_eq_ok_iff
    simp only [← hnode, true_and]
    cases find (pathSegments path) store.fields <;> simp

/-- A path is read alike in stores with the same number there, or with none. -/
lemma get_eq_ok_congr
    (h : ∀ n, store.toJson.node? (pathSegments path) = some (.number n) ↔
      store'.toJson.node? (pathSegments path) = some (.number n)) :
    store.get path = .ok x ↔ store'.get path = .ok x := by
  simp only [get_eq_ok_iff, h]

/-- A number that is written is finite, at a path without empty segments, and all that happens is
the write. -/
lemma wrote_of_writeNumber (h : (writeNumber change store path x).1 = .ok ()) :
    Double.nonFinite? x = none ∧ properSegments? path = some (pathSegments path) ∧
      Wrote (change (.ofFloat x)) (pathSegments path) store.fields
        (writeNumber change store path x).2.fields := by
  unfold writeNumber at h ⊢
  cases hfinite : Double.nonFinite? x with
  | some reason =>
    rw [hfinite] at h
    cases h
  | none =>
    cases hpath : properSegments? path with
    | none =>
      rw [hfinite, hpath] at h
      cases h
    | some segments =>
      obtain rfl := pathSegments_of_properSegments? hpath
      rw [hfinite, hpath] at h
      refine ⟨rfl, rfl, wrote_of_write (pathSegments_ne_nil path) ?_⟩
      cases houtcome : (write (change (.ofFloat x)) (pathSegments path) store.fields).1 with
      | ok _ => rfl
      | error fault =>
        simp only [houtcome] at h
        cases h

/-- A number that is not written is not finite, or its path has an empty segment, or a value on the
way is no object, or the value at its end cannot be changed. -/
lemma exists_obstacle {e : RunError} (h : (writeNumber change store path x).1 = .error e) :
    Double.nonFinite? x ≠ none ∨ properSegments? path = none ∨
      store.toJson.Blocks (pathSegments path) ∨ ∃ leaf fault,
        change (.ofFloat x) leaf (store.toJson.node? (pathSegments path)) = .error fault := by
  unfold writeNumber at h
  cases hfinite : Double.nonFinite? x with
  | some reason => exact .inl nofun
  | none =>
    cases hpath : properSegments? path with
    | none => exact .inr (.inl rfl)
    | some segments =>
      obtain rfl := pathSegments_of_properSegments? hpath
      refine .inr (.inr ?_)
      cases houtcome : (write (change (.ofFloat x)) (pathSegments path) store.fields).1 with
      | ok _ =>
        simp only [hfinite, hpath, houtcome] at h
        cases h
      | error fault =>
        rcases blocks_or_of_write (pathSegments_ne_nil path) houtcome with hblocks | ⟨leaf, hchange⟩
        · exact .inl hblocks
        · exact .inr ⟨leaf, fault, hchange⟩

/-- The number cannot be written to the path, whatever is done with it there: it is not finite, or
the path has an empty segment, or a value above the end of the path is no object. -/
def Refuses (store : Store) (path : String) (x : Float) : Prop :=
  Double.nonFinite? x ≠ none ∨ properSegments? path = none ∨
    store.toJson.Blocks (pathSegments path)

/-- A value that cannot be set is refused by the store. -/
lemma refuses_of_set {e : RunError} (h : (store.set path x).1 = .error e) :
    store.Refuses path x := by
  rcases exists_obstacle h with hfinite | hpath | hblocks | ⟨leaf, fault, hchange⟩
  · exact .inl hfinite
  · exact .inr (.inl hpath)
  · exact .inr (.inr hblocks)
  · cases hchange

/-- A value that cannot be pushed is refused, or there is something else than a list. -/
lemma refuses_or_of_push {e : RunError} (h : (store.push path x).1 = .error e) :
    store.Refuses path x ∨
      ∃ node, store.toJson.node? (pathSegments path) = some node ∧ node.kind ≠ .list := by
  rcases exists_obstacle h with hfinite | hpath | hblocks | ⟨leaf, fault, hchange⟩
  · exact .inl (.inl hfinite)
  · exact .inl (.inr (.inl hpath))
  · exact .inl (.inr (.inr hblocks))
  · right
    cases hnode : store.toJson.node? (pathSegments path) with
    | none =>
      rw [hnode] at hchange
      cases hchange
    | some node =>
      refine ⟨node, rfl, ?_⟩
      cases node with
      | list items =>
        rw [hnode] at hchange
        cases hchange
      | _ => nofun

/-! ### What a write changes -/

/-- Of all nodes, only those at the end of the way and below it may have changed, and those above it
are objects. -/
structure ChangesOnly (way : List String) (before after : Store) : Prop where
  elsewhere : ∀ other, ¬other <+: way → ¬way <+: other →
    after.toJson.node? other = before.toJson.node? other
  above : ∀ other, other <+: way → other ≠ way →
    ∃ fields, after.toJson.node? other = some (.object fields)

namespace Wrote

variable {change : Change} {way : List String} {before after : Store}

/-- A write changes nothing but what is on its way. -/
lemma changesOnly (h : Wrote change way before.fields after.fields) :
    ChangesOnly way before after where
  elsewhere _ hother hway := h.node?_elsewhere (.of_not_isPrefix hother hway)
  above _ hbegins hne := h.node?_above_after hbegins hne

/-- A write does not change what is read at a path that it is not above of. -/
lemma get_eq_ok_iff (h : Wrote change way before.fields after.fields)
    (hnot : ¬way <+: pathSegments path) : after.get path = .ok x ↔ before.get path = .ok x := by
  apply get_eq_ok_congr
  intro n
  by_cases hbegins : pathSegments path <+: way
  · -- the path ends above the target, where there is no number before or after
    have hne : pathSegments path ≠ way := by
      rintro rfl
      exact hnot List.prefix_rfl
    constructor
    · intro hafter
      obtain ⟨fields, hobject⟩ := h.changesOnly.above _ hbegins hne
      rw [hafter] at hobject
      cases hobject
    · intro hbefore
      obtain ⟨fields, hobject⟩ := h.node?_above_before hbegins hne hbefore
      cases hobject
  · rw [h.changesOnly.elsewhere _ hbegins hnot]

end Wrote

/-- Replacing gives the number. -/
lemma replace_eq_ok {n : Json.Number} {leaf : String} {found : Option Json} {v : Json}
    (h : replace n leaf found = .ok v) : v = .number n :=
  (Except.ok.inj h).symm

/-- A number is appended to a list, or to nothing. -/
lemma append_eq_ok {n : Json.Number} {leaf : String} {found : Option Json} {v : Json}
    (h : append n leaf found = .ok v) :
    ∃ items, (found = some (.list items) ∨ found = none ∧ items = []) ∧
      v = .list (items ++ [.number n]) := by
  unfold append at h
  split at h
  · cases h
    exact ⟨[], .inr ⟨rfl, rfl⟩, rfl⟩
  · rename_i items
    cases h
    exact ⟨items, .inl rfl, rfl⟩
  · cases h

/-- A number that is set is read back. -/
lemma get_of_set (h : (store.set path x).1 = .ok ()) :
    (store.set path x).2.get path = .ok (Double.unsignedZero x) := by
  obtain ⟨-, hpath, hwrote⟩ := wrote_of_writeNumber h
  obtain ⟨leaf, v, hchange, hnode⟩ := hwrote.node?_target
  obtain rfl := replace_eq_ok hchange
  exact get_eq_ok_iff.mpr ⟨hpath, _, hnode, Json.Number.toFloat_ofFloat x⟩

/-- A number that is appended follows the list that was there. -/
lemma node?_of_push (h : (store.push path x).1 = .ok ()) :
    ∃ items, (store.toJson.node? (pathSegments path) = some (.list items) ∨
        store.toJson.node? (pathSegments path) = none ∧ items = []) ∧
      (store.push path x).2.toJson.node? (pathSegments path) =
        some (.list (items ++ [.number (.ofFloat x)])) := by
  obtain ⟨-, -, hwrote⟩ := wrote_of_writeNumber h
  obtain ⟨leaf, v, hchange, hnode⟩ := hwrote.node?_target
  obtain ⟨items, hitems, rfl⟩ := append_eq_ok hchange
  exact ⟨items, hitems, hnode⟩

/-- Appending a number does not change what is read at any path: at the list and below it, nothing
can be read before or after. -/
lemma get_push_eq_ok_iff (h : (store.push path x).1 = .ok ()) {y : Float} :
    (store.push path x).2.get path' = .ok y ↔ store.get path' = .ok y := by
  obtain ⟨-, -, hwrote⟩ := wrote_of_writeNumber h
  by_cases hbegins : pathSegments path <+: pathSegments path'
  · obtain ⟨items, hbefore, hafter⟩ := node?_of_push h
    apply get_eq_ok_congr
    intro n
    by_cases hsame : pathSegments path = pathSegments path'
    · rw [← hsame, hafter]
      rcases hbefore with hlist | ⟨hnone, -⟩
      · simp [hlist]
      · simp [hnone]
    · have hnoneBefore : store.toJson.node? (pathSegments path') = none := by
        refine Json.node?_below hbegins hsame fun fields hobject => ?_
        rcases hbefore with hlist | ⟨hnone, -⟩
        · rw [hlist] at hobject
          cases hobject
        · rw [hnone] at hobject
          cases hobject
      have hnoneAfter : (store.push path x).2.toJson.node? (pathSegments path') = none := by
        refine Json.node?_below hbegins hsame fun fields hobject => ?_
        rw [hafter] at hobject
        cases hobject
      rw [hnoneBefore, hnoneAfter]
  · exact hwrote.get_eq_ok_iff hbegins

/-- **Writes touch only their target.**  A number that is set is read back, as the same number, and
at every path that is not the target or below it the same is read as before.  A number that is
appended follows the list that was at the target, an empty one if there was nothing, and at every
path whatsoever the same is read as before.  In both cases every node that is neither above nor
below the target is what it was, and every node above the target is an object. -/
theorem write_changes_only_target (store : Store) (path : String) (x : Float) :
    ((store.set path x).1 = .ok () →
      (store.set path x).2.get path = .ok (Double.unsignedZero x) ∧
        (Double.unsignedZero x == x) = true ∧
        (∀ path', path' ≠ path → ¬LeadsTo path path' → ∀ y,
          (store.set path x).2.get path' = .ok y ↔ store.get path' = .ok y) ∧
        ChangesOnly (pathSegments path) store (store.set path x).2) ∧
    ((store.push path x).1 = .ok () →
      (∃ items n, (store.toJson.node? (pathSegments path) = some (.list items) ∨
          store.toJson.node? (pathSegments path) = none ∧ items = []) ∧
        (store.push path x).2.toJson.node? (pathSegments path) =
          some (.list (items ++ [.number n])) ∧ (n.toFloat == x) = true) ∧
        (∀ path' y, (store.push path x).2.get path' = .ok y ↔ store.get path' = .ok y) ∧
        ChangesOnly (pathSegments path) store (store.push path x).2) := by
  constructor
  · intro h
    obtain ⟨hfinite, -, hwrote⟩ := wrote_of_writeNumber h
    refine ⟨get_of_set h, Double.unsignedZero_beq hfinite, ?_, hwrote.changesOnly⟩
    intro path' hne hbelow y
    -- a path that begins with the other one, and is not the same, lies below it
    have hnot : ¬pathSegments path <+: pathSegments path' := by
      intro hbegins
      have hsame : pathSegments path ≠ pathSegments path' :=
        fun hsame => hne (pathSegments_injective hsame).symm
      exact hbelow ⟨hbegins, hsame⟩
    exact hwrote.get_eq_ok_iff hnot
  · intro h
    obtain ⟨hfinite, -, hwrote⟩ := wrote_of_writeNumber h
    obtain ⟨items, hbefore, hafter⟩ := node?_of_push h
    have hnumber : ((Json.Number.ofFloat x).toFloat == x) = true := by
      rw [Json.Number.toFloat_ofFloat]
      exact Double.unsignedZero_beq hfinite
    exact ⟨⟨items, .ofFloat x, hbefore, hafter, hnumber⟩, fun _ _ => get_push_eq_ok_iff h,
      hwrote.changesOnly⟩

/-- The negative zero is set in an object that is not there yet, and read back as zero; a list next
to it goes on with a fraction. -/
theorem write_changes_only_target_hits :
    let store : Store := ⟨[("hits", .object [("max", .number (.int 12)),
      ("rolls", .list [.number (.int 4)])])]⟩
    let set := store.set "hits.bonus.fire" (-0.0)
    let push := store.push "hits.rolls" 2.5
    set.1 = .ok () ∧ push.1 = .ok () ∧
      set.2.get "hits.bonus.fire" = .ok 0 ∧
      (∀ y, set.2.get "hits.max" = .ok y ↔ store.get "hits.max" = .ok y) ∧
      set.2.toJson.node? ["hits", "rolls"] = store.toJson.node? ["hits", "rolls"] ∧
      (∃ fields, set.2.toJson.node? ["hits", "bonus"] = some (.object fields)) ∧
      (∀ path y, push.2.get path = .ok y ↔ store.get path = .ok y) := by
  intro store set push
  have hset : set.1 = .ok () := by decide +kernel
  have hpush : push.1 = .ok () := by decide +kernel
  have hbonus : pathSegments "hits.bonus.fire" = ["hits", "bonus", "fire"] := by decide +kernel
  obtain ⟨hget, -, hothers, honly⟩ := (write_changes_only_target store _ _).1 hset
  obtain ⟨-, hreads, -⟩ := (write_changes_only_target store _ _).2 hpush
  have hzero : Double.unsignedZero (-0.0) = 0 := by decide +kernel
  rw [hbonus] at honly
  refine ⟨hset, hpush, ?_, hothers _ (by decide) (by decide +kernel), ?_, ?_, hreads⟩
  · rw [← hzero]
    exact hget
  · exact honly.elsewhere _ (by decide) (by decide)
  · exact honly.above _ (by decide) (by decide)

end Store

end SheetRules
