import Mathlib.Tactic.Common
import SheetRules.Proofs.Store.Fields
import SheetRules.Store.Basic

/-!
# What a write does to a store

A write goes through nested objects to the value that it changes.  Seen from one object, it sets the
field that it goes through and leaves the others alone, so every law below is an induction along the
way: a write that fails leaves everything as it was, of two numbers written to the same place the
second counts, and ways that part from each other do not disturb each other, neither two writes nor
a write and a reading.

Two ways part if neither is the beginning of the other.  They may well share their first objects,
which both writes create if they are missing.
-/

namespace SheetRules

namespace Json.Fields

/-- The fields that a segment leads to: those of the object there, and none if nothing is there.  No
way leads through any other value. -/
def entered? (segment : String) (fields : Fields) : Option Fields :=
  match get? segment fields with
  | some (.object inner) => some inner
  | some _ => none
  | none => some []

/-- An object that was put is entered. -/
@[simp] lemma entered?_put_object (segment : String) (inner fields : Fields) :
    entered? segment (put segment (.object inner) fields) = some inner := by
  simp [entered?]

/-- A segment leads to the fields of the object there, or to no fields where nothing is. -/
lemma get?_of_entered? {segment : String} {inner fields : Fields}
    (h : entered? segment fields = some inner) :
    get? segment fields = some (.object inner) ∨ get? segment fields = none ∧ inner = [] := by
  unfold entered? at h
  split at h
  · rename_i hget
    exact .inl (Option.some.inj h ▸ hget)
  · cases h
  · rename_i hget
    exact .inr ⟨hget, (Option.some.inj h).symm⟩

end Json.Fields

/-- The ways have some first segments in common, and then different ones. -/
inductive Parts : List String → List String → Prop
  | here {segment segment' rest rest'} (h : segment ≠ segment') :
      Parts (segment :: rest) (segment' :: rest')
  | there {segment rest rest'} (h : Parts rest rest') : Parts (segment :: rest) (segment :: rest')

namespace Parts

variable {way way' : List String}

/-- Two ways part from each other. -/
lemma symm (h : Parts way way') : Parts way' way := by
  induction h with
  | here hne => exact .here hne.symm
  | there _ ih => exact .there ih

/-- A way that parts from another one is not empty. -/
lemma ne_nil (h : Parts way way') : way ≠ [] := by
  cases h <;> exact List.cons_ne_nil _ _

/-- Ways of which neither is the beginning of the other part somewhere. -/
lemma of_not_isPrefix (h : ¬way <+: way') (h' : ¬way' <+: way) : Parts way way' := by
  induction way generalizing way' with
  | nil => exact absurd List.nil_prefix h
  | cons segment rest ih =>
    cases way' with
    | nil => exact absurd List.nil_prefix h'
    | cons segment' rest' =>
      by_cases hsegment : segment = segment'
      · subst hsegment
        rw [List.prefix_cons_inj] at h h'
        exact .there (ih h h')
      · exact .here hsegment

end Parts

namespace Store

open Json (Fields)

variable {change other : Change} {segment : String} {rest way way' : List String}
  {fields inner : Fields}

/-! ### One object of the way -/

/-- At the end of a way the field is changed. -/
lemma write_leaf (change : Change) (leaf : String) (fields : Fields) :
    write change [leaf] fields = match change leaf (fields.get? leaf) with
      | .ok v => (.ok (), fields.put leaf v)
      | .error fault => (.error fault, fields) := rfl

/-- A write that goes through a segment sets that field to the object that the rest of the write
leaves. -/
lemma write_through (hrest : rest ≠ []) (h : fields.entered? segment = some inner) :
    write change (segment :: rest) fields =
      ((write change rest inner).1, fields.put segment (.object (write change rest inner).2)) := by
  cases rest with
  | nil => exact absurd rfl hrest
  | cons next rest =>
    rcases Fields.get?_of_entered? h with hget | ⟨hget, rfl⟩
    · simp only [write, hget]
    · simp only [write, hget]

/-- A write ends at a segment that it cannot go through. -/
lemma write_barred (change : Change) (hrest : rest ≠ []) (h : fields.entered? segment = none) :
    ∃ v, fields.get? segment = some v ∧
      write change (segment :: rest) fields = (.error (.notObject segment v.kind), fields) := by
  cases rest with
  | nil => exact absurd rfl hrest
  | cons next rest =>
    unfold Fields.entered? at h
    split at h
    · cases h
    · rename_i v hobject hget
      refine ⟨v, hget, ?_⟩
      simp only [write, hget]
    · cases h

/-- A write sets the first field of its way, or it changes nothing. -/
lemma write_eq_put_or (change : Change) (segment : String) (rest : List String) (fields : Fields) :
    (write change (segment :: rest) fields).2 = fields ∨
      ∃ v, (write change (segment :: rest) fields).2 = fields.put segment v := by
  by_cases hrest : rest = []
  · subst hrest
    rw [write_leaf]
    split
    · exact .inr ⟨_, rfl⟩
    · exact .inl rfl
  cases hentered : fields.entered? segment with
  | none =>
    obtain ⟨v, -, hwrite⟩ := write_barred change hrest hentered
    exact .inl (congrArg Prod.snd hwrite)
  | some inner => exact .inr ⟨_, congrArg Prod.snd (write_through hrest hentered)⟩

/-- A write does the same whatever the fields are that it does not go through. -/
lemma write_put_of_ne {key : String} (hne : key ≠ segment) (value : Json) :
    write change (segment :: rest) (fields.put key value) =
      ((write change (segment :: rest) fields).1,
        (write change (segment :: rest) fields).2.put key value) := by
  have hget : (fields.put key value).get? segment = fields.get? segment :=
    Fields.get?_put_of_ne hne.symm value fields
  by_cases hrest : rest = []
  · subst hrest
    rw [write_leaf, write_leaf, hget]
    split
    · rw [Fields.put_comm hne]
    · rfl
  have hentered : (fields.put key value).entered? segment = fields.entered? segment := by
    rw [Fields.entered?, hget, Fields.entered?]
  cases h : fields.entered? segment with
  | none =>
    obtain ⟨v, hv, hwrite⟩ := write_barred change hrest h
    obtain ⟨v', hv', hwrite'⟩ := write_barred change hrest (hentered.trans h)
    obtain rfl : v' = v := Option.some.inj (hv'.symm.trans (hget.trans hv))
    rw [hwrite, hwrite']
  | some inner =>
    rw [write_through hrest h, write_through hrest (hentered.trans h), Fields.put_comm hne]

/-- A write leaves the fields alone that it does not go through. -/
lemma get?_write_of_ne {key : String} (hne : key ≠ segment) :
    (write change (segment :: rest) fields).2.get? key = fields.get? key := by
  rcases write_eq_put_or change segment rest fields with hsame | ⟨v, hput⟩
  · rw [hsame]
  · rw [hput, Fields.get?_put_of_ne hne]

/-! ### Writes that fail -/

/-- The change gives a value where there is none. -/
def Change.Creates (change : Change) : Prop :=
  ∀ leaf, ∃ v, change leaf none = .ok v

/-- Replacing creates a value. -/
lemma creates_replace (n : Json.Number) : Change.Creates (replace n) :=
  fun _ => ⟨_, rfl⟩

/-- Appending creates a value. -/
lemma creates_append (n : Json.Number) : Change.Creates (append n) :=
  fun _ => ⟨_, rfl⟩

/-- Nothing stops a write in an empty object. -/
lemma write_nil (hcreates : change.Creates) (way : List String) :
    (write change way []).1 = .ok () := by
  induction way with
  | nil => rfl
  | cons segment rest ih =>
    by_cases hrest : rest = []
    · subst hrest
      obtain ⟨v, hv⟩ := hcreates segment
      rw [write_leaf, Fields.get?, hv]
    · have hentered : Fields.entered? segment [] = some [] := rfl
      rw [write_through hrest hentered]
      exact ih

/-- A write that fails leaves everything as it was.  It fails at an object that was there before, so
it has created none. -/
theorem write_of_error (hcreates : change.Creates) {fault : PathFault}
    (h : (write change way fields).1 = .error fault) : (write change way fields).2 = fields := by
  induction way generalizing fields with
  | nil => rfl
  | cons segment rest ih =>
    by_cases hrest : rest = []
    · subst hrest
      rw [write_leaf] at h ⊢
      split at h
      · cases h
      · rfl
    cases hentered : fields.entered? segment with
    | none =>
      obtain ⟨v, -, hwrite⟩ := write_barred change hrest hentered
      rw [hwrite]
    | some inner =>
      rw [write_through hrest hentered] at h ⊢
      have hinner : (write change rest inner).2 = inner := ih h
      rw [hinner]
      rcases Fields.get?_of_entered? hentered with hget | ⟨-, rfl⟩
      · exact Fields.put_of_get? hget
      · rw [write_nil hcreates] at h
        cases h

/-! ### Two writes -/

/-- Writes along ways that part do not disturb each other: the second has the outcome that it has
alone, and the order does not matter. -/
theorem write_comm (h : Parts way way') (change other : Change) (fields : Fields) :
    (write other way' (write change way fields).2).1 = (write other way' fields).1 ∧
      (write other way' (write change way fields).2).2 =
        (write change way (write other way' fields).2).2 := by
  induction h generalizing fields with
  -- the ways part here: each write puts its own field or fails
  | @here segment segment' rest rest' hne =>
    rcases write_eq_put_or change segment rest fields with hsame | ⟨v, hput⟩
    · rw [hsame]
      refine ⟨rfl, ?_⟩
      rcases write_eq_put_or other segment' rest' fields with hsame' | ⟨v', hput'⟩
      · rw [hsame', hsame]
      · rw [hput', write_put_of_ne hne.symm, hsame]
    · rw [hput, write_put_of_ne hne]
      refine ⟨rfl, ?_⟩
      rcases write_eq_put_or other segment' rest' fields with hsame' | ⟨v', hput'⟩
      · rw [hsame', hput]
      · rw [hput', write_put_of_ne hne.symm, hput, Fields.put_comm hne]
  | @there segment rest rest' hparts ih =>
    have hrest : rest ≠ [] := hparts.ne_nil
    have hrest' : rest' ≠ [] := hparts.symm.ne_nil
    -- the ways go on together, and either both are barred or both enter the same object
    cases hentered : fields.entered? segment with
    | none =>
      obtain ⟨v, -, hwrite⟩ := write_barred change hrest hentered
      obtain ⟨v', -, hwrite'⟩ := write_barred other hrest' hentered
      rw [hwrite, hwrite', hwrite]
      exact ⟨rfl, rfl⟩
    | some inner =>
      obtain ⟨houtcome, hinner⟩ := ih inner
      rw [write_through hrest hentered, write_through hrest' hentered,
        write_through hrest' (Fields.entered?_put_object ..),
        write_through hrest (Fields.entered?_put_object ..), Fields.put_put, Fields.put_put]
      exact ⟨houtcome, by rw [hinner]⟩

/-- Of two numbers written to the same place, the second counts. -/
theorem write_replace_replace (m n : Json.Number) (way : List String) (fields : Fields) :
    write (replace n) way (write (replace m) way fields).2 = write (replace n) way fields := by
  induction way generalizing fields with
  | nil => rfl
  | cons segment rest ih =>
    by_cases hrest : rest = []
    · subst hrest
      simp [write_leaf, replace]
    cases hentered : fields.entered? segment with
    | none =>
      obtain ⟨v, -, hwrite⟩ := write_barred (replace m) hrest hentered
      rw [hwrite]
    | some inner =>
      rw [write_through hrest hentered, write_through hrest hentered,
        write_through hrest (Fields.entered?_put_object ..), Fields.put_put, ih]

/-! ### A write and a reading -/

/-- What is found depends on the first field of the way only. -/
lemma find_congr {fields' : Fields} (h : fields.get? segment = fields'.get? segment) :
    find (segment :: rest) fields = find (segment :: rest) fields' := by
  cases rest <;> simp only [find, h]

/-- Reading through a segment finds what is found in the fields that it leads to. -/
lemma find_through (hrest : rest ≠ []) (h : fields.entered? segment = some inner) :
    (find (segment :: rest) fields).toOption = (find rest inner).toOption := by
  cases rest with
  | nil => exact absurd rfl hrest
  | cons next rest =>
    rcases Fields.get?_of_entered? h with hget | ⟨hget, rfl⟩
    · simp only [find, hget]
    · cases rest <;> simp [find, hget, Fields.get?, Except.toOption]

/-- A reading along a way that parts from that of a write finds what it found before. -/
theorem find_write (h : Parts way' way) (change : Change) (fields : Fields) :
    (find way' (write change way fields).2).toOption = (find way' fields).toOption := by
  induction h generalizing fields with
  | here hne => rw [find_congr (get?_write_of_ne hne)]
  | @there segment rest' rest hparts ih =>
    have hrest' : rest' ≠ [] := hparts.ne_nil
    have hrest : rest ≠ [] := hparts.symm.ne_nil
    cases hentered : fields.entered? segment with
    | none =>
      obtain ⟨v, -, hwrite⟩ := write_barred change hrest hentered
      rw [hwrite]
    | some inner =>
      rw [write_through hrest hentered, find_through hrest' (Fields.entered?_put_object ..), ih,
        find_through hrest' hentered]

end Store

/-! ### Numbers at paths -/

/-- Neither path is the other one or leads to it: cut into segments, neither is the beginning of the
other. -/
def Apart (path path' : String) : Prop :=
  ¬pathSegments path <+: pathSegments path' ∧ ¬pathSegments path' <+: pathSegments path

instance (path path' : String) : Decidable (Apart path path') :=
  inferInstanceAs (Decidable (_ ∧ _))

/-- Being apart does not depend on the order. -/
lemma Apart.symm {path path' : String} (h : Apart path path') : Apart path' path :=
  ⟨h.2, h.1⟩

/-- Paths that are apart have ways that part. -/
lemma Apart.parts {path path' : String} (h : Apart path path') :
    Parts (pathSegments path) (pathSegments path') :=
  .of_not_isPrefix h.1 h.2

/-- The path leads to the other one: cut into segments, it is a proper beginning of it. -/
def LeadsTo (path path' : String) : Prop :=
  pathSegments path <+: pathSegments path' ∧ pathSegments path ≠ pathSegments path'

instance (path path' : String) : Decidable (LeadsTo path path') :=
  inferInstanceAs (Decidable (_ ∧ _))

/-- The segments of a proper path are those that it is cut into. -/
lemma pathSegments_of_properSegments? {path : String} {segments : List String}
    (h : properSegments? path = some segments) : pathSegments path = segments := by
  simp only [properSegments?] at h
  split at h
  · cases h
  · exact Option.some.inj h

namespace Store

variable {change other : Json.Number → Change} {store : Store} {path path' : String} {x y : Float}

/-- A number is refused whatever the store holds, or it is written along the segments of the
path. -/
lemma writeNumber_cases (change : Json.Number → Change) (path : String) (x : Float) :
    (∃ e, ∀ store, writeNumber change store path x = (.error e, store)) ∨
      ∀ store, writeNumber change store path x =
        ((write (change (.ofFloat x)) (pathSegments path) store.fields).1.mapError
            (.invalidTarget path),
          ⟨(write (change (.ofFloat x)) (pathSegments path) store.fields).2⟩) := by
  unfold writeNumber
  cases Double.nonFinite? x with
  | some reason => exact .inl ⟨_, fun _ => rfl⟩
  | none =>
    cases hpath : properSegments? path with
    | none => exact .inl ⟨_, fun _ => rfl⟩
    | some segments =>
      rw [pathSegments_of_properSegments? hpath]
      exact .inr fun _ => rfl

/-- A number that is not written leaves the store as it was. -/
theorem writeNumber_of_error (hcreates : ∀ n, (change n).Creates) {e : RunError}
    (h : (writeNumber change store path x).1 = .error e) :
    (writeNumber change store path x).2 = store := by
  rcases writeNumber_cases change path x with ⟨e', hrefused⟩ | hwritten
  · rw [hrefused]
  · rw [hwritten] at h ⊢
    cases houtcome : (write (change (.ofFloat x)) (pathSegments path) store.fields).1 with
    | ok _ =>
      rw [houtcome] at h
      cases h
    | error fault =>
      have hfields := write_of_error (hcreates _) houtcome
      simp only [hfields]

/-- Numbers are written to paths that are apart in either order, and each write has the outcome that
it has alone. -/
theorem writeNumber_comm (h : Apart path path') (change other : Json.Number → Change)
    (store : Store) (x y : Float) :
    (writeNumber other (writeNumber change store path x).2 path' y).1 =
        (writeNumber other store path' y).1 ∧
      (writeNumber other (writeNumber change store path x).2 path' y).2 =
        (writeNumber change (writeNumber other store path' y).2 path x).2 := by
  rcases writeNumber_cases change path x with ⟨e, hrefused⟩ | hwritten
  · simp only [hrefused, and_self]
  rcases writeNumber_cases other path' y with ⟨e', hrefused'⟩ | hwritten'
  · simp only [hrefused', and_self]
  · obtain ⟨houtcome, hfields⟩ :=
      write_comm h.parts (change (.ofFloat x)) (other (.ofFloat y)) store.fields
    simp only [hwritten, hwritten', houtcome, hfields, and_self]

/-- What can be set at all is a number. -/
lemma finite_of_set (h : (store.set path x).1 = .ok ()) : Double.nonFinite? x = none := by
  unfold set writeNumber at h
  split at h
  · cases h
  · assumption

/-- Of two numbers that are set at the same place, the second counts. -/
theorem set_set (h : pathSegments path = pathSegments path') (hy : Double.nonFinite? y = none)
    (store : Store) (x : Float) :
    (store.set path x).2.set path' y = store.set path' y := by
  have hproper : properSegments? path = properSegments? path' := by
    simp only [properSegments?, h]
  simp only [set, writeNumber, hy, hproper]
  cases Double.nonFinite? x with
  | some reason => rfl
  | none =>
    cases properSegments? path' with
    | none => rfl
    | some segments => simp only [write_replace_replace]

/-- A number written to a path does not change what is read from a path that is apart from it. -/
theorem get_writeNumber (h : Apart path' path) (change : Json.Number → Change) (store : Store)
    (x : Float) :
    ((writeNumber change store path x).2.get path').toOption = (store.get path').toOption := by
  rcases writeNumber_cases change path x with ⟨e, hrefused⟩ | hwritten
  · rw [hrefused]
  rw [hwritten, get, get]
  cases hpath : properSegments? path' with
  | none => rfl
  | some segments =>
    obtain rfl := pathSegments_of_properSegments? hpath
    have hfind := find_write h.parts (change (.ofFloat x)) store.fields
    cases hbefore : find (pathSegments path') store.fields <;>
      cases hafter : find (pathSegments path')
        (write (change (.ofFloat x)) (pathSegments path) store.fields).2 <;>
      simp_all [Except.toOption]

end Store

end SheetRules
