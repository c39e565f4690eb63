import Mathlib.Tactic.Common
import SheetRules.Json.Basic

/-!
# Reading and setting fields

Setting a field changes the value of that field and of no other, a second setting takes the place of
the first, and fields of different names can be set in either order.  The last law is about the
place of a new field: it stands in front of the first greater name, and this place does not depend
on which other fields are set before.
-/

namespace SheetRules.Json.Fields

variable {key other : String} {value : Json}

/-- Without fields nothing is found. -/
lemma get?_nil (key : String) : get? key [] = none := rfl

/-- The first field with the key is found. -/
lemma get?_cons (key k : String) (v : Json) (rest : Fields) :
    get? key ((k, v) :: rest) = if k = key then some v else get? key rest := rfl

/-- A field is put into an object without fields. -/
lemma put_nil (key : String) (value : Json) : put key value [] = [(key, value)] := rfl

/-- A field replaces the one with its key, or it is put before the first larger key. -/
lemma put_cons (key k : String) (value v : Json) (rest : Fields) :
    put key value ((k, v) :: rest) =
      if key = k then (key, value) :: rest
      else if key < k ∧ (get? key rest).isNone then (key, value) :: (k, v) :: rest
      else (k, v) :: put key value rest := rfl

/-- Setting a field in a list that is not empty: the first field is the one that is set, or the new
field goes in front of it, or the field is set further down. -/
lemma put_cons_cases (key k : String) (value v : Json) (rest : Fields) :
    (key = k ∧ put key value ((k, v) :: rest) = (key, value) :: rest) ∨
      (key ≠ k ∧ key < k ∧ get? key rest = none ∧
        put key value ((k, v) :: rest) = (key, value) :: (k, v) :: rest) ∨
      (key ≠ k ∧ ¬(key < k ∧ get? key rest = none) ∧
        put key value ((k, v) :: rest) = (k, v) :: put key value rest) := by
  by_cases hk : key = k
  · exact .inl ⟨hk, by rw [put_cons, if_pos hk]⟩
  by_cases hnew : key < k ∧ get? key rest = none
  · refine .inr (.inl ⟨hk, hnew.1, hnew.2, ?_⟩)
    rw [put_cons, if_neg hk, if_pos (by simpa using hnew)]
  · refine .inr (.inr ⟨hk, hnew, ?_⟩)
    rw [put_cons, if_neg hk, if_neg (by simpa using hnew)]

/-- The first field is replaced. -/
lemma put_head (k : String) (v value : Json) (rest : Fields) :
    put k value ((k, v) :: rest) = (k, value) :: rest := by
  rw [put_cons, if_pos rfl]

/-- A new field goes in front of a list that starts with a greater name. -/
lemma put_of_lt {k : String} {v : Json} {rest : Fields} (hlt : key < k)
    (hnew : get? key rest = none) :
    put key value ((k, v) :: rest) = (key, value) :: (k, v) :: rest := by
  rcases put_cons_cases key k value v rest with ⟨rfl, -⟩ | ⟨-, -, -, hput⟩ | ⟨-, hold, -⟩
  · exact absurd hlt (String.lt_irrefl key)
  · exact hput
  · exact absurd ⟨hlt, hnew⟩ hold

/-- A field that is not in front of a list is set further down. -/
lemma put_of_not {k : String} {v : Json} {rest : Fields} (hk : key ≠ k)
    (h : ¬(key < k ∧ get? key rest = none)) :
    put key value ((k, v) :: rest) = (k, v) :: put key value rest := by
  rcases put_cons_cases key k value v rest with ⟨hsame, -⟩ | ⟨-, hlt, hnew, -⟩ | ⟨-, -, hput⟩
  · exact absurd hsame hk
  · exact absurd ⟨hlt, hnew⟩ h
  · exact hput

/-- A field that was put is found. -/
@[simp] lemma get?_put_self (key : String) (value : Json) (fields : Fields) :
    get? key (put key value fields) = some value := by
  induction fields with
  | nil => rw [put_nil, get?_cons, if_pos rfl]
  | cons head rest ih =>
    obtain ⟨k, v⟩ := head
    rcases put_cons_cases key k value v rest with ⟨-, hput⟩ | ⟨-, -, -, hput⟩ | ⟨hk, -, hput⟩
    · rw [hput, get?_cons, if_pos rfl]
    · rw [hput, get?_cons, if_pos rfl]
    · rw [hput, get?_cons, if_neg hk.symm, ih]

/-- The other fields stay as they are. -/
lemma get?_put_of_ne (h : other ≠ key) (value : Json) (fields : Fields) :
    get? other (put key value fields) = get? other fields := by
  induction fields with
  | nil => rw [put_nil, get?_cons, if_neg h.symm]
  | cons head rest ih =>
    obtain ⟨k, v⟩ := head
    rcases put_cons_cases key k value v rest with ⟨rfl, hput⟩ | ⟨-, -, -, hput⟩ | ⟨-, -, hput⟩
    · rw [hput, get?_cons, get?_cons, if_neg h.symm, if_neg h.symm]
    · rw [hput, get?_cons, if_neg h.symm]
    · rw [hput, get?_cons, get?_cons, ih]

/-- Setting a field to the value that it has changes nothing. -/
lemma put_of_get? {fields : Fields} (h : get? key fields = some value) :
    put key value fields = fields := by
  induction fields with
  | nil => cases h
  | cons head rest ih =>
    obtain ⟨k, v⟩ := head
    rw [get?_cons] at h
    rcases put_cons_cases key k value v rest with ⟨rfl, hput⟩ | ⟨hk, -, hnew, -⟩ | ⟨hk, -, hput⟩
    · rw [if_pos rfl] at h
      rw [hput, Option.some.inj h]
    · rw [if_neg hk.symm, hnew] at h
      cases h
    · rw [if_neg hk.symm] at h
      rw [hput, ih h]

/-- Of two settings of a field, the second counts. -/
@[simp] lemma put_put (key : String) (value earlier : Json) (fields : Fields) :
    put key value (put key earlier fields) = put key value fields := by
  induction fields with
  | nil => rw [put_nil, put_head, put_nil]
  | cons head rest ih =>
    obtain ⟨k, v⟩ := head
    rcases put_cons_cases key k earlier v rest with
      ⟨rfl, hput⟩ | ⟨-, hlt, hnew, hput⟩ | ⟨hk, hold, hput⟩
    · rw [hput, put_head, put_head]
    · rw [hput, put_head, put_of_lt hlt hnew]
    · have hset : ¬(key < k ∧ get? key (put key earlier rest) = none) := by simp
      rw [hput, put_of_not hk hset, ih, put_of_not hk hold]

/-- Two different keys are in order one way or the other. -/
lemma lt_or_lt_of_ne (h : key ≠ other) : key < other ∨ other < key := by
  by_contra hboth
  rw [not_or, String.not_lt, String.not_lt] at hboth
  exact h (String.le_antisymm hboth.2 hboth.1)

/-- Two new fields in front of the same list. -/
lemma put_comm_of_lt {k : String} {v x y : Json} {rest : Fields} (hlt : key < other)
    (hkey : key < k) (hother : other < k) (hkeyNew : get? key rest = none)
    (hotherNew : get? other rest = none) :
    put key x (put other y ((k, v) :: rest)) = put other y (put key x ((k, v) :: rest)) := by
  have hne : other ≠ key := by
    rintro rfl
    exact String.lt_irrefl other hlt
  have hk : k ≠ key := by
    rintro rfl
    exact String.lt_irrefl k hkey
  have hnew : get? key ((k, v) :: rest) = none := by rw [get?_cons, if_neg hk, hkeyNew]
  have hbehind : ¬(other < key ∧ get? other ((k, v) :: rest) = none) :=
    fun hboth => String.lt_asymm hlt hboth.1
  rw [put_of_lt hother hotherNew, put_of_lt hlt hnew, put_of_lt hkey hkeyNew,
    put_of_not hne hbehind, put_of_lt hother hotherNew]

/-- A new field in front of a list does not change where a field further down is set. -/
lemma put_comm_of_not {k : String} {v x y : Json} {rest : Fields} (hne : key ≠ other)
    (hkey : key < k) (hkeyNew : get? key rest = none) (hk : other ≠ k)
    (hother : ¬(other < k ∧ get? other rest = none)) :
    put key x (put other y ((k, v) :: rest)) = put other y (put key x ((k, v) :: rest)) := by
  have hkeyNew' : get? key (put other y rest) = none := by rw [get?_put_of_ne hne, hkeyNew]
  have hbehind : ¬(other < key ∧ get? other ((k, v) :: rest) = none) := by
    rintro ⟨hlt, hnone⟩
    rw [get?_cons, if_neg hk.symm] at hnone
    exact hother ⟨String.lt_trans hlt hkey, hnone⟩
  rw [put_of_not hk hother, put_of_lt hkey hkeyNew', put_of_lt hkey hkeyNew,
    put_of_not hne.symm hbehind, put_of_not hk hother]

/-- A field in its place does not change where another one is set. -/
lemma put_comm_head {k : String} {v x y : Json} {rest : Fields} (hk : other ≠ k) :
    put k x (put other y ((k, v) :: rest)) = put other y (put k x ((k, v) :: rest)) := by
  by_cases hother : other < k ∧ get? other rest = none
  · have hfront : ¬(k < other ∧ get? k ((k, v) :: rest) = none) :=
      fun hboth => String.lt_asymm hother.1 hboth.1
    rw [put_of_lt hother.1 hother.2, put_of_not hk.symm hfront, put_head,
      put_of_lt hother.1 hother.2]
  · rw [put_of_not hk hother, put_head, put_head, put_of_not hk hother]

/-- Fields of different names can be set in either order. -/
theorem put_comm (hne : key ≠ other) (x y : Json) (fields : Fields) :
    put key x (put other y fields) = put other y (put key x fields) := by
  induction fields with
  | nil =>
    rcases lt_or_lt_of_ne hne with hlt | hlt <;>
      simp [put_nil, put_cons, get?_nil, hne, hne.symm, hlt, String.lt_asymm hlt]
  | cons head rest ih =>
    obtain ⟨k, v⟩ := head
    by_cases hkey : key = k
    · subst hkey
      exact put_comm_head hne.symm
    by_cases hother : other = k
    · subst hother
      exact (put_comm_head hne).symm
    -- each key is new at this place, or it belongs further down
    by_cases hkeyNew : key < k ∧ get? key rest = none
    · by_cases hotherNew : other < k ∧ get? other rest = none
      · rcases lt_or_lt_of_ne hne with hlt | hlt
        · exact put_comm_of_lt hlt hkeyNew.1 hotherNew.1 hkeyNew.2 hotherNew.2
        · exact (put_comm_of_lt hlt hotherNew.1 hkeyNew.1 hotherNew.2 hkeyNew.2).symm
      · exact put_comm_of_not hne hkeyNew.1 hkeyNew.2 hother hotherNew
    · by_cases hotherNew : other < k ∧ get? other rest = none
      · exact (put_comm_of_not hne.symm hotherNew.1 hotherNew.2 hkey hkeyNew).symm
      · -- Both are set further down, and setting one does not make the other a new field.
        have hkeyNew' : ¬(key < k ∧ get? key (put other y rest) = none) := by
          rwa [get?_put_of_ne hne]
        have hotherNew' : ¬(other < k ∧ get? other (put key x rest) = none) := by
          rwa [get?_put_of_ne hne.symm]
        rw [put_of_not hother hotherNew, put_of_not hkey hkeyNew', put_of_not hkey hkeyNew,
          put_of_not hother hotherNew', ih]

end SheetRules.Json.Fields
