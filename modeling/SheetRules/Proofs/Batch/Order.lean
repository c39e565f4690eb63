import Mathlib.Data.List.Basic
import SheetRules.Batch.Basic

/-!
# The order of execution

Statements are executed in the order of their precedence, and those of equal precedence in the order
of the list.  A list in the order of a key is determined by the elements of each key
(`eq_of_filter_key`), and sorting leaves those in their order (`filter_key_sortBy`).  From these two
facts it follows what sorting does to a part of a list, and to a list in which two elements change
places.
-/

namespace SheetRules

/-- The place of a statement in the order of precedence. -/
def Statement.rank (s : Statement) : Int :=
  Double.rank s.precedence

namespace Batch

/-! ### Sorting by a key -/

section Sorting

variable {α β : Type} {key : α → Int}

/-- Sorts a list by a key. -/
def sortBy (key : α → Int) (l : List α) : List α :=
  l.mergeSort fun a b => decide (key a ≤ key b)

/-- Comparing keys is transitive. -/
lemma decide_key_trans (key : α → Int) (a b c : α) :
    decide (key a ≤ key b) = true → decide (key b ≤ key c) = true →
      decide (key a ≤ key c) = true := by
  simp only [decide_eq_true_eq]
  exact Int.le_trans

/-- Two keys can be compared. -/
lemma decide_key_total (key : α → Int) (a b : α) :
    (decide (key a ≤ key b) || decide (key b ≤ key a)) = true := by
  simp only [Bool.or_eq_true, decide_eq_true_eq]
  exact Int.le_total _ _

/-- The keys of the list do not decrease. -/
def IsSortedBy (key : α → Int) (l : List α) : Prop :=
  l.Pairwise fun a b => key a ≤ key b

/-- Sorting by a key gives a sorted list. -/
lemma isSortedBy_sortBy (key : α → Int) (l : List α) : IsSortedBy key (sortBy key l) :=
  (List.pairwise_mergeSort (decide_key_trans key) (decide_key_total key) l).imp fun h =>
    of_decide_eq_true h

/-- Sorting keeps every member as often as it was there. -/
lemma sortBy_perm (key : α → Int) (l : List α) : (sortBy key l).Perm l :=
  List.mergeSort_perm l _

/-- The elements of a key stay in the order in which they are. -/
lemma filter_key_sortBy (key : α → Int) (r : Int) (l : List α) :
    (sortBy key l).filter (fun a => key a = r) = l.filter (fun a => key a = r) := by
  have hequal : (l.filter fun a => key a = r).Pairwise
      fun a b => decide (key a ≤ key b) = true := by
    refine List.pairwise_filter.mpr (List.pairwise_of_forall ?_)
    intro a b ha hb
    simp only [decide_eq_true_eq] at *
    omega
  have hsublist : (l.filter fun a => key a = r).Sublist (sortBy key l) :=
    List.sublist_mergeSort (decide_key_trans key) (decide_key_total key) hequal
      List.filter_sublist
  have hfiltered := hsublist.filter fun a => decide (key a = r)
  rw [List.filter_filter] at hfiltered
  simp only [Bool.and_self] at hfiltered
  refine (hfiltered.eq_of_length ?_).symm
  exact ((sortBy_perm key l).filter _).length_eq.symm

/-- A sorted list starts with an element of each list that has the same elements of each key. -/
lemma key_le_of_filter_key {a b : α} {l l' : List α} (hb : IsSortedBy key (b :: l'))
    (h : ∀ r, (a :: l).filter (fun a => key a = r) = (b :: l').filter (fun a => key a = r)) :
    key b ≤ key a := by
  have hmem : a ∈ (b :: l').filter fun x => key x = key a := by
    rw [← h (key a)]
    simp
  rcases List.mem_cons.mp (List.mem_filter.mp hmem).1 with rfl | hrest
  · exact Int.le_refl _
  · exact List.rel_of_pairwise_cons hb hrest

/-- A sorted list is determined by its elements of each key. -/
theorem eq_of_filter_key {l l' : List α} (hl : IsSortedBy key l) (hl' : IsSortedBy key l')
    (h : ∀ r, l.filter (fun a => key a = r) = l'.filter (fun a => key a = r)) : l = l' := by
  induction l generalizing l' with
  | nil =>
    cases l' with
    | nil => rfl
    | cons b rest' => simpa using h (key b)
  | cons a rest ih =>
    cases l' with
    | nil => simpa using h (key a)
    | cons b rest' =>
      have hkey : key a = key b :=
        Int.le_antisymm (key_le_of_filter_key hl fun r => (h r).symm) (key_le_of_filter_key hl' h)
      have hhead := h (key a)
      rw [List.filter_cons_of_pos (by simp), List.filter_cons_of_pos (by simp [hkey])] at hhead
      obtain ⟨rfl, -⟩ := List.cons.inj hhead
      have hrest : rest = rest' := by
        refine ih hl.of_cons hl'.of_cons fun r => ?_
        have hr := h r
        by_cases har : key a = r
        · rw [List.filter_cons_of_pos (by simp [har]), List.filter_cons_of_pos (by simp [har])]
            at hr
          exact List.tail_eq_of_cons_eq hr
        · rwa [List.filter_cons_of_neg (by simp [har]), List.filter_cons_of_neg (by simp [har])]
            at hr
      rw [hrest]

/-- Lists with the same elements of each key are sorted to the same list. -/
lemma sortBy_congr {l l' : List α}
    (h : ∀ r, l.filter (fun a => key a = r) = l'.filter (fun a => key a = r)) :
    sortBy key l = sortBy key l' := by
  refine eq_of_filter_key (isSortedBy_sortBy key l) (isSortedBy_sortBy key l') fun r => ?_
  rw [filter_key_sortBy, filter_key_sortBy, h r]

/-- A part of a list is sorted as it is in the whole. -/
theorem filter_sortBy (key : α → Int) (p : α → Bool) (l : List α) :
    (sortBy key l).filter p = sortBy key (l.filter p) := by
  refine eq_of_filter_key ((isSortedBy_sortBy key l).filter p)
    (isSortedBy_sortBy key (l.filter p)) fun r => ?_
  calc ((sortBy key l).filter p).filter (fun a => key a = r)
      = ((sortBy key l).filter fun a => key a = r).filter p := List.filter_comm ..
    _ = (l.filter fun a => key a = r).filter p := by rw [filter_key_sortBy]
    _ = (l.filter p).filter fun a => key a = r := List.filter_comm ..
    _ = (sortBy key (l.filter p)).filter fun a => key a = r := (filter_key_sortBy ..).symm

/-- Sorting by the key of an image, and taking images after that, is sorting the images. -/
lemma map_sortBy (key : β → Int) (f : α → β) (l : List α) :
    (sortBy (fun a => key (f a)) l).map f = sortBy key (l.map f) :=
  List.map_mergeSort fun _ _ _ _ => rfl

/-- A sorted list is cut at a key. -/
lemma IsSortedBy.append_eq {l : List α} (h : IsSortedBy key l) (r : Int) :
    l.filter (fun a => key a < r) ++
      (l.filter (fun a => key a = r) ++ l.filter (fun a => r < key a)) = l := by
  induction l with
  | nil => rfl
  | cons a rest ih =>
    have hrest := ih h.of_cons
    have hle : ∀ b ∈ rest, key a ≤ key b := fun b hb => List.rel_of_pairwise_cons h hb
    have hbelow : r ≤ key a → rest.filter (fun b => key b < r) = [] := by
      intro hr
      refine List.filter_eq_nil_iff.mpr fun b hb => ?_
      simpa using Int.le_trans hr (hle b hb)
    rcases Int.lt_trichotomy (key a) r with hlt | rfl | hgt
    · have hne : ¬key a = r := by omega
      have hngt : ¬r < key a := by omega
      simpa [hlt, hne, hngt] using hrest
    · rw [hbelow (Int.le_refl _), List.nil_append] at hrest
      simp [hbelow, hrest]
    · have hequal : rest.filter (fun b => key b = r) = [] := by
        refine List.filter_eq_nil_iff.mpr fun b hb => ?_
        simpa using Int.ne_of_gt (Int.lt_of_lt_of_le hgt (hle b hb))
      have hnlt : ¬key a < r := by omega
      have hne : ¬key a = r := by omega
      rw [hbelow (Int.le_of_lt hgt), hequal, List.nil_append, List.nil_append] at hrest
      simp [hgt, hnlt, hne, hbelow (Int.le_of_lt hgt), hequal, hrest]

/-- Sorting puts the elements of a key, as they are, between those of smaller and greater keys. -/
lemma sortBy_eq_append (key : α → Int) (r : Int) (l : List α) :
    sortBy key l = sortBy key (l.filter fun a => key a < r) ++
      (l.filter (fun a => key a = r) ++ sortBy key (l.filter fun a => r < key a)) := by
  rw [← filter_sortBy, ← filter_sortBy, ← filter_key_sortBy key r l]
  exact ((isSortedBy_sortBy key l).append_eq r).symm

/-- Two elements change places in a list, and no element between them has a key from that of the one
to that of the other.  Then they change places in the sorted list, where they are next to each
other, or the sorted list stays as it is. -/
theorem sortBy_swap {a b : α} {before between after : List α}
    (h : ∀ c ∈ between, (key c < key a ∧ key c < key b) ∨ (key a < key c ∧ key b < key c)) :
    sortBy key (before ++ a :: (between ++ b :: after)) =
        sortBy key (before ++ b :: (between ++ a :: after)) ∨
      ∃ first last, sortBy key (before ++ a :: (between ++ b :: after)) = first ++ a :: b :: last ∧
        sortBy key (before ++ b :: (between ++ a :: after)) = first ++ b :: a :: last := by
  -- nothing between the two has the key of either
  have hnone : ∀ r, key a = r ∨ key b = r → between.filter (fun c => key c = r) = [] := by
    intro r hr
    refine List.filter_eq_nil_iff.mpr fun c hc => ?_
    have := h c hc
    simp only [decide_eq_true_eq]
    omega
  by_cases hkey : key a = key b
  · -- with equal keys the two stand next to each other, in the order in which they came
    right
    have hbetween := hnone (key a) (.inl rfl)
    refine ⟨sortBy key ((before ++ (between ++ after)).filter fun c => key c < key a) ++
        before.filter (fun c => key c = key a),
      after.filter (fun c => key c = key a) ++
        sortBy key ((before ++ (between ++ after)).filter fun c => key a < key c), ?_, ?_⟩
    · rw [sortBy_eq_append key (key a)]
      simp [hbetween, ← hkey]
    · rw [sortBy_eq_append key (key a)]
      simp [hbetween, ← hkey]
  · -- with different keys the members of each key are the same in both lists
    left
    refine sortBy_congr fun r => ?_
    by_cases har : key a = r
    · have hbr : ¬key b = r := fun hbr => hkey (har.trans hbr.symm)
      simp [har, hbr, hnone r (.inl har)]
    · by_cases hbr : key b = r
      · simp [har, hbr, hnone r (.inr hbr)]
      · simp [har, hbr]

end Sorting

/-! ### Batches -/

/-- The statements in the order of execution. -/
def inOrder (statements : List Statement) : List Statement :=
  (ordered statements).map Prod.fst

/-- Statements are ordered by rank, with their places beside them. -/
lemma ordered_eq_sortBy (statements : List Statement) :
    ordered statements = sortBy (fun entry => entry.1.rank) statements.zipIdx := rfl

/-- Without the places, statements are sorted by rank. -/
lemma inOrder_eq_sortBy (statements : List Statement) :
    inOrder statements = sortBy Statement.rank statements := by
  rw [inOrder, ordered_eq_sortBy, map_sortBy, List.zipIdx_map_fst]

/-- No statement is lost and none is added. -/
@[simp] lemma length_ordered (statements : List Statement) :
    (ordered statements).length = statements.length := by
  rw [ordered_eq_sortBy, (sortBy_perm _ _).length_eq, List.length_zipIdx]

/-- Every statement is executed once. -/
lemma nodup_order (statements : List Statement) : (order statements).Nodup := by
  have hperm : (order statements).Perm (List.range' 0 statements.length) := by
    have hsnd := (sortBy_perm (fun entry => entry.1.rank) statements.zipIdx).map Prod.snd
    rwa [List.zipIdx_map_snd] at hsnd
  exact hperm.nodup_iff.mpr (List.nodup_range' ..)

/-- The statements that are run are the statements of the document. -/
lemma mem_inOrder {statements : List Statement} {s : Statement} :
    s ∈ inOrder statements ↔ s ∈ statements := by
  rw [inOrder_eq_sortBy]
  exact (sortBy_perm _ _).mem_iff

/-- The statements of a list whose indices pass a test. -/
def keep (p : Nat → Bool) (statements : List Statement) : List Statement :=
  (statements.zipIdx.filter fun entry => p entry.2).map Prod.fst

/-- Taking statements away keeps the order of the others. -/
theorem inOrder_keep (p : Nat → Bool) (statements : List Statement) :
    inOrder (keep p statements) =
      ((ordered statements).filter fun entry => p entry.2).map Prod.fst := by
  rw [inOrder_eq_sortBy, ordered_eq_sortBy, filter_sortBy, map_sortBy, keep]

/-- The statements of the list are executed before both of two others or after both of them. -/
def NoneBetween (s t : Statement) (statements : List Statement) : Prop :=
  ∀ u ∈ statements, (u.rank < s.rank ∧ u.rank < t.rank) ∨ (s.rank < u.rank ∧ t.rank < u.rank)

instance (s t : Statement) (statements : List Statement) : Decidable (NoneBetween s t statements) :=
  inferInstanceAs (Decidable (∀ u ∈ statements, _))

/-- Two statements of a list change places, and none between them has a precedence from that of the
one to that of the other.  Then the order of execution stays as it is, or they are executed one
after the other and change places. -/
theorem inOrder_swap {s t : Statement} {between : List Statement} (h : NoneBetween s t between)
    (before after : List Statement) :
    inOrder (before ++ s :: (between ++ t :: after)) =
        inOrder (before ++ t :: (between ++ s :: after)) ∨
      ∃ first last, inOrder (before ++ s :: (between ++ t :: after)) = first ++ s :: t :: last ∧
        inOrder (before ++ t :: (between ++ s :: after)) = first ++ t :: s :: last := by
  rw [inOrder_eq_sortBy, inOrder_eq_sortBy]
  exact sortBy_swap h

end Batch

end SheetRules
