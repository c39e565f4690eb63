import SheetRules.Proofs.Batch.Order
import SheetRules.Proofs.Number.TotalOrder

/-!
# The one stable order

The order of execution is the only order of the indices in which precedences do not fall and indices
of the same precedence rise.  That it is the only one says at once what happens when a statement is
put into the list: the others, under their new indices, still stand in such an order, so they are
executed in the order in which they were.
-/

namespace SheetRules

namespace Batch

/-- The statement at the first index has a precedence that comes before that of the second one, or
it has the same precedence and the smaller index. -/
def Precedes (statements : List Statement) (i j : Nat) : Prop :=
  ∃ s t, statements[i]? = some s ∧ statements[j]? = some t ∧
    (Double.TotalLT s.precedence t.precedence ∨ s.precedence = t.precedence ∧ i < j)

/-- All indices of the list, each before those that it precedes. -/
structure IsStableOrder (statements : List Statement) (indices : List Nat) : Prop where
  perm : indices.Perm (List.range statements.length)
  pairwise : indices.Pairwise (Precedes statements)

variable {statements : List Statement}

/-- One statement precedes another by its rank, or by its place if the ranks are equal. -/
lemma precedes_iff {i j : Nat} : Precedes statements i j ↔
    ∃ s t, statements[i]? = some s ∧ statements[j]? = some t ∧
      (s.rank < t.rank ∨ s.rank = t.rank ∧ i < j) := by
  have hrank : ∀ s t : Statement, s.rank = t.rank ↔ s.precedence = t.precedence := by
    intro s t
    exact ⟨Double.eq_of_rank_eq, congrArg Double.rank⟩
  unfold Precedes
  simp only [hrank, ← Double.rank_lt_iff]
  rfl

/-- Two statements do not precede one another. -/
lemma Precedes.asymm {i j : Nat} (h : Precedes statements i j) : ¬Precedes statements j i := by
  rw [precedes_iff] at h ⊢
  rintro ⟨t, s, ht, hs, hlt⟩
  obtain ⟨s', t', hs', ht', hlt'⟩ := h
  obtain rfl : s = s' := Option.some.inj (hs.symm.trans hs')
  obtain rfl : t = t' := Option.some.inj (ht.symm.trans ht')
  omega

/-! ### There is one -/

/-- Where keys do not fall and a relation holds among the elements of each key, elements are ordered
by their key first and then by the relation. -/
lemma IsSortedBy.pairwise {α : Type} {key : α → Int} {R : α → α → Prop} {l : List α}
    (h : IsSortedBy key l) (hR : ∀ r, (l.filter fun a => key a = r).Pairwise R) :
    l.Pairwise fun a b => key a < key b ∨ key a = key b ∧ R a b := by
  induction l with
  | nil => exact .nil
  | cons a rest ih =>
    refine .cons (fun b hb => ?_) (ih h.of_cons fun r => ?_)
    · have hle : key a ≤ key b := List.rel_of_pairwise_cons h hb
      rcases Int.lt_or_eq_of_le hle with hlt | heq
      · exact .inl hlt
      · have hkey := hR (key a)
        rw [List.filter_cons_of_pos (by simp)] at hkey
        exact .inr ⟨heq, List.rel_of_pairwise_cons hkey (List.mem_filter.mpr ⟨hb, by simp [heq]⟩)⟩
    · exact (hR r).sublist ((List.sublist_cons_self a rest).filter _)

/-- The places of a list are in order. -/
lemma pairwise_zipIdx (statements : List Statement) :
    statements.zipIdx.Pairwise fun a b => a.2 < b.2 := by
  rw [← List.pairwise_map (f := Prod.snd) (R := (· < ·)), List.zipIdx_map_snd]
  exact List.pairwise_lt_range'

/-- Every place is in the order once. -/
lemma order_perm (statements : List Statement) :
    (order statements).Perm (List.range statements.length) := by
  have hperm := (sortBy_perm (fun entry => entry.1.rank) statements.zipIdx).map Prod.snd
  rwa [List.zipIdx_map_snd, ← List.range_eq_range'] at hperm

/-- The order in which statements are run is stable. -/
lemma isStableOrder_order (statements : List Statement) :
    IsStableOrder statements (order statements) := by
  refine ⟨order_perm statements, List.pairwise_map.mpr ?_⟩
  have hsorted := (isSortedBy_sortBy (fun entry => entry.1.rank) statements.zipIdx).pairwise
    (R := fun a b => a.2 < b.2) fun r => by
      rw [filter_key_sortBy]
      exact (pairwise_zipIdx statements).filter _
  refine hsorted.imp_of_mem fun {a b} ha hb hlt => ?_
  have hmem : ∀ entry ∈ ordered statements, statements[entry.2]? = some entry.1 :=
    fun entry hentry => List.mem_zipIdx_iff_getElem?.mp ((sortBy_perm _ _).mem_iff.mp hentry)
  exact precedes_iff.mpr ⟨a.1, b.1, hmem a ha, hmem b hb, hlt⟩

/-! ### There is no other -/

/-- There is one stable order only. -/
lemma IsStableOrder.eq {indices indices' : List Nat} (h : IsStableOrder statements indices)
    (h' : IsStableOrder statements indices') : indices = indices' :=
  (h.perm.trans h'.perm.symm).eq_of_pairwise (fun _ _ _ _ hij hji => absurd hji hij.asymm)
    h.pairwise h'.pairwise

/-! ### One statement more -/

/-- The index of a statement in the list without the one at index `k`. -/
def indexWithout (k i : Nat) : Option Nat :=
  if i < k then some i else if i = k then none else some (i - 1)

/-- The other places, counted without one of them, are all places of the shorter list. -/
lemma filterMap_indexWithout (k n : Nat) :
    (List.range n).filterMap (indexWithout k) = List.range (if k < n then n - 1 else n) := by
  induction n with
  | zero => rfl
  | succ n ih =>
    rw [List.range_succ, List.filterMap_append, ih]
    rcases Nat.lt_trichotomy n k with hlt | rfl | hgt
    · rw [if_neg (by omega), if_neg (by omega)]
      simp [indexWithout, hlt, List.range_succ]
    · simp [indexWithout]
    · obtain ⟨m, rfl⟩ : ∃ m, n = m + 1 := Nat.exists_eq_succ_of_ne_zero (by omega)
      rw [if_pos hgt, if_pos (by omega)]
      simp [indexWithout, Nat.not_lt_of_gt hgt, Nat.ne_of_gt hgt, List.range_succ]

/-- A statement that is put in between leaves the others at the places that are counted without it.
-/
lemma getElem?_indexWithout {k i i' : Nat} (s : Statement) (h : indexWithout k i = some i') :
    (statements.insertIdx k s)[i]? = statements[i']? := by
  rw [List.getElem?_insertIdx]
  unfold indexWithout at h
  split at h
  · rw [if_pos (by assumption)]
    cases h
    rfl
  split at h
  · cases h
  · rw [if_neg (by assumption), if_neg (by assumption)]
    cases h
    rfl

/-- Counting without a place keeps the order of the others. -/
lemma indexWithout_lt {k i j i' j' : Nat} (hi : indexWithout k i = some i')
    (hj : indexWithout k j = some j') (hlt : i < j) : i' < j' := by
  unfold indexWithout at hi hj
  grind

/-- What precedes in the longer list precedes in the shorter one. -/
lemma Precedes.without {k i j i' j' : Nat} {s : Statement}
    (h : Precedes (statements.insertIdx k s) i j) (hi : indexWithout k i = some i')
    (hj : indexWithout k j = some j') : Precedes statements i' j' := by
  obtain ⟨t, u, ht, hu, hlt⟩ := h
  rw [getElem?_indexWithout s hi] at ht
  rw [getElem?_indexWithout s hj] at hu
  refine ⟨t, u, ht, hu, hlt.imp_right fun ⟨heq, hlt⟩ => ⟨heq, indexWithout_lt hi hj hlt⟩⟩

/-- The others are in a stable order when a statement is put between them. -/
lemma IsStableOrder.without {k : Nat} {s : Statement} {indices : List Nat}
    (h : IsStableOrder (statements.insertIdx k s) indices) :
    IsStableOrder statements (indices.filterMap (indexWithout k)) := by
  constructor
  · have hperm := h.perm.filterMap (indexWithout k)
    rw [filterMap_indexWithout, List.length_insertIdx] at hperm
    convert hperm using 2
    split <;> split <;> omega
  · refine List.pairwise_filterMap.mpr (h.pairwise.imp ?_)
    intro i j hij i' hi j' hj
    exact hij.without hi hj

/-- **The order of execution is the only stable one.**  The indices in the order of execution are
all indices of the list, ordered by precedence and those of the same precedence by index, and no
other list of indices is.  Wherever a statement is put into the list, the others keep their order.

Precedences that are no number are all the same one, whatever the sign and the payload of their bit
patterns; neither a document nor a rule can have such a precedence. -/
theorem order_unique (statements : List Statement) :
    (∀ indices, IsStableOrder statements indices ↔ indices = order statements) ∧
      ∀ k s, (order (statements.insertIdx k s)).filterMap (indexWithout k) = order statements := by
  refine ⟨fun indices => ⟨fun h => h.eq (isStableOrder_order statements), ?_⟩, fun k s => ?_⟩
  · rintro rfl
    exact isStableOrder_order statements
  · exact (isStableOrder_order (statements.insertIdx k s)).without.eq
      (isStableOrder_order statements)

end Batch

end SheetRules
