import SheetRules.Json.Reader
import SheetRules.Proofs.Chains

/-!
# The walk over lists and objects

Every list and object is read by the same walk, which keeps whatever state its items or members
make.  Two walks over one text therefore stay side by side as long as their states are related
(`foldMembers_simulates`, `foldItems_simulates`), and so a record that is read field by field can be
compared with the value that stands in the text.
-/

namespace SheetRules

namespace Json

/-! ### Steps of a walk -/

section Walks

variable {ε ε' σ τ : Type} {fault : Fault → ε} {fault' : Fault → ε'} {fuel : Nat} {first : Bool}
  {s s' : σ} {input rest : List Char}

/-- Where the next member of an object begins: at once if it is the first one, and after a comma if
not. -/
def MemberAt (first : Bool) (input next : List Char) : Prop :=
  (first = true ∧ next = skipBlanks input ∧ ∃ c r, next = c :: r ∧ c ≠ '\x7d') ∨
    (first = false ∧ ∃ r, skipBlanks input = ',' :: r ∧ next = skipBlanks r)

/-- Where the next item of a list begins. No bracket stands there. -/
def ItemAt (first : Bool) (input next : List Char) : Prop :=
  (∃ c r, next = c :: r ∧ c ≠ ']') ∧
    ((first = true ∧ next = skipBlanks input) ∨
      (first = false ∧ ∃ r, skipBlanks input = ',' :: r ∧ next = skipBlanks r))

/-- A reading step that may fail for other reasons succeeds as before. -/
lemma orFault_eq_ok_iff {α : Type} {step : Read α} {a : α} :
    Read.orFault fault step input = .ok (a, rest) ↔ step input = .ok (a, rest) :=
  mapError_eq_ok_iff

/-- A walk over members ends at the bracket, or it reads a name, takes a step there and goes on. -/
lemma foldMembers_succ_eq_ok_iff {member : σ → String → ReadOr ε σ} :
    foldMembers fault member (fuel + 1) first s input = .ok (s', rest) ↔
      (s' = s ∧ skipBlanks input = '\x7d' :: rest) ∨
      ∃ next name after s₁ rest₁, MemberAt first input next ∧ readName next = .ok (name, after) ∧
        member s name after = .ok (s₁, rest₁) ∧
        foldMembers fault member fuel false s₁ rest₁ = .ok (s', rest) := by
  rw [foldMembers]
  cases hblanks : skipBlanks input with
  | nil => simp [MemberAt, hblanks]
  | cons c r =>
    by_cases hend : c = '\x7d'
    · subst hend
      cases first <;> simp [MemberAt, hblanks, eq_comm]
    · simp only [hend, if_false]
      cases first with
      | true =>
        simp only [Bool.not_true, Bool.and_false, Bool.false_eq_true, if_false, if_true,
          bind_eq_ok_iff, Prod.exists, orFault_eq_ok_iff]
        simp [MemberAt, hblanks, hend]
      | false =>
        by_cases hcomma : c = ','
        · simp only [hcomma, decide_true, Bool.not_false, Bool.and_self, if_true,
            bind_eq_ok_iff, Prod.exists, orFault_eq_ok_iff]
          simp [MemberAt, hblanks, hcomma]
        · simp [MemberAt, hblanks, hend, hcomma]

/-- A walk over items ends at the bracket, or it takes a step and goes on. -/
lemma foldItems_succ_eq_ok_iff {item : σ → ReadOr ε σ} :
    foldItems fault item (fuel + 1) first s input = .ok (s', rest) ↔
      (s' = s ∧ skipBlanks input = ']' :: rest) ∨
      ∃ next s₁ rest₁, ItemAt first input next ∧ item s next = .ok (s₁, rest₁) ∧
        foldItems fault item fuel false s₁ rest₁ = .ok (s', rest) := by
  rw [foldItems]
  cases hblanks : skipBlanks input with
  | nil => simp [ItemAt, hblanks]
  | cons c r =>
    by_cases hend : c = ']'
    · subst hend
      cases first <;> simp [ItemAt, hblanks, eq_comm]
    · simp only [hend, if_false]
      cases first with
      | true =>
        simp only [Bool.not_true, Bool.and_false, Bool.false_eq_true, if_false, if_true,
          bind_eq_ok_iff, Prod.exists]
        simp [ItemAt, hblanks, hend]
      | false =>
        by_cases hcomma : c = ','
        · simp only [hcomma, decide_true, Bool.not_false, Bool.and_self, if_true]
          cases hnext : skipBlanks r with
          | nil => simp [ItemAt, hblanks, hcomma, hnext]
          | cons d r' =>
            by_cases hclose : d = ']'
            · simp [ItemAt, hblanks, hcomma, hnext, hclose]
            · simp [ItemAt, hblanks, hcomma, hnext, hclose, bind_eq_ok_iff]
        · simp [ItemAt, hblanks, hend, hcomma]

/-! ### Two walks -/

/-- What held after a walk over members held before it, if every step takes it back. -/
lemma good_of_foldMembers {member : σ → String → ReadOr ε σ} (Good : σ → Prop)
    (hback : ∀ ⦃s name input s' rest⦄, member s name input = .ok (s', rest) → Good s' → Good s)
    (h : foldMembers fault member fuel first s input = .ok (s', rest)) (hgood : Good s') :
    Good s := by
  induction fuel generalizing first s input with
  | zero => cases h
  | succ fuel ih =>
    obtain ⟨rfl, -⟩ | ⟨_, _, _, _, _, -, -, hmember, hrest⟩ := foldMembers_succ_eq_ok_iff.mp h
    · exact hgood
    · exact hback hmember (ih hrest)

/-- What held after a walk over items held before it, if every step takes it back. -/
lemma good_of_foldItems {item : σ → ReadOr ε σ} (Good : σ → Prop)
    (hback : ∀ ⦃s input s' rest⦄, item s input = .ok (s', rest) → Good s' → Good s)
    (h : foldItems fault item fuel first s input = .ok (s', rest)) (hgood : Good s') :
    Good s := by
  induction fuel generalizing first s input with
  | zero => cases h
  | succ fuel ih =>
    obtain ⟨rfl, -⟩ | ⟨_, _, _, -, hitem, hrest⟩ := foldItems_succ_eq_ok_iff.mp h
    · exact hgood
    · exact hback hitem (ih hrest)

/-- Two walks over one object stay side by side: the second one follows the first as long as the
states of the first one are good. -/
lemma foldMembers_simulates {member : σ → String → ReadOr ε σ} {member' : τ → String → ReadOr ε' τ}
    (Good : σ → Prop) (Related : σ → τ → Prop)
    (hback : ∀ ⦃s name input s' rest⦄, member s name input = .ok (s', rest) → Good s' → Good s)
    (hstep : ∀ ⦃s t name input s' rest⦄, Related s t → member s name input = .ok (s', rest) →
      Good s' → ∃ t', member' t name input = .ok (t', rest) ∧ Related s' t')
    {t : τ} (hrelated : Related s t)
    (h : foldMembers fault member fuel first s input = .ok (s', rest)) (hgood : Good s') :
    ∃ t', foldMembers fault' member' fuel first t input = .ok (t', rest) ∧ Related s' t' := by
  induction fuel generalizing first s t input with
  | zero => cases h
  | succ fuel ih =>
    obtain ⟨rfl, hend⟩ | ⟨next, name, after, s₁, rest₁, hnext, hname, hmember, hrest⟩ :=
      foldMembers_succ_eq_ok_iff.mp h
    · exact ⟨t, foldMembers_succ_eq_ok_iff.mpr (.inl ⟨rfl, hend⟩), hrelated⟩
    · obtain ⟨t₁, hmember', hrelated₁⟩ :=
        hstep hrelated hmember (good_of_foldMembers Good hback hrest hgood)
      obtain ⟨t', hrest', hrelated'⟩ := ih hrelated₁ hrest
      exact ⟨t', foldMembers_succ_eq_ok_iff.mpr
        (.inr ⟨next, name, after, t₁, rest₁, hnext, hname, hmember', hrest'⟩), hrelated'⟩

/-- Two walks over one list stay side by side, in the same way. -/
lemma foldItems_simulates {item : σ → ReadOr ε σ} {item' : τ → ReadOr ε' τ}
    (Good : σ → Prop) (Related : σ → τ → Prop)
    (hback : ∀ ⦃s input s' rest⦄, item s input = .ok (s', rest) → Good s' → Good s)
    (hstep : ∀ ⦃s t input s' rest⦄, Related s t → item s input = .ok (s', rest) →
      Good s' → ∃ t', item' t input = .ok (t', rest) ∧ Related s' t')
    {t : τ} (hrelated : Related s t)
    (h : foldItems fault item fuel first s input = .ok (s', rest)) (hgood : Good s') :
    ∃ t', foldItems fault' item' fuel first t input = .ok (t', rest) ∧ Related s' t' := by
  induction fuel generalizing first s t input with
  | zero => cases h
  | succ fuel ih =>
    obtain ⟨rfl, hend⟩ | ⟨next, s₁, rest₁, hnext, hitem, hrest⟩ := foldItems_succ_eq_ok_iff.mp h
    · exact ⟨t, foldItems_succ_eq_ok_iff.mpr (.inl ⟨rfl, hend⟩), hrelated⟩
    · have hgood₁ := good_of_foldItems Good hback hrest hgood
      obtain ⟨t₁, hitem', hrelated₁⟩ := hstep hrelated hitem hgood₁
      obtain ⟨t', hrest', hrelated'⟩ := ih hrelated₁ hrest
      exact ⟨t', foldItems_succ_eq_ok_iff.mpr
        (.inr ⟨next, t₁, rest₁, hnext, hitem', hrest'⟩), hrelated'⟩

end Walks

/-! ### Values -/

section Values

variable {part : Option (Read Written)} {item : Read Written} {input rest : List Char}

/-- The next item is put in front of those read before. -/
lemma collectItem_eq_ok_iff {items items' : List Written} :
    collectItem item items input = .ok (items', rest) ↔
      ∃ v, item input = .ok (v, rest) ∧ items' = v :: items := by
  simp only [collectItem, bind_eq_ok_iff, Prod.exists, Except.ok.injEq, Prod.mk.injEq]
  grind

/-- The next member is put in front of those read before. -/
lemma collectMember_eq_ok_iff {members members' : List (String × Written)} {name : String} :
    collectMember item members name input = .ok (members', rest) ↔
      ∃ after v, readColon input = .ok after ∧ item after = .ok (v, rest) ∧
        members' = (name, v) :: members := by
  simp only [collectMember, bind_eq_ok_iff, Prod.exists, Except.ok.injEq, Prod.mk.injEq]
  grind

/-- The items of a list are collected from the last one to the first. -/
lemma readItems_eq_ok_iff {items : List Written} :
    readItems item input = .ok (items, rest) ↔
      foldItems id (collectItem item) (input.length + 1) true [] input =
        .ok (items.reverse, rest) := by
  simp only [readItems, bind_eq_ok_iff, Prod.exists, Except.ok.injEq, Prod.mk.injEq]
  constructor
  · rintro ⟨collected, _, h, rfl, rfl⟩
    rwa [List.reverse_reverse]
  · intro h
    exact ⟨_, _, h, List.reverse_reverse _, rfl⟩

/-- The members of an object are collected from the last one to the first. -/
lemma readMembers_eq_ok_iff {members : List (String × Written)} :
    readMembers item input = .ok (members, rest) ↔
      foldMembers id (collectMember item) (input.length + 1) true [] input =
        .ok (members.reverse, rest) := by
  simp only [readMembers, bind_eq_ok_iff, Prod.exists, Except.ok.injEq, Prod.mk.injEq]
  constructor
  · rintro ⟨collected, _, h, rfl, rfl⟩
    rwa [List.reverse_reverse]
  · intro h
    exact ⟨_, _, h, List.reverse_reverse _, rfl⟩

/-- What stands at the start of a text that is read as the given value. -/
def StartsAs (part : Option (Read Written)) (input rest : List Char) : Written → Prop
  | .null => ∃ r, skipBlanks input = 'n' :: r ∧ readWord ['u', 'l', 'l'] r = .ok rest
  | .bool _ => True
  | .number n => readWith none input = .ok (.number n, rest)
  | .text s => ∃ r, skipBlanks input = '"' :: r ∧ readText r = .ok (s, rest)
  | .list items => ∃ p r, part = some p ∧ skipBlanks input = '[' :: r ∧
      readItems p r = .ok (items, rest)
  | .object members => ∃ p r, part = some p ∧ skipBlanks input = '\x7b' :: r ∧
      readMembers p r = .ok (members, rest)

/-- The first character of a value decides how it is read. -/
lemma startsAs_of_readWith {v : Written} (h : readWith part input = .ok (v, rest)) :
    StartsAs part input rest v := by
  rw [readWith] at h
  split at h
  · cases h
  · next r hblanks =>
    obtain ⟨_, hword, h⟩ := bind_eq_ok_iff.mp h
    cases h
    exact ⟨r, hblanks, hword⟩
  · obtain ⟨_, -, h⟩ := bind_eq_ok_iff.mp h
    cases h
    trivial
  · obtain ⟨_, -, h⟩ := bind_eq_ok_iff.mp h
    cases h
    trivial
  · next r hblanks =>
    obtain ⟨_, htext, h⟩ := bind_eq_ok_iff.mp h
    cases h
    exact ⟨r, hblanks, htext⟩
  · next r hblanks =>
    obtain ⟨_, hnumber, hv⟩ := bind_eq_ok_iff.mp h
    cases hv
    rw [StartsAs, readWith, hblanks]
    exact h
  · next c r hn ht hf hquote hminus hblanks =>
    split at h
    · next hdigit =>
      obtain ⟨_, hnumber, hv⟩ := bind_eq_ok_iff.mp h
      cases hv
      rw [StartsAs, readWith, hblanks]
      simp only [hdigit, if_true]
      exact h
    · cases part with
      | none => cases h
      | some p =>
        simp only at h
        split at h
        · next hbracket =>
          obtain ⟨_, hitems, h⟩ := bind_eq_ok_iff.mp h
          cases h
          exact ⟨p, r, rfl, hbracket ▸ hblanks, hitems⟩
        · split at h
          · next hbracket =>
            obtain ⟨_, hmembers, h⟩ := bind_eq_ok_iff.mp h
            cases h
            exact ⟨p, r, rfl, hbracket ▸ hblanks, hmembers⟩
          · cases h

/-- A number is read in the same way whether lists and objects can be read or not. -/
lemma readWith_number {n : Number} (h : readWith none input = .ok (.number n, rest)) :
    readWith part input = .ok (.number n, rest) := by
  rw [readWith] at h ⊢
  split at h
  · cases h
  · obtain ⟨_, -, h⟩ := bind_eq_ok_iff.mp h
    cases h
  · obtain ⟨_, -, h⟩ := bind_eq_ok_iff.mp h
    cases h
  · obtain ⟨_, -, h⟩ := bind_eq_ok_iff.mp h
    cases h
  · obtain ⟨_, -, h⟩ := bind_eq_ok_iff.mp h
    cases h
  · exact h
  · split at h
    · next hdigit =>
      simp only [hdigit, if_true]
      exact h
    · cases h

/-- Except for truth values, a value is read exactly where a text starts in this way. -/
lemma readWith_eq_ok_iff {v : Written} (hv : ∀ b, v ≠ .bool b) :
    readWith part input = .ok (v, rest) ↔ StartsAs part input rest v := by
  refine ⟨startsAs_of_readWith, fun h => ?_⟩
  cases v with
  | null =>
    obtain ⟨r, hblanks, hword⟩ := h
    simp only [readWith, hblanks, hword]
    rfl
  | bool b => exact absurd rfl (hv b)
  | number n => exact readWith_number h
  | text s =>
    obtain ⟨r, hblanks, htext⟩ := h
    simp only [readWith, hblanks, htext]
    rfl
  | list items =>
    obtain ⟨p, r, rfl, hblanks, hitems⟩ := h
    have hread : readWith (some p) input =
        readItems p r >>= fun read => .ok (.list read.1, read.2) := by
      rw [readWith, hblanks]
      rfl
    rw [hread, hitems]
    rfl
  | object members =>
    obtain ⟨p, r, rfl, hblanks, hmembers⟩ := h
    have hread : readWith (some p) input =
        readMembers p r >>= fun read => .ok (.object read.1, read.2) := by
      rw [readWith, hblanks]
      rfl
    rw [hread, hmembers]
    rfl

/-- A value of any nesting is read by its first character. -/
lemma readNested_eq_readWith (levels : Nat) : ∃ part, readNested levels = readWith part := by
  cases levels with
  | zero => exact ⟨_, rfl⟩
  | succ levels => exact ⟨_, rfl⟩

/-- Members that were collected before are still there. -/
lemma suffix_of_foldMembers {fuel : Nat} {first : Bool} {members members' : List (String × Written)}
    (h : foldMembers id (collectMember item) fuel first members input = .ok (members', rest)) :
    members <:+ members' := by
  have hback ⦃s : List (String × Written)⦄ ⦃name : String⦄ ⦃input : List Char⦄
      ⦃s' : List (String × Written)⦄ ⦃rest : List Char⦄
      (hstep : collectMember item s name input = .ok (s', rest)) (hsuffix : s' <:+ members') :
      s <:+ members' := by
    obtain ⟨after, v, -, -, rfl⟩ := collectMember_eq_ok_iff.mp hstep
    exact (List.suffix_cons ..).trans hsuffix
  exact good_of_foldMembers (· <:+ members') hback h (List.suffix_refl _)

/-- An object has one member if its bracket follows the value of that member. -/
lemma readMembers_singleton_iff {name : String} {v : Written} :
    readMembers item input = .ok ([(name, v)], rest) ↔
      ∃ after value after', readName (skipBlanks input) = .ok (name, after) ∧
        readColon after = .ok value ∧ item value = .ok (v, after') ∧
        skipBlanks after' = '\x7d' :: rest := by
  rw [readMembers_eq_ok_iff, List.reverse_singleton]
  constructor
  · intro h
    obtain ⟨hnil, -⟩ | ⟨_, name₁, after, members₁, after', hnext, hname, hmember, hrest⟩ :=
      foldMembers_succ_eq_ok_iff.mp h
    · cases hnil
    · obtain ⟨value, v₁, hcolon, hitem, rfl⟩ := collectMember_eq_ok_iff.mp hmember
      have hlast := (suffix_of_foldMembers hrest).eq_of_length rfl
      cases hlast
      obtain ⟨-, rfl, -⟩ | ⟨hfirst, -⟩ := hnext
      · refine ⟨after, value, after', hname, hcolon, hitem, ?_⟩
        cases hlength : input.length with
        | zero =>
          rw [hlength] at hrest
          cases hrest
        | succ fuel =>
          rw [hlength] at hrest
          obtain ⟨-, hend⟩ | ⟨_, name₂, _, members₂, _, -, -, hmember₂, hrest₂⟩ :=
            foldMembers_succ_eq_ok_iff.mp hrest
          · exact hend
          · -- A second member would be collected as well.
            obtain ⟨_, v₂, -, -, rfl⟩ := collectMember_eq_ok_iff.mp hmember₂
            have hlength := (suffix_of_foldMembers hrest₂).length_le
            simp at hlength
      · cases hfirst
  · rintro ⟨after, value, after', hname, hcolon, hitem, hend⟩
    have hquote : ∃ c r, skipBlanks input = c :: r ∧ c ≠ '\x7d' := by
      cases hblanks : skipBlanks input with
      | nil =>
        rw [hblanks] at hname
        cases hname
      | cons c r =>
        refine ⟨c, r, rfl, ?_⟩
        rintro rfl
        rw [hblanks] at hname
        cases hname
    obtain ⟨fuel, hfuel⟩ : ∃ fuel, input.length = fuel + 1 := by
      refine Nat.exists_eq_succ_of_ne_zero fun hzero => ?_
      rw [List.length_eq_zero_iff.mp hzero] at hquote
      obtain ⟨_, _, hnil, -⟩ := hquote
      cases hnil
    have hmember : collectMember item [] name after = .ok ([(name, v)], after') :=
      collectMember_eq_ok_iff.mpr ⟨value, v, hcolon, hitem, rfl⟩
    refine foldMembers_succ_eq_ok_iff.mpr (.inr ⟨skipBlanks input, name, after, _, after',
      .inl ⟨rfl, rfl, hquote⟩, hname, hmember, ?_⟩)
    rw [hfuel]
    exact foldMembers_succ_eq_ok_iff.mpr (.inl ⟨rfl, hend⟩)

end Values

end Json

end SheetRules
