import Mathlib.Data.List.Nodup
import SheetRules.Batch.Options
import SheetRules.Proofs.Json.Reading

/-!
# What a config says

The text of run options is a JSON value with a meaning (`Means`): an object in which each of the
fields `policy` and `max_depth` stands at most once and nothing else stands, or a list of the two
values.  Options are read field by field, while the text is walked through; the walk is the one that
reads the value itself, so both come to the same end (`load_eq_ok_iff`).
-/

namespace SheetRules

namespace Options

open Json (Written)

/-! ### Meaning -/

/-- A value that stands for a policy: its name, or an object in which the name has the value
null. -/
inductive NamesPolicy : Written → Policy → Prop
  | failFast : NamesPolicy (.text "fail_fast") .failFast
  | carryOn : NamesPolicy (.text "continue") .carryOn
  | failFastMember : NamesPolicy (.object [("fail_fast", .null)]) .failFast
  | carryOnMember : NamesPolicy (.object [("continue", .null)]) .carryOn

/-- A value that stands for a depth: an integer that is not negative. -/
inductive NamesDepth : Written → Nat → Prop
  | integer (n : Nat) : NamesDepth (.number (.int n)) n

/-- What the field of a name says, if it is there. -/
def Says {α : Type} (Names : Written → α → Prop) (members : List (String × Written))
    (name : String) : Option α → Prop
  | some a => ∃ v, (name, v) ∈ members ∧ Names v a
  | none => ∀ v, (name, v) ∉ members

/-- The options that a value stands for. -/
inductive Means : Written → Options → Prop
  | fields {members : List (String × Written)} {policy : Option Policy} {depth : Option Nat}
      (hknown : ∀ member ∈ members, member.1 = "policy" ∨ member.1 = "max_depth")
      (honce : (members.map Prod.fst).Nodup)
      (hpolicy : Says NamesPolicy members "policy" policy)
      (hdepth : Says NamesDepth members "max_depth" depth) :
      Means (.object members) ⟨policy.getD .failFast, depth.getD 60⟩
  | nothing : Means (.list []) ⟨.failFast, 60⟩
  | policy {v : Written} {p : Policy} (hv : NamesPolicy v p) : Means (.list [v]) ⟨p, 60⟩
  | both {v w : Written} {p : Policy} {n : Nat} (hv : NamesPolicy v p) (hw : NamesDepth w n) :
      Means (.list [v, w]) ⟨p, n⟩

/-! ### Policies and depths -/

section Parts

variable {text input rest : List Char}

/-- The name of a policy is a text. -/
lemma readPolicyName_eq_ok_iff {p : Policy} :
    readPolicyName text input = .ok (p, rest) ↔
      Json.readText input = .ok (policyName p, rest) := by
  rw [readPolicyName]
  cases hread : Json.readText input with
  | error fault => exact ⟨nofun, nofun⟩
  | ok read =>
    obtain ⟨name, after⟩ := read
    simp only [Except.mapError, bind, Except.bind, Except.ok.injEq, Prod.mk.injEq]
    by_cases hfailFast : name = policyName .failFast
    · cases p <;> simp [hfailFast, policyName]
    · by_cases hcarryOn : name = policyName .carryOn
      · cases p <;> simp [hcarryOn, policyName]
      · cases p <;> simp [hfailFast, hcarryOn]

/-- A null is read where the value is null. -/
lemma readNull_eq_ok_iff (levels : Nat) :
    readNull input = .ok rest ↔ Json.readNested levels input = .ok (.null, rest) := by
  obtain ⟨part, hpart⟩ := Json.readNested_eq_readWith levels
  rw [hpart, Json.readWith_eq_ok_iff (by simp), Json.StartsAs, readNull]
  constructor
  · intro h
    split at h
    · cases h
    · exact ⟨_, ‹_›, mapError_eq_ok_iff.mp h⟩
    · cases h
  · rintro ⟨r, hblanks, hword⟩
    rw [hblanks]
    exact mapError_eq_ok_iff.mpr hword

/-- After the name of a policy there is a null, and the object ends. -/
lemma readPolicyEnd_eq_ok_iff (levels : Nat) :
    readPolicyEnd input = .ok rest ↔ ∃ value after, Json.readColon input = .ok value ∧
      Json.readNested levels value = .ok (.null, after) ∧
      Json.skipBlanks after = '\x7d' :: rest := by
  simp only [← readNull_eq_ok_iff]
  constructor
  · intro h
    obtain ⟨value, hcolon, h⟩ := bind_eq_ok_iff.mp h
    obtain ⟨after, hnull, h⟩ := bind_eq_ok_iff.mp h
    refine ⟨value, after, mapError_eq_ok_iff.mp hcolon, hnull, ?_⟩
    split at h
    · cases h
    · cases h
      assumption
    · cases h
  · rintro ⟨value, after, hcolon, hnull, hend⟩
    refine bind_eq_ok_iff.mpr ⟨value, mapError_eq_ok_iff.mpr hcolon, ?_⟩
    refine bind_eq_ok_iff.mpr ⟨after, hnull, ?_⟩
    rw [hend]
    rfl

/-- A policy is read where a value stands for it. -/
lemma readPolicy_eq_ok_iff (levels : Nat) {p : Policy} :
    readPolicy text input = .ok (p, rest) ↔
      ∃ v, Json.readNested (levels + 1) input = .ok (v, rest) ∧ NamesPolicy v p := by
  have hnested : Json.readNested (levels + 1) = Json.readWith (some (Json.readNested levels)) := rfl
  rw [hnested]
  constructor
  · intro h
    rw [readPolicy] at h
    split at h
    · cases h
    · next r hblanks =>
      have htext := readPolicyName_eq_ok_iff.mp h
      refine ⟨.text (policyName p), (Json.readWith_eq_ok_iff (by simp)).mpr ⟨r, hblanks, htext⟩, ?_⟩
      cases p with
      | failFast => exact .failFast
      | carryOn => exact .carryOn
    · next r hblanks =>
      split at h
      · cases h
      · next r' hquote =>
        obtain ⟨read, hname, h⟩ := bind_eq_ok_iff.mp h
        obtain ⟨after, hend, h⟩ := bind_eq_ok_iff.mp h
        cases h
        obtain ⟨value, after', hcolon, hnull, hclose⟩ := (readPolicyEnd_eq_ok_iff levels).mp hend
        have hname' : Json.readName (Json.skipBlanks r) = .ok (policyName read.1, read.2) := by
          rw [hquote]
          exact readPolicyName_eq_ok_iff.mp hname
        have hmembers := Json.readMembers_singleton_iff.mpr
          ⟨_, value, after', hname', hcolon, hnull, hclose⟩
        refine ⟨.object [(policyName read.1, .null)],
          (Json.readWith_eq_ok_iff (by simp)).mpr ⟨_, r, rfl, hblanks, hmembers⟩, ?_⟩
        cases read.1 with
        | failFast => exact .failFastMember
        | carryOn => exact .carryOnMember
      · cases h
    · cases h
  · rintro ⟨v, hread, hv⟩
    -- The name stands in quotes, alone or as the only member of an object.
    have htext (h : Json.readWith (some (Json.readNested levels)) input =
        .ok (.text (policyName p), rest)) : readPolicy text input = .ok (p, rest) := by
      obtain ⟨r, hblanks, htext⟩ := Json.startsAs_of_readWith h
      rw [readPolicy, hblanks]
      exact readPolicyName_eq_ok_iff.mpr htext
    have hobject (h : Json.readWith (some (Json.readNested levels)) input =
        .ok (.object [(policyName p, .null)], rest)) : readPolicy text input = .ok (p, rest) := by
      obtain ⟨_, r, hpart, hblanks, hmembers⟩ := Json.startsAs_of_readWith h
      cases hpart
      obtain ⟨after, value, after', hname, hcolon, hnull, hclose⟩ :=
        Json.readMembers_singleton_iff.mp hmembers
      have hend := (readPolicyEnd_eq_ok_iff levels).mpr ⟨value, after', hcolon, hnull, hclose⟩
      rw [readPolicy, hblanks]
      cases hquote : Json.skipBlanks r with
      | nil =>
        rw [hquote] at hname
        cases hname
      | cons c r' =>
        rw [hquote, Json.readName] at hname
        split at hname
        · next hc =>
          subst hc
          simp only [hquote]
          refine bind_eq_ok_iff.mpr ⟨(p, after), readPolicyName_eq_ok_iff.mpr hname, ?_⟩
          exact bind_eq_ok_iff.mpr ⟨rest, hend, rfl⟩
        · cases hname
    cases hv with
    | failFast => exact htext hread
    | carryOn => exact htext hread
    | failFastMember => exact hobject hread
    | carryOnMember => exact hobject hread

/-- A depth is read where a value stands for it. -/
lemma readDepth_eq_ok_iff (levels : Nat) {n : Nat} :
    readDepth input = .ok (n, rest) ↔
      ∃ v, Json.readNested levels input = .ok (v, rest) ∧ NamesDepth v n := by
  obtain ⟨part, hpart⟩ := Json.readNested_eq_readWith levels
  rw [hpart]
  constructor
  · intro h
    obtain ⟨read, hread, h⟩ := bind_eq_ok_iff.mp h
    have hread := mapError_eq_ok_iff.mp hread
    obtain ⟨v, after⟩ := read
    simp only at h
    split at h
    · cases h
      exact ⟨_, Json.readWith_number hread, .integer _⟩
    · cases h
  · rintro ⟨_, hread, ⟨⟩⟩
    have hnumber := Json.startsAs_of_readWith hread
    exact bind_eq_ok_iff.mpr ⟨_, mapError_eq_ok_iff.mpr hnumber, rfl⟩

end Parts

/-! ### Objects -/

section Objects

variable {α : Type} {Names : Written → α → Prop} {members : List (String × Written)}
  {name other : String} {v : Written} {g g' : Given}

/-- A member of another name does not matter to a field. -/
lemma says_cons_of_ne (h : name ≠ other) {a : Option α} :
    Says Names ((other, v) :: members) name a ↔ Says Names members name a := by
  cases a with
  | none => simp [Says, h]
  | some a => simp [Says, h]

/-- The only member of its name decides what a field says. -/
lemma says_cons_self (h : name ∉ members.map Prod.fst) {a : Option α} :
    Says Names ((name, v) :: members) name a ↔ ∃ b, a = some b ∧ Names v b := by
  have hnot (w : Written) : (name, w) ∉ members := fun hmem => h (List.mem_map_of_mem hmem)
  cases a with
  | none =>
    simp only [Says, reduceCtorEq, false_and, exists_false, iff_false, not_forall, not_not]
    exact ⟨v, List.mem_cons_self ..⟩
  | some a => simp [Says, hnot]

/-- What the fields of an object say so far. -/
structure Gives (members : List (String × Written)) (g : Given) : Prop where
  known : ∀ member ∈ members, member.1 = "policy" ∨ member.1 = "max_depth"
  once : (members.map Prod.fst).Nodup
  policy : Says NamesPolicy members "policy" g.policy
  depth : Says NamesDepth members "max_depth" g.maxDepth

/-- An object without members says nothing. -/
lemma gives_nil : Gives [] {} where
  known := by simp
  once := by simp
  policy := by simp [Says]
  depth := by simp [Says]

/-- A name that is not among the members has no field. -/
lemma says_none_iff : Says Names members name none ↔ name ∉ members.map Prod.fst := by
  simp [Says]

/-- One more field with a policy is allowed if there was none. -/
lemma gives_cons_policy_iff : Gives (("policy", v) :: members) g' ↔
    ∃ g p, Gives members g ∧ g.policy = none ∧ NamesPolicy v p ∧
      g' = { g with policy := some p } := by
  constructor
  · rintro ⟨hknown, honce, hpolicy, hdepth⟩
    obtain ⟨hnot, honce⟩ := List.nodup_cons.mp honce
    obtain ⟨p, hp, hv⟩ := (says_cons_self hnot).mp hpolicy
    refine ⟨{ g' with policy := none }, p, ⟨?_, honce, says_none_iff.mpr hnot, ?_⟩, rfl, hv, ?_⟩
    · exact fun member hmem => hknown member (List.mem_cons_of_mem _ hmem)
    · exact (says_cons_of_ne (by decide)).mp hdepth
    · rw [← hp]
  · rintro ⟨g, p, ⟨hknown, honce, hpolicy, hdepth⟩, hnone, hv, rfl⟩
    rw [hnone, says_none_iff] at hpolicy
    refine ⟨?_, List.nodup_cons.mpr ⟨hpolicy, honce⟩, ?_, ?_⟩
    · exact List.forall_mem_cons.mpr ⟨.inl rfl, hknown⟩
    · exact (says_cons_self hpolicy).mpr ⟨p, rfl, hv⟩
    · exact (says_cons_of_ne (by decide)).mpr hdepth

/-- One more field with a depth is allowed if there was none. -/
lemma gives_cons_depth_iff : Gives (("max_depth", v) :: members) g' ↔
    ∃ g n, Gives members g ∧ g.maxDepth = none ∧ NamesDepth v n ∧
      g' = { g with maxDepth := some n } := by
  constructor
  · rintro ⟨hknown, honce, hpolicy, hdepth⟩
    obtain ⟨hnot, honce⟩ := List.nodup_cons.mp honce
    obtain ⟨n, hn, hv⟩ := (says_cons_self hnot).mp hdepth
    refine ⟨{ g' with maxDepth := none }, n, ⟨?_, honce, ?_, says_none_iff.mpr hnot⟩, rfl, hv, ?_⟩
    · exact fun member hmem => hknown member (List.mem_cons_of_mem _ hmem)
    · exact (says_cons_of_ne (by decide)).mp hpolicy
    · rw [← hn]
  · rintro ⟨g, n, ⟨hknown, honce, hpolicy, hdepth⟩, hnone, hv, rfl⟩
    rw [hnone, says_none_iff] at hdepth
    refine ⟨?_, List.nodup_cons.mpr ⟨hdepth, honce⟩, ?_, ?_⟩
    · exact List.forall_mem_cons.mpr ⟨.inr rfl, hknown⟩
    · exact (says_cons_of_ne (by decide)).mpr hpolicy
    · exact (says_cons_self hdepth).mpr ⟨n, rfl, hv⟩

/-- A field says one thing at most. -/
lemma says_unique (hNames : ∀ v a b, Names v a → Names v b → a = b)
    (honce : (members.map Prod.fst).Nodup) {a b : Option α} (ha : Says Names members name a)
    (hb : Says Names members name b) : a = b := by
  cases a with
  | none =>
    cases b with
    | none => rfl
    | some b =>
      obtain ⟨v, hmem, -⟩ := hb
      exact absurd hmem (ha v)
  | some a =>
    obtain ⟨v, hmem, hv⟩ := ha
    cases b with
    | none => exact absurd hmem (hb v)
    | some b =>
      obtain ⟨w, hmem', hw⟩ := hb
      cases List.inj_on_of_nodup_map honce hmem hmem' rfl
      rw [hNames _ _ _ hv hw]

/-- A value stands for one policy at most. -/
lemma NamesPolicy.unique {p q : Policy} (h : NamesPolicy v p) (h' : NamesPolicy v q) : p = q := by
  generalize hw : v = w at h'
  cases h <;> cases h' <;> simp_all

/-- A value stands for one depth at most. -/
lemma NamesDepth.unique {m n : Nat} (h : NamesDepth v m) (h' : NamesDepth v n) : m = n := by
  cases h
  cases h'
  rfl

/-- The fields of an object say one thing at most. -/
lemma Gives.unique (h : Gives members g) (h' : Gives members g') : g = g' := by
  have hpolicy : g.policy = g'.policy :=
    says_unique (fun _ _ _ hp hq => hp.unique hq) h.once h.policy h'.policy
  have hdepth : g.maxDepth = g'.maxDepth :=
    says_unique (fun _ _ _ hm hn => hm.unique hn) h.once h.depth h'.depth
  cases g
  cases g'
  cases hpolicy
  cases hdepth
  rfl

/-- A field is read exactly where its value may be added to those before it. -/
lemma readField_eq_ok_iff {text input rest : List Char} (levels : Nat) (hg : Gives members g) :
    readField text g name input = .ok (g', rest) ↔
      ∃ after v, Json.readColon input = .ok after ∧
        Json.readNested (levels + 1) after = .ok (v, rest) ∧ Gives ((name, v) :: members) g' := by
  -- the two known fields are read in the same way, and no other name is accepted
  by_cases hpolicy : name = "policy"
  · subst hpolicy
    simp only [gives_cons_policy_iff, readField, if_true]
    constructor
    · intro h
      split at h
      · cases h
      · next hnone =>
        obtain ⟨after, hcolon, h⟩ := bind_eq_ok_iff.mp h
        obtain ⟨⟨p, _⟩, hread, h⟩ := bind_eq_ok_iff.mp h
        cases h
        obtain ⟨v, hread, hv⟩ := (readPolicy_eq_ok_iff levels).mp hread
        exact ⟨after, v, mapError_eq_ok_iff.mp hcolon, hread, g, p, hg, by simpa using hnone, hv,
          rfl⟩
    · rintro ⟨after, v, hcolon, hread, g₀, p, hg₀, hnone, hv, rfl⟩
      cases hg.unique hg₀
      rw [hnone]
      refine bind_eq_ok_iff.mpr ⟨after, mapError_eq_ok_iff.mpr hcolon, ?_⟩
      exact bind_eq_ok_iff.mpr ⟨(p, rest), (readPolicy_eq_ok_iff levels).mpr ⟨v, hread, hv⟩, rfl⟩
  · by_cases hdepth : name = "max_depth"
    · subst hdepth
      simp only [gives_cons_depth_iff, readField, hpolicy, if_false, if_true]
      constructor
      · intro h
        split at h
        · cases h
        · next hnone =>
          obtain ⟨after, hcolon, h⟩ := bind_eq_ok_iff.mp h
          obtain ⟨⟨n, _⟩, hread, h⟩ := bind_eq_ok_iff.mp h
          cases h
          obtain ⟨v, hread, hv⟩ := (readDepth_eq_ok_iff (levels + 1)).mp hread
          exact ⟨after, v, mapError_eq_ok_iff.mp hcolon, hread, g, n, hg, by simpa using hnone, hv,
            rfl⟩
      · rintro ⟨after, v, hcolon, hread, g₀, n, hg₀, hnone, hv, rfl⟩
        cases hg.unique hg₀
        rw [hnone]
        refine bind_eq_ok_iff.mpr ⟨after, mapError_eq_ok_iff.mpr hcolon, ?_⟩
        exact bind_eq_ok_iff.mpr
          ⟨(n, rest), (readDepth_eq_ok_iff (levels + 1)).mpr ⟨v, hread, hv⟩, rfl⟩
    · constructor
      · intro h
        simp only [readField, hpolicy, hdepth, if_false] at h
        cases h
      · rintro ⟨after, v, -, -, hgives⟩
        obtain hname | hname := hgives.known _ (List.mem_cons_self ..)
        · exact absurd hname hpolicy
        · exact absurd hname hdepth

/-- What all members say, those before the last one say in part. -/
lemma exists_gives_of_cons (h : ∃ g, Gives ((name, v) :: members) g) : ∃ g, Gives members g := by
  obtain ⟨g, hg⟩ := h
  obtain hname | hname := hg.known _ (List.mem_cons_self ..)
  · cases hname
    obtain ⟨g₀, -, hg₀, -⟩ := gives_cons_policy_iff.mp hg
    exact ⟨g₀, hg₀⟩
  · cases hname
    obtain ⟨g₀, -, hg₀, -⟩ := gives_cons_depth_iff.mp hg
    exact ⟨g₀, hg₀⟩

/-- The order of the members does not matter. -/
lemma Gives.of_perm {members' : List (String × Written)} (h : Gives members g)
    (hperm : members.Perm members') : Gives members' g := by
  have hmem (member : String × Written) : member ∈ members' ↔ member ∈ members := hperm.mem_iff.symm
  have hsays {α : Type} {Names : Written → α → Prop} {name : String} {a : Option α}
      (h : Says Names members name a) : Says Names members' name a := by
    cases a with
    | none => simpa only [Says, hmem] using h
    | some a => simpa only [Says, hmem] using h
  exact ⟨fun member hmember => h.known member ((hmem member).mp hmember),
    (hperm.map _).nodup_iff.mp h.once, hsays h.policy, hsays h.depth⟩

/-- The fields of an object are read exactly where an object stands whose members say something. -/
lemma foldMembers_readField_iff {text input rest : List Char} (levels : Nat) :
    Json.foldMembers .notJson (readField text) (input.length + 1) true {} input = .ok (g, rest) ↔
      ∃ members, Json.readMembers (Json.readNested (levels + 1)) input = .ok (members, rest) ∧
        Gives members g := by
  have hperm (members : List (String × Written)) := List.reverse_perm members
  simp only [Json.readMembers_eq_ok_iff]
  constructor
  · intro h
    -- one member that is read here is one member that is collected there, and the fields agree
    have hstep ⦃g : Given⦄ ⦃members : List (String × Written)⦄ ⦃name : String⦄
        ⦃input : List Char⦄ ⦃g' : Given⦄ ⦃rest : List Char⦄ (hg : Gives members g)
        (hread : readField text g name input = .ok (g', rest)) (_ : True) :
        ∃ members', Json.collectMember (Json.readNested (levels + 1)) members name input =
          .ok (members', rest) ∧ Gives members' g' := by
      obtain ⟨after, v, hcolon, hread, hg'⟩ := (readField_eq_ok_iff levels hg).mp hread
      exact ⟨_, Json.collectMember_eq_ok_iff.mpr ⟨after, v, hcolon, hread, rfl⟩, hg'⟩
    obtain ⟨members, hmembers, hgives⟩ := Json.foldMembers_simulates (fun _ => True)
      (fun g members => Gives members g) (fun _ _ _ _ _ _ _ => trivial) hstep gives_nil h trivial
    refine ⟨members.reverse, ?_, hgives.of_perm (hperm members).symm⟩
    rw [List.reverse_reverse]
    exact hmembers
  · rintro ⟨members, hmembers, hgives⟩
    -- the other way round no member may spoil the fields, which is known of all of them together
    have hback ⦃members : List (String × Written)⦄ ⦃name : String⦄ ⦃input : List Char⦄
        ⦃members' : List (String × Written)⦄ ⦃rest : List Char⦄
        (hcollect : Json.collectMember (Json.readNested (levels + 1)) members name input =
          .ok (members', rest)) (hgood : ∃ g, Gives members' g) : ∃ g, Gives members g := by
      obtain ⟨_, _, -, -, rfl⟩ := Json.collectMember_eq_ok_iff.mp hcollect
      exact exists_gives_of_cons hgood
    have hstep ⦃members : List (String × Written)⦄ ⦃g : Given⦄ ⦃name : String⦄
        ⦃input : List Char⦄ ⦃members' : List (String × Written)⦄ ⦃rest : List Char⦄
        (hg : Gives members g)
        (hcollect : Json.collectMember (Json.readNested (levels + 1)) members name input =
          .ok (members', rest)) (hgood : ∃ g, Gives members' g) :
        ∃ g', readField text g name input = .ok (g', rest) ∧ Gives members' g' := by
      obtain ⟨after, v, hcolon, hread, rfl⟩ := Json.collectMember_eq_ok_iff.mp hcollect
      obtain ⟨g', hg'⟩ := hgood
      exact ⟨g', (readField_eq_ok_iff levels hg).mpr ⟨after, v, hcolon, hread, hg'⟩, hg'⟩
    obtain ⟨g', hread, hgives'⟩ := Json.foldMembers_simulates (fun members => ∃ g, Gives members g)
      Gives hback hstep gives_nil hmembers ⟨g, hgives.of_perm (hperm members).symm⟩
    rw [hgives.unique (hgives'.of_perm (hperm members))]
    exact hread

end Objects

/-! ### Lists -/

section Lists

/-- What the items of a list say, the last one in front. -/
inductive ItemsGive : List Written → Given → Prop
  | nothing : ItemsGive [] {}
  | policy {v : Written} {p : Policy} (hv : NamesPolicy v p) : ItemsGive [v] { policy := some p }
  | both {v w : Written} {p : Policy} {n : Nat} (hv : NamesPolicy v p) (hw : NamesDepth w n) :
      ItemsGive [w, v] { policy := some p, maxDepth := some n }

variable {items : List Written} {g g' : Given}

/-- The items of a list say one thing at most. -/
lemma ItemsGive.unique (h : ItemsGive items g) (h' : ItemsGive items g') : g = g' := by
  cases h with
  | nothing =>
    cases h'
    rfl
  | policy hv =>
    cases h' with
    | policy hv' => rw [hv.unique hv']
  | both hv hw =>
    cases h' with
    | both hv' hw' => rw [hv.unique hv', hw.unique hw']

/-- What all items say, those before the last one say in part. -/
lemma exists_itemsGive_of_cons {v : Written} (h : ∃ g, ItemsGive (v :: items) g) :
    ∃ g, ItemsGive items g := by
  obtain ⟨g, hg⟩ := h
  cases hg with
  | policy => exact ⟨_, .nothing⟩
  | both hv => exact ⟨_, .policy hv⟩

/-- An item is read exactly where it may follow those before it. -/
lemma readItem_eq_ok_iff {text input rest : List Char} (levels : Nat) (hg : ItemsGive items g) :
    readItem text g input = .ok (g', rest) ↔
      ∃ v, Json.readNested (levels + 1) input = .ok (v, rest) ∧ ItemsGive (v :: items) g' := by
  cases hg with
  | nothing =>
    constructor
    · intro h
      obtain ⟨⟨p, _⟩, hread, h⟩ := bind_eq_ok_iff.mp h
      cases h
      obtain ⟨v, hread, hv⟩ := (readPolicy_eq_ok_iff levels).mp hread
      exact ⟨v, hread, .policy hv⟩
    · rintro ⟨v, hread, ⟨⟩⟩
      next p hv =>
      exact bind_eq_ok_iff.mpr ⟨(p, rest), (readPolicy_eq_ok_iff levels).mpr ⟨v, hread, hv⟩, rfl⟩
  | policy hw =>
    constructor
    · intro h
      obtain ⟨⟨n, _⟩, hread, h⟩ := bind_eq_ok_iff.mp h
      cases h
      obtain ⟨v, hread, hv⟩ := (readDepth_eq_ok_iff (levels + 1)).mp hread
      exact ⟨v, hread, .both hw hv⟩
    · rintro ⟨v, hread, hgives⟩
      cases hgives with
      | both hw' hv =>
        cases hw.unique hw'
        exact bind_eq_ok_iff.mpr
          ⟨_, (readDepth_eq_ok_iff (levels + 1)).mpr ⟨v, hread, hv⟩, rfl⟩
  | both =>
    constructor
    · intro h
      cases h
    · rintro ⟨v, -, hgives⟩
      cases hgives

/-- The items of a list are read exactly where a list stands whose items say something. -/
lemma foldItems_readItem_iff {text input rest : List Char} (levels : Nat) :
    Json.foldItems .notJson (readItem text) (input.length + 1) true {} input = .ok (g, rest) ↔
      ∃ items, Json.readItems (Json.readNested (levels + 1)) input = .ok (items, rest) ∧
        ItemsGive items.reverse g := by
  simp only [Json.readItems_eq_ok_iff]
  constructor
  · intro h
    have hstep ⦃g : Given⦄ ⦃items : List Written⦄ ⦃input : List Char⦄ ⦃g' : Given⦄
        ⦃rest : List Char⦄ (hg : ItemsGive items g)
        (hread : readItem text g input = .ok (g', rest)) (_ : True) :
        ∃ items', Json.collectItem (Json.readNested (levels + 1)) items input =
          .ok (items', rest) ∧ ItemsGive items' g' := by
      obtain ⟨v, hread, hg'⟩ := (readItem_eq_ok_iff levels hg).mp hread
      exact ⟨_, Json.collectItem_eq_ok_iff.mpr ⟨v, hread, rfl⟩, hg'⟩
    obtain ⟨items, hitems, hgives⟩ := Json.foldItems_simulates (fun _ => True)
      (fun g items => ItemsGive items g) (fun _ _ _ _ _ _ => trivial) hstep .nothing h trivial
    refine ⟨items.reverse, ?_, ?_⟩
    · rw [List.reverse_reverse]
      exact hitems
    · rwa [List.reverse_reverse]
  · rintro ⟨items, hitems, hgives⟩
    have hback ⦃items : List Written⦄ ⦃input : List Char⦄ ⦃items' : List Written⦄
        ⦃rest : List Char⦄
        (hcollect : Json.collectItem (Json.readNested (levels + 1)) items input =
          .ok (items', rest)) (hgood : ∃ g, ItemsGive items' g) : ∃ g, ItemsGive items g := by
      obtain ⟨_, -, rfl⟩ := Json.collectItem_eq_ok_iff.mp hcollect
      exact exists_itemsGive_of_cons hgood
    have hstep ⦃items : List Written⦄ ⦃g : Given⦄ ⦃input : List Char⦄ ⦃items' : List Written⦄
        ⦃rest : List Char⦄ (hg : ItemsGive items g)
        (hcollect : Json.collectItem (Json.readNested (levels + 1)) items input =
          .ok (items', rest)) (hgood : ∃ g, ItemsGive items' g) :
        ∃ g', readItem text g input = .ok (g', rest) ∧ ItemsGive items' g' := by
      obtain ⟨v, hread, rfl⟩ := Json.collectItem_eq_ok_iff.mp hcollect
      obtain ⟨g', hg'⟩ := hgood
      exact ⟨g', (readItem_eq_ok_iff levels hg).mpr ⟨v, hread, hg'⟩, hg'⟩
    obtain ⟨g', hread, hgives'⟩ := Json.foldItems_simulates (fun items => ∃ g, ItemsGive items g)
      ItemsGive hback hstep .nothing hitems ⟨g, hgives⟩
    rw [hgives.unique hgives']
    exact hread

end Lists

/-! ### Options -/

/-- What a value says so far: its fields, or its items. -/
def ValueGives : Written → Given → Prop
  | .object members, g => Gives members g
  | .list items, g => ItemsGive items.reverse g
  | _, _ => False

/-- Options are read exactly where a value stands that says something. -/
lemma readGiven_eq_ok_iff {text input rest : List Char} {g : Given} :
    readGiven text input = .ok (g, rest) ↔
      ∃ v, Json.readNested Json.nestingLimit input = .ok (v, rest) ∧ ValueGives v g := by
  have hnested : Json.readNested Json.nestingLimit =
      Json.readWith (some (Json.readNested (125 + 1))) := rfl
  rw [hnested, readGiven]
  constructor
  · intro h
    split at h
    · next r hblanks =>
      obtain ⟨members, hmembers, hgives⟩ := (foldMembers_readField_iff 125).mp h
      exact ⟨.object members,
        (Json.readWith_eq_ok_iff (by simp)).mpr ⟨_, r, rfl, hblanks, hmembers⟩, hgives⟩
    · next r hblanks =>
      obtain ⟨items, hitems, hgives⟩ := (foldItems_readItem_iff 125).mp h
      exact ⟨.list items,
        (Json.readWith_eq_ok_iff (by simp)).mpr ⟨_, r, rfl, hblanks, hitems⟩, hgives⟩
    · cases h
    · cases h
  · rintro ⟨v, hread, hgives⟩
    have hstarts := Json.startsAs_of_readWith hread
    cases v with
    | object members =>
      obtain ⟨_, r, ⟨⟩, hblanks, hmembers⟩ := hstarts
      rw [hblanks]
      exact (foldMembers_readField_iff 125).mpr ⟨members, hmembers, hgives⟩
    | list items =>
      obtain ⟨_, r, ⟨⟩, hblanks, hitems⟩ := hstarts
      rw [hblanks]
      exact (foldItems_readItem_iff 125).mpr ⟨items, hitems, hgives⟩
    | null => exact hgives.elim
    | bool => exact hgives.elim
    | number => exact hgives.elim
    | text => exact hgives.elim

/-- What a value says, with the default values for the rest, is what it means. -/
lemma means_iff {v : Written} {options : Options} :
    Means v options ↔ ∃ g, ValueGives v g ∧ g.complete = options := by
  constructor
  · intro h
    cases h with
    | fields hknown honce hpolicy hdepth => exact ⟨⟨_, _⟩, ⟨hknown, honce, hpolicy, hdepth⟩, rfl⟩
    | nothing => exact ⟨_, .nothing, rfl⟩
    | policy hv => exact ⟨_, .policy hv, rfl⟩
    | both hv hw => exact ⟨_, .both hv hw, rfl⟩
  · rintro ⟨g, hgives, rfl⟩
    cases v with
    | object members => exact .fields hgives.known hgives.once hgives.policy hgives.depth
    | list items =>
      have hmeans {reversed : List Written} (h : ItemsGive reversed g) :
          Means (.list reversed.reverse) g.complete := by
        cases h with
        | nothing => exact .nothing
        | policy hv => exact .policy hv
        | both hv hw => exact .both hv hw
      exact items.reverse_reverse ▸ hmeans hgives
    | null => exact hgives.elim
    | bool => exact hgives.elim
    | number => exact hgives.elim
    | text => exact hgives.elim

/-- A text is read as options exactly if it is JSON and its value means them. -/
lemma load_eq_ok_iff {text : String} {options : Options} :
    load text = .ok options ↔ ∃ v, Json.readWritten text = .ok v ∧ Means v options := by
  constructor
  · intro h
    obtain ⟨⟨g, rest⟩, hread, h⟩ := bind_eq_ok_iff.mp h
    obtain ⟨v, hvalue, hgives⟩ := readGiven_eq_ok_iff.mp hread
    simp only at h
    split at h
    · next hend =>
      cases h
      refine ⟨v, bind_eq_ok_iff.mpr ⟨(v, rest), hvalue, ?_⟩, means_iff.mpr ⟨g, hgives, rfl⟩⟩
      simp only [hend, if_true]
    · cases h
  · rintro ⟨v, h, hmeans⟩
    obtain ⟨⟨v, rest⟩, hvalue, h⟩ := bind_eq_ok_iff.mp h
    simp only at h
    split at h
    · next hend =>
      cases h
      obtain ⟨g, hgives, rfl⟩ := means_iff.mp hmeans
      refine bind_eq_ok_iff.mpr ⟨(g, rest), readGiven_eq_ok_iff.mpr ⟨v, hvalue, hgives⟩, ?_⟩
      simp only [hend, if_true]
    · cases h

end Options

end SheetRules
