import Mathlib.Tactic.Common
import SheetRules.Proofs.Feature.Spelling
import SheetRules.Proofs.Feature.Steps

/-!
# Reading tokens of known kinds

`Runs p kinds follow P` says what comes of reading with `p` where the next tokens have the given
kinds and the token after them has a kind with the property `follow`: the outcome has the property
`P`.  Two outcomes matter.  Either reading comes to going on with another reader right after the
tokens, with a value that it has made of them (`Reaches`), or it ends because the expression is too
deep (`Overruns`).
-/

namespace SheetRules

namespace Parser

variable {α β γ : Type}

/-- What reading gives: a value and the place after it, or a fault. -/
abbrev Outcome (α : Type) := Except Fault (α × Cursor)

/-- The kinds that the next token can have before tokens of the given kinds, which are followed by
a token with the property `follow`. -/
def First (kinds : List Kind) (follow : Kind → Prop) (kind : Kind) : Prop :=
  match kinds with
  | [] => follow kind
  | first :: _ => kind = first

/-- Reading tokens of the given kinds has an outcome with the property `P`, which may also speak
about the place after the tokens. -/
def Runs (p : Parser α) (kinds : List Kind) (follow : Kind → Prop)
    (P : Cursor → Outcome α → Prop) : Prop :=
  ∀ (used rest : List Token) (stop : Token), used.map Token.kind = kinds →
    follow (Cursor.current ⟨rest, stop⟩).kind → P ⟨rest, stop⟩ (p ⟨used ++ rest, stop⟩)

/-- Reading comes to going on with `next`, for a value with the property `Q`. -/
def Reaches (next : α → Parser β) (Q : α → Prop) (after : Cursor) (outcome : Outcome β) : Prop :=
  ∃ a, Q a ∧ outcome = next a after

/-- Reading gives a value with the property `Q`. -/
def Yields (Q : α → Prop) : Cursor → Outcome α → Prop :=
  Reaches pure Q

/-- Reading finds that an expression is too deep. -/
def IsTooDeep (outcome : Outcome α) : Prop :=
  ∃ span, outcome = .error ⟨.nestedTooDeep, span⟩

/-- Reading tokens of the given kinds finds that an expression is too deep, whatever follows. -/
def Overruns (p : Parser α) (kinds : List Kind) : Prop :=
  Runs p kinds (fun _ => True) fun _ outcome => IsTooDeep outcome

variable {p : Parser α} {kinds more : List Kind} {follow follow' : Kind → Prop}
  {P : Cursor → Outcome β → Prop} {Q : α → Prop}

/-- The next token has one of the kinds that it can have. -/
lemma first_current {used rest : List Token} {stop : Token} (hused : used.map Token.kind = kinds)
    (hfollow : follow (Cursor.current ⟨rest, stop⟩).kind) :
    First kinds follow (Cursor.current ⟨used ++ rest, stop⟩).kind := by
  subst hused
  cases used with
  | nil => exact hfollow
  | cons t used => rfl

/-- Fewer kinds may come after it. -/
lemma Runs.mono {p : Parser β} (h : Runs p kinds follow P) (hfollow : ∀ k, follow' k → follow k) :
    Runs p kinds follow' P :=
  fun used rest stop hused hk => h used rest stop hused (hfollow _ hk)

/-! ### One reader after another -/

/-- Going on with `next` after the first tokens, and from there over the others. -/
lemma Runs.trans {p : Parser β} {next : α → Parser β} (hp : Runs p kinds follow (Reaches next Q))
    (hnext : ∀ a, Q a → Runs (next a) more follow' P)
    (hfirst : ∀ k, First more follow' k → follow k) : Runs p (kinds ++ more) follow' P := by
  intro used rest stop hused hfollow
  obtain ⟨front, back, rfl, hfront, hback⟩ := List.map_eq_append_iff.mp hused
  obtain ⟨a, ha, heq⟩ :=
    hp front (back ++ rest) stop hfront (hfirst _ (first_current hback hfollow))
  rw [List.append_assoc, heq]
  exact hnext a ha back rest stop hback hfollow

/-- What a reader yields is where the next one goes on. -/
lemma Runs.then (hp : Runs p kinds follow (Yields Q)) (f : α → Parser β) :
    Runs (p >>= f) kinds follow (Reaches f Q) := by
  intro used rest stop hused hfollow
  obtain ⟨a, ha, heq⟩ := hp used rest stop hused hfollow
  exact ⟨a, ha, bind_of_ok heq f⟩

/-- Two readers one after the other read two spellings one after the other. -/
lemma Runs.bind {f : α → Parser β} (hp : Runs p kinds follow (Yields Q))
    (hf : ∀ a, Q a → Runs (f a) more follow' P)
    (hfirst : ∀ k, First more follow' k → follow k) : Runs (p >>= f) (kinds ++ more) follow' P :=
  (hp.then f).trans hf hfirst

/-- A reader goes on from an image of what was read. -/
lemma Runs.reaches {p : Parser γ} {g : α → β} {next : β → Parser γ} {R : β → Prop}
    (hp : Runs p kinds follow (Reaches (fun a => next (g a)) Q)) (hg : ∀ a, Q a → R (g a)) :
    Runs p kinds follow (Reaches next R) := by
  intro used rest stop hused hfollow
  obtain ⟨a, ha, heq⟩ := hp used rest stop hused hfollow
  exact ⟨g a, hg a ha, heq⟩

/-- The last reader of several looks at no further token. -/
lemma Runs.last {f : α → Parser β} (hp : Runs p kinds follow (Yields Q))
    (hf : ∀ a, Q a → Runs (f a) [] follow P) : Runs (p >>= f) kinds follow P := by
  have hall := hp.bind hf fun _ h => h
  rwa [List.append_nil] at hall

/-- What overruns on its own overruns with more after it. -/
lemma Overruns.bind (hp : Overruns p kinds) (f : α → Parser β) : Overruns (p >>= f) kinds := by
  intro used rest stop hused _
  obtain ⟨span, heq⟩ := hp used rest stop hused trivial
  exact ⟨span, bind_of_error heq f⟩

/-- A reader that overruns does so whatever comes after the tokens. -/
lemma Overruns.append (hp : Overruns p kinds) (more : List Kind) : Overruns p (kinds ++ more) := by
  intro used rest stop hused _
  obtain ⟨front, back, rfl, hfront, -⟩ := List.map_eq_append_iff.mp hused
  rw [List.append_assoc]
  exact hp front (back ++ rest) stop hfront trivial

/-! ### Single tokens -/

/-- Nothing is read. -/
lemma runs_pure {a : α} (h : Q a) : Runs (pure a) [] follow (Yields Q) := by
  intro used rest stop hused _
  obtain rfl := List.map_eq_nil_iff.mp hused
  exact ⟨a, h, rfl⟩

/-- Where there is no level left, everything overruns. -/
lemma overruns_tooDeep (kinds : List Kind) : Overruns (tooDeep : Parser α) kinds :=
  fun _ _ _ _ _ => ⟨_, rfl⟩

/-- A reader looks at the first kind. -/
lemma runs_peek {f : Token → Parser β}
    (h : ∀ t, First kinds follow t.kind → Runs (f t) kinds follow P) :
    Runs (peek >>= f) kinds follow P :=
  fun used rest stop hused hfollow =>
    h _ (first_current hused hfollow) used rest stop hused hfollow

/-- A kind that does not come first is not passed. -/
lemma runs_not_eat {f : Bool → Parser β} {kind : Kind}
    (hkind : ∀ k, First kinds follow k → k ≠ kind) (h : Runs (f false) kinds follow P) :
    Runs (eat kind >>= f) kinds follow P := by
  intro used rest stop hused hfollow
  rw [bind_of_ok (eat_of_ne (hkind _ (first_current hused hfollow)))]
  exact h used rest stop hused hfollow

/-- A reader of a single token passes it. -/
lemma runs_token {f : α → Parser β} {kind : Kind} {value : Token → α}
    (hp : ∀ t rest stop, t.kind = kind → p ⟨t :: rest, stop⟩ = .ok (value t, ⟨rest, stop⟩))
    (h : ∀ t, Runs (f (value t)) kinds follow P) : Runs (p >>= f) (kind :: kinds) follow P := by
  intro used rest stop hused hfollow
  obtain ⟨t, used, rfl, ht, hused⟩ := List.map_eq_cons_iff.mp hused
  rw [List.cons_append, bind_of_ok (hp t (used ++ rest) stop ht)]
  exact h t used rest stop hused hfollow

/-- The first token is passed. -/
lemma runs_advance {f : Unit → Parser β} {kind : Kind} (h : Runs (f ()) kinds follow P) :
    Runs (advance >>= f) (kind :: kinds) follow P :=
  runs_token (fun _ _ _ _ => rfl) fun _ => h

/-- A token of the given kind is passed. -/
lemma runs_eat {f : Bool → Parser β} {kind : Kind} (h : Runs (f true) kinds follow P) :
    Runs (eat kind >>= f) (kind :: kinds) follow P :=
  runs_token (fun _ _ _ => eat_of_eq) fun _ => h

/-- A token that has to be there is passed. -/
lemma runs_expect {f : Token → Parser β} {kind : Kind} (h : ∀ t, Runs (f t) kinds follow P) :
    Runs (expect kind >>= f) (kind :: kinds) follow P :=
  runs_token (fun _ _ _ => expect_of_eq) h

/-- A name is read with any span. -/
lemma runs_ident {f : Ident → Parser β} {text : String}
    (h : ∀ span, Runs (f ⟨text, span⟩) kinds follow P) :
    Runs (ident >>= f) (.name text :: kinds) follow P :=
  runs_token (fun _ _ _ => ident_of_eq) fun t => h t.span

/-- A segment is read with any span. -/
lemma runs_segment {f : Segment × Span → Parser β} {s : Segment}
    (h : ∀ span, Runs (f (s, span)) kinds follow P) :
    Runs (segment >>= f) (s.kind :: kinds) follow P :=
  runs_token (fun _ _ _ => segment_of_eq) fun t => h t.span

/-- The number of steps is enough for the tokens. -/
lemma runs_steps {f : Nat → Parser β} (h : ∀ n, kinds.length < n → Runs (f n) kinds follow P) :
    Runs (steps >>= f) kinds follow P := by
  intro used rest stop hused hfollow
  refine h ((used ++ rest).length + 1) ?_ used rest stop hused hfollow
  rw [← hused, List.length_map, List.length_append]
  omega

end Parser

end SheetRules
