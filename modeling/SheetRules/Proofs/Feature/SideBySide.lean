import SheetRules.Feature.Stream
import SheetRules.Proofs.Feature.ExactSpans

/-!
# A stream and a line side by side

The cursor of a line and the cursor in the stream of all tokens are kept side by side
(`TokenStream.At`).  A reader of the stream follows a reader of lines if, from such a pair, both
succeed with values that belong together and stay side by side, or both fail, the fault is reported,
and the stream is still on the line (`Reading.Follows`).

Two things are told to readers of lines that readers of the stream find for themselves: the span of
the last token that was passed, for which they look back, and the number of steps that a loop can
take, which they count over all tokens and not over the line.
-/

namespace SheetRules

/-! ### Side by side -/

namespace TokenStream

/-- The tokens around a line: all of them, the one that closes the line, and those after that. -/
structure Around where
  all : List Token
  stop : Token
  after : List Token

/-- The stream stands at the cursor of a line, with the given counter and report. -/
structure At (s : TokenStream) (c : Cursor) (around : Around) (depth : Nat)
    (report : Report Fault) : Prop where
  tokens : s.tokens = around.all
  rest : s.tokens.drop s.position = c.rest ++ c.stop :: around.after
  inside : ∀ t ∈ c.rest, Line.isInside t = true
  closed : c.IsClosed
  stop : c.stop = around.stop
  depth : s.depth = depth
  report : s.report = report

/-- The tokens from the cursor on, one by one. -/
lemma getElem?_of_drop {s : TokenStream} {rest : List Token}
    (h : s.tokens.drop s.position = rest) (i : Nat) : s.tokens[s.position + i]? = rest[i]? := by
  rw [← h, List.getElem?_drop]

/-- The first of these tokens is under the cursor. -/
lemma current_of_drop {s : TokenStream} {t : Token} {rest : List Token}
    (h : s.tokens.drop s.position = t :: rest) : s.current = t := by
  have hget := getElem?_of_drop h 0
  rw [Nat.add_zero] at hget
  rw [current, hget]
  rfl

/-- If there is a token under the cursor, the cursor is not past the end. -/
lemma position_lt_of_drop {s : TokenStream} {t : Token} {rest : List Token}
    (h : s.tokens.drop s.position = t :: rest) : s.position < s.tokens.length := by
  refine Nat.lt_of_not_le fun hle => ?_
  rw [List.drop_eq_nil_of_le hle] at h
  cases h

/-- The cursor passes the first of these tokens. -/
lemma advanced_of_drop {s : TokenStream} {t : Token} {rest : List Token}
    (h : s.tokens.drop s.position = t :: rest) :
    s.advanced = { s with position := s.position + 1 } ∧
      s.advanced.tokens.drop s.advanced.position = rest ∧ s.advanced.previousSpan = t.span := by
  have hadvanced : s.advanced = { s with position := s.position + 1 } :=
    if_pos (position_lt_of_drop h)
  have hget := getElem?_of_drop h 0
  rw [Nat.add_zero] at hget
  refine ⟨hadvanced, ?_, ?_⟩
  · rw [hadvanced, ← List.drop_drop, h]
    rfl
  · rw [hadvanced, previousSpan]
    dsimp only
    rw [hget]
    rfl

/-- There are as many tokens left as can be seen. -/
lemma remaining_eq {s : TokenStream} {rest : List Token}
    (h : s.tokens.drop s.position = rest) : s.remaining = rest.length := by
  rw [remaining, ← h, List.length_drop]

namespace At

variable {s : TokenStream} {c : Cursor} {around : Around} {depth : Nat} {report : Report Fault}

/-- Both cursors see the same token. -/
lemma current_eq (h : s.At c around depth report) : s.current = c.current := by
  have hrest := h.rest
  obtain ⟨rest, stop⟩ := c
  cases rest with
  | nil => exact current_of_drop hrest
  | cons t more => exact current_of_drop hrest

/-- A token that does not close the line is still to be read. -/
lemma exists_rest (h : s.At c around depth report) (hinside : c.current.kind.IsInside) :
    ∃ more, c.rest = c.current :: more :=
  h.closed.exists_rest hinside

/-- Both cursors pass the same token. -/
lemma advanced (h : s.At c around depth report) {t : Token} {more : List Token}
    (hrest : c.rest = t :: more) :
    s.advanced.At ⟨more, c.stop⟩ around depth report ∧ s.advanced.previousSpan = t.span := by
  have hdrop := h.rest
  rw [hrest, List.cons_append] at hdrop
  obtain ⟨hadvanced, hmore, hprevious⟩ := advanced_of_drop hdrop
  refine ⟨⟨?_, hmore, fun u hu => ?_, h.closed, h.stop, ?_, ?_⟩, hprevious⟩
  · rw [hadvanced]
    exact h.tokens
  · refine h.inside u ?_
    rw [hrest]
    exact List.mem_cons_of_mem _ hu
  · rw [hadvanced]
    exact h.depth
  · rw [hadvanced]
    exact h.report

/-- The stream sees the next token but one, also where that one closes the line. -/
lemma ahead_eq (h : s.At c around depth report) {t : Token} {more : List Token}
    (hrest : c.rest = t :: more) : s.ahead 1 = (Cursor.mk more c.stop).current.kind := by
  have hget := getElem?_of_drop h.rest 1
  rw [hrest] at hget
  rw [ahead, hget]
  cases more with
  | nil => rfl
  | cons u more => rfl

/-- The counter is set, and the cursor stays. -/
lemma with_depth (h : s.At c around depth report) (d : Nat) :
    TokenStream.At { s with depth := d } c around d report :=
  ⟨h.tokens, h.rest, h.inside, h.closed, h.stop, rfl, h.report⟩

/-- A fault is reported at the token that both cursors see. -/
lemma reported (h : s.At c around depth report) (cause : Kind → Cause) :
    (s.reported cause).At c around depth
      (report.push ⟨cause c.current.kind, c.current.span⟩) := by
  refine ⟨h.tokens, h.rest, h.inside, h.closed, h.stop, h.depth, ?_⟩
  rw [TokenStream.reported, h.current_eq, h.report]

/-- The line is not longer than the stream. -/
lemma length_lt_remaining (h : s.At c around depth report) : c.rest.length < s.remaining := by
  rw [remaining_eq h.rest, List.length_append, List.length_cons]
  omega

end At

end TokenStream

open TokenStream (Around)

namespace Reading

variable {α β γ δ : Type}

/-- A reader that has found something goes on from there. -/
lemma bind_of_some {m : Reading α} {s s' : TokenStream} {a : α} (h : m s = (some a, s'))
    (f : α → Reading β) : (m >>= f) s = f a s' := by
  simp only [bind, OptionT.bind, OptionT.mk, StateT.bind, h]

/-- A reader that has come to nothing is the end of it. -/
lemma bind_of_none {m : Reading α} {s s' : TokenStream} (h : m s = (none, s'))
    (f : α → Reading β) : (m >>= f) s = (none, s') := by
  simp only [bind, OptionT.bind, OptionT.mk, StateT.bind, h]
  rfl

/-! ### Outcomes -/

/-- The outcomes of the two ways to read belong together.  Both found something, and `Q` holds of
what they found and of the span of the last token that was passed; or both failed, and the fault is
added to the report.  The cursors are side by side in any case, and `D` holds of the counter. -/
inductive Matches (around : Around) (report : Report Fault) (D : Nat → Prop)
    (Q : α → β → Span → Prop) : Except Fault (α × Cursor) → Option β × TokenStream → Prop
  | ok {a : α} {b : β} {s : TokenStream} {c : Cursor} {depth : Nat}
      (hat : s.At c around depth report) (hdepth : D depth) (h : Q a b s.previousSpan) :
      Matches around report D Q (.ok (a, c)) (some b, s)
  | error {fault : Fault} {s : TokenStream} {c : Cursor} {depth : Nat}
      (hat : s.At c around depth (report.push fault)) (hdepth : D depth) :
      Matches around report D Q (.error fault) (none, s)

section Rules

variable {around : Around} {report : Report Fault} {d : Nat} {D : Nat → Prop}
  {Q : α → β → Span → Prop} {R : γ → δ → Span → Prop} {s : TokenStream} {c : Cursor}
  {p : Parser α} {m : Reading β} {g : α → Parser γ} {f : β → Reading δ}

/-- Two readers after two others, which have put the counter back. -/
lemma Matches.bind (h : Matches around report (· = d) Q (p c) (m s)) (hD : D d)
    (hnext : ∀ a b s' c', p c = .ok (a, c') → s'.At c' around d report → Q a b s'.previousSpan →
      Matches around report D R (g a c') (f b s')) :
    Matches around report D R ((p >>= g) c) ((m >>= f) s) := by
  generalize hline : p c = line at h
  generalize hstream : m s = stream at h
  cases h with
  | ok hat hdepth hQ =>
    subst hdepth
    rw [Parser.bind_of_ok hline, bind_of_some hstream]
    exact hnext _ _ _ _ hline hat hQ
  | error hat hdepth =>
    subst hdepth
    rw [Parser.bind_of_error hline, bind_of_none hstream]
    exact .error hat hD

/-- What holds of the outcomes may be said more loosely. -/
lemma Matches.mono {Q' : α → β → Span → Prop} {D' : Nat → Prop}
    {line : Except Fault (α × Cursor)} {stream : Option β × TokenStream}
    (h : Matches around report D Q line stream) (hQ : ∀ a b last, Q a b last → Q' a b last)
    (hD : ∀ n, D n → D' n) : Matches around report D' Q' line stream := by
  cases h with
  | ok hat hdepth h => exact .ok hat (hD _ hdepth) (hQ _ _ _ h)
  | error hat hdepth => exact .error hat (hD _ hdepth)

variable (hs : s.At c around d report)

include hs

/-- Nothing is left to read. -/
lemma matches_pure {a : α} {b : β} (hD : D d) (h : Q a b s.previousSpan) :
    Matches around report D Q ((pure a : Parser α) c) ((pure b : Reading β) s) :=
  .ok hs hD h

/-- A fault at the token under both cursors. -/
lemma matches_failAt {cause : Kind → Cause} (hD : D d) :
    Matches around report D Q (Parser.failAt cause c) (failAt cause s) :=
  .error (hs.reported cause) hD

/-- The token under both cursors is not what the grammar asks for. -/
lemma matches_unexpected {what : Expectation} (hD : D d) :
    Matches around report D Q (Parser.unexpected what c) (unexpected what s) :=
  matches_failAt hs hD

/-- Both readers look at the token under the cursor. -/
lemma matches_peek {g : Token → Parser γ} {f : Token → Reading δ}
    (h : Matches around report D R (g c.current c) (f c.current s)) :
    Matches around report D R ((Parser.peek >>= g) c) ((peek >>= f) s) := by
  change Matches around report D R (g c.current c) (f s.current s)
  rwa [hs.current_eq]

/-- Only the reader of the stream looks at the token under the cursor. -/
lemma matches_peek_right {line : Except Fault (γ × Cursor)} {f : Token → Reading δ}
    (h : Matches around report D R line (f c.current s)) :
    Matches around report D R line ((peek >>= f) s) := by
  change Matches around report D R line (f s.current s)
  rwa [hs.current_eq]

/-- Both readers have enough steps for what is left of the line. -/
lemma matches_steps {g : Nat → Parser γ} {f : Nat → Reading δ}
    (h : ∀ n k, c.rest.length < n → c.rest.length < k →
      Matches around report D R (g n c) (f k s)) :
    Matches around report D R ((Parser.steps >>= g) c) ((steps >>= f) s) :=
  h _ _ (Nat.lt_succ_self _) (Nat.lt_succ_of_lt hs.length_lt_remaining)

/-- Both readers pass a token. -/
lemma matches_advance {g : Unit → Parser γ} {f : Token → Reading δ} {t : Token}
    {more : List Token} (hrest : c.rest = t :: more)
    (h : s.advanced.At ⟨more, c.stop⟩ around d report → s.advanced.previousSpan = t.span →
      Matches around report D R (g () ⟨more, c.stop⟩) (f t s.advanced)) :
    Matches around report D R ((Parser.advance >>= g) c) ((advance >>= f) s) := by
  obtain ⟨hat, hprevious⟩ := hs.advanced hrest
  have htail : c.rest.tail = more := by rw [hrest]; rfl
  have hcurrent : s.current = t := by
    rw [hs.current_eq, Cursor.current, hrest]
    rfl
  change Matches around report D R (g () ⟨c.rest.tail, c.stop⟩) (f s.current s.advanced)
  rw [htail, hcurrent]
  exact h hat hprevious

/-- Both readers pass the token under the cursor, which does not close the line. -/
lemma matches_advance_of_inside {g : Unit → Parser γ} {f : Token → Reading δ}
    (hinside : c.current.kind.IsInside)
    (h : ∀ more, s.advanced.At ⟨more, c.stop⟩ around d report →
      s.advanced.previousSpan = c.current.span →
      Matches around report D R (g () ⟨more, c.stop⟩) (f c.current s.advanced)) :
    Matches around report D R ((Parser.advance >>= g) c) ((advance >>= f) s) := by
  obtain ⟨more, hrest⟩ := hs.exists_rest hinside
  exact matches_advance hs hrest (h more)

/-- Both readers pass a token of a kind, or leave another one where it is. -/
lemma matches_eat (kind : Kind) (hkind : kind.IsInside) {g : Bool → Parser γ}
    {f : Bool → Reading δ}
    (htrue : ∀ t more, c.rest = t :: more → s.advanced.At ⟨more, c.stop⟩ around d report →
      Matches around report D R (g true ⟨more, c.stop⟩) (f true s.advanced))
    (hfalse : Matches around report D R (g false c) (f false s)) :
    Matches around report D R ((Parser.eat kind >>= g) c) ((eat kind >>= f) s) := by
  have hpeek : peek s = (some c.current, s) := congrArg (some ·, s) hs.current_eq
  by_cases h : c.current.kind = kind
  · obtain ⟨more, hrest⟩ := hs.exists_rest (h ▸ hkind)
    have hline : Parser.eat kind c = .ok (true, ⟨more, c.stop⟩) := by
      have heat : Parser.eat kind ⟨c.current :: more, c.stop⟩ = .ok (true, ⟨more, c.stop⟩) :=
        Parser.eat_of_eq h
      rwa [← hrest] at heat
    have hstream : eat kind s = (some true, s.advanced) := by
      rw [eat, bind_of_some hpeek, if_pos h]
      rfl
    rw [Parser.bind_of_ok hline, bind_of_some hstream]
    exact htrue _ _ hrest (hs.advanced hrest).1
  · have hstream : eat kind s = (some false, s) := by
      rw [eat, bind_of_some hpeek, if_neg h]
      rfl
    rw [Parser.bind_of_ok (Parser.eat_of_ne h), bind_of_some hstream]
    exact hfalse

end Rules

/-! ### Readers that follow -/

/-- With the counter at `d`, the reader of the stream does what the reader of the line does. -/
def Follows (d : Nat) (D : Nat → Prop) (m : Reading β) (p : Parser α) (Q : α → β → Span → Prop) :
    Prop :=
  ∀ s c around report, TokenStream.At s c around d report → Matches around report D Q (p c) (m s)

/-- Both readers come to the same, and the counter is put back. -/
def Mirrors (d : Nat) (m : Reading α) (p : Parser α) : Prop :=
  Follows d (· = d) m p fun a b _ => b = a

/-- Both readers come to the same, wherever the counter is left. -/
def MirrorsBelow (d : Nat) (m : Reading α) (p : Parser α) : Prop :=
  Follows d (fun _ => True) m p fun a b _ => b = a

variable {d : Nat}

/-- A token of a given kind. -/
lemma follows_expect (kind : Kind) (hkind : kind.IsInside) :
    Follows d (· = d) (expect kind) (Parser.expect kind) fun t _ last => last = t.span := by
  intro s c around report hs
  refine matches_peek hs ?_
  by_cases h : c.current.kind = kind
  · rw [if_pos h, if_pos h]
    obtain ⟨more, hrest⟩ := hs.exists_rest (h ▸ hkind)
    rw [← bind_pure advance]
    exact matches_advance hs hrest fun hs' hlast => matches_pure hs' rfl hlast
  · rw [if_neg h, if_neg h]
    exact matches_unexpected hs rfl

/-- A name. -/
lemma mirrors_ident : Mirrors d ident Parser.ident := by
  intro s c around report hs
  refine matches_peek hs ?_
  generalize hkind : c.current.kind = kind
  cases kind with
  | name text =>
    refine matches_advance_of_inside hs (by rw [hkind]; trivial) fun more hs' _ => ?_
    exact matches_pure hs' rfl rfl
  | _ => exact matches_unexpected hs rfl

/-- A segment.  The reader of lines takes its span from the token; in the stream it is the span of
the token before the cursor. -/
lemma follows_segment :
    Follows d (· = d) segment Parser.segment fun a b last => b = a.1 ∧ last = a.2 := by
  intro s c around report hs
  refine matches_peek hs ?_
  generalize hkind : c.current.kind = kind
  cases kind with
  | name text =>
    refine matches_advance_of_inside hs (by rw [hkind]; trivial) fun more hs' hlast => ?_
    exact matches_pure hs' rfl ⟨rfl, hlast⟩
  | template text =>
    refine matches_advance_of_inside hs (by rw [hkind]; trivial) fun more hs' hlast => ?_
    exact matches_pure hs' rfl ⟨rfl, hlast⟩
  | _ => exact matches_unexpected hs rfl

/-- What a reader leaves is not longer than what was there. -/
lemma length_le_of_reads {p : Parser α} {P : α → List Token → Prop} (hp : Parser.Reads p P)
    {c c' : Cursor} {a : α} (hc : c.IsClosed) (h : p c = .ok (a, c')) :
    c'.rest.length ≤ c.rest.length := by
  obtain ⟨used, hrest, -, -⟩ := hp c hc a c' h
  rw [hrest, List.length_append]
  exact Nat.le_add_left _ _

/-- The segments after the first one.  The reader of lines is told the span of the last token, and
the reader of the stream looks back for it. -/
lemma matches_segmentsAfter {n k : Nat} {last : Span} {s : TokenStream} {c : Cursor}
    {around : Around} {report : Report Fault} (hs : s.At c around d report)
    (hlast : s.previousSpan = last) (hn : c.rest.length < n) (hk : c.rest.length < k) :
    Matches around report (· = d) (fun a b last => b = a.1 ∧ last = a.2)
      (Parser.segmentsAfter last n c) (segmentsAfter k s) := by
  induction n generalizing k last s c with
  | zero => exact absurd hn (Nat.not_lt_zero _)
  | succ n ih =>
    obtain ⟨k, rfl⟩ := Nat.exists_eq_succ_of_ne_zero (Nat.ne_zero_of_lt hk)
    refine matches_eat hs .dot trivial (fun t more hrest hs' => ?_)
      (matches_pure hs rfl ⟨rfl, hlast⟩)
    refine (follows_segment _ _ _ _ hs').bind rfl fun a b s₁ c₁ hrun hs₁ hsegment => ?_
    obtain ⟨hb, hlast₁⟩ := hsegment
    have hlength : c₁.rest.length ≤ more.length :=
      length_le_of_reads Parser.reads_segment hs'.closed hrun
    rw [hrest, List.length_cons] at hn hk
    refine (ih hs₁ hlast₁ (by omega) (by omega)).bind rfl fun r more' s₂ c₂ _ hs₂ hmore => ?_
    exact matches_pure hs₂ rfl ⟨by rw [hb, hmore.1], hmore.2⟩

/-- The span of a segment is that of the token that it is read from. -/
lemma span_of_segment {c c' : Cursor} {a : Segment × Span} (hc : c.IsClosed)
    (h : Parser.segment c = .ok (a, c')) : a.2 = c.current.span := by
  obtain ⟨used, hrest, -, t, rfl, hspan⟩ := Parser.reads_segment_span c hc a c' h
  rw [hspan, Cursor.current, hrest]
  rfl

/-- A path. -/
lemma mirrors_path : Mirrors d path Parser.path := by
  intro s c around report hs
  refine matches_peek_right hs ?_
  refine (follows_segment _ _ _ _ hs).bind rfl fun a b s₁ c₁ hrun hs₁ hsegment => ?_
  obtain ⟨hb, hlast⟩ := hsegment
  refine matches_steps hs₁ fun n k hn hk => ?_
  refine (matches_segmentsAfter hs₁ hlast hn hk).bind rfl
    fun r more s₂ c₂ _ hs₂ hmore => ?_
  refine matches_pure hs₂ rfl ?_
  rw [hb, hmore.1, hmore.2, span_of_segment hs.closed hrun]

/-- Values with commas between them. -/
lemma matches_separated {m : Reading α} {p : Parser α} (h : Mirrors d m p)
    {P : α → List Token → Prop} (hp : Parser.Reads p P) {n k : Nat} {s : TokenStream} {c : Cursor}
    {around : Around} {report : Report Fault} (hs : s.At c around d report)
    (hn : c.rest.length < n) (hk : c.rest.length < k) :
    Matches around report (· = d) (fun a b _ => b = a) (Parser.separated p n c)
      (separated m k s) := by
  induction n generalizing k s c with
  | zero => exact absurd hn (Nat.not_lt_zero _)
  | succ n ih =>
    obtain ⟨k, rfl⟩ := Nat.exists_eq_succ_of_ne_zero (Nat.ne_zero_of_lt hk)
    refine (h _ _ _ _ hs).bind rfl fun a b s₁ c₁ hrun hs₁ hb => ?_
    subst hb
    have hlength := length_le_of_reads hp hs.closed hrun
    refine matches_eat hs₁ .comma trivial (fun t more hrest hs₂ => ?_) (matches_pure hs₁ rfl rfl)
    -- the comma makes the rest of the line shorter, so there are steps left
    rw [hrest, List.length_cons] at hlength
    have hrest₂ : more.length < n ∧ more.length < k := by omega
    refine (ih hs₂ hrest₂.1 hrest₂.2).bind rfl fun as bs s₃ c₃ _ hs₃ hbs => ?_
    exact matches_pure hs₃ rfl (by rw [hbs])

/-- Values with commas between them and the parenthesis that closes them. -/
lemma follows_listed {m : Reading α} {p : Parser α} (h : Mirrors d m p)
    {P : α → List Token → Prop} (hp : Parser.Reads p P) :
    Follows d (· = d) (listed m) (Parser.listed p)
      fun a b last => b = a.1 ∧ last = a.2.span := by
  intro s c around report hs
  have hclose : ∀ (as : List α) (s : TokenStream) (c : Cursor), s.At c around d report →
      Matches around report (· = d) (fun a b last => b = a.1 ∧ last = a.2.span)
        ((Parser.expect .closeParen >>= fun close => pure (as, close)) c)
        ((expect .closeParen >>= fun _ => pure as : Reading (List α)) s) := by
    intro as s c hs
    refine (follows_expect .closeParen trivial _ _ _ _ hs).bind rfl
      fun close _ s' c' _ hs' hlast => ?_
    exact matches_pure hs' rfl ⟨rfl, hlast⟩
  refine matches_peek hs ?_
  by_cases hempty : c.current.kind = .closeParen
  · rw [if_pos hempty, if_pos hempty]
    exact hclose [] s c hs
  · rw [if_neg hempty, if_neg hempty]
    refine matches_steps hs fun n k hn hk => ?_
    refine (matches_separated h hp hs hn hk).bind rfl fun as bs s₁ c₁ _ hs₁ hbs => ?_
    rw [hbs]
    exact hclose as s₁ c₁ hs₁

end Reading

end SheetRules
