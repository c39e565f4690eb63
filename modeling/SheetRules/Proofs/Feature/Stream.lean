import Mathlib.Data.List.TakeWhile
import SheetRules.Proofs.Feature.Mirrors
import SheetRules.Token.Scan

/-!
# One cursor over all tokens

Reading a feature with a single cursor over all its tokens comes to the same as reading its lines
one by one (`TokenStream.parse_eq`): the same items, the same faults, and the same span.  So nothing
that is read on one line depends on how the cursor came to it, and the counter of levels, which is
raised and put back along the way, is zero at the start of every line, also after a fault.

One line is read like the line on its own, and what is left of it is skipped
(`TokenStream.At.items_succ`); the run over all lines is by induction on the steps that are left
(`TokenStream.outcome_items`).
-/

namespace SheetRules

/-! ### Lines -/

namespace Line

/-- No line begins at the end of file. -/
lemma split_endOfFile {t : Token} (ht : t.kind = .endOfFile) (last : Span) (rest : List Token) :
    split last (t :: rest) = ([], last) := by
  rw [split]
  simp only [ht]

/-- A newline is passed before a line. -/
lemma split_newline {t : Token} (ht : t.kind = .newline) (last : Span) (rest : List Token) :
    split last (t :: rest) = split t.span rest := by
  rw [split]
  simp only [ht]

/-- A line goes up to the token that closes it. -/
lemma split_line {front : List Token} {t : Token} (hbody : ∀ u ∈ front ++ [t], isInside u = true)
    {stop : Token} (hstop : isInside stop = false) (last : Span) (after : List Token) :
    split last (front ++ [t] ++ stop :: after) =
      (⟨last, front ++ [t], stop⟩ :: (split t.span (stop :: after)).1,
        (split t.span (stop :: after)).2) := by
  -- the first token of the line is split off, as in the definition
  obtain ⟨first, more, hfirst⟩ := List.exists_cons_of_ne_nil (List.concat_ne_nil t front)
  have hmore : ∀ u ∈ more, isInside u = true := by
    intro u hu
    refine hbody u ?_
    rw [hfirst]
    exact List.mem_cons_of_mem _ hu
  have hinside : isInside first = true := by
    refine hbody first ?_
    rw [hfirst]
    exact List.mem_cons_self
  obtain ⟨hnewline, hend⟩ := isInside_eq_true.mp hinside
  have htake : (more ++ stop :: after).takeWhile isInside = more := by
    rw [List.takeWhile_append_of_pos hmore, List.takeWhile_cons_of_neg (by simp [hstop]),
      List.append_nil]
  have hdrop : (more ++ stop :: after).dropWhile isInside = stop :: after := by
    rw [List.dropWhile_append_of_pos hmore, List.dropWhile_cons_of_neg (by simp [hstop])]
  have hlast : (first :: more).getLastD first = t := by
    rw [← hfirst, List.getLastD_concat]
  rw [hfirst, List.cons_append, split]
  split
  · contradiction
  · contradiction
  · simp only [htake, hdrop, hlast, List.headD_cons]

end Line

namespace TokenStream

/-- The end of file is still ahead. -/
def HasEnd (s : TokenStream) : Prop :=
  ∃ t ∈ s.tokens.drop s.position, t.kind = .endOfFile

/-- The lines from the cursor on, and the span of the last token before the end of file. -/
def lines (s : TokenStream) : List Line × Span :=
  Line.split s.previousSpan (s.tokens.drop s.position)

/-- What reading these lines one by one comes to. -/
def byLines (s : TokenStream) : Parse :=
  Parse.lines s.lines.2 s.report s.lines.1

/-- The second cursor is further on, and there are the same lines after it. -/
structure SameLines (s next : TokenStream) : Prop where
  lines : next.lines = s.lines
  depth : next.depth = s.depth
  report : next.report = s.report
  remaining : next.remaining ≤ s.remaining
  hasEnd : next.HasEnd

/-- From one cursor to another and on to a third one. -/
lemma SameLines.trans {s next further : TokenStream} (h : s.SameLines next)
    (h' : next.SameLines further) : s.SameLines further where
  lines := h'.lines.trans h.lines
  depth := h'.depth.trans h.depth
  report := h'.report.trans h.report
  remaining := Nat.le_trans h'.remaining h.remaining
  hasEnd := h'.hasEnd

/-- Where the end of file is ahead, there is a token under the cursor. -/
lemma HasEnd.exists_drop {s : TokenStream} (h : s.HasEnd) :
    ∃ rest, s.tokens.drop s.position = s.current :: rest := by
  obtain ⟨t, ht, -⟩ := h
  cases hdrop : s.tokens.drop s.position with
  | nil =>
    rw [hdrop] at ht
    cases ht
  | cons u rest => exact ⟨rest, by rw [current_of_drop hdrop]⟩

/-- A newline under the cursor is passed. -/
lemma sameLines_advanced {s : TokenStream} (hend : s.HasEnd) (h : s.current.kind = .newline) :
    s.SameLines s.advanced := by
  obtain ⟨rest, hdrop⟩ := hend.exists_drop
  obtain ⟨hadvanced, hrest, hprevious⟩ := advanced_of_drop hdrop
  refine ⟨?_, by rw [hadvanced], by rw [hadvanced], ?_, ?_⟩
  · rw [lines, lines, hrest, hprevious, hdrop, Line.split_newline h]
  · rw [remaining_eq hrest, remaining_eq hdrop]
    exact Nat.le_succ _
  · obtain ⟨t, ht, hkind⟩ := hend
    rw [hdrop] at ht
    refine ⟨t, ?_, hkind⟩
    rw [hrest]
    refine (List.mem_cons.mp ht).resolve_left ?_
    rintro rfl
    rw [h] at hkind
    cases hkind

/-- Skipping newlines leaves the lines as they are, and then there is none under the cursor. -/
lemma skipNewlines_spec {fuel : Nat} {s : TokenStream} (hend : s.HasEnd)
    (hfuel : s.remaining ≤ fuel) :
    s.SameLines (skipNewlines fuel s) ∧ (skipNewlines fuel s).current.kind ≠ .newline := by
  induction fuel generalizing s with
  | zero =>
    obtain ⟨rest, hdrop⟩ := hend.exists_drop
    rw [remaining_eq hdrop] at hfuel
    exact absurd hfuel (Nat.not_succ_le_zero _)
  | succ fuel ih =>
    rw [skipNewlines]
    by_cases h : s.current.kind = .newline
    · rw [if_pos h]
      have hfirst := sameLines_advanced hend h
      obtain ⟨rest, hdrop⟩ := hend.exists_drop
      have hfuel' : s.advanced.remaining ≤ fuel := by
        rw [remaining_eq (advanced_of_drop hdrop).2.1]
        rw [remaining_eq hdrop, List.length_cons] at hfuel
        omega
      obtain ⟨hmore, hcurrent⟩ := ih hfirst.hasEnd hfuel'
      exact ⟨hfirst.trans hmore, hcurrent⟩
    · rw [if_neg h]
      exact ⟨⟨rfl, rfl, rfl, Nat.le_refl _, hend⟩, h⟩

/-- Skipping a line goes to the token that closes it. -/
lemma At.skipLine {fuel : Nat} {s : TokenStream} {c : Cursor} {around : Around} {depth : Nat}
    {report : Report Fault} (hs : s.At c around depth report) (hfuel : c.rest.length ≤ fuel) :
    (skipLine fuel s).At ⟨[], c.stop⟩ around depth report := by
  induction fuel generalizing s c with
  | zero =>
    obtain ⟨rest, stop⟩ := c
    obtain rfl := List.eq_nil_of_length_eq_zero (Nat.le_zero.mp hfuel)
    exact hs
  | succ fuel ih =>
    rw [TokenStream.skipLine, hs.current_eq]
    obtain ⟨rest, stop⟩ := c
    cases rest with
    | nil =>
      have hclosed : Line.isInside (Cursor.mk [] stop).current = false := hs.closed
      rw [hclosed, if_neg Bool.false_ne_true]
      exact hs
    | cons t more =>
      have hinside : Line.isInside (Cursor.mk (t :: more) stop).current = true :=
        hs.inside t List.mem_cons_self
      rw [if_pos hinside]
      have hmore : s.advanced.At ⟨more, stop⟩ around depth report := (hs.advanced rfl).1
      have hskipped := ih hmore (Nat.le_of_succ_le_succ hfuel)
      exact hskipped

/-- Where a line has been passed, the token before the cursor is the last one of the line. -/
lemma At.previousSpan_eq {s next : TokenStream} {front : List Token} {t stop : Token}
    {around : Around} {depth depth' : Nat} {report report' : Report Fault}
    (hs : s.At ⟨front ++ [t], stop⟩ around depth report)
    (hnext : next.At ⟨[], stop⟩ around depth' report') : next.previousSpan = t.span := by
  -- both cursors are in the same tokens, so they are told apart by what is left
  have hposition : next.position = s.position + front.length + 1 := by
    have hleft := remaining_eq hs.rest
    have hleft' := remaining_eq hnext.rest
    rw [remaining, hs.tokens] at hleft
    rw [remaining, hnext.tokens] at hleft'
    simp only [List.length_append, List.length_cons, List.length_nil] at hleft hleft'
    omega
  have hget : s.tokens[s.position + front.length]? = some t := by
    rw [getElem?_of_drop hs.rest]
    simp
  rw [previousSpan, hposition, hnext.tokens, ← hs.tokens]
  dsimp only
  rw [hget]
  rfl

/-- Where the cursor stands on a token that does not close a line, there is a line. -/
lemma HasEnd.exists_line {s : TokenStream} (hend : s.HasEnd)
    (hinside : Line.isInside s.current = true) :
    ∃ front t stop after,
      s.At ⟨front ++ [t], stop⟩ ⟨s.tokens, stop, after⟩ s.depth s.report := by
  obtain ⟨rest, hdrop⟩ := hend.exists_drop
  have hbody : (s.current :: rest).takeWhile Line.isInside ≠ [] := by
    rw [List.takeWhile_cons_of_pos hinside]
    exact List.cons_ne_nil _ _
  obtain ⟨front, t, hfront⟩ := List.eq_nil_or_concat' _ |>.resolve_left hbody
  have hafter : (s.current :: rest).dropWhile Line.isInside ≠ [] := by
    intro hnil
    obtain ⟨u, hu, hkind⟩ := hend
    rw [hdrop] at hu
    have hin := List.dropWhile_eq_nil_iff.mp hnil u hu
    exact (Line.isInside_eq_true.mp hin).2 hkind
  obtain ⟨stop, after, hstop⟩ := List.exists_cons_of_ne_nil hafter
  refine ⟨front, t, stop, after, rfl, ?_, ?_, ?_, rfl, rfl, rfl⟩
  · rw [← hfront, ← hstop, hdrop, List.takeWhile_append_dropWhile]
  · rw [← hfront]
    exact fun u hu => List.mem_takeWhile_imp hu
  · have hhead : stop ∈ ((s.current :: rest).dropWhile Line.isInside).head? := by
      rw [hstop]
      rfl
    exact List.not_of_mem_head?_dropWhile hhead

variable {s : TokenStream} {line : List Token} {stop : Token} {around : Around}
  {report : Report Fault}

/-- From the token that closes a line, newlines are skipped to the next line. -/
def nextLine (s : TokenStream) : TokenStream :=
  skipNewlines s.remaining s

/-- What an item leaves of its line is skipped. -/
lemma At.synchronize {c : Cursor} {depth : Nat} (hs : s.At c around depth report) :
    ∃ stopped : TokenStream, stopped.At ⟨[], around.stop⟩ around depth report ∧
      s.synchronize = stopped.nextLine := by
  refine ⟨_, ?_, rfl⟩
  rw [← hs.stop]
  exact hs.skipLine (Nat.le_of_lt hs.length_lt_remaining)

/-- An item that takes up its line is followed by the next line. -/
lemma At.endLine_of_nil {depth : Nat} (hs : s.At ⟨[], stop⟩ around depth report) :
    s.endLine = (true, s.nextLine) := by
  have hcurrent : s.current = stop := hs.current_eq
  rcases Line.isInside_eq_false.mp hs.closed with hnewline | hend
  · have hnot : s.atEnd ≠ true := by
      rw [atEnd, hcurrent, hnewline]
      decide
    rw [endLine, if_neg hnot, if_pos (by rw [hcurrent, hnewline]), nextLine]
  · have hat : s.atEnd = true := by
      rw [atEnd, hcurrent, hend]
      decide
    have hskip : ∀ fuel, skipNewlines fuel s = s := by
      intro fuel
      cases fuel with
      | zero => rfl
      | succ fuel => exact if_neg (by rw [hcurrent, hend]; decide)
    rw [endLine, if_pos hat, nextLine, hskip]

/-- On a line the cursor is not at the end of file. -/
lemma At.not_atEnd {t : Token} {more : List Token} {depth : Nat}
    (hs : s.At ⟨t :: more, stop⟩ around depth report) : ¬ s.atEnd := by
  have hcurrent : s.current = t := hs.current_eq
  rw [atEnd, hcurrent, decide_eq_true_iff]
  exact (Line.isInside_eq_true.mp (hs.inside t List.mem_cons_self)).2

/-- An item that does not take up its line is a fault. -/
lemma At.endLine_of_cons {t : Token} {more : List Token} {depth : Nat}
    (hs : s.At ⟨t :: more, stop⟩ around depth report) :
    s.endLine = (false, s.reported (.expected .endOfLine)) := by
  have hnewline : s.current.kind ≠ .newline := by
    rw [hs.current_eq]
    exact (Line.isInside_eq_true.mp (hs.inside t List.mem_cons_self)).1
  rw [endLine, if_neg hs.not_atEnd, if_neg hnewline]

/-- One line is read: it gives the item or the fault that it gives on its own, and reading goes on
from the token that closes the line, with the counter at zero. -/
lemma At.items_succ (hs : s.At ⟨line, stop⟩ around 0 report) (hne : line ≠ []) (before : Span)
    (hfull : ¬ report.isFull) (fuel : Nat) :
    (∃ item stopped, Line.parse ⟨before, line, stop⟩ = .ok item ∧
      TokenStream.At stopped ⟨[], stop⟩ around 0 report ∧
      items (fuel + 1) s = (item :: (items fuel stopped.nextLine).1,
        (items fuel stopped.nextLine).2)) ∨
    ∃ fault stopped, Line.parse ⟨before, line, stop⟩ = .error fault ∧
      TokenStream.At stopped ⟨[], stop⟩ around 0 (report.push fault) ∧
      items (fuel + 1) s = items fuel stopped.nextLine := by
  obtain ⟨t, more, rfl⟩ := List.exists_cons_of_ne_nil hne
  have hroom : ¬ s.report.isFull := by rwa [hs.report]
  rw [items, if_neg hs.not_atEnd, if_neg hroom, Line.parse, Parser.wholeItem]
  -- on the line itself both ways to read come to the same
  have hboth := Reading.mirrors_item s ⟨t :: more, stop⟩ around report hs
  generalize hline : Parser.item ⟨t :: more, stop⟩ = outcome at hboth
  generalize hstream : Reading.item s = stream at hboth
  have hstop : stop = around.stop := hs.stop
  cases hboth with
  | error hat hdepth =>
    subst hdepth
    obtain ⟨stopped, hstopped, hnext⟩ := hat.synchronize
    rw [← hstop] at hstopped
    rw [Parser.bind_of_error hline]
    exact .inr ⟨_, stopped, rfl, hstopped, congrArg (items fuel) hnext⟩
  | @ok _ value after c _ hat hdepth hitem =>
    subst hdepth hitem
    rw [Parser.bind_of_ok hline]
    obtain ⟨rest, closing⟩ := c
    obtain rfl : closing = stop := hat.stop.trans hstop.symm
    cases rest with
    | nil =>
      -- the item takes up the line
      refine .inl ⟨value, after, rfl, hat, ?_⟩
      dsimp only
      rw [hat.endLine_of_nil]
    | cons u rest =>
      obtain ⟨stopped, hstopped, hnext⟩ := (hat.reported (.expected .endOfLine)).synchronize
      rw [← hstop] at hstopped
      refine .inr ⟨_, stopped, rfl, hstopped, ?_⟩
      dsimp only
      rw [hat.endLine_of_cons, ← hnext]

/-- What reading has come to. -/
def outcome (r : List Item × TokenStream) : Parse :=
  ⟨r.1, r.2.previousSpan, r.2.report⟩

/-- Where a line has been read, the next line has the lines that come after it. -/
lemma At.nextLine_spec {next : TokenStream} {front : List Token} {t : Token}
    {report' : Report Fault} (hs : s.At ⟨front ++ [t], stop⟩ around 0 report) (hend : s.HasEnd)
    (hnext : next.At ⟨[], stop⟩ around 0 report') :
    next.SameLines next.nextLine ∧ next.nextLine.current.kind ≠ .newline ∧
      next.lines = Line.split t.span (stop :: around.after) ∧ next.remaining < s.remaining := by
  have hdrop : next.tokens.drop next.position = stop :: around.after := hnext.rest
  have hhasEnd : next.HasEnd := by
    obtain ⟨u, hu, hkind⟩ := hend
    refine ⟨u, ?_, hkind⟩
    rw [hs.rest] at hu
    rw [hdrop]
    exact (List.mem_append.mp hu).resolve_left fun hin =>
      (Line.isInside_eq_true.mp (hs.inside u hin)).2 hkind
  obtain ⟨hsame, hcurrent⟩ := skipNewlines_spec hhasEnd (Nat.le_refl _)
  refine ⟨hsame, hcurrent, ?_, ?_⟩
  · rw [lines, hdrop, hs.previousSpan_eq hnext]
  · rw [remaining_eq hs.rest, remaining_eq hdrop]
    simp only [List.length_append, List.length_cons]
    omega

/-- Reading with one cursor comes to what reading line by line comes to. -/
theorem outcome_items {fuel : Nat} (hend : s.HasEnd) (hfuel : s.remaining < fuel)
    (hdepth : s.depth = 0) (hcurrent : s.current.kind ≠ .newline) :
    outcome (items fuel s) = s.byLines := by
  induction fuel generalizing s with
  | zero => exact absurd hfuel (Nat.not_lt_zero _)
  | succ fuel ih =>
    obtain ⟨rest, hdrop⟩ := hend.exists_drop
    by_cases heof : s.current.kind = .endOfFile
    · have hlines : s.lines = ([], s.previousSpan) := by
        rw [lines, hdrop, Line.split_endOfFile heof]
      have hat : s.atEnd := decide_eq_true heof
      rw [byLines, hlines, items, if_pos hat]
      rfl
    · have hinside : Line.isInside s.current = true :=
        Line.isInside_eq_true.mpr ⟨hcurrent, heof⟩
      obtain ⟨front, t, stop, after, hs⟩ := hend.exists_line hinside
      rw [hdepth] at hs
      have hlines : s.lines = (⟨s.previousSpan, front ++ [t], stop⟩ ::
          (Line.split t.span (stop :: after)).1, (Line.split t.span (stop :: after)).2) := by
        rw [lines, hs.rest, Line.split_line hs.inside hs.closed]
      -- the lines after this one, read from where it is closed
      have hafter : ∀ (report : Report Fault) (stopped : TokenStream),
          stopped.At ⟨[], stop⟩ ⟨s.tokens, stop, after⟩ 0 report →
          outcome (items fuel stopped.nextLine) = Parse.lines
            (Line.split t.span (stop :: after)).2 report (Line.split t.span (stop :: after)).1 := by
        intro report stopped hstopped
        obtain ⟨hsame, hkind, hnext, hlt⟩ := hs.nextLine_spec hend hstopped
        have hleft : stopped.nextLine.remaining < fuel := by
          have := hsame.remaining
          omega
        rw [ih hsame.hasEnd hleft (hsame.depth.trans hstopped.depth) hkind, byLines, hsame.lines,
          hsame.report, hnext, hstopped.report]
      rw [byLines, hlines, Parse.lines]
      by_cases hfull : s.report.isFull
      · have hnot : ¬ s.atEnd := fun hat => heof (of_decide_eq_true hat)
        rw [if_pos hfull, items, if_neg hnot, if_pos hfull]
        rfl
      · rw [if_neg hfull]
        rcases hs.items_succ (List.concat_ne_nil t front) s.previousSpan hfull fuel with
          ⟨item, stopped, hparse, hstopped, hrun⟩ | ⟨fault, stopped, hparse, hstopped, hrun⟩
        · rw [hparse, hrun]
          exact congrArg (fun more : Parse => { more with items := item :: more.items })
            (hafter _ stopped hstopped)
        · rw [hparse, hrun]
          exact hafter _ stopped hstopped

/-- A feature that is read with one cursor over all its tokens is the feature that is read line by
line: it has the same items, the same span and the same report. -/
theorem parse_eq (tokens : List Token) (h : tokens = [] ∨ ∃ t ∈ tokens, t.kind = .endOfFile) :
    parse tokens = Feature.parse tokens := by
  rcases h with rfl | hend
  · rw [Feature.parse, Line.split]
    rfl
  have hend : (start tokens).HasEnd := hend
  obtain ⟨hsame, hcurrent⟩ := skipNewlines_spec hend (Nat.le_refl _)
  generalize hfirst : skipNewlines (start tokens).remaining (start tokens) = first at *
  have hleft : first.remaining < tokens.length + 1 := Nat.lt_succ_of_le hsame.remaining
  have hrun : outcome (items (tokens.length + 1) first) =
      Parse.lines (start tokens).lines.2 .empty (start tokens).lines.1 := by
    rw [outcome_items hsame.hasEnd hleft hsame.depth hcurrent, byLines, hsame.lines, hsame.report]
    rfl
  have hhead : (start tokens).current = tokens.headD Line.noToken := by
    obtain ⟨rest, hdrop⟩ := hend.exists_drop
    have htokens : tokens = (start tokens).current :: rest := hdrop
    generalize (start tokens).current = t at htokens
    rw [htokens]
    rfl
  calc parse tokens
      = (⟨(outcome (items (tokens.length + 1) first)).items,
          (tokens.headD Line.noToken).span.merge
            (outcome (items (tokens.length + 1) first)).finish⟩,
          (outcome (items (tokens.length + 1) first)).report) := by
        rw [← hhead, ← hfirst]
        rfl
    _ = Feature.parse tokens := by
        rw [hrun]
        rfl

end TokenStream

/-- A text that is scanned ends with the end of file. -/
lemma Scan.exists_endOfFile (place : Place) (depth : Nat) (report : Report Fault)
    (text : List Char) : ∃ t ∈ (scanFrom place depth report text).tokens, t.kind = .endOfFile := by
  fun_induction scanFrom place depth report text with
  | case1 => exact ⟨_, List.mem_singleton_self _, rfl⟩
  | case2 => exact ⟨_, List.mem_append_right _ (List.mem_singleton_self _), rfl⟩
  | case3 =>
    rename_i ih
    obtain ⟨t, ht, hkind⟩ := ih
    exact ⟨t, List.mem_append_right _ ht, hkind⟩

/-- Whatever the text of a source, both ways to read its tokens come to the same. -/
theorem Source.parse_scan (source : Source) :
    TokenStream.parse source.scan.tokens = Feature.parse source.scan.tokens :=
  TokenStream.parse_eq _ (.inr (Scan.exists_endOfFile _ _ _ _))

end SheetRules
