import Mathlib.Tactic.Common
import SheetRules.Feature.Parser
import SheetRules.Proofs.Diagnostic.Report
import SheetRules.Proofs.Text.Cuts

/-!
# A feature is read line by line

The tokens of a feature are cut into lines, and each line gives an item or a fault, whatever the
other lines are.  While the report is not full, the items of a feature are therefore the items of
its lines, and its faults are the faults of its lines.  `Line.bodies` is what the lines are made of:
the runs of tokens between those that close a line.
-/

namespace SheetRules

namespace Line

/-! ### Cutting tokens into lines -/

/-- A token is inside a line unless it is a newline or the end of file. -/
lemma isInside_eq_true {t : Token} :
    isInside t = true ↔ t.kind ≠ .newline ∧ t.kind ≠ .endOfFile := by
  unfold isInside
  split <;> simp_all

/-- The tokens that close a line are newlines and the end of file. -/
lemma isInside_eq_false {t : Token} :
    isInside t = false ↔ t.kind = .newline ∨ t.kind = .endOfFile := by
  rw [← Bool.not_eq_true, isInside_eq_true]
  tauto

/-- The tokens of each line. -/
def bodies (tokens : List Token) : List (List Token) :=
  (split (.point .start) tokens).1.map Line.tokens

/-- The span before the first line does not change the tokens of the lines. -/
lemma map_tokens_split (last : Span) (tokens : List Token) :
    (split last tokens).1.map Line.tokens = bodies tokens := by
  have haux : ∀ last last' : Span,
      (split last tokens).1.map Line.tokens = (split last' tokens).1.map Line.tokens := by
    intro last last'
    cases tokens with
    | nil => simp [split]
    | cons t rest =>
      rw [split, split]
      split <;> simp
  exact haux last _

/-- Without tokens there are no lines. -/
@[simp] lemma bodies_nil : bodies [] = [] := by
  simp [bodies, split]

/-- At the end of file there are no more lines. -/
lemma bodies_endOfFile {t : Token} (ht : t.kind = .endOfFile) (rest : List Token) :
    bodies (t :: rest) = [] := by
  rw [bodies, split]
  simp [ht]

/-- A newline in front of a line is passed. -/
lemma bodies_newline {t : Token} (ht : t.kind = .newline) (rest : List Token) :
    bodies (t :: rest) = bodies rest := by
  rw [bodies, split]
  simp only [ht]
  exact map_tokens_split _ _

/-- A line goes on as long as no token closes it. -/
lemma bodies_inside {t : Token} (ht : isInside t = true) (rest : List Token) :
    bodies (t :: rest) = (t :: rest.takeWhile isInside) :: bodies (rest.dropWhile isInside) := by
  obtain ⟨hnewline, hend⟩ := isInside_eq_true.mp ht
  rw [bodies, split]
  split
  · contradiction
  · contradiction
  · rw [List.map_cons, map_tokens_split]

/-- A run of tokens and the newline after it are a line. -/
lemma bodies_append_newline {body : List Token} (hne : body ≠ [])
    (hbody : ∀ t ∈ body, isInside t = true) {t : Token} (ht : t.kind = .newline)
    (rest : List Token) : bodies (body ++ t :: rest) = body :: bodies rest := by
  obtain ⟨first, more, rfl⟩ := List.exists_cons_of_ne_nil hne
  obtain ⟨hfirst, hmore⟩ := List.forall_mem_cons.mp hbody
  have hstop : isInside t = false := isInside_eq_false.mpr (.inl ht)
  rw [List.cons_append, bodies_inside hfirst, List.takeWhile_append_of_pos hmore,
    List.dropWhile_append_of_pos hmore, List.takeWhile_cons_of_neg (by simp [hstop]),
    List.dropWhile_cons_of_neg (by simp [hstop]), bodies_newline ht, List.append_nil]

/-- Induction along the lines of tokens without an end of file. -/
@[elab_as_elim]
lemma induction_on_lines {motive : List Token → Prop} (nil : motive [])
    (newline : ∀ t rest, t.kind = .newline → motive rest → motive (t :: rest))
    (line : ∀ t rest, isInside t = true → (∀ u ∈ rest, u.kind ≠ .endOfFile) →
      motive (rest.dropWhile isInside) → motive (t :: rest))
    (tokens : List Token) (h : ∀ t ∈ tokens, t.kind ≠ .endOfFile) : motive tokens := by
  induction hlength : tokens.length using Nat.strongRecOn generalizing tokens with
  | _ n ih =>
    subst hlength
    cases tokens with
    | nil => exact nil
    | cons t rest =>
      obtain ⟨ht, hrest⟩ := List.forall_mem_cons.mp h
      by_cases hnewline : t.kind = .newline
      · exact newline t rest hnewline (ih rest.length (by simp) rest hrest rfl)
      · have hshorter : (rest.dropWhile isInside).length < (t :: rest).length :=
          Nat.lt_succ_of_le (List.dropWhile_suffix _).length_le
        have hafter : ∀ u ∈ rest.dropWhile isInside, u.kind ≠ .endOfFile :=
          fun u hu => hrest u ((List.dropWhile_suffix _).subset hu)
        exact line t rest (isInside_eq_true.mpr ⟨hnewline, ht⟩) hrest
          (ih _ hshorter _ hafter rfl)

/-- A token that closes a line parts the lines before it from those after it. -/
lemma bodies_append {t : Token} (ht : isInside t = false) (front back : List Token)
    (hfront : ∀ u ∈ front, u.kind ≠ .endOfFile) :
    bodies (front ++ t :: back) = bodies front ++ bodies (t :: back) := by
  refine induction_on_lines ?nil ?newline ?line front hfront
  case nil => simp
  case newline =>
    intro u rest hu ih
    rw [List.cons_append, bodies_newline hu, bodies_newline hu, ih]
  case line =>
    intro u rest hu _ ih
    rw [List.cons_append, bodies_inside hu, bodies_inside hu, List.takeWhile_append_stop ht,
      List.dropWhile_append_stop ht, List.cons_append, ih]

/-- The end of file after the last line adds no line. -/
lemma bodies_append_endOfFile {last : Token} (hlast : last.kind = .endOfFile) {tokens : List Token}
    (htokens : ∀ t ∈ tokens, t.kind ≠ .endOfFile) : bodies (tokens ++ [last]) = bodies tokens := by
  rw [bodies_append (isInside_eq_false.mpr (.inr hlast)) tokens [] htokens, bodies_endOfFile hlast,
    List.append_nil]

/-- A line is closed by a newline or by the end of file. -/
lemma isInside_stop_of_mem_split {last : Span} {tokens : List Token} {line : Line}
    (hline : line ∈ (split last tokens).1) : isInside line.stop = false := by
  fun_induction split last tokens with
  | case1 => exact absurd hline List.not_mem_nil
  | case2 => exact absurd hline List.not_mem_nil
  | case3 last t rest hkind ih => exact ih hline
  | case4 last t rest tokens after final lines finish heq hend hnewline ih =>
    rcases List.mem_cons.mp hline with rfl | hline
    · cases hafter : after with
      | nil => rfl
      | cons u more =>
        have hhead : u ∈ (rest.dropWhile isInside).head? := by
          rw [show rest.dropWhile isInside = u :: more from hafter]
          rfl
        exact List.not_of_mem_head?_dropWhile hhead
    · rw [heq] at ih
      exact ih hline

/-! ### Reading lines -/

/-- The item that is read from a line, if there is one. -/
def item? (line : Line) : Option Item := line.parse.toOption

/-- The fault that keeps a line from being read, if there is one. -/
def fault? (line : Line) : Option Fault :=
  match line.parse with
  | .ok _ => none
  | .error fault => some fault

end Line

namespace Parse

variable {finish : Span} {report : Report Fault} {lines : List Line}

/-- While there is room in the report, every line is read. -/
lemma lines_eq_of_room
    (hroom : report.total + (lines.filterMap Line.fault?).length < Report.limit) :
    Parse.lines finish report lines =
      ⟨lines.filterMap Line.item?, finish, report.pushAll (lines.filterMap Line.fault?)⟩ := by
  induction lines generalizing report with
  | nil => rfl
  | cons line rest ih =>
    have hopen : report.isFull = false := Report.isFull_eq_false.mpr (by omega)
    cases hline : line.parse with
    | ok i =>
      have hitem : line.item? = some i := by simp [Line.item?, hline, Except.toOption]
      have hfault : line.fault? = none := by simp [Line.fault?, hline]
      rw [List.filterMap_cons_none hfault] at hroom ⊢
      rw [List.filterMap_cons_some hitem]
      simp [Parse.lines, hopen, hline, ih hroom]
    | error fault =>
      have hitem : line.item? = none := by simp [Line.item?, hline, Except.toOption]
      have hfault : line.fault? = some fault := by simp [Line.fault?, hline]
      rw [List.filterMap_cons_some hfault] at hroom ⊢
      rw [List.filterMap_cons_none hitem, Report.pushAll_cons]
      rw [List.length_cons] at hroom
      have hrest : (report.push fault).total + (rest.filterMap Line.fault?).length <
          Report.limit := by
        rw [Report.push_total]
        omega
      simp [Parse.lines, hopen, hline, ih hrest]

/-- An item is read from one of the lines. -/
lemma exists_line {i : Item} (hi : i ∈ (Parse.lines finish report lines).items) :
    ∃ line ∈ lines, line.parse = .ok i := by
  fun_induction Parse.lines finish report lines with
  | case1 => exact absurd hi List.not_mem_nil
  | case2 => exact absurd hi List.not_mem_nil
  | case3 report line rest hroom item hitem more ih =>
    rcases List.mem_cons.mp hi with rfl | hi
    · exact ⟨line, List.mem_cons_self .., hitem⟩
    · obtain ⟨other, hother, hparse⟩ := ih hi
      exact ⟨other, List.mem_cons_of_mem _ hother, hparse⟩
  | case4 report line rest hroom fault hfault ih =>
    obtain ⟨other, hother, hparse⟩ := ih hi
    exact ⟨other, List.mem_cons_of_mem _ hother, hparse⟩

/-- A fault that is reported was reported before, or it is the fault of a line. -/
lemma exists_line_of_fault {fault : Fault}
    (h : fault ∈ (Parse.lines finish report lines).report.entries) :
    fault ∈ report.entries ∨ ∃ line ∈ lines, line.parse = .error fault := by
  fun_induction Parse.lines finish report lines with
  | case1 => exact .inl h
  | case2 => exact .inl h
  | case3 report line rest _ item hline more ih =>
    exact (ih h).imp_right fun ⟨other, hother, hparse⟩ =>
      ⟨other, List.mem_cons_of_mem _ hother, hparse⟩
  | case4 report line rest _ own hline ih =>
    obtain hmem | ⟨other, hother, hparse⟩ := ih h
    · obtain hmem | rfl := Report.mem_entries_push hmem
      · exact .inl hmem
      · exact .inr ⟨line, List.mem_cons_self .., hline⟩
    · exact .inr ⟨other, List.mem_cons_of_mem _ hother, hparse⟩

/-- A report that is not full in the end had room for the faults of all lines. -/
lemma room_of_total_lt (h : (Parse.lines finish report lines).report.total < Report.limit) :
    report.total + (lines.filterMap Line.fault?).length < Report.limit := by
  fun_induction Parse.lines finish report lines with
  | case1 report => simpa using h
  | case2 report line rest hfull =>
    have hopen := Report.isFull_eq_false.mpr h
    rw [hfull] at hopen
    cases hopen
  | case3 report line rest _ item hline more ih =>
    have hfault : line.fault? = none := by simp [Line.fault?, hline]
    rw [List.filterMap_cons_none hfault]
    exact ih h
  | case4 report line rest _ fault hline ih =>
    have hfault : line.fault? = some fault := by simp [Line.fault?, hline]
    rw [List.filterMap_cons_some hfault, List.length_cons]
    have hrest := ih h
    rw [Report.push_total] at hrest
    omega

end Parse

namespace Feature

/-- The lines of a list of tokens. -/
def linesOf (tokens : List Token) : List Line :=
  (Line.split (.point .start) tokens).1

/-- The faults of the lines of a list of tokens. -/
def faultsOf (tokens : List Token) : List Fault :=
  (linesOf tokens).filterMap Line.fault?

variable {tokens : List Token}

/-- A feature that leaves room in the report has the items of its lines. -/
lemma items_parse (hroom : (faultsOf tokens).length < Report.limit) :
    (parse tokens).1.items = (linesOf tokens).filterMap Line.item? :=
  congrArg Parse.items (Parse.lines_eq_of_room (by rwa [Report.total_empty, Nat.zero_add]))

/-- A feature that leaves room in the report has the faults of its lines. -/
lemma report_parse (hroom : (faultsOf tokens).length < Report.limit) :
    (parse tokens).2 = Report.empty.pushAll (faultsOf tokens) :=
  congrArg Parse.report (Parse.lines_eq_of_room (by rwa [Report.total_empty, Nat.zero_add]))

/-- A feature that leaves room in the report has the faults of its lines as entries. -/
lemma entries_parse (hroom : (faultsOf tokens).length < Report.limit) :
    (parse tokens).2.entries = faultsOf tokens := by
  rw [report_parse hroom, Report.entries_pushAll_empty hroom]

/-- A report of a feature that is not full had room for the faults of all lines. -/
lemma length_faultsOf_lt (h : (parse tokens).2.total < Report.limit) :
    (faultsOf tokens).length < Report.limit := by
  have hroom := Parse.room_of_total_lt h
  rwa [Report.total_empty, Nat.zero_add] at hroom

end Feature

end SheetRules
