import SheetRules.Proofs.Compile.Outcomes
import SheetRules.Proofs.Feature.Lines
import SheetRules.Proofs.Token.Pieces

/-!
# How far the stages go

Scanning, reading and compiling each fill a report.  Reading asks before every line whether there is
room, and compiling before every item.  So both report the first faults, as many as can be kept, and
count no others (`Parse.report_lines`, `report_compileItems`).

Scanning asks after a token and after an unexpected character, but not after a dollar sign that
begins no template.  The pieces that it comes to are `Piece.reached`.  It counts more than it keeps
exactly if the last place in the report is taken by such a dollar sign and the next piece that is
not blank is reported as well (`Source.RunsOver`).
-/

namespace SheetRules

namespace Report

variable {ε : Type}

/-- The report keeps the first of the faults, and no others were counted. -/
structure HoldsFirst (report : Report ε) (faults : List ε) : Prop where
  entries : report.entries = faults.take limit
  total : report.total = report.entries.length
  total_le : report.total ≤ limit

/-- Of what is added to a report the first entries are kept. -/
lemma entries_pushAll_eq_take {report : Report ε} (h : report.entries.length ≤ limit)
    (entries : List ε) :
    (report.pushAll entries).entries = (report.entries ++ entries).take limit := by
  induction entries generalizing report with
  | nil => rw [pushAll_nil, List.append_nil, List.take_of_length_le h]
  | cons entry rest ih =>
    rw [pushAll_cons]
    by_cases hroom : report.entries.length < limit
    · have hkept : (report.push entry).entries = report.entries ++ [entry] := if_pos hroom
      have hlength : (report.push entry).entries.length ≤ limit := by
        rw [hkept, List.length_append, List.length_singleton]
        omega
      rw [ih hlength, hkept, List.append_assoc, List.singleton_append]
    · have hkept : (report.push entry).entries = report.entries := if_neg hroom
      have hlength : limit ≤ report.entries.length := Nat.not_lt.mp hroom
      rw [ih (by rwa [hkept]), hkept, List.take_append_of_le_length hlength,
        List.take_append_of_le_length hlength]

/-- A report that was empty holds the first entries. -/
lemma entries_pushAll_empty_eq_take (entries : List ε) :
    (empty.pushAll entries).entries = entries.take limit :=
  entries_pushAll_eq_take (Nat.zero_le _) entries

/-- A report that was empty counts all entries, also those that it does not hold. -/
lemma total_pushAll_empty (entries : List ε) : (empty.pushAll entries).total = entries.length := by
  rw [total_pushAll, total_empty, Nat.zero_add]

/-- A report of the first faults, as many as it can hold, holds the first faults. -/
lemma holdsFirst_pushAll_take (faults : List ε) :
    (empty.pushAll (faults.take limit)).HoldsFirst faults := by
  have hentries : (empty.pushAll (faults.take limit)).entries = faults.take limit := by
    rw [entries_pushAll_empty_eq_take, List.take_take, Nat.min_self]
  refine ⟨hentries, ?_, ?_⟩
  · rw [hentries, total_pushAll_empty]
  · rw [total_pushAll_empty]
    exact List.length_take_le limit faults

/-- A full report takes no more. -/
lemma pushAll_take_of_isFull {report : Report ε} (hfull : report.isFull = true)
    (faults : List ε) : report.pushAll (faults.take (limit - report.total)) = report := by
  have hle : limit ≤ report.total := of_decide_eq_true hfull
  rw [Nat.sub_eq_zero_of_le hle, List.take_zero, pushAll_nil]

/-- A report with room takes the next fault, and then as many as there is room for. -/
lemma pushAll_take_of_not_isFull {report : Report ε} (hopen : report.isFull = false)
    (fault? : Option ε) (rest : List ε) :
    (report.pushAll fault?.toList).pushAll
        (rest.take (limit - (report.pushAll fault?.toList).total)) =
      report.pushAll ((fault?.toList ++ rest).take (limit - report.total)) := by
  rw [isFull_eq_false] at hopen
  rw [total_pushAll, ← pushAll_append, List.take_append]
  cases fault? with
  | none => simp
  | some fault =>
    have hkept : [fault].take (limit - report.total) = [fault] :=
      List.take_of_length_le (by rw [List.length_singleton]; omega)
    simp [hkept, Nat.sub_sub]

end Report

/-! ### Reading and compiling -/

/-- Reading reports the faults of the lines while there is room. -/
theorem Parse.report_lines (finish : Span) (report : Report Fault) (lines : List Line) :
    (Parse.lines finish report lines).report =
      report.pushAll ((lines.filterMap Line.fault?).take (Report.limit - report.total)) := by
  fun_induction Parse.lines finish report lines with
  | case1 report => simp
  | case2 report line rest hfull => rw [Report.pushAll_take_of_isFull hfull]
  | case3 report line rest hopen item hline more ih =>
    have hfault : line.fault? = none := by simp [Line.fault?, hline]
    rw [List.filterMap_cons_none hfault]
    exact ih
  | case4 report line rest hopen fault hline ih =>
    have hfault : line.fault? = some fault := by simp [Line.fault?, hline]
    rw [Bool.not_eq_true] at hopen
    rw [List.filterMap_cons_some hfault]
    exact ih.trans (Report.pushAll_take_of_not_isFull hopen (some fault) _)

/-- Compiling reports the faults of the items while there is room. -/
theorem report_compileItems (macros : Macros Float) (report : Report Fault) (items : List Item) :
    (compileItems macros report items).2 =
      report.pushAll
        ((faultsAmong (outcomes macros items)).take (Report.limit - report.total)) := by
  induction items generalizing macros report with
  | nil => simp [compileItems, outcomes, faultsAmong]
  | cons item rest ih =>
    by_cases hfull : report.isFull = true
    · rw [Report.pushAll_take_of_isFull hfull, compileItems, if_pos hfull]
    · rw [Bool.not_eq_true] at hfull
      rw [compileItems_cons hfull, outcomes, faultsAmong_cons]
      exact (ih _ _).trans (Report.pushAll_take_of_not_isFull hfull _ _)

/-- Reading a feature reports its first faults. -/
lemma Feature.holdsFirst_parse (tokens : List Token) :
    (Feature.parse tokens).2.HoldsFirst (Feature.faultsOf tokens) := by
  have hreport : (Feature.parse tokens).2 =
      Report.empty.pushAll ((Feature.faultsOf tokens).take Report.limit) :=
    Parse.report_lines _ _ _
  rw [hreport]
  exact Report.holdsFirst_pushAll_take _

/-- Compiling a feature reports its first faults. -/
lemma Feature.holdsFirst_compile (feature : Feature) :
    (feature.compile .empty).2.HoldsFirst (faultsAmong (outcomes .empty feature.items)) := by
  have hreport : (feature.compile .empty).2 =
      Report.empty.pushAll ((faultsAmong (outcomes .empty feature.items)).take Report.limit) :=
    report_compileItems _ _ _
  rw [hreport]
  exact Report.holdsFirst_pushAll_take _

/-! ### The pieces that scanning comes to -/

namespace Piece

/-- Something is reported about the piece. -/
def isReported (piece : Piece) : Bool := piece.cause?.isSome

/-- The piece is a blank or a comment. -/
def isBlank (piece : Piece) : Bool := piece.token?.isNone && piece.cause?.isNone

/-- The piece is dropped for a dollar sign that begins no template. -/
def IsBadTemplate (piece : Piece) : Prop :=
  piece.token? = none ∧ (piece.cause? = some .bareDollar ∨ piece.cause? = some .brokenTemplate)

/-- The pieces that scanning comes to, if `count` faults were counted before them. -/
def reached (count : Nat) : List Piece → List Piece
  | [] => []
  | piece :: rest =>
    let count := count + piece.isReported.toNat
    if Scan.mayEndAfter piece && decide (Report.limit ≤ count) then [piece]
    else piece :: reached count rest

/-- A piece has a fault exactly if it is reported. -/
lemma length_faultAt? (piece : Piece) (span : Span) :
    (faultAt? (piece, span)).toList.length = piece.isReported.toNat := by
  unfold faultAt? isReported
  cases piece.cause? <;> rfl

/-- The reported pieces are counted one by one. -/
lemma countP_isReported_cons (piece : Piece) (rest : List Piece) :
    (piece :: rest).countP isReported = piece.isReported.toNat + rest.countP isReported := by
  rw [List.countP_cons, Nat.add_comm]
  cases piece.isReported <;> rfl

/-- There are as many faults as reported pieces. -/
lemma length_faultsFrom (place : Place) (pieces : List Piece) :
    (faultsFrom place pieces).length = pieces.countP isReported := by
  induction pieces generalizing place with
  | nil => rfl
  | cons piece rest ih =>
    rw [faultsFrom_cons, List.length_append, length_faultAt?, ih, countP_isReported_cons]

/-- What scanning does not come to does not belong to the first faults. -/
lemma take_faultsFrom_reached (place : Place) (count : Nat) (pieces : List Piece) :
    (faultsFrom place (reached count pieces)).take (Report.limit - count) =
      (faultsFrom place pieces).take (Report.limit - count) := by
  induction pieces generalizing place count with
  | nil => rfl
  | cons piece rest ih =>
    rw [reached]
    split
    · rename_i hstop
      rw [Bool.and_eq_true, decide_eq_true_eq] at hstop
      have hfull : Report.limit - count ≤
          (faultAt? (piece, .between place (place.after piece.text))).toList.length := by
        rw [length_faultAt?]
        omega
      rw [faultsFrom_cons, faultsFrom_cons, List.take_append_of_le_length hfull,
        List.take_append_of_le_length hfull]
    · have hrest := ih (place.after piece.text) (count + piece.isReported.toNat)
      rw [faultsFrom_cons, faultsFrom_cons, List.take_append, List.take_append, length_faultAt?,
        Nat.sub_sub, hrest]

/-- Only after a dollar sign does scanning go on although something was reported. -/
lemma IsCut.isBadTemplate {depth : Nat} {piece : Piece} {rest : List Char}
    (h : IsCut depth piece rest) (hreported : piece.isReported = true)
    (hgoes : Scan.mayEndAfter piece = false) : piece.IsBadTemplate := by
  cases h with
  | bareDollar => exact ⟨rfl, .inl rfl⟩
  | noTemplate => exact ⟨rfl, .inr rfl⟩
  | openTemplate => exact ⟨rfl, .inr rfl⟩
  | outOfRange => cases hgoes
  | unexpected => cases hgoes
  | _ => cases hreported

/-- A bad template is reported. -/
lemma IsBadTemplate.isReported {piece : Piece} (h : piece.IsBadTemplate) :
    piece.isReported = true := by
  obtain ⟨-, hcause | hcause⟩ := h <;> rw [Piece.isReported, hcause] <;> rfl

/-- Scanning never ends after a bad template. -/
lemma IsBadTemplate.mayEndAfter {piece : Piece} (h : piece.IsBadTemplate) :
    Scan.mayEndAfter piece = false := by
  obtain ⟨htoken, hcause | hcause⟩ := h <;> rw [Scan.mayEndAfter, htoken, hcause]

/-- The first piece that is not blank is reported. -/
def FirstIsReported (pieces : List Piece) : Prop :=
  ∃ piece ∈ (pieces.dropWhile isBlank).head?, piece.isReported = true

/-- The last place in the report is taken by a dollar sign that begins no template, and the next
piece that is not blank is reported as well; `count` faults were counted before the pieces. -/
def RunsOver (count : Nat) (pieces : List Piece) : Prop :=
  ∃ (before : List Piece) (template : Piece) (after : List Piece),
    pieces = before ++ template :: after ∧ count + before.countP isReported + 1 = Report.limit ∧
      template.IsBadTemplate ∧ FirstIsReported after

/-- Once the report is full, scanning counts another fault exactly if the first piece that is not
blank is reported. -/
lemma countP_reached_pos_iff {count : Nat} (hfull : Report.limit ≤ count) (pieces : List Piece) :
    0 < (reached count pieces).countP isReported ↔ FirstIsReported pieces := by
  induction pieces with
  | nil => simp [reached, FirstIsReported]
  | cons piece rest ih =>
    by_cases hreported : piece.isReported = true
    · have hblank : piece.isBlank = false := by
        simp_all [Piece.isReported, Piece.isBlank, Option.isSome_iff_ne_none]
      refine iff_of_true ?_ ⟨piece, by simp [hblank], hreported⟩
      rw [List.countP_pos_iff]
      refine ⟨piece, ?_, hreported⟩
      rw [reached]
      split <;> simp
    · have hquiet : piece.cause? = none := by
        simpa [Piece.isReported] using hreported
      rw [Bool.not_eq_true] at hreported
      -- a blank is passed, and a token ends scanning
      cases htoken : piece.token? with
      | none =>
        have hblank : piece.isBlank = true := by simp [Piece.isBlank, htoken, hquiet]
        have hgoes : Scan.mayEndAfter piece = false := by simp [Scan.mayEndAfter, htoken, hquiet]
        have hreached : reached count (piece :: rest) = piece :: reached count rest := by
          simp [reached, hgoes, hreported]
        rw [hreached, List.countP_cons_of_neg (by simp [hreported]), ih, FirstIsReported,
          FirstIsReported, List.dropWhile_cons_of_pos hblank]
      | some kind =>
        have hblank : piece.isBlank = false := by simp [Piece.isBlank, htoken]
        have hends : Scan.mayEndAfter piece = true := by simp [Scan.mayEndAfter, htoken]
        have hreached : reached count (piece :: rest) = [piece] := by
          simp [reached, hends, hreported, hfull]
        simp [hreached, FirstIsReported, hblank, hreported]

/-- A piece in front of the others is counted. -/
lemma runsOver_cons_iff {count : Nat} {piece : Piece} {rest : List Piece}
    (h : piece.isReported = true → count + 1 < Report.limit) :
    RunsOver count (piece :: rest) ↔ RunsOver (count + piece.isReported.toNat) rest := by
  have hcount (before : List Piece) : count + (piece :: before).countP isReported =
      count + piece.isReported.toNat + before.countP isReported := by
    rw [countP_isReported_cons, Nat.add_assoc]
  constructor
  · rintro ⟨before, template, after, hpieces, hlimit, htemplate, hnext⟩
    cases before with
    | nil =>
      obtain ⟨rfl, rfl⟩ := List.cons.inj hpieces
      have hroom := h htemplate.isReported
      rw [List.countP_nil] at hlimit
      omega
    | cons first before =>
      obtain ⟨rfl, rfl⟩ := List.cons.inj hpieces
      rw [hcount] at hlimit
      exact ⟨before, template, after, rfl, hlimit, htemplate, hnext⟩
  · rintro ⟨before, template, after, rfl, hlimit, htemplate, hnext⟩
    rw [← hcount] at hlimit
    exact ⟨piece :: before, template, after, rfl, hlimit, htemplate, hnext⟩

/-- The piece that takes the last place decides together with the next one that is not blank. -/
lemma runsOver_cons_last_iff {count : Nat} {piece : Piece} {rest : List Piece}
    (hreported : piece.isReported = true) (hlast : count + 1 = Report.limit) :
    RunsOver count (piece :: rest) ↔ piece.IsBadTemplate ∧ FirstIsReported rest := by
  constructor
  · rintro ⟨before, template, after, hpieces, hlimit, htemplate, hnext⟩
    cases before with
    | nil =>
      obtain ⟨rfl, rfl⟩ := List.cons.inj hpieces
      exact ⟨htemplate, hnext⟩
    | cons first before =>
      obtain ⟨rfl, rfl⟩ := List.cons.inj hpieces
      rw [List.countP_cons_of_pos hreported] at hlimit
      omega
  · rintro ⟨htemplate, hnext⟩
    exact ⟨[], piece, rest, rfl, by simpa using hlast, htemplate, hnext⟩

/-- **When scanning counts more than it keeps.** -/
theorem limit_lt_countP_reached_iff {count : Nat} (hopen : count < Report.limit)
    {pieces : List Piece}
    (hpieces : ∀ piece ∈ pieces, piece.isReported = true → Scan.mayEndAfter piece = false →
      piece.IsBadTemplate) :
    Report.limit < count + (reached count pieces).countP isReported ↔ RunsOver count pieces := by
  induction pieces generalizing count with
  | nil =>
    refine iff_of_false ?_ ?_
    · simp only [reached, List.countP_nil]
      omega
    · rintro ⟨before, template, after, hnil, -⟩
      simp at hnil
  | cons piece rest ih =>
    obtain ⟨hpiece, hrest⟩ := List.forall_mem_cons.mp hpieces
    by_cases hroom : count + piece.isReported.toNat < Report.limit
    · -- there is room after the piece, so scanning goes on
      have hreached : reached count (piece :: rest) =
          piece :: reached (count + piece.isReported.toNat) rest := by
        simp [reached, Nat.not_le.mpr hroom]
      have hcons : RunsOver count (piece :: rest) ↔
          RunsOver (count + piece.isReported.toNat) rest := by
        refine runsOver_cons_iff fun hreported => ?_
        rwa [hreported] at hroom
      rw [hreached, hcons, ← ih hroom hrest, countP_isReported_cons, Nat.add_assoc]
    · -- the piece takes the last place in the report
      have hreported : piece.isReported = true := by
        cases hcase : piece.isReported with
        | true => rfl
        | false =>
          rw [hcase] at hroom
          exact absurd hopen hroom
      rw [hreported] at hroom
      have hlast : count + 1 = Report.limit := by
        change ¬count + 1 < Report.limit at hroom
        omega
      rw [runsOver_cons_last_iff hreported hlast]
      cases hends : Scan.mayEndAfter piece with
      | true =>
        have hreached : reached count (piece :: rest) = [piece] := by
          simp [reached, hends, hreported, hlast]
        refine iff_of_false ?_ ?_
        · rw [hreached, List.countP_singleton]
          simp only [hreported, if_true]
          omega
        · rintro ⟨htemplate, -⟩
          rw [htemplate.mayEndAfter] at hends
          cases hends
      | false =>
        have hreached : reached count (piece :: rest) = piece :: reached (count + 1) rest := by
          simp [reached, hends, hreported]
        rw [hreached, List.countP_cons_of_pos hreported, and_iff_right (hpiece hreported hends),
          ← countP_reached_pos_iff (Nat.le_of_eq hlast.symm)]
        omega

end Piece

/-! ### Scanning -/

namespace Scan

open Piece

/-- Scanning picks out the tokens and the faults of the pieces that it comes to. -/
theorem scanFrom_eq_reached (place : Place) (depth : Nat) (report : Report Fault)
    (text : List Char) :
    scanFrom place depth report text =
      ⟨tokensFrom place (reached report.total (cutAll depth text)) ++
          [⟨.endOfFile, .point (place.after (textOf (reached report.total (cutAll depth text))))⟩],
        report.pushAll (faultsFrom place (reached report.total (cutAll depth text)))⟩ := by
  fun_induction cutAll depth text generalizing place report with
  | case1 depth => simp [scanFrom, reached, tokensFrom, faultsFrom, textOf]
  | case2 depth c rest ih =>
    set piece := (cut depth c rest).1 with hpiece
    set after := (cut depth c rest).2 with hafter
    have htotal : (reportAfter report (.between place (place.after piece.text)) piece).total =
        report.total + piece.isReported.toNat := by
      rw [reportAfter_eq, Report.total_pushAll, length_faultAt?]
    have hfull : (reportAfter report (.between place (place.after piece.text)) piece).isFull =
        decide (Report.limit ≤ report.total + piece.isReported.toNat) := by
      rw [Report.isFull, htotal]
    rw [scanFrom, reached]
    simp only [← hpiece, ← hafter, hfull]
    split
    · rw [reportAfter_eq, tokensFrom_cons, faultsFrom_cons, textOf_cons]
      simp [tokensFrom, faultsFrom, tokenAt?, textOf]
    · rw [ih, htotal, tokensFrom_cons, faultsFrom_cons, textOf_cons, Place.after_append,
        reportAfter_eq, Report.pushAll_append, List.append_assoc]
      rfl

end Scan

namespace Source

open Piece

/-- The faults of all pieces of a source. -/
def faults (source : Source) : List Fault :=
  faultsFrom .start source.pieces

/-- Scanning the source counts more faults than it keeps. -/
def RunsOver (source : Source) : Prop :=
  Piece.RunsOver 0 source.pieces

variable (source : Source)

/-- The report of a scan has the faults of the pieces that scanning reaches. -/
lemma report_scan :
    source.scan.report = Report.empty.pushAll (faultsFrom .start (reached 0 source.pieces)) :=
  congrArg Scan.report (Scan.scanFrom_eq_reached _ _ _ _)

/-- Whatever is counted, the first faults are kept. -/
lemma entries_scan_eq_take : source.scan.report.entries = source.faults.take Report.limit := by
  rw [report_scan, Report.entries_pushAll_empty_eq_take]
  exact take_faultsFrom_reached .start 0 source.pieces

/-- A scan counts more faults than the report holds exactly if the source runs over. -/
lemma limit_lt_total_scan_iff : Report.limit < source.scan.report.total ↔ source.RunsOver := by
  have hpieces : ∀ piece ∈ source.pieces, piece.isReported = true →
      Scan.mayEndAfter piece = false → piece.IsBadTemplate := by
    intro piece hmem hreported hgoes
    obtain ⟨front, back, hsplit⟩ := List.append_of_mem hmem
    exact (isCut_of_cutAll hsplit).1.isBadTemplate hreported hgoes
  rw [report_scan, Report.total_pushAll_empty, length_faultsFrom, RunsOver,
    ← limit_lt_countP_reached_iff (by decide) hpieces, Nat.zero_add]

/-- **The stages end when their reports are full.**  Reading the tokens of a source, and compiling
what was read, reports the first faults and keeps all that it counts.  Scanning keeps the first
faults too; it keeps all that it counts exactly if the source does not run over. -/
theorem reports_hold_first :
    (source.scan.report.entries = source.faults.take Report.limit ∧
      (source.scan.report.HoldsFirst source.faults ↔ ¬source.RunsOver)) ∧
    (Feature.parse source.scan.tokens).2.HoldsFirst (Feature.faultsOf source.scan.tokens) ∧
    ((Feature.parse source.scan.tokens).1.compile .empty).2.HoldsFirst
      (faultsAmong (outcomes .empty (Feature.parse source.scan.tokens).1.items)) := by
  refine ⟨⟨source.entries_scan_eq_take, ?_⟩, Feature.holdsFirst_parse _,
    Feature.holdsFirst_compile _⟩
  rw [← limit_lt_total_scan_iff, Nat.not_lt]
  constructor
  · intro h
    exact h.total_le
  · intro hle
    refine ⟨source.entries_scan_eq_take, ?_, hle⟩
    rw [report_scan, Report.total_pushAll_empty] at hle
    rw [report_scan, Report.total_pushAll_empty, Report.entries_pushAll_empty_eq_take,
      List.take_of_length_le hle]

/-- Of twenty-one dollar signs the last one is counted and not kept. -/
theorem scan_counts_beyond_limit :
    let source : Source := ⟨"a", String.ofList (List.replicate 21 '$')⟩
    source.scan.report.total = 21 ∧ source.scan.report.entries.length = Report.limit ∧
      ¬(source.scan.report.total = source.scan.report.entries.length ∧
        source.scan.report.total ≤ Report.limit) := by
  intro source
  have htotal : source.scan.report.total = 21 := by
    rw [scan, String.toList_ofList]
    decide +kernel
  have hkept : source.scan.report.entries.length = Report.limit := by
    rw [scan, String.toList_ofList]
    decide +kernel
  refine ⟨htotal, hkept, ?_⟩
  rintro ⟨-, hle⟩
  rw [htotal] at hle
  exact absurd hle (by decide)

end Source

end SheetRules
