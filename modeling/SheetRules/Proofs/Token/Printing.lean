import Mathlib.Tactic.Common
import SheetRules.Number.Numeral
import SheetRules.Proofs.Token.Pieces

/-!
# Tokens that are written and scanned again

Tokens that are written one after the other, with a blank between any two of them, are found again
when the text is scanned (`Source.scan_written`).  Each token has to end where the blank begins: the
lemma for one token is `Piece.cut_written`, and what holds of the text then follows along the list
of tokens.  On the way the number of open parentheses is counted, since a line feed between
parentheses would be a blank.

That a number is found again is left to a hypothesis: its text is read as the number
(`Numeral.read?`).  What is shown is that the text is a numeral and that all of it is cut off.
-/

namespace SheetRules

namespace Double

/-- A finite value whose text has no sign.  Negative zero has one. -/
def IsUnsigned (v : Float) : Prop :=
  ∃ d, exact v = .ok d ∧ d.negative = false

end Double

namespace Kind

/-- A token as it is written in a source. -/
def written : Kind → String
  | .newline => "\n"
  | kind => kind.text

/-- A token that can be written: names are in the alphabet of names, and numbers have no sign, so
that neither a negative number nor `-0.0` is one. -/
def IsWritable : Kind → Prop
  | .number v => Double.IsUnsigned v
  | .name text => Piece.IsIdentifier text.toList
  | .template text => Piece.IsTemplateName text.toList
  | .endOfFile => False
  | _ => True

/-- The number of open parentheses after a token; a closing one without a partner is ignored. -/
def depthAfter (depth : Nat) : Kind → Nat
  | .openParen => depth + 1
  | .closeParen => depth - 1
  | _ => depth

/-- No newline stands between parentheses, of which `depth` are open before the tokens. -/
def NewlinesOutside (depth : Nat) : List Kind → Prop
  | [] => True
  | kind :: rest => (kind = .newline → depth = 0) ∧ NewlinesOutside (kind.depthAfter depth) rest

instance decidableNewlinesOutside : ∀ (depth : Nat) (kinds : List Kind),
    Decidable (NewlinesOutside depth kinds)
  | _, [] => .isTrue trivial
  | depth, kind :: rest =>
    haveI := decidableNewlinesOutside (kind.depthAfter depth) rest
    inferInstanceAs (Decidable (_ ∧ _))

end Kind

namespace Piece

variable {c : Char} {text tail whole fraction rest : List Char} {depth : Nat}

/-- A character of a class is none that is not in it. -/
lemma ne_of_class {p : Char → Bool} {d : Char} (hc : p c = true) (hd : p d = false) : c ≠ d := by
  rintro rfl
  rw [hc] at hd
  cases hd

/-! ### The text of a number -/

/-- The digits of a number are digits. -/
lemma isDigits_toDigits (n : Nat) : IsDigits (Nat.toDigits 10 n) :=
  ⟨Nat.toDigits_ne_nil, fun _ hc => Nat.isDigit_of_mem_toDigits (by decide) (by decide) hc⟩

/-- Digits may be followed by more digits. -/
lemma IsDigits.append (h : IsDigits text) (hmore : ∀ c ∈ rest, c.isDigit = true) :
    IsDigits (text ++ rest) :=
  ⟨List.append_ne_nil_of_left_ne_nil h.1 _, List.forall_mem_append.mpr ⟨h.2, hmore⟩⟩

/-- Digits around a point, without a point at the end. -/
lemma isNumber_layPositional (h : IsDigits text) (top : Int) :
    IsNumber (NumberFormat.layPositional false text top) := by
  have hzeros : ∀ n, ∀ c ∈ List.replicate n '0', c.isDigit = true := by
    intro n c hc
    rw [List.eq_of_mem_replicate hc]
    rfl
  unfold NumberFormat.layPositional
  dsimp only
  split
  · have hfraction : IsDigits (List.replicate (-top - 1).toNat '0' ++ text) :=
      ⟨List.append_ne_nil_of_right_ne_nil _ h.1, List.forall_mem_append.mpr ⟨hzeros _, h.2⟩⟩
    exact ⟨['0'], _, .point (isDigits_toDigits 0) hfraction⟩
  split
  · rw [if_neg Bool.false_ne_true, List.append_nil]
    exact ⟨_, _, .whole (h.append (hzeros _))⟩
  · rename_i htop hlength
    have hwhole : IsDigits (text.take (top + 1).toNat) := by
      refine ⟨?_, fun c hc => h.2 c (List.mem_of_mem_take hc)⟩
      rw [Ne, List.take_eq_nil_iff]
      exact not_or.mpr ⟨by omega, h.1⟩
    have hfraction : IsDigits (text.drop (top + 1).toNat) := by
      refine ⟨?_, fun c hc => h.2 c (List.mem_of_mem_drop hc)⟩
      rw [Ne, List.drop_eq_nil_iff]
      exact hlength
    exact ⟨_, _, .point hwhole hfraction⟩

/-- The text of a value without sign is a number. -/
lemma isNumber_text {v : Float} (h : Double.IsUnsigned v) : IsNumber (Double.text v).toList := by
  obtain ⟨d, hexact, hsign⟩ := h
  rw [Double.text, NumberFormat.text, hexact]
  simp only [hsign, Bool.false_eq_true, if_false, String.toList_ofList]
  split
  · exact isNumber_layPositional (isDigits_toDigits 0) 0
  · exact isNumber_layPositional (isDigits_toDigits _) _

/-! ### Reading a numeral -/

/-- Where a run of characters ends. -/
lemma run_of_stops {p : Char → Bool} (rest : List Char) (h : ∀ c ∈ text, p c = true)
    (hrest : ∀ c ∈ rest.head?, p c = false) :
    (text ++ rest).takeWhile p = text ∧ (text ++ rest).dropWhile p = rest := by
  rw [List.takeWhile_append_of_pos h, List.dropWhile_append_of_pos h]
  cases rest with
  | nil => simp
  | cons c rest => simp [hrest c rfl]

/-- A number begins with a digit. -/
lemma IsNumeral.exists_cons (h : IsNumeral text whole fraction) :
    ∃ c tail, text = c :: tail ∧ c.isDigit = true := by
  have hdigits : IsDigits whole := by
    cases h with
    | whole hwhole => exact hwhole
    | point hwhole _ => exact hwhole
  obtain ⟨c, tail, rfl⟩ := List.exists_cons_of_ne_nil hdigits.1
  have hc := hdigits.2 c List.mem_cons_self
  cases h with
  | whole _ => exact ⟨c, tail, rfl, hc⟩
  | point _ _ => exact ⟨c, _, rfl, hc⟩

/-- A numeral is read as its digits around the point. -/
lemma decimal?_of_isNumeral (h : IsNumeral text whole fraction) :
    Numeral.decimal? text = some (.ofPoint whole fraction) := by
  cases h with
  | whole hwhole =>
    obtain ⟨htake, hdrop⟩ := run_of_stops [] hwhole.2 (by simp)
    rw [List.append_nil] at htake hdrop
    simp [Numeral.decimal?, htake, hdrop, hwhole.1]
  | point hwhole hfraction =>
    obtain ⟨htake, hdrop⟩ := run_of_stops ('.' :: fraction) hwhole.2 (by simp)
    obtain ⟨htake', hdrop'⟩ := run_of_stops [] hfraction.2 (by simp)
    rw [List.append_nil] at htake' hdrop'
    simp [Numeral.decimal?, htake, hdrop, htake', hdrop', hwhole.1]

/-- Digits have no lower case. -/
lemma toLower_of_isDigit (h : c.isDigit = true) : c.toLower = c := by
  rw [Char.isDigit_iff_toNat] at h
  have hnine : c.toNat ≤ 57 := h.2
  refine dif_neg ?_
  rintro ⟨hupper, -⟩
  have hletter : 65 ≤ c.toNat := hupper
  omega

/-- A number is read as the double nearest to it. -/
lemma read?_of_isNumeral (h : IsNumeral text whole fraction) :
    Numeral.read? (String.ofList text) = some (Decimal.ofPoint whole fraction).toFloat := by
  obtain ⟨c, tail, htext, hc⟩ := h.exists_cons
  have hsign : ∀ d rest, d.isDigit = false → text ≠ d :: rest := by
    intro d rest hd heq
    exact ne_of_class hc hd (List.cons.inj (htext.symm.trans heq)).1
  have hword : ∀ word d rest, word.toList = d :: rest → d.isDigit = false →
      String.ofList (text.map Char.toLower) ≠ word := by
    rintro word d rest hd hdigit rfl
    rw [String.toList_ofList, htext, List.map_cons, toLower_of_isDigit hc] at hd
    exact ne_of_class hc hdigit (List.cons.inj hd).1
  have hunsigned : Numeral.unsigned? text = some (Decimal.ofPoint whole fraction).toFloat := by
    rw [Numeral.unsigned?, decimal?_of_isNumeral h]
    simp [hword "inf" 'i' _ rfl rfl, hword "infinity" 'i' _ rfl rfl, hword "nan" 'n' _ rfl rfl]
  unfold Numeral.read?
  rw [String.toList_ofList]
  split
  · exact absurd rfl (hsign '-' _ rfl)
  · exact absurd rfl (hsign '+' _ rfl)
  · exact hunsigned

/-! ### One token -/

/-- Nothing follows, or a blank. -/
def IsParted (rest : List Char) : Prop :=
  ∀ c ∈ rest.head?, c = ' '

/-- A blank stops whatever does not go on over blanks. -/
lemma IsParted.stops (h : IsParted rest) {p : Char → Bool} (hp : p ' ' = false) :
    ∀ c ∈ rest.head?, p c = false := by
  intro c hc
  rw [h c hc]
  exact hp

/-- What is parted off is nothing, or it begins with a blank. -/
lemma IsParted.eq_nil_or (h : IsParted rest) : rest = [] ∨ ∃ more, rest = ' ' :: more := by
  cases rest with
  | nil => exact .inl rfl
  | cons c more =>
    obtain rfl := h c rfl
    exact .inr ⟨more, rfl⟩

/-- A blank does not begin a fraction. -/
lemma cutFraction_of_isParted (h : IsParted rest) : cutFraction rest = ([], rest) := by
  unfold cutFraction
  split
  · exact absurd (h '.' rfl) (by decide)
  · rfl

/-- A numeral is cut off before a blank. -/
lemma cutNumber_of_isNumeral (h : IsNumeral (c :: tail) whole fraction) (hrest : IsParted rest) :
    cutNumber c (tail ++ rest) = (number whole fraction, rest) := by
  generalize htext : c :: tail = text at h
  cases h with
  | whole hwhole =>
    subst htext
    obtain ⟨htake, hdrop⟩ := run_of_stops rest (fun d hd => hwhole.2 d (List.mem_cons_of_mem _ hd))
      (hrest.stops (p := Char.isDigit) rfl)
    rw [cutNumber, htake, hdrop, cutFraction_of_isParted hrest]
  | point hwhole hfraction =>
    obtain ⟨d, digits, rfl⟩ := List.exists_cons_of_ne_nil hwhole.1
    obtain ⟨e, places, rfl⟩ := List.exists_cons_of_ne_nil hfraction.1
    rw [List.cons_append] at htext
    obtain ⟨rfl, rfl⟩ := List.cons.inj htext
    obtain ⟨htake, hdrop⟩ := run_of_stops ('.' :: e :: places ++ rest)
      (fun d hd => hwhole.2 d (List.mem_cons_of_mem _ hd)) (by simp)
    obtain ⟨htake', hdrop'⟩ := run_of_stops rest
      (fun d hd => hfraction.2 d (List.mem_cons_of_mem _ hd)) (hrest.stops (p := Char.isDigit) rfl)
    have hplace : e.isDigit = true := hfraction.2 e List.mem_cons_self
    rw [cutNumber, List.append_assoc, htake, hdrop]
    simp [cutFraction, hplace, htake', hdrop']

/-- A number that is finite is kept. -/
lemma number_of_finite (h : IsNumeral text whole fraction)
    (hfinite : Double.nonFinite? (Decimal.ofPoint whole fraction).toFloat = none) :
    number whole fraction = token (.number (Decimal.ofPoint whole fraction).toFloat) text := by
  have htext : (if fraction.isEmpty then whole else whole ++ '.' :: fraction) = text := by
    cases h with
    | whole hwhole => rfl
    | point hwhole hfraction => rw [if_neg (by simpa using hfraction.1)]
  rw [number, htext, hfinite]
  rfl

/-- A character that begins a number begins nothing else. -/
lemma cut_of_isDigit (h : c.isDigit = true) (rest : List Char) :
    cut depth c rest = cutNumber c rest := by
  have hblank : ¬(c = ' ' ∨ c = '\t' ∨ c = '\r') := by
    rintro (rfl | rfl | rfl) <;> cases h
  rw [cut, if_neg hblank, if_neg (ne_of_class h rfl), if_neg (ne_of_class h rfl), if_pos h]

/-- No name begins with a digit. -/
lemma isDigit_of_isNameStart (h : isNameStart c = true) : c.isDigit = false := by
  rw [Bool.eq_false_iff]
  intro hdigit
  rcases Bool.or_eq_true_iff.mp h with h | h
  · rw [Char.isDigit_iff_toNat] at hdigit
    have hnine : c.toNat ≤ 57 := hdigit.2
    rcases Bool.or_eq_true_iff.mp h with hupper | hlower
    · have hletter : 65 ≤ c.toNat := (of_decide_eq_true hupper).1
      omega
    · have hletter : 97 ≤ c.toNat := of_decide_eq_true (Bool.and_eq_true_iff.mp hlower).1
      omega
  · rw [beq_iff_eq] at h
    subst h
    cases hdigit

/-- A character that begins a name begins nothing else. -/
lemma cut_of_isNameStart (h : isNameStart c = true) (rest : List Char) :
    cut depth c rest = cutName c rest := by
  have hblank : ¬(c = ' ' ∨ c = '\t' ∨ c = '\r') := by
    rintro (rfl | rfl | rfl) <;> cases h
  rw [cut, if_neg hblank, if_neg (ne_of_class h rfl), if_neg (ne_of_class h rfl),
    if_neg (by simp [isDigit_of_isNameStart h]), if_pos h]

/-- A template is cut off at its brace. -/
lemma cutTemplate_of_isTemplateName (h : IsTemplateName text) (rest : List Char) :
    cutTemplate ('\x7b' :: text ++ '\x7d' :: rest) =
      (token (.template (String.ofList text)) ('$' :: '\x7b' :: text ++ ['\x7d']), rest) := by
  obtain ⟨htake, hdrop⟩ := run_of_stops ('\x7d' :: rest) h.2
    (by simp [isNamePart])
  simp [cutTemplate, htake, hdrop, h.1]

/-- **A token that is followed by a blank or by nothing is cut off whole.** -/
lemma cut_written {kind : Kind} (h : kind.IsWritable)
    (hread : ∀ v, kind = .number v → Numeral.read? (Double.text v) = some v)
    (hline : kind = .newline → depth = 0) (hrest : IsParted rest) :
    ∃ c tail, kind.written.toList = c :: tail ∧
      cut depth c (tail ++ rest) = (token kind kind.written.toList, rest) := by
  cases kind with
  | number v =>
    obtain ⟨whole, fraction, hnumeral⟩ := isNumber_text h
    have hvalue : (Decimal.ofPoint whole fraction).toFloat = v := by
      have hsome := read?_of_isNumeral hnumeral
      rw [String.ofList_toList, hread v rfl] at hsome
      exact (Option.some.inj hsome).symm
    have hfinite : Double.nonFinite? (Decimal.ofPoint whole fraction).toFloat = none := by
      obtain ⟨d, hexact, -⟩ := h
      rw [hvalue, Double.nonFinite?, hexact]
    have hnumber := number_of_finite hnumeral hfinite
    rw [hvalue] at hnumber
    obtain ⟨c, tail, htext, hc⟩ := hnumeral.exists_cons
    refine ⟨c, tail, htext, ?_⟩
    rw [htext] at hnumeral
    rw [cut_of_isDigit hc, cutNumber_of_isNumeral hnumeral hrest, hnumber]
    rfl
  | name text =>
    obtain ⟨c, body, htext, hc, hbody⟩ := h
    obtain ⟨htake, hdrop⟩ := run_of_stops rest hbody (hrest.stops (p := isNamePart) rfl)
    refine ⟨c, body, htext, ?_⟩
    rw [cut_of_isNameStart hc, cutName, htake, hdrop, ← htext, String.ofList_toList]
    rfl
  | template text =>
    have hwritten : (Kind.template text).written.toList =
        '$' :: ('\x7b' :: text.toList ++ ['\x7d']) := by
      simp [Kind.written, Kind.text, templateText]
    refine ⟨'$', '\x7b' :: text.toList ++ ['\x7d'], hwritten, ?_⟩
    have hcut := cutTemplate_of_isTemplateName h rest
    rw [String.ofList_toList] at hcut
    rw [List.append_assoc, List.singleton_append]
    rw [hwritten]
    exact hcut
  | newline =>
    obtain rfl := hline rfl
    exact ⟨'\n', [], rfl, rfl⟩
  | endOfFile => exact h.elim
  | plus | slash =>
    -- a blank is not the second half of a doubled symbol
    obtain rfl | ⟨more, rfl⟩ := hrest.eq_nil_or <;> exact ⟨_, [], rfl, rfl⟩
  | plusPlus | slashSlash => exact ⟨_, [_], rfl, rfl⟩
  | minus | star | bang | equals | openParen | closeParen | comma | colon | dot =>
    exact ⟨_, [], rfl, rfl⟩

/-! ### All tokens -/

/-- The pieces of tokens that are written with a blank between any two of them. -/
def writtenPieces (kinds : List Kind) : List Piece :=
  (kinds.map fun kind => token kind kind.written.toList).intersperse (blank [' '])

/-- Written tokens have blanks between them. -/
lemma writtenPieces_cons_cons (kind next : Kind) (kinds : List Kind) :
    writtenPieces (kind :: next :: kinds) =
      token kind kind.written.toList :: blank [' '] :: writtenPieces (next :: kinds) :=
  List.intersperse_cons_cons

/-- The text of written pieces is that of the tokens with blanks between them. -/
lemma textOf_writtenPieces (kinds : List Kind) :
    textOf (writtenPieces kinds) = (" ".intercalate (kinds.map Kind.written)).toList := by
  rw [String.toList_intercalate, List.map_map]
  induction kinds with
  | nil => rfl
  | cons kind rest ih =>
    cases rest with
    | nil => simp [writtenPieces, textOf, token]
    | cons next rest =>
      rw [List.map_cons] at ih
      rw [writtenPieces_cons_cons, textOf_cons, textOf_cons, ih, List.map_cons, List.map_cons,
        List.intercalate_cons_cons, List.append_assoc]
      rfl

/-- A token opens and closes parentheses by its kind. -/
lemma depthAfter_token (kind : Kind) (text : List Char) (depth : Nat) :
    (token kind text).depthAfter depth = kind.depthAfter depth := by
  cases kind <;> rfl

/-- Cutting off the first token. -/
lemma cutAll_written_append {kind : Kind} (h : kind.IsWritable)
    (hread : ∀ v, kind = .number v → Numeral.read? (Double.text v) = some v)
    (hline : kind = .newline → depth = 0) (hrest : IsParted rest) :
    cutAll depth (kind.written.toList ++ rest) =
      token kind kind.written.toList :: cutAll (kind.depthAfter depth) rest := by
  obtain ⟨c, tail, htext, hcut⟩ := cut_written h hread hline hrest
  rw [htext, List.cons_append, cutAll, hcut, htext, depthAfter_token]

/-- The text of the tokens is cut into the tokens and the blanks. -/
lemma cutAll_writtenPieces {kinds : List Kind} (h : ∀ kind ∈ kinds, kind.IsWritable)
    (hread : ∀ v, .number v ∈ kinds → Numeral.read? (Double.text v) = some v)
    (hlines : Kind.NewlinesOutside depth kinds) :
    cutAll depth (textOf (writtenPieces kinds)) = writtenPieces kinds := by
  induction kinds generalizing depth with
  | nil => simp [writtenPieces, textOf, cutAll]
  | cons kind rest ih =>
    obtain ⟨hkind, hrest⟩ := List.forall_mem_cons.mp h
    obtain ⟨hline, hlines⟩ := hlines
    have hfirst : ∀ v, kind = .number v → Numeral.read? (Double.text v) = some v := by
      rintro v rfl
      exact hread v List.mem_cons_self
    have hrec := ih hrest (fun v hv => hread v (List.mem_cons_of_mem _ hv)) hlines
    cases rest with
    | nil =>
      have hend : IsParted [] := by simp [IsParted]
      have hcut := cutAll_written_append hkind hfirst hline hend
      rw [cutAll] at hcut
      simpa [writtenPieces, textOf, token] using hcut
    | cons next rest =>
      have hblank : cutAll (kind.depthAfter depth) (' ' :: textOf (writtenPieces (next :: rest))) =
          blank [' '] :: writtenPieces (next :: rest) := by
        rw [cutAll]
        exact congrArg _ hrec
      rw [writtenPieces_cons_cons, textOf_cons, textOf_cons]
      refine (cutAll_written_append hkind hfirst hline (by simp [IsParted, blank])).trans ?_
      exact congrArg _ hblank

/-- The kinds of the tokens of pieces. -/
lemma kinds_tokensFrom (place : Place) (pieces : List Piece) :
    (tokensFrom place pieces).map Token.kind = pieces.filterMap token? := by
  induction pieces generalizing place with
  | nil => rfl
  | cons piece rest ih =>
    rw [tokensFrom_cons, List.map_append, ih, tokenAt?, List.filterMap_cons]
    cases piece.token? <;> rfl

/-- The written pieces have the tokens that were written. -/
lemma filterMap_writtenPieces (kinds : List Kind) :
    (writtenPieces kinds).filterMap token? = kinds := by
  induction kinds with
  | nil => rfl
  | cons kind rest ih =>
    cases rest with
    | nil => rfl
    | cons next rest =>
      rw [writtenPieces_cons_cons]
      exact congrArg (kind :: ·) ih

/-- Pieces without causes have no faults. -/
lemma faultsFrom_of_silent {pieces : List Piece} (h : ∀ piece ∈ pieces, piece.cause? = none)
    (place : Place) : faultsFrom place pieces = [] := by
  induction pieces generalizing place with
  | nil => rfl
  | cons piece rest ih =>
    obtain ⟨hpiece, hrest⟩ := List.forall_mem_cons.mp h
    rw [faultsFrom_cons, ih hrest, faultAt?, hpiece]
    rfl

/-- Written pieces have no causes. -/
lemma cause?_of_mem_writtenPieces {kinds : List Kind} :
    ∀ piece ∈ writtenPieces kinds, piece.cause? = none := by
  induction kinds with
  | nil => exact List.forall_mem_nil _
  | cons kind rest ih =>
    cases rest with
    | nil => exact List.forall_mem_singleton.mpr rfl
    | cons next rest =>
      rw [writtenPieces_cons_cons]
      exact List.forall_mem_cons.mpr ⟨rfl, List.forall_mem_cons.mpr ⟨rfl, ih⟩⟩

end Piece

namespace Source

open Piece

/-- Tokens that are written with a blank between any two of them are found again, and nothing is
reported.

Numbers are written without a sign.  So `-0.0` is left out along with the negative numbers: its text
is `-0`, of which a minus and the number `0.0` are found. -/
theorem scan_written (name : String) (kinds : List Kind) (hkinds : ∀ kind ∈ kinds, kind.IsWritable)
    (hlines : Kind.NewlinesOutside 0 kinds)
    (hread : ∀ v, .number v ∈ kinds → Numeral.read? (Double.text v) = some v) :
    let source : Source := ⟨name, " ".intercalate (kinds.map Kind.written)⟩
    source.scan.tokens.map Token.kind = kinds ++ [.endOfFile] ∧ source.scan.report = .empty := by
  intro source
  have hpieces : cutAll 0 source.text.toList = writtenPieces kinds := by
    rw [← textOf_writtenPieces]
    exact cutAll_writtenPieces hkinds hread hlines
  have hfaults : faultsFrom .start (cutAll 0 source.text.toList) = [] := by
    rw [hpieces]
    exact faultsFrom_of_silent cause?_of_mem_writtenPieces .start
  have hroom : (Report.empty : Report Fault).total +
      (faultsFrom .start (cutAll 0 source.text.toList)).length < Report.limit := by
    rw [hfaults]
    decide
  have hscan := Scan.scanFrom_eq hroom
  rw [Source.scan, hscan, hfaults]
  refine ⟨?_, rfl⟩
  rw [List.map_append, kinds_tokensFrom, hpieces, filterMap_writtenPieces]
  rfl

/-- A closing parenthesis without a partner, a number before a point, and symbols that could be
halves of doubled ones. -/
def crowdedKinds : List Kind :=
  [.closeParen, .newline, .openParen, .number 0.1, .dot, .number 1e22, .plus, .plusPlus, .slash,
    .name "_x1", .closeParen, .newline, .template "2a"]

/-- Tokens of all sorts, crowded into three lines. -/
theorem scan_written_crowdedKinds :
    Kind.NewlinesOutside 0 crowdedKinds ∧
      " ".intercalate (crowdedKinds.map Kind.written) =
        ") \n ( 0.1 . 10000000000000000000000 + ++ / _x1 ) \n $\x7b2a\x7d" ∧
      (Source.scan ⟨"crowded", " ".intercalate (crowdedKinds.map Kind.written)⟩).tokens.map
        Token.kind = crowdedKinds ++ [.endOfFile] := by
  have htenth : Double.exact 0.1 = .ok ⟨false, 7205759403792794, -56⟩ := by
    decide +kernel
  have hlarge : Double.exact 1e22 = .ok ⟨false, 4768371582031250, 21⟩ := by
    decide +kernel
  have hkinds : ∀ kind ∈ crowdedKinds, kind.IsWritable := by
    have hname : IsIdentifier ['_', 'x', '1'] :=
      ⟨'_', ['x', '1'], rfl, rfl, List.all_eq_true.mp rfl⟩
    have htemplate : IsTemplateName ['2', 'a'] := ⟨List.cons_ne_nil _ _, List.all_eq_true.mp rfl⟩
    simp [crowdedKinds, Kind.IsWritable, Double.IsUnsigned, htenth, hlarge, hname, htemplate]
  have hread : ∀ v, .number v ∈ crowdedKinds → Numeral.read? (Double.text v) = some v := by
    intro v hv
    have hcases : v = 0.1 ∨ v = 1e22 := by
      simpa [crowdedKinds] using hv
    rcases hcases with rfl | rfl <;> decide +kernel
  have hlines : Kind.NewlinesOutside 0 crowdedKinds := by
    decide
  exact ⟨hlines, by decide +kernel, (scan_written "crowded" crowdedKinds hkinds hlines hread).1⟩

end Source

end SheetRules
