import Mathlib.Tactic.Common
import SheetRules.Proofs.Feature.Runs

/-!
# Expressions of the grammar are read

Reading is run along the grammar.  On each level there are readers of sums, products and signed
operands, and an expression of each of these kinds is followed from its first token to its last
(`Level.IsRead`).  The one difficulty is that chains associate to the left while they are read from
left to right: the reader of a chain has passed its first operands, and knows the expression that
they make, long before the chain ends.  So a chain is said to be read when reading comes to going
on after it, on a level that lies as far below as the chain has operators.

Along the way reading either gets to the end of the expression or finds that it is too deep, and
which of the two it is depends on the deepest level of the expression alone.
-/

namespace SheetRules

namespace Parser

variable {α β γ : Type}

/-! ### Paths and lists -/

/-- Segments are read up to a token that is no dot. -/
lemma runs_segmentsAfter {follow : Kind → Prop} (hfollow : ∀ k, follow k → k ≠ .dot)
    (segments : List Segment) (last : Span) {fuel : Nat} (hfuel : segments.length < fuel) :
    Runs (segmentsAfter last fuel) (Segment.kindsAfter segments) follow
      (Yields fun r => r.1 = segments) := by
  induction segments generalizing last fuel with
  | nil =>
    obtain ⟨fuel, rfl⟩ := Nat.exists_eq_succ_of_ne_zero (Nat.ne_of_gt hfuel)
    exact runs_not_eat hfollow (runs_pure rfl)
  | cons s rest ih =>
    obtain ⟨fuel, rfl⟩ := Nat.exists_eq_succ_of_ne_zero (Nat.ne_of_gt (Nat.zero_lt_of_lt hfuel))
    refine runs_eat (runs_segment fun span => ?_)
    refine (ih span (Nat.lt_of_succ_lt_succ hfuel)).last ?_
    rintro ⟨more, final⟩ rfl
    exact runs_pure rfl

/-- Every segment takes a token at least. -/
lemma length_le_kindsAfter (segments : List Segment) :
    segments.length ≤ (Segment.kindsAfter segments).length := by
  induction segments with
  | nil => exact Nat.le_refl _
  | cons s rest ih =>
    simp only [Segment.kindsAfter, List.flatMap_cons, List.length_append, List.length_cons] at ih ⊢
    omega

/-- A path is read again. -/
lemma runs_path {follow : Kind → Prop} (hfollow : ∀ k, follow k → k ≠ .dot) {q : Path}
    (hq : q.segments ≠ []) :
    Runs path q.kinds follow (Yields fun r => r.segments = q.segments) := by
  obtain ⟨first, more, hsegments⟩ := List.exists_cons_of_ne_nil hq
  have hkinds : q.kinds = first.kind :: Segment.kindsAfter more := by
    simp only [Path.kinds, hsegments]
  rw [hkinds, hsegments]
  refine runs_segment fun start => runs_steps fun fuel hfuel => ?_
  have hmore : more.length < fuel := Nat.lt_of_le_of_lt (length_le_kindsAfter more) hfuel
  refine (runs_segmentsAfter hfollow more start hmore).last ?_
  rintro ⟨more', final⟩ rfl
  exact runs_pure rfl

/-- Values that are read one by one are read with commas between them. -/
lemma runs_separated {value : Parser α} {follow : Kind → Prop} {kindsOf : α → List Kind}
    {view : α → γ} (hcomma : follow .comma) (hclose : follow .closeParen) {xs : List α}
    (hne : xs ≠ [])
    (hvalue : ∀ x ∈ xs, Runs value (kindsOf x) follow (Yields fun a => view a = view x))
    {fuel : Nat} (hfuel : xs.length ≤ fuel) :
    Runs (separated value fuel) ([Kind.comma].intercalate (xs.map kindsOf)) (· = .closeParen)
      (Yields fun as => as.map view = xs.map view) := by
  induction xs generalizing fuel with
  | nil => exact absurd rfl hne
  | cons x rest ih =>
    obtain ⟨hx, hrest⟩ := List.forall_mem_cons.mp hvalue
    obtain ⟨fuel, rfl⟩ := Nat.exists_eq_succ_of_ne_zero (Nat.ne_of_gt (Nat.zero_lt_of_lt hfuel))
    cases rest with
    | nil =>
      rw [List.map_singleton, List.intercalate_singleton]
      have hlast : Runs value (kindsOf x) (· = .closeParen) (Yields fun a => view a = view x) :=
        hx.mono fun k hk => hk ▸ hclose
      refine hlast.last fun a ha => runs_not_eat ?_ (runs_pure (by simpa using ha))
      rintro k rfl
      simp
    | cons y rest =>
      rw [List.map_cons, List.map_cons, List.intercalate_cons_cons, List.append_assoc,
        ← List.map_cons]
      refine hx.bind (fun a ha => runs_eat ?_) fun k hk => (show k = .comma from hk) ▸ hcomma
      refine (ih (List.cons_ne_nil _ _) hrest (Nat.le_of_succ_le_succ hfuel)).last fun as has => ?_
      exact runs_pure (by simpa [ha] using has)

/-- If one of several values is too deep, then reading them ends there. -/
lemma overruns_separated {value : Parser α} {follow : Kind → Prop} {kindsOf : α → List Kind}
    {view : α → γ} {fits : α → Prop} (hcomma : follow .comma) {xs : List α}
    (hvalue : ∀ x ∈ xs, fits x →
      Runs value (kindsOf x) follow (Yields fun a => view a = view x))
    (hdeep : ∀ x ∈ xs, ¬ fits x → Overruns value (kindsOf x)) (hsome : ¬ ∀ x ∈ xs, fits x)
    {fuel : Nat} (hfuel : xs.length ≤ fuel) :
    Overruns (separated value fuel) ([Kind.comma].intercalate (xs.map kindsOf)) := by
  induction xs generalizing fuel with
  | nil => exact absurd (fun x hx => absurd hx List.not_mem_nil) hsome
  | cons x rest ih =>
    obtain ⟨hx, hrest⟩ := List.forall_mem_cons.mp hvalue
    obtain ⟨hxdeep, hrestdeep⟩ := List.forall_mem_cons.mp hdeep
    obtain ⟨fuel, rfl⟩ := Nat.exists_eq_succ_of_ne_zero (Nat.ne_of_gt (Nat.zero_lt_of_lt hfuel))
    by_cases hfits : fits x
    · -- the first value is read, so one of the others is too deep
      have hothers : ¬ ∀ y ∈ rest, fits y := fun h => hsome (List.forall_mem_cons.mpr ⟨hfits, h⟩)
      cases rest with
      | nil => exact absurd (fun y hy => absurd hy List.not_mem_nil) hothers
      | cons y rest =>
        rw [List.map_cons, List.map_cons, List.intercalate_cons_cons, List.append_assoc,
          ← List.map_cons]
        refine (hx hfits).bind (fun a _ => runs_eat ?_) fun k hk =>
          (show k = .comma from hk) ▸ hcomma
        exact (ih hrest hrestdeep hothers (Nat.le_of_succ_le_succ hfuel)).bind _
    · have hfirst := (hxdeep hfits).bind fun first => do
        if ← eat .comma then
          let more ← separated value fuel
          pure (first :: more)
        else pure [first]
      cases rest with
      | nil =>
        rw [List.map_singleton, List.intercalate_singleton]
        exact hfirst
      | cons y rest =>
        rw [List.map_cons, List.map_cons, List.intercalate_cons_cons, List.append_assoc]
        exact hfirst.append _

/-- Each value of a list takes up a token at least, the comma or parenthesis after it. -/
lemma length_le_of_listed {each : List (List Kind)} {n : Nat}
    (h : (Kind.listed each).length < n) : each.length ≤ n := by
  have hle : each.length ≤ ([Kind.comma].intercalate each).length + 1 := by
    clear h
    induction each with
    | nil => exact Nat.zero_le _
    | cons x rest ih =>
      cases rest with
      | nil => simp
      | cons y rest =>
        rw [List.intercalate_cons_cons]
        simp only [List.length_append, List.length_cons, List.length_nil] at ih ⊢
        omega
  rw [Kind.listed, List.length_append, List.length_singleton] at h
  omega

/-- A way to write values does not begin with a closing parenthesis. -/
def Opens (kinds : List Kind) : Prop :=
  ∃ first more, kinds = first :: more ∧ first ≠ .closeParen

/-- A list that is not empty does not begin with the parenthesis that closes it. -/
lemma Opens.ne_closeParen {each : List (List Kind)} {x : List Kind} (h : Opens x)
    {follow : Kind → Prop} {k : Kind} (hk : First (Kind.listed (x :: each)) follow k) :
    k ≠ .closeParen := by
  obtain ⟨first, more, rfl, hfirst⟩ := h
  cases each with
  | nil =>
    rw [Kind.listed, List.intercalate_singleton] at hk
    exact (show k = first from hk) ▸ hfirst
  | cons y each =>
    rw [Kind.listed, List.intercalate_cons_cons] at hk
    exact (show k = first from hk) ▸ hfirst

section Lists

variable {value : Parser α} {follow : Kind → Prop} {kindsOf : α → List Kind} {view : α → γ}
  {xs : List α}

/-- A list in parentheses is read again. -/
lemma runs_listed {follow' : Kind → Prop} (hcomma : follow .comma) (hclose : follow .closeParen)
    (hopens : ∀ x ∈ xs, Opens (kindsOf x))
    (hvalue : ∀ x ∈ xs, Runs value (kindsOf x) follow (Yields fun a => view a = view x)) :
    Runs (listed value) (Kind.listed (xs.map kindsOf)) follow'
      (Yields fun r => r.1.map view = xs.map view) := by
  refine runs_peek fun t ht => ?_
  cases xs with
  | nil =>
    rw [if_pos (show t.kind = .closeParen from ht)]
    have hend : Runs (expect .closeParen >>= fun close => pure (([] : List α), close)) [.closeParen]
        follow' (Yields fun r => r.1.map view = [].map view) :=
      runs_expect fun close => runs_pure rfl
    exact hend
  | cons x rest =>
    have hopen : Opens (kindsOf x) := hopens x (List.mem_cons_self ..)
    rw [if_neg (hopen.ne_closeParen ht)]
    refine runs_steps fun fuel hfuel => ?_
    have hlength : (x :: rest).length ≤ fuel := by
      simpa only [List.length_map] using length_le_of_listed hfuel
    refine (runs_separated hcomma hclose (List.cons_ne_nil _ _) hvalue hlength).bind
      (fun as has => ?_) fun _ hk => hk
    exact runs_expect fun close => runs_pure has

/-- A list in parentheses with a value that is too deep is too deep. -/
lemma overruns_listed {fits : α → Prop} (hcomma : follow .comma)
    (hopens : ∀ x ∈ xs, Opens (kindsOf x))
    (hvalue : ∀ x ∈ xs, fits x →
      Runs value (kindsOf x) follow (Yields fun a => view a = view x))
    (hdeep : ∀ x ∈ xs, ¬ fits x → Overruns value (kindsOf x)) (hsome : ¬ ∀ x ∈ xs, fits x) :
    Overruns (listed value) (Kind.listed (xs.map kindsOf)) := by
  refine runs_peek fun t ht => ?_
  cases xs with
  | nil => exact absurd (fun x hx => absurd hx List.not_mem_nil) hsome
  | cons x rest =>
    have hopen : Opens (kindsOf x) := hopens x (List.mem_cons_self ..)
    rw [if_neg (hopen.ne_closeParen ht)]
    refine runs_steps fun fuel hfuel => ?_
    have hlength : (x :: rest).length ≤ fuel := by
      simpa only [List.length_map] using length_le_of_listed hfuel
    exact ((overruns_separated hcomma hvalue hdeep hsome hlength).bind _).append _

end Lists

/-! ### Operands -/

namespace Level

/-- What can stand right after an operand. -/
def EndsOperand (k : Kind) : Prop := k ≠ .dot ∧ k ≠ .openParen

/-- What can stand right after a product. -/
def EndsProduct (k : Kind) : Prop := EndsOperand k ∧ productOp? k = none

/-- What can stand right after a sum. -/
def EndsSum (k : Kind) : Prop := EndsProduct k ∧ sumOp? k = none

variable {kinds : List Kind} {follow : Kind → Prop} {P : Cursor → Outcome β → Prop}

/-- A call is seen by the parenthesis after the name. -/
lemma runs_opensCall {f : Bool → Parser β} {k : Kind}
    (h : Runs (f true) (k :: .openParen :: kinds) follow P) :
    Runs (opensCall >>= f) (k :: .openParen :: kinds) follow P := by
  intro used rest stop hused hfollow
  have hrun := h used rest stop hused hfollow
  obtain ⟨t, used, rfl, -, hused⟩ := List.map_eq_cons_iff.mp hused
  obtain ⟨⟨_, span⟩, used, rfl, rfl, -⟩ := List.map_eq_cons_iff.mp hused
  exact hrun

/-- No call is seen if no parenthesis comes after the name. -/
lemma runs_not_opensCall {f : Bool → Parser β} {k : Kind}
    (hnext : ∀ k, First kinds follow k → k ≠ .openParen)
    (h : Runs (f false) (k :: kinds) follow P) :
    Runs (opensCall >>= f) (k :: kinds) follow P := by
  intro used rest stop hused hfollow
  have hrun := h used rest stop hused hfollow
  obtain ⟨t, used, rfl, -, hused⟩ := List.map_eq_cons_iff.mp hused
  have hne := hnext _ (first_current hused hfollow)
  have hopens : opensCall ⟨t :: used ++ rest, stop⟩ = .ok (false, ⟨t :: used ++ rest, stop⟩) := by
    unfold opensCall
    split
    · rename_i heq
      rw [List.cons_append, List.cons.injEq] at heq
      rw [heq.2] at hne
      exact absurd rfl hne
    · rfl
  rw [bind_of_ok hopens]
  exact hrun

/-- With `room` levels below the given one, the reader reads the expression and goes on with `next`;
if the expression needs more levels than that, the reader finds it too deep. -/
structure Reading (p : Parser Expr) (next : Expr → Parser Expr) (follow : Kind → Prop) (e : Expr)
    (level room : Nat) : Prop where
  reads : e.deepest (level + 1) ≤ level + room →
    Runs p e.kinds follow (Reaches next fun e' => e'.bare = e.bare)
  overruns : level + room < e.deepest (level + 1) → Overruns p e.kinds

/-- Without levels, nothing is read. -/
lemma reading_exhausted (next : Expr → Parser Expr) (follow : Kind → Prop) (e : Expr)
    (level : Nat) : Reading tooDeep next follow e level 0 where
  reads h := by
    have hle := e.le_deepest (level + 1)
    omega
  overruns _ := overruns_tooDeep _

/-! ### Chains -/

/-- Sums and products are read in the same way, as chains of operands.  On each level there are
readers of the whole chain, of an operand, and of what follows the operands that are read. -/
structure Chain where
  tier : Tier
  op? : Kind → Option BinaryOp
  /-- What can stand right after an operand. -/
  follow : Kind → Prop
  whole : Nat → Parser Expr
  operandAt : Nat → Parser Expr
  after : Nat → Expr → Parser Expr
  whole_zero : whole 0 = tooDeep
  whole_succ (n : Nat) : whole (n + 1) = operandAt (n + 1) >>= after (n + 1)
  after_succ (n : Nat) (left : Expr) : after (n + 1) left = do
    match op? (← peek).kind with
    | none => pure left
    | some op =>
      advance
      let right ← operandAt n
      after n (join left op right)
  op?_kind (op : BinaryOp) : op.tier = tier → op? op.kind = some op
  follow_kind (op : BinaryOp) : op.tier = tier → follow op.kind

/-- Products are chains of signed operands. -/
def products : Chain where
  tier := .product
  op? := productOp?
  follow := EndsOperand
  whole n := (ofNat n).product
  operandAt n := (ofNat n).signed
  after n := (ofNat n).productAfter
  whole_zero := rfl
  whole_succ _ := rfl
  after_succ _ _ := rfl
  op?_kind op h := by cases op <;> simp [BinaryOp.tier] at h <;> rfl
  follow_kind op _ := by cases op <;> simp [EndsOperand, BinaryOp.kind]

/-- Sums are chains of products. -/
def sums : Chain where
  tier := .sum
  op? := sumOp?
  follow := EndsProduct
  whole n := (ofNat n).sum
  operandAt n := (ofNat n).product
  after n := (ofNat n).sumAfter
  whole_zero := rfl
  whole_succ _ := rfl
  after_succ _ _ := rfl
  op?_kind op h := by cases op <;> simp [BinaryOp.tier] at h <;> rfl
  follow_kind op h := by
    cases op <;> simp [BinaryOp.tier] at h <;>
      simp [EndsProduct, EndsOperand, BinaryOp.kind, productOp?]

namespace Chain

variable (chain : Chain)

/-- On every level the chain is read up to its end, where reading goes on with what may follow. -/
def IsRead (e : Expr) : Prop :=
  ∀ level room, Reading (chain.whole room) (chain.after (room - e.links chain.tier)) chain.follow e
    level room

variable {chain} {e left right : Expr} {op : BinaryOp}

/-- A single operand is a chain without links. -/
lemma isRead_operand
    (he : ∀ level room, Reading (chain.operandAt room) pure chain.follow e level room)
    (hlinks : e.links chain.tier = 0) : chain.IsRead e := by
  intro level room
  cases room with
  | zero =>
    rw [chain.whole_zero]
    exact reading_exhausted _ _ _ _
  | succ room =>
    rw [hlinks, chain.whole_succ]
    exact ⟨fun h => ((he level (room + 1)).reads h).then _,
      fun h => ((he level (room + 1)).overruns h).bind _⟩

/-- The right operand of the next operator of a chain is read one level below the last one. -/
lemma IsRead.link (hleft : chain.IsRead left)
    (hright : ∀ level room, Reading (chain.operandAt room) pure chain.follow right level room)
    (hop : op.tier = chain.tier) (span : Span) : chain.IsRead (.binary left op right span) := by
  intro level room
  set links := left.links chain.tier with hlinks
  have hchain : level + 1 + links ≤ left.deepest (level + 1) :=
    left.add_links_le_deepest chain.tier (level + 1)
  have hbelow := right.le_deepest (level + (links + 1) + 1)
  have hlength : (Expr.binary left op right span).links chain.tier = links + 1 := by
    simp [Expr.links, hop, ← hlinks]
  have hkinds : (Expr.binary left op right span).kinds = left.kinds ++ op.kind :: right.kinds := by
    simp only [Expr.kinds]
  have hdeepest : (Expr.binary left op right span).deepest (level + 1) =
      max (left.deepest (level + 1)) (right.deepest (level + (links + 1) + 1)) := by
    simp only [Expr.deepest, hop, ← hlinks]
    congr 2
    omega
  -- the operator is passed, and what comes then is one level below
  have hlink : ∀ {left' : Expr} {follow : Kind → Prop} {P : Cursor → Outcome Expr → Prop},
      links < room → Runs (chain.operandAt (room - (links + 1)) >>= fun right =>
        chain.after (room - (links + 1)) (join left' op right)) right.kinds follow P →
      Runs (chain.after (room - links) left') (op.kind :: right.kinds) follow P := by
    intro left' follow P hroom hright
    have hn : room - links = room - (links + 1) + 1 := by omega
    rw [hn, chain.after_succ]
    refine runs_peek fun t ht => ?_
    rw [show t.kind = op.kind from ht, chain.op?_kind op hop]
    exact runs_advance hright
  have hfirst : ∀ {follow : Kind → Prop} (k : Kind),
      First (op.kind :: right.kinds) follow k → chain.follow k :=
    fun k hk => (show k = op.kind from hk) ▸ chain.follow_kind op hop
  rw [hlength]
  constructor
  · intro h
    rw [hdeepest, Nat.max_le] at h
    rw [hkinds]
    refine ((hleft level room).reads h.1).trans (fun left' hleft' => hlink (by omega) ?_) hfirst
    have hread := (hright (level + (links + 1)) (room - (links + 1))).reads (by omega)
    refine (hread.then _).reaches fun right' hright' => ?_
    simp [join, hleft', hright']
  · intro h
    rw [hdeepest] at h
    rw [hkinds]
    by_cases hfits : left.deepest (level + 1) ≤ level + room
    · refine ((hleft level room).reads hfits).trans (fun left' _ => hlink (by omega) ?_) hfirst
      exact ((hright (level + (links + 1)) (room - (links + 1))).overruns (by omega)).bind _
    · exact ((hleft level room).overruns (by omega)).append _

/-- A chain ends where no operator follows. -/
lemma IsRead.whole (he : chain.IsRead e) (level room : Nat) :
    Reading (chain.whole room) pure (fun k => chain.follow k ∧ chain.op? k = none) e level
      room where
  reads h := by
    have hchain := e.add_links_le_deepest chain.tier (level + 1)
    have hn : room - e.links chain.tier = room - (e.links chain.tier + 1) + 1 := by omega
    have hend : Runs (chain.whole room) (e.kinds ++ [])
        (fun k => chain.follow k ∧ chain.op? k = none) (Yields fun e' => e'.bare = e.bare) := by
      refine ((he level room).reads h).trans (fun e' he' => ?_) fun k hk => hk.1
      rw [hn, chain.after_succ]
      refine runs_peek fun t ht => ?_
      rw [(show chain.follow t.kind ∧ chain.op? t.kind = none from ht).2]
      exact runs_pure he'
    rwa [List.append_nil] at hend
  overruns := (he level room).overruns

end Chain

/-! ### Expressions -/

/-- An expression of a given kind is read on every level. -/
def IsRead : Tier → Expr → Prop
  | .sum, e => sums.IsRead e
  | .product, e => products.IsRead e
  | .signed, e => ∀ level room, Reading (ofNat room).signed pure EndsOperand e level room
  | .operand, e => ∀ level room,
    Reading (operand (ofNat room).sum) pure EndsOperand e level (room + 1)

/-- The arguments of a call are read one level below it. -/
lemma reading_arguments {args : List Expr} (hfits : ∀ e ∈ args, Fits .sum e)
    (hargs : ∀ e ∈ args, IsRead .sum e) (level room : Nat) :
    (Expr.deepestOfAll (level + 1) args ≤ level + (room + 1) →
      ∀ follow, Runs (listed (ofNat room).sum) (Kind.listed (Expr.kindsOfEach args)) follow
        (Yields fun r => r.1.map Expr.bare = args.map Expr.bare)) ∧
    (level + (room + 1) < Expr.deepestOfAll (level + 1) args →
      Overruns (listed (ofNat room).sum) (Kind.listed (Expr.kindsOfEach args))) := by
  have hcomma : EndsSum .comma := ⟨⟨⟨by simp, by simp⟩, rfl⟩, rfl⟩
  have hclose : EndsSum .closeParen := ⟨⟨⟨by simp, by simp⟩, rfl⟩, rfl⟩
  have hopens : ∀ e ∈ args, Opens e.kinds := fun e he => by
    obtain ⟨first, more, hkinds, hfirst, -⟩ := (hfits e he).exists_kinds_eq_cons
    exact ⟨first, more, hkinds, hfirst⟩
  have hread : ∀ e ∈ args, Reading (ofNat room).sum pure EndsSum e (level + 1) room :=
    fun e he => Chain.IsRead.whole (hargs e he) (level + 1) room
  have hlevels : Expr.deepestOfAll (level + 1) args ≤ level + (room + 1) ↔
      ∀ e ∈ args, e.deepest (level + 1 + 1) ≤ level + 1 + room := by
    rw [Expr.deepestOfAll_le_iff (by omega), show level + (room + 1) = level + 1 + room by omega]
  rw [Expr.kindsOfEach_eq_map]
  refine ⟨fun h follow => ?_, fun h => ?_⟩
  · exact runs_listed hcomma hclose hopens fun e he => (hread e he).reads (hlevels.mp h e he)
  · refine overruns_listed hcomma hopens (fun e he => (hread e he).reads)
      (fun e he hdeep => (hread e he).overruns (Nat.lt_of_not_le hdeep)) fun hall => ?_
    exact absurd (hlevels.mpr hall) (Nat.not_le_of_lt h)

/-- An operand without a sign is read as one with signs. -/
lemma isRead_unsigned {e : Expr} (hfits : Fits .operand e) (he : IsRead .operand e) :
    IsRead .signed e := by
  intro level room
  obtain ⟨first, more, hkinds, -, hminus⟩ := hfits.exists_kinds_eq_cons
  have hfirst : ∀ {follow : Kind → Prop} (k : Kind), First e.kinds follow k → k ≠ .minus := by
    intro follow k hk
    rw [hkinds] at hk
    exact (show k = first from hk) ▸ hminus rfl
  cases room with
  | zero => exact reading_exhausted _ _ _ _
  | succ room =>
    refine ⟨fun h => ?_, fun h => ?_⟩
    · exact runs_peek fun t _ => runs_not_eat hfirst ((he level room).reads h)
    · exact runs_peek fun t _ => runs_not_eat hfirst ((he level room).overruns h)

/-- A sign is read before what it applies to. -/
lemma isRead_neg {inner : Expr} (h : IsRead .signed inner) (span : Span) :
    IsRead .signed (.neg inner span) := by
  intro level room
  have hdeepest : (Expr.neg inner span).deepest (level + 1) = inner.deepest (level + 1 + 1) := by
    simp only [Expr.deepest]
  have hkinds : (Expr.neg inner span).kinds = .minus :: inner.kinds := by simp only [Expr.kinds]
  cases room with
  | zero => exact reading_exhausted _ _ _ _
  | succ room =>
    refine ⟨fun hroom => ?_, fun hroom => ?_⟩
    · rw [hkinds]
      refine runs_peek fun t _ => runs_eat ?_
      refine ((h (level + 1) room).reads (by omega)).last fun inner' hinner => runs_pure ?_
      simp [hinner]
    · rw [hkinds]
      refine runs_peek fun t _ => runs_eat ?_
      exact ((h (level + 1) room).overruns (by omega)).bind _

/-- An operand that holds no expression is read on every level. -/
lemma isRead_leaf {e : Expr} (hdeepest : ∀ level, e.deepest level = level)
    (hread : ∀ inner, Runs (operand inner) e.kinds EndsOperand
      (Yields fun e' => e'.bare = e.bare)) : IsRead .operand e := by
  intro level room
  refine ⟨fun _ => hread _, fun h => ?_⟩
  rw [hdeepest] at h
  omega

/-- A number is read. -/
lemma isRead_number (value : Float) (span : Span) : IsRead .operand (.number value span) := by
  refine isRead_leaf (fun level => by simp only [Expr.deepest]) fun inner => ?_
  simp only [Expr.kinds]
  refine runs_peek ?_
  rintro ⟨kind, start⟩ rfl
  exact runs_advance (runs_pure (by simp))

/-- A path is read. -/
lemma isRead_path {q : Path} (hq : q.segments ≠ []) : IsRead .operand (.path q) := by
  refine isRead_leaf (fun level => by simp only [Expr.deepest]) fun inner => ?_
  have hpath : Runs (do let value ← path; pure (Expr.path value)) q.kinds EndsOperand
      (Yields fun e => e.bare = (Expr.path q).bare) := by
    refine (runs_path (fun k hk => hk.1) hq).last fun r hr => runs_pure ?_
    simp [hr]
  obtain ⟨first, more, hsegments⟩ := List.exists_cons_of_ne_nil hq
  have hkinds : q.kinds = first.kind :: Segment.kindsAfter more := by
    simp only [Path.kinds, hsegments]
  simp only [Expr.kinds]
  rw [hkinds] at hpath ⊢
  refine runs_peek ?_
  rintro ⟨kind, start⟩ rfl
  cases first with
  | template text => exact hpath
  | name text =>
    -- a name with a parenthesis after it would be a call
    refine runs_not_opensCall (fun k hk => ?_) hpath
    cases more with
    | nil => exact hk.2
    | cons s more => simp [show k = .dot from hk]

/-- A macro without arguments is read. -/
lemma isRead_macroUse (name : Ident) (span : Span) : IsRead .operand (.macroUse name span) := by
  refine isRead_leaf (fun level => by simp only [Expr.deepest]) fun inner => ?_
  simp only [Expr.kinds]
  refine runs_peek ?_
  rintro ⟨kind, start⟩ rfl
  refine runs_advance (runs_ident fun start => runs_not_eat (fun k hk => ?_) (runs_pure (by simp)))
  exact hk.2

/-- An operand that ends with a list of arguments is read if the tokens before that list, from
which `make` takes what it needs, lead to reading the list. -/
lemma isRead_application {σ : Type} (make : σ → List Expr × Token → Expr) (lead : List Kind)
    {args : List Expr} {e : Expr} (hfits : ∀ e ∈ args, Fits .sum e)
    (hargs : ∀ e ∈ args, IsRead .sum e)
    (hkinds : e.kinds = lead ++ Kind.listed (Expr.kindsOfEach args))
    (hdeepest : ∀ level, e.deepest level = Expr.deepestOfAll level args)
    (hmake : ∀ s r, r.1.map Expr.bare = args.map Expr.bare → (make s r).bare = e.bare)
    (hlead : ∀ (inner : Parser Expr) (kinds : List Kind) (follow : Kind → Prop)
      (P : Cursor → Outcome Expr → Prop),
      (∀ s, Runs (listed inner >>= fun r => pure (make s r)) kinds follow P) →
      Runs (operand inner) (lead ++ kinds) follow P) : IsRead .operand e := by
  intro level room
  obtain ⟨hread, hdeep⟩ := reading_arguments hfits hargs level room
  constructor
  · intro h
    rw [hkinds]
    refine hlead _ _ _ _ fun s => (hread (hdeepest _ ▸ h) _).last fun r hr => ?_
    exact runs_pure (hmake s r hr)
  · intro h
    rw [hkinds]
    exact hlead _ _ _ _ fun s => (hdeep (hdeepest _ ▸ h)).bind _

/-- A function is read with its arguments. -/
lemma isRead_call {args : List Expr} (hfits : ∀ e ∈ args, Fits .sum e)
    (hargs : ∀ e ∈ args, IsRead .sum e) (name : Ident) (span : Span) :
    IsRead .operand (.call name args span) := by
  refine isRead_application
    (fun (start : Span) r => .call ⟨name.text, start⟩ r.1 (start.merge r.2.span))
    [.name name.text, .openParen] hfits hargs (by simp only [Expr.kinds]; rfl)
    (fun level => by simp only [Expr.deepest]) (fun start r hr => by simp [hr]) ?_
  intro inner kinds follow P hrun
  refine runs_peek ?_
  rintro ⟨kind, _⟩ rfl
  exact runs_opensCall (runs_ident fun start => runs_advance (hrun start))

/-- A macro is read with its arguments. -/
lemma isRead_macroCall {args : List Expr} (hfits : ∀ e ∈ args, Fits .sum e)
    (hargs : ∀ e ∈ args, IsRead .sum e) (name : Ident) (span : Span) :
    IsRead .operand (.macroCall name args span) := by
  refine isRead_application
    (fun (s : Span × Span) r => .macroCall ⟨name.text, s.2⟩ r.1 (s.1.merge r.2.span))
    [.bang, .name name.text, .openParen] hfits hargs (by simp only [Expr.kinds]; rfl)
    (fun level => by simp only [Expr.deepest]) (fun s r hr => by simp [hr]) ?_
  intro inner kinds follow P hrun
  refine runs_peek ?_
  rintro ⟨kind, mark⟩ rfl
  exact runs_advance (runs_ident fun start => runs_eat (hrun (mark, start)))

/-- An expression in parentheses is read. -/
lemma isRead_paren {inner : Expr} (h : IsRead .sum inner) (span : Span) :
    IsRead .operand (.paren inner span) := by
  intro level room
  have hread := Chain.IsRead.whole h (level + 1) room
  have hdeepest : (Expr.paren inner span).deepest (level + 1) = inner.deepest (level + 1 + 1) := by
    simp only [Expr.deepest]
  have hkinds : (Expr.paren inner span).kinds = .openParen :: (inner.kinds ++ [.closeParen]) := by
    simp only [Expr.kinds]
  constructor
  · intro hroom
    rw [hkinds]
    refine runs_peek ?_
    rintro ⟨kind, start⟩ rfl
    refine runs_advance ((hread.reads (by omega)).bind (fun inner' hinner => ?_) fun k hk => ?_)
    · exact runs_expect fun close => runs_pure (by simp [hinner])
    · exact (show k = .closeParen from hk) ▸ ⟨⟨⟨by simp, by simp⟩, rfl⟩, rfl⟩
  · intro hroom
    rw [hkinds]
    refine runs_peek ?_
    rintro ⟨kind, start⟩ rfl
    exact runs_advance (((hread.overruns (by omega)).bind _).append _)

/-- Every expression of the grammar is read on every level. -/
theorem isRead_of_fits {tier : Tier} {e : Expr} (h : Fits tier e) : IsRead tier e := by
  induction h with
  | term h ih => exact Chain.isRead_operand (Chain.IsRead.whole ih) h.links_sum_of_product
  | add hop _ _ hleft hright => exact Chain.IsRead.link hleft (Chain.IsRead.whole hright) hop _
  | factor h ih => exact Chain.isRead_operand ih (h.links_of_signed _)
  | multiply hop _ _ hleft hright => exact Chain.IsRead.link hleft hright hop _
  | unsigned h ih => exact isRead_unsigned h ih
  | neg _ ih => exact isRead_neg ih _
  | number => exact isRead_number _ _
  | path h => exact isRead_path h
  | call hargs ih => exact isRead_call hargs ih _ _
  | macroUse => exact isRead_macroUse _ _
  | macroCall hargs ih => exact isRead_macroCall hargs ih _ _
  | paren _ ih => exact isRead_paren ih _

end Level

section Expressions

variable {e : Expr} (h : Fits .sum e)

include h

/-- An expression of the grammar is read if the levels suffice. -/
theorem runs_expr (hlevels : e.deepest 1 ≤ Limit.exprLevels) :
    Runs expr e.kinds Level.EndsSum (Yields fun e' => e'.bare = e.bare) :=
  (Level.Chain.IsRead.whole (Level.isRead_of_fits h) 0 Limit.exprLevels).reads
    (by rwa [Nat.zero_add, Nat.zero_add])

/-- An expression of the grammar is found too deep if the levels do not suffice. -/
theorem overruns_expr (hlevels : Limit.exprLevels < e.deepest 1) : Overruns expr e.kinds :=
  (Level.Chain.IsRead.whole (Level.isRead_of_fits h) 0 Limit.exprLevels).overruns
    (by rwa [Nat.zero_add, Nat.zero_add])

end Expressions

end Parser

end SheetRules
