/-!
# Command lines

A command line is read from left to right. Options may be given in a long form, `--output x` or
`--output=x`, and in a short one, `-o x`, `-ox` or `-o=x`; short options without a value can be put
together. An option is given at most once. After `--` nothing is an option.

The first argument that is not understood decides, a value that its option does not accept among
them; only what is missing is found at the end.
-/

namespace SheetRules

namespace Command

/-- The formats that a feature can be compiled to. -/
inductive Format where
  | typeScript
  | document
deriving DecidableEq, Repr

namespace Format

/-- The name of a format, which is also its file extension. -/
def name : Format → String
  | .typeScript => "ts"
  | .document => "json"

/-- The format of a given name. -/
def ofName? (name : String) : Option Format :=
  [Format.typeScript, .document].find? fun format => format.name == name

end Format

/-- What is compiled, to which format, and where the result goes. -/
structure CompileArgs where
  input : String
  output? : Option String
  format : Format
deriving DecidableEq, Repr

/-- Which statements are run on which store, with which options, and where the result goes. -/
structure RunArgs where
  document : String
  store : String
  config? : Option String
  carryOn : Bool
  output? : Option String
deriving DecidableEq, Repr

/-- What a command line asks for. -/
inductive Invocation where
  | compile (args : CompileArgs)
  | run (args : RunArgs)
  | version
  | help
  /-- The command line is not understood. -/
  | usage
deriving DecidableEq, Repr

/-- The options of a command. -/
inductive Flag where
  | output
  | format
  | store
  | config
  | carryOn
  | verbose
  | help
  | version
deriving DecidableEq, Repr

namespace Flag

/-- The long name of an option. -/
def long : Flag → String
  | .output => "output"
  | .format => "format"
  | .store => "store"
  | .config => "config"
  | .carryOn => "continue-on-error"
  | .verbose => "verbose"
  | .help => "help"
  | .version => "version"

/-- The short name of an option. -/
def short? : Flag → Option Char
  | .output => some 'o'
  | .format => some 'f'
  | .store => some 's'
  | .config => some 'c'
  | .carryOn => none
  | .verbose => some 'v'
  | .help => some 'h'
  | .version => some 'V'

/-- The option has a value. -/
def takesValue : Flag → Bool
  | .output => true
  | .format => true
  | .store => true
  | .config => true
  | _ => false

/-- The option accepts a value: the name of a format, or a file name, which must not be empty. -/
def accepts (option : Flag) (value : String) : Bool :=
  match option with
  | .format => (Format.ofName? value).isSome
  | _ => !option.takesValue || !value.isEmpty

end Flag

/-- The options that stand before the command. -/
def globalOptions : List Flag := [.verbose, .help, .version]

/-- The options of `compile`. -/
def compileOptions : List Flag := [.output, .format, .verbose, .help]

/-- The options of `run`. -/
def runOptions : List Flag := [.store, .config, .carryOn, .output, .verbose, .help]

/-- What was read of a command line: options with their values, the last first, and other
arguments. -/
structure Given where
  options : List (Flag × String) := []
  positional : Option String := none

namespace Given

/-- The value of an option. -/
def value? (g : Given) (option : Flag) : Option String :=
  g.options.lookup option

/-- The option was given. -/
def has (g : Given) (option : Flag) : Bool :=
  (g.value? option).isSome

end Given

/-- Adds an option. Asking for help or for the version ends reading, and so does an option that was
given before or does not accept its value. -/
def give (g : Given) (option : Flag) (value : String) : Except Invocation Given :=
  match option with
  | .help => .error .help
  | .version => .error .version
  | _ =>
    if g.has option || !option.accepts value then .error .usage
    else .ok { g with options := (option, value) :: g.options }

/-- An argument that begins like an option. -/
def looksLikeOption (arg : String) : Bool :=
  match arg.toList with
  | '-' :: _ :: _ => true
  | _ => false

/-- Adds an option whose value is the next argument. Returns the arguments after it. -/
def giveNext (g : Given) (option : Flag) : List String → Except Invocation (Given × List String)
  | [] => .error .usage
  | value :: rest => do
    if looksLikeOption value then .error .usage
    else .ok (← give g option value, rest)

/-- Reads an option in its long form, after the two dashes. -/
def readLong (known : List Flag) (g : Given) (text : List Char) (rest : List String) :
    Except Invocation (Given × List String) :=
  let name := String.ofList (text.takeWhile (· ≠ '='))
  let value? := match text.dropWhile (· ≠ '=') with
    | [] => none
    | _ :: value => some (String.ofList value)
  match known.find? fun option => option.long == name with
  | none => .error .usage
  | some option =>
    match option.takesValue, value? with
    | true, some value => do .ok (← give g option value, rest)
    | true, none => giveNext g option rest
    | false, none => do .ok (← give g option "", rest)
    | false, some _ => .error .usage

/-- Reads options in their short form, after the dash. -/
def readShort (known : List Flag) (g : Given) (rest : List String) :
    List Char → Except Invocation (Given × List String)
  | [] => .ok (g, rest)
  | c :: more =>
    match known.find? fun option => option.short? == some c with
    | none => .error .usage
    | some option =>
      if option.takesValue then
        match more with
        | [] => giveNext g option rest
        | '=' :: value => do .ok (← give g option (String.ofList value), rest)
        | value => do .ok (← give g option (String.ofList value), rest)
      else do
        let g ← give g option ""
        readShort known g rest more

/-- Adds an argument that is no option, of which a command has one. It is a file name. -/
def givePositional (g : Given) (arg : String) : Except Invocation Given :=
  if g.positional.isSome || arg.isEmpty then .error .usage
  else .ok { g with positional := some arg }

/-- Adds arguments that are no options. -/
def givePositionals (g : Given) : List String → Except Invocation Given
  | [] => .ok g
  | arg :: rest => do givePositionals (← givePositional g arg) rest

/-- Reads the arguments of a command. Every argument is read in at most one step, so the number of
arguments is enough as `fuel`. -/
def readArgs (known : List Flag) : (fuel : Nat) → Given → List String → Except Invocation Given
  | _, g, [] => .ok g
  | 0, _, _ :: _ => .error .usage
  | fuel + 1, g, arg :: rest =>
    match arg.toList with
    | ['-', '-'] => givePositionals g rest
    | '-' :: '-' :: text => do
      let (g, rest) ← readLong known g text rest
      readArgs known fuel g rest
    | '-' :: c :: more => do
      let (g, rest) ← readShort known g rest (c :: more)
      readArgs known fuel g rest
    | _ => do
      let g ← givePositional g arg
      readArgs known fuel g rest

/-- An argument that has to be given. -/
def required : Option String → Except Invocation String
  | none => .error .usage
  | some arg => .ok arg

/-- The arguments of `compile`. -/
def compileArgs (g : Given) : Except Invocation CompileArgs := do
  let input ← required g.positional
  let format := ((g.value? .format).bind Format.ofName?).getD .typeScript
  .ok { input, output? := g.value? .output, format }

/-- The config of a run: the one that is given, or else the one that `environment` names. -/
def configOf (environment : Option String) (g : Given) : Except Invocation (Option String) :=
  match g.value? .config, environment with
  | some file, _ => .ok (some file)
  | none, some file => if Flag.config.accepts file then .ok (some file) else .error .usage
  | none, none => .ok none

/-- The arguments of `run`. -/
def runArgs (environment : Option String) (g : Given) : Except Invocation RunArgs := do
  let document ← required g.positional
  let store ← required (g.value? .store)
  let config? ← configOf environment g
  .ok { document, store, config?, carryOn := g.has .carryOn, output? := g.value? .output }

/-- Help may be asked for with the name of one command. -/
def readHelp : List String → Invocation
  | [] => .help
  | [name] => if name ∈ ["compile", "run", "help"] then .help else .usage
  | _ => .usage

/-- Reads a command by its name and the arguments after it. -/
def readCommand (environment : Option String) (name : String) (args : List String) :
    Except Invocation Invocation :=
  match name with
  | "compile" => do
    let g ← readArgs compileOptions args.length {} args
    .ok (.compile (← compileArgs g))
  | "run" => do
    let g ← readArgs runOptions args.length {} args
    .ok (.run (← runArgs environment g))
  | "help" => .ok (readHelp args)
  | _ => .ok .usage

/-- Reads the options before the command, and the command. -/
def readLine (environment : Option String) (g : Given) :
    List String → Except Invocation Invocation
  | [] => .error .usage
  | arg :: rest =>
    match arg.toList with
    | ['-', '-'] => .error .usage
    | '-' :: '-' :: text => do
      let (g, _) ← readLong globalOptions g text []
      readLine environment g rest
    | '-' :: c :: more => do
      let (g, _) ← readShort globalOptions g [] (c :: more)
      readLine environment g rest
    | _ => readCommand environment arg rest

/-- What a command line asks for. -/
def parse (environment : Option String) (args : List String) : Invocation :=
  match readLine environment {} args with
  | .ok invocation => invocation
  | .error invocation => invocation

end Command

end SheetRules
