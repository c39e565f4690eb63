import SheetRules.Command.Disk

/-!
# What a command does to its surroundings

A command reads files, writes files, and shows text on two streams. It is written for any monad in
which these four steps can be taken. In the program they are taken in `IO`; over a `Disk` they
change a `World`, which remembers every step, also those of a command that fails later.
-/

namespace SheetRules

namespace Command

/-- The steps that a command can take, in the monad `m`. -/
structure Effects (m : Type → Type) where
  /-- The text of a file. -/
  read : String → m (Except DiskError String)
  /-- Writes a text to a file. -/
  write : String → String → m (Except DiskError Unit)
  /-- Shows a text on the standard output. -/
  print : String → m Unit
  /-- Shows a text on the standard error stream. -/
  complain : String → m Unit

/-- A step that was taken. -/
inductive Event where
  | read (path : String)
  | write (path text : String)
  | print (text : String)
  | complain (text : String)
deriving DecidableEq, Repr

namespace Event

/-- The text that a step shows on the standard error stream. -/
def complained? : Event → Option String
  | .complain text => some text
  | _ => none

end Event

/-- The surroundings of a command: the files, and the steps taken so far. -/
structure World (σ : Type) where
  files : σ
  events : List Event := []
deriving DecidableEq, Repr

namespace World

variable {σ : Type}

/-- The world after one more step, which may have changed the files. -/
def after (w : World σ) (event : Event) (files : σ) : World σ :=
  { files, events := w.events ++ [event] }

/-- The text on the standard error stream. -/
def stderr (w : World σ) : String :=
  String.join (w.events.filterMap Event.complained?)

end World

/-- The steps over a disk. -/
def effects {σ : Type} (disk : Disk σ) : Effects (StateM (World σ)) where
  read path := fun w => (disk.read w.files path, w.after (.read path) w.files)
  write path text := fun w =>
    let (result, files) := disk.write w.files path text
    (result, w.after (.write path text) files)
  print text := fun w => ((), w.after (.print text) w.files)
  complain text := fun w => ((), w.after (.complain text) w.files)

end Command

end SheetRules
