import SheetRules.Text.Split

/-!
# Files

The commands see files through a `Disk`: what a path holds, and what becomes of the files when a
path is written. `FileTree` is one such disk, with folders, a working directory and files that
cannot be read.
-/

namespace SheetRules

/-- Why a file cannot be read or written. -/
inductive DiskError where
  | notFound
  | notDirectory
  | isDirectory
  | denied
  /-- The bytes of the file are no text. -/
  | notText
  | other (text : String)
deriving DecidableEq, Repr

/-- The message for a file that cannot be read or written. -/
def DiskError.message : DiskError → String
  | .notFound => "No such file or directory (os error 2)"
  | .notDirectory => "Not a directory (os error 20)"
  | .isDirectory => "Is a directory (os error 21)"
  | .denied => "Permission denied (os error 13)"
  | .notText => "stream did not contain valid UTF-8"
  | .other text => text

/-- The files that a command can see, kept in the form `σ`. -/
structure Disk (σ : Type) where
  /-- The text of a file. -/
  read : σ → String → Except DiskError String
  /-- Writes a text to a file: whether that worked, and the files afterwards. A write that fails may
  have done a part of its work. -/
  write : σ → String → String → Except DiskError Unit × σ

/-- The parts of a file name between slashes. -/
def pathParts (path : String) : List String :=
  (Text.split '/' path.toList).map String.ofList

/-- The file name with another extension: what follows the last point of its last part is replaced,
unless that point is the first character there. -/
def withExtension (path extension : String) : String :=
  let chars := path.toList.reverse
  let name := chars.takeWhile (· ≠ '/')
  let folder := chars.dropWhile (· ≠ '/')
  let stem := match name.dropWhile (· ≠ '.') with
    | _ :: c :: rest => c :: rest
    | _ => name
  String.ofList (folder.reverse ++ stem.reverse) ++ "." ++ extension

/-- What stands under a name. -/
inductive Entry where
  | text (content : String)
  /-- A file whose bytes are no text. -/
  | bytes
  /-- A file that can neither be read nor written. -/
  | locked
  | folder
deriving DecidableEq, Repr

/-- Files and folders, each under the names that lead to it from the root. -/
structure FileTree where
  entries : List (List String × Entry)
  /-- The working directory, which is there in any case. -/
  work : List String := []
deriving DecidableEq, Repr

namespace FileTree

/-- A working directory that holds named files and is otherwise empty. -/
def ofFiles (work : List String) (files : List (String × String)) : FileTree :=
  ⟨files.map fun file => (work ++ pathParts file.1, .text file.2), work⟩

/-- What stands under the given names. -/
def find? (t : FileTree) (names : List String) : Option Entry :=
  t.entries.lookup names

/-- The given names are those of a folder: the working directory, one above it, or one with an entry
of its own or for something in it. -/
def hasFolder (t : FileTree) (names : List String) : Bool :=
  names.isPrefixOf t.work || t.find? names == some .folder ||
    t.entries.any fun entry => names.length < entry.1.length && names.isPrefixOf entry.1

/-- Follows the parts of a path from a folder on. Every part but the last has to be a folder; the
root is above itself. -/
def follow (t : FileTree) (names : List String) : List String → Except DiskError (List String)
  | [] => .ok names
  | part :: rest =>
    if part = "" ∨ part = "." then follow t names rest
    else if part = ".." then follow t names.dropLast rest
    else
      let next := names ++ [part]
      if rest.isEmpty then .ok next
      else if t.hasFolder next then follow t next rest
      else if (t.find? next).isSome then .error .notDirectory
      else .error .notFound

/-- The names that the parts of a path lead to, from the root if the path begins with a slash and
from the working directory if not. -/
def resolve (t : FileTree) : List String → Except DiskError (List String)
  | [] => .error .notFound
  | [""] => .error .notFound
  | "" :: rest => t.follow [] rest
  | parts => t.follow t.work parts

/-- The text of a file. -/
def read (t : FileTree) (path : String) : Except DiskError String := do
  let names ← t.resolve (pathParts path)
  match t.find? names with
  | some (.text content) => .ok content
  | some .bytes => .error .notText
  | some .locked => .error .denied
  | some .folder => .error .isDirectory
  | none => .error (if t.hasFolder names then .isDirectory else .notFound)

/-- The tree with a text under the given names. -/
def put (t : FileTree) (names : List String) (text : String) : FileTree :=
  { t with entries := (names, .text text) :: t.entries.filter fun entry => entry.1 ≠ names }

/-- Writes a file. A slash at the end asks for a folder. -/
def write (t : FileTree) (path text : String) : Except DiskError Unit × FileTree :=
  let parts := pathParts path
  let named := (parts.reverse.dropWhile (· = "")).reverse
  match t.resolve (if named.isEmpty then parts else named) with
  | .error e => (.error e, t)
  | .ok names =>
    if t.hasFolder names || path.endsWith "/" then (.error .isDirectory, t)
    else if t.find? names = some .locked then (.error .denied, t)
    else (.ok (), t.put names text)

/-- The tree as it is seen by a command. -/
def disk : Disk FileTree := ⟨read, write⟩

/-- The files in the working directory that are not the same in another tree, under their names
from there. -/
def changes (t before : FileTree) : List (String × String) :=
  t.entries.filterMap fun (names, entry) =>
    match entry with
    | .text content =>
      if before.find? names = some entry || !t.work.isPrefixOf names then none
      else some ("/".intercalate (names.drop t.work.length), content)
    | _ => none

end FileTree

end SheetRules
