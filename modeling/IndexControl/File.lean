import IndexControl.Path.Nesting

/-!
# Files as a metadata query reports them

## Main definitions

* `FileKind`: what a directory entry is, without following links.
* `FileInfo`: the kind with the numbers that identify the file and its hidden mark.
-/

namespace IndexControl

/-- What a directory entry is. A link is reported as a link. -/
inductive FileKind where
  | file
  | directory
  | symlink
  | other
deriving DecidableEq, Inhabited

/-- The word for a kind. -/
def FileKind.word : FileKind → String
  | file => "file"
  | directory => "directory"
  | symlink => "symlink"
  | other => "other"

/-- What a metadata query reports about a file. -/
structure FileInfo where
  kind : FileKind
  /-- The number of the file within its file system. -/
  inode : Option Nat
  /-- The identifier of the file system. -/
  fileSystem : Option String
  isHidden : Bool
deriving DecidableEq, Inhabited

/-- Whether the file is a directory. -/
def FileInfo.isDirectory (info : FileInfo) : Bool := info.kind = .directory

end IndexControl
