import IndexControl.Failure
import IndexControl.File
import IndexControl.OrderedMap

/-!
# What can be asked about files and volumes

Files and volumes are asked about from outside of the set of roots: whether a file is there and
what it is, and which identifier the volume below a directory has. The answers stand in two
tables, and the second question is counted.

## Main definitions

* `Attributes`: the tables.
* `Attributes.query`: what is known about a file.
* `Attributes.probe`: the identifier of a volume.
-/

namespace IndexControl

/-- What the table of files holds about one of them. -/
inductive Attributes.Record where
  | known (info : FileInfo)
  /-- The file is there, and nothing may be learnt about it. -/
  | denied
deriving DecidableEq

/-- What is there to be learnt about files and volumes. -/
structure Attributes where
  files : OrderedMap Location Attributes.Record
  /-- The answers to the next probes of a volume. The last one is given again and again. -/
  volumes : OrderedMap Location (List (Option String))
  /-- How many probes there have been. -/
  probes : Nat
deriving Inhabited

namespace Attributes

/-- Nothing is there. -/
def empty : Attributes := ⟨.empty, .empty, 0⟩

variable (a : Attributes)

/-! ### Asking -/

/-- What is known about a file. -/
def query (file : Location) : Except IoError FileInfo :=
  match a.files.find? file with
  | none => .error .notFound
  | some .denied => .error .permissionDenied
  | some (.known info) => .ok info

/-- Probe for the identifier of the volume below a directory. -/
def probe (dir : Location) : Option String × Attributes :=
  let a := { a with probes := a.probes + 1 }
  match a.volumes.find? dir with
  | none | some [] => (none, a)
  | some [id] => (id, a)
  | some (id :: next :: more) => (id, { a with volumes := a.volumes.insert dir (next :: more) })

/-! ### Changing -/

/-- Record what is to be learnt about a file. -/
def setFile (file : Location) (record : Record) : Attributes :=
  { a with files := a.files.insert file record }

/-- Take a file away. -/
def removeFile (file : Location) : Attributes := { a with files := a.files.erase file }

/-- Move a file, if it is there, over whatever the new place holds. -/
def rename (file target : Location) : Attributes :=
  match a.files.find? file with
  | none => a
  | some record => (a.removeFile file).setFile target record

/-- Record the answers to the next probes of a volume. -/
def setVolume (dir : Location) (ids : List (Option String)) : Attributes :=
  { a with volumes := a.volumes.insert dir ids }

end Attributes

end IndexControl
