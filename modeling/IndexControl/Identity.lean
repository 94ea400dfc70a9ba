import IndexControl.Attributes
import IndexControl.Roots.Basic

/-!
# Content identifiers

A file is identified by its volume and its number on the volume, so that the identifier outlives
a rename within the volume. The volume is that of the root that owns the file. It is probed once
in the life of the root; until then an identification has three steps: read what the set of
roots knows, ask about the file and, if need be, about the volume, and record what was learnt.

## Main definitions

* `ContentId`, `ContentId.text`: identifiers and their wording.
* `Identification.plan`, `Identification.resolve`, `Resolved.record`: the three steps.
* `Identification.identify`: all three at once.
-/

namespace IndexControl

/-- The identifier of a file. -/
structure ContentId where
  /-- The identifier of the volume, or nothing if there is none to be had. -/
  volume : String
  /-- The number of the file on its volume. -/
  number : String
deriving DecidableEq, Inhabited

namespace ContentId

/-- The text of an identifier. -/
def text (id : ContentId) : String := "urn:fileid:" ++ id.volume ++ ":" ++ id.number

/-- Whether the volume is missing, so that the identifier may be shared. -/
def isDegraded (id : ContentId) : Bool := id.volume.isEmpty

/-- The identifier of a file. Without an identifier of the root's volume that of the file
system stands for it. -/
def ofInfo (volume : Option String) (info : FileInfo) : ContentId where
  volume := (volume.or info.fileSystem).getD ""
  number := (info.inode.map fun n => String.ofList (Text.decimal n)).getD ""

end ContentId

/-- An identification begun: the file, as it was spelled, and what the set of roots knew about
its volume. -/
structure Identification where
  file : Path
  lookup : VolumeLookup
deriving DecidableEq

/-- An identification of which only the record is missing. -/
structure Resolved where
  id : ContentId
  /-- The root whose volume was probed on the way, and the result. -/
  probed : Option (Location × Option String)
deriving DecidableEq

namespace Identification

/-- Begin: read what the set of roots knows. -/
def plan (s : RootSet) (file : Path) : Identification := ⟨file, s.lookupVolume file.location⟩

/-- What a failed query means for an identification. -/
def failure (file : Path) : IoError → ServiceError
  | .notFound => .pathNotFound file
  | cause => .io cause

/-- Ask about the file and, where its root has not been probed, about the volume. -/
def resolve (a : Attributes) (p : Identification) : Except ServiceError Resolved × Attributes :=
  match a.query p.file.location with
  | .error cause => (.error (failure p.file cause), a)
  | .ok info =>
    match p.lookup with
    | .uncovered => (.ok ⟨.ofInfo none info, none⟩, a)
    | .known volume => (.ok ⟨.ofInfo volume info, none⟩, a)
    | .unprobed root =>
      let (volume, a) := a.probe root
      (.ok ⟨.ofInfo volume info, some (root, volume)⟩, a)

end Identification

/-- Record the volume that was probed on the way. -/
def Resolved.record (r : Resolved) (s : RootSet) : RootSet :=
  match r.probed with
  | none => s
  | some (root, volume) => (s.recordVolume root volume).1

/-- Identify a file while nothing else happens. -/
def Identification.identify (a : Attributes) (s : RootSet) (file : Path) :
    Except ServiceError ContentId × RootSet × Attributes :=
  match (plan s file).resolve a with
  | (.error cause, a) => (.error cause, s, a)
  | (.ok resolved, a) => (.ok resolved.id, resolved.record s, a)

end IndexControl
