import IndexControl.Disk
import IndexControl.Snapshot.Basic

/-!
# The stored snapshot

One file of a state directory holds the snapshot of the last run. A file that is missing, was
written in another version or cannot be read as a snapshot counts as none. When the live roots
and filters no longer have the stored fingerprint, every root is due for a freshness check and
the snapshot is stored anew.

## Main definitions

* `Snapshot.save`, `Snapshot.load`: the file.
* `Snapshot.check`: the comparison with the live roots.
-/

namespace IndexControl

namespace Snapshot

/-- The name of the file. -/
def fileName : String := "indexing-tree.snapshot"

/-- The file of a state directory. -/
def fileIn (stateDir : Path) : Path := stateDir.join (.ofString fileName)

/-- Store a snapshot in a state directory, which is made if it is missing. The file is replaced
at once, and stays as it is where the snapshot cannot be written. -/
def save (disk : Disk) (snapshot : Snapshot) (stateDir : Path) :
    Except ServiceError Unit × Disk :=
  match disk.makeDirs stateDir with
  | (.error cause, disk) => (.error (.noStateDirectory stateDir cause), disk)
  | (.ok (), disk) =>
    match snapshot.encode? with
    | none => (.error .snapshotNotText, disk)
    | some bytes =>
      match disk.replace (fileIn stateDir) bytes with
      | (.error cause, disk) => (.error (.snapshotNotPlaced (fileIn stateDir) cause), disk)
      | (.ok (), disk) => (.ok (), disk)

/-- The stored snapshot of a state directory, if there is one. -/
def load (disk : Disk) (stateDir : Path) : Except ServiceError (Option Snapshot) :=
  match disk.read (fileIn stateDir) with
  | .error .notFound => .ok none
  | .error cause => .error (.io cause)
  | .ok bytes => .ok ((decode? bytes).filter fun s => s.version = currentVersion)

/-- Compare the live roots with the stored snapshot. Where the fingerprints differ, ask for a
freshness check of every root and store the snapshot anew. The answer says whether they did. -/
def check (disk : Disk) (s : RootSet) (stateDir : Path) (onDemand : Location → Bool) :
    Except ServiceError Bool × RootSet × Disk :=
  let current := ofRoots s onDemand
  match load disk stateDir with
  | .error cause => (.error cause, s, disk)
  | .ok stored =>
    if stored.map (·.fingerprint) = some current.fingerprint then (.ok false, s, disk)
    else
      let s := s.updateAll
      match save disk (ofRoots s onDemand) stateDir with
      | (.error cause, disk) => (.error cause, s, disk)
      | (.ok (), disk) => (.ok true, s, disk)

end Snapshot

end IndexControl
