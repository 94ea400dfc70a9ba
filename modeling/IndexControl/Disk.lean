import IndexControl.Failure
import IndexControl.File
import IndexControl.OrderedMap

/-!
# A disk

A disk maps places, which are lists of names from its root, to what is there: files with their
bytes, directories, symbolic links and devices. Paths are walked piece by piece as a Unix
kernel does: links are followed, a double dot leads to the directory above, and only a
directory can be walked through. Relative paths start at the root of the disk.

## Main definitions

* `Disk`, `Disk.Node`, `Disk.Place`.
* `Disk.walk`: where a path leads.
* `Disk.query`, `Disk.isPresent`, `Disk.read`: looking at the disk.
* `Disk.makeDirs`, `Disk.write`, `Disk.replace`, `Disk.delete`: changing it.
-/

namespace IndexControl

namespace Disk

/-- The names from the root of a disk to one of its entries. -/
abbrev Place := List (List UInt8)

/-- What is at a place. -/
inductive Node where
  | file (bytes : List UInt8)
  | directory
  | link (target : List UInt8)
  | device
deriving DecidableEq, Inhabited

end Disk

/-- The entries of a disk other than its root directory. -/
structure Disk where
  nodes : OrderedMap Disk.Place Disk.Node
deriving Inhabited

namespace Disk

variable (disk : Disk)

/-- What is at a place. The root is a directory. -/
def node? (place : Place) : Option Node :=
  if place = [] then some .directory else disk.nodes.find? place

/-- Put a node at a place. -/
def put (place : Place) (node : Node) : Disk := ⟨disk.nodes.insert place node⟩

/-- Take away what is at a place. -/
def remove (place : Place) : Disk := ⟨disk.nodes.erase place⟩

/-! ### Walking a path -/

/-- Where a path leads: to an entry, or to a free name in a directory. -/
inductive Spot where
  | found (place : Place)
  | vacant (place : Place)
deriving DecidableEq

/-- What a walk is for, as far as it decides how the last name of a path is taken. -/
inductive Purpose where
  /-- To find what the name leads to: a link is followed. -/
  | target
  /-- To find the entry of that name: a link is left alone, unless a slash follows it. -/
  | entry
  /-- To make a directory: a link is left alone, and slashes behind the name do not count. -/
  | newDirectory
  /-- To write a file, which may be new: a link is followed, and a slash behind the name, or
  behind the last name of a link's target, asks for a directory. -/
  | newFile
deriving DecidableEq

/-- Whether links are followed at the end of a path. -/
def Purpose.followsLast : Purpose → Bool
  | target | newFile => true
  | entry | newDirectory => false

/-- Whether a name with some pieces after it is the last name of a path. Where something may be
made, slashes can stand behind the last name. -/
def Purpose.isLast (purpose : Purpose) (rest : List (List UInt8)) : Bool :=
  match purpose with
  | target | entry => rest.isEmpty
  | newDirectory | newFile => rest.all (·.isEmpty)

/-- The greatest length of a name, in bytes. -/
def nameLimit : Nat := 255

/-- The greatest length of a path, in bytes. -/
def pathLimit : Nat := 4095

/-- Walk pieces of a path from a place. `follow` goes on at a link, given the place that holds
it, its target and the pieces after it. -/
def walkWith (follow : Place → List UInt8 → List (List UInt8) → Except IoError Spot)
    (purpose : Purpose) (here : Place) : List (List UInt8) → Except IoError Spot
  | [] => .ok (.found here)
  | piece :: rest =>
    if disk.node? here ≠ some .directory then .error .notADirectory
    else if Path.isIdle piece then walkWith follow purpose here rest
    else if piece = [Path.dot, Path.dot] then walkWith follow purpose here.dropLast rest
    else if purpose = .newFile && purpose.isLast rest && !rest.isEmpty then .error .isADirectory
    else if nameLimit < piece.length then .error .nameTooLong
    else
      let there := here ++ [piece]
      match disk.node? there with
      | none => if purpose.isLast rest then .ok (.vacant there) else .error .notFound
      | some (.link target) =>
        if purpose.isLast rest && !purpose.followsLast then .ok (.found there)
        else follow here target rest
      | some _ =>
        if purpose.isLast rest then .ok (.found there) else walkWith follow purpose there rest

/-- Walk pieces of a path from a place, following at most `links` links. -/
def walkPieces (purpose : Purpose) : (links : Nat) → Place → List (List UInt8) →
    Except IoError Spot
  | 0 => disk.walkWith (fun _ _ _ => .error .tooManyLinks) purpose
  | links + 1 =>
    disk.walkWith (fun here target rest =>
      walkPieces purpose links
        (if (Path.mk target).isAbsolute then [] else here) (Path.split target ++ rest)) purpose

/-- How many links a walk may follow. -/
def linkLimit : Nat := 40

/-- Where a path leads. The empty path leads nowhere, and a path that is too long or holds a
zero byte is refused. -/
def walk (purpose : Purpose) (path : Path) : Except IoError Spot :=
  if path.bytes.contains 0 then .error .zeroByte
  else if path.bytes.isEmpty then .error .notFound
  else if pathLimit < path.bytes.length then .error .nameTooLong
  else disk.walkPieces purpose linkLimit [] (Path.split path.bytes)

/-! ### Looking -/

/-- What a path names, links followed. -/
def target? (path : Path) : Except IoError Node :=
  match disk.walk .target path with
  | .error cause => .error cause
  | .ok (.vacant _) => .error .notFound
  | .ok (.found place) =>
    match disk.node? place with
    | none => .error .notFound
    | some node => .ok node

/-- Whether a path names anything, links followed. -/
def isPresent (path : Path) : Bool := (disk.target? path).toBool

/-- Whether a path names a directory, links followed. -/
def isDirectory (path : Path) : Bool :=
  match disk.target? path with
  | .ok .directory => true
  | _ => false

/-- The bytes of a file. -/
def read (path : Path) : Except IoError (List UInt8) :=
  match disk.target? path with
  | .error cause => .error cause
  | .ok (.file bytes) => .ok bytes
  | .ok .directory => .error .isADirectory
  | .ok _ => .ok []

/-- The text of a file. -/
def readText (path : Path) : Except IoError String :=
  match disk.read path with
  | .error cause => .error cause
  | .ok bytes =>
    match Text.ofUtf8? bytes with
    | some text => .ok text
    | none => .error .notText

/-- The kind a metadata query reports for a node. -/
def Node.kind : Node → FileKind
  | file _ => .file
  | directory => .directory
  | link _ => .symlink
  | device => .other

/-- What a metadata query reports about a path; a link at its end is not followed. All files
are on the one file system of the disk, and a file's number is that of its entry. -/
def query (path : Path) : Except IoError FileInfo :=
  match disk.walk .entry path with
  | .error cause => .error cause
  | .ok (.vacant _) => .error .notFound
  | .ok (.found place) =>
    match disk.node? place with
    | none => .error .notFound
    | some node => .ok {
        kind := node.kind
        inode := some ((disk.nodes.keys.idxOf place) + 2)
        fileSystem := some "1"
        isHidden := path.location.isHidden }

/-- The identifier of the volume that holds a directory. This disk has no volume identifiers. -/
def volume? (_dir : Path) : Option String := none

/-! ### Changing -/

/-- Make one directory. -/
def makeDir (path : Path) : Except IoError Unit × Disk :=
  match disk.walk .newDirectory path with
  | .error cause => (.error cause, disk)
  | .ok (.found _) => (.error .alreadyExists, disk)
  | .ok (.vacant place) => (.ok (), disk.put place .directory)

/-- Make a directory that may be there already. -/
def ensureDir (path : Path) : Except IoError Unit × Disk :=
  match disk.makeDir path with
  | (.ok (), disk') => (.ok (), disk')
  | (.error cause, disk') => (if disk.isDirectory path then .ok () else .error cause, disk')

/-- Make the first of some paths a directory, after those behind it in the list, which lie
above it, as far as they are missing. -/
def makeDirsOf : Disk → List Path → Except IoError Unit × Disk
  | disk, [] => (.error .notFound, disk)
  | disk, path :: above =>
    if path.bytes.isEmpty then (.ok (), disk)
    else match disk.makeDir path with
      | (.error .notFound, _) =>
        match makeDirsOf disk above with
        | (.error cause, disk') => (.error cause, disk')
        | (.ok (), disk') => disk'.ensureDir path
      | _ => disk.ensureDir path

/-- Make a directory and all that are missing above it. -/
def makeDirs (path : Path) : Except IoError Unit × Disk :=
  disk.makeDirsOf (path :: path.ancestors)

/-- Write a file, in place of its former contents, through a link if there is one. -/
def write (path : Path) (bytes : List UInt8) : Except IoError Unit × Disk :=
  match disk.walk .newFile path with
  | .error cause => (.error cause, disk)
  | .ok (.vacant place) => (.ok (), disk.put place (.file bytes))
  | .ok (.found place) =>
    match disk.node? place with
    | some .directory => (.error .isADirectory, disk)
    | some .device => (.ok (), disk)
    | _ => (.ok (), disk.put place (.file bytes))

/-- Put a new file in the place of whatever has the name, unless that is a directory. -/
def replace (path : Path) (bytes : List UInt8) : Except IoError Unit × Disk :=
  match disk.walk .entry path with
  | .error cause => (.error cause, disk)
  | .ok (.vacant place) => (.ok (), disk.put place (.file bytes))
  | .ok (.found place) =>
    match disk.node? place with
    | some .directory => (.error .isADirectory, disk)
    | _ => (.ok (), disk.put place (.file bytes))

/-- Make a symbolic link under a free name. -/
def link (path target : Path) : Except IoError Unit × Disk :=
  match disk.walk .entry path with
  | .error cause => (.error cause, disk)
  | .ok (.found _) => (.error .alreadyExists, disk)
  | .ok (.vacant place) => (.ok (), disk.put place (.link target.bytes))

/-- Delete what has a name, unless it is a directory. -/
def delete (path : Path) : Except IoError Unit × Disk :=
  match disk.walk .entry path with
  | .error cause => (.error cause, disk)
  | .ok (.vacant _) => (.error .notFound, disk)
  | .ok (.found place) =>
    match disk.node? place with
    | some .directory => (.error .isADirectory, disk)
    | _ => (.ok (), disk.remove place)

/-! ### A disk to begin with -/

/-- The directories that every Unix disk has. -/
def usualDirectories : List (List String) :=
  [["bin"], ["boot"], ["dev"], ["etc"], ["home"], ["lib"], ["media"], ["mnt"], ["opt"], ["proc"],
    ["root"], ["run"], ["sbin"], ["srv"], ["sys"], ["tmp"], ["usr"], ["usr", "bin"],
    ["usr", "lib"], ["usr", "local"], ["usr", "share"], ["var"], ["var", "lib"], ["var", "log"],
    ["var", "tmp"]]

/-- The devices that every Unix disk has. -/
def usualDevices : List String := ["full", "null", "random", "tty", "urandom", "zero"]

/-- A disk with nothing but the usual directories and devices. -/
def standard : Disk :=
  let directories := usualDirectories.map fun names => (names.map Text.utf8, Node.directory)
  let devices := usualDevices.map fun name => (["dev", name].map Text.utf8, Node.device)
  ⟨.ofList (directories ++ devices)⟩

end Disk

end IndexControl
