import IndexControl.File
import IndexControl.Glob.Rule

/-!
# Filters by name

Filters look at the last step of a path only. Two ignore lists speak of files and of
directories, markers are names whose presence in a directory excludes its contents, and hidden
entries may be filtered as a whole.

## Main definitions

* `FilterPatterns`: the lists as they were written.
* `Filters`: the patterns together with their rules.
* `Filters.rejects`, `Filters.isFiltered`: the checks on a path.
* `Filters.hasMarker`: the check on what a directory holds.
-/

namespace IndexControl

/-- What a filter speaks about. -/
inductive FilterKind where
  | file
  | directory
  /-- The directory that holds a marker. -/
  | parentDirectory
deriving DecidableEq

/-- The lists a set of filters is made from. -/
structure FilterPatterns where
  files : List String
  directories : List String
  /-- Names whose presence excludes the contents of a directory. -/
  parentMarkers : List String
  filterHidden : Bool
deriving DecidableEq, Inhabited

/-- Filters ready for use. -/
structure Filters where
  patterns : FilterPatterns
  fileRules : List Glob.Rule
  directoryRules : List Glob.Rule
deriving Inhabited

namespace Filters

/-- Whether a marker can name an entry of a directory: it is not empty, has no slash, and has
no wildcard that would not be understood as one. -/
def isMarker (marker : String) : Bool :=
  !marker.isEmpty && !marker.toList.any fun c => ['/', '*', '?', '[', ']'].contains c

/-- The rules of an ignore list. Absolute paths make none, since only names are matched. -/
def rulesOf (lines : List String) : List Glob.Rule :=
  Glob.rulesOf (lines.filter fun line => !(Path.ofString line).isAbsolute)

/-- The filters of some patterns. Of the markers only those that can name an entry are kept. -/
def ofPatterns (patterns : FilterPatterns) : Filters where
  patterns := { patterns with parentMarkers := patterns.parentMarkers.filter isMarker }
  fileRules := rulesOf patterns.files
  directoryRules := rulesOf patterns.directories

/-- Filters that let everything through. -/
def none : Filters := ⟨⟨[], [], [], false⟩, [], []⟩

/-- Whether hidden entries are filtered. -/
def filterHidden (f : Filters) : Bool := f.patterns.filterHidden

/-- Filter hidden entries, or let them through. -/
def setFilterHidden (f : Filters) (hidden : Bool) : Filters :=
  { f with patterns := { f.patterns with filterHidden := hidden } }

/-- Whether the last step of a path matches a filter of the given kind. A path that does not
end in a name matches none. -/
def rejects (f : Filters) (path : Location) (kind : FilterKind) : Bool :=
  match path.fileName? with
  | .none => false
  | some name =>
    match kind with
    | .file => Glob.ignores f.fileRules false name
    | .directory => Glob.ignores f.directoryRules true name
    | .parentDirectory =>
      f.patterns.parentMarkers.any fun marker =>
        (Path.mk name).location = (Path.ofString marker).location

/-- Whether an entry is filtered by its name or because it is hidden. -/
def isFiltered (f : Filters) (path : Location) (kind : FileKind) (isHidden : Bool) : Bool :=
  (f.filterHidden && isHidden) ||
    f.rejects path (if kind = .directory then .directory else .file)

/-- Whether a directory holds one of the markers. -/
def hasMarker (f : Filters) (present : Path → Bool) (dir : Path) : Bool :=
  f.patterns.parentMarkers.any fun marker => present (dir.join (Path.ofString marker))

end Filters

end IndexControl
