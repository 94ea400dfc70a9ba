import IndexControl.Directories.Entry

/-!
# The configured directories

Two lists of entries become two lists of canonical paths: directories indexed without what lies
below their own entries, and directories indexed as a whole. Entries that do not resolve, repeat
an earlier one, lie below another recursive one, or are configured both ways are left out, each
with a diagnostic.

## Main definitions

* `Directories`: the two lists.
* `Directories.Diagnostic`: why an entry was left out.
* `Directories.reconcile`: from the written lists to the canonical ones.
-/

namespace IndexControl

namespace Directories

/-- Why an entry was left out. -/
inductive Diagnostic where
  | unresolvable (raw : String) (recursive : Bool)
  | duplicate (path : Path) (recursive : Bool)
  | covered (path ancestor : Path)
  /-- The directory is also configured without what lies below, and that counts. -/
  | shadowed (path : Path)
deriving DecidableEq

end Directories

/-- The canonical directories, in the order of the entries, and what was left out. -/
structure Directories where
  single : List Path
  recursive : List Path
  diagnostics : List Directories.Diagnostic
deriving DecidableEq, Inhabited

namespace Directories

/-- No directories. -/
def none : Directories := ⟨[], [], []⟩

/-- Every canonical path with whether it is recursive. -/
def roots (d : Directories) : List (Path × Bool) :=
  d.single.map (·, false) ++ d.recursive.map (·, true)

/-- The paths that name the place of an earlier one, in order. -/
def repeated (seen : List Path) : List Path → List Path
  | [] => []
  | path :: rest =>
    if seen.any path.sameAs then path :: repeated seen rest else repeated (path :: seen) rest

/-- The paths that name the place of no earlier one, in order. -/
def distinct (seen : List Path) : List Path → List Path
  | [] => []
  | path :: rest =>
    if seen.any path.sameAs then distinct seen rest else path :: distinct (path :: seen) rest

/-- The paths of the entries that resolve. -/
def resolved (env : Environment) (raw : List String) : List Path :=
  raw.filterMap (Entry.resolveText? env)

/-- The entries that do not resolve. -/
def unresolved (env : Environment) (raw : List String) : List String :=
  raw.filter fun entry => (Entry.resolveText? env entry).isNone

/-- The diagnostics of paths that lie below others. -/
def coveredDiagnostics (covered : List Path.Covered) : List Diagnostic :=
  covered.map fun c => .covered c.path c.ancestor

/-- Bring two written lists to canonical form. A directory configured both ways is indexed
without what lies below its entries. -/
def reconcile (env : Environment) (rawSingle rawRecursive : List String) : Directories :=
  let single := resolved env rawSingle
  let recursive := resolved env rawRecursive
  let (outer, covered) := Path.collapse (distinct [] recursive)
  let (shadowed, rest) := outer.partition fun path => (distinct [] single).any path.sameAs
  let (kept, coveredAgain) := Path.collapse rest
  { single := distinct [] single
    recursive := kept
    diagnostics :=
      (unresolved env rawSingle).map (.unresolvable · false) ++
      (repeated [] single).map (.duplicate · false) ++
      (unresolved env rawRecursive).map (.unresolvable · true) ++
      (repeated [] recursive).map (.duplicate · true) ++
      coveredDiagnostics covered ++ shadowed.map .shadowed ++ coveredDiagnostics coveredAgain }

end Directories

end IndexControl
