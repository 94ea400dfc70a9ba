import IndexControl.Directories.Environment

/-!
# Entries of directory lists

An entry of a directory list is an alias of a user directory (`&MUSIC`), a variable with an
optional rest (`$D`, `${D}/x`), the home directory with an optional rest (`~`, `~/x`), or a
path. It resolves to an absolute path in canonical spelling or to none.

## Main definitions

* `Entry`, `Entry.ofText`: an entry, and its reading.
* `Entry.resolve?`: the path an entry stands for.
-/

namespace IndexControl

/-- An entry as it is written, sorted by its kind. -/
inductive Entry where
  | literal (path : Path)
  /-- A user directory; there is none where the alias is unknown. -/
  | userDir (raw : String) (dir : Option UserDir)
  | reference (name : String) (rest : Option Path)
  | home (rest : Option Path)
deriving DecidableEq

namespace Entry

/-- What follows a base: nothing, or a relative path. Slashes in front are dropped. -/
def restOf (cs : List Char) : Option Path :=
  let cs := cs.dropWhile (· = '/')
  if cs.isEmpty then none else some (.ofString (.ofList cs))

/-- Split a reference to a variable into its name and the rest. A name in braces ends at the
closing brace, or with the entry; another one ends before the first slash. -/
def splitReference : List Char → List Char × List Char
  | '{' :: braced => (Text.splitOnce? '\x7d' braced).getD (braced, [])
  | cs => (cs.takeWhile (· ≠ '/'), cs.dropWhile (· ≠ '/'))

/-- Read an entry. Blanks at its ends do not count. -/
def ofText (raw : String) : Entry :=
  let trimmed := Text.trim raw
  match trimmed.toList with
  | '&' :: name => userDir trimmed (UserDir.ofAliasName? name)
  | '$' :: written =>
    let (name, rest) := splitReference written
    reference (.ofList name) (restOf rest)
  | ['~'] => home none
  | '~' :: '/' :: rest => home (restOf rest)
  | _ => literal (.ofString trimmed)

/-- A base with the rest below it. -/
def below (base : Path) : Option Path → Path
  | none => base
  | some rest => base.join rest

/-- The path an entry stands for before it is brought to canonical spelling. A variable counts
only where something is present at the path it leads to. -/
def expand? (env : Environment) : Entry → Option Path
  | literal path => some path
  | userDir _ dir => dir.bind env.userDir
  | reference name rest => do
    let path := below (Path.ofString (← env.lookUp? name)) rest
    if env.isPresent path then some path else none
  | home rest => env.home.map (below · rest)

/-- The canonical absolute path an entry stands for. -/
def resolve? (env : Environment) (entry : Entry) : Option Path :=
  ((entry.expand? env).filter Path.isAbsolute).map Path.normalize

/-- The canonical absolute path a written entry stands for. -/
def resolveText? (env : Environment) (raw : String) : Option Path := (ofText raw).resolve? env

end Entry

end IndexControl
