import IndexControl.Disk
import IndexControl.Text.Blank

/-!
# The environment in which directory entries are read

Entries of the settings may name well-known user directories, variables and the home directory.
What these stand for is looked up in an environment. One kind of environment is given by tables;
the other is that of a process: its variables, and the file in which a desktop session lists its
user directories.

## Main definitions

* `UserDir`: the well-known user directories and their aliases.
* `Environment`: the look-ups.
* `Environment.ofTables`, `Environment.ofProcess`: the two kinds.
* `UserDirs.find?`: reading the list of user directories.
-/

namespace IndexControl

/-- The well-known user directories. -/
inductive UserDir where
  | desktop
  | documents
  | download
  | music
  | pictures
  | publicShare
  | templates
  | videos
deriving DecidableEq

namespace UserDir

/-- All of them. -/
def all : List UserDir :=
  [desktop, documents, download, music, pictures, publicShare, templates, videos]

/-- The name by which an entry refers to a user directory. -/
def aliasName : UserDir → String
  | desktop => "DESKTOP"
  | documents => "DOCUMENTS"
  | download => "DOWNLOAD"
  | music => "MUSIC"
  | pictures => "PICTURES"
  | publicShare => "PUBLIC_SHARE"
  | templates => "TEMPLATES"
  | videos => "VIDEOS"

/-- The user directory of an alias name. -/
def ofAliasName? (name : List Char) : Option UserDir :=
  all.find? fun dir => dir.aliasName.toList = name

/-- The key under which the list of user directories holds one: as the alias, but without the
low line. -/
def listKey (dir : UserDir) : List UInt8 :=
  Text.utf8 (if dir = publicShare then "PUBLICSHARE" else dir.aliasName)

end UserDir

/-- What entries are resolved against. -/
structure Environment where
  userDir : UserDir → Option Path
  home : Option Path
  lookUp? : String → Option String
  /-- Whether something is there at a path. -/
  isPresent : Path → Bool

/-- The environment given by tables. Something is present where one of the listed paths names
the same place. -/
def Environment.ofTables (home : Option Path) (dirs : List (UserDir × Path))
    (table : List (String × String)) (present : List Path) : Environment where
  userDir dir := (dirs.find? fun entry => entry.1 = dir).map (·.2)
  home := home
  lookUp? name := (table.find? fun entry => entry.1 = name).map (·.2)
  isPresent path := present.any path.sameAs

/-! ### The list of user directories -/

namespace UserDirs

/-- Whether a byte is a space or a tab. -/
def isBlankByte (b : UInt8) : Bool := b = 0x20 || b = 0x09

/-- The bytes without spaces and tabs at both ends. -/
def trimBlanks (bytes : List UInt8) : List UInt8 :=
  ((bytes.dropWhile isBlankByte).reverse.dropWhile isBlankByte).reverse

/-- The lines of a file. -/
def lines : List UInt8 → List (List UInt8)
  | [] => [[]]
  | b :: rest =>
    if b = 0x0A then [] :: lines rest
    else match lines rest with
      | [] => [[b]]
      | line :: more => (b :: line) :: more

/-- Cut off `lead` at the front. -/
def stripLead? (lead bytes : List UInt8) : Option (List UInt8) :=
  if lead.isPrefixOf bytes then some (bytes.drop lead.length) else none

/-- Cut off `tail` at the end. -/
def stripTail? (tail bytes : List UInt8) : Option (List UInt8) :=
  (stripLead? tail.reverse bytes.reverse).map List.reverse

/-- Take away each backslash that stands before another byte, and one at the end. -/
def unescape : List UInt8 → List UInt8
  | [] => []
  | b :: rest =>
    if b = 0x5C then
      match rest with
      | [] => []
      | c :: more => c :: unescape more
    else b :: unescape rest

/-- What a line says: a key and a path. The value stands in double quotes; it is absolute, or
lies below the home directory. The home directory itself says that there is none. -/
def readLine? (home : Path) (line : List UInt8) : Option (List UInt8 × Path) := do
  let key := line.takeWhile (· ≠ 0x3D)
  if key.length = line.length then none
  let key ← stripTail? (Text.utf8 "_DIR") (← stripLead? (Text.utf8 "XDG_") (trimBlanks key))
  let value := trimBlanks (line.drop (line.takeWhile (· ≠ 0x3D)).length.succ)
  let value ← stripTail? [0x22] (← stripLead? [0x22] value)
  match stripLead? (Text.utf8 "$HOME/") value with
  | some [] => none
  | some rest => some (key, home.join ⟨unescape rest⟩)
  | none => if value.head? = some Path.slash then some (key, ⟨unescape value⟩) else none

/-- The user directory that the first usable line for it gives. -/
def find? (home : Path) (file : List UInt8) (dir : UserDir) : Option Path :=
  (((lines file).filterMap (readLine? home)).find? fun entry => entry.1 = dir.listKey).map (·.2)

end UserDirs

/-- The environment of a process: its variables, of which empty ones count as unset, the home
directory that one of them gives, and the list of user directories, if there is one. -/
def Environment.ofProcess (table : List (String × String)) (userDirs : Option String)
    (disk : Disk) : Environment :=
  let lookUp := fun (name : String) =>
    ((table.find? fun entry => entry.1 = name).map (·.2)).filter fun value => !value.isEmpty
  let home := (lookUp "HOME").map Path.ofString
  { home
    lookUp? := lookUp
    isPresent := disk.isPresent
    userDir := fun dir => do UserDirs.find? (← home) (Text.utf8 (← userDirs)) dir }

end IndexControl
