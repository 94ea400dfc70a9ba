import IndexControl.Text.Utf8

/-!
# Spelled paths and the places they name

A path is a string of bytes. What it names is read off its components: repeated and trailing
slashes count for nothing, neither does a dot component except at the very front of a relative
path, and a double dot is a component like any other. Two spellings name the same place exactly
when their components agree.

## Main definitions

* `Path`: the spelling.
* `Component`, `Location`: one step of a path, and the list of steps a path names.
* `Path.location`: the steps of a spelling.
* `Location.toPath`: the plainest spelling of a list of steps.
* `Location.canonical`, `Path.normalize`: the same without dot components.
-/

namespace IndexControl

/-- A spelled path: any string of bytes. -/
structure Path where
  bytes : List UInt8
deriving DecidableEq, Inhabited

/-- One step of a path. -/
inductive Component where
  /-- The slash an absolute path begins with. -/
  | root
  /-- The dot a relative path may begin with. -/
  | current
  /-- A double dot. It is never resolved. -/
  | parent
  /-- An ordinary name. -/
  | name (bytes : List UInt8)
deriving DecidableEq, Inhabited

/-- The steps of a path from its front. -/
abbrev Location := List Component

/-! ### The order of components -/

namespace Component

/-- Bytes that order components: the root first, then a dot, a double dot, and the names by
their bytes. -/
def key : Component → List UInt8
  | root => [0]
  | current => [1]
  | parent => [2]
  | name bytes => 3 :: bytes

theorem key_injective {a b : Component} (h : a.key = b.key) : a = b := by
  cases a <;> cases b <;> simp_all [key]

instance : Ord Component := ⟨fun a b => compare a.key b.key⟩

instance : Std.TransOrd Component :=
  inferInstanceAs (Std.TransCmp (compareOn key))

instance : Std.LawfulEqOrd Component where
  compare_self := fun {a} => (Std.ReflOrd.compare_self : compare a.key a.key = .eq)
  eq_of_compare h := key_injective (Std.LawfulEqCmp.eq_of_compare h)

end Component

/-! ### From a spelling to its steps -/

namespace Path

/-- The byte that separates components. -/
def slash : UInt8 := 0x2F

/-- The byte of a full stop. -/
def dot : UInt8 := 0x2E

/-- Split at every slash; the pieces are one more than the slashes. -/
def split : List UInt8 → List (List UInt8)
  | [] => [[]]
  | b :: rest =>
    if b = slash then [] :: split rest
    else match split rest with
      | [] => [[b]]
      | piece :: pieces => (b :: piece) :: pieces

/-- Put a slash between neighbouring pieces. -/
def joinPieces : List (List UInt8) → List UInt8
  | [] => []
  | [piece] => piece
  | piece :: next :: more => piece ++ slash :: joinPieces (next :: more)

/-- Whether a piece counts for nothing after the front of a path: it is empty or a dot. -/
def isIdle (piece : List UInt8) : Bool := piece = [] || piece = [dot]

end Path

/-- The component spelled by a piece that is not empty. -/
def Component.ofPiece (piece : List UInt8) : Component :=
  if piece = [Path.dot] then current
  else if piece = [Path.dot, Path.dot] then parent
  else name piece

/-- The spelling of a component; the root has none of its own beside the slash after it. -/
def Component.toPiece : Component → List UInt8
  | root => []
  | current => [Path.dot]
  | parent => [Path.dot, Path.dot]
  | name bytes => bytes

namespace Path

/-- The path spelled by a text. -/
def ofString (s : String) : Path := ⟨Text.utf8 s⟩

/-- The text of a path, with replacement characters where its bytes are not text. -/
def display (p : Path) : String := Text.lossy p.bytes

/-- The text of a path whose bytes are text. -/
def toString? (p : Path) : Option String := Text.ofUtf8? p.bytes

/-- The components of pieces that follow a slash. -/
def componentsOf (pieces : List (List UInt8)) : Location :=
  (pieces.filter fun piece => !isIdle piece).map Component.ofPiece

/-- The steps a path names. -/
def location (p : Path) : Location :=
  match split p.bytes with
  | [] => []
  | [] :: [] => []
  | [] :: rest => .root :: componentsOf rest
  | front :: rest => .ofPiece front :: componentsOf rest

/-- Whether the path begins at the root. -/
def isAbsolute (p : Path) : Bool := p.bytes.head? = some slash

/-- Whether two spellings name the same place. -/
def sameAs (p q : Path) : Bool := p.location = q.location

/-- One path below another: the second alone where it is absolute, and otherwise both with
exactly one slash between them, unless the first is empty. -/
def join (p q : Path) : Path :=
  if q.isAbsolute then q
  else if p.bytes = [] || p.bytes.getLast? = some slash then ⟨p.bytes ++ q.bytes⟩
  else ⟨p.bytes ++ slash :: q.bytes⟩

end Path

namespace Location

/-- The spelling of steps with single slashes. -/
def toPath : Location → Path
  | [.root] => ⟨[Path.slash]⟩
  | l => ⟨Path.joinPieces (l.map Component.toPiece)⟩

/-- The steps without dots; where nothing is left, a single dot. -/
def canonical (l : Location) : Location :=
  match l.filter (· ≠ .current) with
  | [] => [.current]
  | steps => steps

/-- Whether the steps begin at the root. -/
def isAbsolute (l : Location) : Bool := l.head? = some .root

/-- The last step, where it is an ordinary name. -/
def fileName? (l : Location) : Option (List UInt8) :=
  match l.getLast? with
  | some (.name bytes) => some bytes
  | _ => none

/-- Whether the last step is a name that is text and begins with a full stop. -/
def isHidden (l : Location) : Bool :=
  match l.fileName? with
  | some bytes => bytes.head? = some Path.dot && (Text.ofUtf8? bytes).isSome
  | none => false

end Location

/-- The canonical spelling: no dot components, no idle slashes; `.` where nothing is left. -/
def Path.normalize (p : Path) : Path := p.location.canonical.toPath

/-! ### Small laws -/

namespace Path

@[simp]
theorem split_nil : split [] = [[]] := rfl

theorem split_slash_cons (rest : List UInt8) : split (slash :: rest) = [] :: split rest := by
  rw [split, if_pos rfl]

theorem split_ne_nil (bs : List UInt8) : split bs ≠ [] := by
  cases bs with
  | nil => simp
  | cons b rest =>
    rw [split]
    split
    · simp
    · split <;> simp

/-- Splitting loses nothing. -/
theorem joinPieces_split (bs : List UInt8) : joinPieces (split bs) = bs := by
  induction bs with
  | nil => rfl
  | cons b rest ih =>
    rw [split]
    split
    · next h =>
      have := split_ne_nil rest
      cases hs : split rest with
      | nil => contradiction
      | cons piece pieces => rw [joinPieces, ← hs, ih, h]; rfl
    · cases hs : split rest with
      | nil => exact absurd hs (split_ne_nil rest)
      | cons piece pieces =>
        rw [hs] at ih
        cases pieces with
        | nil => simpa [joinPieces] using ih
        | cons q qs => simpa [joinPieces] using ih

end Path

end IndexControl
