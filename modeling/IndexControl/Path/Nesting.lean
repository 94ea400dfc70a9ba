import IndexControl.Path.Basic

/-!
# Which place lies inside which

A place lies below another when its steps continue the other's. This module holds the chain of
places above a path, the scope of a root, and the reduction of a list of paths to those that
lie below no other of them.

## Main definitions

* `Location.ancestors`, `Path.ancestors`: what lies above, nearest first.
* `Location.inScope`: what a recursive or a plain root covers.
* `Path.collapse`: the paths below no other path of a list, and for each other path the nearest
  one above it.
-/

namespace IndexControl

/-! ### Places above a place -/

/-- The initial segments of a list that are not all of it, shortest first. -/
def properInits {α : Type} : List α → List (List α)
  | [] => []
  | a :: l => [] :: (properInits l).map (a :: ·)

namespace Location

/-- The places above a place, nearest first. Nothing is above the root or above the empty
path, and the empty path is above every other relative one. -/
def ancestors : Location → List Location
  | .root :: rest => ((properInits rest).map (.root :: ·)).reverse
  | l => (properInits l).reverse

/-- The place directly above, if there is one. -/
def parent? (l : Location) : Option Location := l.ancestors.head?

/-- Whether `l` is `m` or lies below it. -/
def startsWith (l m : Location) : Bool := m.isPrefixOf l

/-- Whether `candidate` lies directly in `dir`. -/
def isChildOf (candidate dir : Location) : Bool := candidate.parent? = some dir

/-- Whether `candidate` lies somewhere below `above`. -/
def isBelow (candidate above : Location) : Bool :=
  candidate ≠ above && candidate.startsWith above

/-- Whether a root covers `candidate`. A recursive root covers all below it; another one covers
itself and what lies directly in it. -/
def inScope (candidate root : Location) (recursive : Bool) : Bool :=
  if recursive then candidate.startsWith root
  else candidate = root || candidate.isChildOf root

end Location

/-! ### Paths above a path, as spelled -/

namespace Path

/-- For pieces given last to first, what remains of them above each component, nearest first.
Idle pieces at the end of a remainder are dropped with it. -/
def remainders : List (List UInt8) → List (List (List UInt8))
  | [] => []
  | piece :: rest =>
    if isIdle piece then remainders rest else rest.dropWhile isIdle :: remainders rest

/-- The paths above a path, nearest first, each spelled as the front of the path. -/
def ancestors (p : Path) : List Path :=
  match split p.bytes with
  | [] => []
  | [] :: [] => []
  | [] :: rest => (remainders rest.reverse).map fun r => ⟨slash :: joinPieces r.reverse⟩
  | front :: rest =>
    (remainders rest.reverse).map (fun r => ⟨joinPieces (front :: r.reverse)⟩) ++ [⟨[]⟩]

/-- The path directly above, if there is one. -/
def parent? (p : Path) : Option Path := p.ancestors.head?

/-- Whether `p` names the place of `q` or one below it. -/
def startsWith (p q : Path) : Bool := p.location.startsWith q.location

/-! ### Keeping the outermost paths -/

/-- A path left out of a list because another one lies above it. -/
structure Covered where
  path : Path
  ancestor : Path
deriving DecidableEq

/-- The nearest path above `p` that names one of the places, as the front of `p`. -/
def selectedAncestor? (selected : List Location) (p : Path) : Option Path :=
  p.ancestors.find? fun above => selected.contains above.location

/-- Part a list of different paths into those below no other of them and the rest, both in
order, the rest with what lies above. -/
def collapse (paths : List Path) : List Path × List Covered :=
  let selected := paths.map location
  (paths.filter fun p => (selectedAncestor? selected p).isNone,
    paths.filterMap fun p => (selectedAncestor? selected p).map (⟨p, ·⟩))

end Path

end IndexControl
