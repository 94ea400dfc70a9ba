import IndexControl.Roots.Basic

/-!
# Runs of the set of roots

Everything that can be done to a set of roots, with paths in any spelling.

## Main definitions

* `RootOp`: one thing that is done.
* `RootSet.apply`, `RootSet.run`: doing one thing, and several in order.
-/

namespace IndexControl

/-- One thing that is done to a set of roots. -/
inductive RootOp where
  | add (path : Path) (flags : Flags)
  | remove (path : Path)
  | notify (path : Path) (recursive : Bool)
  | updateAll
  | recordVolume (path : Path) (volume : Option String)
  | setFilters (filters : Filters)
  | drain

namespace RootSet

/-- Do one thing. -/
def apply (s : RootSet) : RootOp → RootSet
  | .add path flags => (s.add path.location flags).1
  | .remove path => (s.remove path.location).1
  | .notify path recursive => (s.notify path.location recursive).1
  | .updateAll => s.updateAll
  | .recordVolume path volume => (s.recordVolume path.location volume).1
  | .setFilters filters => s.setFilters filters
  | .drain => s.drain.2

/-- Do several things in order. -/
def run (s : RootSet) (ops : List RootOp) : RootSet := ops.foldl apply s

end RootSet

end IndexControl
