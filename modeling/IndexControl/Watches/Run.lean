import IndexControl.Roots.Run
import IndexControl.Watches.Holding

/-!
# Runs of watched roots

Everything that can be done to a set of roots and to the records of who watches them, in any order.
Notifications reach the records one by one, whenever somebody hands one over.

## Main definitions

* `WatchedRoots`: a set of roots with the records of who watches them.
* `WatchOp`: one thing that is done.
* `WatchedRoots.apply`, `WatchedRoots.run`: doing one thing, and several in order.
-/

namespace IndexControl

/-- A set of roots with the records of who watches them. -/
structure WatchedRoots where
  roots : RootSet
  watches : Watches

/-- One thing that is done to watched roots. -/
inductive WatchOp where
  | change (op : RootOp)
  /-- A request, and what is learnt about its target. -/
  | ask (request : IndexRequest) (info : FileInfo)
  | release (requester : Requester)
  | restoreSuspended
  | markStatic (path : Path)
  | restrict (eligibility : Option Eligibility)
  | follow (event : RootEvent)

namespace WatchedRoots

/-- No roots and no records. -/
def empty (filters : Filters) : WatchedRoots := ⟨.empty filters, .empty⟩

variable (t : WatchedRoots)

/-- Find the place that a request names, and apply the request. One that is refused changes
nothing. -/
def ask (request : IndexRequest) (info : FileInfo) : WatchedRoots :=
  match Uri.location? request.uri with
  | none => t
  | some place =>
    match t.watches.apply t.roots ⟨request, place, info⟩ with
    | .error _ => t
    | .ok a => ⟨a.roots, a.watches⟩

/-- Do one thing. -/
def apply : WatchOp → WatchedRoots
  | .change op => { t with roots := t.roots.apply op }
  | .ask request info => t.ask request info
  | .release requester =>
    let (watches, roots, _) := t.watches.release t.roots requester
    ⟨roots, watches⟩
  | .restoreSuspended =>
    let (watches, roots, _) := t.watches.restoreSuspended t.roots
    ⟨roots, watches⟩
  | .markStatic path => { t with watches := t.watches.markStatic path.location }
  | .restrict eligibility => { t with watches := { t.watches with eligibility } }
  | .follow event => { t with watches := t.watches.follow event }

/-- Do several things in order. -/
def run (ops : List WatchOp) : WatchedRoots := ops.foldl apply t

end WatchedRoots

end IndexControl
