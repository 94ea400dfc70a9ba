import IndexControl.Request.Basic
import IndexControl.Roots.Basic

/-!
# Who watches which root

A request can create a root, and a requester can watch a root. Both are recorded at the root's
place: whether the root is there on demand, and how often each requester has asked for it. When
a root goes away its record goes with it. A record whose root is folded into another one is
merged into the record there if that root is on demand too; otherwise it is suspended until its
place is uncovered again.

## Main definitions

* `WatchRecord`, `Watches`: the records.
* `Watches.count`, `Watches.markStatic`: the changes to one record.
* `Watches.follow`, `Watches.followAll`: what notifications about roots change.
-/

namespace IndexControl

/-- What is recorded about one root. -/
structure WatchRecord where
  /-- Whether the root was created by a request and may go when nobody watches it. -/
  onDemand : Bool
  /-- How often each requester has asked for the root. -/
  counts : OrderedMap Requester Nat
deriving Inhabited

namespace WatchRecord

/-- Nobody has asked for the root. -/
def empty : WatchRecord := ⟨false, .empty⟩

/-- How often the root has been asked for. -/
def total (r : WatchRecord) : Nat := r.counts.values.foldr (· + ·) 0

/-- Count some more requests of one requester. -/
def count (r : WatchRecord) (requester : Requester) (times : Nat) : WatchRecord :=
  { r with counts := r.counts.insert requester ((r.counts.find? requester).getD 0 + times) }

/-- Count the requests of another record too. -/
def merge (r other : WatchRecord) : WatchRecord :=
  other.counts.entries.foldl (fun r e => r.count e.1 e.2) r

/-- Forget a requester. -/
def without (r : WatchRecord) (requester : Requester) : WatchRecord :=
  { r with counts := r.counts.erase requester }

/-- Whether a requester is the only one left. -/
def isHeldOnlyBy (r : WatchRecord) (requester : Requester) : Bool :=
  r.counts.contains requester && (r.without requester).counts.isEmpty

end WatchRecord

/-- The records by place, those of suspended roots apart, and the restriction of requests. -/
structure Watches where
  records : OrderedMap Location WatchRecord
  /-- Records of on-demand roots folded into roots that are not on demand. -/
  suspended : OrderedMap Location WatchRecord
  eligibility : Option Eligibility
deriving Inhabited

namespace Watches

/-- No records and no restriction. -/
def empty : Watches := ⟨.empty, .empty, none⟩

variable (w : Watches)

/-- Whether a place may be indexed on request. -/
def allows (place : Location) : Bool := w.eligibility.all (·.allows place)

/-! ### Looking -/

/-- How often a root has been asked for by requesters that live. -/
def watchCount (root : Location) : Nat := ((w.records.find? root).map (·.total)).getD 0

/-- Whether anybody watches a root. -/
def isWatched (root : Location) : Bool := 0 < w.watchCount root

/-- Whether a root is there on demand. -/
def isOnDemand (root : Location) : Bool := (w.records.find? root).any (·.onDemand)

/-- Whether a place waits for its cover to go. -/
def isSuspended (place : Location) : Bool := w.suspended.contains place

/-! ### Changing one record -/

/-- Change the record of a root, which may be new. -/
def alter (root : Location) (f : WatchRecord → WatchRecord) : Watches :=
  { w with records := w.records.insert root (f ((w.records.find? root).getD .empty)) }

/-- Count one more request of a requester. -/
def count (root : Location) (requester : Requester) : Watches :=
  w.alter root (·.count requester 1)

/-- Record that a root is there on demand. -/
def markOnDemand (root : Location) : Watches :=
  w.alter root fun r => { r with onDemand := true }

/-- Record that a root is configured, so that it stays when nobody watches it. -/
def markStatic (root : Location) : Watches :=
  { w with records := w.records.modify root fun r => { r with onDemand := false } }

/-! ### Following the set of roots -/

/-- Move the record of a root that was folded into another one. -/
def foldInto (root into : Location) : Watches :=
  match w.records.find? root with
  | none => w
  | some record =>
    let w := { w with records := w.records.erase root }
    if w.isOnDemand into then
      { w with records := w.records.modify into (·.merge record) }
    else if record.onDemand && !record.counts.isEmpty then
      { w with suspended := w.suspended.insert root record }
    else w

/-- Keep the records in line with a notification about the roots. -/
def follow : RootEvent → Watches
  | .removed root _ => { w with records := w.records.erase root }
  | .absorbed root into => w.foldInto root into
  | .added .. | .updated _ | .childUpdated .. => w

/-- Keep the records in line with notifications in order. -/
def followAll (events : List RootEvent) : Watches := events.foldl follow w

end Watches

end IndexControl
