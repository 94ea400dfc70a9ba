import IndexControl.Filters
import IndexControl.Flags
import IndexControl.OrderedMap

/-!
# The set of indexed roots

Roots are kept by their canonical place. No root lies below a recursive one: such a place is
refused, and roots that come to lie below a new recursive root are folded into it. Every change
queues a notification, and the queue is drained by whoever owns the set.

## Main definitions

* `Root`, `RootEvent`, `RootSet`: a root, a queued notification, and the set with its filters.
* `RootSet.add`, `RootSet.remove`: the two changes of the set.
* `RootSet.owner?`, `RootSet.covering?`: which root answers for a file.
* `RootSet.notify`, `RootSet.updateAll`: requests for a freshness check.
* `RootSet.lookupVolume`, `RootSet.recordVolume`: the volume identifier of a root, probed once.
-/

namespace IndexControl

/-- What is known about a root beside its place. -/
structure Root where
  flags : Flags
  /-- The identifier of its volume, once it has been probed; the probe may find none. -/
  volume : Option (Option String)
deriving DecidableEq, Inhabited

/-- Whether the root covers everything below it. -/
def Root.isRecursive (root : Root) : Bool := root.flags.isRecursive

/-- A notification about the set of roots. -/
inductive RootEvent where
  /-- A root appeared. -/
  | added (root : Location) (flags : Flags)
  /-- A root's flags changed, or it needs a freshness check. -/
  | updated (root : Location)
  /-- Something that `root` covers needs a freshness check. -/
  | childUpdated (root file : Location)
  /-- A root went away. -/
  | removed (root : Location) (flags : Flags)
  /-- A root was folded into a recursive root above it, which goes on covering it. -/
  | absorbed (root into : Location)
deriving DecidableEq

/-- The answer to adding a root. -/
inductive AddOutcome where
  | added
  /-- The root was there with other flags. -/
  | flagsUpdated (previous : Flags)
  | unchanged
  /-- Refused: a recursive root above covers the place. -/
  | covered (ancestor : Location)
deriving DecidableEq

/-- Whether the root is new. -/
def AddOutcome.isAdded : AddOutcome → Bool
  | added => true
  | _ => false

/-- Whether there is now a root at the place. -/
def AddOutcome.isLive : AddOutcome → Bool
  | covered _ => false
  | _ => true

/-- How the volume identifier of a file can be had. -/
inductive VolumeLookup where
  /-- No root answers for the file. -/
  | uncovered
  /-- The owning root has been probed, with this result. -/
  | known (volume : Option String)
  /-- The owning root has not been probed yet. -/
  | unprobed (root : Location)
deriving DecidableEq

/-- The indexed roots, the filters, and the notifications not yet drained, oldest first. -/
structure RootSet where
  roots : OrderedMap Location Root
  filters : Filters
  events : List RootEvent
deriving Inhabited

namespace RootSet

/-- No roots. -/
def empty (filters : Filters) : RootSet := ⟨.empty, filters, []⟩

variable (s : RootSet)

/-- The root at a place. -/
def root? (place : Location) : Option Root := s.roots.find? place

/-- Whether there is a root at a place. -/
def isRoot (place : Location) : Bool := s.roots.contains place

/-- The places of the roots, in order. -/
def places : List Location := s.roots.keys

/-- Whether there is a recursive root at a place. -/
def isRecursiveRoot (place : Location) : Bool :=
  (s.root? place).any (·.isRecursive)

/-- Queue notifications. -/
def queue (events : List RootEvent) : RootSet := { s with events := s.events ++ events }

/-- Hand over the queued notifications. -/
def drain : List RootEvent × RootSet := (s.events, { s with events := [] })

/-- Replace the filters. -/
def setFilters (filters : Filters) : RootSet := { s with filters }

/-! ### Which root answers for a file -/

/-- The nearest recursive root strictly above a place. -/
def recursiveAbove? (place : Location) : Option Location :=
  place.ancestors.find? s.isRecursiveRoot

/-- The root that owns a file: the one at its place, or else the nearest recursive root above
it. -/
def owner? (file : Location) : Option Location :=
  if s.isRoot file then some file else s.recursiveAbove? file

/-- The root strictly above a file that covers it: the nearest one that is recursive or holds
the file directly. -/
def covering? (file : Location) : Option Location :=
  file.ancestors.find? fun place =>
    (s.root? place).any fun root => root.isRecursive || file.isChildOf place

/-- Whether a file is covered and passes the filters. A root always is. -/
def isIndexable (file : Location) (info : FileInfo) : Bool :=
  s.isRoot file ||
    ((s.covering? file).isSome && !s.filters.isFiltered file info.kind info.isHidden)

/-- Whether the contents of a directory may be indexed at all. -/
def allowsContents (present : Path → Bool) (dir : Path) : Bool :=
  !s.filters.hasMarker present dir

/-! ### Adding and removing roots -/

/-- The places of the roots strictly below a place, in order. In the order of places they follow
the place without a gap, so the scan ends before the first one that does not start with it. -/
def below (place : Location) : List Location :=
  ((s.places.dropWhile fun other => compare other place == .lt).takeWhile
    (·.startsWith place)).filter (·.isBelow place)

/-- Fold the roots below a place into the root there. -/
def absorb (place : Location) : RootSet :=
  { s with
    roots := (s.below place).foldl OrderedMap.erase s.roots
    events := s.events ++ (s.below place).map (.absorbed · place) }

/-- Have a root at a place, and tell of it. -/
def put (place : Location) (root : Root) (event : RootEvent) : RootSet :=
  { s with roots := s.roots.insert place root, events := s.events ++ [event] }

/-- Add a root at the canonical form of a place. An existing root takes the new flags; a new
one is refused below a recursive root. A root that becomes recursive absorbs those below. -/
def add (place : Location) (flags : Flags) : RootSet × AddOutcome :=
  let place := place.canonical
  match s.root? place with
  | some root =>
    if root.flags = flags then (s, .unchanged)
    else
      let s' := s.put place { root with flags } (.updated place)
      (if flags.isRecursive && !root.isRecursive then s'.absorb place else s',
        .flagsUpdated root.flags)
  | none =>
    match s.recursiveAbove? place with
    | some above => (s, .covered above)
    | none =>
      let s' := s.put place ⟨flags, none⟩ (.added place flags)
      (if flags.isRecursive then s'.absorb place else s', .added)

/-- Remove the root at the canonical form of a place, if there is one, and hand it back. -/
def remove (place : Location) : RootSet × Option (Location × Root) :=
  let place := place.canonical
  match s.root? place with
  | some root =>
    ({ s with
        roots := s.roots.erase place
        events := s.events ++ [.removed place root.flags] },
      some (place, root))
  | none => (s, none)

/-- Remove those of some places that are roots, in order, and say which they were. -/
def removeEach (s : RootSet) : List Location → RootSet × List Location
  | [] => (s, [])
  | place :: rest =>
    let (s, root) := s.remove place
    let (s, removed) := removeEach s rest
    (s, (root.map (·.1)).toList ++ removed)

/-! ### Freshness checks -/

/-- Ask for a freshness check of a file: of the root at its canonical place, or else of the
entry in the root that covers it; with `recursive`, also of every root below. Says whether
anything was queued. -/
def notify (file : Location) (recursive : Bool) : RootSet × Bool :=
  let file := file.canonical
  let own : List RootEvent :=
    if s.isRoot file then [.updated file]
    else match s.covering? file with
      | some root => [.childUpdated root file]
      | none => []
  let nested := if recursive then (s.below file).map RootEvent.updated else []
  (s.queue (own ++ nested), !(own ++ nested).isEmpty)

/-- Ask for a freshness check of every root. -/
def updateAll : RootSet := s.queue (s.places.map .updated)

/-! ### Volume identifiers -/

/-- How the volume identifier of a file can be had. -/
def lookupVolume (file : Location) : VolumeLookup :=
  match s.owner? file with
  | none => .uncovered
  | some owner =>
    match (s.root? owner).bind (·.volume) with
    | some volume => .known volume
    | none => .unprobed owner

/-- Record the probed volume identifier of a root. The first probe counts; the answer is what
is recorded now. -/
def recordVolume (place : Location) (volume : Option String) : RootSet × Option String :=
  match s.root? place with
  | none => (s, none)
  | some root =>
    match root.volume with
    | some recorded => (s, recorded)
    | none =>
      ({ s with roots := s.roots.insert place { root with volume := some volume } }, volume)

end RootSet

end IndexControl
