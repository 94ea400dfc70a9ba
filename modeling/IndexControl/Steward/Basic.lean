import IndexControl.Directories.Basic
import IndexControl.Request.Basic
import IndexControl.Roots.Basic
import IndexControl.Settings.Basic

/-!
# The steward of the configured roots

The steward knows the configured directories and the mounted volumes, and keeps the set of roots
as the settings want it. Some locations of the system are never indexed.

## Main definitions

* `Mount`, `Steward`.
* `Steward.flagsFor`, `Steward.volumeFlags`: the flags of the roots it adds.
* `Steward.addDirectory`, `Steward.syncRoots`, `Steward.addRemovable`: what it adds.
* `Steward.eligibility`: the restriction of requests that the settings ask for.
-/

namespace IndexControl

/-- A mounted volume. -/
structure Mount where
  path : Path
  uuid : Option String
  removable : Bool
deriving DecidableEq, Inhabited

/-- What the steward knows. -/
structure Steward where
  environment : Environment
  /-- Locations that are never indexed, with all that lies below. -/
  systemLocations : List Location
  directories : Directories
  mounts : OrderedMap Location Mount
  indexRemovable : Bool
  enableMonitors : Bool

namespace Steward

/-- The locations of a system that are usually not indexed. -/
def usualSystemLocations : List Location :=
  ["/dev", "/lib", "/proc", "/sys", "/tmp"].map fun s => (Path.ofString s).location

/-- A steward who has seen neither settings nor volumes. -/
def new (environment : Environment) (systemLocations : List Location) : Steward where
  environment
  systemLocations
  directories := .none
  mounts := .empty
  indexRemovable := false
  enableMonitors := true

/-- The filters that settings ask for. -/
def filtersOf (settings : Settings) : Filters :=
  .ofPatterns {
    files := settings.ignoredFiles
    directories := settings.ignoredDirectories
    parentMarkers := settings.markers
    filterHidden := settings.filterHidden }

variable (w : Steward)

/-- Whether a place is never indexed. -/
def isSystemLocation (place : Location) : Bool := w.systemLocations.any place.startsWith

/-- The configured directories that settings ask for. -/
def directoriesOf (settings : Settings) : Directories :=
  .reconcile w.environment settings.singleDirectories settings.recursiveDirectories

/-- The configured directories as places, each with whether it is recursive. -/
def configured : List (Location × Bool) :=
  w.directories.roots.map fun root => (root.1.location, root.2)

/-- The restriction of requests that settings ask for, if they do. -/
def eligibility (settings : Settings) : Option Eligibility :=
  if settings.requireConfigured then some (.ofDirectories w.directories) else none

/-! ### Flags -/

/-- Whether a place lies on a mounted removable volume. -/
def isOnRemovable (place : Location) : Bool :=
  w.mounts.entries.any fun e => e.2.removable && place.startsWith e.1

/-- The flags of a configured root. What lies on a removable volume outlives the root. -/
def flagsFor (place : Location) (recursive : Bool) : Flags :=
  ((Flags.checkTime.addIf recursive .recurse).addIf w.enableMonitors .monitor).addIf
    (w.isOnRemovable place) (Flags.isVolume.union .preserve)

/-- The flags of the root of a removable volume. -/
def volumeFlags : Flags := Flags.removableVolume.addIf w.enableMonitors .monitor

/-! ### Adding roots -/

/-- Add a root, unless its place is never indexed. -/
def addDirectory (s : RootSet) (place : Location) (flags : Flags) : RootSet :=
  if w.isSystemLocation place then s else (s.add place flags).1

/-- Add configured directories. -/
def addConfigured (s : RootSet) (directories : List (Location × Bool)) : RootSet :=
  directories.foldl (fun s d => w.addDirectory s d.1 (w.flagsFor d.1 d.2)) s

/-- Add all configured directories. -/
def syncRoots (s : RootSet) : RootSet := w.addConfigured s w.configured

/-- Add the configured directories on a volume. -/
def syncRootsOn (s : RootSet) (volume : Location) : RootSet :=
  w.addConfigured s (w.configured.filter (·.1.startsWith volume))

/-- The places of the mounted removable volumes, in order. -/
def removablePlaces : List Location := (w.mounts.filter fun _ m => m.removable).keys

/-- Add the mounted removable volumes. -/
def addRemovable (s : RootSet) : RootSet :=
  w.removablePlaces.foldl (fun s place => w.addDirectory s place w.volumeFlags) s

end Steward

end IndexControl
