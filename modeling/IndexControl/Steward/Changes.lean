import IndexControl.Steward.Basic

/-!
# What moves the steward

Settings and volumes change, and the set of roots changes with them.

## Main definitions

* `Steward.establish`: the roots of the first settings.
* `Steward.followFilters`, `Steward.followDirectories`, `Steward.followRemovable`: what changes
  of single settings do.
* `Steward.applySettings`: what a change of the settings does.
* `Steward.mount`, `Steward.unmount`: what a volume does that comes or goes.
* `Steward.takeOver`, `Steward.afterSettings`: settings that follow each other.
-/

namespace IndexControl

/-- A volume that has come or gone. -/
inductive VolumeEvent where
  | mounted (mount : Mount)
  | unmounted (path : Path)
deriving DecidableEq

namespace RootSet

/-- Change the flags of a root and remove it, so that it goes with those flags. -/
def removeAs (s : RootSet) (f : Flags → Flags) (place : Location) : RootSet :=
  match s.root? place with
  | none => s
  | some root => ((s.add place (f root.flags)).1.remove place).1

end RootSet

namespace Steward

variable (w : Steward)

/-! ### Settings -/

/-- Build the roots of the first settings. -/
def establish (s : RootSet) (settings : Settings) : Steward × RootSet :=
  let w := { w with
    indexRemovable := settings.indexRemovable
    enableMonitors := settings.enableMonitors
    directories := w.directoriesOf settings }
  let s := w.syncRoots (s.setFilters (filtersOf settings))
  (w, if w.indexRemovable then w.addRemovable s else s)

/-- The configured directories that are not among the next ones. -/
def dropped (next : Directories) : List Location :=
  (w.configured.map (·.1)).filter fun place =>
    !(next.roots.any fun root => root.1.location = place)

/-- Remove the roots of directories that are no longer configured. Nothing indexed outlives
them. The answer says which of them were there. -/
def removeDropped (s : RootSet) (dropped : List Location) : RootSet × List Location :=
  (dropped.foldl (fun s place => s.removeAs (·.without .preserve) place) s,
    dropped.filter s.isRoot)

/-- Take over the configured directories of changed settings. -/
def changeDirectories (s : RootSet) (settings : Settings) :
    Steward × RootSet × List Location :=
  let next := w.directoriesOf settings
  let (s, removed) := removeDropped s (w.dropped next)
  ({ w with directories := next }, s, removed)

/-- Take over whether removable volumes are indexed. -/
def changeRemovable (s : RootSet) (settings : Settings) : Steward × RootSet × List Location :=
  let w := { w with indexRemovable := settings.indexRemovable }
  if w.indexRemovable then (w, w.addRemovable s, [])
  else
    let (s, removed) := s.removeEach w.removablePlaces
    (w, s, removed)

/-- Follow changed filters. What is indexed is due for a freshness check. -/
def followFilters (s : RootSet) (settings : Settings) (change : SettingsChange) : RootSet :=
  if change.touchesFilters then (s.setFilters (filtersOf settings)).updateAll else s

/-- Follow changed directories, and give the configured roots the flags they have now. -/
def followDirectories (s : RootSet) (settings : Settings) (change : SettingsChange) :
    Steward × RootSet × List Location :=
  let w := { w with enableMonitors := settings.enableMonitors }
  let (w, s, removed) :=
    if change.touchesDirectories then w.changeDirectories s settings else (w, s, [])
  let s :=
    if change.touchesDirectories || change.touches .enableMonitors then w.syncRoots s else s
  (w, s, removed)

/-- Follow a change of whether removable volumes are indexed. -/
def followRemovable (s : RootSet) (settings : Settings) (change : SettingsChange) :
    Steward × RootSet × List Location :=
  if change.touches .indexRemovable then w.changeRemovable s settings else (w, s, [])

/-- Take over changed settings. The answer says which roots were removed. -/
def applySettings (s : RootSet) (settings : Settings) (change : SettingsChange) :
    Steward × RootSet × List Location :=
  let (w, s, removed) := w.followDirectories (followFilters s settings change) settings change
  let (w, s, volumes) := w.followRemovable s settings change
  (w, s, removed ++ volumes)

/-! ### Volumes -/

/-- A volume has come: index it if it is removable and such volumes are indexed, and otherwise
the configured directories on it. -/
def mount (s : RootSet) (m : Mount) : Steward × RootSet :=
  let place := m.path.location
  let w := { w with mounts := w.mounts.insert place m }
  if m.removable then
    (w, if w.indexRemovable then w.addDirectory s place w.volumeFlags else s)
  else (w, w.syncRootsOn s place)

/-- A volume has gone. The root of a removable volume goes with it; of another volume all roots
on it go, and what is indexed there is kept. -/
def unmount (s : RootSet) (path : Path) : Steward × RootSet :=
  let place := path.location
  match w.mounts.find? place with
  | none => (w, s)
  | some m =>
    let w := { w with mounts := w.mounts.erase place }
    if m.removable then (w, (s.remove place).1)
    else
      (w, (s.places.filter (·.startsWith place)).foldl
        (fun s root => s.removeAs (·.union .preserve) root) s)

/-- Follow a volume. -/
def followVolume (s : RootSet) : VolumeEvent → Steward × RootSet
  | .mounted m => w.mount s m
  | .unmounted path => w.unmount s path

/-! ### Settings that follow each other -/

/-- Take over settings in order, each with what has changed since those before them. -/
def takeOver (w : Steward) (s : RootSet) (previous : Settings) :
    List Settings → Steward × RootSet
  | [] => (w, s)
  | next :: rest =>
    let (w, s, _) := w.applySettings s next ⟨previous.changedKeys next⟩
    takeOver w s next rest

/-- The steward and the roots after first settings and others that follow, begun without
roots. -/
def afterSettings (environment : Environment) (systemLocations : List Location)
    (first : Settings) (later : List Settings) : Steward × RootSet :=
  let (w, s) := (new environment systemLocations).establish (.empty .none) first
  w.takeOver s first later

end Steward

end IndexControl
