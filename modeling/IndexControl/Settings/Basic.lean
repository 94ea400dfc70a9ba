import IndexControl.Path.Basic

/-!
# Settings

What a user decides about indexing. Directory lists hold entries as they are written; they are
resolved before they reach the roots.

## Main definitions

* `Settings`, `Settings.default`.
* `SettingsKey`: the settings that can be told apart when they change.
* `SettingsChange`, `Settings.changedKeys`: which of them differ between two values.
-/

namespace IndexControl

/-- What a user decides about indexing. -/
structure Settings where
  /-- Directories indexed without what lies below their entries. -/
  singleDirectories : List String
  /-- Directories indexed as a whole. -/
  recursiveDirectories : List String
  ignoredFiles : List String
  ignoredDirectories : List String
  /-- Names whose presence excludes the contents of a directory. -/
  markers : List String
  filterHidden : Bool
  indexRemovable : Bool
  enableMonitors : Bool
  /-- Whether requests are refused outside of the configured directories. -/
  requireConfigured : Bool
  /-- How many outstanding writes start a flush. -/
  bufferLimit : UInt64
  /-- The time between two flushes, in milliseconds. -/
  flushInterval : UInt64
  /-- Where the snapshot is kept between runs. -/
  stateDir : Option Path
deriving DecidableEq

namespace Settings

/-- The settings of a user who has decided nothing. -/
def default : Settings where
  singleDirectories := ["$HOME"]
  recursiveDirectories :=
    ["&DESKTOP", "&DOCUMENTS", "&DOWNLOAD", "&MUSIC", "&PICTURES", "&VIDEOS"]
  ignoredFiles :=
    ["*~", "*.o", "*.la", "*.lo", "*.loT", "*.in", "*.m4", "*.rej", "*.gmo", "*.orig", "*.pc",
      "*.omf", "*.aux", "*.tmp", "*.po", "*.vmdk", "*.vm*", "*.nvram", "*.part", "*.bak"]
  ignoredDirectories := ["po", "CVS", "core-dumps", "lost+found"]
  markers := [".trackerignore", ".git", ".nomedia"]
  filterHidden := true
  indexRemovable := false
  enableMonitors := true
  requireConfigured := false
  bufferLimit := 100
  flushInterval := 1000
  stateDir := none

instance : Inhabited Settings := ⟨default⟩

/-- The time between two flushes; it is never zero. -/
def flushPeriod (s : Settings) : Nat := max s.flushInterval.toNat 1

end Settings

/-- The settings that can be told apart when they change, in the order of their fields. -/
inductive SettingsKey where
  | singleDirectories
  | recursiveDirectories
  | ignoredFiles
  | ignoredDirectories
  | markers
  | filterHidden
  | indexRemovable
  | enableMonitors
  | requireConfigured
  | bufferLimit
  | flushInterval
  | stateDir
deriving DecidableEq

namespace SettingsKey

/-- All keys in order. -/
def all : List SettingsKey :=
  [singleDirectories, recursiveDirectories, ignoredFiles, ignoredDirectories, markers,
    filterHidden, indexRemovable, enableMonitors, requireConfigured, bufferLimit, flushInterval,
    stateDir]

/-- The name under which a settings file holds the value. -/
def fieldName : SettingsKey → String
  | singleDirectories => "index_single_directories"
  | recursiveDirectories => "index_recursive_directories"
  | ignoredFiles => "ignored_files"
  | ignoredDirectories => "ignored_directories"
  | markers => "ignored_directories_with_content"
  | filterHidden => "filter_hidden"
  | indexRemovable => "index_removable_devices"
  | enableMonitors => "enable_monitors"
  | requireConfigured => "require_location_in_config"
  | bufferLimit => "buffer_limit"
  | flushInterval => "flush_interval_ms"
  | stateDir => "state_dir"

/-- Whether the configured directories hang on the value. -/
def affectsDirectories : SettingsKey → Bool
  | singleDirectories | recursiveDirectories => true
  | _ => false

/-- Whether the filters hang on the value. -/
def affectsFilters : SettingsKey → Bool
  | ignoredFiles | ignoredDirectories | markers | filterHidden => true
  | _ => false

/-- Whether two settings differ at a key. Paths are compared as places. -/
def differs (a b : Settings) : SettingsKey → Bool
  | singleDirectories => a.singleDirectories ≠ b.singleDirectories
  | recursiveDirectories => a.recursiveDirectories ≠ b.recursiveDirectories
  | ignoredFiles => a.ignoredFiles ≠ b.ignoredFiles
  | ignoredDirectories => a.ignoredDirectories ≠ b.ignoredDirectories
  | markers => a.markers ≠ b.markers
  | filterHidden => a.filterHidden ≠ b.filterHidden
  | indexRemovable => a.indexRemovable ≠ b.indexRemovable
  | enableMonitors => a.enableMonitors ≠ b.enableMonitors
  | requireConfigured => a.requireConfigured ≠ b.requireConfigured
  | bufferLimit => a.bufferLimit ≠ b.bufferLimit
  | flushInterval => a.flushInterval ≠ b.flushInterval
  | stateDir => a.stateDir.map Path.location ≠ b.stateDir.map Path.location

end SettingsKey

/-- The keys at which settings have changed. -/
structure SettingsChange where
  keys : List SettingsKey
deriving DecidableEq

namespace SettingsChange

/-- Whether the configured directories hang on the change. -/
def touchesDirectories (c : SettingsChange) : Bool := c.keys.any (·.affectsDirectories)

/-- Whether the filters hang on the change. -/
def touchesFilters (c : SettingsChange) : Bool := c.keys.any (·.affectsFilters)

/-- Whether a key has changed. -/
def touches (c : SettingsChange) (key : SettingsKey) : Bool := c.keys.contains key

end SettingsChange

namespace Settings

/-- The keys at which two settings differ, in order. -/
def changedKeys (a b : Settings) : List SettingsKey := SettingsKey.all.filter (·.differs a b)

/-- What changes from one value of the settings to another, if anything does. -/
def change? (a b : Settings) : Option SettingsChange :=
  match a.changedKeys b with
  | [] => none
  | keys => some ⟨keys⟩

/-- Whether two settings agree at every key. -/
def sameAs (a b : Settings) : Bool := (a.changedKeys b).isEmpty

end Settings

end IndexControl
