import IndexControl.Disk
import IndexControl.Settings.Json
import IndexControl.Text.Blank

/-!
# Where settings come from

Settings are kept in a file, and single ones can be overridden by variables.

## Main definitions

* `Settings.load`, `Settings.save`: the file.
* `Settings.override`: the variables.
-/

namespace IndexControl

namespace Settings

/-! ### The file -/

/-- Load settings from a file. Without a file they are the defaults. -/
def load (disk : Disk) (file : Path) : Except ServiceError Settings :=
  match disk.readText file with
  | .error .notFound => .ok default
  | .error cause => .error (.io cause)
  | .ok text =>
    match ofText? text with
    | some settings => .ok settings
    | none => .error (.unreadableSettings file)

/-- A failed file operation as the service reports it. -/
def ioResult : Except IoError Unit → Except ServiceError Unit
  | .ok () => .ok ()
  | .error cause => .error (.io cause)

/-- Save settings to a file, making the directories above it. Settings that cannot be written
leave the disk as it is. -/
def save (disk : Disk) (s : Settings) (file : Path) : Except ServiceError Unit × Disk :=
  match s.render? with
  | none => (.error .settingsNotText, disk)
  | some text =>
    match (file.parent?.map disk.makeDirs).getD (.ok (), disk) with
    | (.error cause, disk) => (.error (.io cause), disk)
    | (.ok (), disk) =>
      let (result, disk) := disk.write file (Text.utf8 text)
      (ioResult result, disk)

/-! ### Variables -/

/-- The parts of a list with colons between them; empty ones do not count. -/
def listOf (value : String) : List String :=
  ((Text.splitAt ':' value.toList).filter fun part => !part.isEmpty).map String.ofList

/-- The lower-case form of an ASCII letter; other characters stay. -/
def lowerAscii (c : Char) : Char :=
  if 'A' ≤ c ∧ c ≤ 'Z' then Char.ofNat (c.toNat + 32) else c

/-- The words for a truth value, in any case and with blanks around them. -/
def truthOf? (value : String) : Option Bool :=
  let word := String.ofList ((Text.trim value).toList.map lowerAscii)
  if ["1", "true", "yes", "on"].contains word then some true
  else if ["0", "false", "no", "off"].contains word then some false
  else none

/-- The value of a decimal numeral that fits into 64 bits. -/
def numberOf? (value : String) : Option UInt64 :=
  (Text.readNumeral? 10 Text.maxWord64 value.toList).map UInt64.ofNat

/-- Replace settings by what variables say. A variable that cannot be understood says
nothing. -/
def override (s : Settings) (lookUp : String → Option String) : Settings :=
  let strings := fun name kept => ((lookUp name).map listOf).getD kept
  let truth := fun name kept => ((lookUp name).bind truthOf?).getD kept
  let number := fun name kept => ((lookUp name).bind numberOf?).getD kept
  { singleDirectories := strings "MINER_INDEX_SINGLE_DIRECTORIES" s.singleDirectories
    recursiveDirectories := strings "MINER_INDEX_RECURSIVE_DIRECTORIES" s.recursiveDirectories
    ignoredFiles := strings "MINER_IGNORED_FILES" s.ignoredFiles
    ignoredDirectories := strings "MINER_IGNORED_DIRECTORIES" s.ignoredDirectories
    markers := strings "MINER_IGNORED_DIRECTORIES_WITH_CONTENT" s.markers
    filterHidden := truth "MINER_FILTER_HIDDEN" s.filterHidden
    indexRemovable := truth "MINER_INDEX_REMOVABLE_DEVICES" s.indexRemovable
    enableMonitors := truth "MINER_ENABLE_MONITORS" s.enableMonitors
    requireConfigured := truth "MINER_REQUIRE_LOCATION_IN_CONFIG" s.requireConfigured
    bufferLimit := number "MINER_BUFFER_LIMIT" s.bufferLimit
    flushInterval := number "MINER_FLUSH_INTERVAL_MS" s.flushInterval
    stateDir :=
      match (lookUp "MINER_STATE_DIR").filter fun value => !value.isEmpty with
      | some value => some (.ofString value)
      | none => s.stateDir }

/-- Load settings from a file and override them by variables. -/
def loadAndOverride (disk : Disk) (file : Path) (lookUp : String → Option String) :
    Except ServiceError Settings :=
  (load disk file).map (·.override lookUp)

end Settings

end IndexControl
