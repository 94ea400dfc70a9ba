import IndexControl.Json.Value
import IndexControl.Settings.Basic

/-!
# The settings file

A settings file holds one JSON object whose members are settings; those that are missing keep
their defaults and unknown members are skipped. An array is read as well: its items are the
settings in order. What is written is always the whole object, indented by two spaces.

## Main definitions

* `Settings.ofText?`: reading.
* `Settings.render?`: writing; settings whose paths are not text cannot be written.
-/

namespace IndexControl

namespace Settings

/-! ### Reading -/

/-- The strings of an array of strings. -/
def stringsOf? : Json → Option (List String)
  | .array items => items.mapM fun
    | .string text => text
    | _ => none
  | _ => none

/-- The value of a truth value. -/
def boolOf? : Json → Option Bool
  | .bool b => some b
  | _ => none

/-- The value of a number that fits into 64 bits. -/
def wordOf? : Json → Option UInt64
  | .number n => (n.filter (· ≤ Text.maxWord64)).map UInt64.ofNat
  | _ => none

/-- The path of a string, or none. -/
def pathOf? : Json → Option (Option Path)
  | .null => some none
  | .string text => text.map fun s => some (.ofString s)
  | _ => none

/-- Set one setting to a value, where the value is of the right kind. -/
def set? (s : Settings) (key : SettingsKey) (value : Json) : Option Settings :=
  match key with
  | .singleDirectories => (stringsOf? value).map ({ s with singleDirectories := · })
  | .recursiveDirectories => (stringsOf? value).map ({ s with recursiveDirectories := · })
  | .ignoredFiles => (stringsOf? value).map ({ s with ignoredFiles := · })
  | .ignoredDirectories => (stringsOf? value).map ({ s with ignoredDirectories := · })
  | .markers => (stringsOf? value).map ({ s with markers := · })
  | .filterHidden => (boolOf? value).map ({ s with filterHidden := · })
  | .indexRemovable => (boolOf? value).map ({ s with indexRemovable := · })
  | .enableMonitors => (boolOf? value).map ({ s with enableMonitors := · })
  | .requireConfigured => (boolOf? value).map ({ s with requireConfigured := · })
  | .bufferLimit => (wordOf? value).map ({ s with bufferLimit := · })
  | .flushInterval => (wordOf? value).map ({ s with flushInterval := · })
  | .stateDir => (pathOf? value).map ({ s with stateDir := · })

/-- Set several settings one after the other. -/
def setAll? (s : Settings) (fields : List (SettingsKey × Json)) : Option Settings :=
  fields.foldlM (fun s field => s.set? field.1 field.2) s

/-- The settings among the members of an object. -/
def fieldsOf (members : List (String × Json)) : List (SettingsKey × Json) :=
  members.filterMap fun member =>
    (SettingsKey.all.find? (·.fieldName = member.1)).map (·, member.2)

/-- The members of an object whose names are all texts. -/
def namedMembers? (members : List (Option String × Json)) : Option (List (String × Json)) :=
  members.mapM fun member => member.1.map (·, member.2)

/-- Read settings from a JSON value. A setting may not be given twice, and an array may not be
longer than there are settings. -/
def ofJson? : Json → Option Settings
  | .object members => do
    let fields := fieldsOf (← namedMembers? members)
    if (fields.map (·.1)).Nodup then setAll? default fields else none
  | .array items =>
    if items.length ≤ SettingsKey.all.length then setAll? default (SettingsKey.all.zip items)
    else none
  | _ => none

/-- Read settings from the text of a file. -/
def ofText? (text : String) : Option Settings := (Json.read? text).bind ofJson?

/-! ### Writing -/

/-- Parts on lines of their own, with commas between them. -/
def commaLines : List (List Char) → List Char
  | [] => []
  | [part] => part
  | part :: next :: more => part ++ ',' :: '\n' :: commaLines (next :: more)

/-- An array of strings, one to a line and indented twice; an empty one is closed at once. -/
def renderStrings (items : List String) : List Char :=
  if items.isEmpty then ['[', ']']
  else '[' :: '\n' :: commaLines (items.map fun s => "    ".toList ++ Json.quoted s) ++
    "\n  ]".toList

/-- A truth value. -/
def renderBool (b : Bool) : List Char := (if b then "true" else "false").toList

/-- A path, where it is text. -/
def renderPath? : Option Path → Option (List Char)
  | none => some "null".toList
  | some path => path.toString?.map Json.quoted

/-- The value of one setting. -/
def renderValue? (s : Settings) : SettingsKey → Option (List Char)
  | .singleDirectories => some (renderStrings s.singleDirectories)
  | .recursiveDirectories => some (renderStrings s.recursiveDirectories)
  | .ignoredFiles => some (renderStrings s.ignoredFiles)
  | .ignoredDirectories => some (renderStrings s.ignoredDirectories)
  | .markers => some (renderStrings s.markers)
  | .filterHidden => some (renderBool s.filterHidden)
  | .indexRemovable => some (renderBool s.indexRemovable)
  | .enableMonitors => some (renderBool s.enableMonitors)
  | .requireConfigured => some (renderBool s.requireConfigured)
  | .bufferLimit => some (Text.decimal s.bufferLimit.toNat)
  | .flushInterval => some (Text.decimal s.flushInterval.toNat)
  | .stateDir => renderPath? s.stateDir

/-- The member of one setting, indented once. -/
def renderMember? (s : Settings) (key : SettingsKey) : Option (List Char) :=
  (s.renderValue? key).map fun value =>
    ' ' :: ' ' :: Json.quoted key.fieldName ++ ':' :: ' ' :: value

/-- The text of a settings file, unless a path is not text. -/
def render? (s : Settings) : Option String := do
  let members ← SettingsKey.all.mapM s.renderMember?
  return .ofList ('{' :: '\n' :: commaLines members ++ ['\n', '\x7d'])

end Settings

end IndexControl
