import IndexControl.Settings.Basic

/-!
# Live settings and their subscribers

The live settings have one owner. Each change is announced to subscribers, who read the
announcements at their own pace. Only the newest announcements are kept: a subscriber too far
behind learns once how many it has missed and goes on with the oldest one kept.

## Main definitions

* `SettingsFeed`, `SettingsFeed.update`, `SettingsFeed.modify`: the settings and their changes.
* `SettingsFeed.replace`, `SettingsFeed.announce`: the two halves of an update.
* `SettingsFeed.subscribe`, `SettingsFeed.receive`: the announcements.
-/

namespace IndexControl

/-- The live settings with all changes announced so far, oldest first. -/
structure SettingsFeed where
  settings : Settings
  announced : List SettingsChange
deriving Inhabited

namespace SettingsFeed

/-- How many announcements are kept for subscribers that have not read them. -/
def capacity : Nat := 64

/-- Settings about which nothing has been announced. -/
def ofSettings (settings : Settings) : SettingsFeed := ⟨settings, []⟩

variable (feed : SettingsFeed)

/-- Replace the settings, if the new ones differ. The answer says what has changed. -/
def replace (settings : Settings) : SettingsFeed × Option SettingsChange :=
  match feed.settings.change? settings with
  | none => (feed, none)
  | some change => ({ feed with settings }, some change)

/-- Announce a change to all subscribers. -/
def announce (change : SettingsChange) : SettingsFeed :=
  { feed with announced := feed.announced ++ [change] }

/-- Replace the settings. What has changed is announced, if anything has. -/
def update (settings : Settings) : SettingsFeed × Option SettingsChange :=
  match feed.replace settings with
  | (feed, none) => (feed, none)
  | (feed, some change) => (feed.announce change, some change)

/-- Edit the settings. -/
def modify (edit : Settings → Settings) : SettingsFeed × Option SettingsChange :=
  feed.update (edit feed.settings)

/-- How many announcements a new subscriber has behind it. -/
def subscribe : Nat := feed.announced.length

/-- What a subscriber reads. -/
inductive Received where
  | change (change : SettingsChange)
  /-- So many announcements are no longer kept. -/
  | lagged (missed : Nat)
  | empty
deriving DecidableEq

/-- The number of the oldest announcement that is kept. -/
def oldest : Nat := feed.announced.length - capacity

/-- Read the next announcement after the first `seen` ones, and say how many have been seen
then. -/
def receive (seen : Nat) : Received × Nat :=
  if seen < feed.oldest then (.lagged (feed.oldest - seen), feed.oldest)
  else match feed.announced[seen]? with
    | some change => (.change change, seen + 1)
    | none => (.empty, seen)

/-- Whether a subscriber has something to read. -/
def hasNews (seen : Nat) : Bool := seen < feed.announced.length

end SettingsFeed

end IndexControl
