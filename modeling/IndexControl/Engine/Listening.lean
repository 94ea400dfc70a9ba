import IndexControl.Engine.Run
import IndexControl.Settings.Feed

/-!
# An engine that listens for changed settings

The live settings are changed by any number of calls at a time, while the engine reads the
announcements at its own pace. A call that edits the settings reads them first; a call replaces them
and announces afterwards what it has changed. The engine looks at the settings after each thing
that it has read, whatever that was.

## Main definitions

* `SettingsCall`: how far a call that changes the settings has come.
* `Listening`, `Listening.launch`: the live settings with the calls and an engine.
* `Listening.step`, `Listening.run`: one step of a call or of the engine, and several in any order.
-/

namespace IndexControl

/-- A call that changes the live settings and has not returned. -/
inductive SettingsCall where
  /-- It will replace the live settings by these. -/
  | begun (settings : Settings)
  /-- It has replaced them and will announce this change. -/
  | replaced (change : SettingsChange)

/-- The live settings, the calls that change them and an engine that listens. -/
structure Listening where
  feed : SettingsFeed
  /-- The calls that have not returned. -/
  calls : List SettingsCall
  engine : Engine
  /-- How many announcements the engine has read. -/
  seen : Nat
  /-- Whether the engine has read something and has not looked at the settings since. -/
  isAlert : Bool

/-- What happens next to live settings and an engine that listens. -/
inductive ListeningMove where
  /-- A call to replace the settings begins. -/
  | update (settings : Settings)
  /-- A call to edit the settings begins: it reads them. -/
  | modify (edit : Settings → Settings)
  /-- A call replaces the settings. One that changes nothing returns. -/
  | replace (call : Nat)
  /-- A call announces what it has changed, and returns. -/
  | announce (call : Nat)
  /-- The engine reads the next announcement, or that it has missed some. -/
  | receive
  /-- The engine looks at the settings. -/
  | look
  /-- The engine handles an event. -/
  | handle (event : EngineEvent)
  /-- The engine handles the end of a batch. -/
  | finishBatch (completion : Completion)
  /-- The time between two flushes ends. -/
  | tick

namespace Listening

/-- Start an engine with the settings there are. Those that were read for its write buffer may be
older, and calls may be on their way. -/
def launch (buffered : Settings) (feed : SettingsFeed) (calls : List SettingsCall)
    (environment : Environment) (systemLocations : List Location) (disk : Disk) : Listening where
  feed
  calls
  engine := (Engine.new buffered feed.settings environment systemLocations disk).start
  seen := feed.subscribe
  isAlert := false

variable (l : Listening)

/-- A call replaces the settings, unless it has done so. -/
def replace (call : Nat) : Listening :=
  match l.calls[call]? with
  | some (.begun settings) =>
    match l.feed.replace settings with
    | (feed, none) => { l with feed, calls := l.calls.eraseIdx call }
    | (feed, some change) => { l with feed, calls := l.calls.set call (.replaced change) }
  | _ => l

/-- A call announces what it has changed, if it has replaced the settings. -/
def announce (call : Nat) : Listening :=
  match l.calls[call]? with
  | some (.replaced change) =>
    { l with feed := l.feed.announce change, calls := l.calls.eraseIdx call }
  | _ => l

/-- The engine reads, if there is something to read. -/
def receive : Listening :=
  if l.feed.hasNews l.seen then { l with seen := (l.feed.receive l.seen).2, isAlert := true }
  else l

/-- The engine looks at the settings, if it has read something. -/
def look : Listening :=
  if l.isAlert then { l with engine := l.engine.adopt l.feed.settings, isAlert := false } else l

/-- The engine moves for another reason. It looks at the settings first where it has to. -/
def advance (move : Engine → Engine) : Listening :=
  if l.isAlert then l else { l with engine := move l.engine }

/-- What happens next. -/
def step : ListeningMove → Listening
  | .update settings => { l with calls := l.calls ++ [.begun settings] }
  | .modify edit => { l with calls := l.calls ++ [.begun (edit l.feed.settings)] }
  | .replace call => l.replace call
  | .announce call => l.announce call
  | .receive => if l.isAlert then l else l.receive
  | .look => l.look
  | .handle event => l.advance (·.handle event)
  | .finishBatch completion => l.advance (·.finishBatch completion)
  | .tick => l.advance (·.tick)

/-- What happens in order. -/
def run (moves : List ListeningMove) : Listening := moves.foldl step l

end Listening

end IndexControl
