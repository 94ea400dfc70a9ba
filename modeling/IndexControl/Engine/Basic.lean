import IndexControl.Engine.Event
import IndexControl.Snapshot.Stored
import IndexControl.Watches.Holding

/-!
# The engine

The engine owns the indexed roots and everything that has to change with them: the steward of
the configured directories, the records of who watches what, and the write buffer. What it asks
of others stands in its outbox until somebody takes it out.

## Main definitions

* `Engine`: the state.
* `Engine.dispatch`: make notifications about roots known.
* `Engine.followDirectories`, `Engine.restoreUncovered`: keep the records and the roots in line
  with the configured directories.
* `Engine.flush`, `Engine.flushIfFull`: start writing.
-/

namespace IndexControl

/-- The state of the engine. -/
structure Engine where
  /-- The settings applied last. -/
  settings : Settings
  steward : Steward
  roots : RootSet
  watches : Watches
  buffer : WriteBuffer
  /-- The disk on which the snapshot is kept. -/
  disk : Disk
  /-- What is asked of others, oldest first. -/
  outbox : List Effect

namespace Engine

/-- An engine that has not started. The live settings are read twice for it, once for the write
buffer and then for all the rest, and they may have changed in between. -/
def new (buffered settings : Settings) (environment : Environment)
    (systemLocations : List Location) (disk : Disk) : Engine where
  settings
  steward := .new environment systemLocations
  roots := .empty .none
  watches := .empty
  buffer := .empty buffered.bufferLimit.toNat
  disk
  outbox := []

variable (e : Engine)

/-- Ask something of others. -/
def emit (effects : List Effect) : Engine := { e with outbox := e.outbox ++ effects }

/-- Hand over what is asked of others. -/
def drain : List Effect × Engine := (e.outbox, { e with outbox := [] })

/-! ### Keeping everything in line -/

/-- Make the queued notifications known to the records of watches and to the crawler. -/
def dispatch : Engine :=
  let (events, roots) := e.roots.drain
  { e with
    roots
    watches := e.watches.followAll events
    outbox := e.outbox ++ events.map fun event => .crawl (.changed event) }

/-- Follow the configured directories: their roots stay when nobody watches them, and requests
are restricted to them where the settings say so. -/
def followDirectories : Engine :=
  let watches := (e.steward.configured.map (·.1)).foldl Watches.markStatic e.watches
  { e with watches := { watches with eligibility := e.steward.eligibility e.settings } }

/-- Bring back the configured roots and the suspended ones that a removal has uncovered. -/
def restoreUncovered : Engine :=
  let (watches, roots, _) := e.watches.restoreSuspended (e.steward.syncRoots e.roots)
  ({ e with roots, watches }).followDirectories.dispatch

/-- Bring back what the removal of some roots has uncovered. -/
def restoreAfter (removed : List Location) : Engine :=
  if removed.isEmpty then e else e.restoreUncovered

/-! ### Writing -/

/-- Start a flush, if one can start. -/
def flush (reason : String) (recipient : Option Nat) : Engine × Bool :=
  let (buffer, write) := e.buffer.flush reason recipient
  ({ e with buffer, outbox := e.outbox ++ write.toList.map .write }, write.isSome)

/-- Start a flush when enough tasks are outstanding. -/
def flushIfFull : Engine := if e.buffer.isFull then (e.flush "task limit reached" none).1 else e

/-- Have the completion of a batch reach the buffer, and report the end of the batch. -/
def complete (c : Completion) : Engine × Bool :=
  match e.buffer.complete c with
  | (buffer, none) => ({ e with buffer }, false)
  | (buffer, some (report, recipient)) =>
    ({ e with buffer, outbox := e.outbox ++ recipient.toList.map (.report · report) }, true)

/-! ### The snapshot -/

/-- Compare the roots with the stored snapshot. A snapshot that cannot be read or stored is left
alone. -/
def checkSnapshot : Engine :=
  match e.settings.stateDir with
  | none => e
  | some dir =>
    let (_, roots, disk) := Snapshot.check e.disk e.roots dir e.watches.isOnDemand
    { e with roots, disk }

/-- Store a snapshot. One that cannot be stored is left alone. -/
def saveSnapshot : Engine :=
  match e.settings.stateDir with
  | none => e
  | some dir =>
    { e with disk := (Snapshot.save e.disk (.ofRoots e.roots e.watches.isOnDemand) dir).2 }

end Engine

end IndexControl
