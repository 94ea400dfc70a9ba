import IndexControl.Engine.Basic

/-!
# The steps of the engine

## Main definitions

* `Engine.start`: the roots of the first settings.
* `Engine.handle`: one event.
* `Engine.finishBatch`: the end of a batch.
* `Engine.adopt`: changed settings.
* `Engine.tick`: the end of the time between two flushes.
* `Engine.interrupt`: the end of the engine.
-/

namespace IndexControl

namespace Engine

variable (e : Engine)

/-- Start: build the roots of the settings and compare them with the stored snapshot. -/
def start : Engine :=
  let (steward, roots) := e.steward.establish e.roots e.settings
  ({ e with steward, roots }).followDirectories.checkSnapshot.dispatch

/-! ### Events -/

/-- Apply a request whose target has been probed. -/
def applyProbed (p : ProbedRequest) : Engine × Except RequestError IndexOutcome :=
  match e.watches.apply e.roots p with
  | .error cause => (e, .error cause)
  | .ok a =>
    let e := { e with roots := a.roots, watches := a.watches }
    match a.outcome with
    | .fileCheck => (e.emit [.crawl (.check p.place .high)], .ok a.outcome)
    | outcome => (e, .ok outcome)

/-- Handle the result of a probe. -/
def handleProbed (number : Nat) (result : Except RequestError ProbedRequest) : Engine :=
  let (e, outcome) : Engine × Except RequestError IndexOutcome :=
    match result with
    | .error cause => (e, .error cause)
    | .ok p => e.applyProbed p
  e.dispatch.emit [.answer number (.index outcome)]

/-- Release a requester. -/
def handleRelease (number : Nat) (requester : Requester) : Engine :=
  let (watches, roots, removed) := e.watches.release e.roots requester
  (({ e with watches, roots }).dispatch.restoreAfter removed).emit
    [.answer number (.released removed)]

/-- Handle what was learnt about a file. -/
def handleResolved (number : Nat) (result : Except ServiceError Resolved) : Engine :=
  match result with
  | .error cause => e.emit [.answer number (.identify (.error cause))]
  | .ok r =>
    ({ e with roots := r.record e.roots }).emit [.answer number (.identify (.ok r.id))]

/-- Handle a call. Some calls are answered at once; others have to wait for slow work. -/
def handleCall (number : Nat) : Call → Engine
  | .index request => e.emit [.probe number request]
  | .release requester => e.handleRelease number requester
  | .push task =>
    ({ e with buffer := e.buffer.push task }).flushIfFull.emit [.answer number (.pushed task)]
  | .flush reason =>
    let (e, started) := e.flush reason (some number)
    e.emit [.answer number (.flush started)]
  | .bufferState file => e.emit [.answer number (.bufferState (e.buffer.stateOf file))]
  | .identify file => e.emit [.identify number (.plan e.roots file)]
  | .roots => e.emit [.answer number (.roots e.roots.roots.entries)]

/-- Follow a volume. -/
def handleVolume (event : VolumeEvent) : Engine :=
  let (steward, roots) := e.steward.followVolume e.roots event
  ({ e with steward, roots }).dispatch

/-- Handle one event. -/
def handle : EngineEvent → Engine
  | .call number asked => e.handleCall number asked
  | .probed number result => e.handleProbed number result
  | .resolved number result => e.handleResolved number result
  | .volume event => e.handleVolume event

/-! ### Batches and time -/

/-- Handle the end of a batch. Tasks that have come in the meantime may be enough for the next
one. -/
def finishBatch (c : Completion) : Engine :=
  let (e, ended) := e.complete c
  if ended then e.flushIfFull else e

/-- Flush at the end of the time between two flushes. -/
def tick : Engine := (e.flush "flush interval elapsed" none).1

/-- End: the batch in flight, if there is one, has been interrupted. -/
def interrupt : Engine :=
  match e.buffer.inFlight with
  | none => e
  | some batch => (e.complete ⟨batch.number, .cancelled⟩).1

/-! ### Settings -/

/-- Follow changed settings with the write buffer. -/
def followBuffer (change : SettingsChange) : Engine :=
  let e := if change.touches .bufferLimit then
      ({ e with buffer := e.buffer.setLimit e.settings.bufferLimit.toNat }).flushIfFull
    else e
  if change.touches .flushInterval then e.emit [.rearm] else e

/-- Apply a change of the settings. -/
def applyChange (change : SettingsChange) : Engine :=
  let (steward, roots, removed) := e.steward.applySettings e.roots e.settings change
  let e := { e with steward, roots }
  let e := if change.touchesDirectories || change.touches .requireConfigured then
      e.followDirectories
    else e
  let e := (e.followBuffer change).dispatch.restoreAfter removed
  if !removed.isEmpty || change.touchesDirectories || change.touchesFilters then e.saveSnapshot
  else e

/-- Take over the newest settings, whatever has changed since settings were applied last. -/
def adopt (settings : Settings) : Engine :=
  match e.settings.change? settings with
  | none => e
  | some change => ({ e with settings }).applyChange change

theorem adopt_of_none {e : Engine} {settings : Settings}
    (h : e.settings.change? settings = none) : e.adopt settings = e := by
  rw [adopt, h]

theorem adopt_of_some {e : Engine} {settings : Settings} {change : SettingsChange}
    (h : e.settings.change? settings = some change) :
    e.adopt settings = ({ e with settings }).applyChange change := by
  rw [adopt, h]

end Engine

end IndexControl
