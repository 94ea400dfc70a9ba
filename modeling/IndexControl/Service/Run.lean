import IndexControl.Service.Basic

/-!
# The running service

The service moves until nothing is left to do. The engine comes first; it takes an order to end
before the end of a batch, that before an event, an event before changed settings, and those
before the end of the time between two flushes. When the engine has nothing to do, all work that
can begin is begun.

## Main definitions

* `Service.advanceEngine?`, `Service.move?`: the next move.
* `Service.settle`: all moves.
* `Service.issue`, `Service.changeSettings`, `Service.elapse` and others: what is done to the
  service from outside.
-/

namespace IndexControl

namespace Service

variable (s : Service)

/-! ### Moves -/

/-- How late the end of a time between two flushes may be noticed, in milliseconds, and still
count as on time. -/
def tolerance : Nat := 5

/-- When the next time between two flushes ends, if one has ended. -/
def nextDue : Nat := if s.clock ≤ s.due + tolerance then s.due + s.period else s.clock + s.period

/-- What the engine does next, if there is anything to do. -/
def advanceEngine? : Option Service :=
  if !s.isRunning then none
  else if s.isStopping then some s.stop
  else match s.completions, s.events with
    | c :: rest, _ => some ({ s with completions := rest }.carryOut (s.engine.finishBatch c))
    | [], event :: rest => some ({ s with events := rest }.carryOut (s.engine.handle event))
    | [], [] =>
      if s.feed.hasNews s.seen then
        some ({ s with seen := (s.feed.receive s.seen).2 }.carryOut
          (s.engine.adopt s.feed.settings))
      else if s.due ≤ s.clock then
        some ({ s with due := s.nextDue }.carryOut s.engine.tick)
      else none

/-- What happens next, if anything does. -/
def move? : Option Service :=
  match s.advanceEngine? with
  | some s' => some s'
  | none => if s.ready.isEmpty then none else some s.runJobs

/-- Move at most so many times. -/
def settleWithin : (moves : Nat) → Service → Service
  | 0, s => s
  | moves + 1, s =>
    match s.move? with
    | none => s
    | some s' => settleWithin moves s'

/-- A bound on the moves to come. Each event, job, completion and task leads to a few of them,
each announcement to one, and the time ends again only while its end counts as on time. -/
def moveBound : Nat :=
  8 * (s.events.length + s.ready.length + s.completions.length +
    s.engine.buffer.pending.length + (s.feed.announced.length - s.seen) + tolerance + 2)

/-- Move until nothing is left to do. -/
def settle : Service := settleWithin s.moveBound s

/-! ### From outside -/

/-- A service that has not started. -/
def new (settings : Settings) (environment : Environment) (systemLocations : List Location)
    (attributes : Attributes) (disk : Disk) : Service where
  environment
  systemLocations
  feed := .ofSettings settings
  attributes
  store := .empty
  engine := .new settings settings environment systemLocations disk
  life := 0
  isRunning := false
  isStopping := false
  events := []
  completions := []
  seen := 0
  clock := 0
  due := 0
  period := 1
  ready := []
  questions := .free
  writes := .free
  crawl := []
  answers := []
  reports := []

/-- Whether the engine takes new events. -/
def isOpen : Bool := s.isRunning && !s.isStopping

/-- Queue an event for the engine. -/
def post (event : EngineEvent) : Service := { s with events := s.events ++ [event] }

/-- Make a call under a number. Requests are taken as long as the engine is there. -/
def issue (number : Nat) (call : Call) : Service :=
  let isTaken := match call with
    | .index _ => s.isRunning
    | _ => s.isOpen
  if isTaken then s.post (.call number call)
  else { s with answers := s.answers ++ [(number, call.refused)] }

/-- Tell the service about a volume. -/
def volume (event : VolumeEvent) : Service × Except ServiceError Unit :=
  if s.isOpen then (s.post (.volume event), .ok ()) else (s, .error .stopped)

/-- Edit the settings. -/
def changeSettings (edit : Settings → Settings) : Service × Option SettingsChange :=
  let (feed, change) := s.feed.modify edit
  ({ s with feed }, change)

/-- Tell the engine to end. -/
def shutdown : Service := { s with isStopping := true }

/-- Shut the service down and start it again. -/
def restart : Service := s.shutdown.settle.launch

/-- Let time pass. -/
def elapse (milliseconds : Nat) : Service := { s with clock := s.clock + milliseconds }

/-- Jobs that have just passed their gate. -/
def admitted (jobs : List Job) : List Job := jobs.map fun job => { job with isAdmitted := true }

/-- Hold the questions about files. -/
def holdQuestions : Service := { s with questions := s.questions.hold }

/-- Let some of the questions pass, or all of them. -/
def releaseQuestions (count : Option Nat) : Service :=
  let (questions, jobs) := match count with
    | some n => s.questions.grant n
    | none => s.questions.release
  { s with questions, ready := s.ready ++ admitted jobs }

/-- Hold the writes to the store. -/
def holdWrites : Service := { s with writes := s.writes.hold }

/-- Let some of the writes pass, or all of them. -/
def releaseWrites (count : Option Nat) : Service :=
  let (writes, jobs) := match count with
    | some n => s.writes.grant n
    | none => s.writes.release
  { s with writes, ready := s.ready ++ admitted jobs }

/-- What has come out of the service, in the order of the calls' numbers. -/
structure Output where
  crawl : List CrawlCall
  answers : List (Nat × Answer)
  reports : List (Nat × FlushReport)

/-- Hand over what has come out since the last time. -/
def drain : Output × Service :=
  ({ crawl := s.crawl
     answers := s.answers.mergeSort fun a b => a.1 ≤ b.1
     reports := s.reports.mergeSort fun a b => a.1 ≤ b.1 },
    { s with crawl := [], answers := [], reports := [] })

end Service

end IndexControl
