import IndexControl.Buffer.Store
import IndexControl.Engine.Step
import IndexControl.Service.Gate
import IndexControl.Settings.Feed

/-!
# The service

The service runs an engine: it queues the engine's events, does the slow work that the engine
asks for, keeps the time, and can be shut down and started again. Questions about files and
writes to the store pass gates, which somebody outside may hold.

## Main definitions

* `Job`: slow work.
* `Service`: the state.
* `Service.carryOut`: do what the engine has asked for.
* `Service.perform`, `Service.runJob`: do slow work.
* `Service.launch`, `Service.stop`: the two ends of an engine's life.
-/

namespace IndexControl

/-- Slow work that an engine has asked for. -/
inductive Work where
  | probe (number : Nat) (request : IndexRequest)
  | identify (number : Nat) (plan : Identification)
  | write (write : BatchWrite)

/-- Slow work for the engine of one life of the service. -/
structure Job where
  life : Nat
  /-- Whether the work has passed its gate. -/
  isAdmitted : Bool
  work : Work

/-- Whether the work begins with a question about a file, which passes a gate. A probe of a
target without a place asks nothing. -/
def Work.asks : Work → Bool
  | probe _ request => (Uri.location? request.uri).isSome
  | identify .. => true
  | write _ => false

/-- What becomes of a call when the work for it has no result. -/
def Work.dropped : Work → Option (Nat × Answer)
  | probe number _ => some (number, .index (.error .stopped))
  | identify number _ => some (number, .failed .droppedResponse)
  | write _ => none

/-- Whether the work is given up when its engine ends. Questions for an identification are
carried through. -/
def Work.endsWithEngine : Work → Bool
  | identify .. => false
  | _ => true

/-- The state of the service. -/
structure Service where
  environment : Environment
  systemLocations : List Location
  feed : SettingsFeed
  attributes : Attributes
  store : Store
  engine : Engine
  /-- How many engines there have been. -/
  life : Nat
  isRunning : Bool
  /-- Whether the engine has been told to end. -/
  isStopping : Bool
  /-- The events that the engine has not handled, oldest first. -/
  events : List EngineEvent
  completions : List Completion
  /-- How many announcements of changed settings the engine has read. -/
  seen : Nat
  /-- The time since the service was made, in milliseconds. -/
  clock : Nat
  /-- When the time between two flushes ends. -/
  due : Nat
  period : Nat
  /-- Work that can begin, oldest first. -/
  ready : List Job
  questions : Gate Job
  writes : Gate Job
  /-- What the crawler has been told, oldest first. -/
  crawl : List CrawlCall
  answers : List (Nat × Answer)
  reports : List (Nat × FlushReport)

namespace Service

variable (s : Service)

/-! ### Carrying out effects -/

/-- Have work begin when the engine pauses. -/
def enqueue (work : Work) : Service := { s with ready := s.ready ++ [⟨s.life, false, work⟩] }

/-- Do one thing that the engine has asked for. -/
def carryOutOne : Effect → Service
  | .crawl call => { s with crawl := s.crawl ++ [call] }
  | .probe number request => s.enqueue (.probe number request)
  | .identify number plan => s.enqueue (.identify number plan)
  | .write write => s.enqueue (.write write)
  | .answer number answer => { s with answers := s.answers ++ [(number, answer)] }
  | .report number report => { s with reports := s.reports ++ [(number, report)] }
  | .rearm =>
    let period := s.engine.settings.flushPeriod
    { s with period, due := s.clock + period }

/-- Go on with an engine that has moved: do everything that it has asked for. -/
def carryOut (engine : Engine) : Service :=
  let (effects, engine) := engine.drain
  effects.foldl carryOutOne { s with engine }

/-! ### Slow work -/

/-- Whether the engine that asked for a job is still there. -/
def isWanted (job : Job) : Bool := s.isRunning && job.life = s.life

/-- Hand the result of a job to the engine. Without the engine the call gets no result. -/
def deliver (job : Job) (event : EngineEvent) : Service :=
  if s.isWanted job then { s with events := s.events ++ [event] }
  else { s with answers := s.answers ++ job.work.dropped.toList }

/-- Do a job that has passed its gate. -/
def perform (job : Job) : Service :=
  match job.work with
  | .probe number request =>
    s.deliver job (.probed number (request.probe s.attributes false))
  | .identify number plan =>
    let (result, attributes) := plan.resolve s.attributes
    { s with attributes }.deliver job (.resolved number result)
  | .write write =>
    let (store, outcome) := s.store.write write.statements
    let s := { s with store }
    if s.isWanted job then { s with completions := s.completions ++ [⟨write.batch, outcome⟩] }
    else s

/-- Begin a job: take it to its gate, and do it if it passes. -/
def runJob (job : Job) : Service :=
  if job.isAdmitted then s.perform job
  else match job.work with
    | .write _ =>
      let (writes, passed) := s.writes.arrive job
      passed.toList.foldl perform { s with writes }
    | work =>
      if work.asks then
        let (questions, passed) := s.questions.arrive job
        passed.toList.foldl perform { s with questions }
      else s.perform job

/-- Begin all work that can begin. -/
def runJobs : Service := s.ready.foldl runJob { s with ready := [] }

/-! ### The life of an engine -/

/-- Start an engine with the settings there are. Here nothing changes them between the two times
that they are read. -/
def launch : Service :=
  let settings := s.feed.settings
  let engine := Engine.new settings settings s.environment s.systemLocations s.engine.disk
  { s with
    life := s.life + 1
    isRunning := true
    isStopping := false
    events := []
    completions := []
    seen := s.feed.subscribe
    period := settings.flushPeriod
    due := s.clock + settings.flushPeriod }.carryOut engine.start

/-- End the engine. The batch in flight is interrupted and its end reported; events that have not
been handled and probes that wait are given up. -/
def stop : Service :=
  let s := s.carryOut s.engine.interrupt
  let isGivenUp := fun (job : Job) => job.life = s.life && job.work.endsWithEngine
  let (questions, probes) := s.questions.discard isGivenUp
  let (writes, _) := s.writes.discard isGivenUp
  { s with
    isRunning := false
    events := []
    completions := []
    ready := s.ready.filter fun job => !isGivenUp job
    questions
    writes
    answers := s.answers ++ s.events.filterMap EngineEvent.dropped ++
      (s.ready.filter isGivenUp ++ probes).filterMap (·.work.dropped) }

end Service

end IndexControl
