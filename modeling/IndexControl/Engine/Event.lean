import IndexControl.Buffer.Basic
import IndexControl.Identity
import IndexControl.Request.Basic
import IndexControl.Steward.Changes

/-!
# What reaches the engine and what leaves it

Everything that changes the indexed roots is done by one engine, one event at a time. Slow work
is done outside: the engine asks for it by an effect, and the result comes back as an event.

## Main definitions

* `Call`, `Answer`: what can be asked of the engine, and its answers.
* `EngineEvent`: what the engine handles.
* `CrawlPriority`, `CrawlCall`, `Effect`: what it asks of others.
-/

namespace IndexControl

/-- What can be asked of the engine. -/
inductive Call where
  | index (request : IndexRequest)
  | release (requester : Requester)
  | push (task : WriteTask)
  | flush (reason : String)
  | bufferState (file : Path)
  | identify (file : Path)
  | roots
deriving DecidableEq

/-- An answer to a call. -/
inductive Answer where
  | index (result : Except RequestError IndexOutcome)
  /-- The roots that went with a requester. -/
  | released (roots : List Location)
  | pushed (task : WriteTask)
  /-- Whether a flush has started. -/
  | flush (started : Bool)
  | bufferState (state : TaskState)
  | identify (result : Except ServiceError ContentId)
  | roots (roots : List (Location × Root))
  /-- The call has failed, whatever it asked for. -/
  | failed (cause : ServiceError)

/-- The answer to a call that the engine was not there to take. -/
def Call.refused : Call → Answer
  | index _ => .index (.error .stopped)
  | _ => .failed .stopped

/-- The answer to a call that the engine took and never answered. -/
def Call.dropped : Call → Answer
  | index _ => .index (.error .stopped)
  | _ => .failed .droppedResponse

/-- What the engine handles. Calls are told apart by their numbers. -/
inductive EngineEvent where
  | call (number : Nat) (asked : Call)
  /-- The target of a request has been probed. -/
  | probed (number : Nat) (result : Except RequestError ProbedRequest)
  /-- A file has been asked about. -/
  | resolved (number : Nat) (result : Except ServiceError Resolved)
  | volume (event : VolumeEvent)

/-- What becomes of a call when the event that would have answered it is never handled. -/
def EngineEvent.dropped : EngineEvent → Option (Nat × Answer)
  | call number asked => some (number, asked.dropped)
  | probed number _ => some (number, .index (.error .stopped))
  | resolved number _ => some (number, .failed .droppedResponse)
  | volume _ => none

/-- When the crawler gets to a file that it is to check. -/
inductive CrawlPriority where
  | default
  /-- Ahead of other files. -/
  | high
deriving DecidableEq

/-- What the crawler is told. -/
inductive CrawlCall where
  /-- Check whether what is known about a file is up to date. -/
  | check (file : Location) (priority : CrawlPriority)
  | changed (event : RootEvent)
deriving DecidableEq

/-- What the engine asks of others. -/
inductive Effect where
  | crawl (call : CrawlCall)
  /-- Probe the target of a request. -/
  | probe (number : Nat) (request : IndexRequest)
  /-- Ask about a file that is to be identified. -/
  | identify (number : Nat) (plan : Identification)
  | write (write : BatchWrite)
  | answer (number : Nat) (answer : Answer)
  /-- Report the end of a batch to the call that asked for the flush. -/
  | report (number : Nat) (report : FlushReport)
  /-- Start the time between flushes anew. -/
  | rearm

end IndexControl
