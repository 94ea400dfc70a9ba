import IndexControl.Buffer.Outstanding
import IndexControl.Failure
import IndexControl.Text.Numeral

/-!
# The write buffer

Tasks are collected and written to the store in batches, one batch at a time. A flush makes a
batch of all tasks that are pending, and the batch stays in flight until its completion arrives.

## Main definitions

* `WriteBuffer`: pending tasks, the batch in flight, and all outstanding tasks.
* `WriteBuffer.push`, `WriteBuffer.flush`, `WriteBuffer.complete`: the life of a task.
* `FlushOutcome`, `Completion`, `FlushReport`: how a batch ends.
* `WriteBuffer.stateOf`: where the tasks about a file stand.
-/

namespace IndexControl

/-- How the writing of a batch ends. -/
inductive FlushOutcome where
  | flushed
  /-- The store refused the batch. -/
  | failed (message : String)
  /-- The writing was interrupted. -/
  | cancelled
deriving DecidableEq, Inhabited

/-- The end of a batch, as its writer tells it. -/
structure Completion where
  batch : Nat
  outcome : FlushOutcome
deriving DecidableEq, Inhabited

/-- The end of a batch, as whoever asked for the flush is told. -/
structure FlushReport where
  batch : Nat
  reason : String
  /-- The tasks of the batch in the order of writing. -/
  tasks : List WriteTask
  outcome : FlushOutcome
deriving DecidableEq, Inhabited

/-- Whether the batch reached the store. -/
def FlushReport.isSuccess (r : FlushReport) : Bool := r.outcome = .flushed

/-- A batch for the store. -/
structure BatchWrite where
  batch : Nat
  statements : List String
deriving DecidableEq, Inhabited

/-- A batch that is being written. -/
structure Batch where
  number : Nat
  reason : String
  tasks : List QueuedTask
  /-- The number of the call that wants the report. -/
  recipient : Option Nat
deriving DecidableEq, Inhabited

/-- Where the tasks about a file stand. -/
inductive TaskState where
  /-- There are none. -/
  | unknown
  | queued
  | flushing
deriving DecidableEq, Inhabited

/-- The write buffer. -/
structure WriteBuffer where
  outstanding : Outstanding
  /-- The tasks of the next batch. -/
  pending : List QueuedTask
  inFlight : Option Batch
  nextBatch : Nat
  nextTask : Nat
deriving DecidableEq, Inhabited

namespace WriteBuffer

/-- A buffer without tasks. -/
def empty (limit : Nat) : WriteBuffer := ⟨.empty limit, [], none, 1, 0⟩

variable (b : WriteBuffer)

/-- Whether a batch is in flight. -/
def isFlushing : Bool := b.inFlight.isSome

/-- Whether enough tasks are outstanding for a flush. -/
def isFull : Bool := b.outstanding.isFull

/-- Replace the number of outstanding tasks that is enough for a flush. -/
def setLimit (limit : Nat) : WriteBuffer := { b with outstanding := b.outstanding.setLimit limit }

/-- Take a task. -/
def push (task : WriteTask) : WriteBuffer :=
  let t : QueuedTask := ⟨b.nextTask, task⟩
  { b with
    outstanding := b.outstanding.add t
    pending := b.pending ++ [t]
    nextTask := b.nextTask + 1 }

/-- Start a batch of all pending tasks. Nothing starts while a batch is in flight, or without
tasks. -/
def flush (reason : String) (recipient : Option Nat) : WriteBuffer × Option BatchWrite :=
  if b.isFlushing || b.pending.isEmpty then (b, none)
  else
    ({ b with
        pending := []
        inFlight := some ⟨b.nextBatch, reason, b.pending, recipient⟩
        nextBatch := b.nextBatch + 1 },
      some ⟨b.nextBatch, b.pending.map (·.task.payload)⟩)

/-- What is told about the end of a batch. -/
def reportOf (batch : Batch) (outcome : FlushOutcome) : FlushReport :=
  ⟨batch.number, batch.reason, batch.tasks.map (·.task), outcome⟩

/-- End the batch in flight, whatever the outcome. The completion of another batch does not
count. The answer is the report, with the number of the call that wants it. -/
def complete (c : Completion) : WriteBuffer × Option (FlushReport × Option Nat) :=
  match b.inFlight with
  | none => (b, none)
  | some batch =>
    if batch.number = c.batch then
      ({ b with
          inFlight := none
          outstanding := b.outstanding.removeAll batch.tasks },
        some (reportOf batch c.outcome, batch.recipient))
    else (b, none)

/-! ### Looking -/

/-- Where the tasks about a file stand; the most advanced one counts. -/
def stateOf (file : Path) : TaskState :=
  if !b.outstanding.mentions file then .unknown
  else if b.inFlight.any fun batch => batch.tasks.any (·.isAbout file) then .flushing
  else if b.pending.any (·.isAbout file) then .queued
  else .flushing

/-- The buffer as it appears in diagnostics. -/
def debugText : String :=
  let number := fun (n : Nat) => String.ofList (Text.decimal n)
  let flight := match b.inFlight with
    | none => "None"
    | some batch => "Some(" ++ number batch.number ++ ")"
  "SparqlBuffer \x7b pool: " ++ number b.outstanding.length ++ ", pending: " ++
    number b.pending.length ++ ", in_flight: " ++ flight ++ " \x7d"

end WriteBuffer

end IndexControl
