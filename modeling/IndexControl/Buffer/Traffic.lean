import IndexControl.Buffer.Basic

/-!
# Everything that can happen to a write buffer

Pushes, flushes and completions come in any order. Each batch that starts gets a writer, the
writer posts one completion at a time of its own, and the owner of the buffer receives posted
completions in order. Beside the state this module keeps what has been seen from outside: which
flushes were accepted, which completions were posted, and which reports were handed out.

## Main definitions

* `WriteMove`: one thing that happens.
* `WriteTraffic`: a buffer with its writers, the posted completions, and the history.
* `WriteTraffic.step`, `WriteTraffic.run`: one move, and all moves from a new buffer.
* `WriteTraffic.drain`: the end of the owner.
-/

namespace IndexControl

/-- One thing that happens around a buffer. -/
inductive WriteMove where
  | push (task : WriteTask)
  | flush (reason : String) (recipient : Option Nat)
  | setLimit (limit : Nat)
  /-- The writer at a position among those at work ends and posts its completion. -/
  | post (writer : Nat) (outcome : FlushOutcome)
  /-- The owner receives the oldest posted completion and hands it to the buffer. -/
  | receive
  /-- A completion that no writer has posted reaches the buffer. It names a batch that is not in
  flight. -/
  | stray (c : Completion)
deriving DecidableEq

/-- The task that a move pushes, if it does. -/
def WriteMove.pushed? : WriteMove → Option WriteTask
  | push task => some task
  | _ => none

/-- A buffer among its writers, with the history so far. -/
structure WriteTraffic where
  buffer : WriteBuffer
  /-- The batches whose writers are at work, oldest first. -/
  writers : List BatchWrite
  /-- The completions that have been posted and not received, oldest first. -/
  channel : List Completion
  /-- What the accepted flushes asked for: their reason and recipient, with the number of the
  batch and the tasks that were pending. -/
  started : List Batch
  /-- All completions that writers have posted. -/
  posted : List Completion
  /-- All reports that were handed out, each with its recipient. -/
  reported : List (FlushReport × Option Nat)
deriving DecidableEq

namespace WriteTraffic

/-- A new buffer, with which nothing has happened. -/
def start (limit : Nat) : WriteTraffic := ⟨.empty limit, [], [], [], [], []⟩

variable (t : WriteTraffic)

/-- Ask for a flush. -/
def flush (reason : String) (recipient : Option Nat) : WriteTraffic :=
  match t.buffer.flush reason recipient with
  | (buffer, none) => { t with buffer }
  | (buffer, some write) =>
    { t with
      buffer
      writers := t.writers ++ [write]
      started := t.started ++ [⟨write.batch, reason, t.buffer.pending, recipient⟩] }

/-- Have the writer at a position post its completion. -/
def post (writer : Nat) (outcome : FlushOutcome) : WriteTraffic :=
  match t.writers[writer]? with
  | none => t
  | some write =>
    { t with
      writers := t.writers.eraseIdx writer
      channel := t.channel ++ [⟨write.batch, outcome⟩]
      posted := t.posted ++ [⟨write.batch, outcome⟩] }

/-- Hand a completion to the buffer. -/
def complete (c : Completion) : WriteTraffic :=
  let (buffer, report) := t.buffer.complete c
  { t with buffer, reported := t.reported ++ report.toList }

/-- Receive the oldest posted completion. -/
def receive : WriteTraffic :=
  match t.channel with
  | [] => t
  | c :: channel => { t with channel }.complete c

/-- One thing happens. -/
def step : WriteMove → WriteTraffic
  | .push task => { t with buffer := t.buffer.push task }
  | .flush reason recipient => t.flush reason recipient
  | .setLimit limit => { t with buffer := t.buffer.setLimit limit }
  | .post writer outcome => t.post writer outcome
  | .receive => t.receive
  | .stray c => if t.buffer.inFlight.any (·.number = c.batch) then t else t.complete c

/-- The owner ends. With a batch in flight it waits for one more completion, which a writer may
yet have to post. -/
def drain (outcome : FlushOutcome) : WriteTraffic :=
  if !t.buffer.isFlushing then t
  else if t.channel.isEmpty then (t.post 0 outcome).receive
  else t.receive

/-- Everything that happens from a new buffer on. -/
def run (limit : Nat) (moves : List WriteMove) : WriteTraffic := moves.foldl step (start limit)

end WriteTraffic

end IndexControl
