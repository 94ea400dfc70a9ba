import IndexControl.Buffer.Basic

/-!
# The store and its writers

A store takes a batch as a whole or refuses it. Each batch that a buffer starts gets a writer.
Writers finish in the order in which they were started, and tell the buffer how their batch has
ended; once they are interrupted, they end without having touched the store.

## Main definitions

* `Store`, `Store.write`: the batches taken, and taking one.
* `WritingDesk`: a buffer with its store and the writers that have not finished.
-/

namespace IndexControl

/-- A store of batches. -/
structure Store where
  /-- The batches taken, oldest first. -/
  batches : List (List String)
  /-- Why the next batch will be refused, if it will. -/
  failNext : Option String
deriving DecidableEq, Inhabited

namespace Store

/-- A store that has taken nothing. -/
def empty : Store := ⟨[], none⟩

/-- Refuse the next batch. -/
def refuseNext (s : Store) (message : String) : Store := { s with failNext := some message }

/-- Take a batch, or refuse it. -/
def write (s : Store) (statements : List String) : Store × FlushOutcome :=
  match s.failNext with
  | some message => ({ s with failNext := none }, .failed message)
  | none => ({ s with batches := s.batches ++ [statements] }, .flushed)

end Store

/-- A buffer with its store and writers. -/
structure WritingDesk where
  buffer : WriteBuffer
  store : Store
  /-- The writers that have not finished, oldest first. -/
  writers : List BatchWrite
  /-- Whether writers have been told to end without writing. -/
  isInterrupted : Bool
deriving DecidableEq, Inhabited

namespace WritingDesk

/-- A desk without tasks. -/
def empty (limit : Nat) : WritingDesk := ⟨.empty limit, .empty, [], false⟩

variable (d : WritingDesk)

/-- Flush the buffer, and give the batch a writer. -/
def flush (reason : String) (recipient : Option Nat) : WritingDesk × Bool :=
  let (buffer, write) := d.buffer.flush reason recipient
  ({ d with buffer, writers := d.writers ++ write.toList }, write.isSome)

/-- Tell all writers, also those to come, to end without writing. -/
def interrupt : WritingDesk := { d with isInterrupted := true }

/-- Have a completion reach the buffer. -/
def complete (c : Completion) : WritingDesk × Option (FlushReport × Option Nat) :=
  let (buffer, report) := d.buffer.complete c
  ({ d with buffer }, report)

/-- Let the oldest writer finish, and have its completion reach the buffer. -/
def finishWriter : WritingDesk × Option (Completion × Option (FlushReport × Option Nat)) :=
  match d.writers with
  | [] => (d, none)
  | write :: writers =>
    let (store, outcome) :=
      if d.isInterrupted then (d.store, .cancelled) else d.store.write write.statements
    let completion : Completion := ⟨write.batch, outcome⟩
    let (d, report) := { d with writers, store }.complete completion
    (d, some (completion, report))

end WritingDesk

end IndexControl
