import IndexControl.OrderedMap
import IndexControl.Path.Basic

/-!
# Writes that have not reached the store

A task is one write about one file. Two tasks may say the same, so each queued task carries a
number that tells it from all others. Outstanding tasks are kept by file, each file's in the order
in which they came, and counted against the number of them that is thought to be enough.

## Main definitions

* `WriteTask`, `QueuedTask`: a write, and a write with its number.
* `Outstanding`: the outstanding tasks of each file, their number and their limit.
* `Outstanding.add`, `Outstanding.take`: a task comes or goes.
-/

namespace IndexControl

/-- One write about one file. -/
structure WriteTask where
  file : Path
  /-- The statement for the store. -/
  payload : String
deriving DecidableEq, Inhabited

/-- Whether a task is about the file that a path names. -/
def WriteTask.isAbout (task : WriteTask) (file : Path) : Bool := task.file.sameAs file

/-- A write with the number that tells it from all others. -/
structure QueuedTask where
  number : Nat
  task : WriteTask
deriving DecidableEq, Inhabited

/-- Whether a queued task is about the file that a path names. -/
def QueuedTask.isAbout (t : QueuedTask) (file : Path) : Bool := t.task.isAbout file

/-- The place of the file that a queued task is about. -/
def QueuedTask.place (t : QueuedTask) : Location := t.task.file.location

/-- The tasks that have not reached the store. -/
structure Outstanding where
  /-- The tasks of each file, in the order in which they came. -/
  entries : OrderedMap Location (List QueuedTask)
  /-- How many tasks are outstanding. -/
  length : Nat
  /-- How many outstanding tasks are enough. -/
  limit : Nat
deriving DecidableEq, Inhabited

namespace Outstanding

/-- No tasks. -/
def empty (limit : Nat) : Outstanding := ⟨.empty, 0, limit⟩

variable (o : Outstanding)

/-- Whether no task is outstanding. -/
def isEmpty : Bool := o.length = 0

/-- Whether enough tasks are outstanding. -/
def isFull : Bool := o.limit ≤ o.length

/-- Replace the limit. -/
def setLimit (limit : Nat) : Outstanding := { o with limit }

/-! ### The tasks of a file -/

/-- The tasks of the file at a place, in order. -/
def tasksAt (place : Location) : List QueuedTask := (o.entries.find? place).getD []

/-- The tasks about a file, in order. -/
def about (file : Path) : List QueuedTask := o.tasksAt file.location

/-- Whether any task is about a file. -/
def mentions (file : Path) : Bool := o.entries.contains file.location

/-- Replace the tasks of the file at a place. Without tasks it has no entry. -/
def setTasksAt (place : Location) (tasks : List QueuedTask) : Outstanding :=
  { o with
    entries := if tasks.isEmpty then o.entries.erase place else o.entries.insert place tasks }

/-! ### Tasks that come and go -/

/-- Add a task after all others of its file. -/
def add (t : QueuedTask) : Outstanding :=
  { o.setTasksAt t.place (o.tasksAt t.place ++ [t]) with length := o.length + 1 }

/-- Take away a task: of the tasks of its file the first one with its number. Says whether there was
one. -/
def take (t : QueuedTask) : Outstanding × Bool :=
  let tasks := o.tasksAt t.place
  if tasks.any (·.number = t.number) then
    let o' := o.setTasksAt t.place (tasks.eraseP (·.number = t.number))
    ({ o' with length := o.length - 1 }, true)
  else (o, false)

theorem limit_take (t : QueuedTask) : (o.take t).1.limit = o.limit := by
  rw [take]
  split <;> rfl

/-- Take away tasks one after the other. -/
def removeAll (tasks : List QueuedTask) : Outstanding := tasks.foldl (fun o t => (o.take t).1) o

/-- The outstanding task with a number. -/
def held? (number : Nat) : Option QueuedTask := o.entries.values.flatten.find? (·.number = number)

/-- Whether the task with a number is outstanding. -/
def contains (number : Nat) : Bool := (o.held? number).isSome

/-- Take away the task with a number, if it is outstanding. -/
def remove (number : Nat) : Outstanding :=
  match o.held? number with
  | none => o
  | some t => (o.take t).1

end Outstanding

end IndexControl
