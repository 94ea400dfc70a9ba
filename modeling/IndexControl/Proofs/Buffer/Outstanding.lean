import IndexControl.Buffer.Run
import IndexControl.Proofs.Buffer.Traffic
import IndexControl.Proofs.OrderedMap

/-!
# The outstanding tasks are those in flight and those pending

Outstanding tasks are kept by file, while the batch in flight and the next one are plain lists. The
three agree in every buffer: a list of all outstanding tasks in the order in which they were pushed
settles what is kept for each file, and that list is the batch in flight followed by the pending
tasks. A batch ends by taking its tasks from the front of the list, so each of them is the oldest
one of its file when its turn comes, however many others of that file say the same.

## Main definitions

* `Outstanding.Holds`: the tasks kept by file are those of a list.
* `WriteBuffer.flying`: the tasks of the batch in flight.
* `WriteBuffer.Agrees`: the invariant of a buffer, relative to all that was pushed.

## Main results

* `Outstanding.Holds.add`, `Outstanding.Holds.take`, `Outstanding.Holds.removeAll`: tasks come at
  the back of the list and go from its front.
* `WriteBuffer.Agrees.apply`: whatever is done to a buffer keeps the invariant.
* `WriteBuffer.run_outstanding`: the outstanding tasks of every file after every run.
-/

namespace IndexControl

theorem QueuedTask.isAbout_iff {t : QueuedTask} {file : Path} :
    t.isAbout file = true ↔ t.place = file.location := by
  simp [QueuedTask.isAbout, WriteTask.isAbout, Path.sameAs, QueuedTask.place]

theorem WriteTraffic.pairwise_numbered (tasks : List WriteTask) :
    (numbered tasks).Pairwise (·.number < ·.number) := by
  rw [List.pairwise_iff_getElem]
  intro i j hi hj hlt
  simpa [numbered] using hlt

namespace Outstanding

variable {o : Outstanding} {tasks : List QueuedTask} {t : QueuedTask}

/-! ### One file's tasks -/

theorem tasksAt_setTasksAt (place place' : Location) (tasks : List QueuedTask) :
    (o.setTasksAt place tasks).tasksAt place' =
      if place' = place then tasks else o.tasksAt place' := by
  rw [tasksAt, setTasksAt]
  cases tasks with
  | nil => simp only [List.isEmpty_nil, if_true, OrderedMap.find?_erase]; split <;> rfl
  | cons t tasks =>
    simp only [List.isEmpty_cons, Bool.false_eq_true, if_false, OrderedMap.find?_insert]
    split <;> rfl

theorem find?_setTasksAt_ne_nil {place place' : Location}
    (h : o.entries.find? place' ≠ some []) :
    (o.setTasksAt place tasks).entries.find? place' ≠ some [] := by
  rw [setTasksAt]
  cases tasks with
  | nil => simp only [List.isEmpty_nil, if_true, OrderedMap.find?_erase]; split <;> simp [h]
  | cons t tasks =>
    simp only [List.isEmpty_cons, Bool.false_eq_true, if_false, OrderedMap.find?_insert]
    split <;> simp [h]

/-! ### All tasks in one list -/

/-- The tasks that are kept by file are those of a list: each file has those about it in the order
of the list, a file without any has no entry, and the count is right. -/
structure Holds (o : Outstanding) (tasks : List QueuedTask) : Prop where
  tasksAt : ∀ place, o.tasksAt place = tasks.filter (·.place = place)
  ne_nil : ∀ place, o.entries.find? place ≠ some []
  length : o.length = tasks.length

theorem holds_empty (limit : Nat) : (empty limit).Holds [] :=
  ⟨fun _ => rfl, fun _ => by simp [empty], rfl⟩

namespace Holds

theorem setLimit (h : o.Holds tasks) (limit : Nat) : (o.setLimit limit).Holds tasks :=
  ⟨h.tasksAt, h.ne_nil, h.length⟩

/-- A task comes at the back of the list. -/
theorem add (h : o.Holds tasks) (t : QueuedTask) : (o.add t).Holds (tasks ++ [t]) where
  tasksAt place := by
    have hset := tasksAt_setTasksAt (o := o) t.place place (o.tasksAt t.place ++ [t])
    refine Eq.trans hset ?_
    rw [h.tasksAt, h.tasksAt, List.filter_append]
    by_cases hplace : place = t.place
    · simp [hplace]
    · simp [hplace, Ne.symm hplace]
  ne_nil place := find?_setTasksAt_ne_nil (h.ne_nil place)
  length := by simp [Outstanding.add, h.length]

/-- The task at the front is found, as the oldest one of its file, and it goes. -/
theorem take (h : o.Holds (t :: tasks)) : (o.take t).2 = true ∧ (o.take t).1.Holds tasks := by
  have hfront : o.tasksAt t.place = t :: tasks.filter (·.place = t.place) := by
    simp [h.tasksAt]
  have htake : o.take t =
      ({ o.setTasksAt t.place (tasks.filter (·.place = t.place)) with length := o.length - 1 },
        true) := by
    simp [Outstanding.take, hfront]
  refine ⟨by rw [htake], ?_⟩
  rw [htake]
  exact {
    tasksAt := fun place => by
      have hset :=
        tasksAt_setTasksAt (o := o) t.place place (tasks.filter (·.place = t.place))
      refine Eq.trans hset ?_
      by_cases hplace : place = t.place
      · simp [hplace]
      · simp [hplace, Ne.symm hplace, h.tasksAt]
    ne_nil := fun place => find?_setTasksAt_ne_nil (h.ne_nil place)
    length := by simp [h.length] }

/-- Tasks from the front of the list go one after the other. -/
theorem removeAll {first : List QueuedTask} (h : o.Holds (first ++ tasks)) :
    (o.removeAll first).Holds tasks := by
  induction first generalizing o with
  | nil => exact h
  | cons t first ih => exact ih h.take.2

theorem about (h : o.Holds tasks) (file : Path) :
    o.about file = tasks.filter (·.isAbout file) := by
  rw [Outstanding.about, h.tasksAt]
  refine List.filter_congr fun t _ => ?_
  rw [Bool.eq_iff_iff, QueuedTask.isAbout_iff, decide_eq_true_iff]

/-- A file has an entry exactly when a task is about it. -/
theorem mentions_iff (h : o.Holds tasks) {file : Path} :
    o.mentions file = true ↔ ∃ t ∈ tasks, t.isAbout file = true := by
  have habout : o.mentions file = true ↔ o.about file ≠ [] := by
    rw [mentions, Outstanding.about, Outstanding.tasksAt, OrderedMap.contains]
    have hne := h.ne_nil file.location
    cases hfind : o.entries.find? file.location with
    | none => simp
    | some tasks => simpa [hfind] using hne
  rw [habout, h.about]
  simp

end Holds

end Outstanding

namespace WriteBuffer

/-- The tasks of the batch in flight; none where none is. -/
def flying (b : WriteBuffer) : List QueuedTask :=
  match b.inFlight with
  | none => []
  | some batch => batch.tasks

/-- A buffer agrees with itself and with all that was pushed: the outstanding tasks are those in
flight followed by the pending ones, and these are the ones pushed last, with their numbers. -/
structure Agrees (pushed : List WriteTask) (b : WriteBuffer) : Prop where
  holds : b.outstanding.Holds (b.flying ++ b.pending)
  pushedLast : b.flying ++ b.pending <:+ WriteTraffic.numbered pushed
  nextTask : b.nextTask = pushed.length

theorem agrees_empty (limit : Nat) : (empty limit).Agrees [] :=
  ⟨Outstanding.holds_empty limit, List.suffix_rfl, rfl⟩

namespace Agrees

variable {b : WriteBuffer} {pushed : List WriteTask}

theorem setLimit (h : b.Agrees pushed) (limit : Nat) : (b.setLimit limit).Agrees pushed :=
  ⟨h.holds.setLimit limit, h.pushedLast, h.nextTask⟩

theorem push (h : b.Agrees pushed) (task : WriteTask) :
    (b.push task).Agrees (pushed ++ [task]) where
  holds := by
    have hadd := h.holds.add ⟨b.nextTask, task⟩
    rwa [List.append_assoc] at hadd
  pushedLast := by
    obtain ⟨ended, hended⟩ := h.pushedLast
    refine ⟨ended, ?_⟩
    have hfirst : ended ++ (b.flying ++ (b.pending ++ [⟨b.nextTask, task⟩])) =
        ended ++ (b.flying ++ b.pending) ++ [⟨b.nextTask, task⟩] := by simp
    rw [WriteTraffic.numbered_concat, ← hended, ← h.nextTask]
    exact hfirst
  nextTask := by simp [WriteBuffer.push, h.nextTask]

/-- A flush moves the pending tasks into the place of a batch, where none was. -/
theorem flush (h : b.Agrees pushed) (reason : String) (recipient : Option Nat) :
    (b.flush reason recipient).1.Agrees pushed := by
  by_cases hrefused : b.inFlight ≠ none ∨ b.pending = []
  · rwa [b.flush_of_refused hrefused]
  · push Not at hrefused
    obtain ⟨hidle, hpending⟩ := hrefused
    have hflying : b.flying = [] := by rw [flying, hidle]
    obtain ⟨hholds, hlast, hnext⟩ := h
    rw [hflying, List.nil_append] at hholds hlast
    rw [b.flush_of_idle hidle hpending]
    exact ⟨by simpa [flying] using hholds, by simpa [flying] using hlast, hnext⟩

/-- The tasks of a batch that ends are the front of the list. -/
theorem complete (h : b.Agrees pushed) (c : Completion) : (b.complete c).1.Agrees pushed := by
  by_cases hnamed : ∃ batch, b.inFlight = some batch ∧ batch.number = c.batch
  · obtain ⟨batch, hflight, hnumber⟩ := hnamed
    have hflying : b.flying = batch.tasks := by rw [flying, hflight]
    obtain ⟨hholds, hlast, hnext⟩ := h
    rw [hflying] at hholds hlast
    rw [b.complete_of_eq hflight hnumber]
    exact ⟨hholds.removeAll, (List.suffix_append _ _).trans hlast, hnext⟩
  · push Not at hnamed
    rwa [b.complete_of_ne fun batch hflight => hnamed batch hflight]

/-- Whatever is done keeps the agreement. -/
theorem apply (h : b.Agrees pushed) (op : BufferOp) :
    (b.apply op).Agrees (pushed ++ op.pushed?.toList) := by
  cases op with
  | push task => exact h.push task
  | flush reason recipient =>
    simpa [BufferOp.pushed?, WriteBuffer.apply] using h.flush reason recipient
  | complete c => simpa [BufferOp.pushed?, WriteBuffer.apply] using h.complete c
  | setLimit limit => simpa [BufferOp.pushed?, WriteBuffer.apply] using h.setLimit limit

theorem run (h : b.Agrees pushed) (ops : List BufferOp) :
    (b.run ops).Agrees (pushed ++ ops.filterMap BufferOp.pushed?) := by
  induction ops generalizing b pushed with
  | nil => simpa [WriteBuffer.run] using h
  | cons op ops ih =>
    have hrest : (b.run (op :: ops)).Agrees _ := ih (h.apply op)
    cases hop : op.pushed? <;> simpa [hop] using hrest

/-- Each task of the batch in flight is found when its turn comes. -/
theorem found (h : b.Agrees pushed) {before after : List QueuedTask} {t : QueuedTask}
    (hflying : b.flying = before ++ t :: after) :
    ((b.outstanding.removeAll before).take t).2 = true := by
  have hholds := h.holds
  rw [hflying, List.append_assoc] at hholds
  exact hholds.removeAll.take.1

/-- Where the tasks about a file stand, as a matter of what is in flight and what is pending alone.
The last case of the look-up does not arise. -/
theorem stateOf (h : b.Agrees pushed) (file : Path) :
    b.stateOf file =
      if b.flying.any (·.isAbout file) then .flushing
      else if b.pending.any (·.isAbout file) then .queued
      else .unknown := by
  have hmentions : b.outstanding.mentions file =
      (b.flying.any (·.isAbout file) || b.pending.any (·.isAbout file)) := by
    rw [Bool.eq_iff_iff, h.holds.mentions_iff, ← List.any_append, List.any_eq_true]
  have hflight : (b.inFlight.any fun batch => batch.tasks.any (·.isAbout file)) =
      b.flying.any (·.isAbout file) := by
    rw [flying]
    cases b.inFlight <;> rfl
  rw [WriteBuffer.stateOf, hmentions, hflight]
  cases b.flying.any (·.isAbout file) <;> cases b.pending.any (·.isAbout file) <;> rfl

end Agrees

/-- **The outstanding tasks agree with the batches.** After anything that is done to a new buffer,
in any order, with completions of any batch and any outcome:

* the outstanding tasks about a file are those in flight about it followed by those pending about
  it, and all in all the tasks in flight and pending are the ones pushed last, in the order of the
  pushes, each with the number that tells it from every other;
* as many are outstanding as are in flight and pending together, and no file has an empty entry;
* when the batch in flight ends, each of its tasks is found when its turn comes to be taken away;
* a file is being flushed exactly when a task in flight is about it, queued exactly when none is
  and a pending one is, and unknown exactly when there is neither. -/
theorem run_outstanding (limit : Nat) (ops : List BufferOp) :
    let b := (empty limit).run ops
    ((∀ file : Path, b.outstanding.about file =
        b.flying.filter (·.isAbout file) ++ b.pending.filter (·.isAbout file)) ∧
      b.flying ++ b.pending <:+ WriteTraffic.numbered (ops.filterMap BufferOp.pushed?) ∧
      (b.flying ++ b.pending).Pairwise (·.number < ·.number)) ∧
    (b.outstanding.length = b.flying.length + b.pending.length ∧
      ∀ place tasks, b.outstanding.entries.find? place = some tasks → tasks ≠ []) ∧
    (∀ before t after, b.flying = before ++ t :: after →
      ((b.outstanding.removeAll before).take t).2 = true) ∧
    ∀ file : Path,
      (b.stateOf file = .flushing ↔ ∃ t ∈ b.flying, t.isAbout file = true) ∧
      (b.stateOf file = .queued ↔ (¬∃ t ∈ b.flying, t.isAbout file = true) ∧
        ∃ t ∈ b.pending, t.isAbout file = true) ∧
      (b.stateOf file = .unknown ↔ (¬∃ t ∈ b.flying, t.isAbout file = true) ∧
        ¬∃ t ∈ b.pending, t.isAbout file = true) := by
  intro b
  have h : b.Agrees (ops.filterMap BufferOp.pushed?) := by
    simpa using (agrees_empty limit).run ops
  refine ⟨⟨fun file => ?_, h.pushedLast, ?_⟩, ⟨?_, ?_⟩, fun _ _ _ => h.found, fun file => ?_⟩
  · rw [h.holds.about, List.filter_append]
  · exact (WriteTraffic.pairwise_numbered _).sublist h.pushedLast.sublist
  · rw [h.holds.length, List.length_append]
  · rintro place tasks hfind rfl
    exact h.holds.ne_nil place hfind
  · rw [h.stateOf, ← List.any_eq_true, ← List.any_eq_true]
    cases b.flying.any (·.isAbout file) <;> cases b.pending.any (·.isAbout file) <;> decide

end WriteBuffer

end IndexControl
