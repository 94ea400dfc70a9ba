import IndexControl.Buffer.Traffic
import Mathlib.Data.List.Basic

/-!
# No task is lost between a buffer and its writers

Whatever happens around a buffer and in whatever order, the batches that were started and the
pending tasks are together the pushed tasks in their order, and the one batch in flight is the
one whose completion is on its way. The history is accounted for by a list of the batches that
have ended, each with its outcome; `WriteTraffic.Accounts` says how, and every move keeps it.

## Main definitions

* `WriteTraffic.numbered`: pushed tasks with the numbers that a buffer gives them.
* `WriteTraffic.Accounts`: how ended batches, the batch in flight and pending tasks account for
  all that was pushed, started, posted and reported.

## Main results

* `WriteBuffer.flush_eq_none_iff`, `WriteBuffer.complete_of_ne`: when nothing happens.
* `WriteTraffic.Accounts.step`: every move keeps the account.
* `WriteTraffic.run_accounts`, `WriteTraffic.run_single_flight`: the account of every run.
-/

namespace IndexControl

namespace WriteBuffer

variable (b : WriteBuffer)

/-! ### Flushes and completions of a buffer -/

theorem flush_of_refused {reason : String} {recipient : Option Nat}
    (h : b.inFlight ≠ none ∨ b.pending = []) : b.flush reason recipient = (b, none) := by
  have hcond : (b.isFlushing || b.pending.isEmpty) = true := by
    simpa [isFlushing, Option.isSome_iff_ne_none] using h
  rw [flush, hcond]
  rfl

theorem flush_of_idle {reason : String} {recipient : Option Nat} (hidle : b.inFlight = none)
    (hpending : b.pending ≠ []) :
    b.flush reason recipient =
      ({ b with
          pending := []
          inFlight := some ⟨b.nextBatch, reason, b.pending, recipient⟩
          nextBatch := b.nextBatch + 1 },
        some ⟨b.nextBatch, b.pending.map (·.task.payload)⟩) := by
  have hcond : (b.isFlushing || b.pending.isEmpty) = false := by
    simpa [isFlushing, hidle] using hpending
  rw [flush, hcond]
  rfl

/-- A flush is refused exactly while a batch is in flight or nothing is pending. -/
theorem flush_eq_none_iff {reason : String} {recipient : Option Nat} :
    (b.flush reason recipient).2 = none ↔ b.inFlight ≠ none ∨ b.pending = [] := by
  constructor
  · intro h
    by_contra hnot
    push Not at hnot
    simp [b.flush_of_idle hnot.1 hnot.2] at h
  · intro h
    rw [b.flush_of_refused h]

/-- The completion of a batch that is not in flight changes nothing. -/
theorem complete_of_ne {c : Completion} (h : ∀ batch ∈ b.inFlight, batch.number ≠ c.batch) :
    b.complete c = (b, none) := by
  rw [complete]
  cases hflight : b.inFlight with
  | none => rfl
  | some batch => simp [h batch hflight]

theorem complete_of_eq {c : Completion} {batch : Batch} (hflight : b.inFlight = some batch)
    (h : batch.number = c.batch) :
    b.complete c =
      ({ b with inFlight := none, outstanding := b.outstanding.removeAll batch.tasks },
        some (reportOf batch c.outcome, batch.recipient)) := by
  rw [complete, hflight]
  simp [h]

end WriteBuffer

namespace WriteTraffic

/-! ### The account -/

/-- Pushed tasks with the numbers that a new buffer gives them. -/
def numbered (tasks : List WriteTask) : List QueuedTask := tasks.mapIdx fun n task => ⟨n, task⟩

theorem numbered_concat (tasks : List WriteTask) (task : WriteTask) :
    numbered (tasks ++ [task]) = numbered tasks ++ [⟨tasks.length, task⟩] := by
  simp [numbered, List.mapIdx_append]

/-- The pushed tasks and the batches that have ended, each with its outcome, account for a
buffer, its writers and the history. -/
structure Accounts (pushed : List WriteTask) (ended : List (Batch × FlushOutcome))
    (t : WriteTraffic) : Prop where
  /-- Nothing pushed is lost, repeated or out of order. -/
  tasks : t.started.flatMap (·.tasks) ++ t.buffer.pending = numbered pushed
  nextTask : t.buffer.nextTask = pushed.length
  /-- Batches are numbered from one in the order in which they were started. -/
  numbers : t.started.map (·.number) = List.range' 1 t.started.length
  nextBatch : t.buffer.nextBatch = t.started.length + 1
  /-- What has not ended is in flight. -/
  started : t.started = ended.map (·.1) ++ t.buffer.inFlight.toList
  /-- Each batch that has ended was reported once. -/
  reported : t.reported = ended.map fun e => (WriteBuffer.reportOf e.1 e.2, e.1.recipient)
  /-- Each of them ended as its own writer told. -/
  posted : t.posted = ended.map (fun e => ⟨e.1.number, e.2⟩) ++ t.channel
  /-- The writer or the completion that is on its way is that of the batch in flight. -/
  underway : t.writers.map (·.batch) ++ t.channel.map (·.batch) =
    (t.buffer.inFlight.map (·.number)).toList
  /-- A writer writes what its batch holds. -/
  statements : ∀ write ∈ t.writers, ∀ batch ∈ t.buffer.inFlight,
    write.statements = batch.tasks.map (·.task.payload)

namespace Accounts

theorem start (limit : Nat) : Accounts [] [] (start limit) where
  tasks := rfl
  nextTask := rfl
  numbers := rfl
  nextBatch := rfl
  started := rfl
  reported := rfl
  posted := rfl
  underway := rfl
  statements := by simp [WriteTraffic.start]

variable {pushed : List WriteTask} {ended : List (Batch × FlushOutcome)} {t : WriteTraffic}

theorem push (h : Accounts pushed ended t) (task : WriteTask) :
    Accounts (pushed ++ [task]) ended { t with buffer := t.buffer.push task } where
  tasks := by
    simp only [WriteBuffer.push]
    rw [← List.append_assoc, h.tasks, numbered_concat, h.nextTask]
  nextTask := by simp [WriteBuffer.push, h.nextTask]
  numbers := h.numbers
  nextBatch := h.nextBatch
  started := h.started
  reported := h.reported
  posted := h.posted
  underway := h.underway
  statements := h.statements

theorem setLimit (h : Accounts pushed ended t) (limit : Nat) :
    Accounts pushed ended { t with buffer := t.buffer.setLimit limit } :=
  ⟨h.tasks, h.nextTask, h.numbers, h.nextBatch, h.started, h.reported, h.posted, h.underway,
    h.statements⟩

/-- With a batch in flight, either its writer is at work or its completion waits, and nothing
else is on its way. -/
private theorem underway_cases (h : Accounts pushed ended t) {batch : Batch}
    (hflight : t.buffer.inFlight = some batch) :
    (∃ write, t.writers = [write] ∧ write.batch = batch.number ∧ t.channel = []) ∨
      ∃ c, t.writers = [] ∧ t.channel = [c] ∧ c.batch = batch.number := by
  have hunder := h.underway
  rw [hflight] at hunder
  cases hw : t.writers with
  | cons write writers =>
    have hone : write.batch = batch.number ∧ writers = [] ∧ t.channel = [] := by
      simpa [hw] using hunder
    exact .inl ⟨write, by rw [hone.2.1], hone.1, hone.2.2⟩
  | nil =>
    cases hc : t.channel with
    | nil => simp [hw, hc] at hunder
    | cons c channel =>
      have hone : c.batch = batch.number ∧ channel = [] := by simpa [hw, hc] using hunder
      exact .inr ⟨c, rfl, by rw [hone.2], hone.1⟩

/-- Without a batch in flight nothing is on its way. -/
private theorem underway_none (h : Accounts pushed ended t) (hflight : t.buffer.inFlight = none) :
    t.writers = [] ∧ t.channel = [] := by
  simpa [hflight] using h.underway

/-- A flush moves the pending tasks behind those of all earlier batches. It can only start when
no writer is at work and no completion waits. -/
theorem flush (h : Accounts pushed ended t) (reason : String) (recipient : Option Nat) :
    Accounts pushed ended (t.flush reason recipient) := by
  by_cases hrefused : t.buffer.inFlight ≠ none ∨ t.buffer.pending = []
  · have hsame : t.flush reason recipient = t := by
      rw [WriteTraffic.flush, t.buffer.flush_of_refused hrefused]
    rwa [hsame]
  · push Not at hrefused
    obtain ⟨hidle, hpending⟩ := hrefused
    obtain ⟨hwriters, hchannel⟩ := h.underway_none hidle
    rw [WriteTraffic.flush, t.buffer.flush_of_idle hidle hpending]
    exact {
      tasks := by simpa using h.tasks
      nextTask := h.nextTask
      numbers := by simp [h.numbers, h.nextBatch, List.range'_concat, Nat.add_comm]
      nextBatch := by simp [h.nextBatch]
      started := by simpa [hidle] using h.started
      reported := h.reported
      posted := h.posted
      underway := by simp [hwriters, hchannel]
      statements := by simp [hwriters] }

/-- A posted completion takes the place of its writer. There is only one writer to choose. -/
theorem post (h : Accounts pushed ended t) (writer : Nat) (outcome : FlushOutcome) :
    Accounts pushed ended (t.post writer outcome) := by
  rw [WriteTraffic.post]
  cases hget : t.writers[writer]? with
  | none => exact h
  | some write =>
    have hwrite : write ∈ t.writers := List.mem_of_getElem? hget
    cases hflight : t.buffer.inFlight with
    | none => simp [(h.underway_none hflight).1] at hwrite
    | some batch =>
      rcases h.underway_cases hflight with ⟨first, hw, hb, hc⟩ | ⟨c, hw, -⟩
      · obtain rfl : write = first := by simpa [hw] using hwrite
        obtain rfl : writer = 0 := by
          have := (List.getElem?_eq_some_iff.1 hget).1
          simpa [hw] using this
        exact {
          tasks := h.tasks
          nextTask := h.nextTask
          numbers := h.numbers
          nextBatch := h.nextBatch
          started := h.started
          reported := h.reported
          posted := by simp [h.posted]
          underway := by simp [hw, hc, hb, hflight]
          statements := by simp [hw] }
      · simp [hw] at hwrite

/-- The completion of a batch that is not in flight changes nothing. -/
theorem complete_of_ne (h : Accounts pushed ended t) {c : Completion}
    (hne : ∀ batch ∈ t.buffer.inFlight, batch.number ≠ c.batch) :
    Accounts pushed ended (t.complete c) := by
  have hsame : t.complete c = t := by
    rw [WriteTraffic.complete, t.buffer.complete_of_ne hne]
    simp
  rwa [hsame]

/-- The completion that waits is that of the batch in flight, and the batch ends by it. -/
theorem receive_of_channel (h : Accounts pushed ended t) {batch : Batch} {c : Completion}
    (hflight : t.buffer.inFlight = some batch) (hchannel : t.channel = [c])
    (hc : c.batch = batch.number) (hwriters : t.writers = []) :
    t.receive.buffer.inFlight = none ∧
      Accounts pushed (ended ++ [(batch, c.outcome)]) t.receive := by
  rw [WriteTraffic.receive, hchannel]
  simp only [WriteTraffic.complete]
  rw [t.buffer.complete_of_eq hflight hc.symm]
  refine ⟨rfl, ?_⟩
  exact {
    tasks := h.tasks
    nextTask := h.nextTask
    numbers := h.numbers
    nextBatch := h.nextBatch
    started := by simpa [hflight] using h.started
    reported := by simp [h.reported]
    posted := by simp [h.posted, hchannel, ← hc]
    underway := by simp [hwriters]
    statements := by simp [hwriters] }

theorem receive (h : Accounts pushed ended t) :
    ∃ more, Accounts pushed (ended ++ more) t.receive := by
  have hidle (hchannel : t.channel = []) : Accounts pushed (ended ++ []) t.receive := by
    simpa [WriteTraffic.receive, hchannel] using h
  cases hflight : t.buffer.inFlight with
  | none => exact ⟨[], hidle (h.underway_none hflight).2⟩
  | some batch =>
    rcases h.underway_cases hflight with ⟨-, -, -, hchannel⟩ | ⟨c, hwriters, hchannel, hc⟩
    · exact ⟨[], hidle hchannel⟩
    · exact ⟨_, (h.receive_of_channel hflight hchannel hc hwriters).2⟩

/-- An owner that ends receives the completion of the batch in flight, whether or not it has been
posted. -/
theorem drain (h : Accounts pushed ended t) {batch : Batch}
    (hflight : t.buffer.inFlight = some batch) (outcome : FlushOutcome) :
    ∃ told, (t.drain outcome).buffer.inFlight = none ∧
      Accounts pushed (ended ++ [(batch, told)]) (t.drain outcome) := by
  have hbusy : t.buffer.isFlushing = true := by simp [WriteBuffer.isFlushing, hflight]
  rcases h.underway_cases hflight with ⟨write, hw, hb, hc⟩ | ⟨c, hw, hc, hb⟩
  · have hpost := h.post 0 outcome
    have hdrain : t.drain outcome = (t.post 0 outcome).receive := by
      simp [WriteTraffic.drain, hbusy, hc]
    rw [hdrain]
    refine ⟨outcome, hpost.receive_of_channel (c := ⟨write.batch, outcome⟩) ?_ ?_ hb ?_⟩ <;>
      simp [WriteTraffic.post, hw, hc, hflight]
  · have hdrain : t.drain outcome = t.receive := by simp [WriteTraffic.drain, hbusy, hc]
    rw [hdrain]
    exact ⟨c.outcome, h.receive_of_channel hflight hc hb hw⟩

/-- Every move keeps the account. -/
theorem step (h : Accounts pushed ended t) (m : WriteMove) :
    ∃ more, Accounts (pushed ++ m.pushed?.toList) (ended ++ more) (t.step m) := by
  cases m with
  | push task => exact ⟨[], by simpa [WriteMove.pushed?, WriteTraffic.step] using h.push task⟩
  | flush reason recipient =>
    exact ⟨[], by simpa [WriteMove.pushed?, WriteTraffic.step] using h.flush reason recipient⟩
  | setLimit limit =>
    exact ⟨[], by simpa [WriteMove.pushed?, WriteTraffic.step] using h.setLimit limit⟩
  | post writer outcome =>
    exact ⟨[], by simpa [WriteMove.pushed?, WriteTraffic.step] using h.post writer outcome⟩
  | receive => simpa [WriteMove.pushed?, WriteTraffic.step] using h.receive
  | stray c =>
    refine ⟨[], ?_⟩
    simp only [WriteMove.pushed?, Option.toList_none, List.append_nil, WriteTraffic.step]
    split
    · exact h
    · next hany => exact h.complete_of_ne (by simpa [Option.any_eq_true] using hany)

end Accounts

/-- Every run keeps the account, from any account on. -/
theorem Accounts.foldl {t : WriteTraffic} {pushed : List WriteTask}
    {ended : List (Batch × FlushOutcome)} (h : Accounts pushed ended t)
    (moves : List WriteMove) :
    ∃ more, Accounts (pushed ++ moves.filterMap WriteMove.pushed?) (ended ++ more)
      (moves.foldl WriteTraffic.step t) := by
  induction moves generalizing t pushed ended with
  | nil => exact ⟨[], by simpa using h⟩
  | cons m moves ih =>
    obtain ⟨first, hfirst⟩ := h.step m
    obtain ⟨rest, hrest⟩ := ih hfirst
    refine ⟨first ++ rest, ?_⟩
    cases hm : m.pushed? <;> simpa [hm] using hrest

/-- What was pushed and what has ended accounts for every run of a new buffer. -/
theorem run_accounts (limit : Nat) (moves : List WriteMove) :
    ∃ ended, Accounts (moves.filterMap WriteMove.pushed?) ended (run limit moves) := by
  simpa [run] using (Accounts.start limit).foldl moves

/-- **One batch in flight, and every task in one place.** After any moves around a new buffer, in
any order, there are batches that have ended, each with the outcome its writer posted, such that

* the tasks of all batches in the order of their numbers, and behind them the pending tasks, are
  the pushed tasks in their order;
* a batch that has not ended is the one in flight, nothing but its writer or its completion is on
  its way, the writer writes its statements, and an owner that ends receives its completion;
* the reports are those of the ended batches, each once, to the recipient and with the reason
  that the flush was given;
* a flush is refused exactly when a batch is in flight or nothing is pending, and then changes
  nothing; neither does the completion of a batch that is not in flight. -/
theorem run_single_flight (limit : Nat) (moves : List WriteMove) :
    let t := run limit moves
    ∃ ended : List (Batch × FlushOutcome),
      (t.started.flatMap (·.tasks) ++ t.buffer.pending =
          numbered (moves.filterMap WriteMove.pushed?) ∧
        t.started.map (·.number) = List.range' 1 t.started.length) ∧
      (t.started = ended.map (·.1) ++ t.buffer.inFlight.toList ∧
        t.writers.map (·.batch) ++ t.channel.map (·.batch) =
          (t.buffer.inFlight.map (·.number)).toList ∧
        (∀ write ∈ t.writers, ∀ batch ∈ t.buffer.inFlight,
          write.statements = batch.tasks.map (·.task.payload)) ∧
        ∀ batch ∈ t.buffer.inFlight, ∀ outcome, ∃ told,
          (t.drain outcome).buffer.inFlight = none ∧
          (t.drain outcome).reported =
            t.reported ++ [(WriteBuffer.reportOf batch told, batch.recipient)]) ∧
      (t.reported = ended.map (fun e =>
          (⟨e.1.number, e.1.reason, e.1.tasks.map (·.task), e.2⟩, e.1.recipient)) ∧
        t.posted = ended.map (fun e => ⟨e.1.number, e.2⟩) ++ t.channel ∧
        (t.reported.map (·.1.batch)).Nodup) ∧
      (∀ reason recipient, ((t.buffer.flush reason recipient).2 = none ↔
          t.buffer.inFlight ≠ none ∨ t.buffer.pending = []) ∧
        ((t.buffer.flush reason recipient).2 = none →
          (t.buffer.flush reason recipient).1 = t.buffer)) ∧
      ∀ c : Completion, (∀ batch ∈ t.buffer.inFlight, batch.number ≠ c.batch) →
        t.buffer.complete c = (t.buffer, none) := by
  intro t
  obtain ⟨ended, h⟩ := run_accounts limit moves
  refine ⟨ended, ⟨h.tasks, h.numbers⟩, ⟨h.started, h.underway, h.statements, ?_⟩,
    ⟨h.reported, h.posted, ?_⟩, ?_, ?_⟩
  · intro batch hflight outcome
    obtain ⟨told, hended, hdrain⟩ := h.drain hflight outcome
    refine ⟨told, hended, ?_⟩
    rw [hdrain.reported, h.reported, List.map_append]
    rfl
  · have hprefix : (t.reported.map (·.1.batch)).Sublist (t.started.map (·.number)) := by
      rw [h.reported, h.started]
      simp only [List.map_map, List.map_append]
      exact List.sublist_append_left ..
    exact hprefix.nodup (h.numbers ▸ List.nodup_range')
  · intro reason recipient
    refine ⟨t.buffer.flush_eq_none_iff, fun hnone => ?_⟩
    rw [t.buffer.flush_of_refused (t.buffer.flush_eq_none_iff.1 hnone)]
  · intro c hne
    exact t.buffer.complete_of_ne hne

end WriteTraffic

end IndexControl
