import IndexControl.Proofs.Buffer.Outstanding
import IndexControl.Proofs.Engine.Conformity

/-!
# Writing never stalls

The tasks in flight count as outstanding, so the limit can stay reached while every flush is
refused. What gets writing going again is that the buffer is looked at after each thing that can
make it full or free to flush: a push, the end of a batch, and a new limit. A flush that somebody
asked for, or the time between flushes, can only help.

All that a move does to the buffer is one step of the buffer alone. The steps keep a batch in flight
whenever enough tasks are outstanding and some of them are pending.

## Main definitions

* `WriteBuffer.flushIfFull`, `WriteBuffer.finish`, `WriteBuffer.follow`: what the moves of an engine
  do to its buffer.
* `WriteBuffer.Underway`: a full buffer with pending tasks has a batch in flight.

## Main results

* `WriteBuffer.limit_retune`, `WriteBuffer.limit_follow`: what becomes of the limit.
* `Engine.buffer_step`: a move does to the buffer what the buffer does by itself.
* `WriteBuffer.Underway.follow`, `WriteBuffer.Agrees.follow`: what each move keeps.
* `WriteBuffer.Agrees.finish`: how things go on after the end of a batch.
* `Engine.run_full_underway`: no run of an engine stalls.
-/

namespace IndexControl

/-! ### The steps of a buffer -/

namespace WriteBuffer

/-- Start a flush when enough tasks are outstanding. -/
def flushIfFull (b : WriteBuffer) : WriteBuffer :=
  if b.isFull then (b.flush "task limit reached" none).1 else b

/-- Take a completion. The end of a batch can be the start of the next one. -/
def finish (b : WriteBuffer) (c : Completion) : WriteBuffer :=
  if (b.complete c).2.isSome then (b.complete c).1.flushIfFull else (b.complete c).1

/-- Take over the limit of changed settings. -/
def retune (b : WriteBuffer) (before after : Settings) : WriteBuffer :=
  match before.change? after with
  | none => b
  | some change =>
    if change.touches .bufferLimit then (b.setLimit after.bufferLimit.toNat).flushIfFull else b

/-- What a move does to the buffer of an engine with some settings. -/
def follow (b : WriteBuffer) (settings : Settings) : EngineMove → WriteBuffer
  | .handle (.call _ (.push task)) => (b.push task).flushIfFull
  | .handle (.call number (.flush reason)) => (b.flush reason (some number)).1
  | .handle _ => b
  | .finishBatch c => b.finish c
  | .adopt after => b.retune settings after
  | .tick => (b.flush "flush interval elapsed" none).1

/-! ### The limit of a buffer -/

theorem outstanding_flush (b : WriteBuffer) (reason : String) (recipient : Option Nat) :
    (b.flush reason recipient).1.outstanding = b.outstanding := by
  rw [flush]
  split <;> rfl

theorem limit_flushIfFull (b : WriteBuffer) :
    b.flushIfFull.outstanding.limit = b.outstanding.limit := by
  rw [flushIfFull]
  split
  · rw [outstanding_flush]
  · rfl

theorem limit_complete (b : WriteBuffer) (c : Completion) :
    (b.complete c).1.outstanding.limit = b.outstanding.limit := by
  have hremoveAll (o : Outstanding) (tasks : List QueuedTask) :
      (o.removeAll tasks).limit = o.limit := by
    induction tasks generalizing o with
    | nil => rfl
    | cons t tasks ih => exact (ih (o.take t).1).trans (o.limit_take t)
  rw [complete]
  cases b.inFlight with
  | none => rfl
  | some batch =>
    simp only
    split
    · exact hremoveAll b.outstanding batch.tasks
    · rfl

theorem limit_finish (b : WriteBuffer) (c : Completion) :
    (b.finish c).outstanding.limit = b.outstanding.limit := by
  rw [finish]
  split
  · rw [limit_flushIfFull, limit_complete]
  · rw [limit_complete]

/-- Settings with another limit bring it, and others leave the limit alone. -/
theorem limit_retune (b : WriteBuffer) (before after : Settings) :
    (b.retune before after).outstanding.limit =
      if after.bufferLimit = before.bufferLimit then b.outstanding.limit
      else after.bufferLimit.toNat := by
  rw [retune]
  cases hchange : before.change? after with
  | none => exact (if_pos (Settings.change?_eq_none_iff.1 hchange).bufferLimit.symm).symm
  | some change =>
    obtain rfl := Settings.change?_eq_some hchange
    simp only [Settings.touches_changedKeys, SettingsKey.differs, decide_eq_true_eq]
    by_cases hsame : before.bufferLimit = after.bufferLimit
    · rw [if_neg (not_not.2 hsame), if_pos hsame.symm]
    · rw [if_pos hsame, if_neg (Ne.symm hsame), limit_flushIfFull]
      rfl

/-- Only settings with another limit change the limit. -/
theorem limit_follow (b : WriteBuffer) (settings : Settings) {move : EngineMove}
    (h : move.adopted? = none) : (b.follow settings move).outstanding.limit = b.outstanding.limit := by
  cases move with
  | handle event =>
    cases event with
    | call number asked =>
      cases asked with
      | push task => exact limit_flushIfFull _
      | flush reason => exact congrArg Outstanding.limit (b.outstanding_flush reason (some number))
      | _ => rfl
    | _ => rfl
  | finishBatch c => exact b.limit_finish c
  | adopt after => contradiction
  | tick => exact congrArg Outstanding.limit (b.outstanding_flush _ none)

end WriteBuffer

namespace Engine

variable (e : Engine)

theorem buffer_flushIfFull : e.flushIfFull.buffer = e.buffer.flushIfFull := by
  rw [flushIfFull, WriteBuffer.flushIfFull]
  split <;> rfl

theorem buffer_complete (c : Completion) : (e.complete c).1.buffer = (e.buffer.complete c).1 := by
  rw [complete]
  split <;> next hcomplete => rw [hcomplete]

theorem isSome_complete (c : Completion) : (e.complete c).2 = (e.buffer.complete c).2.isSome := by
  rw [complete]
  split <;> next hcomplete => rw [hcomplete]; rfl

theorem buffer_finishBatch (c : Completion) :
    (e.finishBatch c).buffer = e.buffer.finish c := by
  simp only [finishBatch, WriteBuffer.finish]
  rw [← isSome_complete, ← buffer_complete, ← buffer_flushIfFull]
  split <;> rfl

theorem buffer_restoreAfter (removed : List Location) :
    (e.restoreAfter removed).buffer = e.buffer := by
  rw [restoreAfter]
  split <;> rfl

theorem buffer_saveSnapshot : e.saveSnapshot.buffer = e.buffer := by
  rw [saveSnapshot]
  split <;> rfl

theorem buffer_checkSnapshot : e.checkSnapshot.buffer = e.buffer := by
  rw [checkSnapshot]
  split <;> rfl

theorem buffer_start : e.start.buffer = e.buffer := buffer_checkSnapshot _

theorem buffer_handleProbed (number : Nat) (result : Except RequestError ProbedRequest) :
    (e.handleProbed number result).buffer = e.buffer := by
  have happlied (p : ProbedRequest) : (e.applyProbed p).1.buffer = e.buffer := by
    rw [applyProbed]
    cases e.watches.apply e.roots p with
    | error cause => rfl
    | ok a =>
      simp only
      cases a.outcome <;> rfl
  cases result with
  | error cause => rfl
  | ok p => exact happlied p

theorem buffer_handleResolved (number : Nat) (result : Except ServiceError Resolved) :
    (e.handleResolved number result).buffer = e.buffer := by
  cases result <;> rfl

theorem buffer_followed (change : SettingsChange) : (e.followed change).buffer = e.buffer := by
  simp only [followed]
  split <;> rfl

theorem buffer_followBuffer (change : SettingsChange) :
    (e.followBuffer change).buffer =
      if change.touches .bufferLimit then
        (e.buffer.setLimit e.settings.bufferLimit.toNat).flushIfFull
      else e.buffer := by
  have hset := buffer_flushIfFull
    { e with buffer := e.buffer.setLimit e.settings.bufferLimit.toNat }
  simp only [followBuffer]
  cases change.touches .bufferLimit <;> cases change.touches .flushInterval
  · rfl
  · rfl
  · exact hset
  · exact hset

theorem buffer_adopt (settings : Settings) :
    (e.adopt settings).buffer = e.buffer.retune e.settings settings := by
  rw [adopt, WriteBuffer.retune]
  cases e.settings.change? settings with
  | none => rfl
  | some change =>
    let e₀ : Engine := { e with settings }
    have happlied : (e₀.applyChange change).buffer =
        ((e₀.followed change).followBuffer change).buffer := by
      have hrestored := buffer_restoreAfter (e₀.applied change) (e₀.removedBy change)
      rcases e₀.applyChange_eq change with heq | heq <;> rw [heq]
      · exact hrestored
      · exact (buffer_saveSnapshot _).trans hrestored
    refine happlied.trans ?_
    rw [buffer_followBuffer, buffer_followed, settings_followed]

/-- Moves do nothing to the buffer but what it does by itself. -/
theorem buffer_step (move : EngineMove) :
    (e.step move).buffer = e.buffer.follow e.settings move := by
  cases move with
  | handle event =>
    cases event with
    | call number asked =>
      cases asked with
      | push task => exact buffer_flushIfFull { e with buffer := e.buffer.push task }
      | release requester => exact buffer_restoreAfter (e.letGo requester) _
      | _ => rfl
    | probed number result => exact e.buffer_handleProbed number result
    | resolved number result => exact e.buffer_handleResolved number result
    | volume event => rfl
  | finishBatch c => exact e.buffer_finishBatch c
  | adopt settings => exact e.buffer_adopt settings
  | tick => rfl

end Engine

namespace WriteBuffer

variable {b : WriteBuffer} {pushed : List WriteTask}

/-! ### A batch is in flight when it has to be -/

/-- When enough tasks are outstanding and some of them are pending, a batch is in flight. -/
def Underway (b : WriteBuffer) : Prop := b.isFull = true → b.pending ≠ [] → b.inFlight ≠ none

theorem underway_empty (limit : Nat) : (empty limit).Underway := fun _ h => absurd rfl h

/-- A flush that starts leaves nothing pending, and one that is refused leaves everything. -/
theorem Underway.flush (h : b.Underway) (reason : String) (recipient : Option Nat) :
    (b.flush reason recipient).1.Underway := by
  by_cases hrefused : b.inFlight ≠ none ∨ b.pending = []
  · rwa [b.flush_of_refused hrefused]
  · push Not at hrefused
    rw [b.flush_of_idle hrefused.1 hrefused.2]
    exact fun _ hpending => absurd rfl hpending

/-- Looking at the buffer is enough, whatever has been done to it. -/
theorem underway_flushIfFull (b : WriteBuffer) : b.flushIfFull.Underway := by
  rw [flushIfFull]
  split
  · by_cases hrefused : b.inFlight ≠ none ∨ b.pending = []
    · rw [b.flush_of_refused hrefused]
      exact fun _ hpending => hrefused.resolve_right hpending
    · push Not at hrefused
      rw [b.flush_of_idle hrefused.1 hrefused.2]
      exact fun _ hpending => absurd rfl hpending
  · next hfull => exact fun h => absurd h hfull

/-- A completion that ends no batch changes nothing, and after any other the buffer is looked
at. -/
theorem Underway.finish (h : b.Underway) (c : Completion) : (b.finish c).Underway := by
  rw [WriteBuffer.finish]
  split
  · exact underway_flushIfFull _
  · next hended =>
    suffices hsame : (b.complete c).1 = b by rwa [hsame]
    by_cases hnamed : ∃ batch, b.inFlight = some batch ∧ batch.number = c.batch
    · obtain ⟨batch, hflight, hnumber⟩ := hnamed
      simp [b.complete_of_eq hflight hnumber] at hended
    · push Not at hnamed
      rw [b.complete_of_ne fun batch hflight => hnamed batch hflight]

theorem Underway.retune (h : b.Underway) (before after : Settings) :
    (b.retune before after).Underway := by
  rw [WriteBuffer.retune]
  split
  · exact h
  · split
    · exact underway_flushIfFull _
    · exact h

/-- Every move keeps a batch in flight where one has to be. -/
theorem Underway.follow (h : b.Underway) (settings : Settings) (move : EngineMove) :
    (b.follow settings move).Underway := by
  cases move with
  | handle event =>
    cases event with
    | call number asked =>
      cases asked with
      | push task => exact underway_flushIfFull _
      | flush reason => exact h.flush reason (some number)
      | _ => exact h
    | _ => exact h
  | finishBatch c => exact h.finish c
  | adopt after => exact h.retune settings after
  | tick => exact h.flush _ none

/-! ### The count of outstanding tasks is right -/

theorem Agrees.flushIfFull (h : b.Agrees pushed) : b.flushIfFull.Agrees pushed := by
  rw [WriteBuffer.flushIfFull]
  split
  · exact h.flush _ none
  · exact h

/-- Every move keeps the outstanding tasks in line with the batches. -/
theorem Agrees.follow (h : b.Agrees pushed) (settings : Settings) (move : EngineMove) :
    ∃ more, (b.follow settings move).Agrees (pushed ++ more) := by
  have hnone {b' : WriteBuffer} (h' : b'.Agrees pushed) : ∃ more, b'.Agrees (pushed ++ more) :=
    ⟨[], by rwa [List.append_nil]⟩
  cases move with
  | handle event =>
    cases event with
    | call number asked =>
      cases asked with
      | push task => exact ⟨[task], (h.push task).flushIfFull⟩
      | flush reason => exact hnone (h.flush reason (some number))
      | _ => exact hnone h
    | _ => exact hnone h
  | finishBatch c =>
    rw [WriteBuffer.follow, finish]
    split
    · exact hnone (h.complete c).flushIfFull
    · exact hnone (h.complete c)
  | adopt after =>
    rw [WriteBuffer.follow, retune]
    split
    · exact hnone h
    · split
      · exact hnone (h.setLimit _).flushIfFull
      · exact hnone h
  | tick => exact hnone (h.flush _ none)

/-- How things go on when the batch in flight ends. With enough tasks pending these are the next
batch. With fewer they stay pending, and the buffer is not full any more. -/
theorem Agrees.finish (h : b.Agrees pushed) {batch : Batch} (hflight : b.inFlight = some batch)
    (outcome : FlushOutcome) :
    (b.outstanding.limit ≤ b.pending.length → b.pending ≠ [] →
      ∃ next, (b.finish ⟨batch.number, outcome⟩).inFlight = some next ∧
        next.tasks = b.pending ∧ (b.finish ⟨batch.number, outcome⟩).pending = []) ∧
    (b.pending.length < b.outstanding.limit →
      (b.finish ⟨batch.number, outcome⟩).inFlight = none ∧
        (b.finish ⟨batch.number, outcome⟩).pending = b.pending ∧
        (b.finish ⟨batch.number, outcome⟩).isFull = false) := by
  have hended := b.complete_of_eq (c := ⟨batch.number, outcome⟩) hflight rfl
  -- The buffer as it is when it is looked at: the tasks of the batch are gone.
  generalize hidle : (b.complete ⟨batch.number, outcome⟩).1 = idle at *
  have hagrees : idle.Agrees pushed := hidle ▸ h.complete ⟨batch.number, outcome⟩
  have hlimit : idle.outstanding.limit = b.outstanding.limit := by
    rw [← hidle, b.limit_complete]
  have hnone : idle.inFlight = none := by rw [← hidle, hended]
  have hpending : idle.pending = b.pending := by rw [← hidle, hended]
  have hlength : idle.outstanding.length = b.pending.length := by
    have hflying : idle.flying = [] := by rw [flying, hnone]
    rw [hagrees.holds.length, hflying, hpending, List.nil_append]
  have hfull : idle.isFull = decide (b.outstanding.limit ≤ b.pending.length) := by
    rw [isFull, Outstanding.isFull, hlimit, hlength]
  have hfinish : b.finish ⟨batch.number, outcome⟩ = idle.flushIfFull := by
    rw [WriteBuffer.finish, hidle, hended]
    rfl
  rw [hfinish, WriteBuffer.flushIfFull, hfull]
  constructor
  · intro hle hne
    rw [if_pos (by simpa using hle), idle.flush_of_idle hnone (hpending ▸ hne)]
    exact ⟨_, rfl, hpending, rfl⟩
  · intro hlt
    rw [if_neg (by simpa using hlt)]
    exact ⟨hnone, hpending, by simpa [hfull] using hlt⟩

end WriteBuffer

/-! ### Runs of an engine -/

namespace Engine

variable {buffered settings : Settings} {environment : Environment}
  {systemLocations : List Location} {disk : Disk} {e : Engine}

/-- What holds of the buffer of an engine between moves. -/
theorem run_buffer (moves : List EngineMove)
    (hrun : (new buffered settings environment systemLocations disk).start.run moves = e) :
    e.buffer.Underway ∧ ∃ pushed, e.buffer.Agrees pushed := by
  subst hrun
  induction moves using List.reverseRecOn with
  | nil =>
    simp only [run, List.foldl_nil, buffer_start]
    exact ⟨WriteBuffer.underway_empty _, [], WriteBuffer.agrees_empty _⟩
  | append_singleton moves move ih =>
    obtain ⟨hunderway, pushed, hagrees⟩ := ih
    simp only [run, List.foldl_concat]
    rw [← run, buffer_step]
    obtain ⟨more, hmore⟩ := hagrees.follow _ move
    exact ⟨hunderway.follow _ move, _, hmore⟩

/-- **Writing never stalls.** After the start and any moves, in any order, with completions of any
batch and any outcome and with any change of the limit: when as many tasks are outstanding as are
enough, and some of them are pending, a batch is in flight. When it ends, whatever its outcome,
either enough tasks are pending and all of them go into the next batch, or fewer are pending than
are enough. -/
theorem run_full_underway (moves : List EngineMove)
    (hrun : (new buffered settings environment systemLocations disk).start.run moves = e)
    (hfull : e.buffer.isFull = true) (hpending : e.buffer.pending ≠ []) :
    ∃ batch, e.buffer.inFlight = some batch ∧
      ∀ outcome, let e' := e.step (.finishBatch ⟨batch.number, outcome⟩)
        (e.buffer.outstanding.limit ≤ e.buffer.pending.length →
          ∃ next, e'.buffer.inFlight = some next ∧ next.tasks = e.buffer.pending ∧
            e'.buffer.pending = []) ∧
        (e.buffer.pending.length < e.buffer.outstanding.limit →
          e'.buffer.inFlight = none ∧ e'.buffer.pending = e.buffer.pending ∧
            e'.buffer.isFull = false) := by
  obtain ⟨hunderway, pushed, hagrees⟩ := run_buffer moves hrun
  obtain ⟨batch, hflight⟩ := Option.ne_none_iff_exists'.1 (hunderway hfull hpending)
  refine ⟨batch, hflight, fun outcome => ?_⟩
  obtain ⟨hnext, hrest⟩ := hagrees.finish hflight outcome
  simp only [buffer_step, WriteBuffer.follow]
  exact ⟨fun hle => hnext hle hpending, hrest⟩

/-- Two tasks are in flight and a third is pending when the limit falls to one. The third goes into
the next batch, whatever becomes of the first one. -/
theorem run_full_underway_lowered :
    let nowhere : Environment := ⟨fun _ => none, none, fun _ => none, fun _ => false⟩
    let settings : Settings := { Settings.default with
      singleDirectories := [], recursiveDirectories := [], bufferLimit := 2 }
    let push (number : Nat) (payload : String) : EngineMove :=
      .handle (.call number (.push ⟨Path.ofString "/f", payload⟩))
    let moves : List EngineMove :=
      [push 1 "a", push 2 "b", push 3 "c", .adopt { settings with bufferLimit := 1 }]
    ∃ e, (new settings settings nowhere [] ⟨.empty⟩).start.run moves = e ∧ e.buffer.isFull = true ∧
      e.buffer.pending = [⟨2, Path.ofString "/f", "c"⟩] ∧
      ∃ batch, e.buffer.inFlight = some batch ∧ ∀ outcome, ∃ next,
        (e.step (.finishBatch ⟨batch.number, outcome⟩)).buffer.inFlight = some next ∧
          next.tasks = [⟨2, Path.ofString "/f", "c"⟩] := by
  intro nowhere settings push moves
  have hfacts : ∀ e, (new settings settings nowhere [] ⟨.empty⟩).start.run moves = e →
      e.buffer.isFull = true ∧ e.buffer.pending = [⟨2, Path.ofString "/f", "c"⟩] ∧
        e.buffer.outstanding.limit ≤ e.buffer.pending.length := by
    rintro e rfl
    decide
  obtain ⟨e, hrun⟩ : ∃ e, (new settings settings nowhere [] ⟨.empty⟩).start.run moves = e :=
    ⟨_, rfl⟩
  obtain ⟨hfull, hpending, henough⟩ := hfacts e hrun
  have hne : e.buffer.pending ≠ [] := by simp [hpending]
  obtain ⟨batch, hflight, hnext⟩ := run_full_underway moves hrun hfull hne
  refine ⟨e, hrun, hfull, hpending, batch, hflight, fun outcome => ?_⟩
  obtain ⟨next, hnew, htasks, -⟩ := (hnext outcome).1 henough
  exact ⟨next, hnew, htasks.trans hpending⟩

end Engine

end IndexControl
