import IndexControl.Proofs.Engine.Turns

/-!
# What the crawler knows of the roots

The crawler is given every notification about roots, in the order in which the set of roots
queues them. It knows the places of the roots after every move of the engine, and no
notification surprises it.

## Main definitions

* `Engine.Mirrored`, `Engine.InStep`: the notifications tell of the roots, and none is queued.

## Main results

* `Engine.Mirrored.turns`: changes of the set of roots are told.
* `Engine.quiet_step`: no move leaves a notification queued.
* `Engine.InStep.step`: every move of the engine keeps the crawler in step.
* `Engine.run_crawled_exact`: the crawler is in step after every run.
-/

namespace IndexControl

namespace Engine

open RootSet

variable {e e' : Engine}

/-- The notifications so far make sense to a reader and tell of all roots. -/
structure Mirrored (e : Engine) : Prop where
  fits : RootEvent.AllFit ∅ e.told
  exact : RootEvent.mirrorAll ∅ e.told = e.roots.placeSet

/-- The notifications tell of all roots, and the crawler has been given all of them. -/
structure InStep (e : Engine) : Prop extends Mirrored e where
  quiet : e.roots.events = []

/-- Changes of the set of roots are told. -/
theorem Mirrored.of_changes (h : e.Mirrored) (hroots : Changes (fun _ => True) e.roots e'.roots)
    (hcrawled : e'.crawled = e.crawled) : e'.Mirrored := by
  obtain ⟨events, hevents, hfit, hmirror⟩ := hroots.tells
  have htold : e'.told = e.told ++ events := by
    rw [told, told, hcrawled, hevents, List.append_assoc]
  refine ⟨?_, ?_⟩
  · rw [htold]
    exact RootEvent.allFit_append.2 ⟨h.fits, by rwa [h.exact]⟩
  · rw [htold, RootEvent.mirrorAll_append, h.exact, hmirror]

theorem Mirrored.turns (h : e.Mirrored) (hturns : Turns e e') : e'.Mirrored := by
  induction hturns with
  | refl => exact h
  | tail _ hturn ih =>
    cases hturn with
    | change hroots hcrawled => exact ih.of_changes hroots hcrawled
    | dispatch =>
      exact ⟨by rw [told_dispatch]; exact ih.fits, by rw [told_dispatch]; exact ih.exact⟩

/-! ### Nothing stays queued -/

theorem quiet_restoreAfter (h : e.roots.events = []) (removed : List Location) :
    (e.restoreAfter removed).roots.events = [] := by
  rw [restoreAfter]
  split
  · exact h
  · rfl

theorem quiet_handle (h : e.roots.events = []) (event : EngineEvent) :
    (e.handle event).roots.events = [] := by
  cases event with
  | call number asked =>
    cases asked with
    | release requester => exact quiet_restoreAfter (e := e.letGo requester) rfl _
    | push task =>
      have hview := sameView_flushIfFull { e with buffer := e.buffer.push task }
      exact (congrArg RootSet.events hview.roots).trans h
    | _ => exact h
  | probed number result => rfl
  | resolved number result =>
    cases result with
    | error cause => exact h
    | ok r =>
      have hrecord : (r.record e.roots).events = e.roots.events := by
        rw [Resolved.record]
        split
        · rfl
        · exact events_recordVolume ..
      exact hrecord.trans h
  | volume event => rfl

theorem quiet_adopt (h : e.roots.events = []) (settings : Settings) :
    (e.adopt settings).roots.events = [] := by
  rw [adopt]
  split
  · exact h
  · next change hchange =>
    let e₀ : Engine := { e with settings }
    have hrestored := quiet_restoreAfter (e := e₀.applied change) rfl (e₀.removedBy change)
    rcases e₀.applyChange_eq change with heq | heq <;> rw [heq]
    · exact hrestored
    · rw [(sameView_saveSnapshot _).roots]
      exact hrestored

/-- No move leaves a notification queued. -/
theorem quiet_step (h : e.roots.events = []) (move : EngineMove) :
    (e.step move).roots.events = [] := by
  cases move with
  | handle event => exact quiet_handle h event
  | finishBatch completion =>
    exact (congrArg RootSet.events (sameView_finishBatch e completion).roots).trans h
  | adopt settings => exact quiet_adopt h settings
  | tick => exact h

/-! ### Moves -/

/-- Every move of the engine keeps the crawler in step. -/
theorem InStep.step (h : e.InStep) (move : EngineMove) : (e.step move).InStep :=
  ⟨h.toMirrored.turns (turns_step e move), quiet_step h.quiet move⟩

theorem InStep.run (h : e.InStep) (moves : List EngineMove) : (e.run moves).InStep := by
  induction moves generalizing e with
  | nil => exact h
  | cons move moves ih => exact ih (h.step move)

theorem inStep_start (buffered settings : Settings) (environment : Environment)
    (systemLocations : List Location) (disk : Disk) :
    (new buffered settings environment systemLocations disk).start.InStep := by
  have hnew : (new buffered settings environment systemLocations disk).Mirrored := ⟨trivial, rfl⟩
  exact ⟨hnew.turns (turns_start _), rfl⟩

/-- **The crawler's view of the roots is exact.** After its start and any moves an engine has no
notification queued, and a reader who began without roots and has followed what the crawler was
given knows exactly the places of the roots. On the way no added root was known before; each root
that was updated, removed or absorbed, or that holds an updated file, was known, and so was the
root into which another one was absorbed from strictly below it. -/
theorem run_crawled_exact (buffered settings : Settings) (environment : Environment)
    (systemLocations : List Location) (disk : Disk) (moves : List EngineMove) :
    let e := (new buffered settings environment systemLocations disk).start.run moves
    e.roots.events = [] ∧ RootEvent.mirrorAll ∅ e.crawled = e.roots.places.toFinset ∧
      ∀ before event after, e.crawled = before ++ event :: after →
        event.Fits (RootEvent.mirrorAll ∅ before) := by
  intro e
  have h : e.InStep := (inStep_start buffered settings environment systemLocations disk).run moves
  have htold : e.told = e.crawled := by rw [told, h.quiet, List.append_nil]
  refine ⟨h.quiet, by rw [← htold]; exact h.exact, fun before event after hcrawled => ?_⟩
  have hfits := h.fits
  rw [htold, hcrawled] at hfits
  exact hfits.fits

end Engine

end IndexControl
