import IndexControl.Proofs.Engine.Upkeep

/-!
# What becomes of the roots in a move

In every move the set of roots is changed, and its notifications are given to the crawler, any number
of times and in any order. What all changes of the set keep, a whole run keeps.

## Main definitions

* `Engine.crawled`, `Engine.told`: the notifications given to the crawler, and those with the
  queued ones.
* `Engine.SameView`: neither the roots nor what the crawler knows has changed.
* `Engine.Turn`, `Engine.Turns`: a change of the set or a dispatch, and several of them in order.

## Main results

* `Engine.applyProbed_cases`: what a request does to the roots and to the records.
* `Engine.turns_start`, `Engine.turns_step`, `Engine.turns_run`: the start and all moves are made of
  turns.
-/

namespace IndexControl

/-- The notification about roots in an effect, if there is one. -/
def Effect.changed? : Effect → Option RootEvent
  | .crawl (.changed event) => some event
  | _ => none

namespace Engine

open RootSet

variable {e e' e'' : Engine}

/-- The notifications about roots that the crawler has been given, oldest first. -/
def crawled (e : Engine) : List RootEvent := e.outbox.filterMap Effect.changed?

/-- The notifications given to the crawler and then those that are still queued. -/
def told (e : Engine) : List RootEvent := e.crawled ++ e.roots.events

/-- Dispatching gives the crawler what is queued. -/
theorem crawled_dispatch (e : Engine) : e.dispatch.crawled = e.told := by
  rw [crawled, dispatch, RootSet.drain, List.filterMap_append, List.filterMap_map]
  exact congrArg (e.crawled ++ ·) List.filterMap_some

theorem told_dispatch (e : Engine) : e.dispatch.told = e.told := by
  rw [told, crawled_dispatch]
  exact List.append_nil _

/-- One thing that becomes of the roots. -/
inductive Turn (e : Engine) : Engine → Prop
  /-- The set of roots changes. The crawler does not learn of it yet. -/
  | change {e' : Engine} (hroots : Changes (fun _ => True) e.roots e'.roots)
    (hcrawled : e'.crawled = e.crawled) : Turn e e'
  | dispatch : Turn e e.dispatch

/-- Several of them in order. -/
abbrev Turns : Engine → Engine → Prop := Relation.ReflTransGen Turn

/-! ### Parts of moves that leave the roots alone -/

/-- The roots are the same, and the crawler has been given no further notification. -/
structure SameView (e e' : Engine) : Prop where
  roots : e'.roots = e.roots
  crawled : e'.crawled = e.crawled

theorem SameView.refl (e : Engine) : e.SameView e := ⟨rfl, rfl⟩

theorem SameView.trans (h : e.SameView e') (h' : e'.SameView e'') : e.SameView e'' :=
  ⟨h'.roots.trans h.roots, h'.crawled.trans h.crawled⟩

theorem crawled_append {effects : List Effect} (houtbox : e'.outbox = e.outbox ++ effects)
    (h : effects.filterMap Effect.changed? = []) : e'.crawled = e.crawled := by
  rw [crawled, houtbox, List.filterMap_append, h, List.append_nil, crawled]

theorem sameView_emit (e : Engine) {effects : List Effect}
    (h : effects.filterMap Effect.changed? = []) : e.SameView (e.emit effects) :=
  ⟨rfl, crawled_append rfl h⟩

private theorem changed?_write (write : Option BatchWrite) :
    (write.toList.map Effect.write).filterMap Effect.changed? = [] := by
  cases write <;> rfl

private theorem changed?_report (recipient : Option Nat) (report : FlushReport) :
    (recipient.toList.map (Effect.report · report)).filterMap Effect.changed? = [] := by
  cases recipient <;> rfl

theorem sameView_flush (e : Engine) (reason : String) (recipient : Option Nat) :
    e.SameView (e.flush reason recipient).1 :=
  ⟨rfl, crawled_append rfl (changed?_write _)⟩

theorem sameView_flushIfFull (e : Engine) : e.SameView e.flushIfFull := by
  rw [flushIfFull]
  split
  · exact sameView_flush e _ _
  · exact .refl e

theorem sameView_complete (e : Engine) (c : Completion) : e.SameView (e.complete c).1 := by
  rw [complete]
  split
  · exact ⟨rfl, rfl⟩
  · next buffer report recipient hcomplete =>
    exact ⟨rfl, crawled_append rfl (changed?_report recipient report)⟩

theorem sameView_finishBatch (e : Engine) (c : Completion) : e.SameView (e.finishBatch c) := by
  have hcomplete := sameView_complete e c
  simp only [finishBatch]
  split
  · exact hcomplete.trans (sameView_flushIfFull _)
  · exact hcomplete

theorem sameView_followBuffer (e : Engine) (change : SettingsChange) :
    e.SameView (e.followBuffer change) := by
  have hset : e.SameView { e with buffer := e.buffer.setLimit e.settings.bufferLimit.toNat } :=
    ⟨rfl, rfl⟩
  have hlimit := hset.trans (sameView_flushIfFull _)
  simp only [followBuffer]
  cases change.touches .bufferLimit <;> cases change.touches .flushInterval
  · exact .refl e
  · exact sameView_emit e rfl
  · exact hlimit
  · exact hlimit.trans (sameView_emit _ rfl)

theorem sameView_saveSnapshot (e : Engine) : e.SameView e.saveSnapshot := by
  rw [saveSnapshot]
  split <;> exact ⟨rfl, rfl⟩

/-! ### Parts of moves that change the roots -/

theorem turns_of_sameView (h : e.SameView e') : Turns e e' :=
  .single (.change (by rw [h.roots]) h.crawled)

/-- The set of roots changes, and the crawler learns of it. -/
theorem turns_dispatch (hroots : Changes (fun _ => True) e.roots e'.roots)
    (hcrawled : e'.crawled = e.crawled) : Turns e e'.dispatch :=
  .tail (.single (.change hroots hcrawled)) .dispatch

theorem turns_emit (e : Engine) {effects : List Effect}
    (h : effects.filterMap Effect.changed? = []) : Turns e (e.emit effects) :=
  turns_of_sameView (sameView_emit e h)

theorem turns_checkSnapshot (e : Engine) : Turns e e.checkSnapshot := by
  rw [checkSnapshot]
  split
  · exact .refl
  · next dir hdir =>
    refine .single (.change ?_ rfl)
    simp only [Snapshot.check]
    split
    · exact .refl
    · split
      · exact .refl
      · split <;> exact .single .updateAll

theorem turns_restoreAfter (e : Engine) (removed : List Location) :
    Turns e (e.restoreAfter removed) := by
  have hsync : Changes (fun _ => True) e.roots (e.steward.syncRoots e.roots) :=
    Steward.changes_syncRoots (fun _ _ => trivial) e.roots
  have hback := Watches.changes_restoreSuspended (P := fun _ => True) e.watches
    (e.steward.syncRoots e.roots) fun _ _ => trivial
  let e₁ : Engine := followDirectories { e with
    roots := (e.watches.restoreSuspended (e.steward.syncRoots e.roots)).2.1
    watches := (e.watches.restoreSuspended (e.steward.syncRoots e.roots)).1 }
  have hrestored : Turns e e₁.dispatch := turns_dispatch (hsync.trans hback) rfl
  rw [restoreAfter]
  split
  · exact .refl
  · exact hrestored

/-- A request is refused, or it changes the roots and the records and tells the crawler of no
change of the roots yet. -/
theorem applyProbed_cases (e : Engine) (p : ProbedRequest) :
    (e.applyProbed p).1 = e ∨ ∃ a, e.watches.apply e.roots p = .ok a ∧
      (e.applyProbed p).1.holdings = (e.steward, a.roots, a.watches) ∧
      (e.applyProbed p).1.crawled = e.crawled := by
  rw [applyProbed]
  cases e.watches.apply e.roots p with
  | error cause => exact .inl rfl
  | ok a =>
    refine .inr ⟨a, rfl, ?_⟩
    simp only
    split
    · exact ⟨rfl, (sameView_emit _ rfl).crawled⟩
    · exact ⟨rfl, rfl⟩

theorem turns_handleProbed (e : Engine) (number : Nat)
    (result : Except RequestError ProbedRequest) : Turns e (e.handleProbed number result) := by
  cases result with
  | error cause => exact .trans (.single .dispatch) (turns_emit _ rfl)
  | ok p =>
    have hafter : Turns (e.applyProbed p).1 (e.handleProbed number (.ok p)) :=
      .trans (.single .dispatch) (turns_emit _ rfl)
    rcases e.applyProbed_cases p with hsame | ⟨a, happly, hholdings, hcrawled⟩
    · rwa [hsame] at hafter
    · simp only [holdings, Prod.mk.injEq] at hholdings
      have hroots : Changes (fun _ => True) e.roots (e.applyProbed p).1.roots :=
        hholdings.2.1 ▸ Watches.changes_apply trivial happly
      exact .head (.change hroots hcrawled) hafter

theorem turns_handleRelease (e : Engine) (number : Nat) (requester : Requester) :
    Turns e (e.handleRelease number requester) := by
  have hletGo : Turns e (e.letGo requester) :=
    turns_dispatch (Watches.changes_release e.watches e.roots requester) rfl
  exact (hletGo.trans (turns_restoreAfter _ _)).trans (turns_emit _ rfl)

theorem turns_handleResolved (e : Engine) (number : Nat)
    (result : Except ServiceError Resolved) : Turns e (e.handleResolved number result) := by
  cases result with
  | error cause => exact turns_emit e rfl
  | ok r =>
    have hrecord : Changes (fun _ => True) e.roots (r.record e.roots) := by
      rw [Resolved.record]
      split
      · exact .refl
      · exact .single (.recordVolume ..)
    exact .single (.change hrecord (crawled_append rfl rfl))

theorem turns_handleCall (e : Engine) (number : Nat) (asked : Call) :
    Turns e (e.handleCall number asked) := by
  cases asked with
  | release requester => exact turns_handleRelease e number requester
  | push task =>
    have hpush : e.SameView { e with buffer := e.buffer.push task } := ⟨rfl, rfl⟩
    exact (turns_of_sameView (hpush.trans (sameView_flushIfFull _))).trans (turns_emit _ rfl)
  | flush reason =>
    exact (turns_of_sameView (sameView_flush e reason (some number))).trans (turns_emit _ rfl)
  | index request => exact turns_emit e rfl
  | bufferState file => exact turns_emit e rfl
  | identify file => exact turns_emit e rfl
  | roots => exact turns_emit e rfl

theorem turns_handleVolume (e : Engine) (event : VolumeEvent) :
    Turns e (e.handleVolume event) :=
  turns_dispatch (Steward.changes_followVolume (fun _ _ _ _ => trivial) e.roots) rfl

theorem roots_followed (e : Engine) (change : SettingsChange) :
    (e.followed change).roots = (e.steward.applySettings e.roots e.settings change).2.1 := by
  simp only [followed]
  split <;> rfl

theorem crawled_followed (e : Engine) (change : SettingsChange) :
    (e.followed change).crawled = e.crawled := by
  simp only [followed]
  split <;> rfl

theorem turns_applyChange (e : Engine) (change : SettingsChange) :
    Turns e (e.applyChange change) := by
  have hroots : Changes (fun _ => True) e.roots (e.followed change).roots :=
    e.roots_followed change ▸ Steward.changes_applySettings (fun _ _ _ => trivial)
      (fun _ _ _ _ => trivial)
  have hview := sameView_followBuffer (e.followed change) change
  have happlied : Turns e (e.applied change) :=
    turns_dispatch (hview.roots ▸ hroots) (hview.crawled.trans (e.crawled_followed change))
  have hrestored := happlied.trans (turns_restoreAfter _ (e.removedBy change))
  rcases e.applyChange_eq change with heq | heq <;> rw [heq]
  · exact hrestored
  · exact hrestored.trans (turns_of_sameView (sameView_saveSnapshot _))

theorem turns_adopt (e : Engine) (settings : Settings) : Turns e (e.adopt settings) := by
  rw [adopt]
  split
  · exact .refl
  · next change hchange =>
    have hsettings : e.SameView { e with settings } := ⟨rfl, rfl⟩
    exact (turns_of_sameView hsettings).trans (turns_applyChange _ change)

/-! ### Moves -/

/-- The start is made of turns. -/
theorem turns_start (e : Engine) : Turns e e.start := by
  let e₁ : Engine := { e with
    steward := (e.steward.establish e.roots e.settings).1
    roots := (e.steward.establish e.roots e.settings).2 }
  have hestablished : Turns e e₁.followDirectories :=
    .single (.change (Steward.changes_establish (fun _ _ => trivial) (fun _ _ => trivial))
      rfl)
  exact (hestablished.trans (turns_checkSnapshot _)).tail .dispatch

/-- Moves are made of turns. -/
theorem turns_step (e : Engine) (move : EngineMove) : Turns e (e.step move) := by
  cases move with
  | handle event =>
    cases event with
    | call number asked => exact turns_handleCall e number asked
    | probed number result => exact turns_handleProbed e number result
    | resolved number result => exact turns_handleResolved e number result
    | volume event => exact turns_handleVolume e event
  | finishBatch completion => exact turns_of_sameView (sameView_finishBatch e completion)
  | adopt settings => exact turns_adopt e settings
  | tick => exact turns_of_sameView (sameView_flush e _ none)

theorem turns_run (e : Engine) (moves : List EngineMove) : Turns e (e.run moves) := by
  induction moves generalizing e with
  | nil => exact .refl
  | cons move moves ih => exact (turns_step e move).trans (ih (e.step move))

end Engine

end IndexControl
