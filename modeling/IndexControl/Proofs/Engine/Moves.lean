import IndexControl.Proofs.Engine.Transient

/-!
# The kinds of moves

Only four kinds of moves reach the roots and the records of who watches them: answers of probes,
releases, changed settings and volumes.

## Main definitions

* `EngineMove.IsIdle`: the other moves.
* `Engine.Undisturbed`: the roots keep their flags, and nobody learns of anything.
* `Engine.Spares`: the crawler is told of no removal.

## Main results

* `EngineMove.kinds`: a move is idle or of one of the four kinds.
* `Engine.undisturbed_step`: idle moves.
* `Engine.mounts_run`: volumes come and go only by moves that are about them.
-/

namespace IndexControl

namespace EngineMove

/-- The moves that reach neither the roots nor the records of who watches them. -/
def IsIdle : EngineMove → Prop
  | .handle (.call _ (.release _)) | .handle (.probed _ (.ok _)) | .handle (.volume _)
  | .adopt _ => False
  | _ => True

/-- A volume has come or gone. -/
def IsVolume : EngineMove → Prop
  | .handle (.volume _) => True
  | _ => False

theorem kinds (move : EngineMove) :
    move.IsIdle ∨ (∃ number requester, move = .handle (.call number (.release requester))) ∨
      (∃ number p, move = .handle (.probed number (.ok p))) ∨
      (∃ settings, move = .adopt settings) ∨ ∃ event, move = .handle (.volume event) := by
  cases move with
  | handle event =>
    cases event with
    | call number asked =>
      cases asked with
      | release requester => exact .inr (.inl ⟨number, requester, rfl⟩)
      | _ => exact .inl trivial
    | probed number result =>
      cases result with
      | error cause => exact .inl trivial
      | ok p => exact .inr (.inr (.inl ⟨number, p, rfl⟩))
    | resolved number result => exact .inl trivial
    | volume event => exact .inr (.inr (.inr (.inr ⟨event, rfl⟩)))
  | finishBatch completion => exact .inl trivial
  | adopt settings => exact .inr (.inr (.inr (.inl ⟨settings, rfl⟩)))
  | tick => exact .inl trivial

end EngineMove

namespace Engine

open RootSet

variable {e e' e'' : Engine}

/-! ### Idle moves -/

/-- The roots keep their flags, the steward and the records are the same, and the crawler has been
given no further notification. -/
structure Undisturbed (e e' : Engine) : Prop where
  steward : e'.steward = e.steward
  watches : e'.watches = e.watches
  flagsAt? : ∀ q, e'.roots.flagsAt? q = e.roots.flagsAt? q
  crawled : e'.crawled = e.crawled

theorem SameView.undisturbed (h : e.SameView e') (hholdings : e'.holdings = e.holdings) :
    e.Undisturbed e' := by
  simp only [holdings, Prod.mk.injEq] at hholdings
  exact ⟨hholdings.1, hholdings.2.2, fun q => by rw [h.roots], h.crawled⟩

theorem undisturbed_handleCall (e : Engine) (number : Nat) {asked : Call}
    (h : (EngineMove.handle (.call number asked)).IsIdle) :
    e.Undisturbed (e.handleCall number asked) := by
  cases asked with
  | release requester => exact h.elim
  | push task =>
    have hpush : e.SameView { e with buffer := e.buffer.push task } := ⟨rfl, rfl⟩
    have hflushed := hpush.trans (sameView_flushIfFull _)
    exact (hflushed.trans (sameView_emit _ rfl)).undisturbed
      (holdings_flushIfFull { e with buffer := e.buffer.push task })
  | index request => exact (sameView_emit e rfl).undisturbed rfl
  | flush reason =>
    exact ((sameView_flush e reason (some number)).trans (sameView_emit _ rfl)).undisturbed rfl
  | bufferState file => exact (sameView_emit e rfl).undisturbed rfl
  | identify file => exact (sameView_emit e rfl).undisturbed rfl
  | roots => exact (sameView_emit e rfl).undisturbed rfl

theorem undisturbed_handleResolved (e : Engine) (number : Nat)
    (result : Except ServiceError Resolved) : e.Undisturbed (e.handleResolved number result) := by
  cases result with
  | error cause => exact (sameView_emit e rfl).undisturbed rfl
  | ok r =>
    refine ⟨rfl, rfl, fun q => ?_, crawled_append rfl rfl⟩
    simp only [handleResolved, Resolved.record]
    split
    · rfl
    · exact flagsAt?_recordVolume ..

theorem undisturbed_dispatch (hquiet : e.roots.events = []) : e.Undisturbed e.dispatch := by
  refine ⟨rfl, ?_, fun _ => rfl, ?_⟩
  · simp only [dispatch, RootSet.drain, hquiet]
    rfl
  · rw [crawled_dispatch, told, hquiet, List.append_nil]

/-- Idle moves leave everything about the roots as it is. -/
theorem undisturbed_step (hquiet : e.roots.events = []) {move : EngineMove} (h : move.IsIdle) :
    e.Undisturbed (e.step move) := by
  cases move with
  | handle event =>
    cases event with
    | call number asked => exact undisturbed_handleCall e number h
    | probed number result =>
      cases result with
      | ok p => exact h.elim
      | error cause =>
        have hdispatch := undisturbed_dispatch hquiet
        exact ⟨rfl, hdispatch.watches, fun _ => rfl,
          (sameView_emit e.dispatch rfl).crawled.trans hdispatch.crawled⟩
    | resolved number result => exact undisturbed_handleResolved e number result
    | volume event => exact h.elim
  | finishBatch completion =>
    exact (sameView_finishBatch e completion).undisturbed (holdings_finishBatch e completion)
  | adopt settings => exact h.elim
  | tick => exact (sameView_flush e _ none).undisturbed rfl

/-! ### Moves that remove nothing -/

/-- The crawler is told of no removal. -/
def Spares (e e' : Engine) : Prop :=
  ∃ news, e'.crawled = e.crawled ++ news ∧ ∀ event ∈ news, event.removed? = none

theorem Spares.of_crawled (h : e'.crawled = e.crawled) : e.Spares e' :=
  ⟨[], by rw [h, List.append_nil], fun _ h => absurd h List.not_mem_nil⟩

theorem Spares.trans (h : e.Spares e') (h' : e'.Spares e'') : e.Spares e'' := by
  obtain ⟨news, hnews, hall⟩ := h
  obtain ⟨news', hnews', hall'⟩ := h'
  refine ⟨news ++ news', by rw [hnews', hnews, List.append_assoc], fun event hevent => ?_⟩
  exact (List.mem_append.1 hevent).elim (hall event) (hall' event)

theorem spares_dispatch (hquiet : e.roots.events = []) (hcrawled : e'.crawled = e.crawled)
    (hroots : e.roots.Spares e'.roots) : e.Spares e'.dispatch := by
  obtain ⟨events, hevents, hall⟩ := hroots
  refine ⟨events, ?_, hall⟩
  rw [crawled_dispatch, told, hcrawled, hevents, hquiet, List.nil_append]

/-! ### Requests and changes of the settings -/

theorem steward_followed (e : Engine) (change : SettingsChange) :
    (e.followed change).steward = (e.steward.applySettings e.roots e.settings change).1 := by
  simp only [followed]
  split <;> rfl

theorem suspended_followed (e : Engine) (change : SettingsChange) :
    (e.followed change).watches.suspended = e.watches.suspended := by
  simp only [followed]
  split
  · exact Watches.suspended_markStatics ..
  · rfl

/-- What the write buffer does in between does not matter. -/
theorem undisturbed_applied (e : Engine) (change : SettingsChange) :
    (e.followed change).dispatch.Undisturbed (e.applied change) := by
  have hview := sameView_followBuffer (e.followed change) change
  have hholdings := holdings_followBuffer (e.followed change) change
  simp only [holdings, Prod.mk.injEq] at hholdings
  obtain ⟨hsteward, hroots, hwatches⟩ := hholdings
  refine ⟨hsteward, ?_, fun q => ?_, ?_⟩
  · rw [applied, dispatch, dispatch, hroots, hwatches]
  · rw [applied, dispatch, dispatch, hroots]
  · rw [applied, crawled_dispatch, crawled_dispatch, told, told, hview.crawled, hview.roots]

theorem undisturbed_applyChange (e : Engine) (change : SettingsChange) :
    ((e.applied change).restoreAfter (e.removedBy change)).Undisturbed (e.applyChange change) := by
  rcases e.applyChange_eq change with heq | heq <;> rw [heq]
  · exact (SameView.refl _).undisturbed rfl
  · exact (sameView_saveSnapshot _).undisturbed (holdings_saveSnapshot _)

/-! ### Volumes -/

theorem steward_restoreAfter (e : Engine) (removed : List Location) :
    (e.restoreAfter removed).steward = e.steward := by
  rw [restoreAfter]
  split <;> rfl

theorem steward_handleRelease (e : Engine) (number : Nat) (requester : Requester) :
    (e.handleRelease number requester).steward = e.steward :=
  steward_restoreAfter (e.letGo requester) _

theorem mounts_adopt (e : Engine) (settings : Settings) :
    (e.adopt settings).steward.mounts = e.steward.mounts := by
  rw [adopt]
  split
  · rfl
  · next change hchange =>
    let e₀ : Engine := { e with settings }
    have hfollowed := (e₀.undisturbed_applied change).steward
    rw [(e₀.undisturbed_applyChange change).steward, steward_restoreAfter, hfollowed]
    exact (congrArg Steward.mounts (e₀.steward_followed change)).trans
      (Steward.mounts_applySettings ..)

/-- The mounted volumes stay the same until one comes or goes. -/
theorem mounts_step (hquiet : e.roots.events = []) {move : EngineMove} (h : ¬move.IsVolume) :
    (e.step move).steward.mounts = e.steward.mounts := by
  rcases move.kinds with hidle | ⟨number, requester, rfl⟩ | ⟨number, p, rfl⟩ | ⟨settings, rfl⟩ |
    ⟨event, rfl⟩
  · rw [(undisturbed_step hquiet hidle).steward]
  · exact congrArg Steward.mounts (e.steward_handleRelease number requester)
  · exact congrArg Steward.mounts (e.steward_applyProbed p)
  · exact e.mounts_adopt settings
  · exact absurd trivial h

/-! ### Runs -/

/-- No volume is mounted after the start and moves that are not about volumes. -/
theorem mounts_run (buffered settings : Settings) (environment : Environment)
    (systemLocations : List Location) (disk : Disk) {moves : List EngineMove}
    (hmoves : ∀ move ∈ moves, ¬move.IsVolume) :
    ((new buffered settings environment systemLocations disk).start.run moves).steward.mounts =
      .empty := by
  induction moves using List.reverseRecOn with
  | nil => exact congrArg Steward.mounts (checkSnapshot_aside _).1
  | append_singleton moves move ih =>
    obtain ⟨hearlier, hlast⟩ := List.forall_mem_append.1 hmoves
    have hquiet :=
      ((inStep_start buffered settings environment systemLocations disk).run moves).quiet
    rw [run_concat, mounts_step hquiet (hlast move (List.mem_singleton_self move))]
    exact ih hearlier

end Engine

end IndexControl
