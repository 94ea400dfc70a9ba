import IndexControl.Proofs.Engine.Conformity
import IndexControl.Proofs.Steward.Complete

/-!
# An engine of which nobody has asked anything

While no request is applied and no volume comes or goes, nothing is recorded, nothing waits to come
back, and the roots are those that the settings ask for, but for single directories that are lost. A
change of the settings that leaves the directories alone leaves the roots alone too, unless it says
otherwise than before whether they are monitored: then they are added anew and complete.

## Main definitions

* `Watches.Blank`: nothing is recorded, and nothing waits.
* `EngineMove.KeepsTo`: the moves of an engine that nobody asks anything and that keeps its
  snapshot in one place.
* `Engine.Unasked`: what holds between such moves.
* `Engine.IsComplete`: the roots are all those that the configured directories ask for.

## Main results

* `Engine.unasked_start`, `Engine.Unasked.step`: it holds after the start, and such a move keeps it.
* `Engine.Unasked.flagsAt?_adopt`: what becomes of the roots while the directories stay.
-/

namespace IndexControl

/-! ### Records -/

namespace Watches

variable {w : Watches}

/-- Nothing is recorded, and nothing waits to come back. -/
structure Blank (w : Watches) : Prop where
  records : w.records = .empty
  suspended : w.suspended = .empty

theorem Blank.isOnDemand (h : w.Blank) (q : Location) : w.isOnDemand q = false := by
  rw [Watches.isOnDemand, h.records]
  rfl

theorem Blank.followAll (h : w.Blank) (events : List RootEvent) : w.followAll events = w :=
  followAll_eq_self fun _ _ x _ => by
    rw [h.records]
    rfl

theorem Blank.markStatics (h : w.Blank) (places : List Location) :
    places.foldl Watches.markStatic w = w :=
  markStatics_eq_self fun x _ => h.isOnDemand x

/-- There is nothing to let go. -/
theorem Blank.release (h : w.Blank) (s : RootSet) (requester : Requester) :
    w.release s requester = (w, s, []) := by
  obtain ⟨records, suspended, eligibility⟩ := w
  obtain rfl : records = .empty := h.records
  obtain rfl : suspended = .empty := h.suspended
  rfl

end Watches

/-- The moves in which no request is applied and no volume comes or goes, and with which the state
directory stays the same. -/
def EngineMove.KeepsTo (dir : Path) : EngineMove → Prop
  | .handle (.probed _ (.ok _)) | .handle (.volume _) => False
  | .adopt settings => settings.stateDir = some dir
  | _ => True

namespace Engine

open RootSet

variable {w : Steward} {e e' : Engine} {dir : Path}

/-- The roots are all those that the configured directories ask for. -/
def IsComplete (e : Engine) : Prop := e.steward.Complete e.roots

/-- Nothing is recorded or queued, and the roots are those that the settings ask for, but for some
single directories. -/
structure Unasked (w : Steward) (e : Engine) : Prop where
  quiet : e.roots.events = []
  blank : e.watches.Blank
  conforms : e.Conforms w.environment
  follows : ∃ lost, w.Follows e.settings lost (e.steward, e.roots)

theorem Unasked.undisturbed (h : Unasked w e) (hsame : e.Undisturbed e')
    (hquiet : e'.roots.events = []) (hconforms : e'.Conforms w.environment)
    (hsettings : e'.settings = e.settings) : Unasked w e' where
  quiet := hquiet
  blank := hsame.watches ▸ h.blank
  conforms := hconforms
  follows := by
    obtain ⟨lost, hfollows⟩ := h.follows
    exact ⟨lost, hsettings ▸ hfollows.congr hsame.steward hsame.flagsAt?⟩

/-! ### Parts of moves -/

theorem blank_dispatch (h : e.watches.Blank) : e.dispatch.watches.Blank := by
  have hsame : e.dispatch.watches = e.watches := h.followAll _
  exact hsame ▸ h

theorem blank_followDirectories (h : e.watches.Blank) : e.followDirectories.watches.Blank := by
  rw [followDirectories, h.markStatics]
  exact ⟨h.records, h.suspended⟩

theorem blank_applied (h : e.watches.Blank) (change : SettingsChange) :
    (e.applied change).watches.Blank := by
  have hfollowed : (e.followed change).watches.Blank := by
    simp only [followed]
    split
    · exact blank_followDirectories h
    · exact h
  have hholdings := holdings_followBuffer (e.followed change) change
  simp only [holdings, Prod.mk.injEq] at hholdings
  exact blank_dispatch (hholdings.2.2 ▸ hfollowed)

/-- Where there is nothing to let go, the end of a requester changes nothing. -/
theorem Unasked.undisturbed_handleRelease (h : Unasked w e) (number : Nat)
    (requester : Requester) : e.Undisturbed (e.handleRelease number requester) := by
  have hsame : e.handleRelease number requester =
      e.dispatch.emit [.answer number (.released [])] := by
    rw [handleRelease, h.blank.release]
    rfl
  have hdispatch := undisturbed_dispatch h.quiet
  rw [hsame]
  exact ⟨rfl, hdispatch.watches, fun _ => rfl,
    (sameView_emit e.dispatch rfl).crawled.trans hdispatch.crawled⟩

/-- The roots that a change of the settings leaves before any comes back. -/
theorem flagsAt?_applied (e : Engine) (change : SettingsChange) (q : Location) :
    (e.applied change).roots.flagsAt? q =
      (e.steward.applySettings e.roots e.settings change).2.1.flagsAt? q := by
  rw [← roots_followed]
  exact (e.undisturbed_applied change).flagsAt? q

theorem steward_applied (e : Engine) (change : SettingsChange) :
    (e.applied change).steward = (e.steward.applySettings e.roots e.settings change).1 :=
  (e.undisturbed_applied change).steward.trans (e.steward_followed change)

/-- The engine that takes over a change of the settings, before any root comes back. -/
theorem follows_applied {lost : Location → Bool}
    (h : w.Follows e.settings lost (e.steward, e.roots)) (hmounts : w.mounts = .empty)
    (settings : Settings) :
    let applied := applied { e with settings } ⟨e.settings.changedKeys settings⟩
    ∃ lost', w.Follows settings lost' (applied.steward, applied.roots) :=
  ⟨_, (h.applySettings hmounts settings).congr (steward_applied _ _) (flagsAt?_applied _ _)⟩

/-- Bringing back roots where nothing waits adds the configured directories again. -/
theorem flagsAt?_restoreUncovered (h : e.watches.Blank) (q : Location) :
    e.restoreUncovered.roots.flagsAt? q = (e.steward.syncRoots e.roots).flagsAt? q := by
  simp only [restoreUncovered, Watches.restoreSuspended_of_empty h.suspended]
  rfl

theorem blank_restoreUncovered (h : e.watches.Blank) : e.restoreUncovered.watches.Blank := by
  simp only [restoreUncovered, Watches.restoreSuspended_of_empty h.suspended]
  exact blank_dispatch (blank_followDirectories h)

/-- What comes back after a removal makes the roots complete. -/
theorem follows_restoreAfter {settings : Settings} {lost : Location → Bool} (h : e.watches.Blank)
    (hfollows : w.Follows settings lost (e.steward, e.roots)) (removed : List Location) :
    ∃ lost', w.Follows settings lost'
      ((e.restoreAfter removed).steward, (e.restoreAfter removed).roots) := by
  rw [restoreAfter]
  split
  · exact ⟨lost, hfollows⟩
  · exact ⟨_, hfollows.syncRoots.congr rfl fun q => flagsAt?_restoreUncovered h q⟩

/-! ### Moves -/

theorem Unasked.adopt (h : Unasked w e) (hmounts : w.mounts = .empty) (settings : Settings) :
    Unasked w (e.adopt settings) := by
  have hconforms := h.conforms.adopt settings
  have hquiet := quiet_adopt h.quiet settings
  rw [Engine.adopt] at hconforms hquiet ⊢
  cases hchange : e.settings.change? settings with
  | none => exact h
  | some change =>
    obtain rfl := Settings.change?_eq_some hchange
    rw [hchange] at hconforms hquiet
    let e₀ : Engine := { e with settings }
    let change : SettingsChange := ⟨e.settings.changedKeys settings⟩
    obtain ⟨lost, hfollows⟩ := h.follows
    obtain ⟨lost', happlied⟩ := follows_applied hfollows hmounts settings
    have hblank : (e₀.applied change).watches.Blank := blank_applied (e := e₀) h.blank change
    have hsame := e₀.undisturbed_applyChange change
    obtain ⟨lost'', hback⟩ := follows_restoreAfter hblank happlied (e₀.removedBy change)
    refine ⟨hquiet, hsame.watches ▸ ?_, hconforms, lost'', ?_⟩
    · rw [restoreAfter]
      split
      · exact hblank
      · exact blank_restoreUncovered hblank
    · rw [settings_applyChange]
      exact hback.congr hsame.steward hsame.flagsAt?

/-- Moves that bring no settings leave everything about the roots as it is. -/
theorem Unasked.undisturbed_step (h : Unasked w e) {move : EngineMove} (hmove : move.KeepsTo dir)
    (hnone : move.adopted? = none) : e.Undisturbed (e.step move) := by
  rcases move.kinds with hidle | ⟨number, requester, rfl⟩ | ⟨number, p, rfl⟩ | ⟨settings, rfl⟩ |
    ⟨event, rfl⟩
  · exact Engine.undisturbed_step h.quiet hidle
  · exact h.undisturbed_handleRelease number requester
  · exact hmove.elim
  · contradiction
  · exact hmove.elim

theorem Unasked.step (h : Unasked w e) (hmounts : w.mounts = .empty) {move : EngineMove}
    (hmove : move.KeepsTo dir) : Unasked w (e.step move) := by
  cases hadopted : move.adopted? with
  | none =>
    exact h.undisturbed (h.undisturbed_step hmove hadopted) (quiet_step h.quiet move)
      (h.conforms.step move) (e.settings_step hadopted)
  | some settings =>
    cases move with
    | adopt next => exact h.adopt hmounts next
    | _ => contradiction

/-- A change of the settings that leaves the directories alone leaves the roots alone as well, or
they are complete after it: the first if the settings monitor the roots as before. -/
theorem Unasked.flagsAt?_adopt (h : Unasked w e) (hmounts : w.mounts = .empty) {settings : Settings}
    (hkept : SettingsChange.touchesDirectories ⟨e.settings.changedKeys settings⟩ = false) :
    if e.settings.enableMonitors = settings.enableMonitors then
      ∀ q, (e.adopt settings).roots.flagsAt? q = e.roots.flagsAt? q
    else (e.adopt settings).IsComplete := by
  rw [Engine.adopt]
  cases hchange : e.settings.change? settings with
  | none =>
    have hsame := (Settings.change?_eq_none_iff.1 hchange).enableMonitors
    rw [if_pos hsame]
    exact fun _ => rfl
  | some change =>
    obtain rfl := Settings.change?_eq_some hchange
    let e₀ : Engine := { e with settings }
    let change : SettingsChange := ⟨e.settings.changedKeys settings⟩
    obtain ⟨lost, hfollows⟩ := h.follows
    have hmounts' : e.steward.mounts = .empty :=
      (congrArg Steward.mounts hfollows.steward).trans hmounts
    have hremoved : e₀.removedBy change = [] :=
      Steward.removed_applySettings hmounts' e.roots settings hkept
    have hsame := e₀.undisturbed_applyChange change
    rw [hremoved] at hsame
    have hflags (q : Location) : (e₀.applyChange change).roots.flagsAt? q =
        (e.steward.applySettings e.roots settings change).2.1.flagsAt? q :=
      (hsame.flagsAt? q).trans (e₀.flagsAt?_applied change q)
    have hnext := hfollows.flagsAt?_applySettings hmounts hkept
    split at hnext
    · next hmonitors =>
      rw [if_pos hmonitors]
      exact fun q => (hflags q).trans (hnext q)
    · next hmonitors =>
      rw [if_neg hmonitors]
      intro q
      have hsteward : (e₀.applyChange change).steward = w.under settings := by
        rw [hsame.steward]
        exact (e₀.steward_applied change).trans
          (hfollows.applySettings hmounts settings).steward
      rw [hsteward]
      exact (hflags q).trans (hnext q)

/-! ### The start -/

theorem follows_start (buffered settings : Settings) (environment : Environment)
    (systemLocations : List Location) (disk : Disk) :
    (Steward.new environment systemLocations).Follows settings (fun _ => false)
      ((new buffered settings environment systemLocations disk).start.steward,
        (new buffered settings environment systemLocations disk).start.roots) := by
  let e := (new buffered settings environment systemLocations disk).established
  have hfollows := Steward.follows_establish (w := .new environment systemLocations) rfl .none
    settings
  exact hfollows.congr (checkSnapshot_aside e.followDirectories).1
    fun q => flagsAt?_checkSnapshot e.followDirectories q

theorem unasked_start (buffered settings : Settings) (environment : Environment)
    (systemLocations : List Location) (disk : Disk) :
    Unasked (.new environment systemLocations)
      (new buffered settings environment systemLocations disk).start where
  quiet := rfl
  blank := by
    obtain ⟨eligibility, hwatches⟩ :=
      watches_start buffered settings environment systemLocations disk
    rw [hwatches]
    exact ⟨rfl, rfl⟩
  conforms := conforms_start buffered settings environment systemLocations disk
  follows := by
    rw [settings_start]
    exact ⟨_, follows_start buffered settings environment systemLocations disk⟩

/-- The roots are complete right after the start. -/
theorem isComplete_start (buffered settings : Settings) (environment : Environment)
    (systemLocations : List Location) (disk : Disk) :
    (new buffered settings environment systemLocations disk).start.IsComplete :=
  (follows_start buffered settings environment systemLocations disk).complete fun _ => rfl

end Engine

end IndexControl
