import IndexControl.Proofs.Engine.Steady

/-!
# What moves leave of the roots

All moves but the return of an identification edit the set of roots and make known what the edits
queue. So what a move takes from a root can be read off what the crawler is told in it: the recorded
volume of a root goes only with the root, and a place loses its owner only where a root there or
above is removed, or where the root of a single directory above it is made plain.

## Main definitions

* `EngineMove.IsReturn`: an identification comes back.
* `Engine.Advances`: what becomes of the roots, seen from what is told.

## Main results

* `Engine.Steady.advances_followed`, `Engine.Steady.advances_applyChange`: the two halves of a
  change of the settings.
* `Engine.Steady.advances_step`: all moves but returns.
-/

namespace IndexControl

/-- An identification comes back with an answer, and perhaps with a volume to record. -/
def EngineMove.IsReturn : EngineMove → Prop
  | .handle (.resolved _ (.ok _)) => True
  | _ => False

namespace Engine

open RootSet

variable {P : Location → Prop} {e e' e'' : Engine}

/-- What has become of the roots can be read off what has been told in between. -/
def Advances (P : Location → Prop) (e e' : Engine) : Prop :=
  ∃ news, e'.told = e.told ++ news ∧ Revises P news e.roots e'.roots

theorem Advances.refl (e : Engine) : Advances P e e := ⟨[], (List.append_nil _).symm, .refl _⟩

theorem Advances.trans (h : Advances P e e') (h' : Advances P e' e'') : Advances P e e'' := by
  obtain ⟨news, hnews, hrevises⟩ := h
  obtain ⟨news', hnews', hrevises'⟩ := h'
  exact ⟨news ++ news', by rw [hnews', hnews, List.append_assoc], hrevises.trans hrevises'⟩

theorem advances_of_sameView (h : e.SameView e') : Advances P e e' := by
  refine ⟨[], by rw [told, told, h.crawled, h.roots, List.append_nil], ?_⟩
  rw [h.roots]
  exact .refl _

theorem advances_dispatch (e : Engine) : Advances P e e.dispatch :=
  ⟨[], by rw [told_dispatch, List.append_nil], .of_root? (fun _ => rfl) (by simp)⟩

/-- The set of roots is edited, and the crawler learns of it. -/
theorem advances_of_edits (hs : e.roots.WellFormed) (hroots : Edits P e.roots e'.roots)
    (hcrawled : e'.crawled = e.crawled) : Advances P e e'.dispatch := by
  obtain ⟨news, hnews, hrevises⟩ := hroots.revises hs
  have hedited : Advances P e e' :=
    ⟨news, by rw [told, told, hcrawled, hnews, List.append_assoc], hrevises⟩
  exact hedited.trans (advances_dispatch e')

/-! ### Idle moves -/

theorem sameView_handleCall (e : Engine) (number : Nat) {asked : Call}
    (h : (EngineMove.handle (.call number asked)).IsIdle) :
    e.SameView (e.handleCall number asked) := by
  cases asked with
  | release requester => exact h.elim
  | push task =>
    have hpush : e.SameView { e with buffer := e.buffer.push task } := ⟨rfl, rfl⟩
    exact (hpush.trans (sameView_flushIfFull _)).trans (sameView_emit _ rfl)
  | flush reason => exact (sameView_flush e reason (some number)).trans (sameView_emit _ rfl)
  | _ => exact sameView_emit e rfl

theorem advances_of_idle (e : Engine) {move : EngineMove} (h : move.IsIdle)
    (hreturn : ¬move.IsReturn) : Advances P e (e.step move) := by
  cases move with
  | handle event =>
    cases event with
    | call number asked => exact advances_of_sameView (sameView_handleCall e number h)
    | probed number result =>
      cases result with
      | ok p => exact h.elim
      | error cause =>
        exact (advances_dispatch e).trans (advances_of_sameView (sameView_emit _ rfl))
    | resolved number result =>
      cases result with
      | ok r => exact absurd trivial hreturn
      | error cause => exact advances_of_sameView (sameView_emit e rfl)
    | volume event => exact h.elim
  | finishBatch completion => exact advances_of_sameView (sameView_finishBatch e completion)
  | adopt settings => exact h.elim
  | tick => exact advances_of_sameView (sameView_flush e _ none)

/-! ### Changes of the settings -/

theorem steward_applyChange (e : Engine) (change : SettingsChange) :
    (e.applyChange change).steward = (e.followed change).steward := by
  rw [(e.undisturbed_applyChange change).steward, steward_restoreAfter,
    (e.undisturbed_applied change).steward]
  rfl

theorem Steady.advances_restoreAfter (h : e.Steady) (removed : List Location) :
    Advances (· ∈ e.steward.directories.singlePlaces) e (e.restoreAfter removed) := by
  rw [Engine.restoreAfter]
  split
  · exact .refl e
  · rw [restoreUncovered_eq]
    refine advances_of_edits h.sound.wellFormed ?_ rfl
    rw [roots_recovering]
    exact h.edits_recovered

/-- Changed settings reach the roots. -/
theorem Steady.advances_followed (h : e.Steady) (change : SettingsChange) :
    Advances (· ∈ (e.followed change).steward.directories.singlePlaces) e
      (e.followed change).dispatch := by
  refine advances_of_edits h.sound.wellFormed ?_ (crawled_followed e change)
  rw [steward_followed, roots_followed]
  exact Steward.edits_applySettings h.canonical h.sound.wellFormed
    (Steward.removablePlaces_of_mounts h.sound.mounts) e.settings change

/-- What changed settings have uncovered comes back. -/
theorem Steady.advances_applyChange (h : e.Steady) (change : SettingsChange) :
    Advances (· ∈ (e.followed change).steward.directories.singlePlaces) (e.followed change).dispatch
      (e.applyChange change) := by
  have hview := sameView_followBuffer (e.followed change) change
  have happlied : Advances (· ∈ (e.followed change).steward.directories.singlePlaces)
      (e.followed change).dispatch (e.applied change) := by
    refine advances_of_sameView ⟨?_, ?_⟩
    · rw [Engine.applied, Engine.dispatch, Engine.dispatch, hview.roots]
    · exact (e.undisturbed_applied change).crawled
  have hsteward : (e.applied change).steward = (e.followed change).steward :=
    (e.undisturbed_applied change).steward
  have hback := (h.applied change).advances_restoreAfter (e.removedBy change)
  rw [hsteward] at hback
  rcases e.applyChange_eq change with heq | heq <;> rw [heq]
  · exact happlied.trans hback
  · exact (happlied.trans hback).trans (advances_of_sameView (sameView_saveSnapshot _))

theorem Steady.with_settings (h : e.Steady) (settings : Settings) :
    Steady { e with settings } :=
  ⟨⟨h.sound.wellFormed, h.sound.mounts, h.sound.attached⟩, h.quiet, h.canonical, h.plain⟩

/-! ### Moves -/

theorem Steady.advances_adopt (h : e.Steady) (settings : Settings) :
    Advances (· ∈ (e.adopt settings).steward.directories.singlePlaces) e (e.adopt settings) := by
  rw [Engine.adopt]
  split
  · exact .refl e
  · next change hchange =>
    have h₀ := h.with_settings settings
    rw [steward_applyChange]
    exact Advances.trans (h₀.advances_followed change) (h₀.advances_applyChange change)

theorem Steady.advances_handleRelease (h : e.Steady) (number : Nat) (requester : Requester) :
    Advances (· ∈ e.steward.directories.singlePlaces) e (e.handleRelease number requester) := by
  have hletGo : Advances (· ∈ e.steward.directories.singlePlaces) e (e.letGo requester) :=
    advances_of_edits h.sound.wellFormed (Watches.edits_release e.watches e.roots requester) rfl
  exact (hletGo.trans ((h.letGo requester).advances_restoreAfter _)).trans
    (advances_of_sameView (sameView_emit _ rfl))

theorem Steady.advances_handleProbed (h : e.Steady) (number : Nat) {p : ProbedRequest}
    (hp : p.IsGenuine) : Advances P e (e.handleProbed number (.ok p)) := by
  suffices happlied : Advances P e (e.applyProbed p).1.dispatch from
    happlied.trans (advances_of_sameView (sameView_emit _ rfl))
  rcases e.applyProbed_cases p with heq | ⟨a, happly, hholdings, hcrawled⟩
  · rw [heq]
    exact advances_dispatch e
  · simp only [holdings, Prod.mk.injEq] at hholdings
    refine advances_of_edits h.sound.wellFormed ?_ hcrawled
    rw [hholdings.2.1]
    exact Watches.edits_apply hp.isCanonical.1 happly

theorem Steady.advances_handleVolume (h : e.Steady) (event : VolumeEvent) :
    Advances (· ∈ e.steward.directories.singlePlaces) e (e.handleVolume event) :=
  advances_of_edits h.sound.wellFormed
    (Steward.edits_followVolume h.canonical h.sound.wellFormed event) rfl

/-- What all moves but returns do to the roots can be read off what the crawler is told. -/
theorem Steady.advances_step (h : e.Steady) {move : EngineMove} (hmove : move.IsGenuine)
    (hreturn : ¬move.IsReturn) :
    Advances (· ∈ (e.step move).steward.directories.singlePlaces) e (e.step move) := by
  rcases move.kinds with hidle | ⟨number, requester, rfl⟩ | ⟨number, p, rfl⟩ | ⟨settings, rfl⟩ |
    ⟨event, rfl⟩
  · exact e.advances_of_idle hidle hreturn
  · have hsteward : (e.step (.handle (.call number (.release requester)))).steward = e.steward :=
      e.steward_handleRelease number requester
    rw [hsteward]
    exact h.advances_handleRelease number requester
  · exact h.advances_handleProbed number hmove
  · exact h.advances_adopt settings
  · have hdirectories : (e.step (.handle (.volume event))).steward.directories =
        e.steward.directories := Steward.directories_followVolume e.roots event
    rw [hdirectories]
    exact h.advances_handleVolume event

end Engine

end IndexControl
