import IndexControl.Proofs.Engine.Moves
import IndexControl.Proofs.Engine.Requests
import IndexControl.Proofs.Steward.Edits
import IndexControl.Proofs.Steward.Shelter
import IndexControl.Proofs.Watches.Tracking

/-!
# Roots that stay where they are watched

A root that is there on demand is recursive, unless its place is configured as a single directory.
No root with a record lies below a recursive one, so an on-demand root above another root is that of
a single directory. Every move keeps it so.

## Main definitions

* `Engine.Steady`: what holds of the on-demand roots between moves.

## Main results

* `Engine.Steady.mem_singlePlaces`: which on-demand roots lie above others.
* `Engine.Steady.letGo`, `Engine.Steady.applied`, `Engine.Steady.restoreUncovered`,
  `Engine.Steady.step`: parts of moves, and moves, keep the engine steady.
* `Engine.steady_run`: an engine is steady after its start and any genuine moves.
-/

namespace IndexControl

namespace Engine

open RootSet

variable {e e' : Engine}

/-- The engine is sound and nothing is queued, the directories are canonical, and a plain root that is
there on demand is that of a single directory. -/
structure Steady (e : Engine) : Prop where
  sound : e.Sound
  quiet : e.roots.events = []
  canonical : e.steward.directories.Canonical
  plain : ∀ q, e.watches.isOnDemand q = true → e.roots.IsPlain q →
    q ∈ e.steward.directories.singlePlaces

theorem Steady.isRoot (h : e.Steady) {q : Location} (hq : e.watches.records.contains q = true) :
    e.roots.isRoot q = true := by
  refine (h.sound.attached.rooted q hq).resolve_right ?_
  rw [h.quiet]
  simp

/-- An on-demand root above another root with a record is that of a single directory. -/
theorem Steady.mem_singlePlaces (h : e.Steady) {root above : Location}
    (hroot : e.watches.records.contains root = true) (habove : e.watches.isOnDemand above = true)
    (hbelow : root.isBelow above = true) : above ∈ e.steward.directories.singlePlaces :=
  h.plain above habove (h.sound.wellFormed.isPlain_of_isBelow (h.isRoot hroot)
    (h.isRoot (Watches.contains_of_isOnDemand habove)) hbelow)

theorem Steady.undisturbed (h : e.Steady) (hsame : e.Undisturbed e') (hsound : e'.Sound)
    (hquiet : e'.roots.events = []) : e'.Steady where
  sound := hsound
  quiet := hquiet
  canonical := hsame.steward ▸ h.canonical
  plain q hq hplain := by
    rw [hsame.watches] at hq
    rw [hsame.steward]
    obtain ⟨f, hf, hflag⟩ := hplain
    exact h.plain q hq ⟨f, (hsame.flagsAt? q).symm.trans hf, hflag⟩

/-- The engine is steady when it has followed what was queued, if roots have become plain only at
single directories and no root is on demand that was not so before. -/
theorem Steady.dispatch (h : e.Steady) (hsound : e'.Sound)
    (hdirectories : e'.steward.directories = e.steward.directories)
    (hflattens : FlattensAt (· ∈ e.steward.directories.singlePlaces) e.roots e'.roots)
    (honDemand : ∀ q, e'.watches.isOnDemand q = true → e.roots.IsPlain q →
      e.watches.isOnDemand q = true) : e'.dispatch.Steady where
  sound := hsound.upkeep .dispatch
  quiet := rfl
  canonical := hdirectories ▸ h.canonical
  plain q hq hplain := by
    have hbefore : e'.watches.isOnDemand q = true := Watches.isOnDemand_of_followAll hq
    rw [show e'.dispatch.steward.directories = e.steward.directories from hdirectories]
    rcases hflattens q hplain with hsingle | hold
    · exact hsingle
    · exact h.plain q (honDemand q hbefore hold) hold

/-! ### Parts of moves -/

theorem Steady.letGo (h : e.Steady) (requester : Requester) : (e.letGo requester).Steady := by
  refine h.dispatch (h.sound.upkeep (.release requester)) rfl
    ((edits_removeEach e.roots _).flattensAt h.sound.wellFormed) ?_
  exact fun q hq _ => (Watches.isOnDemand_release (s := e.roots).1 hq).1

/-- What is suspended and comes back was no root before. -/
theorem Steady.not_isRoot_of_restored (h : e.Steady) {q : Location}
    (hfree : (e.steward.syncRoots e.roots).owner? q = none) : e.roots.isRoot q = false := by
  refine Bool.eq_false_iff.2 fun hroot => ?_
  have howned := e.steward.isOwned_syncRoots h.sound.wellFormed hroot
  rw [RootSet.IsOwned, hfree] at howned
  exact Bool.noConfusion howned

/-- The suspended places that nothing covers once the configured directories are back, in order. -/
def uncovered (e : Engine) : List Location :=
  e.watches.suspended.keys.filter fun place => ((e.steward.syncRoots e.roots).owner? place).isNone

theorem mem_uncovered_iff {q : Location} :
    q ∈ e.uncovered ↔ e.watches.suspended.contains q = true ∧
      (e.steward.syncRoots e.roots).owner? q = none := by
  rw [uncovered, List.mem_filter, OrderedMap.mem_keys_iff, ← OrderedMap.contains_iff,
    Option.isNone_iff_eq_none]

/-- The roots, before what is queued has been followed, when the uncovered ones are back. -/
def recovered (e : Engine) : RootSet :=
  (e.steward.syncRoots e.roots).addEach (fun _ => .onDemand) e.uncovered

/-- The engine, before it has followed what is queued, when the uncovered roots are back. -/
def recovering (e : Engine) : Engine :=
  followDirectories { e with
    roots := (e.watches.restoreSuspended (e.steward.syncRoots e.roots)).2.1
    watches := (e.watches.restoreSuspended (e.steward.syncRoots e.roots)).1 }

theorem restoreUncovered_eq (e : Engine) : e.restoreUncovered = e.recovering.dispatch := rfl

theorem roots_recovering (e : Engine) : e.recovering.roots = e.recovered :=
  Watches.roots_restoreEach ..

theorem isOnDemand_recovering {q : Location} (h : e.recovering.watches.isOnDemand q = true) :
    q ∉ e.steward.directories.places ∧ (e.watches.isOnDemand q = true ∨ q ∈ e.uncovered) := by
  obtain ⟨hback, hplaces⟩ := Watches.isOnDemand_markStatics.1 h
  refine ⟨?_, Watches.isOnDemand_of_restoreEach hback⟩
  rwa [← Steward.map_configured]

theorem Sound.recovering (h : e.Sound) : e.recovering.Sound := h.upkeep .restore

theorem Steady.isCanonical_of_uncovered (h : e.Steady) : ∀ place ∈ e.uncovered, place.IsCanonical :=
  fun place hplace => h.sound.attached.canonical place (.inr (mem_uncovered_iff.1 hplace).1)

theorem Steady.wellFormed_syncRoots (h : e.Steady) : (e.steward.syncRoots e.roots).WellFormed :=
  (Steward.changes_syncRoots (fun _ hplace => hplace.isSpelled) e.roots).wellFormed h.sound.wellFormed

theorem Steady.edits_recovered (h : e.Steady) :
    Edits (· ∈ e.steward.directories.singlePlaces) e.roots e.recovered :=
  (Steward.edits_syncRoots h.canonical e.roots).trans
    (edits_addEach (fun place hplace => (h.isCanonical_of_uncovered place hplace).1)
      (fun _ => Watches.isRecursive_onDemand) _)

theorem Steady.restoreUncovered (h : e.Steady) : e.restoreUncovered.Steady := by
  rw [restoreUncovered_eq]
  refine h.dispatch h.sound.recovering rfl ?_ fun q hq hplain => ?_
  · rw [roots_recovering]
    exact h.edits_recovered.flattensAt h.sound.wellFormed
  · refine (isOnDemand_recovering hq).2.resolve_right fun hmem => ?_
    have hnone := h.not_isRoot_of_restored (mem_uncovered_iff.1 hmem).2
    exact Bool.noConfusion (hnone.symm.trans hplain.isRoot)

theorem Steady.restoreAfter (h : e.Steady) (removed : List Location) :
    (e.restoreAfter removed).Steady := by
  rw [Engine.restoreAfter]
  split
  · exact h
  · exact h.restoreUncovered

/-! ### Changes of the settings -/

theorem isOnDemand_followed {change : SettingsChange} {q : Location}
    (h : (e.followed change).watches.isOnDemand q = true) :
    e.watches.isOnDemand q = true ∧ (change.touchesDirectories = true →
      q ∉ (e.followed change).steward.directories.places) := by
  simp only [followed] at h ⊢
  split at h
  · obtain ⟨hq, hplaces⟩ := Watches.isOnDemand_markStatics.1 h
    rw [Steward.map_configured] at hplaces
    exact ⟨hq, fun _ => by rwa [if_pos ‹_›]⟩
  · next hfollow =>
    rw [Bool.not_eq_true, Bool.or_eq_false_iff] at hfollow
    exact ⟨h, fun htouched => Bool.noConfusion (hfollow.1.symm.trans htouched)⟩

/-- Where the directories are taken over, an on-demand root that was plain goes with its directory,
unless it is configured still and no longer on demand. -/
theorem Steady.dispatch_followed (h : e.Steady) (change : SettingsChange) :
    (e.followed change).dispatch.Steady := by
  have hsound := h.sound.upkeeps (upkeeps_followed h.sound.mounts change)
  have hcanonical : (e.followed change).steward.directories.Canonical := by
    rw [steward_followed]
    exact Steward.canonical_applySettings h.canonical ..
  refine ⟨hsound.upkeep .dispatch, rfl, hcanonical, fun q hq hplain => ?_⟩
  obtain ⟨honDemand, hplaces⟩ := isOnDemand_followed (Watches.isOnDemand_of_followAll hq)
  have hflattens := (Steward.edits_applySettings h.canonical h.sound.wellFormed
    (Steward.removablePlaces_of_mounts h.sound.mounts) e.settings change).flattensAt
    h.sound.wellFormed
  rw [← steward_followed, ← roots_followed] at hflattens
  suffices hsingle : q ∈ (e.followed change).steward.directories.singlePlaces from hsingle
  rcases hflattens q hplain with hsingle | hold
  · exact hsingle
  have hbefore := h.plain q honDemand hold
  cases htouched : change.touchesDirectories with
  | false =>
    have hsame := e.steward.directories_applySettings e.roots e.settings htouched
    rw [← steward_followed] at hsame
    exact hsame ▸ hbefore
  | true =>
    -- the directory is no longer configured, so its root has gone, and the record with it
    have hdropped := hplaces htouched
    rw [steward_followed] at hdropped
    obtain ⟨event, hevent, hended⟩ := Steward.ended_of_dropped h.canonical h.sound.wellFormed
      htouched (Directories.mem_places_iff.2 (.inl hbefore)) hdropped hold.isRoot
    rw [← roots_followed] at hevent
    have hrecorded := Watches.contains_of_isOnDemand hq
    exact absurd hended ((Watches.contains_followAll.1 hrecorded).2 event hevent)

theorem Steady.applied (h : e.Steady) (change : SettingsChange) : (e.applied change).Steady :=
  (h.dispatch_followed change).undisturbed (e.undisturbed_applied change)
    (h.sound.upkeeps (upkeeps_applied h.sound.mounts change)) rfl

/-! ### Moves -/

theorem Steady.adopt (h : e.Steady) (settings : Settings) : (e.adopt settings).Steady := by
  rw [Engine.adopt]
  split
  · exact h
  · next change hchange =>
    let e₀ : Engine := { e with settings }
    have h₀ : e₀.Steady := ⟨⟨h.sound.wellFormed, h.sound.mounts, h.sound.attached⟩, h.quiet,
      h.canonical, h.plain⟩
    have hback := (h₀.applied change).restoreAfter (e₀.removedBy change)
    refine hback.undisturbed (e₀.undisturbed_applyChange change)
      (h₀.sound.upkeeps (upkeeps_applyChange h₀.sound.mounts change)) ?_
    rcases e₀.applyChange_eq change with heq | heq
    · exact heq ▸ hback.quiet
    · rw [heq, (sameView_saveSnapshot _).roots]
      exact hback.quiet

theorem Steady.handleRelease (h : e.Steady) (number : Nat) (requester : Requester) :
    (e.handleRelease number requester).Steady := by
  have hback := (h.letGo requester).restoreAfter (e.watches.release e.roots requester).2.2
  exact hback.undisturbed ((sameView_emit _ rfl).undisturbed rfl)
    (h.sound.upkeeps (upkeeps_handleRelease e number requester)) hback.quiet

theorem Steady.handleVolume (h : e.Steady) (event : VolumeEvent) : (e.handleVolume event).Steady := by
  have hdirectories := Steward.directories_followVolume (w := e.steward) e.roots event
  have hchanges : Changes Location.IsSpelled e.roots (e.steward.followVolume e.roots event).2 :=
    Steward.changes_followVolume (fun _ _ _ hplace => hplace.isSpelled) e.roots
  refine h.dispatch (h.sound.retain hchanges (fun place hplace => ?_) rfl) hdirectories
    ((Steward.edits_followVolume h.canonical h.sound.wellFormed event).flattensAt
      h.sound.wellFormed) fun q hq _ => hq
  refine (Steward.contains_mounts_followVolume hplace).imp_right ?_
  rintro ⟨path, rfl⟩
  exact path.location_isSpelled

theorem Steady.handleProbed (h : e.Steady) (number : Nat) {p : ProbedRequest} (hp : p.IsGenuine) :
    (e.handleProbed number (.ok p)).Steady := by
  suffices happlied : (e.applyProbed p).1.dispatch.Steady from
    happlied.undisturbed ((sameView_emit _ rfl).undisturbed rfl)
      ⟨happlied.sound.wellFormed, happlied.sound.mounts, happlied.sound.attached⟩ rfl
  rcases e.applyProbed_cases p with heq | ⟨a, happly, hholdings, -⟩
  · rw [heq]
    exact h.undisturbed (undisturbed_dispatch h.quiet) (h.sound.upkeep .dispatch) rfl
  · simp only [holdings, Prod.mk.injEq] at hholdings
    obtain ⟨hsteward, hroots, hwatches⟩ := hholdings
    refine h.dispatch (h.sound.applyProbed hp.isCanonical) (by rw [hsteward]) ?_ fun q hq hplain => ?_
    · rw [hroots]
      exact (Watches.edits_apply hp.isCanonical.1 happly).flattensAt h.sound.wellFormed
    · rw [hwatches] at hq
      refine (Watches.isOnDemand_of_apply happly hq).resolve_right ?_
      rintro ⟨rfl, hfree, -⟩
      have hroot := (h.sound.wellFormed.owner?_eq_none_iff.1 hfree).1
      exact Bool.noConfusion (hroot.symm.trans hplain.isRoot)

/-- Every move keeps the engine steady. -/
theorem Steady.step (h : e.Steady) {move : EngineMove} (hmove : move.IsGenuine) :
    (e.step move).Steady := by
  rcases move.kinds with hidle | ⟨number, requester, rfl⟩ | ⟨number, p, rfl⟩ | ⟨settings, rfl⟩ |
    ⟨event, rfl⟩
  · exact h.undisturbed (undisturbed_step h.quiet hidle) (h.sound.step hmove) (quiet_step h.quiet move)
  · exact h.handleRelease number requester
  · exact h.handleProbed number hmove
  · exact h.adopt settings
  · exact h.handleVolume event

theorem Steady.run (h : e.Steady) {moves : List EngineMove}
    (hmoves : ∀ move ∈ moves, move.IsGenuine) : (e.run moves).Steady := by
  induction moves generalizing e with
  | nil => exact h
  | cons move moves ih =>
    obtain ⟨hmove, hmoves⟩ := List.forall_mem_cons.1 hmoves
    exact ih (h.step hmove) hmoves

theorem steady_start (buffered settings : Settings) (environment : Environment)
    (systemLocations : List Location) (disk : Disk) :
    (new buffered settings environment systemLocations disk).start.Steady where
  sound := sound_start buffered settings environment systemLocations disk
  quiet := rfl
  canonical := by
    have hsteward := (lends_start buffered settings environment systemLocations disk).steward
    rw [hsteward]
    exact Steward.canonical_directoriesOf _ settings
  plain q hq := by
    obtain ⟨eligibility, hwatches⟩ :=
      watches_start buffered settings environment systemLocations disk
    rw [hwatches] at hq
    exact Bool.noConfusion hq

/-- An engine is steady after its start and any genuine moves. -/
theorem steady_run (buffered settings : Settings) (environment : Environment)
    (systemLocations : List Location) (disk : Disk) {moves : List EngineMove}
    (hmoves : ∀ move ∈ moves, move.IsGenuine) :
    ((new buffered settings environment systemLocations disk).start.run moves).Steady :=
  (steady_start buffered settings environment systemLocations disk).run hmoves

end Engine

end IndexControl
