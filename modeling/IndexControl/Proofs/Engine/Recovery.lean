import IndexControl.Proofs.Engine.Steady

/-!
# Watches while roots are brought back

When uncovered roots are brought back, a configured directory may cover a watched root again, and so
may a root that comes back. The record of the watched root is suspended in the first case and merged
in the second one, since a root that comes back stays.

## Main definitions

* `Engine.Recovers`: where a requester is recorded when roots have been brought back.

## Main results

* `Engine.Steady.queues_recovered`, `Engine.Steady.not_ended_recovered`: what is queued then.
* `Engine.Steady.heldAt_restoreUncovered`, `Engine.Steady.waitsAt_restoreUncovered`,
  `Engine.Steady.recovers`: where the records go.
-/

namespace IndexControl

namespace Engine

open RootSet

variable {e e' : Engine} {requester : Requester} {root place : Location}

theorem crawled_restoreUncovered (e : Engine) :
    e.restoreUncovered.crawled = e.crawled ++ e.recovered.events := by
  rw [restoreUncovered_eq, crawled_dispatch, told, roots_recovering]
  rfl

theorem watches_restoreUncovered (e : Engine) :
    e.restoreUncovered.watches = e.recovering.watches.followAll e.recovered.events := by
  rw [restoreUncovered_eq, ← roots_recovering]
  rfl

/-! ### What is queued -/

/-- Bringing back roots removes none, and folds roots only into directories that are configured as
recursive and into roots that come back. -/
theorem Steady.queues_recovered (h : e.Steady) : ∀ event ∈ e.recovered.events,
    event.removed? = none ∧ ∀ into, event.into? = some into →
      into ∈ e.steward.directories.recursivePlaces ∨ into ∈ e.uncovered := by
  have hqueues : Queues (fun event => event.removed? = none ∧ ∀ into, event.into? = some into →
      into ∈ e.steward.directories.recursivePlaces ∨ into ∈ e.uncovered) e.roots e.recovered := by
    refine Queues.trans ((Steward.queues_syncRoots h.canonical e.roots).mono fun event hevent => ?_)
      ((queues_addEach _ _ e.uncovered).mono fun event hevent => ?_)
    · exact ⟨hevent.1, fun into hinto => .inl (hevent.2 into hinto)⟩
    · refine ⟨hevent.1, fun into hinto => .inr ?_⟩
      obtain ⟨place, hplace, rfl, -⟩ := hevent.2 into hinto
      rwa [(h.isCanonical_of_uncovered place hplace).2]
  obtain ⟨events, hevents, hall⟩ := hqueues
  rw [h.quiet, List.nil_append] at hevents
  rw [hevents]
  exact hall

/-- A root that comes back stays. -/
theorem Steady.not_ended_recovered (h : e.Steady) (hplace : place ∈ e.uncovered) :
    ∀ event ∈ e.recovered.events, event.ended? ≠ some place := by
  intro event hevent hended
  have hsync : event ∈ (e.steward.syncRoots e.roots).events := by
    refine h.wellFormed_syncRoots.not_ended_addEach h.isCanonical_of_uncovered ?_ ?_ hevent hplace
      hended
    · exact (List.pairwise_map.2 e.watches.suspended.ordered).filter _
    · exact fun q hq => (h.wellFormed_syncRoots.owner?_eq_none_iff.1 (mem_uncovered_iff.1 hq).2).1
  have hremoved := (h.queues_recovered event hevent).1
  rcases RootEvent.ended?_eq_some_iff.1 hended with hnone | ⟨into, rfl⟩
  · rw [hremoved] at hnone
    contradiction
  · rcases e.steward.isOwned_of_absorbed_syncRoots h.sound.wellFormed hsync with hold | howned
    · rw [h.quiet] at hold
      exact List.not_mem_nil hold
    · rw [RootSet.IsOwned, (mem_uncovered_iff.1 hplace).2] at howned
      exact Bool.noConfusion howned

/-! ### Where the records go -/

theorem Steady.not_mem_uncovered (h : e.Steady) (hroot : e.watches.records.contains root = true) :
    root ∉ e.uncovered := fun hmem =>
  Bool.noConfusion
    ((h.isRoot hroot).symm.trans (h.not_isRoot_of_restored (mem_uncovered_iff.1 hmem).2))

theorem heldAt_recovering (hroot : root ∉ e.uncovered) :
    e.recovering.watches.HeldAt root requester ↔ e.watches.HeldAt root requester :=
  Watches.heldAt_markStatics.trans (Watches.heldAt_restoreEach hroot _)

theorem isOnDemand_recovering_of_not_mem (hroot : root ∉ e.uncovered)
    (hplaces : root ∉ e.steward.directories.places) (honDemand : e.watches.isOnDemand root = true) :
    e.recovering.watches.isOnDemand root = true := by
  refine Watches.isOnDemand_markStatics.2 ⟨?_, by rwa [Steward.map_configured]⟩
  obtain ⟨record, hfind, hmarked⟩ := Watches.isOnDemand_iff.1 honDemand
  exact Watches.isOnDemand_iff.2
    ⟨record, (Watches.find?_restoreEach hroot ..).trans hfind, hmarked⟩

/-- A watch stays when roots are brought back, or goes along when its root is folded into one of
them. -/
theorem Steady.heldAt_restoreUncovered (h : e.Steady) (hheld : e.watches.HeldAt root requester) :
    e.restoreUncovered.watches.HeldAt root requester ∨
      ∃ into, .absorbed root into ∈ e.recovered.events ∧
        (e.restoreUncovered.watches.HeldAt into requester ∨
          e.restoreUncovered.watches.WaitsAt root requester ∨
          e.watches.isOnDemand root = false ∨ root ∈ e.steward.directories.places) := by
  have hroot := h.not_mem_uncovered hheld.contains
  have hrecovering : e.recovering.watches.HeldAt root requester := (heldAt_recovering hroot).2 hheld
  rw [watches_restoreUncovered]
  have hstays : ∀ event ∈ e.recovered.events, event.removed? ≠ some root := fun event hevent => by
    rw [(h.queues_recovered event hevent).1]
    exact (Option.some_ne_none root).symm
  refine (hrecovering.followAll hstays).imp_right ?_
  rintro ⟨into, hmem, hwaits | hstatic | ⟨hinto, hlater⟩⟩
  · exact ⟨into, hmem, .inr (.inl hwaits)⟩
  · refine ⟨into, hmem, .inr (.inr ?_)⟩
    by_contra! hboth
    have honDemand := isOnDemand_recovering_of_not_mem hroot hboth.2 (by simpa using hboth.1)
    exact Bool.noConfusion (honDemand.symm.trans hstatic)
  · refine ⟨into, hmem, .inl (hlater.resolve_right ?_)⟩
    rintro ⟨event, hevent, hended⟩
    have hplaces := (isOnDemand_recovering hinto).1
    rcases (h.queues_recovered _ hmem).2 into rfl with hrec | hback
    · exact hplaces (Directories.mem_places_iff.2 (.inr hrec))
    · exact h.not_ended_recovered hback event hevent hended

/-- Whoever waits goes on waiting or is recorded again when roots are brought back, unless a root at
the place that is held for others is folded into one of them. -/
theorem Steady.waitsAt_restoreUncovered (h : e.Steady) (hwaits : e.watches.WaitsAt place requester) :
    e.restoreUncovered.watches.WaitsAt place requester ∨
      e.restoreUncovered.watches.HeldAt place requester ∨
      e.watches.isOnDemand place = true ∧ ¬e.watches.HeldAt place requester ∧
        ∃ into, .absorbed place into ∈ e.recovered.events := by
  rw [watches_restoreUncovered]
  have hnodup : e.uncovered.Nodup := (OrderedMap.nodup_keys _).filter _
  rcases hwaits.restoreEach hnodup (e.steward.syncRoots e.roots) with hwaits | ⟨hmem, hheld⟩
  · have hrecovering : e.recovering.watches.WaitsAt place requester :=
      Watches.waitsAt_markStatics.2 hwaits
    refine (hrecovering.followAll e.recovered.events).imp_right ?_
    rintro ⟨honDemand, hnot, into, hevent⟩
    have hplace : place ∉ e.uncovered := fun hmem =>
      h.not_ended_recovered hmem _ hevent rfl
    exact .inr ⟨(isOnDemand_recovering honDemand).2.resolve_right hplace,
      fun hheld => hnot ((heldAt_recovering hplace).2 hheld), into, hevent⟩
  · have hrecovering : e.recovering.watches.HeldAt place requester :=
      Watches.heldAt_markStatics.2 hheld
    exact .inr (.inl (hrecovering.stays (h.not_ended_recovered hmem)))

/-- Where a requester is recorded when uncovered roots may have been brought back, which the crawler
is told by some notifications. -/
structure Recovers (e e' : Engine) (news : List RootEvent) (requester : Requester) : Prop where
  steward : e'.steward = e.steward
  crawled : e'.crawled = e.crawled ++ news
  held : ∀ root, e.watches.HeldAt root requester →
    e'.watches.HeldAt root requester ∨ ∃ into, .absorbed root into ∈ news ∧
      (e'.watches.HeldAt into requester ∨ e'.watches.WaitsAt root requester ∨
        e.watches.isOnDemand root = false ∨ root ∈ e.steward.directories.places)
  waits : ∀ place, e.watches.WaitsAt place requester →
    e'.watches.WaitsAt place requester ∨ e'.watches.HeldAt place requester ∨
      e.watches.isOnDemand place = true ∧ ¬e.watches.HeldAt place requester ∧
        ∃ into, .absorbed place into ∈ news

/-- Whether roots are brought back or not, the requester is recorded as it should be. -/
theorem Steady.recovers (h : e.Steady) (removed : List Location) (requester : Requester) :
    ∃ news, e.Recovers (e.restoreAfter removed) news requester := by
  rw [Engine.restoreAfter]
  split
  · exact ⟨[], rfl, (List.append_nil _).symm, fun _ => .inl, fun _ => .inl⟩
  · exact ⟨e.recovered.events, rfl, crawled_restoreUncovered e, fun _ => h.heldAt_restoreUncovered,
      fun _ => h.waitsAt_restoreUncovered⟩

end Engine

end IndexControl
