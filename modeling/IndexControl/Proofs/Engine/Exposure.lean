import IndexControl.Proofs.Engine.Mirror
import IndexControl.Proofs.Engine.Upkeep
import IndexControl.Proofs.Steward.Resync

/-!
# When a release removes a configured root

Roots of configured directories stay when nobody watches them: whenever directories are taken over
or roots brought back, the configured places are no longer on demand. A request for a configured
directory that no root covers makes its place on demand nevertheless, and then the release of its
last requester removes the root there, even if the directory has been added as a configured one in
the meantime.

## Main definitions

* `Engine.Exposes`: a configured place that is on demand.

## Main results

* `Engine.Upkeep.exposes`, `Engine.exposes_of_applyProbed`: only such a request exposes a place.
* `Engine.exposes_of_run`: the request that exposed a place.
* `Engine.crawled_handleRelease`: what the crawler is told of a release.
* `Engine.released_configured_iff`: which configured roots a release removes.
-/

namespace IndexControl

namespace Steward

theorem spares_syncRoots (w : Steward) (s : RootSet) : s.Spares (w.syncRoots s) := by
  refine RootSet.spares_foldl (fun s d => ?_) s w.configured
  rw [addDirectory]
  split
  · exact .refl s
  · exact RootSet.spares_add ..

end Steward

namespace Watches

variable {w : Watches} {s : RootSet} {q : Location} {requester : Requester}

theorem spares_restoreSuspended (w : Watches) (s : RootSet) :
    s.Spares (w.restoreSuspended s).2.1 := by
  rw [restoreSuspended]
  generalize w.suspended.keys.filter _ = places
  induction places generalizing w s with
  | nil => exact .refl s
  | cons place places ih =>
    have hadd := RootSet.spares_add s place .onDemand
    rw [← (restoreOne_cases w s place).1] at hadd
    exact hadd.trans (ih _ _)

/-- Where only roots have records, a release removes the roots that are there on demand and are
held for nobody else. -/
theorem mem_removed_iff (h : w.Attached s) (hquiet : s.events = []) :
    q ∈ (w.release s requester).2.2 ↔ q ∈ w.freed requester := by
  have hcontains {place : Location} (hplace : place ∈ w.freed requester) :
      w.records.contains place = true :=
    contains_of_isOnDemand (isOnDemand_of_mem_freed hplace)
  have hcanonical : ∀ place ∈ w.freed requester, place.canonical = place :=
    fun place hplace => (h.canonical place (.inl (hcontains hplace))).2
  rw [roots_release]
  constructor
  · intro hq
    obtain ⟨place, hplace, rfl⟩ := RootSet.mem_removeEach hq
    rwa [hcanonical place hplace]
  · intro hq
    refine RootSet.mem_removeEach_of_isRoot (OrderedMap.nodup_keys _) hcanonical hq ?_
    refine (h.rooted q (hcontains hq)).resolve_right ?_
    rintro ⟨event, hevent, -⟩
    rw [hquiet] at hevent
    exact List.not_mem_nil hevent

end Watches

namespace Engine

variable {e e' : Engine} {q : Location}

/-- A configured place is exposed where it is on demand: the release of its last requester removes
the root there. -/
def Exposes (e : Engine) (place : Location) : Prop :=
  place ∈ e.steward.directories.places ∧ e.watches.isOnDemand place = true

/-- Following the configured directories leaves no place exposed. -/
theorem not_exposes_followDirectories (e : Engine) (q : Location) :
    ¬e.followDirectories.Exposes q := by
  rintro ⟨hplace, honDemand⟩
  have hout := (Watches.isOnDemand_markStatics.1 honDemand).2
  rw [Steward.map_configured] at hout
  exact hout hplace

/-- No part of a move that applies no request exposes a place. -/
theorem Upkeep.exposes (h : Upkeep e e') (hq : e'.Exposes q) : e.Exposes q := by
  cases h with
  | retain hroots hmounts hdirectories hwatches => exact ⟨hdirectories ▸ hq.1, hwatches ▸ hq.2⟩
  | adopt hroots hmounts hwatches => exact (not_exposes_followDirectories _ q hq).elim
  | release requester =>
    exact ⟨hq.1, (Watches.isOnDemand_release (s := e.roots) |>.1 hq.2).1⟩
  | restore => exact (not_exposes_followDirectories _ q hq).elim
  | dispatch => exact ⟨hq.1, Watches.isOnDemand_of_followAll hq.2⟩

theorem Upkeeps.exposes (h : Upkeeps e e') (hq : e'.Exposes q) : e.Exposes q := by
  induction h with
  | refl => exact hq
  | tail _ hpart ih => exact ih (hpart.exposes hq)

theorem steward_applyProbed (e : Engine) (p : ProbedRequest) :
    (e.applyProbed p).1.steward = e.steward := by
  rw [applyProbed]
  cases e.watches.apply e.roots p with
  | error cause => rfl
  | ok a =>
    simp only
    split <;> rfl

/-- A request exposes a configured place where no root covers it and the request makes it a
root. -/
structure ExposedIn (e : Engine) (p : ProbedRequest) (place : Location) : Prop where
  target : p.place = place
  configured : place ∈ e.steward.directories.places
  uncovered : e.roots.owner? place = none
  granted : (e.applyProbed p).2 = .ok (.rootAdded place)

/-- A request exposes a place only by making it a root. -/
theorem exposes_of_applyProbed {p : ProbedRequest} (hq : (e.applyProbed p).1.Exposes q) :
    e.Exposes q ∨ e.ExposedIn p q := by
  obtain ⟨hplace, honDemand⟩ := hq
  rw [steward_applyProbed] at hplace
  rw [applyProbed] at honDemand
  cases happly : e.watches.apply e.roots p with
  | error cause =>
    rw [happly] at honDemand
    exact .inl ⟨hplace, honDemand⟩
  | ok a =>
    simp only [happly] at honDemand
    have honDemand : a.watches.isOnDemand q = true := by
      split at honDemand <;> exact honDemand
    refine (Watches.isOnDemand_of_apply happly honDemand).imp (⟨hplace, ·⟩) ?_
    rintro ⟨rfl, huncovered, houtcome⟩
    exact ⟨rfl, hplace, huncovered, by simp only [applyProbed, happly, houtcome]⟩

/-- A move that exposes a place applies a request for it. -/
theorem exposes_of_step (he : e.Sound) {move : EngineMove} (hq : (e.step move).Exposes q) :
    e.Exposes q ∨ ∃ number p, move = .handle (.probed number (.ok p)) ∧ e.ExposedIn p q := by
  rcases isUpkeep_or_probed move with hupkeep | ⟨number, p, rfl⟩
  · exact .inl (Upkeeps.exposes (upkeeps_step he.mounts hupkeep) hq)
  · have happlied := Upkeeps.exposes (upkeeps_handleProbed e number p) hq
    exact (exposes_of_applyProbed happlied).imp_right fun hexposed => ⟨number, p, rfl, hexposed⟩

/-- A request among some moves exposes a place, and the later ones leave it exposed. -/
structure ExposedBy (e : Engine) (moves : List EngineMove) (place : Location)
    (before : List EngineMove) (number : Nat) (p : ProbedRequest) (after : List EngineMove) :
    Prop where
  split : moves = before ++ .handle (.probed number (.ok p)) :: after
  exposed : (e.run before).ExposedIn p place
  since : ∀ next, next <+: after →
    (e.run (before ++ .handle (.probed number (.ok p)) :: next)).Exposes place

/-- A place that is exposed after some moves was exposed before, or by one of them. -/
theorem exposes_of_run (he : e.Sound) {moves : List EngineMove}
    (hmoves : ∀ move ∈ moves, move.IsGenuine) (hq : (e.run moves).Exposes q) :
    e.Exposes q ∨ ∃ before number p after, e.ExposedBy moves q before number p after := by
  refine or_iff_not_imp_left.2 fun hfirst => ?_
  obtain ⟨before, move, after, rfl, hold, hsince⟩ := exists_since (P := (Exposes · q)) hfirst hq
  have hbefore : ∀ move ∈ before, move.IsGenuine :=
    fun move hmove => hmoves move (List.mem_append_left _ hmove)
  have hstep := hsince [] List.nil_prefix
  rw [run_concat] at hstep
  obtain ⟨number, p, rfl, hexposed⟩ :=
    (exposes_of_step (he.run hbefore) hstep).resolve_left hold
  exact ⟨before, number, p, after, rfl, hexposed, hsince⟩

theorem not_exposes_start (buffered settings : Settings) (environment : Environment)
    (systemLocations : List Location) (disk : Disk) (q : Location) :
    ¬(new buffered settings environment systemLocations disk).start.Exposes q := by
  intro hq
  have hnew := sound_new buffered settings environment systemLocations disk
  exact Bool.noConfusion (Upkeeps.exposes (upkeeps_start hnew.mounts) hq).2

/-! ### Releases -/

theorem spares_restoreUncovered (e : Engine) :
    ∃ events, e.restoreUncovered.crawled = e.crawled ++ (e.roots.events ++ events) ∧
      ∀ event ∈ events, event.removed? = none := by
  obtain ⟨events, hevents, hall⟩ := (e.steward.spares_syncRoots e.roots).trans
    (e.watches.spares_restoreSuspended (e.steward.syncRoots e.roots))
  refine ⟨events, ?_, hall⟩
  rw [restoreUncovered, crawled_dispatch, told, ← hevents]
  rfl

/-- The crawler is told of a release that the roots it removes are removed, and of the removal of
no other root. -/
theorem crawled_handleRelease (hquiet : e.roots.events = []) (number : Nat)
    (requester : Requester) :
    ∃ news, (e.handleRelease number requester).crawled = e.crawled ++ news ∧
      ∀ event ∈ news, ∀ q, event.removed? = some q →
        q ∈ (e.watches.release e.roots requester).2.2 := by
  let removed := (e.watches.release e.roots requester).2.2
  obtain ⟨events, hevents, hall⟩ := e.roots.events_removeEach (e.watches.freed requester)
  rw [hquiet, List.nil_append] at hevents
  have hremoved (event) (hevent : event ∈ events) (q) (hq : event.removed? = some q) :
      q ∈ removed := by
    obtain ⟨place, hplace, flags, rfl⟩ := hall event hevent
    exact Option.some.inj hq ▸ hplace
  have hdispatch : (e.letGo requester).crawled = e.crawled ++ events := by
    rw [letGo, crawled_dispatch, told, ← hevents]
    rfl
  have hrestore : ∃ back, ((e.letGo requester).restoreAfter removed).crawled =
      (e.letGo requester).crawled ++ back ∧ ∀ event ∈ back, event.removed? = none := by
    rw [restoreAfter]
    split
    · exact ⟨[], (List.append_nil _).symm, fun _ h => absurd h List.not_mem_nil⟩
    · exact spares_restoreUncovered (e.letGo requester)
  obtain ⟨back, hback, hspared⟩ := hrestore
  refine ⟨events ++ back, ?_, fun event hevent q hq => ?_⟩
  · rw [← List.append_assoc, ← hdispatch, ← hback]
    exact (sameView_emit _ rfl).crawled
  · rcases List.mem_append.1 hevent with hevent | hevent
    · exact hremoved event hevent q hq
    · rw [hspared event hevent] at hq
      contradiction

/-- **A release removes a configured root just where a request has exposed its place.** After any
moves the release of a requester removes the root of a configured place, or tells the crawler of
its removal, only if it is held for that requester alone and a request has made the place a root
on demand: at that time the place was configured already and no root covered it, and it has stayed
configured and on demand since. Where this has happened the root is removed. -/
theorem released_configured_iff (buffered settings : Settings) (environment : Environment)
    (systemLocations : List Location) (disk : Disk) {moves : List EngineMove}
    (hmoves : ∀ move ∈ moves, move.IsGenuine) (number : Nat) (requester : Requester) :
    let start := (new buffered settings environment systemLocations disk).start
    let e := start.run moves
    let removed := (e.watches.release e.roots requester).2.2
    .answer number (.released removed) ∈ (e.handleRelease number requester).outbox ∧
    (∃ news, (e.handleRelease number requester).crawled = e.crawled ++ news ∧
      ∀ event ∈ news, ∀ q, event.removed? = some q → q ∈ removed) ∧
    ∀ q ∈ e.steward.directories.places, q ∈ removed ↔
      (∃ record, e.watches.records.find? q = some record ∧
        record.isHeldOnlyBy requester = true) ∧
      ∃ before number p after, start.ExposedBy moves q before number p after := by
  intro start e removed
  have hstart : start.Sound := sound_start buffered settings environment systemLocations disk
  have hsound : e.Sound := hstart.run hmoves
  have hquiet : e.roots.events = [] :=
    ((inStep_start buffered settings environment systemLocations disk).run moves).quiet
  refine ⟨List.mem_append_right _ List.mem_cons_self,
    crawled_handleRelease hquiet number requester, fun q hq => ?_⟩
  rw [Watches.mem_removed_iff hsound.attached hquiet]
  constructor
  · intro hfreed
    obtain ⟨record, hfind, hheld, -⟩ := Watches.mem_freed_iff.1 hfreed
    have hexposed : e.Exposes q := ⟨hq, Watches.isOnDemand_of_mem_freed hfreed⟩
    exact ⟨⟨record, hfind, hheld⟩, (exposes_of_run hstart hmoves hexposed).resolve_left
      (not_exposes_start buffered settings environment systemLocations disk q)⟩
  · rintro ⟨⟨record, hfind, hheld⟩, before, number, p, after, hexposed⟩
    have hnow : e.Exposes q := by
      have hsince := hexposed.since after (List.prefix_refl after)
      rwa [← hexposed.split] at hsince
    obtain ⟨record', hfind', honDemand⟩ := Watches.isOnDemand_iff.1 hnow.2
    obtain rfl := Option.some.inj (hfind.symm.trans hfind')
    exact Watches.mem_freed_iff.2 ⟨record, hfind, hheld, honDemand⟩

/-- The request of `x` for `/mnt/d/p`, made while the volume at `/mnt/d` was away, is what lets the
release of `x` remove the root that has come back with the volume. -/
theorem released_configured_iff_remount :
    let nowhere : Environment := ⟨fun _ => none, none, fun _ => none, fun _ => false⟩
    let settings : Settings :=
      { Settings.default with singleDirectories := [], recursiveDirectories := ["/mnt/d/p"] }
    let place := (Path.ofString "/mnt/d/p").location
    let attributes :=
      Attributes.empty.setFile place (.known ⟨.directory, none, none, false⟩)
    let mounted : VolumeEvent := .mounted ⟨Path.ofString "/mnt/d", none, false⟩
    let moves : List EngineMove := [.handle (.volume mounted),
      .handle (.volume (.unmounted (Path.ofString "/mnt/d"))),
      .handle (.probed 2 (IndexRequest.probe attributes false (.directory "/mnt/d/p" (some "x")))),
      .handle (.volume mounted)]
    ∃ before number p after,
      (new settings settings nowhere [] ⟨.empty⟩).start.ExposedBy moves place before number p
        after := by
  intro nowhere settings place attributes mounted moves
  have hmoves : ∀ move ∈ moves, move.IsGenuine := by
    simp only [moves, List.forall_mem_cons]
    exact ⟨trivial, trivial, EngineMove.isGenuine_probed .., trivial, by simp⟩
  obtain ⟨-, -, hiff⟩ := released_configured_iff settings settings nowhere [] ⟨.empty⟩ hmoves 4 "x"
  exact ((hiff place (by decide)).1 (by decide)).2

/-- A configured directory comes back with its volume and goes with the requester: `x` asks for
`/mnt/d/p` while the volume at `/mnt/d` is away, and is released after it has come back. -/
theorem released_configured_after_remount :
    let nowhere : Environment := ⟨fun _ => none, none, fun _ => none, fun _ => false⟩
    let settings : Settings :=
      { Settings.default with singleDirectories := [], recursiveDirectories := ["/mnt/d/p"] }
    let place := (Path.ofString "/mnt/d/p").location
    let attributes :=
      Attributes.empty.setFile place (.known ⟨.directory, none, none, false⟩)
    let request : IndexRequest := .directory "/mnt/d/p" (some "x")
    let mounted : VolumeEvent := .mounted ⟨Path.ofString "/mnt/d", none, false⟩
    let e := (new settings settings nowhere [] ⟨.empty⟩).start.run [.handle (.volume mounted),
      .handle (.volume (.unmounted (Path.ofString "/mnt/d"))), .handle (.call 2 (.index request)),
      .handle (.probed 2 (request.probe attributes false)), .handle (.volume mounted)]
    let flags := (Flags.checkTime.union .recurse).union .monitor
    place ∈ e.steward.directories.places ∧ e.roots.flagsAt? place = some flags ∧
      place ∈ (e.watches.release e.roots "x").2.2 ∧
      .removed place flags ∉ e.crawled ∧ .removed place flags ∈ (e.handleRelease 4 "x").crawled := by
  decide

end Engine

end IndexControl
