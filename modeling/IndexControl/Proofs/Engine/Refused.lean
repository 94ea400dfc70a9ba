import IndexControl.Proofs.Engine.Arrival
import IndexControl.Proofs.Engine.Transient
import IndexControl.Proofs.Path.Resolution

/-!
# What is known in places that are never indexed

The steward refuses to add anything in a system location, whether it is configured or a volume.
Nobody else does: a request for a directory there is granted like any other one, and what a request
has brought stays until it goes for another reason. It comes back when it has been suspended.

## Main definitions

* `Engine.Admits`: the moves by which the engine comes to know a place in a system location.
* `Engine.LetIn`: such a move among some moves, since which the place has been known.

## Main results

* `Engine.Steady.knows_or_admits`: how a place in a system location comes to be known.
* `Engine.knows_system_iff_letIn`: which places in system locations are known after some moves.
-/

namespace IndexControl

namespace Engine

open RootSet

variable {e : Engine} {q : Location}

/-- Somebody asks for a place, or a removable volume is mounted at another spelling of it. Only the
spelling of the volume is looked at. -/
def Admits (e : Engine) (move : EngineMove) (place : Location) : Prop :=
  e.AsksFor move place ∨ ∃ spelled, spelled ≠ place ∧ spelled.canonical = place ∧
    (e.step move).steward.IndexesVolume spelled

/-! ### The system locations -/

/-- No move reaches the system locations. -/
theorem systemLocations_step (hquiet : e.roots.events = []) (move : EngineMove) :
    (e.step move).steward.systemLocations = e.steward.systemLocations := by
  rcases move.kinds with hidle | ⟨number, requester, rfl⟩ | ⟨number, p, rfl⟩ | ⟨settings, rfl⟩ |
    ⟨event, rfl⟩
  · rw [(undisturbed_step hquiet hidle).steward]
  · exact congrArg Steward.systemLocations (e.steward_handleRelease number requester)
  · exact congrArg Steward.systemLocations (e.steward_applyProbed p)
  · rw [step, adopt]
    split
    · rfl
    · next change hchange =>
      rw [steward_applyChange, steward_followed]
      exact Steward.systemLocations_applySettings ..
  · exact e.steward.systemLocations_followVolume e.roots event

theorem isSystemLocation_step (hquiet : e.roots.events = []) (move : EngineMove)
    (place : Location) : (e.step move).steward.isSystemLocation place = e.steward.isSystemLocation place := by
  rw [Steward.isSystemLocation, systemLocations_step hquiet, Steward.isSystemLocation]

/-! ### Moves -/

/-- A place in a system location that is known after a move was so before, or the move admits it. -/
theorem Steady.knows_or_admits (h : e.Steady) {move : EngineMove} (hmove : move.IsGenuine)
    (hsystem : e.steward.isSystemLocation q = true) (hknows : (e.step move).Knows q) :
    e.Knows q ∨ e.Admits move q := by
  have hsame := isSystemLocation_step h.quiet move
  have hother {spelled : Location} (hallowed : e.steward.isSystemLocation spelled = false) :
      spelled ≠ q := by
    rintro rfl
    exact Bool.noConfusion (hsystem.symm.trans hallowed)
  refine ((h.gains_step hmove).known q hknows).elim .inl fun harrival => ?_
  cases harrival with
  | asked hasks => exact .inr (.inl hasks)
  | @brought m spelled hmounted hindexes hplace =>
    subst hmounted
    cases hremovable : m.removable with
    | false =>
      have hcanonical := hindexes.canonical_eq h.canonical hremovable
      rw [Steward.IndexesWith, hremovable, if_neg Bool.false_ne_true] at hindexes
      exact absurd (hcanonical.symm.trans hplace) (hother hindexes.1.2)
    | true =>
      rw [Steward.IndexesWith, if_pos hremovable] at hindexes
      obtain ⟨-, rfl, hallowed⟩ := hindexes
      refine .inr (.inr ⟨m.path.location, hother hallowed, hplace, ?_, (hsame _).trans hallowed⟩)
      have hsteward : (e.step (.handle (.volume (.mounted m)))).steward =
          { e.steward with mounts := e.steward.mounts.insert m.path.location m } :=
        Steward.steward_mount e.roots m
      rw [hsteward, Steward.mem_removablePlaces_iff]
      exact ⟨m, by rw [OrderedMap.find?_insert, if_pos rfl], hremovable⟩
  | resynced hresyncs hindexes =>
    exact absurd rfl (hother ((hsame q).symm.trans hindexes.2))
  | restored hremoves hknown => exact .inl hknown
  | @enabled settings spelled hadopt hbefore hafter hvolume hplace =>
    subst hadopt
    refine .inr (.inr ⟨spelled, hother hvolume.2, hplace, ?_, (hsame _).trans hvolume.2⟩)
    have hmounts : (e.step (.adopt settings)).steward.mounts = e.steward.mounts :=
      e.mounts_adopt settings
    rw [Steward.removablePlaces, hmounts]
    exact hvolume.1

/-! ### Runs -/

/-- A move among some has admitted a place, and it has been known since. -/
structure LetIn (e : Engine) (moves : List EngineMove) (place : Location)
    (before : List EngineMove) (move : EngineMove) (after : List EngineMove) : Prop where
  split : moves = before ++ move :: after
  admits : (e.run before).Admits move place
  since : ∀ next, next <+: after → (e.run (before ++ move :: next)).Knows place

/-- Where a place starts at the root, only a request lets it in. -/
theorem Steady.asksFor_of_admits (h : e.Steady) {move : EngineMove} (hmove : move.IsGenuine)
    (hadmits : e.Admits move q) (habsolute : q.isAbsolute = true) : e.AsksFor move q := by
  refine hadmits.resolve_right ?_
  rintro ⟨spelled, hne, rfl, hvolume⟩
  have hspelled : spelled.IsSpelled :=
    Steward.removablePlaces_of_mounts (h.step hmove).sound.mounts spelled hvolume.1
  exact hne (hspelled.canonical_of_isAbsolute habsolute).symm

section

variable (buffered settings : Settings) (environment : Environment)
  (systemLocations : List Location) (disk : Disk)

theorem systemLocations_run (moves : List EngineMove) :
    ((new buffered settings environment systemLocations disk).start.run
      moves).steward.systemLocations = systemLocations := by
  induction moves using List.reverseRecOn with
  | nil =>
    have hsteward := (lends_start buffered settings environment systemLocations disk).steward
    exact congrArg Steward.systemLocations hsteward
  | append_singleton moves move ih =>
    have hquiet :=
      ((inStep_start buffered settings environment systemLocations disk).run moves).quiet
    rw [run_concat, systemLocations_step hquiet, ih]

/-- At the start nothing is known in the system locations. -/
theorem not_knows_start (hsystem : systemLocations.any q.startsWith = true) :
    ¬(new buffered settings environment systemLocations disk).start.Knows q := by
  let start := (new buffered settings environment systemLocations disk).start
  have hlends := lends_start buffered settings environment systemLocations disk
  obtain ⟨eligibility, hwatches⟩ := watches_start buffered settings environment systemLocations disk
  have hnone (x : Location) : ¬start.watches.isOnDemand x = true := by
    rw [hwatches]
    exact Bool.false_ne_true
  rintro (hroot | hsuspended)
  · have hflags := hlends.overlaid.elsewhere q (hnone q) fun above habove =>
      absurd habove (hnone above)
    obtain ⟨f, hf⟩ := isRoot_iff_flagsAt?.1 hroot
    have hallowed := (Steward.wanted?_eq_some (hflags.symm.trans hf)).1
    exact Bool.noConfusion (hsystem.symm.trans hallowed)
  · rw [hwatches] at hsuspended
    exact Bool.noConfusion hsuspended

/-- **Only requests get into places that are never indexed.** After the start and any moves:

* the system locations are those that were given;
* a place in one of them is known, as a root or as a suspended one, exactly where a move has admitted
  it and it has been known ever since;
* what admits a place that starts at the root is a request for the directory there, and such a request
  is granted wherever the directory is: it makes the place a root. -/
theorem knows_system_iff_letIn {moves : List EngineMove} (hmoves : ∀ move ∈ moves, move.IsGenuine) :
    let start := (new buffered settings environment systemLocations disk).start
    let e := start.run moves
    e.steward.systemLocations = systemLocations ∧
    (∀ q, e.steward.isSystemLocation q = true →
      (e.Knows q ↔ ∃ before move after, start.LetIn moves q before move after)) ∧
    (∀ q before move after, q.isAbsolute = true → start.LetIn moves q before move after →
      (start.run before).AsksFor move q) ∧
    ∀ q move, move.IsGenuine → e.AsksFor move q → (e.step move).roots.isRoot q = true := by
  intro start e
  have hsteady {before after : List EngineMove} (hsplit : moves = before ++ after) :
      (start.run before).Steady ∧ ∀ move ∈ after, move.IsGenuine := by
    obtain ⟨hbefore, hafter⟩ := List.forall_mem_append.1 (hsplit ▸ hmoves)
    exact ⟨steady_run buffered settings environment systemLocations disk hbefore, hafter⟩
  refine ⟨systemLocations_run buffered settings environment systemLocations disk moves,
    fun q hsystem => ⟨fun hknows => ?_, ?_⟩, ?_, fun q move hmove => ?_⟩
  · rw [Steward.isSystemLocation,
      systemLocations_run buffered settings environment systemLocations disk moves] at hsystem
    have hfresh := not_knows_start buffered settings environment systemLocations disk hsystem
    have hlast : (start.run moves).Knows q := hknows
    obtain ⟨before, move, after, hsplit, hunknown, hsince⟩ :=
      exists_since (P := (Knows · q)) hfresh hlast
    obtain ⟨hbefore, hlater⟩ := hsteady hsplit
    refine ⟨before, move, after, hsplit, ?_, hsince⟩
    have hfirst := hsince [] List.nil_prefix
    rw [run_concat] at hfirst
    refine (hbefore.knows_or_admits (hlater move List.mem_cons_self) ?_ hfirst).resolve_left
      hunknown
    rwa [Steward.isSystemLocation,
      systemLocations_run buffered settings environment systemLocations disk before]
  · rintro ⟨before, move, after, hletIn⟩
    have hlast := hletIn.since after (List.prefix_refl after)
    rwa [← hletIn.split] at hlast
  · intro q before move after habsolute hletIn
    obtain ⟨hbefore, hlater⟩ := hsteady hletIn.split
    exact hbefore.asksFor_of_admits (hlater move List.mem_cons_self) hletIn.admits habsolute
  · have hsteady := steady_run buffered settings environment systemLocations disk hmoves
    exact hsteady.isRoot_of_asksFor hmove

end

/-- The requester `x` asks for `/proc/x`, which lies in a system location. -/
theorem knows_system_iff_letIn_proc :
    let nowhere : Environment := ⟨fun _ => none, none, fun _ => none, fun _ => false⟩
    let settings : Settings := { Settings.default with
      singleDirectories := [], recursiveDirectories := [] }
    let place := (Path.ofString "/proc/x").location
    let attributes := Attributes.empty.setFile place (.known ⟨.directory, none, none, false⟩)
    let moves : List EngineMove := [.handle (.probed 1
      (IndexRequest.probe attributes false (.directory "/proc/x" (some "x"))))]
    let start := (new settings settings nowhere [(Path.ofString "/proc").location] ⟨.empty⟩).start
    (∀ move ∈ moves, move.IsGenuine) ∧
      ∃ before move after, start.LetIn moves place before move after := by
  intro nowhere settings place attributes moves start
  have hmoves : ∀ move ∈ moves, move.IsGenuine := by
    simp only [moves, List.forall_mem_cons]
    exact ⟨EngineMove.isGenuine_probed .., by simp⟩
  obtain ⟨-, hiff, -⟩ := knows_system_iff_letIn settings settings nowhere
    [(Path.ofString "/proc").location] ⟨.empty⟩ hmoves
  exact ⟨hmoves, (hiff place (by decide)).1 (.inl (by decide))⟩

/-- A place that is never to be indexed becomes a root. -/
theorem root_in_system_location :
    let nowhere : Environment := ⟨fun _ => none, none, fun _ => none, fun _ => false⟩
    let settings : Settings := { Settings.default with
      singleDirectories := [], recursiveDirectories := [] }
    let place := (Path.ofString "/proc/x").location
    let attributes := Attributes.empty.setFile place (.known ⟨.directory, none, none, false⟩)
    let request : IndexRequest := .directory "/proc/x" (some "x")
    let e := (new settings settings nowhere [(Path.ofString "/proc").location] ⟨.empty⟩).start.run
      [.handle (.call 1 (.index request)), .handle (.probed 1 (request.probe attributes false))]
    e.steward.isSystemLocation place = true ∧ e.roots.places = [place] := by
  decide

end Engine

end IndexControl
