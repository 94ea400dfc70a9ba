import IndexControl.Proofs.Engine.Requests
import IndexControl.Proofs.Watches.Orderly

/-!
# The records between moves

The records of watches follow the roots with a delay: what happens to the roots is queued, and the
queue is followed at the end of each part of a move. Between moves nothing is queued, so that only
roots have records, and the suspended records are those for which somebody waits.

## Main results

* `Engine.orderly_run`: the records are orderly after the start and any moves.
* `Engine.run_records_orderly`: the queue, the records and the suspended records between moves.
-/

namespace IndexControl

namespace Engine

variable {e e' : Engine}

theorem Upkeep.orderly (hpart : Upkeep e e') (h : e.watches.Orderly) : e'.watches.Orderly := by
  have hfollow {e : Engine} (h : e.watches.Orderly) : e.followDirectories.watches.Orderly :=
    ⟨(h.markStatics _).recorded, (h.markStatics _).suspended⟩
  cases hpart with
  | retain hroots hmounts hdirectories hwatches => rwa [hwatches]
  | adopt hroots hmounts hwatches => exact hfollow (hwatches ▸ h)
  | release requester => exact h.release e.roots requester
  | restore => exact hfollow (h.restoreSuspended _)
  | dispatch => exact h.followAll e.roots.events

theorem Upkeeps.orderly (hparts : Upkeeps e e') (h : e.watches.Orderly) : e'.watches.Orderly := by
  induction hparts with
  | refl => exact h
  | tail _ hpart ih => exact hpart.orderly ih

theorem orderly_applyProbed (h : e.watches.Orderly) (p : ProbedRequest) :
    (e.applyProbed p).1.watches.Orderly := by
  rw [applyProbed]
  cases happly : e.watches.apply e.roots p with
  | error cause => exact h
  | ok a =>
    simp only
    split <;> exact h.apply happly

/-- A move keeps the records orderly. -/
theorem orderly_step (he : e.Sound) (h : e.watches.Orderly) (move : EngineMove) :
    (e.step move).watches.Orderly := by
  rcases isUpkeep_or_probed move with hupkeep | ⟨number, p, rfl⟩
  · exact (upkeeps_step he.mounts hupkeep).orderly h
  · exact (upkeeps_handleProbed e number p).orderly (orderly_applyProbed h p)

theorem orderly_run (buffered settings : Settings) (environment : Environment)
    (systemLocations : List Location) (disk : Disk) {moves : List EngineMove}
    (hmoves : ∀ move ∈ moves, move.IsGenuine) :
    ((new buffered settings environment systemLocations disk).start.run moves).watches.Orderly := by
  induction moves using List.reverseRecOn with
  | nil =>
    have hnew := sound_new buffered settings environment systemLocations disk
    exact (upkeeps_start hnew.mounts).orderly Watches.orderly_empty
  | append_singleton moves move ih =>
    have hearlier : ∀ move ∈ moves, move.IsGenuine :=
      fun move hmove => hmoves move (List.mem_append_left _ hmove)
    have hsound := sound_run buffered settings environment systemLocations disk hearlier
    rw [run_concat]
    exact orderly_step hsound (ih hearlier) move

/-- **The records are in step with the roots between moves.** After the start and any moves nothing
is queued, every place with a record is a root, every suspended record is on demand and held by
some requester, and whoever is counted in a record, suspended or not, is so for at least one
request. -/
theorem run_records_orderly (buffered settings : Settings) (environment : Environment)
    (systemLocations : List Location) (disk : Disk) {moves : List EngineMove}
    (hmoves : ∀ move ∈ moves, move.IsGenuine) :
    let e := (new buffered settings environment systemLocations disk).start.run moves
    e.roots.events = [] ∧
    (∀ place, e.watches.records.contains place = true → e.roots.isRoot place = true) ∧
    (∀ place record, e.watches.suspended.find? place = some record →
      record.onDemand = true ∧ ∃ requester, record.counts.contains requester = true) ∧
    ∀ place record,
      e.watches.records.find? place = some record ∨ e.watches.suspended.find? place = some record →
      ∀ requester times, record.counts.find? requester = some times → 1 ≤ times := by
  intro e
  have hsettled : Watches.Settled e.watched :=
    settled_run buffered settings environment systemLocations disk hmoves
  have horderly : e.watches.Orderly :=
    orderly_run buffered settings environment systemLocations disk hmoves
  refine ⟨hsettled.quiet, fun place => hsettled.isRoot_of_record, fun place record hfind => ?_,
    fun place record hfind => ?_⟩
  · have hawaited := horderly.suspended place record hfind
    refine ⟨hawaited.onDemand, ?_⟩
    by_contra! hnobody
    have hempty : record.counts.isEmpty = true :=
      Watches.counts_isEmpty_iff.2 fun requester => Bool.eq_false_iff.2 (hnobody requester)
    exact Bool.noConfusion (hawaited.held.symm.trans hempty)
  · rcases hfind with hfind | hfind
    · exact horderly.recorded place record hfind
    · exact (horderly.suspended place record hfind).positive

/-- The root of `x` at `/a/b` is folded into the configured directory `/a`, where `y` is recorded
afterwards. -/
theorem run_records_orderly_suspended :
    let nowhere : Environment := ⟨fun _ => none, none, fun _ => none, fun _ => false⟩
    let settings : Settings :=
      { Settings.default with singleDirectories := [], recursiveDirectories := [] }
    let lower := (Path.ofString "/a/b").location
    let upper := (Path.ofString "/a").location
    let attributes := Attributes.empty.setFile lower (.known ⟨.directory, none, none, false⟩)
    let ask (number : Nat) (requester : Requester) : EngineMove := .handle (.probed number
      (IndexRequest.probe attributes false (.directory "/a/b" (some requester))))
    let moves : List EngineMove :=
      [ask 1 "x", .adopt { settings with recursiveDirectories := ["/a"] }, ask 2 "y"]
    let e := (new settings settings nowhere [] ⟨.empty⟩).start.run moves
    (∀ move ∈ moves, move.IsGenuine) ∧ e.watches.suspended.keys = [lower] ∧
      e.watches.records.keys = [upper] ∧ e.roots.isRoot upper = true := by
  intro nowhere settings lower upper attributes ask moves e
  have hmoves : ∀ move ∈ moves, move.IsGenuine := by
    simp only [moves, List.forall_mem_cons]
    exact ⟨EngineMove.isGenuine_probed .., trivial, EngineMove.isGenuine_probed .., by simp⟩
  obtain ⟨-, hrooted, -, -⟩ := run_records_orderly settings settings nowhere [] ⟨.empty⟩ hmoves
  exact ⟨hmoves, by decide, by decide, hrooted upper (by decide)⟩

end Engine

end IndexControl
