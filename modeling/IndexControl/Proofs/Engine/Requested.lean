import IndexControl.Proofs.Engine.Requests
import IndexControl.Proofs.Engine.Transient
import IndexControl.Proofs.Snapshot.Taken
import IndexControl.Proofs.Watches.Opening

/-!
# The snapshot after requests

A snapshot leaves out the roots that are there on demand, but it cannot show a configured root that
requests have folded into one of them. So requests change the snapshot exactly if one of them opens
a place above a configured root.

## Main definitions

* `Engine.snapshot`: the snapshot that the engine would store.

## Main results

* `Engine.snapshot_run_requests`: the snapshot after any requests.
* `Engine.snapshot_run_requests_ne`: requests can change it.
-/

namespace IndexControl

namespace Engine

open RootSet

/-- The snapshot that the engine would store. -/
def snapshot (e : Engine) : Snapshot := .ofRoots e.roots e.watches.isOnDemand

/-- Right after the start nothing is there on demand. -/
theorem isOnDemand_start (buffered settings : Settings) (environment : Environment)
    (systemLocations : List Location) (disk : Disk) (q : Location) :
    (new buffered settings environment systemLocations disk).start.watches.isOnDemand q =
      false := by
  obtain ⟨eligibility, hwatches⟩ := watches_start buffered settings environment systemLocations disk
  rw [hwatches]
  rfl

theorem snapshot_start (buffered settings : Settings) (environment : Environment)
    (systemLocations : List Location) (disk : Disk) :
    (new buffered settings environment systemLocations disk).start.snapshot =
      .ofRoots (new buffered settings environment systemLocations disk).start.roots
        fun _ => false := by
  rw [snapshot]
  exact congrArg _ (funext (isOnDemand_start buffered settings environment systemLocations disk))

/-- **Requests take from the snapshot what they fold.** After the start and any probed requests the
snapshot is the one right after the start without the configured roots that lie below a place which
a granted request has opened, a directory that no root owned at the start; its filters are the same.
So the snapshot is the same as right after the start exactly if there are no such roots. -/
theorem snapshot_run_requests (buffered settings : Settings) (environment : Environment)
    (systemLocations : List Location) (disk : Disk) {requests : List (Nat × ProbedRequest)}
    (hrequests : ∀ r ∈ requests, r.2.IsGenuine) :
    let started := (new buffered settings environment systemLocations disk).start
    let e := started.run (answers requests)
    e.snapshot = .ofRoots started.roots (Watches.folds started.watched (requests.map (·.2))) ∧
      (e.snapshot = started.snapshot ↔
        ∀ root ∈ started.roots.places, ∀ r ∈ requests,
          Watches.opens started.watched r.2 = true → root.isBelow r.2.place = false) := by
  intro started e
  have hsettled : Watches.Settled started.watched :=
    settled_run buffered settings environment systemLocations disk
      (fun _ h => absurd h List.not_mem_nil)
  have hserved : Watches.Served started.watched (requests.map (·.2)) e.watched := by
    rw [watched_run_answers]
    exact hsettled.served (isOnDemand_start buffered settings environment systemLocations disk)
      (List.forall_mem_map.2 fun r hr => (hrequests r hr).isCanonical)
  have hread (s : RootSet) (left : Bool) (q : Location) :
      ((s.root? q).filter fun _ => !left).map Root.flags = if left then none else s.flagsAt? q := by
    cases left <;> cases hroot : s.root? q <;> simp [flagsAt?, hroot]
  have hsnapshot : e.snapshot =
      .ofRoots started.roots (Watches.folds started.watched (requests.map (·.2))) := by
    refine Snapshot.ofRoots_congr (fun q => ?_) hserved.filters
    have hkept := congrArg (Option.map Root.flags) (hserved.kept q)
    rwa [hread, hread] at hkept
  refine ⟨hsnapshot, ?_⟩
  rw [hsnapshot, snapshot_start, Snapshot.ofRoots_eq_whole_iff]
  refine forall₂_congr fun root _ => ?_
  simp only [Watches.folds, List.any_map, Function.comp_def, List.any_eq_false, Bool.and_eq_true,
    not_and, Bool.not_eq_true]

/-- A request for `/a/b/c` changes nothing where `/a/b` is configured. After one for `/a` the
snapshot has no root any more. -/
theorem snapshot_run_requests_nested :
    let nowhere : Environment := ⟨fun _ => none, none, fun _ => none, fun _ => false⟩
    let settings : Settings :=
      { Settings.default with singleDirectories := [], recursiveDirectories := ["/a/b"] }
    let info : FileInfo := ⟨.directory, none, none, false⟩
    let below : Nat × ProbedRequest :=
      (1, ⟨.directory "/a/b/c" (some "x"), (Path.ofString "/a/b/c").location, info⟩)
    let above : Nat × ProbedRequest :=
      (2, ⟨.directory "/a" (some "x"), (Path.ofString "/a").location, info⟩)
    let started := (new settings settings nowhere [] ⟨.empty⟩).start
    (started.run (answers [below])).snapshot = started.snapshot ∧
      (started.run (answers [below, above])).snapshot.roots = [] := by
  intro nowhere settings info below above started
  let attributes := (Attributes.empty.setFile below.2.place (.known info)).setFile above.2.place
    (.known info)
  have hbelow : below.2.IsGenuine := ⟨attributes, false, by decide⟩
  have habove : above.2.IsGenuine := ⟨attributes, false, by decide⟩
  have hone : ∀ r ∈ [below], r.2.IsGenuine := by simpa using hbelow
  have htwo : ∀ r ∈ [below, above], r.2.IsGenuine := by simpa using ⟨hbelow, habove⟩
  have hsame := snapshot_run_requests settings settings nowhere [] ⟨.empty⟩ hone
  have hfolded := snapshot_run_requests settings settings nowhere [] ⟨.empty⟩ htwo
  refine ⟨hsame.2.2 (by decide), ?_⟩
  rw [hfolded.1]
  decide

/-- Right after the start the snapshot has the configured root `/a/b`. -/
theorem snapshot_run_requests_ne :
    let nowhere : Environment := ⟨fun _ => none, none, fun _ => none, fun _ => false⟩
    let settings : Settings :=
      { Settings.default with singleDirectories := [], recursiveDirectories := ["/a/b"] }
    let request : ProbedRequest :=
      ⟨.directory "/a" (some "x"), (Path.ofString "/a").location, ⟨.directory, none, none, false⟩⟩
    let started := (new settings settings nowhere [] ⟨.empty⟩).start
    (started.run (answers [(1, request)])).snapshot ≠ started.snapshot := by
  intro nowhere settings request started heq
  have hroots := congrArg (·.roots.length) heq
  revert hroots
  decide

end Engine

end IndexControl
