import IndexControl.Proofs.Engine.Arrival
import IndexControl.Proofs.Engine.Remount

/-!
# Directories of a volume that has gone

A volume that is not removable takes all roots on it along when it goes. The directories that are
configured there stay configured, and nothing remembers that their volume is absent: the next move
that adds all configured directories anew adds them too. Only where no such move intervenes do they
stay out until a volume brings them back or somebody asks for them.

## Main results

* `Engine.not_isRoot_unmounted`: nothing is left on the volume.
* `Engine.arrivals_after_unmount`: what comes back, and when.
-/

namespace IndexControl

namespace Engine

open RootSet

variable {e : Engine} {m : Mount} {q : Location}

/-- When a volume that is not removable has gone no root is left on it. -/
theorem not_isRoot_unmounted (h : e.roots.WellFormed)
    (hm : e.steward.mounts.find? m.path.location = some m) (hfixed : m.removable = false)
    (hq : q.startsWith m.path.location = true) : (e.unmounted m).roots.isRoot q = false := by
  have htaken : m.takes q = true := by rwa [Mount.takes, hfixed, if_neg Bool.false_ne_true]
  rw [← Bool.not_eq_true, isRoot_iff_flagsAt?, flagsAt?_unmounted h hm, if_pos htaken]
  simp

section

variable (buffered settings : Settings) (environment : Environment)
  (systemLocations : List Location) (disk : Disk)

/-- **Directories of a volume that has gone come back with the next removal.** Let a volume that is
not removable go after the start and any moves, and let other moves follow.

* When it has gone no root is left on it.
* The crawler is told later of a new root only in a move that has a reason for it: somebody asks for
  the directory, a volume brings it, removable volumes come to be indexed, or roots come back
  because others are removed or because the directories are touched.
* A move that removes a root or touches the directories leaves owned what is configured then, the
  directories on the absent volume like all others. -/
theorem arrivals_after_unmount {before after : List EngineMove}
    (hbefore : ∀ move ∈ before, move.IsGenuine) (hafter : ∀ move ∈ after, move.IsGenuine)
    {m : Mount}
    (hm : ((new buffered settings environment systemLocations disk).start.run
      before).steward.mounts.find? m.path.location = some m) (hfixed : m.removable = false) :
    let gone := ((new buffered settings environment systemLocations disk).start.run before).step
      (.handle (.volume (.unmounted m.path)))
    let e := gone.run after
    (∀ q, q.startsWith m.path.location = true → gone.roots.isRoot q = false) ∧
    (∃ news, e.crawled = gone.crawled ++ news ∧ ∀ q flags, .added q flags ∈ news →
      ∃ earlier move later, after = earlier ++ move :: later ∧ (gone.run earlier).Arrival move q) ∧
    ∀ move : EngineMove, e.Resyncs move → ∀ q, (e.step move).steward.Indexes q →
      (e.step move).steward.directories.IsFirm q → (e.step move).roots.IsOwned q := by
  intro gone e
  have hsteady := steady_run buffered settings environment systemLocations disk hbefore
  have hgone : gone.Steady := hsteady.handleVolume (.unmounted m.path)
  refine ⟨fun q hq => not_isRoot_unmounted hsteady.sound.wellFormed hm hfixed hq,
    hgone.arrivals_run hafter, fun move hmove q hq hfirm => ?_⟩
  exact (hgone.run hafter).isOwned_of_resyncs hmove hq hfirm

end

/-- The volume at `/mnt/disk` goes, and then the settings ask for no monitors any more. -/
theorem arrivals_after_unmount_unmonitored :
    let nowhere : Environment := ⟨fun _ => none, none, fun _ => none, fun _ => false⟩
    let settings : Settings := { Settings.default with
      singleDirectories := [], recursiveDirectories := ["/mnt/disk/photos"] }
    let unmonitored : EngineMove := .adopt { settings with enableMonitors := false }
    let volume : Mount := ⟨Path.ofString "/mnt/disk", none, false⟩
    let photos := (Path.ofString "/mnt/disk/photos").location
    let before : List EngineMove := [.handle (.volume (.mounted volume))]
    let e := (new settings settings nowhere [] ⟨.empty⟩).start.run before
    let gone := e.step (.handle (.volume (.unmounted volume.path)))
    (∀ move ∈ before, move.IsGenuine) ∧ e.steward.mounts.find? volume.path.location = some volume ∧
      volume.removable = false ∧ gone.roots.isRoot photos = false ∧
      (gone.step unmonitored).roots.IsOwned photos := by
  intro nowhere settings unmonitored volume photos before e gone
  have hbefore : ∀ move ∈ before, move.IsGenuine := by
    simp only [before, List.forall_mem_cons]
    exact ⟨trivial, by simp⟩
  have hm : e.steward.mounts.find? volume.path.location = some volume := by decide
  obtain ⟨hnone, -, hback⟩ := arrivals_after_unmount settings settings nowhere [] ⟨.empty⟩ hbefore
    (List.forall_mem_nil EngineMove.IsGenuine) hm rfl
  have hchange : gone.settings.change? { settings with enableMonitors := false } =
      some ⟨[.enableMonitors]⟩ := rfl
  have hmove : gone.Resyncs unmonitored := .adopt hchange (.inr rfl)
  exact ⟨hbefore, hm, rfl, hnone photos (by decide),
    hback unmonitored hmove photos ⟨by decide, by decide⟩ (.inl (by decide))⟩

/-- A directory of an absent volume becomes a root again: the release of a root elsewhere adds it. -/
theorem added_after_unmount :
    let nowhere : Environment := ⟨fun _ => none, none, fun _ => none, fun _ => false⟩
    let settings : Settings := { Settings.default with
      singleDirectories := [], recursiveDirectories := ["/mnt/disk/photos"] }
    let volume : Mount := ⟨Path.ofString "/mnt/disk", none, false⟩
    let photos := (Path.ofString "/mnt/disk/photos").location
    let other := (Path.ofString "/other").location
    let attributes := Attributes.empty.setFile other (.known ⟨.directory, none, none, false⟩)
    let request : IndexRequest := .directory "/other" (some "x")
    let e := (new settings settings nowhere [] ⟨.empty⟩).start.run
      [.handle (.volume (.mounted volume)), .handle (.call 1 (.index request)),
      .handle (.probed 1 (request.probe attributes false)),
      .handle (.volume (.unmounted volume.path))]
    let after := e.step (.handle (.call 2 (.release "x")))
    e.steward.mounts.find? volume.path.location = none ∧ e.roots.places = [other] ∧
      after.steward.mounts.find? volume.path.location = none ∧ after.roots.places = [photos] := by
  decide

end Engine

end IndexControl
