import IndexControl.Proofs.Engine.Steady
import IndexControl.Proofs.Steward.Volumes

/-!
# A volume that goes and comes again

A volume takes roots along when it goes, whatever they were there for, and brings back others when it
comes. A volume that is not removable brings back the configured directories on it, so that none of
them is lost. A removable volume brings back its own root, and nothing at all where such volumes are
not indexed: a directory that is configured at its place is lost then, and so is one below that was
owned by the root there.

## Main results

* `Engine.Steady.isOwned_unmounted_iff`: what is owned when a volume has gone.
* `Engine.isOwned_remounted_iff`: what is owned when it has come again.
-/

namespace IndexControl

namespace Steward

variable {w : Steward} {m : Mount} {q : Location}

/-- A volume that is not removable brings back what it has taken from a configured directory that may
be indexed. -/
theorem brings_of_mem_places (hremovable : m.removable = false) (hq : q ∈ w.directories.places)
    (hallowed : w.isSystemLocation q = false) {root : Location} (htaken : m.takes root = true)
    (hroot : q.startsWith root = true) : w.Brings m q := by
  rw [Mount.takes, hremovable] at htaken
  have hon : q.startsWith m.path.location = true := Location.startsWith_trans hroot htaken
  rw [Brings, hremovable, if_neg Bool.false_ne_true]
  rcases Directories.mem_places_iff.1 hq with hsingle | hrecursive
  · exact ⟨(q, false), mem_configured_iff.2 hsingle, hallowed, hon, .inl rfl⟩
  · exact ⟨(q, true), mem_configured_iff.2 hrecursive, hallowed, hon, .inl rfl⟩

/-- A removable volume that is indexed brings back all that it has taken. -/
theorem brings_of_removable (hremovable : m.removable = true) (hindexed : w.indexRemovable = true)
    (hallowed : w.isSystemLocation m.path.location = false) {root : Location}
    (htaken : m.takes root = true) (hroot : q.startsWith root = true) : w.Brings m q := by
  rw [Mount.takes, hremovable, if_pos rfl, decide_eq_true_iff] at htaken
  rw [Brings, if_pos hremovable]
  exact ⟨hindexed, hallowed, htaken ▸ hroot⟩

end Steward

namespace Engine

open RootSet

variable {e : Engine} {m : Mount} {q : Location}

/-- The engine when a volume has gone. -/
abbrev unmounted (e : Engine) (m : Mount) : Engine := e.step (.handle (.volume (.unmounted m.path)))

theorem flagsAt?_unmounted (h : e.roots.WellFormed)
    (hm : e.steward.mounts.find? m.path.location = some m) (q : Location) :
    (e.unmounted m).roots.flagsAt? q = if m.takes q then none else e.roots.flagsAt? q :=
  Steward.flagsAt?_unmount h hm q

/-- When a volume has gone a place is owned by the roots that it has not taken. -/
theorem Steady.isOwned_unmounted_iff (h : e.Steady)
    (hm : e.steward.mounts.find? m.path.location = some m) :
    (e.unmounted m).roots.IsOwned q ↔ ∃ root, m.takes root = false ∧ e.roots.isRoot root = true ∧
      (q = root ∨ e.roots.isRecursiveRoot root = true ∧ q.isBelow root = true) :=
  (h.handleVolume (.unmounted m.path)).sound.wellFormed.isOwned_iff_of_gone
    (flagsAt?_unmounted h.sound.wellFormed hm)

/-- When the volume has come again, what comes with it is owned too. -/
theorem Steady.isOwned_mounted_iff (h : e.Steady)
    (hm : e.steward.mounts.find? m.path.location = some m) :
    ((e.unmounted m).step (.handle (.volume (.mounted m)))).roots.IsOwned q ↔
      (e.unmounted m).roots.IsOwned q ∨ e.steward.Brings m q := by
  have hgone : (e.unmounted m).Steady := h.handleVolume (.unmounted m.path)
  have hnone (root : Location) (hroot : m.takes root = true) :
      (e.unmounted m).roots.isRoot root = false := by
    rw [← Bool.not_eq_true, isRoot_iff_flagsAt?, flagsAt?_unmounted h.sound.wellFormed hm,
      if_pos hroot]
    simp
  have hbrings : (e.unmounted m).steward.Brings m q ↔ e.steward.Brings m q := by
    have hsteward : (e.unmounted m).steward =
        { e.steward with mounts := e.steward.mounts.erase m.path.location } :=
      Steward.steward_unmount hm e.roots
    rw [hsteward]
    rfl
  have hmount := Steward.isOwned_mount_iff (q := q) hgone.canonical hgone.sound.wellFormed hnone
  rw [hbrings] at hmount
  exact (isOwned_congr fun _ => rfl).trans hmount

section

variable (buffered settings : Settings) (environment : Environment)
  (systemLocations : List Location) (disk : Disk)

/-- **What a volume brings back when it comes again.** Let a mounted volume go and come again after
the start and any moves.

* Just those places are owned then that are owned by a root that the volume does not take, or by what
  comes with the volume.
* A volume that is not removable loses no configured directory that may be indexed.
* A removable volume outside of the system locations loses nothing while such volumes are
  indexed. -/
theorem isOwned_remounted_iff {moves : List EngineMove} (hmoves : ∀ move ∈ moves, move.IsGenuine)
    {m : Mount}
    (hm : ((new buffered settings environment systemLocations disk).start.run
      moves).steward.mounts.find? m.path.location = some m) :
    let e := (new buffered settings environment systemLocations disk).start.run moves
    let after := (e.step (.handle (.volume (.unmounted m.path)))).step
      (.handle (.volume (.mounted m)))
    (∀ q, after.roots.IsOwned q ↔
      (∃ root, m.takes root = false ∧ e.roots.isRoot root = true ∧
        (q = root ∨ e.roots.isRecursiveRoot root = true ∧ q.isBelow root = true)) ∨
      e.steward.Brings m q) ∧
    (m.removable = false → ∀ q ∈ e.steward.directories.places,
      e.steward.isSystemLocation q = false → e.roots.IsOwned q → after.roots.IsOwned q) ∧
    (m.removable = true → e.steward.indexRemovable = true →
      e.steward.isSystemLocation m.path.location = false →
      ∀ q, e.roots.IsOwned q → after.roots.IsOwned q) := by
  intro e after
  have hsteady : e.Steady := steady_run buffered settings environment systemLocations disk hmoves
  have hiff (q : Location) : after.roots.IsOwned q ↔
      (∃ root, m.takes root = false ∧ e.roots.isRoot root = true ∧
        (q = root ∨ e.roots.isRecursiveRoot root = true ∧ q.isBelow root = true)) ∨
      e.steward.Brings m q := by
    rw [← hsteady.isOwned_unmounted_iff hm]
    exact hsteady.isOwned_mounted_iff hm
  -- an owner that the volume takes is made up for by what the volume brings
  have hkept {q : Location} (howned : e.roots.IsOwned q)
      (hbrings : ∀ root, m.takes root = true → q.startsWith root = true → e.steward.Brings m q) :
      after.roots.IsOwned q := by
    obtain ⟨owner, howner⟩ := Option.isSome_iff_exists.1 howned
    have hstart := hsteady.sound.wellFormed.startsWith_of_owner? howner
    obtain ⟨hroot, hcover⟩ := hsteady.sound.wellFormed.owner?_eq_some_iff.1 howner
    refine (hiff q).2 ?_
    cases htaken : m.takes owner with
    | true => exact .inr (hbrings owner htaken hstart)
    | false => exact .inl ⟨owner, htaken, hroot, hcover⟩
  refine ⟨hiff, fun hremovable q hq hallowed howned => ?_,
    fun hremovable hindexed hallowed q howned => ?_⟩
  · exact hkept howned fun root => Steward.brings_of_mem_places hremovable hq hallowed
  · exact hkept howned fun root => Steward.brings_of_removable hremovable hindexed hallowed

end

/-- A removable volume at `/m` comes again while such volumes are indexed. -/
theorem isOwned_remounted_iff_removable :
    let nowhere : Environment := ⟨fun _ => none, none, fun _ => none, fun _ => false⟩
    let settings : Settings := { Settings.default with
      singleDirectories := [], recursiveDirectories := ["/m/d"], indexRemovable := true }
    let volume : Mount := ⟨Path.ofString "/m", none, true⟩
    let moves : List EngineMove := [.handle (.volume (.mounted volume))]
    let e := (new settings settings nowhere [] ⟨.empty⟩).start.run moves
    (∀ move ∈ moves, move.IsGenuine) ∧ e.steward.mounts.find? volume.path.location = some volume ∧
      ((e.step (.handle (.volume (.unmounted volume.path)))).step
        (.handle (.volume (.mounted volume)))).roots.IsOwned (Path.ofString "/m/d").location := by
  intro nowhere settings volume moves e
  have hmoves : ∀ move ∈ moves, move.IsGenuine := by
    simp only [moves, List.forall_mem_cons]
    exact ⟨trivial, by simp⟩
  have hm : e.steward.mounts.find? volume.path.location = some volume := by decide
  obtain ⟨-, -, hkept⟩ := isOwned_remounted_iff settings settings nowhere [] ⟨.empty⟩ hmoves hm
  exact ⟨hmoves, hm, hkept rfl rfl (by decide) (Path.ofString "/m/d").location (by decide)⟩

/-- A configured directory can be lost: the root of the directory `/m` goes with the removable volume
there, and nothing comes with the volume where such volumes are not indexed. -/
theorem not_owned_after_remount :
    let nowhere : Environment := ⟨fun _ => none, none, fun _ => none, fun _ => false⟩
    let settings : Settings := { Settings.default with
      singleDirectories := [], recursiveDirectories := ["/m"], indexRemovable := false }
    let volume : Mount := ⟨Path.ofString "/m", none, true⟩
    let place := (Path.ofString "/m").location
    let e := (new settings settings nowhere [] ⟨.empty⟩).start.run
      [.handle (.volume (.mounted volume))]
    let after := e.run [.handle (.volume (.unmounted volume.path)),
      .handle (.volume (.mounted volume))]
    e.steward.mounts.find? volume.path.location = some volume ∧
      e.steward.directories.places = [place] ∧ e.roots.places = [place] ∧
      after.steward.directories.places = [place] ∧ after.roots.owner? place = none ∧
      after.roots.places = [] := by
  decide

end Engine

end IndexControl
