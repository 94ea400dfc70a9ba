import IndexControl.Proofs.Steward.Edits
import IndexControl.Proofs.Steward.Shelter

/-!
# Removable volumes as the steward adds them

The steward adds the root of a removable volume when the volume comes, and those of all mounted ones
when such volumes are to be indexed. Right after that every one of them has an owner: its own root,
or a recursive one above for which it was refused.

## Main results

* `Steward.mem_removablePlaces_followVolume`: which volume has come.
* `Steward.isOwned_mount`: a removable volume that comes.
* `Steward.isOwned_applySettings`: removable volumes that are to be indexed from now on.
* `Steward.isOwned_applySettings_of_indexes`: directories that changed settings add anew.
-/

namespace IndexControl

namespace Steward

open RootSet

variable {w : Steward} {s : RootSet} {place : Location} {flags : Flags}

theorem mem_removablePlaces_iff :
    place ∈ w.removablePlaces ↔ ∃ m, w.mounts.find? place = some m ∧ m.removable = true := by
  rw [removablePlaces, OrderedMap.mem_keys_iff]
  simp only [OrderedMap.find?_filter, Option.filter_eq_some_iff]

/-- Where a removable volume is mounted, it was so before or it has just come. -/
theorem mem_removablePlaces_followVolume {event : VolumeEvent}
    (h : place ∈ (w.followVolume s event).1.removablePlaces) :
    place ∈ w.removablePlaces ∨
      ∃ m, event = .mounted m ∧ m.removable = true ∧ place = m.path.location := by
  obtain ⟨m', hfind, hremovable⟩ := mem_removablePlaces_iff.1 h
  cases event with
  | mounted m =>
    rw [followVolume, steward_mount, OrderedMap.find?_insert] at hfind
    split_ifs at hfind with hplace
    · obtain rfl := Option.some.inj hfind
      exact .inr ⟨m, rfl, hremovable, hplace⟩
    · exact .inl (mem_removablePlaces_iff.2 ⟨m', hfind, hremovable⟩)
  | unmounted path =>
    refine .inl (mem_removablePlaces_iff.2 ⟨m', ?_, hremovable⟩)
    rw [followVolume, unmount] at hfind
    cases hmounted : w.mounts.find? path.location with
    | none =>
      rw [hmounted] at hfind
      exact hfind
    | some m =>
      simp only [hmounted] at hfind
      split at hfind <;> rw [OrderedMap.find?_erase] at hfind <;> split_ifs at hfind <;> exact hfind

/-! ### Volumes that are added -/

theorem isOwned_addDirectory (h : s.WellFormed) (hplace : place.IsSpelled)
    (hrec : flags.isRecursive = true) (hallowed : w.isSystemLocation place = false) :
    (w.addDirectory s place flags).IsOwned place.canonical := by
  rw [addDirectory, if_neg (Bool.eq_false_iff.1 hallowed), ← add_canonical]
  exact h.isOwned_add (Location.isCanonical_canonical hplace) hrec (Location.startsWith_self _)

theorem shelters_addDirectory (h : s.WellFormed) (hplace : place.IsSpelled)
    (hrec : flags.isRecursive = true) : s.Shelters (w.addDirectory s place flags) := by
  rw [addDirectory]
  split
  · exact .refl s
  · exact h.shelters_add hplace hrec

/-- Recursive roots that are added one after the other leave owned what was so, and their own
places. -/
theorem isOwned_foldl_addDirectory {places : List Location} (h : s.WellFormed)
    (hplaces : ∀ place ∈ places, place.IsSpelled) (hrec : flags.isRecursive = true) :
    let t := places.foldl (fun s place => w.addDirectory s place flags) s
    (∀ q, s.IsOwned q → t.IsOwned q) ∧
      ∀ place ∈ places, w.isSystemLocation place = false → t.IsOwned place.canonical := by
  induction places generalizing s with
  | nil => exact ⟨fun _ => id, fun _ hplace => absurd hplace List.not_mem_nil⟩
  | cons place places ih =>
    obtain ⟨hplace, hlater⟩ := List.forall_mem_cons.1 hplaces
    have hadded : (w.addDirectory s place flags).WellFormed :=
      (changes_addDirectory (fun _ => hplace) s flags).wellFormed h
    obtain ⟨hkept, howned⟩ := ih hadded hlater
    have hfirst := (shelters_addDirectory (w := w) h hplace hrec).owned
    refine ⟨fun q hq => hkept q (hfirst q hq), List.forall_mem_cons.2 ⟨fun hallowed => ?_, howned⟩⟩
    exact hkept _ (isOwned_addDirectory h hplace hrec hallowed)

/-- A removable volume that comes has an owner if such volumes are indexed. -/
theorem isOwned_mount (h : s.WellFormed) {m : Mount} (hremovable : m.removable = true)
    (hindexed : w.indexRemovable = true) (hallowed : w.isSystemLocation m.path.location = false) :
    (w.mount s m).2.IsOwned m.path.location.canonical := by
  let v : Steward := { w with mounts := w.mounts.insert m.path.location m }
  have hv : v.isSystemLocation m.path.location = false := hallowed
  simp only [mount, hremovable, hindexed, if_true]
  exact isOwned_addDirectory h m.path.location_isSpelled (isRecursive_volumeFlags v) hv

/-- All mounted removable volumes have an owner when such volumes come to be indexed. -/
theorem isOwned_applySettings (h : s.WellFormed)
    (hplaces : ∀ place ∈ w.removablePlaces, place.IsSpelled) {settings : Settings}
    {change : SettingsChange} (htouched : change.touches .indexRemovable = true)
    (hindexed : settings.indexRemovable = true) (hplace : place ∈ w.removablePlaces)
    (hallowed : w.isSystemLocation place = false) :
    (w.applySettings s settings change).2.1.IsOwned place.canonical := by
  let t := w.followDirectories (followFilters s settings change) settings change
  let v : Steward := { t.1 with indexRemovable := settings.indexRemovable }
  have hmounts : v.removablePlaces = w.removablePlaces := by
    rw [removablePlaces, removablePlaces]
    exact congrArg (fun mounts => (mounts.filter fun _ m => m.removable).keys)
      (mounts_followDirectories ..)
  have hsystem : v.systemLocations = w.systemLocations := systemLocations_followDirectories ..
  have ht : t.2.1.WellFormed :=
    (changes_followDirectories fun _ _ hplace => hplace.isSpelled).wellFormed
      ((changes_followFilters s settings change).wellFormed h)
  have hadd : (w.applySettings s settings change).2.1 = v.addRemovable t.2.1 := by
    simp only [applySettings, followRemovable, changeRemovable, htouched, hindexed, if_true]
    rfl
  rw [hadd, addRemovable, hmounts]
  refine (isOwned_foldl_addDirectory ht hplaces (isRecursive_volumeFlags v)).2 place hplace ?_
  rwa [isSystemLocation, hsystem]

/-! ### Directories that are added anew -/

/-- Where the configured directories are added anew, they are added to what has been left of the
roots. -/
theorem followDirectories_of_touches {settings : Settings} {change : SettingsChange}
    (htouched : change.touchesDirectories = true ∨ change.touches .enableMonitors = true) :
    ∃ t : RootSet, Changes Location.IsSpelled s t ∧
      (w.followDirectories s settings change).2.1 =
        (w.followDirectories s settings change).1.syncRoots t := by
  let v : Steward := { w with enableMonitors := settings.enableMonitors }
  simp only [followDirectories]
  cases hdirectories : change.touchesDirectories with
  | true => exact ⟨(v.changeDirectories s settings).2.1, changes_changeDirectories s settings, rfl⟩
  | false =>
    rw [hdirectories] at htouched
    exact ⟨s, .refl, by simp [htouched.resolve_left Bool.false_ne_true]⟩

/-- Where changed settings remove no root, but touch the directories, all that are configured then are
owned. -/
theorem isOwned_applySettings_of_indexes (hd : w.directories.Canonical) (h : s.WellFormed)
    (hplaces : ∀ place ∈ w.removablePlaces, place.IsSpelled) {settings : Settings}
    {change : SettingsChange}
    (htouched : change.touchesDirectories = true ∨ change.touches .enableMonitors = true)
    (hnone : (w.applySettings s settings change).2.2 = [])
    (hplace : (w.applySettings s settings change).1.Indexes place)
    (hfirm : (w.applySettings s settings change).1.directories.IsFirm place) :
    (w.applySettings s settings change).2.1.IsOwned place := by
  let t := w.followDirectories (followFilters s settings change) settings change
  have hfilters := (changes_followFilters s settings change).wellFormed h
  have ht : t.2.1.WellFormed :=
    (changes_followDirectories fun _ _ hplace => hplace.isSpelled).wellFormed hfilters
  have howned : t.2.1.IsOwned place := by
    obtain ⟨r, hchanges, heq⟩ : ∃ r : RootSet,
        Changes Location.IsSpelled (followFilters s settings change) r ∧
          t.2.1 = t.1.syncRoots r := followDirectories_of_touches htouched
    obtain ⟨indexRemovable, hsteward⟩ := t.1.steward_followRemovable t.2.1 settings change
    have hafter : (w.applySettings s settings change).1 = { t.1 with indexRemovable } := hsteward
    rw [hafter] at hplace hfirm
    rw [heq]
    exact isOwned_syncRoots_of_indexes (canonical_followDirectories hd ..)
      (hchanges.wellFormed hfilters) hplace hfirm
  have hdropped : (t.1.followRemovable t.2.1 settings change).2.2 = [] :=
    (List.append_eq_nil_iff.1 hnone).2
  have hmounts : t.1.removablePlaces = w.removablePlaces := by
    rw [removablePlaces, removablePlaces, mounts_followDirectories]
  suffices hkept : (t.1.followRemovable t.2.1 settings change).2.1.IsOwned place from hkept
  simp only [followRemovable, changeRemovable] at hdropped ⊢
  split
  · next hvolumes =>
    simp only [hvolumes, ↓reduceIte] at hdropped
    split
    · let v : Steward := { t.1 with indexRemovable := settings.indexRemovable }
      have hspelled : ∀ place ∈ v.removablePlaces, place.IsSpelled := fun place hplace =>
        hplaces place (hmounts ▸ hplace)
      exact (isOwned_foldl_addDirectory ht hspelled (isRecursive_volumeFlags v)).1 place howned
    · next hleft =>
      rw [if_neg hleft] at hdropped
      exact (removeEach_eq_self hdropped).symm ▸ howned
  · exact howned

end Steward

end IndexControl
