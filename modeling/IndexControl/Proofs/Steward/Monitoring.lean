import IndexControl.Proofs.Roots.Monitoring
import IndexControl.Proofs.Steward.Edits

/-!
# Which roots the steward has monitored

The steward has roots monitored, or not, as it knows the settings to ask for. It does so for the
roots that it adds, be they new or not: for the configured directories, when it adds them, and for
removable volumes, when one comes or when they come to be indexed.

## Main results

* `Steward.restyles_syncRoots`: adding the configured directories.
* `Steward.restyles_establish`, `Steward.restyles_applySettings`: settings.
* `Steward.restyles_followVolume`: volumes.
-/

namespace IndexControl

theorem Flags.contains_monitor_onDemand : onDemand.contains .monitor = true := by decide

namespace Steward

open RootSet

variable {w : Steward} {s : RootSet} {m : Bool} {q : Location}

theorem contains_monitor_volumeFlags (w : Steward) :
    w.volumeFlags.contains .monitor = w.enableMonitors := by
  rw [volumeFlags]
  cases w.enableMonitors <;> decide

/-! ### Adding -/

theorem restyles_addDirectory (h : s.WellFormed) {place : Location} (hplace : place.IsSpelled)
    {flags : Flags} (hflags : flags.contains .monitor = m) :
    Restyles (fun q => w.isSystemLocation place = false ∧ place.canonical = q) m s
      (w.addDirectory s place flags) := by
  rw [addDirectory]
  cases hsystem : w.isSystemLocation place with
  | true => exact h.restyles_refl.congr (by simp)
  | false => exact hflags ▸ (h.restyles_add hplace flags).congr (by simp)

theorem restyles_addConfigured (h : s.WellFormed) {directories : List (Location × Bool)}
    (hsub : ∀ d ∈ directories, d ∈ w.configured) :
    Restyles (fun q => ∃ d ∈ directories, w.isSystemLocation d.1 = false ∧ d.1.canonical = q)
      w.enableMonitors s (w.addConfigured s directories) :=
  h.restyles_foldl fun _ hs d hd => restyles_addDirectory hs
    (isSpelled_of_mem_configured (hsub d hd)) (w.contains_monitor_flagsFor d.1 d.2)

theorem restyles_syncRoots (hd : w.directories.Canonical) (h : s.WellFormed) :
    Restyles w.Indexes w.enableMonitors s (w.syncRoots s) := by
  have hcanonical : ∀ d ∈ w.configured, d.1.canonical = d.1 := fun d hmem => by
    refine (hd.isCanonical ?_).2
    rw [← map_configured]
    exact List.mem_map_of_mem hmem
  refine (restyles_addConfigured h fun _ => id).congr fun q => ?_
  constructor
  · rintro ⟨d, hmem, hallowed, rfl⟩
    rw [hcanonical d hmem]
    exact ⟨List.mem_map_of_mem hmem, hallowed⟩
  · rintro ⟨hplace, hallowed⟩
    obtain ⟨d, hmem, rfl⟩ := List.mem_map.1 hplace
    exact ⟨d, hmem, hallowed, hcanonical d hmem⟩

theorem restyles_addRemovable (hplaces : ∀ place ∈ w.removablePlaces, place.IsSpelled)
    (h : s.WellFormed) :
    Restyles (fun q => ∃ place, w.IndexesVolume place ∧ place.canonical = q) w.enableMonitors s
      (w.addRemovable s) := by
  have hall := h.restyles_foldl (l := w.removablePlaces) fun s hs place hplace =>
    restyles_addDirectory (w := w) hs (hplaces place hplace) w.contains_monitor_volumeFlags
  exact hall.congr fun q => by simp only [IndexesVolume, and_assoc]

/-! ### Settings -/

theorem restyles_establish (h : s.WellFormed)
    (hplaces : ∀ place ∈ w.removablePlaces, place.IsSpelled) (settings : Settings) :
    Restyles (fun q => (w.establish s settings).1.Indexes q ∨ settings.indexRemovable = true ∧
        ∃ place, w.IndexesVolume place ∧ place.canonical = q) settings.enableMonitors s
      (w.establish s settings).2 := by
  let v := (w.establish s settings).1
  have hv : v.directories.Canonical := w.canonical_directoriesOf settings
  have hfilters : Restyles (fun _ => False) settings.enableMonitors s
      (s.setFilters (filtersOf settings)) :=
    h.restyles_of_flagsAt? (List.append_nil _).symm
      (fun _ hevent => absurd hevent List.not_mem_nil) fun _ => rfl
  have hsync := hfilters.trans (restyles_syncRoots hv hfilters.wellFormed)
  have hvolumes := hsync.trans (restyles_addRemovable (w := v) hplaces hsync.wellFormed)
  have hroots : (w.establish s settings).2 = if settings.indexRemovable = true then
      v.addRemovable (v.syncRoots (s.setFilters (filtersOf settings)))
    else v.syncRoots (s.setFilters (filtersOf settings)) := rfl
  rw [hroots]
  split
  · next hindexed =>
    refine hvolumes.congr fun q => ?_
    simp only [hindexed, true_and, false_or]
    rfl
  · next hindexed => exact hsync.congr fun q => by simp [hindexed, v]

theorem restyles_followFilters (h : s.WellFormed) (settings : Settings) (change : SettingsChange) :
    Restyles (fun _ => False) m s (followFilters s settings change) := by
  rw [followFilters]
  split
  · refine h.restyles_of_flagsAt? rfl (fun event hevent => ?_) fun _ => rfl
    obtain ⟨place, -, rfl⟩ := List.mem_map.1 hevent
    rfl
  · exact h.restyles_refl

theorem restyles_cleared (h : s.WellFormed) (w : Steward) (settings : Settings)
    (change : SettingsChange) : Restyles (fun _ => False) m s (w.cleared s settings change) := by
  have hfilters : Restyles (fun _ => False) m s (followFilters s settings change) :=
    restyles_followFilters h settings change
  rw [cleared]
  split
  · exact (hfilters.trans (hfilters.wellFormed.restyles_foldl_removeAs _ _)).congr (by simp)
  · exact hfilters

theorem enableMonitors_followDirectories (w : Steward) (s : RootSet) (settings : Settings)
    (change : SettingsChange) :
    (w.followDirectories s settings change).1.enableMonitors = settings.enableMonitors := by
  simp only [followDirectories]
  split <;> rfl

/-- When directories or monitoring change, the configured directories are added anew. -/
theorem restyles_followDirectories (hd : w.directories.Canonical) (h : s.WellFormed)
    (settings : Settings) (change : SettingsChange) :
    let t := w.followDirectories (followFilters s settings change) settings change
    Restyles (fun q => (change.touchesDirectories = true ∨ change.touches .enableMonitors = true) ∧
      t.1.Indexes q) settings.enableMonitors s t.2.1 := by
  intro t
  have ht : t.1.directories.Canonical := canonical_followDirectories hd _ settings change
  have hcleared := restyles_cleared (m := settings.enableMonitors) h w settings change
  have hsync := restyles_syncRoots ht hcleared.wellFormed
  rw [enableMonitors_followDirectories] at hsync
  have hroots : t.2.1 = if change.touchesDirectories || change.touches .enableMonitors then
      t.1.syncRoots (w.cleared s settings change) else w.cleared s settings change := by
    simp only [t, followDirectories, cleared]
    cases change.touchesDirectories <;> rfl
  rw [hroots]
  split
  · next htouched =>
    rw [Bool.or_eq_true] at htouched
    exact (hcleared.trans hsync).congr (by simp [htouched])
  · next hkept =>
    rw [Bool.or_eq_true] at hkept
    exact hcleared.congr (by simp [hkept])

/-- When removable volumes come to be indexed, those that are mounted are added. -/
theorem restyles_followRemovable (hplaces : ∀ place ∈ w.removablePlaces, place.IsSpelled)
    (h : s.WellFormed) (settings : Settings) (change : SettingsChange) :
    Restyles (fun q => change.touches .indexRemovable = true ∧ settings.indexRemovable = true ∧
        ∃ place, w.IndexesVolume place ∧ place.canonical = q) w.enableMonitors s
      (w.followRemovable s settings change).2.1 := by
  let v : Steward := { w with indexRemovable := settings.indexRemovable }
  have hroots : (w.followRemovable s settings change).2.1 =
      if change.touches .indexRemovable = true then
        if settings.indexRemovable = true then v.addRemovable s
        else (s.removeEach w.removablePlaces).1
      else s := by
    simp only [followRemovable, changeRemovable]
    split
    · split <;> rfl
    · rfl
  rw [hroots]
  split_ifs with htouched hindexed
  · refine (restyles_addRemovable (w := v) hplaces h).congr fun q => ?_
    simp only [htouched, hindexed, true_and]
    rfl
  · exact (h.restyles_removeEach _).congr (by simp [hindexed])
  · exact h.restyles_refl.congr (by simp [htouched])

/-- Changed settings reach the roots of configured directories, when directories or monitoring
change, and those of removable volumes, when such volumes come to be indexed. -/
theorem restyles_applySettings (hd : w.directories.Canonical) (h : s.WellFormed)
    (hplaces : ∀ place ∈ w.removablePlaces, place.IsSpelled) (settings : Settings)
    (change : SettingsChange) :
    Restyles (fun q =>
        ((change.touchesDirectories = true ∨ change.touches .enableMonitors = true) ∧
          (w.applySettings s settings change).1.Indexes q) ∨
        change.touches .indexRemovable = true ∧ settings.indexRemovable = true ∧
          ∃ place, w.IndexesVolume place ∧ place.canonical = q) settings.enableMonitors s
      (w.applySettings s settings change).2.1 := by
  let t := w.followDirectories (followFilters s settings change) settings change
  obtain ⟨indexRemovable, hsteward⟩ := t.1.steward_followRemovable t.2.1 settings change
  have hindexes (q : Location) :
      (w.applySettings s settings change).1.Indexes q ↔ t.1.Indexes q := by
    rw [show (w.applySettings s settings change).1 = { t.1 with indexRemovable } from hsteward]
    rfl
  have hvolume (place : Location) : t.1.IndexesVolume place ↔ w.IndexesVolume place := by
    rw [IndexesVolume, IndexesVolume, removablePlaces, mounts_followDirectories, isSystemLocation,
      systemLocations_followDirectories, ← removablePlaces, ← isSystemLocation]
  have hdirectories := restyles_followDirectories hd h settings change
  have hplaces : ∀ place ∈ t.1.removablePlaces, place.IsSpelled := by
    rwa [removablePlaces, mounts_followDirectories]
  have hremovable := restyles_followRemovable hplaces hdirectories.wellFormed settings change
  rw [enableMonitors_followDirectories] at hremovable
  refine (hdirectories.trans hremovable).congr fun q => ?_
  simp only [hindexes, hvolume]
  rfl

theorem enableMonitors_applySettings (w : Steward) (s : RootSet) (settings : Settings)
    (change : SettingsChange) :
    (w.applySettings s settings change).1.enableMonitors = settings.enableMonitors := by
  let t := w.followDirectories (followFilters s settings change) settings change
  obtain ⟨indexRemovable, hsteward⟩ := t.1.steward_followRemovable t.2.1 settings change
  exact (congrArg Steward.enableMonitors hsteward).trans (enableMonitors_followDirectories ..)

/-! ### Volumes -/

/-- A volume that comes reaches the places with which it is indexed. -/
theorem restyles_mount (h : s.WellFormed) (m : Mount) :
    Restyles (fun q => ∃ place, w.IndexesWith m place ∧ place.canonical = q) w.enableMonitors s
      (w.mount s m).2 := by
  let v : Steward := { w with mounts := w.mounts.insert m.path.location m }
  simp only [mount, IndexesWith]
  cases m.removable with
  | true =>
    cases hindexed : w.indexRemovable with
    | true =>
      have hadd := restyles_addDirectory (w := v) h m.path.location_isSpelled
        v.contains_monitor_volumeFlags
      refine hadd.congr fun q => ?_
      simp only [if_true, true_and, and_assoc, exists_eq_left]
      rfl
    | false => exact h.restyles_refl.congr (by simp)
  | false =>
    have hsub : ∀ d ∈ v.configured.filter (·.1.startsWith m.path.location), d ∈ v.configured :=
      fun _ hd => List.mem_of_mem_filter hd
    refine (restyles_addConfigured h hsub).congr fun q => ?_
    simp only [Bool.false_eq_true, if_false, Indexes, List.mem_filter, List.mem_map]
    constructor
    · rintro ⟨d, ⟨hmem, hon⟩, hallowed, rfl⟩
      exact ⟨d.1, ⟨⟨⟨d, hmem, rfl⟩, hallowed⟩, hon⟩, rfl⟩
    · rintro ⟨place, ⟨⟨⟨d, hmem, rfl⟩, hallowed⟩, hon⟩, rfl⟩
      exact ⟨d, ⟨hmem, hon⟩, hallowed, rfl⟩

theorem restyles_unmount (h : s.WellFormed) (path : Path) :
    Restyles (fun _ => False) m s (w.unmount s path).2 := by
  rw [unmount]
  cases w.mounts.find? path.location with
  | none => exact h.restyles_refl
  | some m =>
    simp only
    split
    · exact h.restyles_remove _
    · exact h.restyles_foldl_removeAs _ _

theorem restyles_followVolume (h : s.WellFormed) (event : VolumeEvent) :
    Restyles (fun q => ∃ m, event = .mounted m ∧ ∃ place, w.IndexesWith m place ∧
      place.canonical = q) w.enableMonitors s (w.followVolume s event).2 := by
  cases event with
  | mounted m => exact (restyles_mount h m).congr (by simp)
  | unmounted path => exact (restyles_unmount h path).congr (by simp)

end Steward

end IndexControl
