import IndexControl.Proofs.Roots.Folding
import IndexControl.Proofs.Steward.Settings

/-!
# Where the steward folds roots

The steward folds roots only into directories that are configured as recursive and into removable
volumes. When settings change, the roots of dropped directories go first; where roots are folded into
volumes, none goes afterwards.

## Main results

* `Steward.queues_applySettings`, `Steward.queues_mount`, `Steward.queues_unmount`: into which roots
  others are folded.
* `Steward.ended_of_dropped`: the roots of dropped directories are told to go.
-/

namespace IndexControl

theorem Flags.isRecursive_union_preserve (f : Flags) :
    (f.union .preserve).isRecursive = f.isRecursive := by
  have hmask : preserve.bits &&& recurse.bits = 0 := by decide
  have hbits : (f.union .preserve).bits &&& recurse.bits = f.bits &&& recurse.bits := by
    refine UInt32.toBitVec_inj.1 ?_
    rw [union, UInt32.toBitVec_and, UInt32.toBitVec_or, BitVec.and_or_distrib_right,
      ← UInt32.toBitVec_and, ← UInt32.toBitVec_and, hmask]
    simp
  rw [isRecursive, isRecursive, contains, contains, hbits]

namespace Steward

open RootSet

variable {w : Steward} {s : RootSet} {place q : Location}

theorem isRecursive_volumeFlags (w : Steward) : w.volumeFlags.isRecursive = true := by
  rw [volumeFlags]
  cases w.enableMonitors <;> decide

/-! ### Into which roots others are folded -/

theorem queues_addDirectory (w : Steward) (s : RootSet) (place : Location) (flags : Flags) :
    Queues (fun event => event.removed? = none ∧ ∀ into, event.into? = some into →
      into = place.canonical ∧ flags.isRecursive = true) s (w.addDirectory s place flags) := by
  rw [addDirectory]
  split
  · exact .refl s
  · exact s.queues_add place flags

/-- Adding configured directories folds roots only into recursive ones. -/
theorem queues_addConfigured (hd : w.directories.Canonical) {directories : List (Location × Bool)}
    (hsub : ∀ d ∈ directories, d ∈ w.configured) (s : RootSet) :
    Queues (fun event => event.removed? = none ∧ ∀ into, event.into? = some into →
      into ∈ w.directories.recursivePlaces) s (w.addConfigured s directories) := by
  refine queues_foldl (fun s d hmem => ?_) s
  obtain ⟨place, recursive⟩ := d
  refine (w.queues_addDirectory s place _).mono fun event h => ⟨h.1, fun into hinto => ?_⟩
  obtain ⟨rfl, hrec⟩ := h.2 into hinto
  obtain rfl : recursive = true := (isRecursive_flagsFor ..).symm.trans hrec
  have hplace : _ ∈ w.directories.recursivePlaces := mem_configured_iff.1 (hsub _ hmem)
  rwa [(hd.recursive_isCanonical place hplace).2]

theorem queues_syncRoots (hd : w.directories.Canonical) (s : RootSet) :
    Queues (fun event => event.removed? = none ∧ ∀ into, event.into? = some into →
      into ∈ w.directories.recursivePlaces) s (w.syncRoots s) :=
  queues_addConfigured hd (fun _ => id) s

theorem queues_addRemovable (w : Steward) (s : RootSet) :
    Queues (fun event => event.removed? = none ∧ ∀ into, event.into? = some into →
      into ∈ w.removablePlaces.map Location.canonical) s (w.addRemovable s) :=
  queues_foldl (fun s place hplace => (w.queues_addDirectory s place _).mono fun _ h =>
    ⟨h.1, fun into hinto => List.mem_map.2 ⟨place, hplace, (h.2 into hinto).1.symm⟩⟩) s

section

variable {f : Flags → Flags} (hf : ∀ g : Flags, (f g).isRecursive = g.isRecursive)

include hf

/-- A root that goes with other flags, just as recursive as before, has none folded into it. -/
theorem queues_removeAs (hplace : place.canonical = place) (s : RootSet) :
    Queues (fun event => event.into? = none) s (s.removeAs f place) := by
  rw [removeAs]
  cases hroot : s.root? place with
  | none => exact .refl s
  | some root =>
    refine Queues.trans ?_ (queues_remove _ place)
    have hsame : ((f root.flags).isRecursive && !root.isRecursive) = false := by
      rw [hf]
      exact Bool.and_not_self _
    simp only [add, hplace, hroot, hsame]
    split
    · exact .refl s
    · exact ⟨_, rfl, fun event hevent => by rw [List.mem_singleton.1 hevent]; rfl⟩

theorem queues_foldl_removeAs {places : List Location} (hplaces : ∀ place ∈ places, place.IsCanonical)
    (s : RootSet) :
    Queues (fun event => event.into? = none) s (places.foldl (fun s place => s.removeAs f place) s) :=
  queues_foldl (fun s place hplace => queues_removeAs hf (hplaces place hplace).2 s) s

end

theorem isCanonical_of_dropped (hd : w.directories.Canonical) {next : Directories} :
    ∀ place ∈ w.dropped next, place.IsCanonical := fun _ hplace =>
  hd.isCanonical (mem_dropped_iff.1 hplace).1

theorem queues_followFilters (s : RootSet) (settings : Settings) (change : SettingsChange) :
    Queues (fun event => event.into? = none) s (followFilters s settings change) := by
  rw [followFilters]
  split
  · refine ⟨_, rfl, fun event hevent => ?_⟩
    obtain ⟨place, -, rfl⟩ := List.mem_map.1 hevent
    rfl
  · exact .refl s

/-- Roots were folded only into directories that are configured as recursive or, where no root was
removed in between, into removable volumes. -/
def Folds (w : Steward) (s s' : RootSet) : Prop :=
  Queues (fun event => ∀ into, event.into? = some into → into ∈ w.directories.recursivePlaces) s s' ∨
    Queues (fun event => event.removed? = none ∧ ∀ into, event.into? = some into →
      into ∈ w.directories.recursivePlaces ∨ into ∈ w.removablePlaces.map Location.canonical) s s'

theorem folds_of_absorbing_none {s' : RootSet} (h : Queues (fun event => event.into? = none) s s') :
    w.Folds s s' :=
  .inl (h.mono fun event hnone into hinto => by rw [hnone] at hinto; contradiction)

theorem folds_of_volumes {s' : RootSet}
    (h : Queues (fun event => event.removed? = none ∧ ∀ into, event.into? = some into →
      into ∈ w.removablePlaces.map Location.canonical) s s') : w.Folds s s' :=
  .inr (h.mono fun _ h => ⟨h.1, fun into hinto => .inr (h.2 into hinto)⟩)

theorem folds_of_directories {s' : RootSet}
    (h : Queues (fun event => event.removed? = none ∧ ∀ into, event.into? = some into →
      into ∈ w.directories.recursivePlaces) s s') : w.Folds s s' :=
  .inl (h.mono fun _ h => h.2)

theorem Folds.events {s' : RootSet} (h : w.Folds s s') :
    ∃ later, s'.events = s.events ++ later ∧ ∀ root into, .absorbed root into ∈ later →
      into ∈ w.directories.recursivePlaces ∨ into ∈ w.removablePlaces.map Location.canonical ∧
        ∀ event ∈ later, event.removed? = none := by
  rcases h with ⟨later, hevents, hall⟩ | ⟨later, hevents, hall⟩
  · exact ⟨later, hevents, fun root into hmem => .inl (hall _ hmem into rfl)⟩
  · refine ⟨later, hevents, fun root into hmem => ?_⟩
    refine ((hall _ hmem).2 into rfl).imp_right fun hinto => ?_
    exact ⟨hinto, fun event hevent => (hall event hevent).1⟩

/-! ### Changes of the settings -/

/-- The set of roots when a change of the settings has reached the filters and the roots of dropped
directories have gone. -/
def cleared (w : Steward) (s : RootSet) (settings : Settings) (change : SettingsChange) : RootSet :=
  let s := followFilters s settings change
  if change.touchesDirectories then
    (removeDropped s (w.dropped (w.directoriesOf settings))).1
  else s

theorem queues_cleared (hd : w.directories.Canonical) (s : RootSet) (settings : Settings)
    (change : SettingsChange) :
    Queues (fun event => event.into? = none) s (w.cleared s settings change) := by
  refine (queues_followFilters s settings change).trans ?_
  simp only [cleared]
  split
  · exact queues_foldl_removeAs Flags.isRecursive_without_preserve (isCanonical_of_dropped hd) _
  · exact .refl _

theorem changes_cleared {P : Location → Prop} (w : Steward) (s : RootSet) (settings : Settings)
    (change : SettingsChange) : Changes P s (w.cleared s settings change) := by
  refine (changes_followFilters s settings change).trans ?_
  simp only [cleared]
  split
  · exact changes_removeDropped ..
  · exact .refl

/-- Once the roots of dropped directories have gone, a change of the settings adds the configured
directories anew or leaves them alone. -/
theorem followDirectories_eq (w : Steward) (s : RootSet) (settings : Settings)
    (change : SettingsChange) :
    let t := w.followDirectories (followFilters s settings change) settings change
    t.2.1 = w.cleared s settings change ∨ t.2.1 = t.1.syncRoots (w.cleared s settings change) := by
  simp only [followDirectories, cleared]
  cases change.touchesDirectories with
  | true => exact .inr rfl
  | false =>
    simp only [Bool.false_or, Bool.false_eq_true, ↓reduceIte]
    split
    · exact .inr rfl
    · exact .inl rfl

theorem canonical_followDirectories (hd : w.directories.Canonical) (s : RootSet)
    (settings : Settings) (change : SettingsChange) :
    (w.followDirectories s settings change).1.directories.Canonical := by
  simp only [followDirectories]
  cases change.touchesDirectories with
  | true => exact w.canonical_directoriesOf settings
  | false => exact hd

/-- Configured directories stay canonical. -/
theorem canonical_applySettings (hd : w.directories.Canonical) (s : RootSet) (settings : Settings)
    (change : SettingsChange) :
    (w.applySettings s settings change).1.directories.Canonical := by
  simp only [applySettings, directories_followRemovable]
  exact canonical_followDirectories hd ..

theorem removablePlaces_followRemovable (w : Steward) (s : RootSet) (settings : Settings)
    (change : SettingsChange) :
    (w.followRemovable s settings change).1.removablePlaces = w.removablePlaces := by
  rw [removablePlaces, mounts_followRemovable, ← removablePlaces]

/-- Whether removable volumes are indexed now, or no longer, decides about their roots. -/
theorem queues_followRemovable (w : Steward) (s : RootSet) (settings : Settings)
    (change : SettingsChange) :
    Queues (fun event => event.removed? = none ∧ ∀ into, event.into? = some into →
      into ∈ w.removablePlaces.map Location.canonical) s (w.followRemovable s settings change).2.1 ∨
    Queues (fun event => event.into? = none) s (w.followRemovable s settings change).2.1 := by
  simp only [followRemovable, changeRemovable]
  split
  · split
    · exact .inl (queues_addRemovable _ s)
    · exact .inr (queues_removeEach s _)
  · exact .inl (.refl s)

theorem queues_followDirectories (hd : w.directories.Canonical) (s : RootSet) (settings : Settings)
    (change : SettingsChange) :
    let t := w.followDirectories (followFilters s settings change) settings change
    Queues (fun event => event.removed? = none ∧ ∀ into, event.into? = some into →
      into ∈ t.1.directories.recursivePlaces) (w.cleared s settings change) t.2.1 := by
  intro t
  rcases w.followDirectories_eq s settings change with heq | heq <;> rw [heq]
  · exact .refl _
  · exact queues_syncRoots (canonical_followDirectories hd ..) _

/-- What a change of the settings folds roots into, once the roots of dropped directories have
gone. -/
theorem folds_applySettings (hd : w.directories.Canonical) (s : RootSet) (settings : Settings)
    (change : SettingsChange) :
    (w.applySettings s settings change).1.Folds (w.cleared s settings change)
      (w.applySettings s settings change).2.1 := by
  let t := w.followDirectories (followFilters s settings change) settings change
  have hdirectories := queues_followDirectories hd s settings change
  rw [Folds, show (w.applySettings s settings change).1.directories = t.1.directories from
      directories_followRemovable ..,
    show (w.applySettings s settings change).1.removablePlaces = t.1.removablePlaces from
      removablePlaces_followRemovable ..]
  rcases queues_followRemovable t.1 t.2.1 settings change with hvolumes | hnone
  · refine .inr ((hdirectories.mono ?_).trans (hvolumes.mono ?_))
    · exact fun _ h => ⟨h.1, fun into hinto => .inl (h.2 into hinto)⟩
    · exact fun _ h => ⟨h.1, fun into hinto => .inr (h.2 into hinto)⟩
  · refine .inl ((hdirectories.mono fun _ h => h.2).trans (hnone.mono ?_))
    intro event hnone into hinto
    rw [hnone] at hinto
    contradiction

/-! ### Volumes -/

theorem folds_mount (hd : w.directories.Canonical) (s : RootSet) (m : Mount) :
    (w.mount s m).1.Folds s (w.mount s m).2 := by
  let v : Steward := { w with mounts := w.mounts.insert m.path.location m }
  have hv : v.directories.Canonical := hd
  simp only [mount]
  split
  · next hremovable =>
    have hplace : m.path.location ∈ v.removablePlaces := OrderedMap.mem_keys_iff.2 ⟨m, by
      rw [OrderedMap.find?_filter, OrderedMap.find?_insert, if_pos rfl, Option.filter_some,
        if_pos hremovable]⟩
    refine folds_of_volumes ?_
    split
    · refine (queues_addDirectory v s m.path.location v.volumeFlags).mono fun event h => ?_
      exact ⟨h.1, fun into hinto =>
        List.mem_map.2 ⟨m.path.location, hplace, (h.2 into hinto).1.symm⟩⟩
    · exact .refl s
  · exact folds_of_directories (queues_addConfigured hv (fun _ hd => List.mem_of_mem_filter hd) s)

theorem folds_unmount (h : s.WellFormed) (path : Path) :
    (w.unmount s path).1.Folds s (w.unmount s path).2 := by
  refine folds_of_absorbing_none ?_
  rw [unmount]
  cases w.mounts.find? path.location with
  | none => exact .refl s
  | some m =>
    simp only
    split
    · exact queues_remove s _
    · refine queues_foldl_removeAs Flags.isRecursive_union_preserve (fun place hplace => ?_) s
      exact h.canonical place (isRoot_iff.2 (mem_places_iff.1 (List.mem_of_mem_filter hplace)))

/-- What a volume that comes or goes folds roots into. -/
theorem folds_followVolume (hd : w.directories.Canonical) (h : s.WellFormed) (event : VolumeEvent) :
    (w.followVolume s event).1.Folds s (w.followVolume s event).2 := by
  cases event with
  | mounted m => exact folds_mount hd s m
  | unmounted path => exact folds_unmount h path

/-! ### Dropped directories -/

/-- The roots of directories that a change of the settings drops are told to go. -/
theorem ended_of_dropped (hd : w.directories.Canonical) (h : s.WellFormed) {settings : Settings}
    {change : SettingsChange} (htouched : change.touchesDirectories = true)
    (hq : q ∈ w.directories.places)
    (hdropped : q ∉ (w.applySettings s settings change).1.directories.places)
    (hroot : s.isRoot q = true) :
    ∃ event ∈ (w.applySettings s settings change).2.1.events, event.ended? = some q := by
  have hnext : (w.applySettings s settings change).1.directories = w.directoriesOf settings := by
    simp only [applySettings, directories_followRemovable, followDirectories, htouched,
      ↓reduceIte, changeDirectories]
    rfl
  rw [hnext] at hdropped
  have hgone : (w.cleared s settings change).isRoot q = false := by
    have hfilters := (changes_followFilters s settings change).wellFormed h
    rw [← Bool.not_eq_true, isRoot_iff_flagsAt?]
    simp only [cleared, htouched, ↓reduceIte,
      flagsAt?_removeDropped hfilters,
      if_pos (mem_dropped_iff.2 ⟨hq, hdropped⟩)]
    simp
  have hchanges : Changes Location.IsSpelled s (w.cleared s settings change) :=
    changes_cleared w s settings change
  obtain ⟨event, hevent, hended⟩ :=
    (hchanges.isRoot_or_ended hroot).resolve_left (Bool.eq_false_iff.1 hgone)
  refine ⟨event, ?_, hended⟩
  rcases folds_applySettings hd s settings change with ⟨events, hevents, -⟩ | ⟨events, hevents, -⟩ <;>
    exact hevents ▸ List.mem_append_left events hevent

end Steward

end IndexControl
