import IndexControl.Proofs.Roots.Replay
import IndexControl.Steward.Changes

/-!
# What the steward does to the set of roots

Settings and volumes reach the set of roots only through the changes that the set offers. New
roots appear at configured places and at mounted volumes, and at no place that is never indexed.

## Main definitions

* `Steward.Indexes`, `Steward.IndexesVolume`: the configured places, and the places of removable
  volumes, that may be indexed.
* `Steward.IndexesWith`: the places that are indexed when a volume comes.

## Main results

* `Steward.changes_establish`, `Steward.changes_applySettings`: settings.
* `Steward.changes_followVolume`: volumes.
-/

namespace IndexControl

variable {P : Location → Prop}

namespace RootSet

theorem changes_foldl {α : Type} {f : RootSet → α → RootSet} {l : List α}
    (h : ∀ s, ∀ a ∈ l, Changes P s (f s a)) (s : RootSet) : Changes P s (l.foldl f s) := by
  induction l generalizing s with
  | nil => exact .refl
  | cons a l ih =>
    have hrest (s' : RootSet) (b : α) (hb : b ∈ l) := h s' b (List.mem_cons_of_mem a hb)
    exact (h s a List.mem_cons_self).trans (ih hrest (f s a))

theorem changes_removeAs (s : RootSet) (f : Flags → Flags) (place : Location) :
    Changes P s (s.removeAs f place) := by
  rw [removeAs]
  cases hroot : s.root? place with
  | none => exact .refl
  | some root =>
    exact (Relation.ReflTransGen.single
      (.restyle (f root.flags) (isRoot_iff.2 ⟨root, hroot⟩))).tail (.remove place)

theorem changes_removeEach (s : RootSet) (places : List Location) :
    Changes P s (s.removeEach places).1 := by
  induction places generalizing s with
  | nil => exact .refl
  | cons place places ih => exact .head (.remove place) (ih _)

end RootSet

namespace Steward

open RootSet

variable {w : Steward} {s : RootSet}

/-- A place is configured and may be indexed. -/
def Indexes (w : Steward) (place : Location) : Prop :=
  place ∈ w.configured.map (·.1) ∧ w.isSystemLocation place = false

/-- A removable volume is mounted at a place that may be indexed. -/
def IndexesVolume (w : Steward) (place : Location) : Prop :=
  place ∈ w.removablePlaces ∧ w.isSystemLocation place = false

/-- A place is indexed when a volume comes. -/
def IndexesWith (w : Steward) (m : Mount) (place : Location) : Prop :=
  if m.removable then
    w.indexRemovable = true ∧ place = m.path.location ∧ w.isSystemLocation place = false
  else w.Indexes place ∧ place.startsWith m.path.location = true

theorem isSpelled_of_mem_configured {d : Location × Bool} (h : d ∈ w.configured) :
    d.1.IsSpelled := by
  obtain ⟨root, -, rfl⟩ := List.mem_map.1 h
  exact root.1.location_isSpelled

theorem Indexes.isSpelled {place : Location} (h : w.Indexes place) : place.IsSpelled := by
  obtain ⟨d, hd, rfl⟩ := List.mem_map.1 h.1
  exact isSpelled_of_mem_configured hd

theorem IndexesWith.isSpelled {m : Mount} {place : Location} (h : w.IndexesWith m place) :
    place.IsSpelled := by
  rw [IndexesWith] at h
  split at h
  · exact h.2.1 ▸ m.path.location_isSpelled
  · exact h.1.isSpelled

/-! ### Adding -/

theorem changes_addDirectory {place : Location} (h : w.isSystemLocation place = false → P place)
    (s : RootSet) (flags : Flags) : Changes P s (w.addDirectory s place flags) := by
  rw [addDirectory]
  split
  · exact .refl
  · next hallowed => exact .single (.add flags (h (Bool.eq_false_iff.2 hallowed)))

theorem changes_addConfigured {directories : List (Location × Bool)}
    (h : ∀ d ∈ directories, w.isSystemLocation d.1 = false → P d.1) (s : RootSet) :
    Changes P s (w.addConfigured s directories) :=
  changes_foldl (fun s d hd => changes_addDirectory (h d hd) s (w.flagsFor d.1 d.2)) s

theorem changes_syncRoots (h : ∀ place, w.Indexes place → P place) (s : RootSet) :
    Changes P s (w.syncRoots s) :=
  changes_addConfigured (fun d hd hallowed => h d.1 ⟨List.mem_map_of_mem hd, hallowed⟩) s

theorem changes_addRemovable (h : ∀ place, w.IndexesVolume place → P place) (s : RootSet) :
    Changes P s (w.addRemovable s) :=
  changes_foldl (fun s place hplace =>
    changes_addDirectory (fun hallowed => h place ⟨hplace, hallowed⟩) s w.volumeFlags) s

/-- The places of the mounted removable volumes are among those of all mounted ones. -/
theorem removablePlaces_of_mounts (h : ∀ place, w.mounts.contains place = true → P place) :
    ∀ place ∈ w.removablePlaces, P place := by
  intro place hplace
  obtain ⟨m, hm⟩ := OrderedMap.mem_keys_iff.1 hplace
  rw [OrderedMap.find?_filter, Option.filter_eq_some_iff] at hm
  exact h place (OrderedMap.contains_iff.2 ⟨m, hm.1⟩)

/-! ### Settings -/

theorem changes_establish {settings : Settings}
    (h : ∀ place, (w.establish s settings).1.Indexes place → P place)
    (hvolumes : ∀ place, w.IndexesVolume place → P place) :
    Changes P s (w.establish s settings).2 := by
  have hsync := changes_syncRoots h (s.setFilters (filtersOf settings))
  have hvolumes : ∀ place, (w.establish s settings).1.IndexesVolume place → P place := hvolumes
  refine .head (.setFilters (filtersOf settings)) (hsync.trans ?_)
  simp only [establish]
  split
  · exact changes_addRemovable hvolumes _
  · exact .refl

theorem changes_removeDropped (s : RootSet) (dropped : List Location) :
    Changes P s (removeDropped s dropped).1 :=
  changes_foldl (fun s place _ => changes_removeAs s (·.without .preserve) place) s

theorem changes_changeDirectories (s : RootSet) (settings : Settings) :
    Changes P s (w.changeDirectories s settings).2.1 :=
  changes_removeDropped s (w.dropped (w.directoriesOf settings))

theorem changes_changeRemovable {settings : Settings}
    (hvolumes : settings.indexRemovable = true → ∀ place, w.IndexesVolume place → P place)
    (s : RootSet) : Changes P s (w.changeRemovable s settings).2.1 := by
  simp only [changeRemovable]
  split
  · next hindexed => exact changes_addRemovable (hvolumes hindexed) s
  · exact changes_removeEach s _

theorem changes_followFilters (s : RootSet) (settings : Settings) (change : SettingsChange) :
    Changes P s (followFilters s settings change) := by
  rw [followFilters]
  split
  · exact .head (.setFilters (filtersOf settings)) (.single .updateAll)
  · exact .refl

theorem changes_followDirectories {settings : Settings} {change : SettingsChange}
    (h : change.touchesDirectories = true ∨ change.touches .enableMonitors = true →
      ∀ place, (w.followDirectories s settings change).1.Indexes place → P place) :
    Changes P s (w.followDirectories s settings change).2.1 := by
  simp only [followDirectories] at h ⊢
  cases hdirectories : change.touchesDirectories with
  | true =>
    simp only [hdirectories, ↓reduceIte, true_or, forall_const] at h
    exact (changes_changeDirectories s settings).trans (changes_syncRoots h _)
  | false =>
    cases hmonitors : change.touches .enableMonitors with
    | true =>
      simp only [hdirectories, hmonitors, or_true, forall_const] at h
      exact changes_syncRoots h s
    | false => exact .refl

theorem mounts_followDirectories (s : RootSet) (settings : Settings) (change : SettingsChange) :
    (w.followDirectories s settings change).1.mounts = w.mounts := by
  simp only [followDirectories]
  cases change.touchesDirectories <;> rfl

theorem systemLocations_followDirectories (s : RootSet) (settings : Settings)
    (change : SettingsChange) :
    (w.followDirectories s settings change).1.systemLocations = w.systemLocations := by
  simp only [followDirectories]
  cases change.touchesDirectories <;> rfl

/-- Only whether removable volumes are indexed is taken over last. -/
theorem steward_followRemovable (s : RootSet) (settings : Settings) (change : SettingsChange) :
    ∃ indexRemovable, (w.followRemovable s settings change).1 = { w with indexRemovable } := by
  simp only [followRemovable, changeRemovable]
  split
  · exact ⟨settings.indexRemovable, by split <;> rfl⟩
  · exact ⟨w.indexRemovable, rfl⟩

theorem mounts_followRemovable (s : RootSet) (settings : Settings) (change : SettingsChange) :
    (w.followRemovable s settings change).1.mounts = w.mounts := by
  obtain ⟨indexRemovable, heq⟩ := w.steward_followRemovable s settings change
  rw [heq]

theorem directories_followRemovable (s : RootSet) (settings : Settings)
    (change : SettingsChange) :
    (w.followRemovable s settings change).1.directories = w.directories := by
  obtain ⟨indexRemovable, heq⟩ := w.steward_followRemovable s settings change
  rw [heq]

theorem changes_followRemovable {settings : Settings} {change : SettingsChange}
    (hvolumes : change.touches .indexRemovable = true → settings.indexRemovable = true →
      ∀ place, w.IndexesVolume place → P place) (s : RootSet) :
    Changes P s (w.followRemovable s settings change).2.1 := by
  rw [followRemovable]
  split
  · next htouched => exact changes_changeRemovable (hvolumes htouched) s
  · exact .refl

/-- Changed settings add configured directories, when they add them anew, and removable volumes, when
such volumes come to be indexed. -/
theorem changes_applySettings {settings : Settings} {change : SettingsChange}
    (h : change.touchesDirectories = true ∨ change.touches .enableMonitors = true →
      ∀ place, (w.applySettings s settings change).1.Indexes place → P place)
    (hvolumes : change.touches .indexRemovable = true → settings.indexRemovable = true →
      ∀ place, w.IndexesVolume place → P place) :
    Changes P s (w.applySettings s settings change).2.1 := by
  let t := w.followDirectories (followFilters s settings change) settings change
  obtain ⟨indexRemovable, heq⟩ := t.1.steward_followRemovable t.2.1 settings change
  have hsteward : (w.applySettings s settings change).1 = { t.1 with indexRemovable } := heq
  rw [hsteward] at h
  have hdirectories : Changes P (followFilters s settings change) t.2.1 := changes_followDirectories h
  have hmounted : change.touches .indexRemovable = true → settings.indexRemovable = true →
      ∀ place, t.1.IndexesVolume place → P place := by
    intro htouched hindexed place hplace
    refine hvolumes htouched hindexed place ⟨?_, ?_⟩
    · rw [removablePlaces, ← mounts_followDirectories]
      exact hplace.1
    · rw [isSystemLocation, ← systemLocations_followDirectories]
      exact hplace.2
  exact (changes_followFilters s settings change).trans
    (hdirectories.trans (changes_followRemovable hmounted t.2.1))

theorem mounts_applySettings (s : RootSet) (settings : Settings) (change : SettingsChange) :
    (w.applySettings s settings change).1.mounts = w.mounts :=
  (mounts_followRemovable ..).trans (mounts_followDirectories ..)

/-- No settings reach the locations that are never indexed. -/
theorem systemLocations_applySettings (s : RootSet) (settings : Settings) (change : SettingsChange) :
    (w.applySettings s settings change).1.systemLocations = w.systemLocations := by
  let t := w.followDirectories (followFilters s settings change) settings change
  obtain ⟨indexRemovable, heq⟩ := t.1.steward_followRemovable t.2.1 settings change
  exact (congrArg Steward.systemLocations heq).trans (systemLocations_followDirectories ..)

/-- The directories stay the same unless the change touches them. -/
theorem directories_applySettings (s : RootSet) (settings : Settings) {change : SettingsChange}
    (h : change.touchesDirectories = false) :
    (w.applySettings s settings change).1.directories = w.directories := by
  have hdirectories (s : RootSet) :
      (w.followDirectories s settings change).1.directories = w.directories := by
    simp only [followDirectories, h]
    rfl
  exact (directories_followRemovable ..).trans (hdirectories _)

/-! ### Volumes -/

theorem steward_mount (s : RootSet) (m : Mount) :
    (w.mount s m).1 = { w with mounts := w.mounts.insert m.path.location m } := by
  simp only [mount]
  split <;> rfl

/-- A volume is known by its place, as long as it is mounted. -/
theorem contains_mounts_followVolume {s : RootSet} {event : VolumeEvent} {place : Location}
    (h : (w.followVolume s event).1.mounts.contains place = true) :
    w.mounts.contains place = true ∨ ∃ path : Path, place = path.location := by
  cases event with
  | mounted m =>
    rw [followVolume, steward_mount, OrderedMap.contains_insert] at h
    exact h.symm.imp_right fun heq => ⟨m.path, heq⟩
  | unmounted path =>
    rw [followVolume, unmount] at h
    cases hfind : w.mounts.find? path.location with
    | none =>
      rw [hfind] at h
      exact .inl h
    | some m =>
      simp only [hfind] at h
      split at h <;> exact .inl (OrderedMap.contains_erase.1 h).1

/-- Only the mounted volumes change. -/
theorem steward_followVolume (w : Steward) (s : RootSet) (event : VolumeEvent) :
    ∃ mounts, (w.followVolume s event).1 = { w with mounts } := by
  cases event with
  | mounted m => exact ⟨_, steward_mount s m⟩
  | unmounted path =>
    rw [followVolume, unmount]
    cases w.mounts.find? path.location with
    | none => exact ⟨w.mounts, rfl⟩
    | some m => exact ⟨w.mounts.erase path.location, by simp only; split <;> rfl⟩

theorem directories_followVolume (s : RootSet) (event : VolumeEvent) :
    (w.followVolume s event).1.directories = w.directories := by
  obtain ⟨mounts, heq⟩ := w.steward_followVolume s event
  rw [heq]

theorem systemLocations_followVolume (w : Steward) (s : RootSet) (event : VolumeEvent) :
    (w.followVolume s event).1.systemLocations = w.systemLocations := by
  obtain ⟨mounts, heq⟩ := w.steward_followVolume s event
  rw [heq]

theorem changes_mount {m : Mount} (h : ∀ place, w.IndexesWith m place → P place) (s : RootSet) :
    Changes P s (w.mount s m).2 := by
  simp only [mount, IndexesWith] at h ⊢
  split
  · next hremovable =>
    simp only [hremovable, ↓reduceIte] at h
    split
    · next hindexed =>
      exact changes_addDirectory (fun hallowed => h m.path.location ⟨hindexed, rfl, hallowed⟩) s _
    · exact .refl
  · next hremovable =>
    simp only [hremovable] at h
    refine changes_addConfigured (fun d hd hallowed => ?_) s
    obtain ⟨hmem, hon⟩ := List.mem_filter.1 hd
    exact h d.1 ⟨⟨List.mem_map_of_mem hmem, hallowed⟩, hon⟩

theorem changes_unmount (s : RootSet) (path : Path) : Changes P s (w.unmount s path).2 := by
  rw [unmount]
  cases w.mounts.find? path.location with
  | none => exact .refl
  | some m =>
    simp only
    split
    · exact .single (.remove path.location)
    · exact changes_foldl (fun s root _ => changes_removeAs s (·.union .preserve) root) s

theorem changes_followVolume {event : VolumeEvent}
    (h : ∀ m, event = .mounted m → ∀ place, w.IndexesWith m place → P place) (s : RootSet) :
    Changes P s (w.followVolume s event).2 := by
  cases event with
  | mounted m => exact changes_mount (h m rfl) s
  | unmounted path => exact changes_unmount s path

end Steward

end IndexControl
