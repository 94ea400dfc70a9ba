import IndexControl.Proofs.Steward.Settings

/-!
# The terms of the settings

Settings are compared key by key, and whatever hangs on some of the keys stays the same unless one
of these has changed. What the steward and the set of roots have taken over of the settings are the
filters of the roots, the configured directories and two switches. Only a change of the settings that
touches the filters replaces them; volumes change none of it.

## Main definitions

* `Settings.Agree`: two settings are the same in every respect.

## Main results

* `Settings.change?_eq_none_iff`: settings change unless they agree.
* `Steward.filtersOf_congr`, `Steward.eligibility_congr`: settings between which nothing has changed
  that matters.
* `Steward.filters_establish`, `Steward.filters_applySettings`: the filters at the start and after
  a change of the settings.
* `Steward.filters_followVolume`, `Steward.under_followVolume`: what volumes leave.
-/

namespace IndexControl

/-! ### What has changed between two settings -/

/-- Two settings are the same in every respect. Paths are compared as places. -/
structure Settings.Agree (a b : Settings) : Prop where
  singleDirectories : a.singleDirectories = b.singleDirectories
  recursiveDirectories : a.recursiveDirectories = b.recursiveDirectories
  ignoredFiles : a.ignoredFiles = b.ignoredFiles
  ignoredDirectories : a.ignoredDirectories = b.ignoredDirectories
  markers : a.markers = b.markers
  filterHidden : a.filterHidden = b.filterHidden
  indexRemovable : a.indexRemovable = b.indexRemovable
  enableMonitors : a.enableMonitors = b.enableMonitors
  requireConfigured : a.requireConfigured = b.requireConfigured
  bufferLimit : a.bufferLimit = b.bufferLimit
  flushInterval : a.flushInterval = b.flushInterval
  stateDir : a.stateDir.map Path.location = b.stateDir.map Path.location

namespace Settings

variable {a b : Settings}

theorem Agree.refl (a : Settings) : a.Agree a :=
  ⟨rfl, rfl, rfl, rfl, rfl, rfl, rfl, rfl, rfl, rfl, rfl, rfl⟩

theorem agree_iff : a.Agree b ↔ ∀ key : SettingsKey, key.differs a b = false := by
  constructor
  · intro h key
    rw [← Bool.not_eq_true]
    cases key <;> simp only [SettingsKey.differs, decide_eq_true_eq, not_not]
    case singleDirectories => exact h.singleDirectories
    case recursiveDirectories => exact h.recursiveDirectories
    case ignoredFiles => exact h.ignoredFiles
    case ignoredDirectories => exact h.ignoredDirectories
    case markers => exact h.markers
    case filterHidden => exact h.filterHidden
    case indexRemovable => exact h.indexRemovable
    case enableMonitors => exact h.enableMonitors
    case requireConfigured => exact h.requireConfigured
    case bufferLimit => exact h.bufferLimit
    case flushInterval => exact h.flushInterval
    case stateDir => exact h.stateDir
  · intro h
    have hsame {p : Prop} [Decidable p] (key : SettingsKey)
        (hkey : key.differs a b = decide (¬p)) : p := by
      have hkept := h key
      rw [hkey] at hkept
      exact not_not.1 (of_decide_eq_false hkept)
    exact ⟨hsame .singleDirectories rfl, hsame .recursiveDirectories rfl, hsame .ignoredFiles rfl,
      hsame .ignoredDirectories rfl, hsame .markers rfl, hsame .filterHidden rfl,
      hsame .indexRemovable rfl, hsame .enableMonitors rfl, hsame .requireConfigured rfl,
      hsame .bufferLimit rfl, hsame .flushInterval rfl, hsame .stateDir rfl⟩

theorem changedKeys_eq_nil_iff : a.changedKeys b = [] ↔ a.Agree b := by
  rw [agree_iff, changedKeys, List.filter_eq_nil_iff]
  simp only [Bool.not_eq_true]
  refine ⟨fun h key => h key ?_, fun h key _ => h key⟩
  cases key <;> decide

/-- Settings change unless they agree. -/
theorem change?_eq_none_iff : a.change? b = none ↔ a.Agree b := by
  rw [← changedKeys_eq_nil_iff, change?]
  split
  · next hkeys => exact ⟨fun _ => hkeys, fun _ => rfl⟩
  · next hkeys => exact ⟨fun h => (Option.some_ne_none _ h).elim, fun h => absurd h hkeys⟩

instance (a b : Settings) : Decidable (a.Agree b) := decidable_of_iff _ changedKeys_eq_nil_iff

theorem change?_eq_some {change : SettingsChange} (h : a.change? b = some change) :
    change = ⟨a.changedKeys b⟩ := by
  rw [change?] at h
  split at h
  · contradiction
  · next keys hkeys =>
    rw [← Option.some.inj h]

theorem touchesFilters_changedKeys (a b : Settings) :
    SettingsChange.touchesFilters ⟨a.changedKeys b⟩ =
      (SettingsKey.differs a b .ignoredFiles || SettingsKey.differs a b .ignoredDirectories ||
        SettingsKey.differs a b .markers || SettingsKey.differs a b .filterHidden) := by
  simp [SettingsChange.touchesFilters, changedKeys, SettingsKey.all, List.any_filter,
    SettingsKey.affectsFilters, Bool.or_assoc]

end Settings

/-! ### The filters of the roots -/

namespace RootSet

variable {s : RootSet}

theorem filters_add (s : RootSet) (place : Location) (flags : Flags) :
    (s.add place flags).1.filters = s.filters := by
  rw [add]
  cases s.root? place.canonical with
  | some root =>
    simp only
    split_ifs <;> rfl
  | none =>
    cases s.recursiveAbove? place.canonical with
    | some above => rfl
    | none =>
      simp only
      split_ifs <;> rfl

theorem filters_remove (s : RootSet) (place : Location) :
    (s.remove place).1.filters = s.filters := by
  rw [remove]
  cases s.root? place.canonical <;> rfl

theorem filters_recordVolume (s : RootSet) (place : Location) (volume : Option String) :
    (s.recordVolume place volume).1.filters = s.filters := by
  rw [recordVolume]
  cases s.root? place with
  | none => rfl
  | some root => cases hvolume : root.volume <;> simp only [hvolume]

theorem filters_foldl {α : Type} {f : RootSet → α → RootSet}
    (h : ∀ s a, (f s a).filters = s.filters) (s : RootSet) (l : List α) :
    (l.foldl f s).filters = s.filters := by
  induction l generalizing s with
  | nil => rfl
  | cons a l ih => rw [List.foldl_cons, ih, h]

theorem filters_removeAs (s : RootSet) (f : Flags → Flags) (place : Location) :
    (s.removeAs f place).filters = s.filters := by
  rw [removeAs]
  cases s.root? place with
  | none => rfl
  | some root => rw [filters_remove, filters_add]

theorem filters_removeEach (s : RootSet) (places : List Location) :
    (s.removeEach places).1.filters = s.filters := by
  induction places generalizing s with
  | nil => rfl
  | cons place places ih => exact (ih _).trans (s.filters_remove place)

end RootSet

namespace Steward

open RootSet

variable (w : Steward)

/-- Settings between which no filter has changed ask for the same filters. -/
theorem filtersOf_congr {a b : Settings}
    (h : SettingsChange.touchesFilters ⟨a.changedKeys b⟩ = false) : filtersOf b = filtersOf a := by
  simp only [Settings.touchesFilters_changedKeys, Bool.or_eq_false_iff, SettingsKey.differs,
    decide_eq_false_iff_not, Decidable.not_not] at h
  obtain ⟨⟨⟨hfiles, hdirectories⟩, hmarkers⟩, hhidden⟩ := h
  rw [filtersOf, filtersOf, hfiles, hdirectories, hmarkers, hhidden]

theorem filters_addDirectory (s : RootSet) (place : Location) (flags : Flags) :
    (w.addDirectory s place flags).filters = s.filters := by
  rw [addDirectory]
  split
  · rfl
  · exact filters_add s place flags

theorem filters_addConfigured (s : RootSet) (directories : List (Location × Bool)) :
    (w.addConfigured s directories).filters = s.filters :=
  filters_foldl (fun s (d : Location × Bool) => w.filters_addDirectory s d.1 (w.flagsFor d.1 d.2)) s
    directories

theorem filters_syncRoots (s : RootSet) : (w.syncRoots s).filters = s.filters :=
  w.filters_addConfigured s w.configured

theorem filters_addRemovable (s : RootSet) : (w.addRemovable s).filters = s.filters :=
  filters_foldl (fun s place => w.filters_addDirectory s place w.volumeFlags) s w.removablePlaces

theorem filters_establish (s : RootSet) (settings : Settings) :
    (w.establish s settings).2.filters = filtersOf settings := by
  simp only [establish]
  split
  · exact (filters_addRemovable _ _).trans (filters_syncRoots _ _)
  · exact filters_syncRoots _ _

theorem filters_followDirectories (s : RootSet) (settings : Settings) (change : SettingsChange) :
    (w.followDirectories s settings change).2.1.filters = s.filters := by
  have hdropped (w : Steward) : (w.changeDirectories s settings).2.1.filters = s.filters :=
    filters_foldl (fun s place => s.filters_removeAs (·.without .preserve) place) s _
  simp only [followDirectories]
  cases change.touchesDirectories with
  | true => exact (filters_syncRoots _ _).trans (hdropped _)
  | false =>
    cases change.touches .enableMonitors with
    | true => exact filters_syncRoots _ s
    | false => rfl

theorem filters_followRemovable (s : RootSet) (settings : Settings) (change : SettingsChange) :
    (w.followRemovable s settings change).2.1.filters = s.filters := by
  simp only [followRemovable, changeRemovable]
  split
  · split
    · exact filters_addRemovable _ s
    · exact filters_removeEach s _
  · rfl

/-- A change of the settings replaces the filters if it touches them. -/
theorem filters_applySettings (s : RootSet) (settings : Settings) (change : SettingsChange) :
    (w.applySettings s settings change).2.1.filters =
      if change.touchesFilters then filtersOf settings else s.filters := by
  have hfollowed : (followFilters s settings change).filters =
      if change.touchesFilters then filtersOf settings else s.filters := by
    rw [followFilters]
    split <;> rfl
  rw [← hfollowed]
  exact (filters_followRemovable _ _ settings change).trans
    (w.filters_followDirectories _ settings change)

theorem filters_followVolume (s : RootSet) (event : VolumeEvent) :
    (w.followVolume s event).2.filters = s.filters := by
  cases event with
  | mounted m =>
    simp only [followVolume, mount]
    split
    · split
      · exact filters_addDirectory _ s _ _
      · rfl
    · exact filters_addConfigured _ s _
  | unmounted path =>
    rw [followVolume, unmount]
    cases w.mounts.find? path.location with
    | none => rfl
    | some m =>
      simp only
      split
      · exact filters_remove s _
      · exact filters_foldl (fun s root => s.filters_removeAs (·.union .preserve) root) s _

/-- Settings between which neither the directories nor the restriction to them has changed allow
the same requests. -/
theorem eligibility_congr {a b : Settings}
    (hdirectories : SettingsChange.touchesDirectories ⟨a.changedKeys b⟩ = false)
    (hrequire : SettingsChange.touches ⟨a.changedKeys b⟩ .requireConfigured = false) :
    (w.under b).eligibility b = (w.under a).eligibility a := by
  have hrestricts : a.requireConfigured = b.requireConfigured := by
    simpa [Settings.touches_changedKeys, SettingsKey.differs] using hrequire
  simp only [eligibility, under, w.directoriesOf_congr hdirectories, hrestricts]

/-- A volume changes neither the environment nor what the steward has taken over of the settings. -/
theorem under_followVolume (s : RootSet) (event : VolumeEvent) {settings : Settings}
    (h : w = w.under settings) :
    (w.followVolume s event).1 = (w.followVolume s event).1.under settings ∧
      (w.followVolume s event).1.environment = w.environment := by
  have hmounts (mounts : OrderedMap Location Mount) :
      ({ w with mounts } : Steward) = ({ w with mounts } : Steward).under settings :=
    congrArg (fun w : Steward => { w with mounts }) h
  cases event with
  | mounted m =>
    simp only [followVolume, mount]
    split <;> exact ⟨hmounts _, rfl⟩
  | unmounted path =>
    rw [followVolume, unmount]
    cases w.mounts.find? path.location with
    | none => exact ⟨h, rfl⟩
    | some m =>
      simp only
      split <;> exact ⟨hmounts _, rfl⟩

end Steward

end IndexControl
