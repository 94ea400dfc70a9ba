import IndexControl.Proofs.Roots.Removal
import IndexControl.Proofs.Steward.Resync
import IndexControl.Steward.Changes

/-!
# Roots after a history of settings

Taking over settings step by step gives the roots that the last settings give from scratch, but
for the single directories that were stranded when directories were last added anew.

## Main definitions

* `Settings.resyncs`: changes of the settings after which directories are added anew.
* `Steward.isStranded`: the places that a history of settings leaves without their roots.
* `Steward.under`, `Steward.Follows`: the state between two settings.

## Main results

* `Steward.flagsAt?_removeDropped`: removing what is no longer configured.
* `Steward.Follows.applySettings`: what one change of the settings leaves.
* `Steward.afterSettings_eq_fresh_iff`: when a history of settings does not matter.
-/

namespace IndexControl

namespace Flags

theorem isRecursive_without_preserve (f : Flags) :
    (f.without .preserve).isRecursive = f.isRecursive := by
  have hmask : ~~~preserve.bits &&& recurse.bits = recurse.bits := by decide
  have hbits : (f.without .preserve).bits &&& recurse.bits = f.bits &&& recurse.bits := by
    rw [without, UInt32.and_assoc, hmask]
  rw [isRecursive, isRecursive, contains, contains, hbits]

end Flags

/-! ### What has changed between two settings -/

namespace Settings

theorem touches_changedKeys (a b : Settings) (key : SettingsKey) :
    SettingsChange.touches ⟨a.changedKeys b⟩ key = key.differs a b := by
  rw [Bool.eq_iff_iff, SettingsChange.touches, List.contains_iff_mem, changedKeys,
    List.mem_filter]
  exact and_iff_right (by cases key <;> decide)

theorem touchesDirectories_changedKeys (a b : Settings) :
    SettingsChange.touchesDirectories ⟨a.changedKeys b⟩ =
      (SettingsKey.differs a b .singleDirectories ||
        SettingsKey.differs a b .recursiveDirectories) := by
  simp [SettingsChange.touchesDirectories, changedKeys, SettingsKey.all, List.any_filter,
    SettingsKey.affectsDirectories]

/-- Whether the configured directories are added anew when settings change. -/
def resyncs (before after : Settings) : Bool :=
  let change : SettingsChange := ⟨before.changedKeys after⟩
  change.touchesDirectories || change.touches .enableMonitors

/-- The last two settings in a row between which directories were added anew. -/
def lastResync? (previous : Settings) : List Settings → Option (Settings × Settings)
  | [] => none
  | next :: rest =>
    (lastResync? next rest).or (if previous.resyncs next then some (previous, next) else none)

end Settings

namespace Steward

open RootSet

variable {w : Steward} {s : RootSet} {q : Location}

/-! ### Removing what is no longer configured -/

/-- A root that is removed with other flags of the same extent just goes. -/
theorem flagsAt?_removeAs {f : Flags → Flags} (h : s.WellFormed)
    (hf : ∀ flags, (f flags).isRecursive = flags.isRecursive) (place q : Location) :
    (s.removeAs f place).flagsAt? q = if q = place then none else s.flagsAt? q := by
  cases hroot : s.root? place with
  | none =>
    rw [removeAs, hroot]
    split_ifs with hq
    · rw [hq, RootSet.flagsAt?, hroot, Option.map_none]
    · rfl
  | some root =>
    simp only [h.removeAs_eq_takeOut hf hroot, RootSet.flagsAt?, root?_takeOut, List.mem_singleton]
    split_ifs <;> rfl

/-- Roots that are removed one after the other with other flags of the same extent just go. -/
theorem flagsAt?_foldl_removeAs {f : Flags → Flags} {places : List Location} (h : s.WellFormed)
    (hf : ∀ flags, (f flags).isRecursive = flags.isRecursive) (q : Location) :
    (places.foldl (fun s place => s.removeAs f place) s).flagsAt? q =
      if q ∈ places then none else s.flagsAt? q := by
  induction places generalizing s with
  | nil => rfl
  | cons place places ih =>
    have hremove := flagsAt?_removeAs h hf place
    have hkept : (s.removeAs f place).WellFormed :=
      h.of_flagsAt?_imp fun q f hf => by
        rw [hremove] at hf
        split_ifs at hf
        exact hf
    rw [List.foldl_cons, ih hkept, hremove]
    by_cases hq : q = place <;> by_cases hmem : q ∈ places <;> simp [hq, hmem]

theorem flagsAt?_removeDropped (h : s.WellFormed) (dropped : List Location) (q : Location) :
    (removeDropped s dropped).1.flagsAt? q = if q ∈ dropped then none else s.flagsAt? q :=
  flagsAt?_foldl_removeAs h Flags.isRecursive_without_preserve q

theorem mem_dropped_iff {next : Directories} :
    q ∈ w.dropped next ↔ q ∈ w.directories.places ∧ q ∉ next.places := by
  have hnext : (next.roots.any fun root => decide (root.1.location = q)) = true ↔
      q ∈ next.places := by
    rw [← Directories.map_roots, List.any_eq_true, List.mem_map]
    simp only [decide_eq_true_eq]
  rw [dropped, List.mem_filter, Bool.not_eq_true', ← Bool.not_eq_true, hnext, map_configured]

/-! ### One change of the settings -/

/-- The steward who has taken over some settings. -/
def under (w : Steward) (settings : Settings) : Steward :=
  { w with
    indexRemovable := settings.indexRemovable
    enableMonitors := settings.enableMonitors
    directories := w.directoriesOf settings }

theorem removablePlaces_eq_nil (h : w.mounts = .empty) : w.removablePlaces = [] := by
  rw [removablePlaces, h]
  rfl

theorem roots_changeRemovable (h : w.mounts = .empty) (s : RootSet) (settings : Settings) :
    (w.changeRemovable s settings).2.1 = s := by
  simp only [changeRemovable]
  split
  · exact congrArg (List.foldl _ s) (removablePlaces_eq_nil h)
  · exact congrArg (fun places => (s.removeEach places).1) (removablePlaces_eq_nil h)

theorem directoriesOf_congr (w : Steward) {a b : Settings}
    (h : SettingsChange.touchesDirectories ⟨a.changedKeys b⟩ = false) :
    w.directoriesOf b = w.directoriesOf a := by
  rw [Settings.touchesDirectories_changedKeys, Bool.or_eq_false_iff] at h
  have hsingle : a.singleDirectories = b.singleDirectories := by
    simpa [SettingsKey.differs] using h.1
  have hrecursive : a.recursiveDirectories = b.recursiveDirectories := by
    simpa [SettingsKey.differs] using h.2
  rw [directoriesOf, directoriesOf, hsingle, hrecursive]

theorem steward_followDirectories (w : Steward) (s : RootSet) (a b : Settings) :
    ((w.under a).followDirectories s b ⟨a.changedKeys b⟩).1 =
      { w.under b with indexRemovable := a.indexRemovable } := by
  simp only [followDirectories]
  cases hdirectories : SettingsChange.touchesDirectories ⟨a.changedKeys b⟩ with
  | true => rfl
  | false =>
    simp only [under, w.directoriesOf_congr hdirectories]
    rfl

theorem roots_followDirectories (w : Steward) (s : RootSet) (a b : Settings) :
    ((w.under a).followDirectories s b ⟨a.changedKeys b⟩).2.1 =
      if a.resyncs b then
        (w.under b).syncRoots (removeDropped s ((w.under a).dropped (w.directoriesOf b))).1
      else s := by
  simp only [followDirectories, Settings.resyncs]
  by_cases hdirectories : SettingsChange.touchesDirectories ⟨a.changedKeys b⟩ = true
  · simp only [hdirectories, ↓reduceIte, Bool.true_or]
    rfl
  · rw [Bool.not_eq_true] at hdirectories
    -- Nothing is dropped: the directories are the same.
    have hdropped : (w.under a).dropped (w.directoriesOf b) = [] := by
      refine List.eq_nil_iff_forall_not_mem.2 fun q hq => ?_
      obtain ⟨hold, hnew⟩ := mem_dropped_iff.1 hq
      rw [w.directoriesOf_congr hdirectories] at hnew
      exact hnew hold
    rw [hdropped]
    simp only [hdirectories, Bool.false_eq_true, ↓reduceIte, Bool.false_or, under,
      w.directoriesOf_congr hdirectories]
    rfl

theorem steward_applySettings (w : Steward) (s : RootSet) (a b : Settings) :
    ((w.under a).applySettings s b ⟨a.changedKeys b⟩).1 = w.under b := by
  simp only [applySettings, followRemovable, steward_followDirectories]
  cases hremovable : SettingsChange.touches ⟨a.changedKeys b⟩ .indexRemovable with
  | true =>
    simp only [↓reduceIte, changeRemovable]
    split <;> rfl
  | false =>
    rw [Settings.touches_changedKeys] at hremovable
    have heq : a.indexRemovable = b.indexRemovable := by
      simpa [SettingsKey.differs] using hremovable
    simp only [Bool.false_eq_true, ↓reduceIte, heq]
    rfl

/-- A change of the settings removes what is no longer configured and adds the configured
directories anew, or it leaves the roots alone. -/
theorem roots_applySettings (h : w.mounts = .empty) (s : RootSet) (a b : Settings) :
    ((w.under a).applySettings s b ⟨a.changedKeys b⟩).2.1 =
      let s' := followFilters s b ⟨a.changedKeys b⟩
      if a.resyncs b then
        (w.under b).syncRoots (removeDropped s' ((w.under a).dropped (w.directoriesOf b))).1
      else s' := by
  have hmounts : ((w.under a).followDirectories (followFilters s b ⟨a.changedKeys b⟩) b
      ⟨a.changedKeys b⟩).1.mounts = .empty := by
    rw [mounts_followDirectories]
    exact h
  simp only [applySettings, followRemovable]
  split
  · rw [roots_changeRemovable hmounts, roots_followDirectories]
  · exact roots_followDirectories w _ a b

/-! ### Between two settings -/

/-- The steward and the roots after some settings: the roots are those that the settings ask
for, but for some single directories that are lost. -/
structure Follows (w : Steward) (settings : Settings) (lost : Location → Bool)
    (t : Steward × RootSet) : Prop where
  steward : t.1 = w.under settings
  wellFormed : t.2.WellFormed
  flagsAt? : ∀ q, t.2.flagsAt? q = if lost q then none else (w.under settings).wanted? q
  lost_single : ∀ q, lost q = true → q ∈ (w.directoriesOf settings).singlePlaces

theorem canonical_directoriesOf (w : Steward) (settings : Settings) :
    (w.directoriesOf settings).Canonical := Directories.canonical_reconcile ..

theorem flagsAt?_followFilters (s : RootSet) (settings : Settings) (change : SettingsChange)
    (q : Location) : (followFilters s settings change).flagsAt? q = s.flagsAt? q := by
  rw [followFilters]
  split <;> rfl

theorem directoriesOf_of_not_resyncs (w : Steward) {a b : Settings} (h : ¬a.resyncs b = true) :
    w.directoriesOf b = w.directoriesOf a := by
  rw [Settings.resyncs, Bool.not_eq_true, Bool.or_eq_false_iff] at h
  exact w.directoriesOf_congr h.1

/-- Settings after which nothing is added anew ask for the same roots. -/
theorem wanted?_of_not_resyncs (w : Steward) {a b : Settings} (h : ¬a.resyncs b = true)
    (q : Location) : (w.under b).wanted? q = (w.under a).wanted? q := by
  have hdirectories := w.directoriesOf_of_not_resyncs h
  rw [Settings.resyncs, Bool.not_eq_true, Bool.or_eq_false_iff, Settings.touches_changedKeys] at h
  have hmonitors : a.enableMonitors = b.enableMonitors := by
    simpa [SettingsKey.differs] using h.2
  simp only [under, hdirectories, ← hmonitors]
  rfl

/-- A root that stays when directories are dropped was asked for and is configured still. -/
theorem Follows.wanted?_of_removeDropped {settings next : Settings} {lost : Location → Bool}
    {t : Steward × RootSet} (h : w.Follows settings lost t) {f : Flags}
    (hf : (if q ∈ (w.under settings).dropped (w.directoriesOf next) then none
      else t.2.flagsAt? q) = some f) :
    (w.under settings).wanted? q = some f ∧ q ∈ (w.directoriesOf next).places := by
  rw [h.flagsAt?] at hf
  split_ifs at hf with hdropped hlost
  obtain ⟨-, hplace, -⟩ := wanted?_eq_some hf
  exact ⟨hf, by_contra fun hnew => hdropped (mem_dropped_iff.2 ⟨hplace, hnew⟩)⟩

/-- What stays when directories are dropped is left from the earlier directories. -/
theorem Follows.leftOver {settings next : Settings} {lost : Location → Bool}
    {t : Steward × RootSet} (h : w.Follows settings lost t)
    (hs : s.WellFormed) (hflags : ∀ q, s.flagsAt? q = t.2.flagsAt? q) :
    (w.under next).LeftOver (w.directoriesOf settings)
      (removeDropped s ((w.under settings).dropped (w.directoriesOf next))).1 := by
  have hcanonical := w.canonical_directoriesOf settings
  have hremoved := flagsAt?_removeDropped hs ((w.under settings).dropped (w.directoriesOf next))
  simp only [hflags] at hremoved
  constructor
  case wellFormed => exact (changes_removeDropped s _).wellFormed hs
  case configured =>
    intro q hq
    obtain ⟨f, hf⟩ := isRoot_iff_flagsAt?.1 hq
    rw [hremoved] at hf
    obtain ⟨hwanted, hnext⟩ := h.wanted?_of_removeDropped hf
    exact ⟨(wanted?_eq_some hwanted).1, hnext⟩
  case recursive_iff =>
    intro q
    rw [isRecursiveRoot_iff]
    constructor
    · rintro ⟨f, hf, hrec⟩
      rw [hremoved] at hf
      obtain ⟨hwanted, hnext⟩ := h.wanted?_of_removeDropped hf
      obtain ⟨hsystem, -, hrecursive⟩ := wanted?_eq_some hwanted
      exact ⟨hsystem, hrecursive hrec, hnext⟩
    · rintro ⟨hsystem, hrecursive, hnext⟩
      have hdropped : q ∉ (w.under settings).dropped (w.directoriesOf next) :=
        fun hmem => (mem_dropped_iff.1 hmem).2 hnext
      have hlost : ¬lost q = true :=
        fun hmem => hcanonical.apart q (h.lost_single q hmem) hrecursive
      refine ⟨(w.under settings).flagsFor q true, ?_, isRecursive_flagsFor ..⟩
      rw [hremoved, h.flagsAt?, if_neg hdropped, if_neg hlost]
      exact wanted?_of_mem_recursivePlaces hsystem hrecursive

theorem Follows.applySettings {settings : Settings} {lost : Location → Bool}
    {t : Steward × RootSet} (h : w.Follows settings lost t) (hmounts : w.mounts = .empty)
    (next : Settings) :
    w.Follows next
      (if settings.resyncs next then
        (w.directoriesOf settings).strands (w.directoriesOf next)
      else lost)
      ((t.1.applySettings t.2 next ⟨settings.changedKeys next⟩).1,
        (t.1.applySettings t.2 next ⟨settings.changedKeys next⟩).2.1) := by
  obtain ⟨v, s⟩ := t
  obtain rfl : v = w.under settings := h.steward
  constructor
  case steward => exact steward_applySettings w s settings next
  case wellFormed =>
    have hnone : (w.under settings).removablePlaces = [] := removablePlaces_eq_nil hmounts
    have hvolumes (place : Location) : ¬(w.under settings).IndexesVolume place := fun hplace =>
      List.not_mem_nil (hnone ▸ hplace.1)
    exact (changes_applySettings (fun _ _ hplace => hplace.isSpelled)
      fun _ _ place hplace => absurd hplace (hvolumes place)).wellFormed h.wellFormed
  case flagsAt? =>
    intro q
    have hkept := flagsAt?_followFilters s next ⟨settings.changedKeys next⟩
    have hwellFormed := (changes_followFilters s next ⟨settings.changedKeys next⟩).wellFormed
      h.wellFormed
    rw [roots_applySettings hmounts]
    simp only
    split
    · exact (h.leftOver hwellFormed hkept).flagsAt?_syncRoots (w.canonical_directoriesOf next) q
    · next hresync => rw [hkept, h.flagsAt?, wanted?_of_not_resyncs w hresync]
  case lost_single =>
    intro q hlost
    split at hlost
    · exact Directories.mem_singlePlaces_of_strands hlost
    · next hresync =>
      rw [w.directoriesOf_of_not_resyncs hresync]
      exact h.lost_single q hlost

/-- A set without roots is left from no directories. -/
theorem leftOver_of_no_roots (w : Steward) (hs : s.WellFormed)
    (hnone : ∀ q, s.flagsAt? q = none) : w.LeftOver .none s where
  wellFormed := hs
  configured q hq := by
    obtain ⟨f, hf⟩ := isRoot_iff_flagsAt?.1 hq
    rw [hnone] at hf
    contradiction
  recursive_iff q := by
    rw [isRecursiveRoot_eq_any, hnone]
    simp [Directories.recursivePlaces, Directories.none]

theorem roots_establish (hmounts : w.mounts = .empty) (s : RootSet) (settings : Settings) :
    (w.establish s settings).2 =
      (w.under settings).syncRoots (s.setFilters (filtersOf settings)) := by
  have hvolumes : (w.under settings).removablePlaces = [] := removablePlaces_eq_nil hmounts
  simp only [establish]
  split
  · exact congrArg (List.foldl _ _) hvolumes
  · rfl

theorem follows_establish (hmounts : w.mounts = .empty) (filters : Filters)
    (settings : Settings) :
    w.Follows settings (fun _ => false) (w.establish (.empty filters) settings) := by
  constructor
  case steward => rfl
  case wellFormed =>
    have hvolumes (place : Location) : ¬w.IndexesVolume place := fun hplace =>
      List.not_mem_nil (removablePlaces_eq_nil hmounts ▸ hplace.1)
    exact (changes_establish (fun _ hplace => hplace.isSpelled)
      fun place hplace => absurd hplace (hvolumes place)).wellFormed (wellFormed_empty filters)
  case flagsAt? =>
    intro q
    have hwellFormed := (Change.setFilters (filtersOf settings)).wellFormed
      (wellFormed_empty filters)
    have hleft := (w.under settings).leftOver_of_no_roots hwellFormed fun _ => rfl
    rw [roots_establish hmounts]
    exact hleft.flagsAt?_syncRoots (w.canonical_directoriesOf settings) q
  case lost_single => exact fun q hlost => Bool.noConfusion hlost

/-! ### Histories of settings -/

/-- The places without their roots after the last of some changes with which directories were
added anew, if there was one; `lost` says which they were before. -/
def lostAfter (w : Steward) (lost : Location → Bool) : Option (Settings × Settings) →
    Location → Bool
  | none => lost
  | some (before, after) => (w.directoriesOf before).strands (w.directoriesOf after)

/-- Whether settings and others that follow leave a single directory without its root: it was
stranded when directories were last added anew. -/
def isStranded (w : Steward) (first : Settings) (later : List Settings) : Location → Bool :=
  w.lostAfter (fun _ => false) (Settings.lastResync? first later)

theorem lostAfter_or (w : Steward) (lost : Location → Bool)
    (change change' : Option (Settings × Settings)) :
    w.lostAfter lost (change.or change') = w.lostAfter (w.lostAfter lost change') change := by
  cases change <;> rfl

theorem Follows.takeOver {previous : Settings} {lost : Location → Bool} {t : Steward × RootSet}
    (h : w.Follows previous lost t) (hmounts : w.mounts = .empty) (later : List Settings) :
    w.Follows (later.getLastD previous)
      (w.lostAfter lost (Settings.lastResync? previous later))
      (t.1.takeOver t.2 previous later) := by
  induction later generalizing previous lost t with
  | nil => exact h
  | cons next rest ih =>
    have hlost : (if previous.resyncs next then
        (w.directoriesOf previous).strands (w.directoriesOf next) else lost) =
        w.lostAfter lost (if previous.resyncs next then some (previous, next) else none) := by
      split <;> rfl
    have hnext := h.applySettings hmounts next
    rw [hlost] at hnext
    rw [Settings.lastResync?, lostAfter_or, List.getLastD_cons]
    exact ih hnext

theorem follows_afterSettings (environment : Environment) (systemLocations : List Location)
    (first : Settings) (later : List Settings) :
    (new environment systemLocations).Follows (later.getLastD first)
      ((new environment systemLocations).isStranded first later)
      (afterSettings environment systemLocations first later) :=
  (follows_establish rfl .none first).takeOver rfl later

/-- **What a history of settings leaves.** Taking over settings one after the other gives the
roots, with their flags, that a start with the last settings gives, but without the roots of
stranded directories. So the history does not matter just where a start gives no root at a
stranded directory either. -/
theorem afterSettings_eq_fresh_iff (environment : Environment) (systemLocations : List Location)
    (first : Settings) (later : List Settings) :
    let roots := (afterSettings environment systemLocations first later).2
    let fresh := (afterSettings environment systemLocations (later.getLastD first) []).2
    let stranded := (new environment systemLocations).isStranded first later
    (∀ q, roots.flagsAt? q = if stranded q then none else fresh.flagsAt? q) ∧
      ((∀ q, roots.flagsAt? q = fresh.flagsAt? q) ↔
        ∀ q, stranded q = true → fresh.flagsAt? q = none) := by
  intro roots fresh stranded
  have hroots := (follows_afterSettings environment systemLocations first later).flagsAt?
  have hfresh := (follows_afterSettings environment systemLocations (later.getLastD first)
    []).flagsAt?
  have hpart (q : Location) :
      roots.flagsAt? q = if stranded q then none else fresh.flagsAt? q := by
    rw [hroots]
    exact if_congr Iff.rfl rfl (hfresh q).symm
  refine ⟨hpart, fun hsame q hq => ?_, fun hnone q => ?_⟩
  · rw [← hsame, hpart, if_pos hq]
  · rw [hpart]
    split
    · next hq => exact (hnone q hq).symm
    · rfl

/-- The order of the list matters after a directory has stopped being recursive: `/a/b` has no
root when it is listed ahead of `/a`, but a start with the same settings gives it one. -/
theorem afterSettings_ne_fresh :
    let nowhere : Environment := ⟨fun _ => none, none, fun _ => none, fun _ => false⟩
    let first : Settings :=
      { Settings.default with singleDirectories := [], recursiveDirectories := ["/a"] }
    let next : Settings :=
      { Settings.default with singleDirectories := ["/a/b", "/a"], recursiveDirectories := [] }
    let place := (Path.ofString "/a/b").location
    (afterSettings nowhere [] first [next]).2.flagsAt? place = none ∧
      (afterSettings nowhere [] next []).2.flagsAt? place =
        some (Flags.checkTime.union .monitor) := by
  decide

end Steward

end IndexControl
