import IndexControl.Proofs.Roots.Shelter
import IndexControl.Proofs.Steward.Settings

/-!
# What changed settings leave owned

When the configured directories are added anew, the single ones come first: they may leave places
below them to nobody, but they end no root. The recursive ones then shelter whatever is owned.

## Main definitions

* `Directories.IsFirm`: no single directory lies above, or the directory is recursive.

## Main results

* `Steward.retains_shelters_syncRoots`: the two halves of adding the configured directories.
* `Steward.isOwned_syncRoots_of_indexes`: which directories are owned afterwards.
* `Steward.applySettings_of_none_removed`: a change of the settings that removes nothing adds the
  configured directories anew or leaves the roots alone.
-/

namespace IndexControl

/-- A directory that no single one lies above, or a recursive one. No other directory can leave it to
nobody. -/
def Directories.IsFirm (d : Directories) (place : Location) : Prop :=
  place ∈ d.recursivePlaces ∨ ∀ above ∈ d.singlePlaces, place.isBelow above = false

namespace Steward

open RootSet

variable {w : Steward} {s : RootSet} {root into q : Location}

/-- Adding the configured directories retains all roots first and shelters what is owned then. -/
theorem retains_shelters_syncRoots (w : Steward) (h : s.WellFormed) :
    ∃ t : RootSet, s.Retains t ∧ t.WellFormed ∧ t.Shelters (w.syncRoots s) := by
  have hspelled (places : List Location) (hplaces : ∀ place ∈ places, place.IsSpelled) :
      ∀ place ∈ w.permitted places, place.IsSpelled :=
    fun place hplace => hplaces place (mem_permitted_iff.1 hplace).1
  have hsingle := hspelled w.directories.singlePlaces <|
    List.forall_mem_map.2 fun path _ => path.location_isSpelled
  have hrecursive := hspelled w.directories.recursivePlaces <|
    List.forall_mem_map.2 fun path _ => path.location_isSpelled
  have hsingles : (w.addSingles s).WellFormed :=
    (changes_foldl (fun s place hplace => .single (.add _ (hsingle place hplace))) s).wellFormed h
  refine ⟨w.addSingles s, ?_, hsingles, ?_⟩
  · exact h.retains_addEach hsingle fun place => isRecursive_flagsFor w place false
  · rw [syncRoots_eq]
    exact hsingles.shelters_addEach hrecursive fun place => isRecursive_flagsFor w place true

/-- What was a root is owned when the configured directories have been added anew. -/
theorem isOwned_syncRoots (w : Steward) (h : s.WellFormed) (hq : s.isRoot q = true) :
    (w.syncRoots s).IsOwned q := by
  obtain ⟨t, hretains, -, hshelters⟩ := w.retains_shelters_syncRoots h
  exact hshelters.owned q (isOwned_of_isRoot (hretains.isRoot q hq))

/-- The configured directories that may be indexed are owned when they have been added anew. -/
theorem isOwned_syncRoots_of_indexes (hd : w.directories.Canonical) (h : s.WellFormed)
    (hq : w.Indexes q) (hfirm : w.directories.IsFirm q) : (w.syncRoots s).IsOwned q := by
  have hplace : q ∈ w.directories.places := w.map_configured ▸ hq.1
  have hsingle : ∀ place ∈ w.permitted w.directories.singlePlaces, place.IsCanonical :=
    fun place hplace => hd.single_isCanonical place (mem_permitted_iff.1 hplace).1
  have hrecursive : ∀ place ∈ w.permitted w.directories.recursivePlaces, place.IsCanonical :=
    fun place hplace => hd.recursive_isCanonical place (mem_permitted_iff.1 hplace).1
  have hsingles : (w.addSingles s).WellFormed := h.addEach hsingle
  have hrec (place : Location) : (w.flagsFor place true).isRecursive = true :=
    isRecursive_flagsFor w place true
  rw [syncRoots_eq]
  by_cases hmem : q ∈ w.directories.recursivePlaces
  · exact hsingles.isOwned_addEach hrecursive hrec q (mem_permitted_iff.2 ⟨hmem, hq.2⟩)
  · have hmem' := (Directories.mem_places_iff.1 hplace).resolve_right hmem
    refine (hsingles.shelters_addEach (fun place hplace => (hrecursive place hplace).1) hrec).owned q ?_
    exact h.isOwned_addEach_plain hsingle (hd.nodup_single.sublist (w.permitted_sublist _))
      (fun place => isRecursive_flagsFor w place false) (mem_permitted_iff.2 ⟨hmem', hq.2⟩)
      fun above habove => hfirm.resolve_left hmem above (mem_permitted_iff.1 habove).1

/-- A root that is folded into another one then is owned. -/
theorem isOwned_of_absorbed_syncRoots (w : Steward) (h : s.WellFormed)
    (hevent : .absorbed root into ∈ (w.syncRoots s).events) :
    .absorbed root into ∈ s.events ∨ (w.syncRoots s).IsOwned root := by
  obtain ⟨t, hretains, -, hshelters⟩ := w.retains_shelters_syncRoots h
  exact (hshelters.absorbed root into hevent).imp_left (hretains.absorbed root into)

/-! ### Changes of the settings -/

/-- Where none of the places is a root nothing is removed. -/
theorem removeDropped_eq_self {dropped : List Location} (h : (removeDropped s dropped).2 = []) :
    (removeDropped s dropped).1 = s := by
  simp only [removeDropped, List.filter_eq_nil_iff] at h ⊢
  induction dropped with
  | nil => rfl
  | cons place dropped ih =>
    obtain ⟨hplace, hdropped⟩ := List.forall_mem_cons.1 h
    have hsame : s.removeAs (·.without .preserve) place = s := by
      rw [removeAs, root?_eq_none_of_isRoot (by simpa using hplace)]
    rw [List.foldl_cons, hsame]
    exact ih hdropped

theorem retains_followFilters (s : RootSet) (settings : Settings) (change : SettingsChange) :
    s.Retains (followFilters s settings change) := by
  rw [followFilters]
  split
  · refine ⟨fun _ => id, fun root into hevent => ?_⟩
    rcases List.mem_append.1 hevent with hevent | hevent
    · exact hevent
    · obtain ⟨place, -, heq⟩ := List.mem_map.1 hevent
      cases heq
  · exact .refl s

/-- A change of the settings that removes nothing adds the configured directories anew or leaves
the roots alone. -/
theorem applySettings_of_none_removed (hmounts : w.mounts = .empty) {settings : Settings}
    {change : SettingsChange} (h : (w.applySettings s settings change).2.2 = []) :
    (w.applySettings s settings change).2.1 = followFilters s settings change ∨
      ∃ v : Steward, (w.applySettings s settings change).2.1 =
        v.syncRoots (followFilters s settings change) := by
  let t := w.followDirectories (followFilters s settings change) settings change
  have hremovable : (w.applySettings s settings change).2.1 = t.2.1 := by
    have hnone : t.1.mounts = .empty := (mounts_followDirectories ..).trans hmounts
    simp only [applySettings, followRemovable]
    split
    · exact roots_changeRemovable hnone t.2.1 settings
    · rfl
  have hdropped : t.2.2 = [] := (List.append_eq_nil_iff.1 h).1
  rw [hremovable]
  simp only [t, followDirectories] at hdropped ⊢
  cases hdirectories : change.touchesDirectories with
  | true =>
    simp only [hdirectories, ↓reduceIte, changeDirectories] at hdropped
    simp only [↓reduceIte, Bool.true_or, changeDirectories, removeDropped_eq_self hdropped]
    exact .inr ⟨_, rfl⟩
  | false =>
    simp only [Bool.false_eq_true, ↓reduceIte, Bool.false_or]
    split
    · exact .inr ⟨_, rfl⟩
    · exact .inl rfl

end Steward

end IndexControl
