import IndexControl.Proofs.Roots.Edits
import IndexControl.Proofs.Steward.Folding
import IndexControl.Proofs.Watches.Holders

/-!
# How the set of roots is edited

The steward and the records of who watches what change the set of roots by edits alone. They make
plain only the roots of single directories: all other roots that they add are recursive, and a root
that is given other flags before it goes stays as recursive as it was.

## Main results

* `Steward.edits_syncRoots`, `Steward.edits_establish`, `Steward.edits_applySettings`,
  `Steward.edits_followVolume`: what the steward does.
* `Watches.edits_apply`, `Watches.edits_release`: what requests and releases do.
-/

namespace IndexControl

variable {P : Location → Prop} {s : RootSet}

namespace RootSet

theorem edits_foldl {α : Type} {f : RootSet → α → RootSet} {l : List α}
    (h : ∀ s, ∀ a ∈ l, Edits P s (f s a)) (s : RootSet) : Edits P s (l.foldl f s) := by
  induction l generalizing s with
  | nil => exact .refl
  | cons a l ih =>
    obtain ⟨ha, hl⟩ := List.forall_mem_cons.1 fun a ha s => h s a ha
    exact (ha s).trans (ih (fun s a ha => hl a ha s) (f s a))

theorem edits_addEach {flags : Location → Flags} {places : List Location}
    (hplaces : ∀ place ∈ places, place.IsSpelled)
    (hflags : ∀ place, (flags place).isRecursive = true)
    (s : RootSet) : Edits P s (s.addEach flags places) :=
  edits_foldl (fun _ place hplace => .single (.add (hplaces place hplace) (.inl (hflags place)))) s

theorem edits_removeEach (s : RootSet) (places : List Location) :
    Edits P s (s.removeEach places).1 := by
  induction places generalizing s with
  | nil => exact .refl
  | cons place places ih => exact .head (.remove place) (ih _)

section

variable {f : Flags → Flags} (hf : ∀ g : Flags, (f g).isRecursive = g.isRecursive)

include hf

theorem WellFormed.edits_removeAs (h : s.WellFormed) (place : Location) :
    Edits P s (s.removeAs f place) := by
  rw [removeAs]
  cases hroot : s.root? place with
  | none => exact .refl
  | some root =>
    have hplace := h.canonical place (isRoot_iff.2 ⟨root, hroot⟩)
    refine (Relation.ReflTransGen.single (.add hplace.1 ?_)).tail (.remove place)
    cases hrec : root.flags.isRecursive with
    | true => exact .inl ((hf _).trans hrec)
    | false => exact .inr (.inr ⟨root.flags, by rw [hplace.2, flagsAt?, hroot]; rfl, hrec⟩)

theorem WellFormed.edits_foldl_removeAs (h : s.WellFormed) (places : List Location) :
    Edits P s (places.foldl (fun s place => s.removeAs f place) s) := by
  induction places generalizing s with
  | nil => exact .refl
  | cons place places ih =>
    have hfirst : Edits P s (s.removeAs f place) := h.edits_removeAs hf place
    exact hfirst.trans (ih (hfirst.wellFormed h))

end

end RootSet

namespace Steward

open RootSet

variable {w : Steward}

theorem edits_addDirectory {place : Location} {flags : Flags} (hplace : place.IsSpelled)
    (hflags : flags.isRecursive = true ∨ P place.canonical) (s : RootSet) :
    Edits P s (w.addDirectory s place flags) := by
  rw [addDirectory]
  split
  · exact .refl
  · exact .single (.add hplace (hflags.imp_right .inl))

/-- Only single directories get plain roots. -/
theorem edits_addConfigured (hd : w.directories.Canonical) {directories : List (Location × Bool)}
    (hsub : ∀ d ∈ directories, d ∈ w.configured) (s : RootSet) :
    Edits (· ∈ w.directories.singlePlaces) s (w.addConfigured s directories) := by
  refine edits_foldl (fun s d hmem => ?_) s
  obtain ⟨place, recursive⟩ := d
  refine edits_addDirectory (isSpelled_of_mem_configured (hsub _ hmem)) ?_ s
  cases recursive with
  | true => exact .inl (isRecursive_flagsFor ..)
  | false =>
    have hsingle : _ ∈ w.directories.singlePlaces := mem_configured_iff.1 (hsub _ hmem)
    exact .inr (by rwa [(hd.single_isCanonical place hsingle).2])

theorem edits_syncRoots (hd : w.directories.Canonical) (s : RootSet) :
    Edits (· ∈ w.directories.singlePlaces) s (w.syncRoots s) :=
  edits_addConfigured hd (fun _ => id) s

theorem edits_addRemovable (hplaces : ∀ place ∈ w.removablePlaces, place.IsSpelled) (s : RootSet) :
    Edits P s (w.addRemovable s) :=
  edits_foldl (fun s place hplace =>
    edits_addDirectory (hplaces place hplace) (.inl (isRecursive_volumeFlags w)) s) s

/-! ### Settings -/

theorem edits_establish (hplaces : ∀ place ∈ w.removablePlaces, place.IsSpelled) (s : RootSet)
    (settings : Settings) :
    Edits (· ∈ (w.establish s settings).1.directories.singlePlaces) s
      (w.establish s settings).2 := by
  have hsync := edits_syncRoots (w := (w.establish s settings).1)
    (w.canonical_directoriesOf settings) (s.setFilters (filtersOf settings))
  refine .head (.setFilters (filtersOf settings)) (hsync.trans ?_)
  simp only [establish]
  split
  · exact edits_addRemovable (w := (w.establish s settings).1) hplaces _
  · exact .refl

theorem edits_followFilters (s : RootSet) (settings : Settings) (change : SettingsChange) :
    Edits P s (followFilters s settings change) := by
  rw [followFilters]
  split
  · exact .head (.setFilters (filtersOf settings)) (.single .updateAll)
  · exact .refl

theorem edits_cleared (h : s.WellFormed) (w : Steward) (settings : Settings)
    (change : SettingsChange) : Edits P s (w.cleared s settings change) := by
  have hfilters : Edits P s (followFilters s settings change) :=
    edits_followFilters s settings change
  refine hfilters.trans ?_
  simp only [cleared]
  split
  · exact (hfilters.wellFormed h).edits_foldl_removeAs Flags.isRecursive_without_preserve _
  · exact .refl

theorem edits_followRemovable (hplaces : ∀ place ∈ w.removablePlaces, place.IsSpelled)
    (s : RootSet) (settings : Settings) (change : SettingsChange) :
    Edits P s (w.followRemovable s settings change).2.1 := by
  simp only [followRemovable, changeRemovable]
  split
  · split
    · exact edits_addRemovable (w := { w with indexRemovable := settings.indexRemovable }) hplaces s
    · exact edits_removeEach s _
  · exact .refl

/-- Changed settings make plain only the roots of directories that are single by them. -/
theorem edits_applySettings (hd : w.directories.Canonical) (h : s.WellFormed)
    (hplaces : ∀ place ∈ w.removablePlaces, place.IsSpelled) (settings : Settings)
    (change : SettingsChange) :
    Edits (· ∈ (w.applySettings s settings change).1.directories.singlePlaces) s
      (w.applySettings s settings change).2.1 := by
  let t := w.followDirectories (followFilters s settings change) settings change
  have hplaces : ∀ place ∈ t.1.removablePlaces, place.IsSpelled := by
    rwa [removablePlaces, mounts_followDirectories]
  rw [show (w.applySettings s settings change).1.directories = t.1.directories from
    directories_followRemovable ..]
  have hdirectories : Edits (· ∈ t.1.directories.singlePlaces) s t.2.1 := by
    refine (edits_cleared h w settings change).trans ?_
    rcases w.followDirectories_eq s settings change with heq | heq
    · exact heq ▸ .refl
    · exact heq ▸ edits_syncRoots (canonical_followDirectories hd ..) _
  exact hdirectories.trans (edits_followRemovable hplaces t.2.1 settings change)

/-! ### Volumes -/

theorem edits_followVolume (hd : w.directories.Canonical) (h : s.WellFormed) (event : VolumeEvent) :
    Edits (· ∈ w.directories.singlePlaces) s (w.followVolume s event).2 := by
  cases event with
  | mounted m =>
    let v : Steward := { w with mounts := w.mounts.insert m.path.location m }
    have hv : v.directories.Canonical := hd
    simp only [followVolume, mount]
    split
    · split
      · exact edits_addDirectory m.path.location_isSpelled (.inl (isRecursive_volumeFlags v)) s
      · exact .refl
    · exact edits_addConfigured hv (fun _ hd => List.mem_of_mem_filter hd) s
  | unmounted path =>
    rw [followVolume, unmount]
    cases w.mounts.find? path.location with
    | none => exact .refl
    | some m =>
      simp only
      split
      · exact .single (.remove _)
      · exact h.edits_foldl_removeAs Flags.isRecursive_union_preserve _

end Steward

namespace Watches

open RootSet

variable {w : Watches}

theorem edits_apply {p : ProbedRequest} {a : Applied} (hplace : p.place.IsSpelled)
    (happly : w.apply s p = .ok a) : Edits P s a.roots := by
  rcases apply_cases happly with ⟨-, rfl⟩ | ⟨-, owner, -, rfl⟩ | ⟨-, -, -, rfl⟩
  · exact .refl
  · exact .single (.notify ..)
  · exact .single (.add hplace (.inl isRecursive_onDemand))

theorem edits_release (w : Watches) (s : RootSet) (requester : Requester) :
    Edits P s (w.release s requester).2.1 := edits_removeEach s _

end Watches

end IndexControl
