import IndexControl.Proofs.Directories.Reconciled
import IndexControl.Proofs.Steward.Settings

/-!
# The roots at the start

A new steward who takes over settings before any volume is known makes roots of the configured
directories, in the order of the lists: a single directory is folded into a recursive one that comes
later, and one that lies in a system location is passed over. What this leaves has a closed form,
and the roots cover just what the restriction of requests to the configured directories lets
through.

## Main definitions

* `Directories.initialRoots`: the directories that come to be roots.

## Main results

* `Steward.wanted?_eq_some_iff`: what the configured directories ask for, directory by directory.
* `Directories.Canonical.allows_iff`: the restriction to directories, by their outermost ones.
* `Steward.establish_new_exact`: the roots at the start.
-/

namespace IndexControl

/-- The roots with their flags are the look-ups that succeed. -/
theorem RootSet.mem_map_flags_iff {s : RootSet} {place : Location} {flags : Flags} :
    (place, flags) ∈ s.roots.entries.map (fun entry => (entry.1, entry.2.flags)) ↔
      s.flagsAt? place = some flags := by
  rw [flagsAt?, root?, Option.map_eq_some_iff]
  simp only [List.mem_map, Prod.exists, Prod.mk.injEq, OrderedMap.mem_entries_iff]
  constructor
  · rintro ⟨_, root, hroot, rfl, rfl⟩
    exact ⟨root, hroot, rfl⟩
  · rintro ⟨root, hroot, rfl⟩
    exact ⟨place, root, hroot, rfl, rfl⟩

namespace Directories

variable {d : Directories}

/-- The directories outside of some locations that lie strictly below no recursive one. -/
def initialRoots (d : Directories) (systemLocations : List Location) : List (Path × Bool) :=
  d.roots.filter fun dir =>
    !systemLocations.any dir.1.location.startsWith && !d.recursivePlaces.any dir.1.location.isBelow

theorem mem_roots_iff {dir : Path × Bool} :
    dir ∈ d.roots ↔ if dir.2 then dir.1 ∈ d.recursive else dir.1 ∈ d.single := by
  obtain ⟨path, recursive⟩ := dir
  cases recursive <;> simp [roots]

/-- Reconciled directories have different places. -/
theorem nodup_places_reconcile (env : Environment) (rawSingle rawRecursive : List String) :
    (reconcile env rawSingle rawRecursive).places.Nodup := by
  have hcanonical := canonical_reconcile env rawSingle rawRecursive
  refine List.nodup_append.2 ⟨hcanonical.nodup_single, ?_, fun a ha b hb heq =>
    hcanonical.apart a ha (heq ▸ hb)⟩
  rw [recursivePlaces, recursive_reconcile, unshadowed, Path.collapse]
  exact (nodup_distinct [] _).1.sublist ((List.filter_sublist.trans List.filter_sublist).map _)

end Directories

namespace Steward

open RootSet

variable {w : Steward} {q : Location} {f : Flags}

/-! ### Directory by directory -/

theorem flagsFor_of_no_mounts (h : w.mounts = .empty) (place : Location) (recursive : Bool) :
    w.flagsFor place recursive =
      (Flags.checkTime.addIf recursive .recurse).addIf w.enableMonitors .monitor := by
  rw [flagsFor, isOnRemovable, h]
  rfl

/-- What the configured directories ask for is one root for each directory outside of the system
locations with no recursive one above it. -/
theorem wanted?_eq_some_iff (hd : w.directories.Canonical) :
    w.wanted? q = some f ↔ ∃ dir ∈ w.directories.initialRoots w.systemLocations,
      dir.1.location = q ∧ w.flagsFor q dir.2 = f := by
  simp only [Directories.initialRoots, List.mem_filter, Bool.and_eq_true, Bool.not_eq_true',
    Directories.mem_roots_iff]
  constructor
  · intro h
    rw [wanted?] at h
    split_ifs at h with hsystem hrecursive hbelow hsingle
    · obtain ⟨path, hpath, rfl⟩ := List.mem_map.1 hrecursive
      have hout : w.directories.recursivePlaces.any path.location.isBelow = false :=
        List.any_eq_false.2 fun above habove => by simp [hd.outermost _ hrecursive above habove]
      exact ⟨(path, true), ⟨hpath, by simpa [isSystemLocation] using hsystem, hout⟩, rfl,
        Option.some.inj h⟩
    · obtain ⟨path, hpath, rfl⟩ := List.mem_map.1 hsingle
      have hallowed : w.systemLocations.any path.location.startsWith = false := by
        simpa [isSystemLocation] using hsystem
      exact ⟨(path, false), ⟨hpath, hallowed, by simpa using hbelow⟩, rfl, Option.some.inj h⟩
  · rintro ⟨⟨path, recursive⟩, ⟨hmem, hsystem, hout⟩, rfl, rfl⟩
    cases recursive with
    | true => exact wanted?_of_mem_recursivePlaces hsystem (List.mem_map_of_mem hmem)
    | false =>
      have hsingle : path.location ∈ w.directories.singlePlaces := List.mem_map_of_mem hmem
      have hplain := hd.apart _ hsingle
      simp [wanted?, isSystemLocation, hsystem, hplain, hout, hsingle]

end Steward

/-- The restriction to directories lets through what one of those covers that lie strictly below no
recursive one: a recursive directory above covers all that a directory below it does. -/
theorem Directories.Canonical.allows_iff {d : Directories} (h : d.Canonical) {file : Location} :
    (Eligibility.ofDirectories d).allows file = true ↔
      ∃ dir ∈ d.initialRoots [], file.inScope dir.1.location dir.2 = true := by
  simp only [initialRoots, List.mem_filter, mem_roots_iff, List.any_nil, Bool.not_false,
    Bool.true_and, Bool.not_eq_true', Eligibility.allows, Eligibility.ofDirectories,
    Bool.or_eq_true, List.any_map, List.any_eq_true, Function.comp_apply, Prod.exists]
  constructor
  · rintro (⟨path, hpath, hscope⟩ | ⟨path, hpath, hscope⟩)
    · refine ⟨path, true, ⟨hpath, ?_⟩, hscope⟩
      exact List.any_eq_false.2 fun above habove => by
        simp [h.outermost _ (List.mem_map_of_mem hpath) above habove]
    · by_cases hbelow : d.recursivePlaces.any path.location.isBelow = true
      · obtain ⟨above, habove, hbelow⟩ := List.any_eq_true.1 hbelow
        obtain ⟨other, hother, rfl⟩ := List.mem_map.1 habove
        refine ⟨other, true, ⟨hother, ?_⟩, ?_⟩
        · exact List.any_eq_false.2 fun above' habove' => by
            simp [h.outermost _ habove above' habove']
        · exact Location.startsWith_trans (Location.startsWith_of_inScope hscope)
            (Location.startsWith_of_isBelow hbelow)
      · exact ⟨path, false, ⟨hpath, by simpa using hbelow⟩, hscope⟩
  · rintro ⟨path, recursive, ⟨hpath, -⟩, hscope⟩
    cases recursive with
    | true => exact .inl ⟨path, hpath, hscope⟩
    | false => exact .inr ⟨path, hpath, hscope⟩

namespace Steward

open RootSet

/-! ### The start -/

/-- **The start makes roots of just the configured directories.** For any environment, system
locations and settings, a set without roots comes to hold one root for each reconciled directory
outside of the system locations that lies strictly below no recursive one, and no other; it checks
modification times, is recursive where the directory is, and is monitored where the settings ask for
monitors. If no directory lies in a system location, the restriction of requests to the steward's
directories lets a place through just where one of the roots covers it. -/
theorem establish_new_exact (environment : Environment) (systemLocations : List Location)
    (filters : Filters) (settings : Settings) :
    let d := Directories.reconcile environment settings.singleDirectories
      settings.recursiveDirectories
    let t := (new environment systemLocations).establish (.empty filters) settings
    (t.2.roots.entries.map fun entry => (entry.1, entry.2.flags)).Perm
      ((d.initialRoots systemLocations).map fun dir => (dir.1.location,
        (Flags.checkTime.addIf dir.2 .recurse).addIf settings.enableMonitors .monitor)) ∧
    ((∀ dir ∈ d.roots, systemLocations.any dir.1.location.startsWith = false) →
      ∀ file : Location, (Eligibility.ofDirectories t.1.directories).allows file = true ↔
        ∃ place root, t.2.root? place = some root ∧
          file.inScope place root.isRecursive = true) := by
  intro d t
  have hd : d.Canonical := Directories.canonical_reconcile ..
  let w := (new environment systemLocations).under settings
  have hroots (place : Location) (flags : Flags) : t.2.flagsAt? place = some flags ↔
      ∃ dir ∈ d.initialRoots systemLocations, dir.1.location = place ∧
        w.flagsFor place dir.2 = flags := by
    have hfollows := follows_establish (w := new environment systemLocations) rfl filters settings
    rw [hfollows.flagsAt?, if_neg Bool.false_ne_true]
    exact wanted?_eq_some_iff (w := w) hd
  refine ⟨?_, fun houtside file => ?_⟩
  · have hplaces : (d.roots.map fun dir => dir.1.location).Nodup :=
      d.map_roots ▸ Directories.nodup_places_reconcile ..
    have hinitial : ((d.initialRoots systemLocations).map fun dir => dir.1.location).Nodup :=
      hplaces.sublist (List.filter_sublist.map _)
    rw [List.perm_ext_iff_of_nodup (OrderedMap.nodup_map_mk t.2.roots.nodup_keys)
      (OrderedMap.nodup_map_mk hinitial)]
    rintro ⟨place, flags⟩
    rw [RootSet.mem_map_flags_iff, hroots, List.mem_map]
    refine exists_congr fun dir => and_congr_right fun _ => ?_
    rw [flagsFor_of_no_mounts rfl, Prod.mk.injEq]
    rfl
  · -- Outside of the system locations it makes no difference what these are.
    have hsame : d.initialRoots systemLocations = d.initialRoots [] :=
      List.filter_congr fun dir hdir => by rw [houtside dir hdir, List.any_nil]
    rw [show t.1.directories = d from rfl, hd.allows_iff, ← hsame]
    constructor
    · rintro ⟨dir, hdir, hscope⟩
      obtain ⟨root, hroot, hflags⟩ :=
        Option.map_eq_some_iff.1 ((hroots _ _).2 ⟨dir, hdir, rfl, rfl⟩)
      refine ⟨dir.1.location, root, hroot, ?_⟩
      rwa [Root.isRecursive, hflags, isRecursive_flagsFor]
    · rintro ⟨place, root, hroot, hscope⟩
      obtain ⟨dir, hdir, rfl, hflags⟩ := (hroots place root.flags).1 (by rw [flagsAt?, hroot]; rfl)
      refine ⟨dir, hdir, ?_⟩
      rwa [Root.isRecursive, ← hflags, isRecursive_flagsFor] at hscope

/-- `/b/c` is folded into the recursive `/b`, which covers what the restriction lets through for
both. -/
theorem establish_new_exact_folded :
    let nowhere : Environment := ⟨fun _ => none, none, fun _ => none, fun _ => false⟩
    let settings : Settings :=
      { Settings.default with
        singleDirectories := ["/b/c", "/e"], recursiveDirectories := ["/b"],
        enableMonitors := true }
    let t := (new nowhere usualSystemLocations).establish (.empty default) settings
    (t.2.roots.entries.map fun entry => (entry.1, entry.2.flags)).Perm
      [((Path.ofString "/e").location, Flags.checkTime.union .monitor),
        ((Path.ofString "/b").location, (Flags.checkTime.union .recurse).union .monitor)] ∧
    ∃ place root, t.2.root? place = some root ∧
      (Path.ofString "/b/c/x").location.inScope place root.isRecursive = true := by
  intro nowhere settings t
  obtain ⟨hroots, hcovers⟩ := establish_new_exact nowhere usualSystemLocations default settings
  exact ⟨hroots.trans (.of_eq (by decide)), (hcovers (by decide) _).1 (by decide)⟩

end Steward

end IndexControl
