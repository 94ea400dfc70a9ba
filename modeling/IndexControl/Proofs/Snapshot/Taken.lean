import IndexControl.Proofs.Path.Spelling
import IndexControl.Proofs.Roots.Changes
import IndexControl.Snapshot.Basic

/-!
# Snapshots by look-up

A snapshot of a set of roots shows the flags of the roots that it keeps and the filter patterns, and
nothing else. Two sets have the same snapshot exactly if they agree in these.

## Main definitions

* `Snapshot.keptFlags`: the flags of the roots that a snapshot keeps.

## Main results

* `Snapshot.ofRoots_congr`, `Snapshot.ofRoots_eq_iff`: when two sets have the same snapshot.
* `Snapshot.ofRoots_eq_whole_iff`: when nothing has been left out.
-/

namespace IndexControl.Snapshot

variable {s s' : RootSet} {onDemand onDemand' : Location → Bool}

/-- The flags of the roots that a snapshot keeps. -/
def keptFlags (s : RootSet) (onDemand : Location → Bool) : OrderedMap Location Flags :=
  s.roots.filterMap fun q root => if onDemand q then none else some root.flags

theorem find?_keptFlags (s : RootSet) (onDemand : Location → Bool) (q : Location) :
    (keptFlags s onDemand).find? q = if onDemand q then none else s.flagsAt? q := by
  rw [keptFlags, OrderedMap.find?_filterMap, RootSet.flagsAt?, RootSet.root?]
  cases s.roots.find? q <;> cases onDemand q <;> rfl

theorem roots_ofRoots (s : RootSet) (onDemand : Location → Bool) :
    (ofRoots s onDemand).roots =
      (keptFlags s onDemand).entries.map fun e => (Location.toPath e.1, e.2) := by
  simp only [ofRoots, keptFlags, OrderedMap.filterMap]
  induction s.roots.entries with
  | nil => rfl
  | cons e entries ih => cases h : onDemand e.1 <;> simp [h, ih]

/-- Sets that keep the same flags have the same snapshot. -/
theorem ofRoots_congr
    (hflags : ∀ q, (if onDemand q then none else s.flagsAt? q) =
      if onDemand' q then none else s'.flagsAt? q)
    (hfilters : s.filters = s'.filters) : ofRoots s onDemand = ofRoots s' onDemand' := by
  have hkept : keptFlags s onDemand = keptFlags s' onDemand' := OrderedMap.ext_find? fun q => by
    rw [find?_keptFlags, find?_keptFlags, hflags]
  have hroots : (ofRoots s onDemand).roots = (ofRoots s' onDemand').roots := by
    rw [roots_ofRoots, roots_ofRoots, hkept]
  simp only [ofRoots] at hroots
  simp only [ofRoots, hroots, hfilters]

/-- Nothing that a snapshot shows of roots is lost, as the paths it shows can be read again. -/
theorem ofRoots_eq_iff (hs : ∀ q f, s.flagsAt? q = some f → q.IsSpelled)
    (hs' : ∀ q f, s'.flagsAt? q = some f → q.IsSpelled) (hfilters : s.filters = s'.filters) :
    ofRoots s (fun _ => false) = ofRoots s' (fun _ => false) ↔
      ∀ q, s.flagsAt? q = s'.flagsAt? q := by
  have hread {s : RootSet} (hs : ∀ q f, s.flagsAt? q = some f → q.IsSpelled) :
      (ofRoots s fun _ => false).roots.map (fun e => (e.1.location, e.2)) =
        (keptFlags s fun _ => false).entries := by
    rw [roots_ofRoots, List.map_map]
    refine (List.map_congr_left fun e he => ?_).trans (List.map_id _)
    have hflags := (find?_keptFlags s _ e.1).symm.trans (OrderedMap.mem_entries_iff.1 he)
    exact Prod.ext (Location.location_toPath (hs e.1 e.2 hflags)) rfl
  refine ⟨fun heq q => ?_, fun hflags => ofRoots_congr (fun q => hflags q) hfilters⟩
  have hkept : keptFlags s (fun _ => false) = keptFlags s' fun _ => false :=
    OrderedMap.ext (by rw [← hread hs, ← hread hs', heq])
  exact (find?_keptFlags s _ q).symm.trans (hkept ▸ find?_keptFlags s' _ q)

/-- Nothing has been left out of a snapshot if no root is one of those to leave out. -/
theorem ofRoots_eq_whole_iff :
    ofRoots s onDemand = ofRoots s (fun _ => false) ↔
      ∀ place ∈ s.places, onDemand place = false := by
  constructor
  · intro heq place hplace
    obtain ⟨e, he, rfl⟩ := List.mem_map.1 hplace
    have hlength := congrArg (·.roots.length) heq
    simp only [ofRoots, List.length_map, Bool.not_false, List.filter_true] at hlength
    simpa using List.length_filter_eq_length_iff.1 hlength e he
  · intro hnone
    refine ofRoots_congr (fun q => ?_) rfl
    cases hfind : s.root? q with
    | none => simp [RootSet.flagsAt?, hfind]
    | some root => simp [hnone q (RootSet.mem_places_iff.2 ⟨root, hfind⟩)]

end IndexControl.Snapshot
