import IndexControl.Proofs.Roots.Removal
import IndexControl.Proofs.Steward.Folding

/-!
# A fixed volume that goes

When a volume that is not removable goes, the steward gives each root on it the flag that keeps
what is indexed, and then removes the root. Changing the flags of a root can refuse nothing and
fold nothing in here: the root is there already, and it is as recursive as before.

## Main definitions

* `RootSet.rootsOn`: the roots at a place or below it.

## Main results

* `Steward.unmount_fixed_eq`: the roots on a fixed volume are taken out together.
* `Steward.unmount_fixed_exact`: what a fixed volume takes along, and what is told about it.
-/

namespace IndexControl

namespace RootSet

variable {s : RootSet} {volume : Location} {e : Location × Root}

/-- The roots at a place or below it, each with its own place. -/
def rootsOn (s : RootSet) (volume : Location) : List (Location × Root) :=
  s.roots.entries.filter (·.1.startsWith volume)

theorem map_rootsOn (s : RootSet) (volume : Location) :
    (s.rootsOn volume).map (·.1) = s.places.filter (·.startsWith volume) :=
  List.filter_map.symm

theorem root?_of_mem_rootsOn (h : e ∈ s.rootsOn volume) : s.root? e.1 = some e.2 :=
  OrderedMap.mem_entries_iff.1 (List.mem_of_mem_filter h)

theorem nodup_rootsOn (s : RootSet) (volume : Location) :
    ((s.rootsOn volume).map (·.1)).Nodup := by
  rw [map_rootsOn]
  exact (OrderedMap.nodup_keys s.roots).filter _

end RootSet

namespace Steward

open RootSet

variable {w : Steward} {s : RootSet} {path : Path} {m : Mount}

/-- The roots on a fixed volume that goes are taken out together. -/
theorem unmount_fixed_eq (h : s.WellFormed) (hm : w.mounts.find? path.location = some m)
    (hfixed : m.removable = false) :
    w.unmount s path = ({ w with mounts := w.mounts.erase path.location },
      s.takeOut (s.places.filter (·.startsWith path.location))
        ((s.rootsOn path.location).flatMap fun e => farewell (·.union .preserve) e.1 e.2)) := by
  have hfold := h.foldl_removeAs_eq_takeOut Flags.isRecursive_union_preserve
    (nodup_rootsOn s path.location) fun e => root?_of_mem_rootsOn
  rw [map_rootsOn] at hfold
  simp only [unmount, hm, hfixed, Bool.false_eq_true, ↓reduceIte, hfold]

/-- **A fixed volume that goes takes its roots along, and nothing else.** After any operations on an
empty set of roots, and whatever the steward knows, a mounted volume that is not removable is
forgotten when it goes, and the roots that go are exactly those at its place or below. Every other
root keeps its flags and its recorded volume, and the filters stay. What is told is told in the order
of places: for each root that goes, that its flags have changed, where they did not yet say that what
is indexed is kept, and one removal, with the flags it had and that one. So no root is told to be
added or folded into another one. Where no volume is mounted at a place, nothing changes when one
goes there. -/
theorem unmount_fixed_exact (w : Steward) (filters : Filters) (ops : List RootOp) (path : Path) :
    let s := (empty filters).run ops
    let t := w.unmount s path
    (∀ m, w.mounts.find? path.location = some m → m.removable = false →
      t.1 = { w with mounts := w.mounts.erase path.location } ∧
      (∀ q, t.2.root? q = if q.startsWith path.location then none else s.root? q) ∧
      t.2.filters = s.filters ∧
      t.2.events = s.events ++
        (s.rootsOn path.location).flatMap fun e =>
          (if e.2.flags = e.2.flags.union .preserve then [] else [.updated e.1]) ++
            [.removed e.1 (e.2.flags.union .preserve)]) ∧
    (w.mounts.find? path.location = none → t = (w, s)) := by
  intro s t
  have h : s.WellFormed := (wellFormed_empty filters).run ops
  refine ⟨fun m hm hfixed => ?_, fun hm => by simp only [t, unmount, hm]⟩
  rw [show t = _ from unmount_fixed_eq h hm hfixed]
  exact ⟨rfl, root?_takeOut_filter s (·.startsWith path.location) _, rfl, rfl⟩

/-- A fixed volume at `/m` takes along a plain root, a recursive root below it and one that is kept
already, but not the root of `/mm`. -/
theorem unmount_fixed_exact_nested :
    let nowhere : Environment := ⟨fun _ => none, none, fun _ => none, fun _ => false⟩
    let place (text : String) : Location := (Path.ofString text).location
    let volume : Mount := ⟨Path.ofString "/m", none, false⟩
    let w : Steward :=
      { Steward.new nowhere [] with mounts := .ofList [(place "/m", volume)] }
    let ops : List RootOp :=
      [.add (Path.ofString "/m/a") .onDemand, .add (Path.ofString "/m") .monitor,
        .add (Path.ofString "/m/b") .preserve, .add (Path.ofString "/mm") .recurse,
        .recordVolume (Path.ofString "/mm") (some "V"), .drain]
    let s := (empty Filters.none).run ops
    let t := w.unmount s volume.path
    t.1 = { w with mounts := .empty } ∧ t.2.root? (place "/m/a") = none ∧
      t.2.root? (place "/mm") = some ⟨.recurse, some (some "V")⟩ ∧
      t.2.events =
        [.updated (place "/m"), .removed (place "/m") (Flags.monitor.union .preserve),
          .updated (place "/m/a"), .removed (place "/m/a") (Flags.onDemand.union .preserve),
          .removed (place "/m/b") .preserve] ∧
      w.unmount s (Path.ofString "/mm") = (w, s) := by
  intro nowhere place volume w ops s t
  obtain ⟨hmounts, hroots, -, hevents⟩ :=
    (unmount_fixed_exact w .none ops volume.path).1 volume (by decide) rfl
  refine ⟨hmounts.trans (by congr 1), ?_, ?_, hevents.trans (by decide), ?_⟩
  · exact (hroots (place "/m/a")).trans (by decide)
  · exact (hroots (place "/mm")).trans (by decide)
  · exact (unmount_fixed_exact w .none ops (Path.ofString "/mm")).2 (by decide)

end Steward

end IndexControl
