import IndexControl.Directories.Basic
import IndexControl.Proofs.Path.Collapsing

/-!
# The canonical form of the configured directories

Reconciling brings the written lists into a form on which the set of roots can rely: all places
are canonical, no single directory is listed twice or is recursive as well, and no recursive
directory lies below another one.

## Main definitions

* `Directories.singlePlaces`, `Directories.recursivePlaces`, `Directories.places`: the places of
  the two lists, and of both.
* `Directories.Canonical`: the form.
* `Directories.unshadowed`: the recursive paths before they are collapsed again.

## Main results

* `Directories.canonical_reconcile`: reconciled directories have the form.
-/

namespace IndexControl

namespace Directories

/-- The places of the single directories in the order of the list. -/
def singlePlaces (d : Directories) : List Location := d.single.map Path.location

/-- The places of the recursive directories in the order of the list. -/
def recursivePlaces (d : Directories) : List Location := d.recursive.map Path.location

/-- The places of all directories, the single ones first. -/
def places (d : Directories) : List Location := d.singlePlaces ++ d.recursivePlaces

theorem mem_places_iff {d : Directories} {place : Location} :
    place ∈ d.places ↔ place ∈ d.singlePlaces ∨ place ∈ d.recursivePlaces := List.mem_append

theorem map_roots (d : Directories) : d.roots.map (fun root => root.1.location) = d.places := by
  rw [roots, List.map_append, List.map_map, List.map_map]
  rfl

/-! ### Lists without repetition -/

theorem distinct_sublist (seen paths : List Path) : (distinct seen paths).Sublist paths := by
  induction paths generalizing seen with
  | nil => exact .slnil
  | cons path rest ih =>
    rw [distinct]
    split
    · exact (ih seen).cons path
    · exact (ih (path :: seen)).cons_cons path

theorem nodup_distinct (seen paths : List Path) :
    ((distinct seen paths).map Path.location).Nodup ∧
      ∀ p ∈ distinct seen paths, ∀ q ∈ seen, p.location ≠ q.location := by
  induction paths generalizing seen with
  | nil => simp [distinct]
  | cons path rest ih =>
    rw [distinct]
    split
    · exact ih seen
    · next hnew =>
      obtain ⟨hnodup, hapart⟩ := ih (path :: seen)
      have hpath (q) (hq : q ∈ seen) : path.location ≠ q.location := by
        intro heq
        exact hnew (List.any_eq_true.2 ⟨q, hq, decide_eq_true heq⟩)
      refine ⟨List.nodup_cons.2 ⟨fun hmem => ?_, hnodup⟩, List.forall_mem_cons.2 ⟨hpath, ?_⟩⟩
      · obtain ⟨p, hp, heq⟩ := List.mem_map.1 hmem
        exact hapart p hp path List.mem_cons_self heq
      · exact fun p hp q hq => hapart p hp q (List.mem_cons_of_mem path hq)

/-! ### The canonical form -/

/-- The form into which reconciling brings the configured directories. -/
structure Canonical (d : Directories) : Prop where
  single_isCanonical : ∀ place ∈ d.singlePlaces, place.IsCanonical
  recursive_isCanonical : ∀ place ∈ d.recursivePlaces, place.IsCanonical
  nodup_single : d.singlePlaces.Nodup
  /-- No directory is both single and recursive. -/
  apart : ∀ place ∈ d.singlePlaces, place ∉ d.recursivePlaces
  /-- No recursive directory lies below another one. -/
  outermost : ∀ place ∈ d.recursivePlaces, ∀ above ∈ d.recursivePlaces,
    place.isBelow above = false

theorem Canonical.isCanonical {d : Directories} (h : d.Canonical) {place : Location}
    (hplace : place ∈ d.places) : place.IsCanonical :=
  (mem_places_iff.1 hplace).elim (h.single_isCanonical place) (h.recursive_isCanonical place)

/-- The recursive paths that lie below no other one and are not listed as single ones too. -/
def unshadowed (env : Environment) (rawSingle rawRecursive : List String) : List Path :=
  (Path.collapse (distinct [] (resolved env rawRecursive))).1.filter fun path =>
    !(distinct [] (resolved env rawSingle)).any path.sameAs

variable {env : Environment} {rawSingle rawRecursive : List String} {p : Path}

theorem isCanonical_of_mem_distinct {raw : List String} (h : p ∈ distinct [] (resolved env raw)) :
    p.location.IsCanonical := by
  have hmem := (distinct_sublist [] (resolved env raw)).subset h
  obtain ⟨entry, -, hentry⟩ := List.mem_filterMap.1 hmem
  rw [Entry.resolveText?, Entry.resolve?] at hentry
  obtain ⟨q, -, rfl⟩ := Option.map_eq_some_iff.1 hentry
  rw [Path.location_normalize]
  exact Location.isCanonical_canonical q.location_isSpelled

theorem isCanonical_of_mem_unshadowed (h : p ∈ unshadowed env rawSingle rawRecursive) :
    p.location.IsCanonical :=
  isCanonical_of_mem_distinct (List.mem_of_mem_filter (List.mem_of_mem_filter h))

theorem mem_recursive_reconcile_iff :
    p ∈ (reconcile env rawSingle rawRecursive).recursive ↔
      p ∈ unshadowed env rawSingle rawRecursive ∧
        ∀ q ∈ unshadowed env rawSingle rawRecursive, p.location.isBelow q.location = false := by
  have hrecursive : (reconcile env rawSingle rawRecursive).recursive =
      (Path.collapse (unshadowed env rawSingle rawRecursive)).1 := by
    simp only [reconcile, List.partition_eq_filter_filter]
    rfl
  rw [hrecursive]
  exact Path.mem_collapse_iff fun q hq => (isCanonical_of_mem_unshadowed hq).ne_nil

theorem canonical_reconcile (env : Environment) (rawSingle rawRecursive : List String) :
    (reconcile env rawSingle rawRecursive).Canonical := by
  constructor
  case single_isCanonical =>
    exact List.forall_mem_map.2 fun p hp => isCanonical_of_mem_distinct hp
  case recursive_isCanonical =>
    exact List.forall_mem_map.2 fun p hp =>
      isCanonical_of_mem_unshadowed (mem_recursive_reconcile_iff.1 hp).1
  case nodup_single => exact (nodup_distinct [] _).1
  case apart =>
    intro place hsingle hrecursive
    obtain ⟨p, hp, rfl⟩ := List.mem_map.1 hsingle
    obtain ⟨q, hq, heq⟩ := List.mem_map.1 hrecursive
    have hshadowed := (List.mem_filter.1 (mem_recursive_reconcile_iff.1 hq).1).2
    rw [Bool.not_eq_true', List.any_eq_false] at hshadowed
    exact hshadowed p hp (decide_eq_true heq)
  case outermost =>
    intro place hplace above habove
    obtain ⟨p, hp, rfl⟩ := List.mem_map.1 hplace
    obtain ⟨q, hq, rfl⟩ := List.mem_map.1 habove
    exact (mem_recursive_reconcile_iff.1 hp).2 q (mem_recursive_reconcile_iff.1 hq).1

end Directories

end IndexControl
