import IndexControl.Proofs.Directories.Canonical
import IndexControl.Proofs.Roots.Edits

/-!
# The order in which roots are added

Where different places are added to an empty set, their order does not matter: those that lie below
no recursive one of them become roots, each with its own flags. A place that comes before a
recursive one above it is folded in, one that comes after it is refused, and what has been refused
or folded in itself covers nothing that the root above it does not cover.

## Main definitions

* `RootSet.outermost`: the pairs of a path and flags that lie below no recursive one.
* `RootSet.HoldsOutermost`: a set that has come from pairs added in some order.

## Main results

* `RootSet.HoldsOutermost.add`: one more pair.
* `RootSet.map_outermost`: where all are recursive, these are the paths that collapsing keeps.
* `RootSet.run_adds_perm_outermost`: what pairs leave that are added in any order.
-/

namespace IndexControl

/-- Places in increasing order are the sorted form of the same places in any order. -/
theorem Location.eq_mergeSort_of_perm {places others : List Location} (hperm : places.Perm others)
    (hsorted : places.Pairwise fun a b => compare a b = .lt) :
    places = others.mergeSort fun a b => (compare a b).isLE := by
  have htotal (a b : Location) : ((compare a b).isLE || (compare b a).isLE) = true := by
    rw [Std.OrientedOrd.eq_swap (a := b)]
    cases compare a b <;> rfl
  refine (hperm.trans (List.mergeSort_perm _ _).symm).eq_of_pairwise (fun a b _ _ hab hba => ?_)
    (hsorted.imp Ordering.isLE_of_eq_lt)
    (List.pairwise_mergeSort (fun a b c => Std.TransCmp.isLE_trans) htotal others)
  exact Std.LawfulEqCmp.eq_of_compare (Std.OrientedCmp.isLE_antisymm hab hba)

namespace RootSet

variable {s : RootSet} {pairs order : List (Path × Flags)} {pair : Path × Flags}

/-! ### The pairs below no recursive one -/

/-- The pairs of a path and flags that lie strictly below no recursive one among them. -/
def outermost (pairs : List (Path × Flags)) : List (Path × Flags) :=
  pairs.filter fun pair =>
    !pairs.any fun above => above.2.isRecursive && pair.1.location.isBelow above.1.location

theorem mem_outermost_iff : pair ∈ outermost pairs ↔ pair ∈ pairs ∧
    ∀ above ∈ pairs, above.2.isRecursive = true →
      pair.1.location.isBelow above.1.location = false := by
  simp [outermost]

theorem outermost_perm (hperm : order.Perm pairs) : (outermost order).Perm (outermost pairs) := by
  have hany (pair : Path × Flags) :
      (order.any fun above => above.2.isRecursive && pair.1.location.isBelow above.1.location) =
        pairs.any fun above => above.2.isRecursive && pair.1.location.isBelow above.1.location :=
    hperm.any_eq
  simp only [outermost, hany]
  exact hperm.filter _

/-- Where all pairs are recursive, their outermost paths are those that collapsing keeps. -/
theorem map_outermost (hcanonical : ∀ pair ∈ pairs, pair.1.location.IsCanonical)
    (hrec : ∀ pair ∈ pairs, pair.2.isRecursive = true) :
    (outermost pairs).map (·.1) = (Path.collapse (pairs.map (·.1))).1 := by
  have hne : ∀ place ∈ (pairs.map (·.1)).map Path.location, place ≠ [] := by
    simp only [List.map_map, List.forall_mem_map]
    exact fun pair hpair => (hcanonical pair hpair).ne_nil
  rw [Path.collapse, List.filter_map, outermost]
  refine congrArg _ (List.filter_congr fun pair _ => ?_)
  rw [Bool.eq_iff_iff, Function.comp_apply, Path.selectedAncestor?_isNone_iff hne]
  simp only [Bool.not_eq_true', List.any_eq_false, List.map_map, List.forall_mem_map,
    Function.comp_apply]
  exact forall₂_congr fun above habove => by simp [hrec above habove]

/-! ### Recursive roots above -/

/-- What lies at a recursive root or below one still does when a new root is added. -/
theorem WellFormed.exists_isRecursiveRoot_add (h : s.WellFormed) {place q : Location}
    {flags : Flags} (hplace : place.IsCanonical) (hnew : s.flagsAt? place = none)
    (hq : ∃ above, s.isRecursiveRoot above = true ∧ q.startsWith above = true) :
    ∃ above, (s.add place flags).1.isRecursiveRoot above = true ∧ q.startsWith above = true := by
  obtain ⟨above, habove, hstart⟩ := hq
  have hadd (x : Location) := flagsAt?_add h hplace.2 flags x
  by_cases hcovered : (s.recursiveAbove? place).isSome = true
  · refine ⟨above, ?_, hstart⟩
    rwa [isRecursiveRoot_eq_any, hadd, if_pos hcovered, ← isRecursiveRoot_eq_any]
  by_cases hfolded : (flags.isRecursive && above.isBelow place) = true
  · -- The new root takes the place of the one above.
    rw [Bool.and_eq_true] at hfolded
    refine ⟨place, ?_, Location.startsWith_trans hstart (Location.startsWith_of_isBelow hfolded.2)⟩
    rw [isRecursiveRoot_eq_any, hadd, if_neg hcovered, if_pos rfl]
    exact hfolded.1
  · have hne : above ≠ place := by
      rintro rfl
      rw [isRecursiveRoot_eq_any, hnew] at habove
      exact Bool.noConfusion habove
    refine ⟨above, ?_, hstart⟩
    rwa [isRecursiveRoot_eq_any, hadd, if_neg hcovered, if_neg hne, if_neg hfolded,
      ← isRecursiveRoot_eq_any]

/-! ### Adding one pair after the other -/

/-- The roots are the outermost ones of some pairs, and each recursive pair is at a recursive root
or below one. -/
structure HoldsOutermost (s : RootSet) (pairs : List (Path × Flags)) : Prop where
  wellFormed : s.WellFormed
  root?_eq_some_iff : ∀ place root, s.root? place = some root ↔
    ∃ pair ∈ outermost pairs, pair.1.location = place ∧ root = ⟨pair.2, none⟩
  /-- So a place below a pair that was refused or folded in lies below a root too. -/
  exists_isRecursiveRoot : ∀ pair ∈ pairs, pair.2.isRecursive = true →
    ∃ above, s.isRecursiveRoot above = true ∧ pair.1.location.startsWith above = true

theorem holdsOutermost_empty (filters : Filters) : (empty filters).HoldsOutermost [] where
  wellFormed := wellFormed_empty filters
  root?_eq_some_iff := by simp [root?, empty, outermost]
  exists_isRecursiveRoot := by simp

/-- A recursive root lies above a place just where one of the recursive pairs does. -/
theorem HoldsOutermost.recursiveAbove?_isSome_iff (h : s.HoldsOutermost pairs) {q : Location} :
    (s.recursiveAbove? q).isSome = true ↔
      ∃ above ∈ pairs, above.2.isRecursive = true ∧ q.isBelow above.1.location = true := by
  rw [h.wellFormed.recursiveAbove?_isSome_iff]
  constructor
  · rintro ⟨place, hrec, hbelow⟩
    obtain ⟨root, hroot, hrec⟩ := Option.any_eq_true _ _ |>.1 hrec
    obtain ⟨above, habove, rfl, rfl⟩ := (h.root?_eq_some_iff place root).1 hroot
    exact ⟨above, (mem_outermost_iff.1 habove).1, hrec, hbelow⟩
  · rintro ⟨above, habove, hrec, hbelow⟩
    obtain ⟨root, hroot, hstart⟩ := h.exists_isRecursiveRoot above habove hrec
    exact ⟨root, hroot, Location.isBelow_of_isBelow_of_startsWith hbelow hstart⟩

theorem HoldsOutermost.root?_eq_none (h : s.HoldsOutermost pairs) {place : Location}
    (hnew : ∀ pair ∈ pairs, pair.1.location ≠ place) : s.root? place = none := by
  rw [Option.eq_none_iff_forall_ne_some]
  intro root hroot
  obtain ⟨pair, hpair, heq, -⟩ := (h.root?_eq_some_iff _ _).1 hroot
  exact hnew pair (mem_outermost_iff.1 hpair).1 heq

/-- The roots after one more pair has been added. -/
private theorem HoldsOutermost.root?_add_eq_some_iff (h : s.HoldsOutermost pairs) {path : Path}
    {flags : Flags} (hcanonical : path.location.IsCanonical)
    (hnew : ∀ pair ∈ pairs, pair.1.location ≠ path.location) (place : Location) (root : Root) :
    (s.add path.location flags).1.root? place = some root ↔
      ∃ pair ∈ outermost (pairs ++ [(path, flags)]),
        pair.1.location = place ∧ root = ⟨pair.2, none⟩ := by
  rw [root?_add h.wellFormed hcanonical.2, h.root?_eq_none hnew]
  simp only [mem_outermost_iff, List.mem_append, List.mem_singleton, or_imp, forall_and,
    forall_eq]
  split_ifs with hcovered hplace hfolded
  · -- Refused: what lies below the new place lies below the root above it too.
    obtain ⟨above, habove, hrec, hbelow⟩ := h.recursiveAbove?_isSome_iff.1 hcovered
    rw [h.root?_eq_some_iff]
    constructor
    · rintro ⟨pair, hpair, hroot⟩
      obtain ⟨hmem, hout⟩ := mem_outermost_iff.1 hpair
      refine ⟨pair, ⟨.inl hmem, hout, fun _ => ?_⟩, hroot⟩
      rw [Bool.eq_false_iff]
      intro hpath
      have hfalse := hout above habove hrec
      rw [Location.isBelow_trans hpath hbelow] at hfalse
      exact Bool.noConfusion hfalse
    · rintro ⟨pair, ⟨hmem | rfl, hout, -⟩, hroot⟩
      · exact ⟨pair, mem_outermost_iff.2 ⟨hmem, hout⟩, hroot⟩
      · rw [hout above habove hrec] at hbelow
        exact Bool.noConfusion hbelow
  · -- The place of the new root.
    subst hplace
    rw [Option.bind_none, Option.some.injEq]
    constructor
    · rintro rfl
      refine ⟨(path, flags), ⟨.inr rfl, fun above habove hrec => ?_, fun _ => ?_⟩, rfl, rfl⟩
      · rw [Bool.eq_false_iff]
        exact fun hbelow => hcovered (h.recursiveAbove?_isSome_iff.2 ⟨above, habove, hrec, hbelow⟩)
      · exact Location.isBelow_self path.location
    · rintro ⟨pair, ⟨hmem | rfl, -⟩, heq, rfl⟩
      · exact absurd heq (hnew pair hmem)
      · rfl
  · -- Folded in.
    rw [Bool.and_eq_true] at hfolded
    constructor
    · exact fun hnone => absurd hnone (by simp)
    · rintro ⟨pair, ⟨-, -, hout⟩, rfl, -⟩
      rw [hout hfolded.1] at hfolded
      exact Bool.noConfusion hfolded.2
  · rw [h.root?_eq_some_iff]
    constructor
    · rintro ⟨pair, hpair, rfl, hroot⟩
      obtain ⟨hmem, hout⟩ := mem_outermost_iff.1 hpair
      exact ⟨pair, ⟨.inl hmem, hout, fun hrec => by simpa [hrec] using hfolded⟩, rfl, hroot⟩
    · rintro ⟨pair, ⟨hmem | rfl, hout, -⟩, rfl, hroot⟩
      · exact ⟨pair, mem_outermost_iff.2 ⟨hmem, hout⟩, rfl, hroot⟩
      · exact absurd rfl hplace

/-- One more pair at a new place. -/
theorem HoldsOutermost.add (h : s.HoldsOutermost pairs) {path : Path} {flags : Flags}
    (hcanonical : path.location.IsCanonical)
    (hnew : ∀ pair ∈ pairs, pair.1.location ≠ path.location) :
    (s.add path.location flags).1.HoldsOutermost (pairs ++ [(path, flags)]) where
  wellFormed := h.wellFormed.add hcanonical.1 flags
  root?_eq_some_iff := h.root?_add_eq_some_iff hcanonical hnew
  exists_isRecursiveRoot pair hpair hrec := by
    rcases List.mem_append.1 hpair with hpair | hpair
    · refine h.wellFormed.exists_isRecursiveRoot_add hcanonical ?_
        (h.exists_isRecursiveRoot pair hpair hrec)
      rw [flagsAt?, h.root?_eq_none hnew, Option.map_none]
    · obtain rfl := List.mem_singleton.1 hpair
      exact h.wellFormed.exists_recursive_add hcanonical hrec

/-- Adding pairs with different places, in the order of the list. -/
theorem holdsOutermost_run (filters : Filters)
    (hcanonical : ∀ pair ∈ pairs, pair.1.location.IsCanonical)
    (hnodup : (pairs.map (·.1.location)).Nodup) :
    ((empty filters).run (pairs.map fun pair => .add pair.1 pair.2)).HoldsOutermost pairs := by
  induction pairs using List.reverseRecOn with
  | nil => exact holdsOutermost_empty filters
  | append_singleton pairs pair ih =>
    rw [List.map_append, List.nodup_append] at hnodup
    rw [List.forall_mem_append] at hcanonical
    rw [run, List.map_append, List.foldl_append]
    refine (ih hcanonical.1 hnodup.1).add (hcanonical.2 pair List.mem_cons_self) fun old hold => ?_
    exact hnodup.2.2 old.1.location (List.mem_map_of_mem hold) pair.1.location List.mem_cons_self

/-! ### Any order -/

/-- The entries are the outermost pairs, each once. -/
theorem HoldsOutermost.entries_perm (h : s.HoldsOutermost pairs)
    (hnodup : (pairs.map (·.1.location)).Nodup) :
    s.roots.entries.Perm ((outermost pairs).map fun pair => (pair.1.location, ⟨pair.2, none⟩)) := by
  have houtermost : ((outermost pairs).map (·.1.location)).Nodup :=
    hnodup.sublist (List.filter_sublist.map _)
  rw [List.perm_ext_iff_of_nodup s.roots.nodup_entries (OrderedMap.nodup_map_mk houtermost)]
  rintro ⟨place, root⟩
  rw [OrderedMap.mem_entries_iff, ← root?, h.root?_eq_some_iff, List.mem_map]
  simp only [Prod.mk.injEq, eq_comm]

/-- **The order of additions does not matter.** Where pairs of a path and flags have normal paths
that name different places, adding them to an empty set in any order leaves just the pairs that lie
strictly below no recursive one of them, each with its own flags. If all of them are recursive, the
places of the roots are those of the paths that collapsing keeps, in the order of paths. -/
theorem run_adds_perm_outermost (filters : Filters) (hperm : order.Perm pairs)
    (hnormal : ∀ pair ∈ pairs, pair.1.normalize.sameAs pair.1 = true)
    (hapart : pairs.Pairwise fun a b => a.1.sameAs b.1 = false) :
    let s := (empty filters).run (order.map fun pair => .add pair.1 pair.2)
    s.roots.entries.Perm ((outermost pairs).map fun pair => (pair.1.location, ⟨pair.2, none⟩)) ∧
    ((∀ pair ∈ pairs, pair.2.isRecursive = true) →
      s.places = ((Path.collapse (pairs.map (·.1))).1.map Path.location).mergeSort
        fun a b => (compare a b).isLE) := by
  intro s
  have hcanonical (pair) (hpair : pair ∈ pairs) : pair.1.location.IsCanonical := by
    have hsame := of_decide_eq_true (hnormal pair hpair)
    rw [Path.location_normalize] at hsame
    exact ⟨pair.1.location_isSpelled, hsame⟩
  have hnodup : (pairs.map (·.1.location)).Nodup :=
    List.pairwise_map.2 (hapart.imp fun hne => of_decide_eq_false hne)
  have hentries : s.roots.entries.Perm
      ((outermost pairs).map fun pair => (pair.1.location, ⟨pair.2, none⟩)) := by
    have hnodup' : (order.map (·.1.location)).Nodup := (hperm.map _).nodup_iff.2 hnodup
    have hholds : s.HoldsOutermost order :=
      holdsOutermost_run filters (fun pair hpair => hcanonical pair (hperm.mem_iff.1 hpair)) hnodup'
    exact (hholds.entries_perm hnodup').trans ((outermost_perm hperm).map _)
  refine ⟨hentries, fun hrec => ?_⟩
  have hplaces : s.places.Perm ((Path.collapse (pairs.map (·.1))).1.map Path.location) := by
    have hkeys := hentries.map (·.1)
    rw [List.map_map] at hkeys
    rwa [← map_outermost hcanonical hrec, List.map_map]
  exact Location.eq_mergeSort_of_perm hplaces (OrderedMap.pairwise_keys s.roots)

/-- `/a/b/c` is folded into `/a/b`, which is folded into `/a`, and `/a/d` is refused; any other
order leaves `/a` and `/x` as well. -/
theorem run_adds_perm_outermost_chain :
    let a := Path.ofString "/a"
    let x := Path.ofString "/x"
    let b := (Path.ofString "/a/b", Flags.onDemand)
    let c := (Path.ofString "/a/b/c", Flags.recurse)
    let d := (Path.ofString "/a/d", Flags.onDemand)
    let order := [c, b, (x, Flags.onDemand), (a, Flags.recurse), d]
    let s := (empty default).run (order.map fun pair => .add pair.1 pair.2)
    s.roots.entries.Perm
      [(a.location, ⟨Flags.recurse, none⟩), (x.location, ⟨Flags.onDemand, none⟩)] ∧
    s.places = [a.location, x.location] := by
  intro a x b c d order s
  have hperm : order.Perm [(a, Flags.recurse), b, c, d, (x, Flags.onDemand)] := by decide
  obtain ⟨hentries, hplaces⟩ := run_adds_perm_outermost default hperm (by decide) (by decide)
  -- From here on the run itself is not evaluated, only what it is known to leave.
  have hrun : (empty default).run (order.map fun pair => .add pair.1 pair.2) = s := rfl
  rw [hrun] at hentries hplaces
  clear_value s
  refine ⟨hentries.trans (.of_eq (by decide)), (hplaces (by decide)).trans ?_⟩
  exact (Location.eq_mergeSort_of_perm (.of_eq (by decide)) (by decide)).symm

end RootSet

end IndexControl
