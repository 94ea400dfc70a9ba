import IndexControl.Proofs.Path.Spelling

/-!
# The outermost paths of a list

Collapsing a list walks up from each of its paths until it comes to a place of the list. The place it
comes to first is the nearest one, and the path that stands for it may be left out itself. But then
another one lies above that path, and so on up to a path with none above it, which is kept. So
whatever is left out lies below something that is kept.

## Main definitions

* `Path.IsOutermost`: the paths of a list that lie below no other one of it.
* `Path.Covered.IsNearest`: what is told of a path that is left out.

## Main results

* `Path.selectedAncestor?_isNone_iff`, `Path.selectedAncestor?_eq_some`: what a walk up finds.
* `Path.exists_isOutermost`, `Path.IsOutermost.location_eq`: there is one outermost path at or above
  each path of a list.
* `Path.mem_collapse_iff`: collapsing keeps the outermost paths.
* `Path.collapse_eq_self`: paths that lie apart are not collapsed.
* `Path.collapse_exact`: which paths are kept, and what is told of the others.
-/

namespace IndexControl

namespace Path

variable {p q r above : Path} {paths : List Path} {selected : List Location} {l : Location}

/-! ### The nearest place above -/

/-- A walk up from a path comes past every place above it. -/
theorem exists_mem_ancestors (h : p.location.isBelow l = true) (hne : l ≠ []) :
    ∃ q ∈ p.ancestors, q.location = l := by
  have hmem := Location.mem_ancestors_of_isBelow h hne
  rw [← location_ancestors] at hmem
  exact List.mem_map.1 hmem

theorem isBelow_of_mem_ancestors (h : q ∈ p.ancestors) : p.location.isBelow q.location = true := by
  refine Location.isBelow_of_mem_ancestors ?_
  rw [← location_ancestors]
  exact List.mem_map_of_mem h

theorem selectedAncestor?_isNone_iff (h : ∀ l ∈ selected, l ≠ []) :
    (selectedAncestor? selected p).isNone = true ↔
      ∀ above ∈ selected, p.location.isBelow above = false := by
  rw [selectedAncestor?, Option.isNone_iff_eq_none, List.find?_eq_none]
  constructor
  · intro hnone above habove
    rw [Bool.eq_false_iff]
    intro hbelow
    obtain ⟨q, hq, rfl⟩ := exists_mem_ancestors hbelow (h above habove)
    exact hnone q hq (List.contains_iff_mem.2 habove)
  · intro hall q hq hcontains
    have hbelow := hall q.location (List.contains_iff_mem.1 hcontains)
    rw [isBelow_of_mem_ancestors hq] at hbelow
    exact Bool.noConfusion hbelow

/-- A walk up ends at a selected place, and all other ones above the path are above it too. -/
theorem selectedAncestor?_eq_some (hne : ∀ l ∈ selected, l ≠ [])
    (h : selectedAncestor? selected p = some above) :
    above.location ∈ selected ∧ p.location.isBelow above.location = true ∧
      ∀ l ∈ selected, p.location.isBelow l = true → above.location.startsWith l = true := by
  obtain ⟨hfound, past, ahead, hwalk, hpast⟩ := List.find?_eq_some_iff_append.1 h
  have habove : above ∈ p.ancestors := by simp [hwalk]
  refine ⟨List.contains_iff_mem.1 hfound, isBelow_of_mem_ancestors habove, fun l hl hbelow => ?_⟩
  obtain ⟨q, hq, rfl⟩ := exists_mem_ancestors hbelow (hne l hl)
  rw [hwalk, List.mem_append, List.mem_cons] at hq
  rcases hq with hq | rfl | hq
  · have hmissed := hpast q hq
    rw [List.contains_iff_mem.2 hl] at hmissed
    exact Bool.noConfusion hmissed
  · exact Location.startsWith_self q.location
  · have horder := p.location.pairwise_ancestors
    rw [← location_ancestors, hwalk, List.pairwise_map, List.pairwise_append, List.pairwise_cons]
      at horder
    exact horder.2.1.1 q hq

/-! ### Outermost paths -/

/-- A path of a list that lies below no other one of it. -/
def IsOutermost (paths : List Path) (p : Path) : Prop :=
  p ∈ paths ∧ ∀ q ∈ paths, p.location.isBelow q.location = false

instance (paths : List Path) (p : Path) : Decidable (IsOutermost paths p) :=
  inferInstanceAs (Decidable (_ ∧ _))

/-- Walking up from a path of a list one comes to an outermost one. -/
theorem exists_isOutermost (h : p ∈ paths) : ∃ q, IsOutermost paths q ∧ p.startsWith q = true := by
  -- The induction is on the number of steps: a path above another one has fewer of them.
  induction hn : p.location.length using Nat.strongRecOn generalizing p with
  | ind n ih =>
    by_cases houtermost : ∀ q ∈ paths, p.location.isBelow q.location = false
    · exact ⟨p, ⟨h, houtermost⟩, Location.startsWith_self p.location⟩
    · push Not at houtermost
      obtain ⟨above, habove, hbelow⟩ := houtermost
      rw [ne_eq, Bool.not_eq_false] at hbelow
      obtain ⟨hstarts, hne⟩ := Location.isBelow_iff.1 hbelow
      have hshorter : above.location.length < n := by
        have hle := hstarts.length_le
        have hlength : above.location.length ≠ p.location.length :=
          fun heq => hne (hstarts.eq_of_length heq).symm
        omega
      obtain ⟨q, hq, hstarts⟩ := ih _ hshorter habove rfl
      exact ⟨q, hq, Location.startsWith_trans (Location.startsWith_of_isBelow hbelow) hstarts⟩

/-- No two outermost paths lie above one path. -/
theorem IsOutermost.location_eq (hq : IsOutermost paths q) (hr : IsOutermost paths r)
    (hpq : p.startsWith q = true) (hpr : p.startsWith r = true) : q.location = r.location := by
  rcases Location.isBelow_total hpq hpr with heq | hbelow | hbelow
  · exact heq
  · rw [hq.2 r hr.1] at hbelow
    exact Bool.noConfusion hbelow
  · rw [hr.2 q hq.1] at hbelow
    exact Bool.noConfusion hbelow

/-! ### Collapsed lists -/

/-- Collapsing keeps the paths that lie below no other one. -/
theorem mem_collapse_iff (h : ∀ p ∈ paths, p.location ≠ []) :
    p ∈ (collapse paths).1 ↔
      p ∈ paths ∧ ∀ q ∈ paths, p.location.isBelow q.location = false := by
  have hselected : ∀ l ∈ paths.map location, l ≠ [] := List.forall_mem_map.2 h
  simp only [collapse, List.mem_filter, selectedAncestor?_isNone_iff hselected,
    List.forall_mem_map]

/-- Paths none of which lies below another one are not collapsed. -/
theorem collapse_eq_self (h : ∀ p ∈ paths, p.location ≠ [])
    (hapart : ∀ p ∈ paths, ∀ q ∈ paths, p.location.isBelow q.location = false) :
    collapse paths = (paths, []) := by
  have hnone (p) (hp : p ∈ paths) : selectedAncestor? (paths.map location) p = none := by
    rw [← Option.isNone_iff_eq_none,
      selectedAncestor?_isNone_iff (List.forall_mem_map.2 h), List.forall_mem_map]
    exact hapart p hp
  refine Prod.ext ?_ ?_
  · exact List.filter_eq_self.2 fun p hp => Option.isNone_iff_eq_none.2 (hnone p hp)
  · exact List.filterMap_eq_nil_iff.2 fun p hp => by rw [hnone p hp, Option.map_none]

/-- Collapsing tells of each path from which a walk up finds something, in the order of the list. -/
theorem map_path_collapse (paths : List Path) :
    (collapse paths).2.map Covered.path =
      paths.filter fun p => !(selectedAncestor? (paths.map location) p).isNone := by
  rw [collapse, List.map_filterMap, ← List.filterMap_eq_filter]
  refine List.filterMap_congr fun p _ => ?_
  cases habove : selectedAncestor? (paths.map location) p <;> simp [Option.guard, habove]

/-- Collapsing keeps a path or tells what lies above it. -/
theorem perm_collapse (paths : List Path) :
    paths.Perm ((collapse paths).1 ++ (collapse paths).2.map Covered.path) := by
  rw [map_path_collapse]
  exact (List.filter_append_perm _ paths).symm

theorem mem_covered_iff {c : Covered} :
    c ∈ (collapse paths).2 ↔
      c.path ∈ paths ∧ selectedAncestor? (paths.map location) c.path = some c.ancestor := by
  constructor
  · intro h
    obtain ⟨p, hp, hc⟩ := List.mem_filterMap.1 h
    obtain ⟨above, habove, rfl⟩ := Option.map_eq_some_iff.1 hc
    exact ⟨hp, habove⟩
  · rintro ⟨hp, habove⟩
    exact List.mem_filterMap.2 ⟨c.path, hp, by rw [habove]; rfl⟩

/-- What a collapsed list leaves out lies below something else in it. -/
theorem isBelow_of_mem_covered {c : Covered} (h : c ∈ (collapse paths).2) :
    c.path ∈ paths ∧ c.path.location.isBelow c.ancestor.location = true := by
  obtain ⟨hp, habove⟩ := mem_covered_iff.1 h
  exact ⟨hp, isBelow_of_mem_ancestors (List.mem_of_find?_eq_some habove)⟩

/-- What is told of a path that is left out of a list: the longest path of the list above it. -/
structure Covered.IsNearest (paths : List Path) (c : Covered) : Prop where
  /-- It names the place of a path of the list. -/
  listed : ∃ q ∈ paths, c.ancestor.sameAs q = true
  /-- It is spelled as the front of the path that is left out. -/
  isPrefix : c.ancestor.bytes <+: c.path.bytes
  below : c.path.location.isBelow c.ancestor.location = true
  /-- Whatever else of the list lies above the path lies above this one too. -/
  nearest : ∀ q ∈ paths, c.path.location.isBelow q.location = true → c.ancestor.startsWith q = true

theorem isNearest_of_mem_covered (h : ∀ p ∈ paths, p.location ≠ []) {c : Covered}
    (hc : c ∈ (collapse paths).2) : c.IsNearest paths := by
  obtain ⟨-, habove⟩ := mem_covered_iff.1 hc
  obtain ⟨hmem, hbelow, hnearest⟩ := selectedAncestor?_eq_some (List.forall_mem_map.2 h) habove
  obtain ⟨q, hq, heq⟩ := List.mem_map.1 hmem
  exact ⟨⟨q, hq, decide_eq_true heq.symm⟩,
    prefix_of_mem_ancestors (List.mem_of_find?_eq_some habove), hbelow,
    List.forall_mem_map.1 hnearest⟩

/-- What is left out lies below something that is kept. -/
theorem exists_kept_of_isBelow (h : ∀ p ∈ paths, p.location ≠ []) (hq : q ∈ paths)
    (hbelow : p.location.isBelow q.location = true) :
    ∃ kept ∈ (collapse paths).1, p.location.isBelow kept.location = true := by
  obtain ⟨kept, hkept, hstarts⟩ := exists_isOutermost hq
  exact ⟨kept, (mem_collapse_iff h).2 hkept,
    Location.isBelow_of_isBelow_of_startsWith hbelow hstarts⟩

/-- Of absolute paths collapsing keeps, in their order, those without a path of the list above them,
and tells of all others, in their order, which path of the list is nearest above them. It may be one
that is left out itself, but some path that is kept lies above each of them. The walks up find
nothing in a list of at most one path, which comes out as it went in. -/
theorem collapse_exact (h : ∀ p ∈ paths, p.isAbsolute = true) :
    (collapse paths).1 =
        paths.filter (fun p => paths.all fun q => !p.location.isBelow q.location) ∧
      (collapse paths).2.map Covered.path =
        paths.filter (fun p => paths.any fun q => p.location.isBelow q.location) ∧
      (∀ c ∈ (collapse paths).2, c.IsNearest paths ∧
        ∃ kept ∈ (collapse paths).1, c.path.location.isBelow kept.location = true) ∧
      (paths.length ≤ 1 → collapse paths = (paths, [])) := by
  have hne : ∀ p ∈ paths, p.location ≠ [] := fun p hp => location_ne_nil (h p hp)
  have hnone (p : Path) : (selectedAncestor? (paths.map location) p).isNone =
      paths.all fun q => !p.location.isBelow q.location := by
    rw [Bool.eq_iff_iff, selectedAncestor?_isNone_iff (List.forall_mem_map.2 hne)]
    simp
  refine ⟨?_, ?_, fun c hc => ?_, fun hlength => ?_⟩
  · exact List.filter_congr fun p _ => hnone p
  · rw [map_path_collapse]
    refine List.filter_congr fun p _ => ?_
    rw [hnone, List.not_all_eq_any_not]
    simp
  · have hnearest := isNearest_of_mem_covered hne hc
    obtain ⟨q, hq, heq⟩ := hnearest.listed
    have hbelow := hnearest.below
    rw [of_decide_eq_true heq] at hbelow
    exact ⟨hnearest, exists_kept_of_isBelow hne hq hbelow⟩
  · refine collapse_eq_self hne fun p hp q hq => ?_
    match paths, hlength with
    | [only], _ =>
      rw [List.mem_singleton.1 hp, List.mem_singleton.1 hq]
      exact Location.isBelow_self only.location

/-- What is nearest above `/a/b/c` is left out itself, because of `/a`. -/
theorem collapse_exact_nested :
    let paths := [Path.ofString "/a/b/./c", .ofString "//a//b/", .ofString "/x/../y",
      .ofString "/a", .ofString "/x/.."]
    let c : Covered := ⟨.ofString "/a/b/./c", .ofString "/a/b"⟩
    (∀ p ∈ paths, p.isAbsolute = true) ∧
      (collapse paths).1 = [.ofString "/a", .ofString "/x/.."] ∧
      (collapse paths).2.map Covered.path =
        [.ofString "/a/b/./c", .ofString "//a//b/", .ofString "/x/../y"] ∧
      c ∈ (collapse paths).2 ∧ c.IsNearest paths ∧
      (∃ kept ∈ (collapse paths).1, c.path.location.isBelow kept.location = true) ∧
      collapse [c.path] = ([c.path], []) := by
  intro paths c
  have habsolute : ∀ p ∈ paths, p.isAbsolute = true := by decide
  have halone : ∀ p ∈ [c.path], p.isAbsolute = true := by decide
  have hc : c ∈ (collapse paths).2 := by decide
  obtain ⟨hkept, hcovered, htold, -⟩ := collapse_exact habsolute
  obtain ⟨hnearest, hbelow⟩ := htold c hc
  obtain ⟨-, -, -, hshort⟩ := collapse_exact halone
  exact ⟨habsolute, hkept.trans (by decide), hcovered.trans (by decide), hc, hnearest, hbelow,
    hshort (by decide)⟩

end Path

end IndexControl
