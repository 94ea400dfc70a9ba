import IndexControl.Filters
import IndexControl.Proofs.Path.Joining
import IndexControl.Proofs.Path.Texts

/-!
# Markers and the entries they name

A marker is looked for in two ways: a path is compared with it by its last name, and a directory is
asked for what lies below it under the marker. A marker that is kept has no slash and is not empty,
so it is a single piece of a path. Such a piece is an ordinary name, unless it is a dot or a double
dot. These two are kept as well, though they name no entry: a dot is found in any directory, and a
double dot wherever there is something above.

## Main results

* `Filters.bytes_of_isMarker`: what is kept as a marker.
* `Filters.rejects_parentDirectory_iff`, `Filters.location_join_marker`: the two ways to look for
  one.
* `Filters.hasMarker_iff_exists_child`: where they agree.
-/

namespace IndexControl

namespace Path

variable {s t : String}

theorem bytes_ofString_inj : (ofString s).bytes = (ofString t).bytes ↔ s = t :=
  ⟨Text.utf8_injective, fun h => h ▸ rfl⟩

theorem bytes_ofString_eq_dot_iff : (ofString s).bytes = [dot] ↔ s = "." := by
  have hdot : [dot] = (ofString ".").bytes := by decide
  rw [hdot, bytes_ofString_inj]

theorem bytes_ofString_eq_dots_iff : (ofString s).bytes = [dot, dot] ↔ s = ".." := by
  have hdots : [dot, dot] = (ofString "..").bytes := by decide
  rw [hdots, bytes_ofString_inj]

/-- Whether a place is among some others does not hang on how it is spelled. -/
theorem any_sameAs_congr {places : List Path} {p q : Path} (h : p.sameAs q = true) :
    places.any p.sameAs = places.any q.sameAs := by
  have hlocation : p.location = q.location := of_decide_eq_true h
  have hsame : p.sameAs = q.sameAs := by
    funext place
    rw [sameAs, sameAs, hlocation]
  rw [hsame]

end Path

namespace Filters

variable {patterns : FilterPatterns} {marker : String} {present : Path → Bool} {dir : Path}

/-! ### What is kept as a marker -/

/-- A marker that is kept is one piece of a path. -/
theorem bytes_of_isMarker (h : isMarker marker = true) :
    (Path.ofString marker).bytes ≠ [] ∧ Path.slash ∉ (Path.ofString marker).bytes := by
  rw [isMarker, Bool.and_eq_true, Bool.not_eq_true', Bool.not_eq_true', List.any_eq_false] at h
  obtain ⟨hempty, hwild⟩ := h
  refine ⟨fun hnil => ?_, fun hslash => ?_⟩
  · have hmarker : marker = "" := Path.bytes_ofString_inj.1 (hnil.trans (by decide))
    simp [hmarker] at hempty
  · exact hwild '/' (Path.slash_mem_ofString_iff.1 hslash) (by decide)

/-- A marker spells an ordinary name, unless it is one of the two dots. -/
theorem ofPiece_marker (h : marker ≠ "." ∧ marker ≠ "..") :
    Component.ofPiece (Path.ofString marker).bytes = .name (Path.ofString marker).bytes := by
  rw [Component.ofPiece, if_neg (mt Path.bytes_ofString_eq_dot_iff.1 h.1),
    if_neg (mt Path.bytes_ofString_eq_dots_iff.1 h.2)]

theorem mem_parentMarkers_ofPatterns : marker ∈ (ofPatterns patterns).patterns.parentMarkers ↔
    marker ∈ patterns.parentMarkers ∧ isMarker marker = true :=
  List.mem_filter

/-! ### The two ways to look for a marker -/

/-- A path is rejected as a marker just where its last name is one. -/
theorem rejects_parentDirectory_iff {l : Location} (hl : l.IsSpelled) :
    (ofPatterns patterns).rejects l .parentDirectory = true ↔
      ∃ marker ∈ (ofPatterns patterns).patterns.parentMarkers,
        l.getLast? = some (.name (Path.ofString marker).bytes) := by
  rw [rejects, Location.fileName?]
  cases hlast : l.getLast? with
  | none => simp
  | some c =>
    cases c with
    | root => simp
    | current => simp
    | parent => simp
    | name bytes =>
      have hspellable : Component.IsSpellable (.name bytes) := hl.1 _ (List.mem_of_getLast? hlast)
      have hpiece : Component.ofPiece bytes = .name bytes :=
        Component.ofPiece_toPiece hspellable (by simp)
      have hname : (Path.mk bytes).location = [.name bytes] := by
        rw [Path.location_of_slash_notMem hspellable.1 hspellable.2.1, hpiece]
      simp only [List.any_eq_true, decide_eq_true_iff, hname, Option.some.injEq,
        Component.name.injEq]
      refine exists_congr fun marker => and_congr_right fun hmem => ?_
      obtain ⟨hmarker, hplain⟩ := bytes_of_isMarker (mem_parentMarkers_ofPatterns.1 hmem).2
      rw [Path.location_of_slash_notMem hmarker hplain, List.singleton_inj]
      constructor
      · exact fun h => (congrArg Component.toPiece h).trans (Path.toPiece_ofPiece _)
      · rintro rfl
        exact hpiece.symm

theorem hasMarker_eq_true_iff : (ofPatterns patterns).hasMarker present dir = true ↔
    ∃ marker ∈ (ofPatterns patterns).patterns.parentMarkers,
      present (dir.join (.ofString marker)) = true :=
  List.any_eq_true

/-- Below an absolute directory a kept marker leads one step further, unless it is a dot. -/
theorem location_join_marker (h : isMarker marker = true) (hdir : dir.isAbsolute = true) :
    (dir.join (.ofString marker)).location =
      dir.location ++ Path.componentsOf [(Path.ofString marker).bytes] := by
  have hplain := (bytes_of_isMarker h).2
  rw [Path.location_join hdir (Path.isAbsolute_of_slash_notMem hplain),
    Path.steps_of_slash_notMem hplain]

theorem location_join_dot (hdir : dir.isAbsolute = true) :
    (dir.join (.ofString ".")).location = dir.location := by
  have hidle : Path.componentsOf [(Path.ofString ".").bytes] = [] := by decide
  rw [location_join_marker (by decide) hdir, hidle, List.append_nil]

theorem location_join_dots (hdir : dir.isAbsolute = true) :
    (dir.join (.ofString "..")).location = dir.location ++ [.parent] := by
  have hparent : Path.componentsOf [(Path.ofString "..").bytes] = [.parent] := by decide
  rw [location_join_marker (by decide) hdir, hparent]

theorem location_join_name (h : isMarker marker = true) (hdir : dir.isAbsolute = true)
    (hname : marker ≠ "." ∧ marker ≠ "..") : (dir.join (.ofString marker)).location =
      dir.location ++ [.name (Path.ofString marker).bytes] := by
  have hidle : Path.isIdle (Path.ofString marker).bytes = false := by
    simp [Path.isIdle, (bytes_of_isMarker h).1, Path.bytes_ofString_eq_dot_iff, hname.1]
  rw [location_join_marker h hdir, Path.componentsOf_singleton hidle, ofPiece_marker hname]

/-- A kept marker names an entry of a directory, unless it is one of the two dots. -/
theorem exists_location_join_iff (h : isMarker marker = true) (hdir : dir.isAbsolute = true) :
    (∃ name, (dir.join (.ofString marker)).location = dir.location ++ [.name name]) ↔
      marker ≠ "." ∧ marker ≠ ".." := by
  constructor
  · rintro ⟨name, hlocation⟩
    constructor
    · rintro rfl
      simp [location_join_dot hdir] at hlocation
    · rintro rfl
      simp [location_join_dots hdir] at hlocation
  · exact fun hname => ⟨_, location_join_name h hdir hname⟩

/-- The two ways to look for a marker agree, the two dots aside. A directory holds a marker just
where one of its entries is rejected as one, or where a dot is a marker, which is found in every
directory, or where a double dot is one and leads somewhere. Any other kept marker names an entry
of the directory. -/
theorem hasMarker_iff_exists_child
    (hset : ∀ p q : Path, p.sameAs q = true → present p = present q)
    (hdir : dir.isAbsolute = true) (hpresent : present dir = true) :
    (∀ marker ∈ (ofPatterns patterns).patterns.parentMarkers,
      ((∃ name, (dir.join (.ofString marker)).location = dir.location ++ [.name name]) ↔
        marker ≠ "." ∧ marker ≠ "..")) ∧
      ((ofPatterns patterns).hasMarker present dir = true ↔
        (∃ child : Path, present child = true ∧ child.location.isChildOf dir.location = true ∧
            (ofPatterns patterns).rejects child.location .parentDirectory = true) ∨
          "." ∈ patterns.parentMarkers ∨
          ".." ∈ patterns.parentMarkers ∧ present (dir.join (.ofString "..")) = true) := by
  have hsame {p q : Path} (h : p.location = q.location) : present p = present q :=
    hset p q (decide_eq_true h)
  have hne : dir.location ≠ [] :=
    List.ne_nil_of_mem (List.mem_of_mem_head? (Path.head?_location hdir))
  refine ⟨fun marker hmarker =>
    exists_location_join_iff (mem_parentMarkers_ofPatterns.1 hmarker).2 hdir, ?_⟩
  rw [hasMarker_eq_true_iff]
  constructor
  · rintro ⟨marker, hkept, hfound⟩
    obtain ⟨hmem, hmarker⟩ := mem_parentMarkers_ofPatterns.1 hkept
    by_cases hdot : marker = "."
    · exact .inr (.inl (hdot ▸ hmem))
    by_cases hdots : marker = ".."
    · exact .inr (.inr (hdots ▸ ⟨hmem, hfound⟩))
    have hlocation := location_join_name hmarker hdir ⟨hdot, hdots⟩
    refine .inl ⟨_, hfound, (Location.isChildOf_iff hne).2 ⟨_, hlocation⟩, ?_⟩
    refine (rejects_parentDirectory_iff (Path.location_isSpelled _)).2 ⟨marker, hkept, ?_⟩
    rw [hlocation, List.getLast?_concat]
  · rintro (⟨child, hfound, hchild, hrejects⟩ | hdot | ⟨hdots, hfound⟩)
    · have hspelled := child.location_isSpelled
      obtain ⟨c, hc⟩ := (Location.isChildOf_iff hne).1 hchild
      obtain ⟨marker, hkept, hlast⟩ := (rejects_parentDirectory_iff hspelled).1 hrejects
      obtain rfl : c = .name (Path.ofString marker).bytes := by
        rw [hc, List.getLast?_concat] at hlast
        exact Option.some.inj hlast
      -- a name of a spelled path is neither of the two dots
      obtain ⟨-, -, hdot, hdots⟩ : Component.IsSpellable (.name (Path.ofString marker).bytes) :=
        hspelled.1 _ (hc ▸ List.mem_append_right _ List.mem_cons_self)
      rw [ne_eq, Path.bytes_ofString_eq_dot_iff] at hdot
      rw [ne_eq, Path.bytes_ofString_eq_dots_iff] at hdots
      have hmarker := (mem_parentMarkers_ofPatterns.1 hkept).2
      refine ⟨marker, hkept, (hsame ?_).trans hfound⟩
      rw [location_join_name hmarker hdir ⟨hdot, hdots⟩, hc]
    · have hkept := mem_parentMarkers_ofPatterns.2 ⟨hdot, by decide⟩
      exact ⟨".", hkept, (hsame (location_join_dot hdir)).trans hpresent⟩
    · exact ⟨"..", mem_parentMarkers_ofPatterns.2 ⟨hdots, by decide⟩, hfound⟩

/-- A marker that is a name is found by its entry, with a double dot among the markers too. -/
theorem hasMarker_nomedia :
    let present (p : Path) : Bool :=
      [Path.ofString "/", .ofString "/d", .ofString "/d/.nomedia"].any p.sameAs
    let filters := ofPatterns ⟨[], [], [".nomedia", ".."], false⟩
    (∀ p q : Path, p.sameAs q = true → present p = present q) ∧
      (Path.ofString "/d").isAbsolute = true ∧ present (.ofString "/d") = true ∧
      filters.hasMarker present (.ofString "/d") = true := by
  intro present filters
  have hset (p q : Path) (h : p.sameAs q = true) : present p = present q := Path.any_sameAs_congr h
  have hdir : (Path.ofString "/d").isAbsolute = true := by decide
  have hpresent : present (.ofString "/d") = true := by decide
  refine ⟨hset, hdir, hpresent, (hasMarker_iff_exists_child hset hdir hpresent).2.2 (.inl ?_)⟩
  exact ⟨.ofString "/d/.nomedia", by decide, by decide, by decide⟩

/-- Where a dot is a marker, an empty directory holds a marker. -/
theorem hasMarker_dot_without_child :
    let present (p : Path) : Bool := [Path.ofString "/", .ofString "/d"].any p.sameAs
    let filters := ofPatterns ⟨[], [], ["."], false⟩
    (∀ p, present p = true → ∀ above ∈ p.ancestors, present above = true) ∧
      (Path.ofString "/d").isAbsolute = true ∧ present (.ofString "/d") = true ∧
      filters.hasMarker present (.ofString "/d") = true ∧
      ¬∃ child : Path, present child = true ∧
        child.location.isChildOf (Path.ofString "/d").location = true ∧
        filters.rejects child.location .parentDirectory = true := by
  intro present filters
  have hplaces {p : Path} : present p = true ↔
      p.location = (Path.ofString "/").location ∨ p.location = (Path.ofString "/d").location := by
    simp [present, Path.sameAs]
  refine ⟨fun p hp above habove => ?_, by decide, by decide, by decide, ?_⟩
  · have hlocation : above.location ∈ p.location.ancestors :=
      p.location_ancestors ▸ List.mem_map_of_mem habove
    rw [hplaces]
    rcases hplaces.1 hp with hroot | hd
    · have hnone : (Path.ofString "/").location.ancestors = [] := by decide
      simp [hroot, hnone] at hlocation
    · have hone : (Path.ofString "/d").location.ancestors = [(Path.ofString "/").location] := by
        decide
      rw [hd, hone, List.mem_singleton] at hlocation
      exact .inl hlocation
  · rintro ⟨child, hchild, hbelow, -⟩
    rcases hplaces.1 hchild with hroot | hd
    · rw [hroot] at hbelow
      exact absurd hbelow (by decide)
    · rw [hd] at hbelow
      exact absurd hbelow (by decide)

end Filters

end IndexControl
