import IndexControl.Proofs.Directories.Canonical
import IndexControl.Proofs.Roots.AddEach
import IndexControl.Proofs.Steward.Reach

/-!
# Adding the configured directories anew

Whenever the configured directories or their flags may have changed, the steward adds all of
them again, first the single ones and then the recursive ones. Over roots that are left from
earlier settings this gives the roots that the directories ask for, but for one case: a single
directory that is listed ahead of another one above it is refused as long as that one is still
recursive from before, and nothing brings it back when the other one becomes single.

## Main definitions

* `Steward.wanted?`: the flags of the root that the configured directories ask for at a place.
* `Directories.strands`: the single directories that are refused for an old recursive root.
* `Steward.LeftOver`: roots that are left from earlier directories.

## Main results

* `Steward.LeftOver.flagsAt?_syncRoots`: the roots after the directories have been added anew.
-/

namespace IndexControl

/-- Whether a change of the directories leaves a single directory without its root: it is listed
ahead of another single directory above it that was recursive before. -/
def Directories.strands (before after : Directories) (place : Location) : Bool :=
  before.recursivePlaces.any fun above =>
    place.isBelow above && [place, above].isSublist after.singlePlaces

theorem Directories.strands_iff {before after : Directories} {place : Location} :
    before.strands after place = true ↔
      ∃ above ∈ before.recursivePlaces, place.isBelow above = true ∧
        [place, above].Sublist after.singlePlaces := by
  simp only [strands, List.any_eq_true, Bool.and_eq_true, List.isSublist_iff_sublist]

theorem Directories.mem_singlePlaces_of_strands {before after : Directories} {place : Location}
    (h : before.strands after place = true) : place ∈ after.singlePlaces := by
  obtain ⟨above, -, -, hsub⟩ := strands_iff.1 h
  exact hsub.subset (by simp)

namespace Steward

open RootSet

variable {w : Steward} {s : RootSet} {q : Location}

theorem map_configured (w : Steward) : w.configured.map (·.1) = w.directories.places := by
  rw [configured, List.map_map, ← w.directories.map_roots]
  rfl

/-- The flags of the root that the configured directories ask for at a place. -/
def wanted? (w : Steward) (place : Location) : Option Flags :=
  if w.isSystemLocation place then none
  else if place ∈ w.directories.recursivePlaces then some (w.flagsFor place true)
  else if w.directories.recursivePlaces.any place.isBelow then none
  else if place ∈ w.directories.singlePlaces then some (w.flagsFor place false)
  else none

theorem isRecursive_flagsFor (w : Steward) (place : Location) (recursive : Bool) :
    (w.flagsFor place recursive).isRecursive = recursive := by
  rw [flagsFor]
  cases recursive <;> cases w.enableMonitors <;> cases w.isOnRemovable place <;> decide

theorem contains_monitor_flagsFor (w : Steward) (place : Location) (recursive : Bool) :
    (w.flagsFor place recursive).contains .monitor = w.enableMonitors := by
  rw [flagsFor]
  cases recursive <;> cases w.enableMonitors <;> cases w.isOnRemovable place <;> decide

theorem wanted?_of_mem_recursivePlaces (hsystem : w.isSystemLocation q = false)
    (hq : q ∈ w.directories.recursivePlaces) : w.wanted? q = some (w.flagsFor q true) := by
  rw [wanted?, hsystem, if_pos hq]
  rfl

/-- A root that is asked for is configured, and it is recursive just where its place is. -/
theorem wanted?_eq_some {f : Flags} (h : w.wanted? q = some f) :
    w.isSystemLocation q = false ∧ q ∈ w.directories.places ∧
      (f.isRecursive = true → q ∈ w.directories.recursivePlaces) := by
  rw [wanted?] at h
  split_ifs at h with hsystem hrecursive hbelow hsingle
  · exact ⟨by simpa using hsystem, Directories.mem_places_iff.2 (.inr hrecursive),
      fun _ => hrecursive⟩
  · obtain rfl := Option.some.inj h
    refine ⟨by simpa using hsystem, Directories.mem_places_iff.2 (.inl hsingle), fun hrec => ?_⟩
    rw [isRecursive_flagsFor] at hrec
    exact Bool.noConfusion hrec

/-- Nothing outside of the system locations lies below one. -/
theorem isSystemLocation_of_isBelow {above : Location} (h : q.isBelow above = true)
    (hq : w.isSystemLocation q = false) : w.isSystemLocation above = false := by
  rw [← Bool.not_eq_true] at hq ⊢
  intro habove
  obtain ⟨system, hsystem, hstart⟩ := List.any_eq_true.1 habove
  exact hq (List.any_eq_true.2
    ⟨system, hsystem, Location.startsWith_trans (Location.startsWith_of_isBelow h) hstart⟩)

/-! ### Adding the configured directories as plain and recursive roots -/

/-- The places at which roots may be. -/
def permitted (w : Steward) (places : List Location) : List Location :=
  places.filter fun place => !w.isSystemLocation place

theorem mem_permitted_iff {places : List Location} :
    q ∈ w.permitted places ↔ q ∈ places ∧ w.isSystemLocation q = false := by
  rw [permitted, List.mem_filter, Bool.not_eq_true']

theorem permitted_sublist (w : Steward) (places : List Location) :
    (w.permitted places).Sublist places := List.filter_sublist

theorem any_permitted (w : Steward) (hq : w.isSystemLocation q = false) {places : List Location} :
    (w.permitted places).any q.isBelow = places.any q.isBelow := by
  rw [Bool.eq_iff_iff, List.any_eq_true, List.any_eq_true]
  constructor
  · rintro ⟨above, habove, hbelow⟩
    exact ⟨above, (mem_permitted_iff.1 habove).1, hbelow⟩
  · rintro ⟨above, habove, hbelow⟩
    exact ⟨above, mem_permitted_iff.2 ⟨habove, isSystemLocation_of_isBelow hbelow hq⟩, hbelow⟩

theorem addConfigured_map (w : Steward) (s : RootSet) (places : List Location)
    (recursive : Bool) :
    w.addConfigured s (places.map (·, recursive)) =
      s.addEach (w.flagsFor · recursive) (w.permitted places) := by
  rw [addConfigured, List.foldl_map, addEach, permitted, List.foldl_filter]
  congr 1
  funext s place
  rw [addDirectory]
  cases w.isSystemLocation place <;> rfl

theorem configured_eq (w : Steward) :
    w.configured = w.directories.singlePlaces.map (·, false) ++
      w.directories.recursivePlaces.map (·, true) := by
  simp only [configured, Directories.roots, Directories.singlePlaces, Directories.recursivePlaces,
    List.map_append, List.map_map]
  rfl

theorem mem_configured_iff {recursive : Bool} :
    (q, recursive) ∈ w.configured ↔
      if recursive then q ∈ w.directories.recursivePlaces else q ∈ w.directories.singlePlaces := by
  rw [configured_eq]
  cases recursive <;> simp

/-- Add the single directories. -/
def addSingles (w : Steward) (s : RootSet) : RootSet :=
  s.addEach (w.flagsFor · false) (w.permitted w.directories.singlePlaces)

theorem syncRoots_eq (w : Steward) (s : RootSet) :
    w.syncRoots s =
      (w.addSingles s).addEach (w.flagsFor · true)
        (w.permitted w.directories.recursivePlaces) := by
  rw [addSingles, ← addConfigured_map, ← addConfigured_map, syncRoots, configured_eq,
    addConfigured, List.foldl_append]
  rfl

/-! ### The roots after adding -/

/-- The roots are left from earlier directories: all of them are configured, and the recursive
ones are those configured places that were recursive before. -/
structure LeftOver (w : Steward) (before : Directories) (s : RootSet) : Prop where
  wellFormed : s.WellFormed
  configured : ∀ q, s.isRoot q = true → w.isSystemLocation q = false ∧ q ∈ w.directories.places
  recursive_iff : ∀ q, s.isRecursiveRoot q = true ↔ w.isSystemLocation q = false ∧
    q ∈ before.recursivePlaces ∧ q ∈ w.directories.places

variable {before : Directories}

/-- A single directory that lies below no recursive one is refused just where it is stranded. -/
private theorem LeftOver.accepts_iff (h : w.LeftOver before s) (hd : w.directories.Canonical)
    (hq : q ∈ w.permitted w.directories.singlePlaces)
    (hfree : ∀ above ∈ w.directories.recursivePlaces, q.isBelow above = false) :
    s.Accepts (w.permitted w.directories.singlePlaces) q ↔
      before.strands w.directories q = false := by
  obtain ⟨hsingle, hsystem⟩ := mem_permitted_iff.1 hq
  have hpermitted {above : Location} (hbelow : q.isBelow above = true) :
      w.isSystemLocation above = false := isSystemLocation_of_isBelow hbelow hsystem
  rw [← Bool.not_eq_true, Directories.strands_iff]
  constructor
  · rintro haccepts ⟨above, hbefore, hbelow, hsub⟩
    have hmem : above ∈ w.directories.singlePlaces := hsub.subset (by simp)
    have hrec : s.isRecursiveRoot above = true :=
      (h.recursive_iff above).2 ⟨hpermitted hbelow, hbefore,
        Directories.mem_places_iff.2 (.inl hmem)⟩
    have hsub' := (haccepts above hrec hbelow).trans (w.permitted_sublist _)
    exact not_pair_sublist_of_nodup hd.nodup_single hsub hsub'
  · intro hstranded above hrec hbelow
    obtain ⟨-, hbefore, hmem⟩ := (h.recursive_iff above).1 hrec
    rcases Directories.mem_places_iff.1 hmem with hmem | hmem
    · have hne : above ≠ q := by
        rintro rfl
        simp at hbelow
      rcases pair_sublist_or hmem hsingle hne with hsub | hsub
      · have hfilter : ([above, q].filter fun place => !w.isSystemLocation place).Sublist
            (w.permitted w.directories.singlePlaces) := hsub.filter _
        simpa [hpermitted hbelow, hsystem] using hfilter
      · exact absurd ⟨above, hbefore, hbelow, hsub⟩ hstranded
    · rw [hfree above hmem] at hbelow
      exact Bool.noConfusion hbelow

open scoped Classical in
/-- What adding the single directories leaves. -/
private theorem LeftOver.flagsAt?_addSingles (h : w.LeftOver before s)
    (hd : w.directories.Canonical) (q : Location) :
    (w.addSingles s).flagsAt? q =
      if q ∈ w.permitted w.directories.singlePlaces then
        if s.Accepts (w.permitted w.directories.singlePlaces) q then some (w.flagsFor q false)
        else none
      else s.flagsAt? q :=
  flagsAt?_addEach_plain h.wellFormed
    (fun place hplace => hd.single_isCanonical place (mem_permitted_iff.1 hplace).1)
    (hd.nodup_single.sublist (w.permitted_sublist _))
    (fun place => isRecursive_flagsFor w place false) q

/-- Adding the single directories leaves recursive roots only at recursive directories. -/
private theorem LeftOver.recursive_addSingles (h : w.LeftOver before s)
    (hd : w.directories.Canonical) {above : Location}
    (habove : (w.addSingles s).isRecursiveRoot above = true) :
    above ∈ w.directories.recursivePlaces := by
  rw [isRecursiveRoot_eq_any, h.flagsAt?_addSingles hd] at habove
  split_ifs at habove with hmem hcond
  · simp [isRecursive_flagsFor] at habove
  · simp at habove
  · rw [← isRecursiveRoot_eq_any, h.recursive_iff] at habove
    obtain ⟨hsystem, -, hplace⟩ := habove
    rcases Directories.mem_places_iff.1 hplace with hsingle | hrecursive
    · exact absurd (mem_permitted_iff.2 ⟨hsingle, hsystem⟩) hmem
    · exact hrecursive

private theorem LeftOver.flagsAt?_eq_none (h : w.LeftOver before s)
    (hq : w.isSystemLocation q = true ∨ q ∉ w.directories.places) :
    s.flagsAt? q = none := by
  by_contra hne
  obtain ⟨f, hf⟩ := Option.ne_none_iff_exists'.1 hne
  obtain ⟨hsystem, hmem⟩ := h.configured q (isRoot_iff_flagsAt?.2 ⟨f, hf⟩)
  rcases hq with hq | hq
  · rw [hq] at hsystem
    exact Bool.noConfusion hsystem
  · exact hq hmem

/-- Adding the configured directories over roots that are left from earlier ones gives the roots
that they ask for, except where a single directory is stranded by what was recursive before. -/
theorem LeftOver.flagsAt?_syncRoots (h : w.LeftOver before s) (hd : w.directories.Canonical)
    (q : Location) :
    (w.syncRoots s).flagsAt? q =
      if before.strands w.directories q then none else w.wanted? q := by
  have hwellFormed : (w.addSingles s).WellFormed :=
    h.wellFormed.addEach fun place hplace =>
      hd.single_isCanonical place (mem_permitted_iff.1 hplace).1
  rw [syncRoots_eq, flagsAt?_addEach_recursive hwellFormed
    (fun place hplace => hd.recursive_isCanonical place (mem_permitted_iff.1 hplace).1)
    (fun place => isRecursive_flagsFor w place true)
    (fun place hplace above habove => hd.outermost place (mem_permitted_iff.1 hplace).1 above
      (h.recursive_addSingles hd habove))
    (fun place hplace above habove => hd.outermost place (mem_permitted_iff.1 hplace).1 above
      (mem_permitted_iff.1 habove).1), h.flagsAt?_addSingles hd]
  cases hsystem : w.isSystemLocation q with
  | true => simp [wanted?, mem_permitted_iff, hsystem, h.flagsAt?_eq_none (.inl hsystem)]
  | false =>
    have hpermitted {places : List Location} : q ∈ w.permitted places ↔ q ∈ places := by
      simp [mem_permitted_iff, hsystem]
    simp only [wanted?, hpermitted, w.any_permitted hsystem, hsystem, Bool.false_eq_true,
      ↓reduceIte]
    by_cases hrecursive : q ∈ w.directories.recursivePlaces
    · have hsingle : q ∉ w.directories.singlePlaces := fun hmem => hd.apart q hmem hrecursive
      have hstrands : before.strands w.directories q = false := by
        rw [← Bool.not_eq_true]
        exact fun hstrands => hsingle (Directories.mem_singlePlaces_of_strands hstrands)
      simp [hrecursive, hstrands]
    · rw [if_neg hrecursive, if_neg hrecursive]
      by_cases hbelow : w.directories.recursivePlaces.any q.isBelow = true
      · simp [hbelow]
      · rw [if_neg hbelow, if_neg hbelow]
        by_cases hsingle : q ∈ w.directories.singlePlaces
        · have hfree : ∀ above ∈ w.directories.recursivePlaces, q.isBelow above = false := by
            simpa using hbelow
          rw [if_pos hsingle, if_pos hsingle, h.accepts_iff hd (hpermitted.2 hsingle) hfree]
          cases before.strands w.directories q <;> simp
        · have hplace : q ∉ w.directories.places := by
            simp [Directories.mem_places_iff, hsingle, hrecursive]
          simp [hsingle, h.flagsAt?_eq_none (.inr hplace)]

end Steward

end IndexControl
