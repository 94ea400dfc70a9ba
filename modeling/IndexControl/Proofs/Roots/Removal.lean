import IndexControl.Proofs.Roots.Changes
import IndexControl.Steward.Changes

/-!
# Roots that are taken out

Removing roots, with the flags they have or with changed ones, takes them out of the set and queues
what is told about each. Several removals in order take out all those roots at once.

## Main definitions

* `RootSet.takeOut`: a set of roots without some places, and what is told about that.
* `RootSet.farewell`: what is told about a root that goes with changed flags.

## Main results

* `RootSet.root?_takeOut`, `RootSet.takeOut_takeOut`: what is left, and removals in order.
* `RootSet.WellFormed.removeEach_eq_takeOut`: what removing some roots leaves.
* `RootSet.WellFormed.foldl_removeAs_eq_takeOut`: the same for roots that go with changed flags.
-/

namespace IndexControl

namespace OrderedMap

variable {κ α : Type} [Ord κ] [Std.LawfulEqOrd κ] [DecidableEq κ] [Std.TransOrd κ]

/-- A value that was put in place only to be dropped again leaves no trace. -/
theorem erase_insert (m : OrderedMap κ α) (key : κ) (value : α) :
    (m.insert key value).erase key = m.erase key := by
  refine ext_find? fun k => ?_
  rw [find?_erase, find?_erase, find?_insert]
  split <;> rfl

end OrderedMap

namespace RootSet

variable {s : RootSet} {place q : Location} {root : Root} {gone : List (Location × Root)}

/-- Take out the roots at some places, and queue what is told about that. -/
def takeOut (s : RootSet) (places : List Location) (news : List RootEvent) : RootSet :=
  { s with roots := places.foldl OrderedMap.erase s.roots, events := s.events ++ news }

theorem root?_takeOut (s : RootSet) (places : List Location) (news : List RootEvent)
    (q : Location) : (s.takeOut places news).root? q = if q ∈ places then none else s.root? q := by
  rw [root?, takeOut, OrderedMap.find?_foldl_erase]
  split_ifs <;> rfl

/-- Taking out all roots whose places have a property leaves just the others. -/
theorem root?_takeOut_filter (s : RootSet) (p : Location → Bool) (news : List RootEvent)
    (q : Location) :
    (s.takeOut (s.places.filter p) news).root? q = if p q then none else s.root? q := by
  rw [root?_takeOut]
  by_cases hplace : q ∈ s.places
  · simp only [List.mem_filter, hplace, true_and]
  · have hnone : s.root? q = none :=
      Option.eq_none_iff_forall_ne_some.2 fun root hroot => hplace (mem_places_iff.2 ⟨root, hroot⟩)
    rw [hnone, ite_self, ite_self]

theorem takeOut_nil (s : RootSet) : s.takeOut [] [] = s := by
  simp [takeOut]

/-- What is taken out in two steps is taken out at once. -/
theorem takeOut_takeOut (s : RootSet) (places later : List Location)
    (news laterNews : List RootEvent) :
    (s.takeOut places news).takeOut later laterNews =
      s.takeOut (places ++ later) (news ++ laterNews) := by
  simp only [takeOut, List.foldl_append, List.append_assoc]

theorem WellFormed.takeOut (h : s.WellFormed) (places : List Location) (news : List RootEvent) :
    (s.takeOut places news).WellFormed := by
  refine h.of_flagsAt?_imp fun q f hf => ?_
  rw [flagsAt?, root?_takeOut] at hf
  split at hf
  · contradiction
  · exact hf

/-- When the first of different roots has been taken out, the others are still there. -/
theorem root?_takeOut_of_nodup {e : Location × Root} (hnodup : ((e :: gone).map (·.1)).Nodup)
    (hgone : ∀ d ∈ gone, s.root? d.1 = some d.2) (news : List RootEvent) :
    ∀ d ∈ gone, (s.takeOut [e.1] news).root? d.1 = some d.2 := fun d hd => by
  have hne : d.1 ≠ e.1 := fun heq =>
    (List.nodup_cons.1 hnodup).1 (List.mem_map.2 ⟨d, hd, heq⟩)
  rw [root?_takeOut, if_neg (by simpa using hne), hgone d hd]

/-- Places that are roots, each with what is known about its root. -/
theorem exists_roots {places : List Location} (hroots : ∀ q ∈ places, s.isRoot q = true) :
    ∃ gone : List (Location × Root), gone.map (·.1) = places ∧
      ∀ e ∈ gone, s.root? e.1 = some e.2 := by
  induction places with
  | nil => exact ⟨[], rfl, fun _ he => absurd he List.not_mem_nil⟩
  | cons place places ih =>
    obtain ⟨hplace, hplaces⟩ := List.forall_mem_cons.1 hroots
    obtain ⟨root, hroot⟩ := isRoot_iff.1 hplace
    obtain ⟨gone, rfl, hgone⟩ := ih hplaces
    exact ⟨(place, root) :: gone, rfl, List.forall_mem_cons.2 ⟨hroot, hgone⟩⟩

/-! ### Roots that go as they are -/

theorem WellFormed.canonical_of_root? (h : s.WellFormed) (hroot : s.root? place = some root) :
    place.canonical = place :=
  (h.canonical place (isRoot_iff.2 ⟨root, hroot⟩)).2

theorem WellFormed.remove_eq_takeOut (h : s.WellFormed) (hroot : s.root? place = some root) :
    s.remove place = (s.takeOut [place] [.removed place root.flags], some (place, root)) := by
  simp only [RootSet.remove, h.canonical_of_root? hroot, hroot]
  rfl

/-- Different roots that are removed are taken out, and each is told to go. -/
theorem WellFormed.removeEach_eq_takeOut (h : s.WellFormed) (hnodup : (gone.map (·.1)).Nodup)
    (hgone : ∀ e ∈ gone, s.root? e.1 = some e.2) :
    s.removeEach (gone.map (·.1)) =
      (s.takeOut (gone.map (·.1)) (gone.map fun e => .removed e.1 e.2.flags),
        gone.map (·.1)) := by
  induction gone generalizing s with
  | nil => rw [List.map_nil, List.map_nil, takeOut_nil]; rfl
  | cons e gone ih =>
    obtain ⟨hroot, hgone⟩ := List.forall_mem_cons.1 hgone
    have hlater := root?_takeOut_of_nodup hnodup hgone [.removed e.1 e.2.flags]
    have hrest := ih (h.takeOut [e.1] [.removed e.1 e.2.flags]) (List.nodup_cons.1 hnodup).2 hlater
    simp only [List.map_cons, removeEach, h.remove_eq_takeOut hroot, hrest, takeOut_takeOut,
      List.singleton_append, Option.map_some, Option.toList_some]

/-! ### Roots that go with changed flags -/

section

variable {f : Flags → Flags}

/-- What is told about a root that goes with changed flags: that its flags have changed, if they
have, and that it was removed. -/
def farewell (f : Flags → Flags) (place : Location) (root : Root) : List RootEvent :=
  (if root.flags = f root.flags then [] else [.updated place]) ++
    [.removed place (f root.flags)]

variable (hf : ∀ flags : Flags, (f flags).isRecursive = flags.isRecursive)

include hf

/-- A root that goes with other flags of the same extent is taken out of the set, and nothing else
is. -/
theorem WellFormed.removeAs_eq_takeOut (h : s.WellFormed) (hroot : s.root? place = some root) :
    s.removeAs f place = s.takeOut [place] (farewell f place root) := by
  have hplace := h.canonical_of_root? hroot
  -- A root that is no more recursive than before absorbs nothing.
  have hsame : ((f root.flags).isRecursive && !root.isRecursive) = false := by
    rw [hf]
    exact Bool.and_not_self _
  simp only [removeAs, hroot, RootSet.add, hplace, hsame, Bool.false_eq_true, ↓reduceIte, farewell]
  by_cases hflags : root.flags = f root.flags
  · rw [if_pos hflags, if_pos hflags, h.remove_eq_takeOut hroot, ← hflags]
    rfl
  · have hput : (s.put place { root with flags := f root.flags } (.updated place)).root? place =
        some { root with flags := f root.flags } := by rw [root?_put, if_pos rfl]
    simp only [if_neg hflags, RootSet.remove, hplace, hput]
    simp only [put, OrderedMap.erase_insert, List.append_assoc]
    rfl

/-- Different roots that go one after the other with other flags of the same extent are taken out
of the set, and each is told to go. -/
theorem WellFormed.foldl_removeAs_eq_takeOut (h : s.WellFormed) (hnodup : (gone.map (·.1)).Nodup)
    (hgone : ∀ e ∈ gone, s.root? e.1 = some e.2) :
    (gone.map (·.1)).foldl (fun s place => s.removeAs f place) s =
      s.takeOut (gone.map (·.1)) (gone.flatMap fun e => farewell f e.1 e.2) := by
  induction gone generalizing s with
  | nil => exact (takeOut_nil s).symm
  | cons e gone ih =>
    obtain ⟨hroot, hgone⟩ := List.forall_mem_cons.1 hgone
    have hlater := root?_takeOut_of_nodup hnodup hgone (farewell f e.1 e.2)
    have hrest := ih (h.takeOut [e.1] (farewell f e.1 e.2)) (List.nodup_cons.1 hnodup).2 hlater
    rw [List.map_cons, List.foldl_cons, h.removeAs_eq_takeOut hf hroot, hrest, takeOut_takeOut]
    rfl

end

end RootSet

end IndexControl
