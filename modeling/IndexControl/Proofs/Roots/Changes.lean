import IndexControl.Proofs.OrderedMap
import IndexControl.Proofs.Path.Nesting
import IndexControl.Proofs.Path.Spelling
import IndexControl.Roots.Run
import Mathlib.Logic.Relation

/-!
# What changes the set of roots

Each change of the set of roots is described by the root it leaves at every place. The places of
roots are canonical, and none lies below a recursive root: adding refuses what would lie below
one, and a root that becomes recursive absorbs what lies below it.

## Main definitions

* `RootSet.flagsAt?`: the flags of the root at a place.
* `RootSet.WellFormed`: canonical places, none below a recursive root.
* `RootSet.Change`, `RootSet.Changes`: what is done to a set of roots.

## Main results

* `RootSet.below_eq_filter`: the scan for the roots below a place finds all of them.
* `RootSet.root?_add`, `RootSet.root?_remove`: what the two changes leave at every place.
* `RootSet.Changes.wellFormed`: new roots at spelled places keep a set well-formed.
* `RootSet.run_places_apart`: what holds of the places of roots after every run.
-/

namespace IndexControl

namespace OrderedMap

variable {κ α : Type} [Ord κ] [Std.LawfulEqOrd κ] [DecidableEq κ]

theorem find?_foldl_erase (m : OrderedMap κ α) (keys : List κ) (k : κ) :
    (keys.foldl erase m).find? k = if k ∈ keys then none else m.find? k := by
  induction keys generalizing m with
  | nil => simp
  | cons key keys ih =>
    rw [List.foldl_cons, ih, find?_erase]
    by_cases hk : k = key <;> by_cases hkeys : k ∈ keys <;> simp [hk, hkeys]

end OrderedMap

namespace RootSet

variable {P : Location → Prop} {s s' : RootSet} {place q : Location} {flags : Flags}

/-! ### Looking at one place -/

/-- The flags of the root at a place. -/
def flagsAt? (s : RootSet) (place : Location) : Option Flags := (s.root? place).map (·.flags)

theorem isRoot_iff : s.isRoot q = true ↔ ∃ root, s.root? q = some root :=
  OrderedMap.contains_iff

theorem mem_places_iff : q ∈ s.places ↔ ∃ root, s.root? q = some root :=
  OrderedMap.mem_keys_iff

theorem isRoot_iff_flagsAt? : s.isRoot q = true ↔ ∃ f, s.flagsAt? q = some f := by
  simp [isRoot_iff, flagsAt?]

theorem isRecursiveRoot_eq_any (s : RootSet) (q : Location) :
    s.isRecursiveRoot q = (s.flagsAt? q).any (·.isRecursive) := by
  rw [isRecursiveRoot, flagsAt?, Option.any_map]
  rfl

theorem isRecursiveRoot_iff :
    s.isRecursiveRoot q = true ↔ ∃ f, s.flagsAt? q = some f ∧ f.isRecursive = true := by
  rw [isRecursiveRoot_eq_any, Option.any_eq_true]

theorem isRoot_of_isRecursiveRoot (h : s.isRecursiveRoot q = true) : s.isRoot q = true := by
  obtain ⟨f, hf, -⟩ := isRecursiveRoot_iff.1 h
  exact isRoot_iff_flagsAt?.2 ⟨f, hf⟩

/-- The scan for the roots below a place finds all of them. -/
theorem below_eq_filter (s : RootSet) (place : Location) :
    s.below place = s.places.filter (·.isBelow place) := by
  have hsorted : s.places.Pairwise fun a b => compare a b = .lt :=
    OrderedMap.pairwise_keys s.roots
  rw [below, Location.takeWhile_startsWith hsorted, List.filter_filter]
  refine List.filter_congr fun q _ => ?_
  simp only [Location.isBelow]
  cases q.startsWith place <;> simp

theorem mem_below_iff : q ∈ s.below place ↔ s.isRoot q = true ∧ q.isBelow place = true := by
  rw [below_eq_filter, List.mem_filter, mem_places_iff, isRoot_iff]

/-! ### Parts of changes -/

theorem root?_absorb (s : RootSet) (place q : Location) :
    (s.absorb place).root? q = if q.isBelow place then none else s.root? q := by
  rw [root?, absorb, OrderedMap.find?_foldl_erase]
  by_cases hbelow : q.isBelow place = true
  · rw [if_pos hbelow]
    by_cases hroot : s.isRoot q = true
    · rw [if_pos (mem_below_iff.2 ⟨hroot, hbelow⟩)]
    · rw [if_neg fun hmem => hroot (mem_below_iff.1 hmem).1]
      simpa [isRoot, OrderedMap.contains] using hroot
  · rw [if_neg fun hmem => hbelow (mem_below_iff.1 hmem).2, if_neg hbelow]
    rfl

theorem root?_put (s : RootSet) (place : Location) (root : Root) (event : RootEvent)
    (q : Location) :
    (s.put place root event).root? q = if q = place then some root else s.root? q :=
  OrderedMap.find?_insert s.roots place q root

/-! ### Well-formed sets -/

/-- The places of roots are canonical, and none lies below a recursive root. -/
structure WellFormed (s : RootSet) : Prop where
  canonical : ∀ q, s.isRoot q = true → q.IsCanonical
  outermost : ∀ q above, s.isRoot q = true → s.isRecursiveRoot above = true →
    q.isBelow above = false

theorem wellFormed_empty (filters : Filters) : (empty filters).WellFormed where
  canonical _ h := by simp [isRoot, empty, OrderedMap.contains] at h
  outermost _ _ h := by simp [isRoot, empty, OrderedMap.contains] at h

/-- Fewer roots with the flags they had stay well-formed. -/
theorem WellFormed.of_flagsAt?_imp (h : s.WellFormed)
    (hsub : ∀ q f, s'.flagsAt? q = some f → s.flagsAt? q = some f) : s'.WellFormed := by
  have hroot {q} (hq : s'.isRoot q = true) : s.isRoot q = true := by
    obtain ⟨f, hf⟩ := isRoot_iff_flagsAt?.1 hq
    exact isRoot_iff_flagsAt?.2 ⟨f, hsub q f hf⟩
  refine ⟨fun q hq => h.canonical q (hroot hq), fun q above hq habove => ?_⟩
  obtain ⟨f, hf, hrec⟩ := isRecursiveRoot_iff.1 habove
  exact h.outermost q above (hroot hq) (isRecursiveRoot_iff.2 ⟨f, hsub above f hf, hrec⟩)

/-- In a well-formed set a walk up from a place finds a recursive root unless there is none. -/
theorem WellFormed.recursiveAbove?_isSome_iff (h : s.WellFormed) :
    (s.recursiveAbove? q).isSome = true ↔
      ∃ above, s.isRecursiveRoot above = true ∧ q.isBelow above = true := by
  rw [recursiveAbove?, List.find?_isSome]
  constructor
  · rintro ⟨above, hmem, hrec⟩
    exact ⟨above, hrec, Location.isBelow_of_mem_ancestors hmem⟩
  · rintro ⟨above, hrec, hbelow⟩
    have hne := (h.canonical above (isRoot_of_isRecursiveRoot hrec)).ne_nil
    exact ⟨above, Location.mem_ancestors_of_isBelow hbelow hne, hrec⟩

/-- Nothing is a root below a recursive root. -/
theorem WellFormed.root?_eq_none (h : s.WellFormed) {above : Location}
    (habove : s.isRecursiveRoot above = true) (hbelow : q.isBelow above = true) :
    s.root? q = none := by
  by_contra hne
  obtain ⟨root, hroot⟩ := Option.ne_none_iff_exists'.1 hne
  rw [h.outermost q above (isRoot_iff.2 ⟨root, hroot⟩) habove] at hbelow
  exact Bool.noConfusion hbelow

theorem WellFormed.flagsAt?_eq_none (h : s.WellFormed) {above : Location}
    (habove : s.isRecursiveRoot above = true) (hbelow : q.isBelow above = true) :
    s.flagsAt? q = none := by
  rw [flagsAt?, h.root?_eq_none habove hbelow, Option.map_none]

/-- No recursive root lies above a root. -/
theorem WellFormed.recursiveAbove?_eq_none (h : s.WellFormed) {root : Root}
    (hq : s.root? q = some root) : s.recursiveAbove? q = none := by
  by_contra hne
  obtain ⟨above, hrec, hbelow⟩ := h.recursiveAbove?_isSome_iff.1 (Option.isSome_iff_ne_none.2 hne)
  simp [h.root?_eq_none hrec hbelow] at hq

/-! ### Adding -/

/-- What adding leaves at each place of a well-formed set: nothing new below a recursive root,
and otherwise the root with the new flags, with nothing below it if it is recursive. -/
theorem root?_add (h : s.WellFormed) (hplace : place.canonical = place) (flags : Flags)
    (q : Location) :
    (s.add place flags).1.root? q =
      if (s.recursiveAbove? place).isSome then s.root? q
      else if q = place then some ⟨flags, (s.root? place).bind (·.volume)⟩
      else if flags.isRecursive && q.isBelow place then none
      else s.root? q := by
  rw [add, hplace]
  cases hroot : s.root? place with
  | some root =>
    have hrec (hroot' : root.isRecursive = true) : s.isRecursiveRoot place = true := by
      simpa [isRecursiveRoot, hroot] using hroot'
    simp only [h.recursiveAbove?_eq_none hroot, Option.isSome_none, Bool.false_eq_true,
      ↓reduceIte, Option.bind_some]
    by_cases hflags : root.flags = flags
    · rw [if_pos hflags]
      by_cases hq : q = place
      · subst hq
        simp [hroot, ← hflags]
      · rw [if_neg hq]
        split
        · next hbelow =>
          rw [Bool.and_eq_true] at hbelow
          have hold : root.isRecursive = true := by rw [Root.isRecursive, hflags, hbelow.1]
          exact h.root?_eq_none (hrec hold) hbelow.2
        · rfl
    · rw [if_neg hflags]
      by_cases hq : q = place
      · subst hq
        split <;> simp [root?_absorb, root?_put]
      · have hkept (hold : root.isRecursive = true) (hbelow : q.isBelow place = true) :=
          h.root?_eq_none (hrec hold) hbelow
        cases hnew : flags.isRecursive <;> cases hold : root.isRecursive <;>
          cases hbelow : q.isBelow place <;> simp_all [root?_absorb, root?_put]
  | none =>
    cases habove : s.recursiveAbove? place with
    | some above => simp
    | none =>
      simp only [Option.isSome_none, Bool.false_eq_true, ↓reduceIte, Option.bind_none]
      cases hnew : flags.isRecursive with
      | false => simp [root?_put]
      | true =>
        by_cases hq : q = place
        · subst hq
          simp [root?_absorb, root?_put]
        · simp [root?_absorb, root?_put, hq]

theorem flagsAt?_add (h : s.WellFormed) (hplace : place.canonical = place) (flags : Flags)
    (q : Location) :
    (s.add place flags).1.flagsAt? q =
      if (s.recursiveAbove? place).isSome then s.flagsAt? q
      else if q = place then some flags
      else if flags.isRecursive && q.isBelow place then none
      else s.flagsAt? q := by
  simp only [flagsAt?, root?_add h hplace]
  split_ifs <;> rfl

theorem add_canonical (s : RootSet) (place : Location) (flags : Flags) :
    s.add place.canonical flags = s.add place flags := by
  rw [add, Location.canonical_canonical]
  rfl

theorem WellFormed.add (h : s.WellFormed) (hplace : place.IsSpelled) (flags : Flags) :
    (s.add place flags).1.WellFormed := by
  rw [← add_canonical]
  have hcanonical := Location.isCanonical_canonical hplace
  generalize place.canonical = c at hcanonical
  have hflags := flagsAt?_add h hcanonical.2 flags
  by_cases hcovered : (s.recursiveAbove? c).isSome = true
  · exact h.of_flagsAt?_imp fun q f hf => by simpa [hflags, hcovered] using hf
  -- A root of the new set is the one just added, or an old one that was not absorbed.
  have hroot {q : Location} {f : Flags} (hf : (s.add c flags).1.flagsAt? q = some f) :
      q = c ∧ f = flags ∨ q ≠ c ∧ s.flagsAt? q = some f ∧
        (flags.isRecursive = true → q.isBelow c = false) := by
    rw [hflags, if_neg hcovered] at hf
    split_ifs at hf with hq hbelow
    · exact .inl ⟨hq, (Option.some.inj hf).symm⟩
    · exact .inr ⟨hq, hf, fun hrec => by simpa [hrec] using hbelow⟩
  refine ⟨fun q hq => ?_, fun q above hq habove => ?_⟩
  · obtain ⟨f, hf⟩ := isRoot_iff_flagsAt?.1 hq
    rcases hroot hf with ⟨rfl, -⟩ | ⟨-, hold, -⟩
    · exact hcanonical
    · exact h.canonical q (isRoot_iff_flagsAt?.2 ⟨f, hold⟩)
  · obtain ⟨f, hf⟩ := isRoot_iff_flagsAt?.1 hq
    obtain ⟨g, hg, hrec⟩ := isRecursiveRoot_iff.1 habove
    rcases hroot hg with ⟨rfl, rfl⟩ | ⟨-, hgold, -⟩
    · rcases hroot hf with ⟨rfl, -⟩ | ⟨-, -, hout⟩
      · exact Location.isBelow_self q
      · exact hout hrec
    · have hrecursive : s.isRecursiveRoot above = true := isRecursiveRoot_iff.2 ⟨g, hgold, hrec⟩
      rcases hroot hf with ⟨rfl, -⟩ | ⟨-, hfold, -⟩
      · rw [Bool.eq_false_iff]
        exact fun hbelow =>
          hcovered (h.recursiveAbove?_isSome_iff.2 ⟨above, hrecursive, hbelow⟩)
      · exact h.outermost q above (isRoot_iff_flagsAt?.2 ⟨f, hfold⟩) hrecursive

/-! ### Removing and recording -/

theorem root?_remove (s : RootSet) (place q : Location) :
    (s.remove place).1.root? q = if q = place.canonical then none else s.root? q := by
  rw [remove]
  cases hroot : s.root? place.canonical with
  | some root => exact OrderedMap.find?_erase s.roots place.canonical q
  | none =>
    split_ifs with hq
    · rw [hq, hroot]
    · rfl

theorem flagsAt?_remove (s : RootSet) (place q : Location) :
    (s.remove place).1.flagsAt? q = if q = place.canonical then none else s.flagsAt? q := by
  rw [flagsAt?, root?_remove]
  split <;> rfl

theorem WellFormed.remove (h : s.WellFormed) (place : Location) :
    (s.remove place).1.WellFormed := by
  refine h.of_flagsAt?_imp fun q f hf => ?_
  rw [flagsAt?_remove] at hf
  split at hf
  · contradiction
  · exact hf

/-- Recording a volume keeps the flags of every root. -/
theorem flagsAt?_recordVolume (s : RootSet) (place : Location) (volume : Option String)
    (q : Location) : (s.recordVolume place volume).1.flagsAt? q = s.flagsAt? q := by
  rw [recordVolume]
  cases hroot : s.root? place with
  | none => rfl
  | some root =>
    cases hvolume : root.volume with
    | some recorded => simp only [hvolume]
    | none =>
      simp only [hvolume, flagsAt?, root?, OrderedMap.find?_insert]
      split_ifs with hq
      · rw [hq, ← root?, hroot]
        rfl
      · rfl

/-! ### What is done to a set of roots -/

/-- One thing that is done to a set of roots. A place that becomes a root satisfies `P`. -/
inductive Change (P : Location → Prop) (s : RootSet) : RootSet → Prop
  | add {place : Location} (flags : Flags) (h : P place) : Change P s (s.add place flags).1
  | restyle {place : Location} (flags : Flags) (h : s.isRoot place = true) :
    Change P s (s.add place flags).1
  | remove (place : Location) : Change P s (s.remove place).1
  | notify (file : Location) (recursive : Bool) : Change P s (s.notify file recursive).1
  | updateAll : Change P s s.updateAll
  | recordVolume (place : Location) (volume : Option String) :
    Change P s (s.recordVolume place volume).1
  | setFilters (filters : Filters) : Change P s (s.setFilters filters)

/-- Several things done in order. -/
abbrev Changes (P : Location → Prop) : RootSet → RootSet → Prop :=
  Relation.ReflTransGen (Change P)

/-- What is known of the places that become roots may be weakened. -/
theorem Changes.mono {Q : Location → Prop} (hPQ : ∀ place, P place → Q place) (h : Changes P s s') :
    Changes Q s s' := by
  refine Relation.ReflTransGen.mono (fun s s' hchange => ?_) _ _ h
  cases hchange with
  | add flags hplace => exact .add flags (hPQ _ hplace)
  | restyle flags hroot => exact .restyle flags hroot
  | remove place => exact .remove place
  | notify file recursive => exact .notify file recursive
  | updateAll => exact .updateAll
  | recordVolume place volume => exact .recordVolume place volume
  | setFilters filters => exact .setFilters filters

theorem Change.wellFormed (h : Change Location.IsSpelled s s') (hs : s.WellFormed) :
    s'.WellFormed := by
  cases h with
  | add flags hplace => exact hs.add hplace flags
  | restyle flags hroot => exact hs.add (hs.canonical _ hroot).1 flags
  | remove place => exact hs.remove place
  | notify file recursive => exact hs.of_flagsAt?_imp fun _ _ hf => hf
  | updateAll => exact hs.of_flagsAt?_imp fun _ _ hf => hf
  | recordVolume place volume =>
    refine hs.of_flagsAt?_imp fun q f hf => ?_
    rwa [flagsAt?_recordVolume] at hf
  | setFilters filters => exact hs.of_flagsAt?_imp fun _ _ hf => hf

/-- New roots at spelled places keep a set of roots well-formed. -/
theorem Changes.wellFormed (h : Changes Location.IsSpelled s s') (hs : s.WellFormed) :
    s'.WellFormed := by
  induction h with
  | refl => exact hs
  | tail _ hchange ih => exact hchange.wellFormed ih

/-! ### Runs -/

/-- An operation is one change of the set, but for the one that only takes what is queued. -/
theorem change_apply (s : RootSet) (op : RootOp) :
    Change Location.IsSpelled s (s.apply op) ∨ ∀ q, (s.apply op).root? q = s.root? q := by
  cases op with
  | add path flags => exact .inl (.add flags path.location_isSpelled)
  | remove path => exact .inl (.remove path.location)
  | notify path recursive => exact .inl (.notify path.location recursive)
  | updateAll => exact .inl .updateAll
  | recordVolume path volume => exact .inl (.recordVolume path.location volume)
  | setFilters filters => exact .inl (.setFilters filters)
  | drain => exact .inr fun _ => rfl

/-- Everything that is done to a well-formed set keeps it so. -/
theorem WellFormed.apply (h : s.WellFormed) (op : RootOp) : (s.apply op).WellFormed := by
  rcases s.change_apply op with hchange | hsame
  · exact hchange.wellFormed h
  · refine h.of_flagsAt?_imp fun q f hf => ?_
    rwa [flagsAt?, hsame] at hf

theorem WellFormed.run (h : s.WellFormed) (ops : List RootOp) : (s.run ops).WellFormed := by
  induction ops generalizing s with
  | nil => exact h
  | cons op ops ih => exact ih (h.apply op)

end RootSet

end IndexControl
