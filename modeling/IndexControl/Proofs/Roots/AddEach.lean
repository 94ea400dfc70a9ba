import IndexControl.Proofs.Roots.Queue

/-!
# Adding several roots in order

What several additions leave depends on their order only where a root that is recursive at first
becomes plain on the way: a place below it is refused before that and accepted afterwards.

## Main definitions

* `RootSet.addEach`: add roots at some places in order.
* `RootSet.Accepts`: whether a place becomes a root when plain roots are added in order.

## Main results

* `RootSet.flagsAt?_addEach_plain`: what plain roots leave.
* `RootSet.flagsAt?_addEach_outermost`, `RootSet.flagsAt?_addEach_recursive`: what recursive roots
  leave.
* `RootSet.ended_addEach`: which roots come to their end.
-/

namespace IndexControl

/-! ### The order of two members of a list -/

theorem pair_sublist_cons_iff {α : Type} {a b c : α} {l : List α} :
    [a, b].Sublist (c :: l) ↔ (a = c ∧ b ∈ l) ∨ [a, b].Sublist l := by
  rw [List.sublist_cons_iff, or_comm]
  simp

theorem not_pair_sublist_of_nodup {α : Type} {a b : α} {l : List α} (h : l.Nodup)
    (hab : [a, b].Sublist l) : ¬[b, a].Sublist l := by
  induction l with
  | nil => exact fun hba => by simp at hba
  | cons c l ih =>
    obtain ⟨hc, hl⟩ := List.nodup_cons.1 h
    have hne {x y : α} (hxy : [x, y].Sublist l) : x ≠ c ∧ y ≠ c :=
      ⟨fun heq => hc (heq ▸ hxy.subset (by simp)), fun heq => hc (heq ▸ hxy.subset (by simp))⟩
    intro hba
    rcases pair_sublist_cons_iff.1 hab with ⟨ha, hb⟩ | hab
    · rcases pair_sublist_cons_iff.1 hba with ⟨hb', -⟩ | hba
      · exact hc (hb' ▸ hb)
      · exact (hne hba).2 ha
    · rcases pair_sublist_cons_iff.1 hba with ⟨hb', -⟩ | hba
      · exact (hne hab).2 hb'
      · exact ih hl hab hba

theorem pair_sublist_or {α : Type} {a b : α} {l : List α} (ha : a ∈ l) (hb : b ∈ l)
    (hne : a ≠ b) : [a, b].Sublist l ∨ [b, a].Sublist l := by
  induction l with
  | nil => simp at ha
  | cons c l ih =>
    simp only [pair_sublist_cons_iff]
    rcases List.mem_cons.1 ha with hac | ha <;> rcases List.mem_cons.1 hb with hbc | hb
    · exact absurd (hac.trans hbc.symm) hne
    · exact .inl (.inl ⟨hac, hb⟩)
    · exact .inr (.inl ⟨hbc, ha⟩)
    · exact (ih ha hb).imp .inr .inr

namespace RootSet

variable {s : RootSet} {flags : Location → Flags} {places : List Location} {place q : Location}

/-- Add roots at some places in order, each with its flags. -/
def addEach (s : RootSet) (flags : Location → Flags) (places : List Location) : RootSet :=
  places.foldl (fun s place => (s.add place (flags place)).1) s

theorem addEach_cons (s : RootSet) (flags : Location → Flags) (place : Location)
    (places : List Location) :
    s.addEach flags (place :: places) =
      (s.add place (flags place)).1.addEach flags places := rfl

theorem WellFormed.addEach (h : s.WellFormed) (hplaces : ∀ place ∈ places, place.IsCanonical) :
    (s.addEach flags places).WellFormed := by
  induction places generalizing s with
  | nil => exact h
  | cons place places ih =>
    obtain ⟨hplace, hplaces⟩ := List.forall_mem_cons.1 hplaces
    exact ih (h.add hplace.1 (flags place)) hplaces

/-! ### Plain roots -/

/-- Adding a plain root changes nothing but the flags at its place, and nothing at all where the
place is below a recursive root. -/
theorem flagsAt?_add_plain (h : s.WellFormed) (hplace : place.IsCanonical)
    (hplain : (flags place).isRecursive = false) (q : Location) :
    (s.add place (flags place)).1.flagsAt? q =
      if (s.recursiveAbove? place).isNone ∧ q = place then some (flags place)
      else s.flagsAt? q := by
  rw [flagsAt?_add h hplace.2, hplain]
  cases s.recursiveAbove? place <;> by_cases hq : q = place <;> simp [hq]

theorem isRecursiveRoot_add_plain (h : s.WellFormed) (hplace : place.IsCanonical)
    (hplain : (flags place).isRecursive = false) :
    (s.add place (flags place)).1.isRecursiveRoot q = true ↔
      q ≠ place ∧ s.isRecursiveRoot q = true := by
  rw [isRecursiveRoot_eq_any, flagsAt?_add_plain h hplace hplain, isRecursiveRoot_eq_any]
  by_cases hq : q = place
  · subst hq
    cases habove : s.recursiveAbove? q with
    | none => simp [hplain]
    | some above =>
      obtain ⟨above', hrec, hbelow⟩ :=
        h.recursiveAbove?_isSome_iff.1 (Option.isSome_of_eq_some habove)
      simp [h.flagsAt?_eq_none hrec hbelow]
  · simp [hq]

/-- Whether plain roots added in order make a place a root: each recursive root above it comes
before it, and is plain by then. -/
def Accepts (s : RootSet) (places : List Location) (place : Location) : Prop :=
  ∀ above, s.isRecursiveRoot above = true → place.isBelow above = true →
    [above, place].Sublist places

/-- The first place is accepted where no recursive root lies above it. -/
theorem WellFormed.accepts_cons_self_iff (h : s.WellFormed) (hnew : place ∉ places) :
    s.Accepts (place :: places) place ↔ (s.recursiveAbove? place).isNone = true := by
  rw [← Option.not_isSome, Bool.not_eq_true', ← Bool.not_eq_true, h.recursiveAbove?_isSome_iff]
  constructor
  · rintro haccepts ⟨above, hrec, hbelow⟩
    rcases pair_sublist_cons_iff.1 (haccepts above hrec hbelow) with ⟨rfl, -⟩ | hsub
    · simp at hbelow
    · exact hnew (hsub.subset (by simp))
  · exact fun hnone above hrec hbelow => absurd ⟨above, hrec, hbelow⟩ hnone

/-- Adding the first place leaves it to the other places whether they accept another one. -/
theorem WellFormed.accepts_add_iff (h : s.WellFormed) (hplace : place.IsCanonical)
    (hplain : (flags place).isRecursive = false) (hq : q ∈ places) :
    (s.add place (flags place)).1.Accepts places q ↔ s.Accepts (place :: places) q := by
  have hrecursive {above : Location} := isRecursiveRoot_add_plain (q := above) h hplace hplain
  constructor
  · intro haccepts above hrec hbelow
    rw [pair_sublist_cons_iff]
    by_cases habove : above = place
    · exact .inl ⟨habove, hq⟩
    · exact .inr (haccepts above (hrecursive.2 ⟨habove, hrec⟩) hbelow)
  · intro haccepts above hrec hbelow
    obtain ⟨habove, hrec⟩ := hrecursive.1 hrec
    rcases pair_sublist_cons_iff.1 (haccepts above hrec hbelow) with ⟨heq, -⟩ | hsub
    · exact absurd heq habove
    · exact hsub

open scoped Classical in
/-- Adding plain roots in order leaves a root at each of their places that is accepted. -/
theorem flagsAt?_addEach_plain (h : s.WellFormed) (hplaces : ∀ place ∈ places, place.IsCanonical)
    (hnodup : places.Nodup) (hplain : ∀ place, (flags place).isRecursive = false)
    (q : Location) :
    (s.addEach flags places).flagsAt? q =
      if q ∈ places then if s.Accepts places q then some (flags q) else none
      else s.flagsAt? q := by
  induction places generalizing s with
  | nil => rfl
  | cons place places ih =>
    obtain ⟨hplace, hplaces⟩ := List.forall_mem_cons.1 hplaces
    obtain ⟨hnew, hnodup⟩ := List.nodup_cons.1 hnodup
    rw [addEach_cons, ih (h.add hplace.1 (flags place)) hplaces hnodup,
      flagsAt?_add_plain h hplace (hplain place)]
    by_cases hq : q = place
    · subst hq
      simp only [hnew, List.mem_cons_self, h.accepts_cons_self_iff hnew, and_true, ↓reduceIte]
      split
      · rfl
      · next hsome =>
        rw [← Option.not_isSome, Bool.not_eq_true', Bool.not_eq_false,
          h.recursiveAbove?_isSome_iff] at hsome
        obtain ⟨above, hrec, hbelow⟩ := hsome
        exact h.flagsAt?_eq_none hrec hbelow
    · by_cases hq' : q ∈ places
      · simp [hq', h.accepts_add_iff hplace (hplain place) hq']
      · simp [hq, hq']

/-! ### Recursive roots -/

/-- Where a recursive root lies above, an addition is refused and changes nothing. -/
theorem WellFormed.add_of_recursiveAbove? (h : s.WellFormed) (hplace : place.canonical = place)
    {above : Location} (habove : s.recursiveAbove? place = some above) (flags : Flags) :
    s.add place flags = (s, .covered above) := by
  have hroot : s.root? place = none := by
    by_contra hne
    obtain ⟨root, hroot⟩ := Option.ne_none_iff_exists'.1 hne
    rw [h.recursiveAbove?_eq_none hroot] at habove
    contradiction
  rw [RootSet.add, hplace]
  simp only [hroot, habove]

theorem WellFormed.add_covered (h : s.WellFormed) (hplace : place.IsCanonical)
    (hcovered : (s.recursiveAbove? place).isSome = true) (flags : Flags) :
    (s.add place flags).1 = s := by
  obtain ⟨above, habove⟩ := Option.isSome_iff_exists.1 hcovered
  rw [h.add_of_recursiveAbove? hplace.2 habove]

/-- Adding a recursive root where no recursive root lies above puts it there and folds what lies
below into it. -/
theorem flagsAt?_add_recursive (h : s.WellFormed) (hplace : place.IsCanonical)
    (hrec : (flags place).isRecursive = true)
    (hfree : (s.recursiveAbove? place).isNone = true) (q : Location) :
    (s.add place (flags place)).1.flagsAt? q =
      if q = place then some (flags place)
      else if q.isBelow place then none
      else s.flagsAt? q := by
  have hnone : (s.recursiveAbove? place).isSome = false := by
    rw [Option.isNone_iff_eq_none.1 hfree]
    rfl
  rw [flagsAt?_add h hplace.2, hnone, hrec]
  rfl

/-- Adding a recursive root does not change whether a recursive root lies above a place that
neither lies below the new one nor above it. -/
theorem isNone_recursiveAbove?_add (h : s.WellFormed) (hplace : place.IsCanonical)
    (hrec : (flags place).isRecursive = true)
    (hfree : (s.recursiveAbove? place).isNone = true) (hbelow : q.isBelow place = false) :
    ((s.add place (flags place)).1.recursiveAbove? q).isNone = (s.recursiveAbove? q).isNone := by
  have hadd := flagsAt?_add_recursive h hplace hrec hfree
  rw [← Option.not_isSome, ← Option.not_isSome]
  congr 1
  rw [Bool.eq_iff_iff, (h.add hplace.1 (flags place)).recursiveAbove?_isSome_iff,
    h.recursiveAbove?_isSome_iff]
  constructor
  · rintro ⟨above, habove, hq⟩
    rw [isRecursiveRoot_eq_any, hadd] at habove
    split_ifs at habove with heq hout
    · rw [heq, hbelow] at hq
      exact Bool.noConfusion hq
    · simp at habove
    · exact ⟨above, by rwa [isRecursiveRoot_eq_any], hq⟩
  · rintro ⟨above, habove, hq⟩
    have hne : above ≠ place := by
      rintro rfl
      rw [hbelow] at hq
      exact Bool.noConfusion hq
    have hout : ¬above.isBelow place = true := fun habove' => by
      rw [Location.isBelow_trans hq habove'] at hbelow
      exact Bool.noConfusion hbelow
    refine ⟨above, ?_, hq⟩
    rw [isRecursiveRoot_eq_any, hadd, if_neg hne, if_neg hout, ← isRecursiveRoot_eq_any]
    exact habove

/-- Adding recursive roots, none of which lies below another one, puts there all that lie below
no recursive root, and folds what lies below into them. -/
theorem flagsAt?_addEach_outermost (h : s.WellFormed)
    (hplaces : ∀ place ∈ places, place.IsCanonical)
    (hrec : ∀ place, (flags place).isRecursive = true)
    (houtermost : ∀ place ∈ places, ∀ above ∈ places, place.isBelow above = false)
    (q : Location) :
    (s.addEach flags places).flagsAt? q =
      if q ∈ places ∧ (s.recursiveAbove? q).isNone then some (flags q)
      else if places.any fun place => q.isBelow place && (s.recursiveAbove? place).isNone then none
      else s.flagsAt? q := by
  induction places generalizing s with
  | nil => simp [addEach]
  | cons place places ih =>
    obtain ⟨hplace, hplaces⟩ := List.forall_mem_cons.1 hplaces
    have hout {p r : Location} (hp : p ∈ place :: places) (hr : r ∈ place :: places) :
        p.isBelow r = false := houtermost p hp r hr
    have hrest : ∀ p ∈ places, ∀ r ∈ places, p.isBelow r = false := fun p hp r hr =>
      hout (List.mem_cons_of_mem place hp) (List.mem_cons_of_mem place hr)
    rw [addEach_cons]
    by_cases hcovered : (s.recursiveAbove? place).isSome = true
    · rw [h.add_covered hplace hcovered, ih h hplaces hrest]
      have hnone : (s.recursiveAbove? place).isNone = false := by simp [hcovered]
      by_cases hq : q = place
      · subst hq
        simp [hnone]
      · simp [hq, hnone]
    · have hfree : (s.recursiveAbove? place).isNone = true := by simpa using hcovered
      have hsame {r : Location} (hr : r ∈ places) :
          ((s.add place (flags place)).1.recursiveAbove? r).isNone =
            (s.recursiveAbove? r).isNone :=
        isNone_recursiveAbove?_add h hplace (hrec place) hfree
          (hout (List.mem_cons_of_mem place hr) List.mem_cons_self)
      have hany : (places.any fun r => q.isBelow r &&
          ((s.add place (flags place)).1.recursiveAbove? r).isNone) =
            places.any fun r => q.isBelow r && (s.recursiveAbove? r).isNone := by
        rw [Bool.eq_iff_iff, List.any_eq_true, List.any_eq_true]
        exact exists_congr fun r => and_congr_right fun hr => by rw [hsame hr]
      rw [ih (h.add hplace.1 (flags place)) hplaces hrest, hany,
        flagsAt?_add_recursive h hplace (hrec place) hfree]
      by_cases hq : q = place
      · subst hq
        have hnone : (places.any fun r => q.isBelow r && (s.recursiveAbove? r).isNone) = false :=
          List.any_eq_false.2 fun r hr => by
            simp [hout List.mem_cons_self (List.mem_cons_of_mem q hr)]
        simp [hnone, hfree]
      · by_cases hmem : q ∈ places
        · simp [hq, hmem, hsame hmem, hfree, hout (List.mem_cons_of_mem place hmem)]
        · by_cases hbelow : q.isBelow place = true <;> simp [hq, hmem, hbelow, hfree]

/-- Adding recursive roots, none of which lies below another one or below a recursive root that
is there, puts all of them there and folds what lies below into them. -/
theorem flagsAt?_addEach_recursive (h : s.WellFormed)
    (hplaces : ∀ place ∈ places, place.IsCanonical)
    (hrec : ∀ place, (flags place).isRecursive = true)
    (hfree : ∀ place ∈ places, ∀ above, s.isRecursiveRoot above = true →
      place.isBelow above = false)
    (houtermost : ∀ place ∈ places, ∀ above ∈ places, place.isBelow above = false)
    (q : Location) :
    (s.addEach flags places).flagsAt? q =
      if q ∈ places then some (flags q)
      else if places.any q.isBelow then none
      else s.flagsAt? q := by
  have hnone {place : Location} (hplace : place ∈ places) :
      (s.recursiveAbove? place).isNone = true := by
    rw [← Option.not_isSome, Bool.not_eq_true', ← Bool.not_eq_true, h.recursiveAbove?_isSome_iff]
    rintro ⟨above, habove, hbelow⟩
    rw [hfree place hplace above habove] at hbelow
    exact Bool.noConfusion hbelow
  have hany : (places.any fun place => q.isBelow place && (s.recursiveAbove? place).isNone) =
      places.any q.isBelow := by
    rw [Bool.eq_iff_iff, List.any_eq_true, List.any_eq_true]
    exact exists_congr fun place => and_congr_right fun hplace => by simp [hnone hplace]
  rw [flagsAt?_addEach_outermost h hplaces hrec houtermost, hany]
  by_cases hq : q ∈ places
  · simp [hq, hnone hq]
  · simp [hq]

/-! ### What is queued -/

/-- Adding roots ends only roots that lie below recursive ones among the added. -/
theorem ended_addEach {event : RootEvent} {x : Location}
    (hevent : event ∈ (s.addEach flags places).events) (hx : event.ended? = some x) :
    event ∈ s.events ∨ ∃ place ∈ places, (flags place).isRecursive = true ∧
      x.isBelow place.canonical = true := by
  induction places generalizing s with
  | nil => exact .inl hevent
  | cons place places ih =>
    rw [addEach_cons] at hevent
    rcases ih hevent with hevent | ⟨other, hother, hcover⟩
    · obtain ⟨events, hevents, hadded⟩ := s.events_add place (flags place)
      rw [hevents, List.mem_append] at hevent
      refine hevent.imp_right fun hevent => ⟨place, List.mem_cons_self, ?_⟩
      rcases hadded event hevent with rfl | rfl | ⟨root, rfl, hrec, hbelow⟩
      · contradiction
      · contradiction
      · exact ⟨hrec, Option.some.inj hx ▸ hbelow⟩
    · exact .inr ⟨other, List.mem_cons_of_mem place hother, hcover⟩

end RootSet

end IndexControl
