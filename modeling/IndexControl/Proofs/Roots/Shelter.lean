import IndexControl.Proofs.Roots.AddEach
import IndexControl.Proofs.Roots.Owner

/-!
# Places that stay owned

A recursive root that is added shelters what was owned before: a root that it folds in lies below
it, and so does everything that root has owned. A plain root that is added ends no other root, but
it takes the place of a recursive one and then leaves what lies below to nobody.

## Main definitions

* `RootSet.IsOwned`: a root answers for the place.
* `RootSet.Shelters`: what is owned stays owned, and so are the roots that are folded in.
* `RootSet.Retains`: no root goes, and none is folded in.

## Main results

* `RootSet.WellFormed.isOwned_addEach_iff`, `RootSet.WellFormed.isOwned_addEach_plain_iff`: just what
  is owned after additions.
* `RootSet.WellFormed.shelters_addEach`: recursive roots shelter what was owned.
* `RootSet.WellFormed.retains_addEach`: plain roots end no root.
* `RootSet.WellFormed.plain_of_not_isOwned`: how a place loses its owner where no root is removed.
-/

namespace IndexControl

namespace RootSet

variable {s s' s'' : RootSet} {place q : Location} {flags : Flags}

/-- A root answers for the place: the one there or a recursive one above. -/
def IsOwned (s : RootSet) (place : Location) : Prop := (s.owner? place).isSome = true

instance : Decidable (s.IsOwned place) := inferInstanceAs (Decidable (_ = true))

theorem WellFormed.isOwned_iff (h : s.WellFormed) :
    s.IsOwned q ↔ s.isRoot q = true ∨
      ∃ above, s.isRecursiveRoot above = true ∧ q.isBelow above = true := by
  rw [IsOwned, Option.isSome_iff_exists]
  constructor
  · rintro ⟨owner, howner⟩
    obtain ⟨hroot, rfl | ⟨hrec, hbelow⟩⟩ := h.owner?_eq_some_iff.1 howner
    · exact .inl hroot
    · exact .inr ⟨owner, hrec, hbelow⟩
  · rintro (hroot | ⟨above, hrec, hbelow⟩)
    · exact ⟨q, h.owner?_eq_some_iff.2 ⟨hroot, .inl rfl⟩⟩
    · exact ⟨above, h.owner?_eq_some_iff.2 ⟨isRoot_of_isRecursiveRoot hrec, .inr ⟨hrec, hbelow⟩⟩⟩

theorem isOwned_of_isRoot (h : s.isRoot q = true) : s.IsOwned q := by
  rw [IsOwned, owner?, if_pos h]
  rfl

/-- The owner of a place depends only on the flags of the roots. -/
theorem isOwned_congr (h : ∀ q, s'.flagsAt? q = s.flagsAt? q) : s'.IsOwned q ↔ s.IsOwned q := by
  have hrecursive : s'.isRecursiveRoot = s.isRecursiveRoot := funext fun q => by
    rw [isRecursiveRoot_eq_any, isRecursiveRoot_eq_any, h]
  have hroot : s'.isRoot q = s.isRoot q := by
    rw [Bool.eq_iff_iff, isRoot_iff_flagsAt?, isRoot_iff_flagsAt?, h]
  rw [IsOwned, IsOwned, owner?, owner?, recursiveAbove?, recursiveAbove?, hrecursive, hroot]

/-- Where some roots have gone, a place is owned by the others. -/
theorem WellFormed.isOwned_iff_of_gone {gone : Location → Bool} (h : s'.WellFormed)
    (hflags : ∀ x, s'.flagsAt? x = if gone x then none else s.flagsAt? x) :
    s'.IsOwned q ↔ ∃ root, gone root = false ∧ s.isRoot root = true ∧
      (q = root ∨ s.isRecursiveRoot root = true ∧ q.isBelow root = true) := by
  have hroot (x : Location) : s'.isRoot x = true ↔ gone x = false ∧ s.isRoot x = true := by
    rw [isRoot_iff_flagsAt?, hflags, isRoot_iff_flagsAt?]
    cases gone x <;> simp
  have hrecursive (x : Location) : s'.isRecursiveRoot x = true ↔
      gone x = false ∧ s.isRecursiveRoot x = true := by
    rw [isRecursiveRoot_eq_any, hflags, isRecursiveRoot_eq_any]
    cases gone x <;> simp
  simp only [h.isOwned_iff, hroot, hrecursive]
  constructor
  · rintro (⟨hstays, hq⟩ | ⟨above, ⟨hstays, hrec⟩, hbelow⟩)
    · exact ⟨q, hstays, hq, .inl rfl⟩
    · exact ⟨above, hstays, isRoot_of_isRecursiveRoot hrec, .inr ⟨hrec, hbelow⟩⟩
  · rintro ⟨root, hstays, hroot, rfl | ⟨hrec, hbelow⟩⟩
    · exact .inl ⟨hstays, hroot⟩
    · exact .inr ⟨root, ⟨hstays, hrec⟩, hbelow⟩

/-! ### Recursive roots -/

/-- What is owned stays owned, and a root that has been folded into another one in between is
owned too. -/
structure Shelters (s s' : RootSet) : Prop where
  owned : ∀ q, s.IsOwned q → s'.IsOwned q
  absorbed : ∀ root into, .absorbed root into ∈ s'.events →
    .absorbed root into ∈ s.events ∨ s'.IsOwned root

theorem Shelters.refl (s : RootSet) : s.Shelters s := ⟨fun _ => id, fun _ _ => .inl⟩

theorem Shelters.trans (h : s.Shelters s') (h' : s'.Shelters s'') : s.Shelters s'' where
  owned q hq := h'.owned q (h.owned q hq)
  absorbed root into hevent := (h'.absorbed root into hevent).elim
    (fun hevent => (h.absorbed root into hevent).imp_right (h'.owned root)) .inr

/-- After a recursive root has been added at a place, it and all below are owned, if need be by
the recursive root above for which the place was refused. -/
theorem WellFormed.isOwned_add (h : s.WellFormed) (hplace : place.IsCanonical)
    (hrec : flags.isRecursive = true) (hq : q.startsWith place = true) :
    (s.add place flags).1.IsOwned q := by
  have hadd := h.add hplace.1 flags
  rw [hadd.isOwned_iff]
  have hflags := flagsAt?_add h hplace.2 flags
  by_cases hcovered : (s.recursiveAbove? place).isSome = true
  · obtain ⟨above, habove, hbelow⟩ := h.recursiveAbove?_isSome_iff.1 hcovered
    refine .inr ⟨above, ?_, ?_⟩
    · rw [isRecursiveRoot_eq_any, hflags, if_pos hcovered, ← isRecursiveRoot_eq_any]
      exact habove
    · rcases Location.startsWith_iff_eq_or_isBelow.1 hq with rfl | hq
      · exact hbelow
      · exact Location.isBelow_trans hq hbelow
  · have hself : (s.add place flags).1.isRecursiveRoot place = true := by
      rw [isRecursiveRoot_eq_any, hflags, if_neg hcovered, if_pos rfl]
      exact hrec
    rcases Location.startsWith_iff_eq_or_isBelow.1 hq with rfl | hq
    · exact .inl (isRoot_of_isRecursiveRoot hself)
    · exact .inr ⟨place, hself, hq⟩

/-- Adding a recursive root leaves owned what was so, and shelters the roots that it folds in. -/
theorem WellFormed.shelters_add (h : s.WellFormed) (hplace : place.IsSpelled)
    (hrec : flags.isRecursive = true) : s.Shelters (s.add place flags).1 := by
  have hcanonical := Location.isCanonical_canonical hplace
  have hcanon := s.add_canonical place flags
  rw [← hcanon]
  generalize place.canonical = c at hcanonical
  have hbelow {q : Location} (hq : q.startsWith c = true) : (s.add c flags).1.IsOwned q :=
    h.isOwned_add hcanonical hrec hq
  have hkept {q : Location} (hq : ¬q.startsWith c = true) :
      (s.add c flags).1.flagsAt? q = s.flagsAt? q := by
    have hne : q ≠ c := fun heq => hq (heq ▸ Location.startsWith_self q)
    have hout : ¬q.isBelow c = true := fun hbelow => hq (Location.startsWith_of_isBelow hbelow)
    rw [flagsAt?_add h hcanonical.2, if_neg hne]
    simp [hout]
  refine ⟨fun q hq => ?_, fun root into hevent => ?_⟩
  · by_cases hstart : q.startsWith c = true
    · exact hbelow hstart
    · rw [(h.add hcanonical.1 flags).isOwned_iff]
      rcases h.isOwned_iff.1 hq with hroot | ⟨above, habove, hq⟩
      · rw [isRoot_iff_flagsAt?, hkept hstart, ← isRoot_iff_flagsAt?]
        exact .inl hroot
      · have hnot : ¬above.startsWith c = true := fun habove =>
          hstart (Location.startsWith_trans (Location.startsWith_of_isBelow hq) habove)
        refine .inr ⟨above, ?_, hq⟩
        rw [isRecursiveRoot_eq_any, hkept hnot, ← isRecursiveRoot_eq_any]
        exact habove
  · obtain ⟨events, hevents, hall⟩ := s.events_add c flags
    rw [hevents, List.mem_append] at hevent
    refine hevent.imp_right fun hevent => ?_
    rcases hall _ hevent with heq | heq | ⟨other, heq, -, hother⟩
    · cases heq
    · cases heq
    · cases heq
      rw [hcanonical.2] at hother
      exact hbelow (Location.startsWith_of_isBelow hother)

theorem WellFormed.shelters_addEach {flags : Location → Flags} {places : List Location}
    (h : s.WellFormed) (hplaces : ∀ place ∈ places, place.IsSpelled)
    (hrec : ∀ place, (flags place).isRecursive = true) : s.Shelters (s.addEach flags places) := by
  induction places generalizing s with
  | nil => exact .refl s
  | cons place places ih =>
    obtain ⟨hplace, hplaces⟩ := List.forall_mem_cons.1 hplaces
    exact (h.shelters_add hplace (hrec place)).trans (ih (h.add hplace (flags place)) hplaces)

/-- Just the place of a recursive root that is added, and all below, is owned in addition. -/
theorem WellFormed.isOwned_add_iff (h : s.WellFormed) (hplace : place.IsCanonical)
    (hrec : flags.isRecursive = true) :
    (s.add place flags).1.IsOwned q ↔ s.IsOwned q ∨ q.startsWith place = true := by
  constructor
  · intro howned
    by_cases hq : q.startsWith place = true
    · exact .inr hq
    have hkept {x : Location} (hx : q.startsWith x = true) {f : Flags}
        (hf : (s.add place flags).1.flagsAt? x = some f) : s.flagsAt? x = some f := by
      have hne : x ≠ place := fun heq => hq (heq ▸ hx)
      rw [flagsAt?_add h hplace.2, if_neg hne] at hf
      split_ifs at hf <;> exact hf
    rcases (h.add hplace.1 flags).isOwned_iff.1 howned with hroot | ⟨above, habove, hbelow⟩
    · obtain ⟨f, hf⟩ := isRoot_iff_flagsAt?.1 hroot
      exact .inl (isOwned_of_isRoot
        (isRoot_iff_flagsAt?.2 ⟨f, hkept (Location.startsWith_self q) hf⟩))
    · obtain ⟨f, hf, hflag⟩ := isRecursiveRoot_iff.1 habove
      exact .inl (h.isOwned_iff.2 (.inr ⟨above, isRecursiveRoot_iff.2
        ⟨f, hkept (Location.startsWith_of_isBelow hbelow) hf, hflag⟩, hbelow⟩))
  · rintro (howned | hq)
    · exact (h.shelters_add hplace.1 hrec).owned q howned
    · exact h.isOwned_add hplace hrec hq

theorem WellFormed.isOwned_addEach_iff {flags : Location → Flags} {places : List Location}
    (h : s.WellFormed) (hplaces : ∀ place ∈ places, place.IsCanonical)
    (hrec : ∀ place, (flags place).isRecursive = true) :
    (s.addEach flags places).IsOwned q ↔
      s.IsOwned q ∨ ∃ place ∈ places, q.startsWith place = true := by
  induction places generalizing s with
  | nil => exact (or_iff_left (by simp)).symm
  | cons place places ih =>
    obtain ⟨hplace, hlater⟩ := List.forall_mem_cons.1 hplaces
    rw [addEach_cons, ih (h.add hplace.1 (flags place)) hlater,
      h.isOwned_add_iff hplace (hrec place), or_assoc, List.exists_mem_cons_iff]

/-- Recursive roots that are added leave their places owned. -/
theorem WellFormed.isOwned_addEach {flags : Location → Flags} {places : List Location}
    (h : s.WellFormed) (hplaces : ∀ place ∈ places, place.IsCanonical)
    (hrec : ∀ place, (flags place).isRecursive = true) :
    ∀ place ∈ places, (s.addEach flags places).IsOwned place := by
  induction places generalizing s with
  | nil => exact fun _ hplace => absurd hplace List.not_mem_nil
  | cons place places ih =>
    obtain ⟨hplace, hlater⟩ := List.forall_mem_cons.1 hplaces
    have hadd := h.add hplace.1 (flags place)
    refine List.forall_mem_cons.2 ⟨?_, ih hadd hlater⟩
    have howned := h.isOwned_add hplace (hrec place) (Location.startsWith_self place)
    exact (hadd.shelters_addEach (fun p hp => (hlater p hp).1) hrec).owned place howned

/-! ### Plain roots -/

/-- No root goes, and none is folded into another one. -/
structure Retains (s s' : RootSet) : Prop where
  isRoot : ∀ q, s.isRoot q = true → s'.isRoot q = true
  absorbed : ∀ root into, .absorbed root into ∈ s'.events → .absorbed root into ∈ s.events

theorem Retains.refl (s : RootSet) : s.Retains s := ⟨fun _ => id, fun _ _ => id⟩

theorem Retains.trans (h : s.Retains s') (h' : s'.Retains s'') : s.Retains s'' where
  isRoot q hq := h'.isRoot q (h.isRoot q hq)
  absorbed root into hevent := h.absorbed root into (h'.absorbed root into hevent)

theorem WellFormed.retains_add (h : s.WellFormed) (hplace : place.IsSpelled)
    (hplain : flags.isRecursive = false) : s.Retains (s.add place flags).1 where
  isRoot q hq := by
    rw [← add_canonical, isRoot_iff_flagsAt?,
      flagsAt?_add h (Location.isCanonical_canonical hplace).2, hplain]
    obtain ⟨f, hf⟩ := isRoot_iff_flagsAt?.1 hq
    split_ifs with hcovered hself hbelow
    · exact ⟨f, hf⟩
    · exact ⟨flags, rfl⟩
    · exact Bool.noConfusion hbelow
    · exact ⟨f, hf⟩
  absorbed root into hevent := by
    obtain ⟨events, hevents, hall⟩ := s.events_add place flags
    rw [hevents, List.mem_append] at hevent
    refine hevent.resolve_right fun hnew => ?_
    rcases hall _ hnew with heq | heq | ⟨other, -, hrec, -⟩
    · cases heq
    · cases heq
    · exact Bool.noConfusion (hrec.symm.trans hplain)

theorem WellFormed.retains_addEach {flags : Location → Flags} {places : List Location}
    (h : s.WellFormed) (hplaces : ∀ place ∈ places, place.IsSpelled)
    (hplain : ∀ place, (flags place).isRecursive = false) : s.Retains (s.addEach flags places) := by
  induction places generalizing s with
  | nil => exact .refl s
  | cons place places ih =>
    obtain ⟨hplace, hplaces⟩ := List.forall_mem_cons.1 hplaces
    exact (h.retains_add hplace (hplain place)).trans (ih (h.add hplace (flags place)) hplaces)

/-- Just the place of a plain root that is added is owned in addition, unless a recursive root is made
plain. -/
theorem WellFormed.isOwned_add_plain_iff {flags : Location → Flags} (h : s.WellFormed)
    (hplace : place.IsCanonical) (hplain : (flags place).isRecursive = false)
    (hnew : s.isRecursiveRoot place = false) :
    (s.add place (flags place)).1.IsOwned q ↔ s.IsOwned q ∨ q = place := by
  have hrecursive (x : Location) : (s.add place (flags place)).1.isRecursiveRoot x = true ↔
      s.isRecursiveRoot x = true := by
    rw [isRecursiveRoot_add_plain h hplace hplain]
    refine and_iff_right_of_imp fun hrec heq => ?_
    rw [heq, hnew] at hrec
    exact Bool.noConfusion hrec
  have hroot : (s.add place (flags place)).1.isRoot q = true ↔
      s.isRoot q = true ∨ q = place ∧ (s.recursiveAbove? place).isNone = true := by
    rw [isRoot_iff_flagsAt?, flagsAt?_add_plain h hplace hplain, isRoot_iff_flagsAt?]
    split_ifs with hcond
    · simp [hcond.1, hcond.2]
    · exact ⟨.inl, fun hor => hor.resolve_right fun ⟨heq, hnone⟩ => hcond ⟨hnone, heq⟩⟩
  rw [(h.add hplace.1 (flags place)).isOwned_iff, h.isOwned_iff, hroot]
  simp only [hrecursive]
  constructor
  · rintro ((hold | ⟨heq, -⟩) | habove)
    · exact .inl (.inl hold)
    · exact .inr heq
    · exact .inl (.inr habove)
  · rintro ((hold | habove) | rfl)
    · exact .inl (.inl hold)
    · exact .inr habove
    · by_cases hcovered : (s.recursiveAbove? q).isSome = true
      · exact .inr (h.recursiveAbove?_isSome_iff.1 hcovered)
      · exact .inl (.inr ⟨rfl, by simpa using hcovered⟩)

theorem WellFormed.isOwned_addEach_plain_iff {flags : Location → Flags} {places : List Location}
    (h : s.WellFormed) (hplaces : ∀ place ∈ places, place.IsCanonical)
    (hplain : ∀ place, (flags place).isRecursive = false)
    (hnew : ∀ place ∈ places, s.isRecursiveRoot place = false) :
    (s.addEach flags places).IsOwned q ↔ s.IsOwned q ∨ q ∈ places := by
  induction places generalizing s with
  | nil => exact (or_iff_left (by simp)).symm
  | cons place places ih =>
    obtain ⟨hplace, hlater⟩ := List.forall_mem_cons.1 hplaces
    obtain ⟨hfirst, hnew⟩ := List.forall_mem_cons.1 hnew
    have hstill : ∀ x ∈ places, (s.add place (flags place)).1.isRecursiveRoot x = false := by
      intro x hx
      rw [← Bool.not_eq_true, isRecursiveRoot_add_plain h hplace (hplain place), hnew x hx]
      simp
    rw [addEach_cons, ih (h.add hplace.1 (flags place)) hlater hstill,
      h.isOwned_add_plain_iff hplace (hplain place) hfirst, or_assoc, List.mem_cons]

/-- A plain root that is added leaves its place owned, if none that is added with it lies above. -/
theorem WellFormed.isOwned_addEach_plain {flags : Location → Flags} {places : List Location}
    (h : s.WellFormed) (hplaces : ∀ place ∈ places, place.IsCanonical) (hnodup : places.Nodup)
    (hplain : ∀ place, (flags place).isRecursive = false) (hq : q ∈ places)
    (hfree : ∀ above ∈ places, q.isBelow above = false) : (s.addEach flags places).IsOwned q := by
  have hflags := flagsAt?_addEach_plain h hplaces hnodup hplain
  by_cases hcovered : ∃ above, s.isRecursiveRoot above = true ∧ q.isBelow above = true
  · obtain ⟨above, hrec, hbelow⟩ := hcovered
    have hnew : above ∉ places := fun hmem => Bool.noConfusion ((hfree above hmem).symm.trans hbelow)
    refine (h.addEach hplaces).isOwned_iff.2 (.inr ⟨above, ?_, hbelow⟩)
    rwa [isRecursiveRoot_eq_any, hflags, if_neg hnew, ← isRecursiveRoot_eq_any]
  · have haccepts : s.Accepts places q := fun above hrec hbelow =>
      absurd ⟨above, hrec, hbelow⟩ hcovered
    refine isOwned_of_isRoot (isRoot_iff_flagsAt?.2 ⟨flags q, ?_⟩)
    rw [hflags, if_pos hq, if_pos haccepts]

/-- A place loses its owner without any root being left unowned only where a recursive root above it
has become a plain one. -/
theorem WellFormed.plain_of_not_isOwned (h : s.WellFormed) (h' : s'.WellFormed)
    (hroots : ∀ q, s.isRoot q = true → s'.IsOwned q) {above : Location}
    (howner : s.owner? q = some above) (hfree : ¬s'.IsOwned q) :
    s.isRecursiveRoot above = true ∧ s'.isRoot above = true ∧ s'.isRecursiveRoot above = false := by
  obtain ⟨hroot, hcover⟩ := h.owner?_eq_some_iff.1 howner
  have hne : q ≠ above := by
    rintro rfl
    exact hfree (hroots q hroot)
  obtain ⟨hrec, hbelow⟩ := hcover.resolve_left hne
  have hplain {other : Location} (hother : q.isBelow other = true) :
      ¬s'.isRecursiveRoot other = true := fun hrec =>
    hfree (h'.isOwned_iff.2 (.inr ⟨other, hrec, hother⟩))
  refine ⟨hrec, (h'.isOwned_iff.1 (hroots above hroot)).resolve_right ?_, ?_⟩
  · rintro ⟨other, hother, habove⟩
    exact hplain (Location.isBelow_trans hbelow habove) hother
  · exact Bool.eq_false_iff.2 (hplain hbelow)

end RootSet

end IndexControl
