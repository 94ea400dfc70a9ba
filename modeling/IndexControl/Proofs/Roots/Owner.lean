import IndexControl.Proofs.Roots.Queue

/-!
# Which root owns a place

In a well-formed set at most one root covers a place, so that it does not matter in which order
the places above are looked at. A new recursive root at a place that no root owns takes over all
that lies below, and nothing else changes hands.

## Main results

* `RootSet.WellFormed.owner?_eq_some_iff`, `RootSet.WellFormed.owner?_eq_none_iff`: the owner of a
  place.
* `RootSet.WellFormed.root?_add_free`, `RootSet.WellFormed.owner?_add_free`: a recursive root that
  is added where none owns the place.
* `RootSet.WellFormed.events_add_free`: what is queued then.
-/

namespace IndexControl

namespace RootSet

variable {s : RootSet} {place q above owner : Location} {flags : Flags}

/-- No two recursive roots lie above one place. -/
theorem WellFormed.recursiveAbove?_eq_some_iff (h : s.WellFormed) :
    s.recursiveAbove? q = some above ↔
      s.isRecursiveRoot above = true ∧ q.isBelow above = true := by
  have hfound {other : Location} (hother : s.recursiveAbove? q = some other) :
      s.isRecursiveRoot other = true ∧ q.isBelow other = true :=
    ⟨List.find?_some hother,
      Location.isBelow_of_mem_ancestors (List.mem_of_find?_eq_some hother)⟩
  refine ⟨hfound, fun ⟨hrec, hbelow⟩ => ?_⟩
  obtain ⟨other, hother⟩ := Option.isSome_iff_exists.1
    (h.recursiveAbove?_isSome_iff.2 ⟨above, hrec, hbelow⟩)
  obtain ⟨hrec', hbelow'⟩ := hfound hother
  rcases Location.isBelow_total (Location.startsWith_of_isBelow hbelow)
    (Location.startsWith_of_isBelow hbelow') with rfl | hnested | hnested
  · exact hother
  · rw [h.outermost above other (isRoot_of_isRecursiveRoot hrec) hrec'] at hnested
    exact Bool.noConfusion hnested
  · rw [h.outermost other above (isRoot_of_isRecursiveRoot hrec') hrec] at hnested
    exact Bool.noConfusion hnested

/-- A place is owned by the root there or by the recursive root above it. -/
theorem WellFormed.owner?_eq_some_iff (h : s.WellFormed) :
    s.owner? q = some owner ↔ s.isRoot owner = true ∧
      (q = owner ∨ s.isRecursiveRoot owner = true ∧ q.isBelow owner = true) := by
  rw [owner?]
  split_ifs with hroot
  · rw [Option.some.injEq]
    refine ⟨fun heq => ⟨heq ▸ hroot, .inl heq⟩, ?_⟩
    rintro ⟨-, heq | ⟨hrec, hbelow⟩⟩
    · exact heq
    · rw [h.outermost q owner hroot hrec] at hbelow
      exact Bool.noConfusion hbelow
  · rw [h.recursiveAbove?_eq_some_iff]
    refine ⟨fun hcover => ⟨isRoot_of_isRecursiveRoot hcover.1, .inr hcover⟩, ?_⟩
    rintro ⟨howner, hcover⟩
    exact hcover.resolve_left fun heq => hroot (heq ▸ howner)

theorem WellFormed.startsWith_of_owner? (h : s.WellFormed) (howner : s.owner? q = some owner) :
    q.startsWith owner = true := by
  rcases (h.owner?_eq_some_iff.1 howner).2 with rfl | ⟨-, hbelow⟩
  · exact Location.startsWith_self q
  · exact Location.startsWith_of_isBelow hbelow

/-- A place is free where it is no root and lies below no recursive one. -/
theorem WellFormed.owner?_eq_none_iff (h : s.WellFormed) :
    s.owner? q = none ↔ s.isRoot q = false ∧
      ∀ above, s.isRecursiveRoot above = true → q.isBelow above = false := by
  rw [Option.eq_none_iff_forall_ne_some]
  constructor
  · intro hnone
    refine ⟨?_, fun above hrec => ?_⟩ <;> rw [Bool.eq_false_iff]
    · exact fun hroot => hnone q (h.owner?_eq_some_iff.2 ⟨hroot, .inl rfl⟩)
    · exact fun hbelow => hnone above
        (h.owner?_eq_some_iff.2 ⟨isRoot_of_isRecursiveRoot hrec, .inr ⟨hrec, hbelow⟩⟩)
  · rintro ⟨hroot, hfree⟩ owner howner
    obtain ⟨hisRoot, rfl | ⟨hrec, hbelow⟩⟩ := h.owner?_eq_some_iff.1 howner
    · rw [hroot] at hisRoot
      exact Bool.noConfusion hisRoot
    · rw [hfree owner hrec] at hbelow
      exact Bool.noConfusion hbelow

theorem WellFormed.recursiveAbove?_of_free (h : s.WellFormed) (hfree : s.owner? q = none) :
    s.recursiveAbove? q = none := by
  rw [Option.eq_none_iff_forall_ne_some]
  intro above habove
  obtain ⟨hrec, hbelow⟩ := h.recursiveAbove?_eq_some_iff.1 habove
  rw [(h.owner?_eq_none_iff.1 hfree).2 above hrec] at hbelow
  exact Bool.noConfusion hbelow

/-- What a root owns lies at a free place or below just where the root does. -/
theorem WellFormed.startsWith_iff_of_free (h : s.WellFormed) (howner : s.owner? q = some owner)
    (hfree : s.owner? place = none) :
    q.startsWith place = true ↔ owner.isBelow place = true := by
  obtain ⟨hroot, hnone⟩ := h.owner?_eq_none_iff.1 hfree
  have hstart := h.startsWith_of_owner? howner
  refine ⟨fun hplace => ?_, fun hbelow =>
    Location.startsWith_trans hstart (Location.startsWith_of_isBelow hbelow)⟩
  obtain ⟨howned, hcover⟩ := h.owner?_eq_some_iff.1 howner
  rcases Location.isBelow_total hplace hstart with rfl | hnested | hbelow
  · rw [hroot] at howned
    exact Bool.noConfusion howned
  · -- Otherwise the place would lie below the owner, and be owned too.
    rcases hcover with rfl | ⟨hrec, -⟩
    · have hself := Location.isBelow_of_isBelow_of_startsWith hnested hplace
      rw [Location.isBelow_self] at hself
      exact Bool.noConfusion hself
    · rw [hnone owner hrec] at hnested
      exact Bool.noConfusion hnested
  · exact hbelow

theorem root?_eq_none_of_isRoot (h : s.isRoot q = false) : s.root? q = none := by
  simpa [isRoot, OrderedMap.contains, root?] using h

/-! ### Adding where no root owns the place -/

section Free

variable (h : s.WellFormed) (hplace : place.IsCanonical) (hfree : s.owner? place = none)
  (hrec : flags.isRecursive = true)

include h hplace hfree hrec

/-- A new recursive root comes to its place, and what lies below is folded into it. -/
theorem WellFormed.root?_add_free (q : Location) :
    (s.add place flags).1.root? q =
      if q = place then some ⟨flags, none⟩ else if q.isBelow place then none else s.root? q := by
  have hroot := (h.owner?_eq_none_iff.1 hfree).1
  rw [root?_add h hplace.2, h.recursiveAbove?_of_free hfree, root?_eq_none_of_isRoot hroot, hrec]
  rfl

theorem WellFormed.isRoot_add_free (q : Location) :
    (s.add place flags).1.isRoot q = true ↔
      q = place ∨ q.isBelow place = false ∧ s.isRoot q = true := by
  simp only [isRoot_iff, h.root?_add_free hplace hfree hrec]
  by_cases hq : q = place
  · simp [hq]
  · by_cases hbelow : q.isBelow place = true <;> simp [hq, hbelow]

theorem WellFormed.isRecursiveRoot_add_free (q : Location) :
    (s.add place flags).1.isRecursiveRoot q = true ↔
      q = place ∨ q.isBelow place = false ∧ s.isRecursiveRoot q = true := by
  simp only [isRecursiveRoot, h.root?_add_free hplace hfree hrec]
  by_cases hq : q = place
  · simp [hq, Root.isRecursive, hrec]
  · by_cases hbelow : q.isBelow place = true <;> simp [hq, hbelow]

/-- A new recursive root takes over its place and all below, and nothing else. -/
theorem WellFormed.owner?_add_free (q : Location) :
    (s.add place flags).1.owner? q = if q.startsWith place then some place else s.owner? q := by
  have hadd : (s.add place flags).1.WellFormed := h.add hplace.1 flags
  split_ifs with hstart
  · rw [hadd.owner?_eq_some_iff, h.isRoot_add_free hplace hfree hrec,
      h.isRecursiveRoot_add_free hplace hfree hrec]
    exact ⟨.inl rfl, (Location.startsWith_iff_eq_or_isBelow.1 hstart).imp_right (⟨.inl rfl, ·⟩)⟩
  · have hne : q ≠ place := by
      rintro rfl
      exact hstart (Location.startsWith_self q)
    have hout : q.isBelow place = false := by
      rw [Bool.eq_false_iff]
      exact fun hbelow => hstart (Location.startsWith_of_isBelow hbelow)
    ext owner
    rw [hadd.owner?_eq_some_iff, h.owner?_eq_some_iff, h.isRoot_add_free hplace hfree hrec,
      h.isRecursiveRoot_add_free hplace hfree hrec]
    constructor
    · rintro ⟨hroot, hcover⟩
      -- The new root does not cover the place.
      have hother : owner ≠ place := by
        rintro rfl
        rcases hcover with rfl | ⟨-, hbelow⟩
        · exact hne rfl
        · rw [hout] at hbelow
          exact Bool.noConfusion hbelow
      exact ⟨(hroot.resolve_left hother).2,
        hcover.imp_right fun hcover => ⟨(hcover.1.resolve_left hother).2, hcover.2⟩⟩
    · rintro ⟨hroot, hcover⟩
      -- The owner of a place outside does not lie below the new root.
      have howner : owner.isBelow place = false := by
        rw [Bool.eq_false_iff]
        intro hbelow
        refine hstart ?_
        rcases hcover with rfl | ⟨-, hq⟩
        · exact Location.startsWith_of_isBelow hbelow
        · exact Location.startsWith_of_isBelow (Location.isBelow_trans hq hbelow)
      exact ⟨.inr ⟨howner, hroot⟩,
        hcover.imp_right fun hcover => ⟨.inr ⟨howner, hcover.1⟩, hcover.2⟩⟩

/-- What adding does then: the root is put, and those below are folded into it. -/
theorem WellFormed.add_free :
    s.add place flags = ((s.put place ⟨flags, none⟩ (.added place flags)).absorb place, .added) := by
  have hroot := (h.owner?_eq_none_iff.1 hfree).1
  rw [RootSet.add, hplace.2]
  simp only [root?_eq_none_of_isRoot hroot, h.recursiveAbove?_of_free hfree, hrec, ↓reduceIte]

/-- The new root is told, and then each root below that is folded into it. -/
theorem WellFormed.events_add_free :
    ∃ roots : List Location, (s.add place flags).1.events =
        s.events ++ .added place flags :: roots.map (.absorbed · place) ∧
      roots.Nodup ∧ ∀ x, x ∈ roots ↔ s.isRoot x = true ∧ x.isBelow place = true := by
  let s' := s.put place ⟨flags, none⟩ (.added place flags)
  refine ⟨s'.below place, ?_, ?_, fun x => ?_⟩
  · rw [h.add_free hplace hfree hrec]
    exact List.append_assoc s.events [.added place flags] _
  · rw [below_eq_filter]
    exact (OrderedMap.nodup_keys s'.roots).filter _
  · rw [mem_below_iff]
    refine and_congr_left fun hbelow => ?_
    have hne : x ≠ place := by
      rintro rfl
      rw [Location.isBelow_self] at hbelow
      exact Bool.noConfusion hbelow
    rw [isRoot_iff, isRoot_iff, root?_put, if_neg hne]

end Free

end RootSet

end IndexControl
