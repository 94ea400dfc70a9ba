import IndexControl.Proofs.Roots.AddEach
import IndexControl.Proofs.Roots.Owner

/-!
# Where roots are folded and flattened

A root is folded only into a place that is made a recursive root, and a recursive root becomes a
plain one only where it is added as such. Recursive roots that are added in the order of their
places do not end one another, since a place comes before all that lies below it.

## Main definitions

* `RootEvent.into?`: the root into which a notification says that another one was folded.
* `RootSet.IsPlain`, `RootSet.FlattensAt`: plain roots, and where roots have become plain.

## Main results

* `RootSet.queues_addEach`, `RootSet.queues_removeEach`: into which roots others are folded.
* `RootSet.WellFormed.not_ended_addEach`: added roots that stay.
-/

namespace IndexControl

/-- The root into which a notification says that another one was folded. -/
def RootEvent.into? : RootEvent → Option Location
  | absorbed _ into => some into
  | added .. | updated _ | childUpdated .. | removed .. => none

theorem RootEvent.removed?_eq_some_iff {event : RootEvent} {q : Location} :
    event.removed? = some q ↔ ∃ flags, event = .removed q flags := by
  cases event <;> simp [removed?]

theorem RootEvent.removed?_ne_of_not_mem {events : List RootEvent} {q : Location}
    (h : ∀ flags, .removed q flags ∉ events) : ∀ event ∈ events, event.removed? ≠ some q := by
  intro event hevent hremoved
  obtain ⟨flags, rfl⟩ := RootEvent.removed?_eq_some_iff.1 hremoved
  exact h flags hevent

theorem RootEvent.ended?_eq_some_iff {event : RootEvent} {q : Location} :
    event.ended? = some q ↔ event.removed? = some q ∨ ∃ into, event = .absorbed q into := by
  cases event <;> simp [ended?, removed?]

namespace RootSet

variable {P : Location → Prop} {s s' s'' : RootSet} {place q : Location}
  {flags : Location → Flags} {places : List Location}

/-! ### Into which roots others are folded -/

/-- A root that is folded into another one lies below it. -/
theorem Changes.isBelow_of_absorbed (h : Changes P s s') (hquiet : s.events = [])
    {root into : Location} (hevent : .absorbed root into ∈ s'.events) :
    root.isBelow into = true := by
  obtain ⟨events, hevents, hfit, -⟩ := h.tells
  rw [hevents, hquiet, List.nil_append] at hevent
  obtain ⟨front, back, rfl⟩ := List.append_of_mem hevent
  exact hfit.fits.2.2

theorem queues_add (s : RootSet) (place : Location) (flags : Flags) :
    Queues (fun event => event.removed? = none ∧ ∀ into, event.into? = some into →
      into = place.canonical ∧ flags.isRecursive = true) s (s.add place flags).1 := by
  obtain ⟨events, hevents, hall⟩ := s.events_add place flags
  refine ⟨events, hevents, fun event hevent => ?_⟩
  rcases hall event hevent with rfl | rfl | ⟨root, rfl, hrec, -⟩
  · exact ⟨rfl, fun into hinto => by contradiction⟩
  · exact ⟨rfl, fun into hinto => by contradiction⟩
  · exact ⟨rfl, fun into hinto => ⟨(Option.some.inj hinto).symm, hrec⟩⟩

/-- Additions remove nothing, and fold roots only into places at which they add recursive ones. -/
theorem queues_addEach (s : RootSet) (flags : Location → Flags) (places : List Location) :
    Queues (fun event => event.removed? = none ∧ ∀ into, event.into? = some into →
      ∃ place ∈ places, into = place.canonical ∧ (flags place).isRecursive = true)
      s (s.addEach flags places) :=
  queues_foldl (fun s place hplace => (s.queues_add place (flags place)).mono fun _ h =>
    ⟨h.1, fun into hinto => ⟨place, hplace, h.2 into hinto⟩⟩) s

/-- Removals fold no root into another one. -/
theorem queues_removeEach (s : RootSet) (places : List Location) :
    Queues (fun event => event.into? = none) s (s.removeEach places).1 := by
  obtain ⟨events, hevents, hall⟩ := s.events_removeEach places
  refine ⟨events, hevents, fun event hevent => ?_⟩
  obtain ⟨root, -, flags, rfl⟩ := hall event hevent
  rfl

theorem queues_remove (s : RootSet) (place : Location) :
    Queues (fun event => event.into? = none) s (s.remove place).1 := by
  rw [remove]
  split
  · exact ⟨_, rfl, fun event hevent => by rw [List.mem_singleton.1 hevent]; rfl⟩
  · exact .refl s

/-- An addition ends only roots that lie below its place, and only if it adds a recursive one. -/
theorem ended_add {event : RootEvent} {flags : Flags}
    (hevent : event ∈ (s.add place flags).1.events) (hq : event.ended? = some q) :
    event ∈ s.events ∨ s.isRoot q = true ∧ flags.isRecursive = true ∧
      q.isBelow place.canonical = true := by
  have habsorb {s' : RootSet} {root : Root} {tell : RootEvent}
      (hs' : s' = s.put place.canonical root tell) (htell : tell.ended? = none)
      (hevent : event ∈ (s'.absorb place.canonical).events) :
      event ∈ s.events ∨ s.isRoot q = true ∧ q.isBelow place.canonical = true := by
    subst hs'
    simp only [absorb, put, List.mem_append, List.mem_singleton, List.mem_map] at hevent
    rcases hevent with (hevent | rfl) | ⟨other, hother, rfl⟩
    · exact .inl hevent
    · rw [htell] at hq
      contradiction
    · obtain rfl := Option.some.inj hq
      obtain ⟨hroot, hbelow⟩ := mem_below_iff.1 hother
      refine .inr ⟨?_, hbelow⟩
      have hne : other ≠ place.canonical := by
        rintro rfl
        simp at hbelow
      obtain ⟨r, hr⟩ := isRoot_iff.1 hroot
      have hsame := root?_put s place.canonical root tell other
      rw [if_neg hne] at hsame
      exact isRoot_iff.2 ⟨r, hsame.symm.trans hr⟩
  have hput {root : Root} {tell : RootEvent} (htell : tell.ended? = none)
      (hevent : event ∈ (s.put place.canonical root tell).events) : event ∈ s.events := by
    rcases List.mem_append.1 hevent with hevent | hevent
    · exact hevent
    · rw [List.mem_singleton.1 hevent, htell] at hq
      contradiction
  rw [add] at hevent
  cases hroot : s.root? place.canonical with
  | some root =>
    simp only [hroot] at hevent
    split_ifs at hevent with hsame hrec
    · exact .inl hevent
    · rw [Bool.and_eq_true] at hrec
      exact (habsorb rfl rfl hevent).imp_right fun h => ⟨h.1, hrec.1, h.2⟩
    · exact .inl (hput rfl hevent)
  | none =>
    cases habove : s.recursiveAbove? place.canonical with
    | some above =>
      simp only [hroot, habove] at hevent
      exact .inl hevent
    | none =>
      simp only [hroot, habove] at hevent
      split_ifs at hevent with hrec
      · exact (habsorb rfl rfl hevent).imp_right fun h => ⟨h.1, hrec, h.2⟩
      · exact .inl (hput rfl hevent)

/-- Roots that are added in the order of their places, where none was before, are not folded into
one another. -/
theorem WellFormed.not_ended_addEach (h : s.WellFormed)
    (hplaces : ∀ place ∈ places, place.IsCanonical)
    (hordered : places.Pairwise fun a b => compare a b = .lt)
    (hnew : ∀ place ∈ places, s.isRoot place = false) {event : RootEvent}
    (hevent : event ∈ (s.addEach flags places).events) (hmem : q ∈ places)
    (hq : event.ended? = some q) : event ∈ s.events := by
  induction places generalizing s with
  | nil => exact absurd hmem List.not_mem_nil
  | cons place places ih =>
    obtain ⟨hplace, hlater⟩ := List.forall_mem_cons.1 hplaces
    obtain ⟨hfirst, hordered⟩ := List.pairwise_cons.1 hordered
    obtain ⟨hplaceNew, hnew⟩ := List.forall_mem_cons.1 hnew
    rw [addEach_cons] at hevent
    have hadded (hevent : event ∈ (s.add place (flags place)).1.events) (hroot : s.isRoot q = false) :
        event ∈ s.events :=
      (ended_add hevent hq).resolve_right fun h => Bool.noConfusion (hroot.symm.trans h.1)
    rcases List.mem_cons.1 hmem with rfl | hmem
    · refine hadded ?_ hplaceNew
      refine (ended_addEach hevent hq).resolve_right ?_
      -- what comes later in the order of places does not lie above
      rintro ⟨above, habove, -, hbelow⟩
      rw [(hlater above habove).2] at hbelow
      have hprefix := Location.startsWith_iff.1 (Location.startsWith_of_isBelow hbelow)
      exact Location.not_lt_of_prefix hprefix (hfirst above habove)
    · refine hadded (ih (h.add hplace.1 (flags place)) hlater hordered (fun r hr => ?_) hevent hmem)
        (hnew q hmem)
      have hne : r ≠ place := by
        rintro rfl
        have hlt := hfirst r hr
        rw [Std.ReflOrd.compare_self] at hlt
        contradiction
      rw [← Bool.not_eq_true, isRoot_iff_flagsAt?, flagsAt?_add h hplace.2, if_neg hne]
      rintro ⟨f, hf⟩
      split_ifs at hf
      all_goals exact Bool.noConfusion ((hnew r hr).symm.trans (isRoot_iff_flagsAt?.2 ⟨f, hf⟩))

/-! ### Where roots are flattened -/

/-- There is a root at a place that does not cover all below it. -/
def IsPlain (s : RootSet) (place : Location) : Prop :=
  ∃ f, s.flagsAt? place = some f ∧ f.isRecursive = false

theorem IsPlain.isRoot (h : s.IsPlain q) : s.isRoot q = true := by
  obtain ⟨f, hf, -⟩ := h
  exact isRoot_iff_flagsAt?.2 ⟨f, hf⟩

/-- A root above another one is plain. -/
theorem WellFormed.isPlain_of_isBelow (h : s.WellFormed) {above : Location}
    (hq : s.isRoot q = true) (habove : s.isRoot above = true) (hbelow : q.isBelow above = true) :
    s.IsPlain above := by
  obtain ⟨f, hf⟩ := isRoot_iff_flagsAt?.1 habove
  refine ⟨f, hf, Bool.eq_false_iff.2 fun hrec => ?_⟩
  rw [h.outermost q above hq (isRecursiveRoot_iff.2 ⟨f, hf, hrec⟩)] at hbelow
  exact Bool.noConfusion hbelow

/-- Roots have become plain only at some places. -/
def FlattensAt (P : Location → Prop) (s s' : RootSet) : Prop :=
  ∀ q, s'.IsPlain q → P q ∨ s.IsPlain q

theorem FlattensAt.refl (s : RootSet) : FlattensAt P s s := fun _ => .inr

theorem FlattensAt.trans (h : FlattensAt P s s') (h' : FlattensAt P s' s'') :
    FlattensAt P s s'' :=
  fun q hq => (h' q hq).elim .inl (h q)

/-- Roots that stay keep their flags. -/
theorem flattensAt_of_flagsAt? (h : ∀ q f, s'.flagsAt? q = some f → s.flagsAt? q = some f) :
    FlattensAt P s s' := by
  rintro q ⟨f, hf, hplain⟩
  exact .inr ⟨f, h q f hf, hplain⟩

end RootSet

end IndexControl
