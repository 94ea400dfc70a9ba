import IndexControl.Proofs.Roots.Replay

/-!
# What is queued about the set of roots

A notification is queued for every root that goes. Adding roots ends only roots that are folded
into the added one, and removing some roots tells of just those.

## Main definitions

* `RootEvent.ended?`, `RootEvent.removed?`: the root that a notification ends or says was removed.
* `RootSet.Queues`, `RootSet.Spares`, `RootSet.Adds`: notifications of one kind only were queued in
  between, no root was removed, or roots were added only at places of one kind.

## Main results

* `RootSet.Changes.isRoot_or_ended`: a root that goes is told to go.
* `RootSet.events_add`, `RootSet.events_notify`, `RootSet.events_removeEach`: what is queued.
* `RootSet.mem_removeEach`, `RootSet.mem_removeEach_of_isRoot`, `RootSet.flagsAt?_removeEach`: which
  roots are removed.
* `RootSet.isRoot_add`, `RootSet.isLive_add_of_isRoot`: an addition leaves a root where it is not
  refused, and only there.
* `RootSet.Changes.adds`, `RootSet.Changes.isRoot_or_added`: roots come only where they are added, and
  that is told.
-/

namespace IndexControl

namespace RootEvent

/-- The root that a notification ends. -/
def ended? : RootEvent → Option Location
  | removed root _ | absorbed root _ => some root
  | added .. | updated _ | childUpdated .. => none

/-- The root that a notification says was removed. -/
def removed? : RootEvent → Option Location
  | removed root _ => some root
  | _ => none

variable {q : Location}

theorem mem_mirrorAll {known : Finset Location} {events : List RootEvent}
    (h : q ∈ known) (hended : ∀ event ∈ events, event.ended? ≠ some q) :
    q ∈ mirrorAll known events := by
  induction events generalizing known with
  | nil => exact h
  | cons event events ih =>
    obtain ⟨hevent, hevents⟩ := List.forall_mem_cons.1 hended
    refine ih ?_ hevents
    cases event with
    | added root flags => exact Finset.mem_insert_of_mem h
    | updated root => exact h
    | childUpdated root file => exact h
    | removed root flags => exact Finset.mem_erase.2 ⟨fun heq => hevent (congrArg some heq.symm), h⟩
    | absorbed root into => exact Finset.mem_erase.2 ⟨fun heq => hevent (congrArg some heq.symm), h⟩

theorem notMem_mirrorAll {known : Finset Location} {events : List RootEvent}
    (h : q ∉ known) (hadded : ∀ flags, .added q flags ∉ events) : q ∉ mirrorAll known events := by
  induction events generalizing known with
  | nil => exact h
  | cons event events ih =>
    have hlater (flags : Flags) : .added q flags ∉ events := fun hmem =>
      hadded flags (List.mem_cons_of_mem _ hmem)
    refine ih ?_ hlater
    cases event with
    | added root flags =>
      refine fun hmem => (Finset.mem_insert.1 hmem).elim (fun heq => ?_) h
      exact hadded flags (heq ▸ List.mem_cons_self)
    | updated root => exact h
    | childUpdated root file => exact h
    | removed root flags => exact fun hmem => h (Finset.mem_of_mem_erase hmem)
    | absorbed root into => exact fun hmem => h (Finset.mem_of_mem_erase hmem)

/-- A root that is known all the time is not added. -/
theorem AllFit.added_notMem {known : Finset Location} {events : List RootEvent}
    (hfit : AllFit known events) (h : q ∈ known) (hended : ∀ event ∈ events, event.ended? ≠ some q)
    (flags : Flags) : .added q flags ∉ events := by
  intro hmem
  obtain ⟨before, after, rfl⟩ := List.append_of_mem hmem
  exact hfit.fits (mem_mirrorAll h fun event hevent => hended event (List.mem_append_left _ hevent))

/-- A root whose end is told, and that is known all the same at last, is added in between. -/
theorem not_ended_of_mem_mirrorAll {known : Finset Location} {events : List RootEvent}
    (h : q ∈ mirrorAll known events) (hadded : ∀ flags, .added q flags ∉ events) :
    ∀ event ∈ events, event.ended? ≠ some q := by
  rintro event hevent hended
  obtain ⟨before, after, rfl⟩ := List.append_of_mem hevent
  have hgone : q ∉ event.mirror (mirrorAll known before) := by
    cases event with
    | removed root flags => exact Option.some.inj hended ▸ Finset.notMem_erase root _
    | absorbed root into => exact Option.some.inj hended ▸ Finset.notMem_erase root _
    | _ => contradiction
  rw [mirrorAll_append] at h
  have hlater (flags : Flags) : .added q flags ∉ after := fun hmem =>
    hadded flags (List.mem_append_right _ (List.mem_cons_of_mem _ hmem))
  exact notMem_mirrorAll hgone hlater h

end RootEvent

namespace RootSet

variable {P : Location → Prop} {s s' s'' : RootSet} {place q : Location} {flags : Flags}

/-- A root that goes is told to go. -/
theorem Changes.isRoot_or_ended (h : Changes P s s') (hq : s.isRoot q = true) :
    s'.isRoot q = true ∨ ∃ event ∈ s'.events, event.ended? = some q := by
  obtain ⟨events, hevents, -, hmirror⟩ := h.tells
  by_cases hended : ∀ event ∈ events, event.ended? ≠ some q
  · refine .inl (mem_placeSet_iff.1 ?_)
    rw [← hmirror]
    exact RootEvent.mem_mirrorAll (mem_placeSet_iff.2 hq) hended
  · push Not at hended
    obtain ⟨event, hmem, hevent⟩ := hended
    exact .inr ⟨event, hevents ▸ List.mem_append_right _ hmem, hevent⟩

/-- A root that has come is told to be added. -/
theorem Changes.isRoot_or_added (h : Changes P s s') (hq : s'.isRoot q = true) :
    s.isRoot q = true ∨ ∃ flags, .added q flags ∈ s'.events := by
  obtain ⟨events, hevents, -, hmirror⟩ := h.tells
  by_contra! hnone
  obtain ⟨hold, hadded⟩ := hnone
  have hlater (flags : Flags) : .added q flags ∉ events := fun hmem =>
    hadded flags (hevents ▸ List.mem_append_right _ hmem)
  have hknown : q ∈ RootEvent.mirrorAll s.placeSet events := hmirror ▸ mem_placeSet_iff.2 hq
  exact RootEvent.notMem_mirrorAll (fun hmem => hold (mem_placeSet_iff.1 hmem)) hlater hknown

/-- A root that is folded into another one was there before or has come in between. -/
theorem Changes.isRoot_or_added_of_absorbed (h : Changes P s s') (hquiet : s.events = [])
    {into : Location} (hevent : .absorbed q into ∈ s'.events) :
    s.isRoot q = true ∨ ∃ flags, .added q flags ∈ s'.events := by
  obtain ⟨events, hevents, hfit, -⟩ := h.tells
  rw [hevents, hquiet, List.nil_append] at hevent ⊢
  obtain ⟨front, back, rfl⟩ := List.append_of_mem hevent
  by_contra! hnone
  obtain ⟨hold, hadded⟩ := hnone
  have hearlier (flags : Flags) : .added q flags ∉ front := fun hmem =>
    hadded flags (List.mem_append_left _ hmem)
  exact RootEvent.notMem_mirrorAll (fun hmem => hold (mem_placeSet_iff.1 hmem)) hearlier hfit.fits.1

theorem Changes.mem_events (h : Changes P s s') {event : RootEvent} (hevent : event ∈ s.events) :
    event ∈ s'.events := by
  obtain ⟨events, hevents, -⟩ := h.tells
  exact hevents ▸ List.mem_append_left _ hevent

/-- An addition that is not refused leaves a root at the place. -/
theorem isRoot_add (h : (s.add place flags).2.isLive = true) :
    (s.add place flags).1.isRoot place.canonical = true := by
  have hput (root : Root) (event : RootEvent) :
      (s.put place.canonical root event).root? place.canonical = some root := by
    rw [root?_put, if_pos rfl]
  have habsorb (root : Root) (event : RootEvent) :
      ((s.put place.canonical root event).absorb place.canonical).root? place.canonical =
        some root := by
    rw [root?_absorb, Location.isBelow_self, hput]
    rfl
  rw [add] at h ⊢
  cases hroot : s.root? place.canonical with
  | some root =>
    simp only
    split_ifs
    · exact isRoot_iff.2 ⟨root, hroot⟩
    · exact isRoot_iff.2 ⟨_, habsorb ..⟩
    · exact isRoot_iff.2 ⟨_, hput ..⟩
  | none =>
    cases habove : s.recursiveAbove? place.canonical with
    | some above => simp [hroot, habove, AddOutcome.isLive] at h
    | none =>
      simp only
      split_ifs
      · exact isRoot_iff.2 ⟨_, habsorb ..⟩
      · exact isRoot_iff.2 ⟨_, hput ..⟩

/-- A place at which there is a root after an addition has not been refused. -/
theorem isLive_add_of_isRoot (h : (s.add place flags).1.isRoot place.canonical = true) :
    (s.add place flags).2.isLive = true := by
  rw [add] at h ⊢
  cases hroot : s.root? place.canonical with
  | some root =>
    simp only
    split_ifs <;> rfl
  | none =>
    cases habove : s.recursiveAbove? place.canonical with
    | none => rfl
    | some above =>
      rw [hroot, habove, isRoot_iff, hroot] at h
      obtain ⟨root, hnone⟩ := h
      contradiction

theorem isRoot_of_owner? {owner : Location} (h : s.owner? q = some owner) :
    s.isRoot owner = true := by
  rw [owner?] at h
  split_ifs at h with hroot
  · exact Option.some.inj h ▸ hroot
  · exact isRoot_of_isRecursiveRoot (List.find?_some h)

/-! ### What single changes queue -/

/-- Adding tells of the root at the place and of the roots below that are folded into it. -/
theorem events_add (s : RootSet) (place : Location) (flags : Flags) :
    ∃ events, (s.add place flags).1.events = s.events ++ events ∧ ∀ event ∈ events,
      event = .added place.canonical flags ∨ event = .updated place.canonical ∨
        ∃ root, event = .absorbed root place.canonical ∧ flags.isRecursive = true ∧
          root.isBelow place.canonical = true := by
  have habsorb (s' : RootSet) {event : RootEvent} (hevents : s'.events = s.events ++ [event]) :
      ∃ events, (s'.absorb place.canonical).events = s.events ++ event :: events ∧
        ∀ event ∈ events, ∃ root, event = .absorbed root place.canonical ∧
          root.isBelow place.canonical = true := by
    refine ⟨(s'.below place.canonical).map (.absorbed · place.canonical), ?_, ?_⟩
    · rw [absorb, hevents, List.append_assoc]
      rfl
    · intro event hevent
      obtain ⟨root, hroot, rfl⟩ := List.mem_map.1 hevent
      exact ⟨root, rfl, (mem_below_iff.1 hroot).2⟩
  rw [add]
  cases hroot : s.root? place.canonical with
  | some root =>
    simp only
    split_ifs with hflags hrec
    · exact ⟨[], (List.append_nil _).symm, fun _ h => absurd h List.not_mem_nil⟩
    · obtain ⟨events, hevents, hall⟩ := habsorb
        (s.put place.canonical { root with flags } (.updated place.canonical)) rfl
      rw [Bool.and_eq_true] at hrec
      refine ⟨_, hevents, List.forall_mem_cons.2 ⟨.inr (.inl rfl), fun event hevent => ?_⟩⟩
      obtain ⟨below, heq, hbelow⟩ := hall event hevent
      exact .inr (.inr ⟨below, heq, hrec.1, hbelow⟩)
    · exact ⟨[.updated place.canonical], rfl, by simp⟩
  | none =>
    cases s.recursiveAbove? place.canonical with
    | some above => exact ⟨[], (List.append_nil _).symm, fun _ h => absurd h List.not_mem_nil⟩
    | none =>
      simp only
      split_ifs with hrec
      · obtain ⟨events, hevents, hall⟩ := habsorb
          (s.put place.canonical ⟨flags, none⟩ (.added place.canonical flags)) rfl
        refine ⟨_, hevents, List.forall_mem_cons.2 ⟨.inl rfl, fun event hevent => ?_⟩⟩
        obtain ⟨below, heq, hbelow⟩ := hall event hevent
        exact .inr (.inr ⟨below, heq, hrec, hbelow⟩)
      · exact ⟨[.added place.canonical flags], rfl, by simp⟩

/-- Asking for freshness checks ends no root. -/
theorem events_notify (s : RootSet) (file : Location) (recursive : Bool) :
    ∃ events, (s.notify file recursive).1.events = s.events ++ events ∧
      ∀ event ∈ events, event.ended? = none := by
  obtain ⟨events, heq, hchecks⟩ := s.checks_notify file recursive
  refine ⟨events, by rw [heq]; rfl, fun event hevent => ?_⟩
  cases hchecks event hevent <;> rfl

/-- Removing some roots tells of just those. -/
theorem events_removeEach (s : RootSet) (places : List Location) :
    ∃ events, (s.removeEach places).1.events = s.events ++ events ∧
      ∀ event ∈ events, ∃ q ∈ (s.removeEach places).2, ∃ flags, event = .removed q flags := by
  induction places generalizing s with
  | nil => exact ⟨[], (List.append_nil _).symm, fun _ h => absurd h List.not_mem_nil⟩
  | cons place places ih =>
    obtain ⟨events, hevents, hall⟩ := ih (s.remove place).1
    have hlater (event) (hevent : event ∈ events) :
        ∃ q ∈ (s.removeEach (place :: places)).2, ∃ flags, event = .removed q flags := by
      obtain ⟨q, hq, hflags⟩ := hall event hevent
      exact ⟨q, List.mem_append_right _ hq, hflags⟩
    cases hroot : s.root? place.canonical with
    | none =>
      have hremove : s.remove place = (s, none) := by rw [remove]; simp only [hroot]
      refine ⟨events, ?_, hlater⟩
      rw [hremove] at hevents
      simpa only [removeEach, hremove] using hevents
    | some root =>
      have hremove : (s.remove place).1.events =
          s.events ++ [.removed place.canonical root.flags] := by rw [remove]; simp only [hroot]
      have hanswer : (s.remove place).2 = some (place.canonical, root) := by
        rw [remove]
        simp only [hroot]
      have hplace : place.canonical ∈ (s.removeEach (place :: places)).2 := by
        simp [removeEach, hanswer]
      refine ⟨.removed place.canonical root.flags :: events, ?_,
        List.forall_mem_cons.2 ⟨⟨_, hplace, root.flags, rfl⟩, hlater⟩⟩
      simpa only [removeEach, hremove, List.append_assoc, List.singleton_append] using hevents

/-- The removed roots are among those that were to be removed. -/
theorem mem_removeEach {places : List Location} (h : q ∈ (s.removeEach places).2) :
    ∃ place ∈ places, q = place.canonical := by
  induction places generalizing s with
  | nil => exact absurd h List.not_mem_nil
  | cons place places ih =>
    rw [removeEach, List.mem_append] at h
    rcases h with h | h
    · refine ⟨place, List.mem_cons_self, ?_⟩
      rw [remove] at h
      cases hroot : s.root? place.canonical with
      | none => simp [hroot] at h
      | some root => simpa [hroot] using h
    · obtain ⟨p, hp, hq⟩ := ih h
      exact ⟨p, List.mem_cons_of_mem place hp, hq⟩

/-- Each root among different canonical places is removed. -/
theorem mem_removeEach_of_isRoot {places : List Location} (hnodup : places.Nodup)
    (hcanonical : ∀ place ∈ places, place.canonical = place) (hmem : q ∈ places)
    (hroot : s.isRoot q = true) : q ∈ (s.removeEach places).2 := by
  induction places generalizing s with
  | nil => exact absurd hmem List.not_mem_nil
  | cons place places ih =>
    obtain ⟨hnew, hnodup⟩ := List.nodup_cons.1 hnodup
    obtain ⟨hplace, hcanonical⟩ := List.forall_mem_cons.1 hcanonical
    rw [removeEach, List.mem_append]
    rcases List.mem_cons.1 hmem with rfl | hmem
    · obtain ⟨root, hroot⟩ := isRoot_iff.1 hroot
      refine .inl ?_
      rw [remove, hplace]
      simp [hroot]
    · have hne : q ≠ place := fun heq => hnew (heq ▸ hmem)
      refine .inr (ih hnodup hcanonical hmem ?_)
      rw [isRoot_iff, root?_remove, hplace, if_neg hne, ← isRoot_iff]
      exact hroot

/-- Where none of the places is a root nothing changes. -/
theorem removeEach_eq_self {places : List Location} (h : (s.removeEach places).2 = []) :
    (s.removeEach places).1 = s := by
  induction places with
  | nil => rfl
  | cons place places ih =>
    rw [removeEach, List.append_eq_nil_iff] at h
    obtain ⟨hplace, hplaces⟩ := h
    cases hroot : s.root? place.canonical with
    | none =>
      have hsame : s.remove place = (s, none) := by
        rw [remove]
        simp only [hroot]
      rw [hsame] at hplaces
      simp only [removeEach, hsame]
      exact ih hplaces
    | some root =>
      have hanswer : (s.remove place).2 = some (place.canonical, root) := by
        rw [remove]
        simp only [hroot]
      simp [hanswer] at hplace

/-- Removing some canonical places leaves all other roots alone. -/
theorem flagsAt?_removeEach {places : List Location}
    (hcanonical : ∀ place ∈ places, place.canonical = place) (q : Location) :
    (s.removeEach places).1.flagsAt? q = if q ∈ places then none else s.flagsAt? q := by
  induction places generalizing s with
  | nil => rfl
  | cons place places ih =>
    obtain ⟨hplace, hcanonical⟩ := List.forall_mem_cons.1 hcanonical
    simp only [removeEach, ih hcanonical, flagsAt?_remove, hplace]
    by_cases hq : q = place <;> by_cases hmem : q ∈ places <;> simp [hq, hmem]

/-! ### Kinds of notifications -/

/-- Only notifications of one kind were queued in between. -/
def Queues (Q : RootEvent → Prop) (s s' : RootSet) : Prop :=
  ∃ events, s'.events = s.events ++ events ∧ ∀ event ∈ events, Q event

section

variable {Q Q' : RootEvent → Prop}

theorem Queues.refl (s : RootSet) : Queues Q s s :=
  ⟨[], (List.append_nil _).symm, fun _ h => absurd h List.not_mem_nil⟩

theorem Queues.trans (h : Queues Q s s') (h' : Queues Q s' s'') : Queues Q s s'' := by
  obtain ⟨events, hevents, hall⟩ := h
  obtain ⟨events', hevents', hall'⟩ := h'
  refine ⟨events ++ events', by rw [hevents', hevents, List.append_assoc], fun event hevent => ?_⟩
  exact (List.mem_append.1 hevent).elim (hall event) (hall' event)

theorem Queues.mono (h : Queues Q s s') (hQ : ∀ event, Q event → Q' event) : Queues Q' s s' := by
  obtain ⟨events, hevents, hall⟩ := h
  exact ⟨events, hevents, fun event hevent => hQ event (hall event hevent)⟩

theorem queues_foldl {α : Type} {f : RootSet → α → RootSet} {l : List α}
    (h : ∀ (s : RootSet), ∀ a ∈ l, Queues Q s (f s a)) (s : RootSet) :
    Queues Q s (l.foldl f s) := by
  induction l generalizing s with
  | nil => exact .refl s
  | cons a l ih =>
    obtain ⟨ha, hl⟩ := List.forall_mem_cons.1 (fun a ha s => h s a ha)
    exact (ha s).trans (ih (fun s a ha => hl a ha s) _)

end

/-- No root was removed in between. -/
def Spares (s s' : RootSet) : Prop := Queues (fun event => event.removed? = none) s s'

theorem Spares.refl (s : RootSet) : s.Spares s := Queues.refl s

theorem Spares.trans (h : s.Spares s') (h' : s'.Spares s'') : s.Spares s'' := Queues.trans h h'

theorem spares_add (s : RootSet) (place : Location) (flags : Flags) :
    s.Spares (s.add place flags).1 := by
  obtain ⟨events, hevents, hall⟩ := s.events_add place flags
  refine ⟨events, hevents, fun event hevent => ?_⟩
  rcases hall event hevent with rfl | rfl | ⟨root, rfl, -⟩ <;> rfl

theorem spares_foldl {α : Type} {f : RootSet → α → RootSet} (h : ∀ (s : RootSet) a, s.Spares (f s a))
    (s : RootSet) (l : List α) : s.Spares (l.foldl f s) :=
  queues_foldl (fun s a _ => h s a) s

/-! ### Roots that come -/

/-- Roots were added only at places of one kind. -/
def Adds (P : Location → Prop) (s s' : RootSet) : Prop :=
  Queues (fun event => ∀ q flags, event = .added q flags → P q) s s'

/-- Where there is a root already none is added. -/
theorem adds_of_isRoot (h : s.isRoot place.canonical = true) (flags : Flags) :
    Adds P s (s.add place flags).1 := by
  obtain ⟨root, hroot⟩ := isRoot_iff.1 h
  have hupdated : Adds P s (s.put place.canonical { root with flags } (.updated place.canonical)) :=
    ⟨[.updated place.canonical], rfl, by simp⟩
  rw [add, hroot]
  simp only
  split_ifs
  · exact .refl s
  · refine hupdated.trans ⟨_, rfl, fun event hevent q flags heq => ?_⟩
    obtain ⟨below, -, rfl⟩ := List.mem_map.1 hevent
    cases heq
  · exact hupdated

/-- What is done to a well-formed set adds roots only where they may be added. -/
theorem Change.adds {Q : Location → Prop} (h : Change P s s') (hs : s.WellFormed)
    (hP : ∀ place, P place → Q place.canonical) : Adds Q s s' := by
  have hnone (events : List RootEvent) (hevents : s'.events = s.events ++ events)
      (hall : ∀ event ∈ events, ∀ q flags, event ≠ .added q flags) : Adds Q s s' :=
    ⟨events, hevents, fun event hevent q flags heq => absurd heq (hall event hevent q flags)⟩
  cases h with
  | @add place flags hplace =>
    obtain ⟨events, hevents, hall⟩ := s.events_add place flags
    refine ⟨events, hevents, fun event hevent q flags' heq => ?_⟩
    subst heq
    rcases hall _ hevent with heq | heq | ⟨below, heq, -⟩
    · cases heq
      exact hP place hplace
    · cases heq
    · cases heq
  | restyle flags hroot => exact adds_of_isRoot ((hs.canonical _ hroot).2.symm ▸ hroot) flags
  | remove place =>
    cases hroot : s.root? place.canonical with
    | none =>
      have hsame : (s.remove place).1 = s := by
        rw [RootSet.remove]
        simp only [hroot]
      rw [hsame]
      exact .refl s
    | some root =>
      refine hnone [.removed place.canonical root.flags] ?_ (by simp)
      rw [RootSet.remove]
      simp only [hroot]
  | notify file recursive =>
    obtain ⟨events, heq, hchecks⟩ := s.checks_notify file recursive
    refine hnone events (by rw [heq]; rfl) fun event hevent q flags heq => ?_
    subst heq
    cases hchecks _ hevent
  | updateAll =>
    refine hnone _ rfl fun event hevent q flags heq => ?_
    obtain ⟨root, -, rfl⟩ := List.mem_map.1 hevent
    cases heq
  | recordVolume place volume =>
    exact hnone [] (by rw [events_recordVolume, List.append_nil]) (by simp)
  | setFilters filters => exact hnone [] (List.append_nil _).symm (by simp)

/-- Whatever is done to a well-formed set adds roots only where they may be added. -/
theorem Changes.adds {Q : Location → Prop} (h : Changes P s s') (hs : s.WellFormed)
    (hP : ∀ place, P place → place.IsSpelled ∧ Q place.canonical) : Adds Q s s' := by
  induction h with
  | refl => exact .refl s
  | tail hearlier hchange ih =>
    have hspelled := Changes.mono (fun place hplace => (hP place hplace).1) hearlier
    have hwellFormed := hspelled.wellFormed hs
    exact ih.trans (hchange.adds hwellFormed fun place hplace => (hP place hplace).2)

end RootSet

end IndexControl
