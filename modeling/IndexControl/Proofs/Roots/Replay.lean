import IndexControl.Proofs.Roots.Changes
import Mathlib.Data.Finset.Basic

/-!
# Replaying notifications about roots

Whoever has heard all notifications about a set of roots knows the places of the roots. Every
change of the set queues notifications that turn the places known before it into those known
after it, and each of them makes sense to a reader who knows what the earlier ones said.

## Main definitions

* `RootEvent.mirror`, `RootEvent.mirrorAll`: the places known after notifications.
* `RootEvent.Fits`, `RootEvent.AllFit`: notifications that make sense to a reader.
* `RootSet.Tells`: the notifications queued in between turn one set of places into another.

## Main results

* `RootSet.Changes.tells`: whatever is done to a set of roots, its queue tells of it.
-/

namespace IndexControl

namespace RootEvent

/-! ### Reading notifications -/

/-- The places of roots known after a notification. -/
def mirror (known : Finset Location) : RootEvent → Finset Location
  | added root _ => insert root known
  | removed root _ | absorbed root _ => known.erase root
  | updated _ | childUpdated .. => known

/-- The places of roots known after notifications in order. -/
def mirrorAll (known : Finset Location) (events : List RootEvent) : Finset Location :=
  events.foldl mirror known

/-- Whether a notification makes sense where these places of roots are known. -/
def Fits (known : Finset Location) : RootEvent → Prop
  | added root _ => root ∉ known
  | updated root | childUpdated root _ | removed root _ => root ∈ known
  | absorbed root into => root ∈ known ∧ into ∈ known ∧ root.isBelow into = true

/-- Whether each notification makes sense after the earlier ones. -/
def AllFit (known : Finset Location) : List RootEvent → Prop
  | [] => True
  | event :: rest => event.Fits known ∧ AllFit (event.mirror known) rest

variable {known : Finset Location} {events events' : List RootEvent} {event : RootEvent}

theorem mirrorAll_append (known : Finset Location) (events events' : List RootEvent) :
    mirrorAll known (events ++ events') = mirrorAll (mirrorAll known events) events' :=
  List.foldl_append

theorem allFit_append :
    AllFit known (events ++ events') ↔
      AllFit known events ∧ AllFit (mirrorAll known events) events' := by
  induction events generalizing known with
  | nil => simp [AllFit, mirrorAll]
  | cons event events ih =>
    simp only [List.cons_append, AllFit, ih, and_assoc]
    rfl

theorem AllFit.fits {before after : List RootEvent}
    (h : AllFit known (before ++ event :: after)) : event.Fits (mirrorAll known before) :=
  (allFit_append.1 h).2.1

/-- A freshness check is asked for where a root is known, and changes nothing that is known. -/
inductive IsCheck (known : Finset Location) : RootEvent → Prop
  | updated {root : Location} (h : root ∈ known) : IsCheck known (.updated root)
  | childUpdated {root : Location} (file : Location) (h : root ∈ known) :
    IsCheck known (.childUpdated root file)

theorem allFit_checks (h : ∀ event ∈ events, event.IsCheck known) :
    AllFit known events ∧ mirrorAll known events = known := by
  induction events with
  | nil => exact ⟨trivial, rfl⟩
  | cons event events ih =>
    obtain ⟨hfit, hknown⟩ := ih fun event hmem => h event (List.mem_cons_of_mem _ hmem)
    cases h event List.mem_cons_self with
    | updated hroot => exact ⟨⟨hroot, hfit⟩, hknown⟩
    | childUpdated file hroot => exact ⟨⟨hroot, hfit⟩, hknown⟩

theorem allFit_absorbed {into : Location} {roots : List Location} (hinto : into ∈ known)
    (hknown : ∀ root ∈ roots, root ∈ known) (hbelow : ∀ root ∈ roots, root.isBelow into = true)
    (hnodup : roots.Nodup) :
    AllFit known (roots.map (.absorbed · into)) ∧
      mirrorAll known (roots.map (.absorbed · into)) = known \ roots.toFinset := by
  induction roots generalizing known with
  | nil => exact ⟨trivial, by simp [mirrorAll]⟩
  | cons root roots ih =>
    simp only [List.forall_mem_cons] at hknown hbelow
    obtain ⟨hroot, hnodup⟩ := List.nodup_cons.1 hnodup
    have hne : into ≠ root := by
      rintro rfl
      rw [Location.isBelow_self] at hbelow
      exact Bool.noConfusion hbelow.1
    have hrest (other) (hmem : other ∈ roots) : other ∈ known.erase root :=
      Finset.mem_erase.2 ⟨fun heq => hroot (heq ▸ hmem), hknown.2 other hmem⟩
    obtain ⟨hfit, hmirror⟩ := ih (Finset.mem_erase.2 ⟨hne, hinto⟩) hrest hbelow.2 hnodup
    refine ⟨⟨⟨hknown.1, hinto, hbelow.1⟩, hfit⟩, hmirror.trans ?_⟩
    ext place
    simp only [Finset.mem_sdiff, Finset.mem_erase, List.mem_toFinset, List.mem_cons]
    tauto

end RootEvent

namespace RootSet

variable {P : Location → Prop} {s s' s'' : RootSet} {place : Location}

/-- The places of the roots as a finite set. -/
def placeSet (s : RootSet) : Finset Location := s.places.toFinset

theorem mem_placeSet_iff : place ∈ s.placeSet ↔ s.isRoot place = true := by
  rw [placeSet, List.mem_toFinset, mem_places_iff, isRoot_iff]

/-! ### What a queue tells -/

/-- The notifications queued between two sets of roots make sense where the first places are
known, and the second ones are known after them. -/
def Tells (s s' : RootSet) : Prop :=
  ∃ events, s'.events = s.events ++ events ∧ RootEvent.AllFit s.placeSet events ∧
    RootEvent.mirrorAll s.placeSet events = s'.placeSet

theorem Tells.refl (s : RootSet) : s.Tells s := ⟨[], by simp, trivial, rfl⟩

theorem Tells.trans (h : s.Tells s') (h' : s'.Tells s'') : s.Tells s'' := by
  obtain ⟨events, hevents, hfit, hmirror⟩ := h
  obtain ⟨events', hevents', hfit', hmirror'⟩ := h'
  refine ⟨events ++ events', by rw [hevents', hevents, List.append_assoc], ?_, ?_⟩
  · exact RootEvent.allFit_append.2 ⟨hfit, by rwa [hmirror]⟩
  · rw [RootEvent.mirrorAll_append, hmirror, hmirror']

/-- Nothing is queued and no root comes or goes. -/
theorem Tells.of_quiet (hevents : s'.events = s.events)
    (hroot : ∀ q, s'.isRoot q = s.isRoot q) : s.Tells s' := by
  refine ⟨[], by rw [hevents, List.append_nil], trivial, ?_⟩
  ext q
  rw [RootEvent.mirrorAll, List.foldl_nil, mem_placeSet_iff, mem_placeSet_iff, hroot]

theorem tells_queue {events : List RootEvent} (h : ∀ event ∈ events, event.IsCheck s.placeSet) :
    s.Tells (s.queue events) :=
  ⟨events, rfl, RootEvent.allFit_checks h⟩

theorem placeSet_put (s : RootSet) (place : Location) (root : Root) (event : RootEvent) :
    (s.put place root event).placeSet = insert place s.placeSet := by
  ext q
  simp only [mem_placeSet_iff, isRoot_iff, root?_put, Finset.mem_insert]
  by_cases hq : q = place <;> simp [hq]

theorem tells_put_updated (h : s.isRoot place = true) (root : Root) :
    s.Tells (s.put place root (.updated place)) := by
  have hmem := mem_placeSet_iff.2 h
  exact ⟨[.updated place], rfl, ⟨hmem, trivial⟩,
    by rw [placeSet_put, Finset.insert_eq_of_mem hmem]; rfl⟩

theorem tells_put_added (h : s.isRoot place = false) (root : Root) (flags : Flags) :
    s.Tells (s.put place root (.added place flags)) := by
  refine ⟨[.added place flags], rfl, ⟨?_, trivial⟩, (placeSet_put ..).symm⟩
  rw [RootEvent.Fits, mem_placeSet_iff, h]
  exact Bool.noConfusion

theorem tells_absorb (h : s.isRoot place = true) : s.Tells (s.absorb place) := by
  have hnodup : (s.below place).Nodup := by
    rw [below_eq_filter]
    exact (OrderedMap.nodup_keys s.roots).filter _
  obtain ⟨hfit, hmirror⟩ := RootEvent.allFit_absorbed (mem_placeSet_iff.2 h)
    (fun root hroot => mem_placeSet_iff.2 (mem_below_iff.1 hroot).1)
    (fun root hroot => (mem_below_iff.1 hroot).2) hnodup
  refine ⟨_, rfl, hfit, hmirror.trans ?_⟩
  ext q
  simp only [Finset.mem_sdiff, List.mem_toFinset, mem_below_iff, mem_placeSet_iff, isRoot_iff,
    root?_absorb]
  cases q.isBelow place <;> simp

/-- What adding a root queues tells of the root and of those that it absorbs. -/
theorem tells_add (s : RootSet) (place : Location) (flags : Flags) :
    s.Tells (s.add place flags).1 := by
  have hput (root : Root) (event : RootEvent) :
      (s.put place.canonical root event).isRoot place.canonical = true :=
    isRoot_iff.2 ⟨root, by simp [root?_put]⟩
  rw [add]
  cases hroot : s.root? place.canonical with
  | some root =>
    have hupdated := tells_put_updated (isRoot_iff.2 ⟨root, hroot⟩) { root with flags }
    by_cases hflags : root.flags = flags
    · simp only [hflags, ↓reduceIte]
      exact .refl s
    · simp only [hflags, ↓reduceIte]
      split
      · exact hupdated.trans (tells_absorb (hput ..))
      · exact hupdated
  | none =>
    have hnew : s.isRoot place.canonical = false := by
      rw [isRoot, OrderedMap.contains, ← root?, hroot]
      rfl
    have hadded := tells_put_added hnew ⟨flags, none⟩ flags
    cases s.recursiveAbove? place.canonical with
    | some above => exact .refl s
    | none =>
      simp only
      split
      · exact hadded.trans (tells_absorb (hput ..))
      · exact hadded

theorem tells_remove (s : RootSet) (place : Location) : s.Tells (s.remove place).1 := by
  have hrooted (q) := root?_remove s place q
  rw [remove] at hrooted ⊢
  cases hroot : s.root? place.canonical with
  | none => exact .refl s
  | some root =>
    simp only [hroot] at hrooted
    refine ⟨[.removed place.canonical root.flags], rfl,
      ⟨mem_placeSet_iff.2 (isRoot_iff.2 ⟨root, hroot⟩), trivial⟩, ?_⟩
    ext q
    rw [RootEvent.mirrorAll, List.foldl_cons, List.foldl_nil, RootEvent.mirror, Finset.mem_erase,
      mem_placeSet_iff, mem_placeSet_iff, isRoot_iff, isRoot_iff, hrooted]
    by_cases hq : q = place.canonical <;> simp [hq]

theorem isRoot_of_covering? {file root : Location} (h : s.covering? file = some root) :
    s.isRoot root = true := by
  have hsome := List.find?_some h
  cases hroot : s.root? root with
  | none => simp [hroot] at hsome
  | some found => exact isRoot_iff.2 ⟨found, hroot⟩

/-- Asking for freshness checks queues just those. -/
theorem checks_notify (s : RootSet) (file : Location) (recursive : Bool) :
    ∃ events, (s.notify file recursive).1 = s.queue events ∧
      ∀ event ∈ events, event.IsCheck s.placeSet := by
  refine ⟨_, rfl, fun event hevent => ?_⟩
  rw [List.mem_append] at hevent
  rcases hevent with hown | hnested
  · split at hown
    · next hroot =>
      obtain rfl := List.mem_singleton.1 hown
      exact .updated (mem_placeSet_iff.2 hroot)
    · split at hown
      · next root hcovering =>
        obtain rfl := List.mem_singleton.1 hown
        exact .childUpdated _ (mem_placeSet_iff.2 (isRoot_of_covering? hcovering))
      · exact absurd hown List.not_mem_nil
  · split at hnested
    · obtain ⟨root, hroot, rfl⟩ := List.mem_map.1 hnested
      exact .updated (mem_placeSet_iff.2 (mem_below_iff.1 hroot).1)
    · exact absurd hnested List.not_mem_nil

theorem tells_notify (s : RootSet) (file : Location) (recursive : Bool) :
    s.Tells (s.notify file recursive).1 := by
  obtain ⟨events, heq, hchecks⟩ := s.checks_notify file recursive
  exact heq ▸ tells_queue hchecks

theorem tells_updateAll (s : RootSet) : s.Tells s.updateAll := by
  refine tells_queue fun event hevent => ?_
  obtain ⟨root, hroot, rfl⟩ := List.mem_map.1 hevent
  exact .updated (List.mem_toFinset.2 hroot)

theorem isRoot_recordVolume (s : RootSet) (place : Location) (volume : Option String)
    (q : Location) : (s.recordVolume place volume).1.isRoot q = s.isRoot q := by
  rw [Bool.eq_iff_iff, isRoot_iff_flagsAt?, isRoot_iff_flagsAt?, flagsAt?_recordVolume]

theorem events_recordVolume (s : RootSet) (place : Location) (volume : Option String) :
    (s.recordVolume place volume).1.events = s.events := by
  rw [recordVolume]
  cases s.root? place with
  | none => rfl
  | some root => cases hvolume : root.volume <;> simp only [hvolume]

/-! ### Whatever is done is told -/

theorem Change.tells (h : Change P s s') : s.Tells s' := by
  cases h with
  | add flags => exact tells_add ..
  | restyle flags => exact tells_add ..
  | remove place => exact tells_remove s place
  | notify file recursive => exact tells_notify s file recursive
  | updateAll => exact tells_updateAll s
  | recordVolume place volume =>
    exact .of_quiet (events_recordVolume s place volume) (isRoot_recordVolume s place volume)
  | setFilters filters => exact .of_quiet rfl fun _ => rfl

/-- Whatever is done to a set of roots, its queue tells of it. -/
theorem Changes.tells (h : Changes P s s') : s.Tells s' := by
  induction h with
  | refl => exact .refl s
  | tail _ hchange ih => exact ih.trans hchange.tells

end RootSet

end IndexControl
