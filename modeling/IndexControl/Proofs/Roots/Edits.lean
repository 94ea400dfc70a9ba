import IndexControl.Proofs.Roots.Folding
import IndexControl.Proofs.Roots.Shelter
import IndexControl.Proofs.Roots.Volume

/-!
# Edits of the set of roots

An edit is anything that is done to a set of roots but to record a volume. Edits make roots plain
only at some places. What they take from a root can be read off what they queue: the recorded volume
of a root goes only with the root, and a place that loses its owner does so because a root there or
above is removed, or because one above is made plain.

## Main definitions

* `RootSet.Edit`, `RootSet.Edits`: one edit, and several in order.
* `RootSet.Explains`: what was queued explains why a place has no owner.
* `RootSet.Revises`: what edits leave, seen from what they queue.

## Main results

* `RootSet.Edits.changes`, `RootSet.Edits.flattensAt`: edits are changes, and where they make roots
  plain.
* `RootSet.Edits.revises`: what edits leave.
-/

namespace IndexControl

namespace RootSet

variable {P : Location → Prop} {s s' s'' : RootSet} {place q above : Location} {flags : Flags}
  {news news' : List RootEvent}

/-- One edit of a set of roots. A root that becomes plain does so where `P` holds. -/
inductive Edit (P : Location → Prop) (s : RootSet) : RootSet → Prop
  | add {place : Location} {flags : Flags} (hplace : place.IsSpelled)
    (hflags : flags.isRecursive = true ∨ P place.canonical ∨ s.IsPlain place.canonical) :
    Edit P s (s.add place flags).1
  | remove (place : Location) : Edit P s (s.remove place).1
  | notify (file : Location) (recursive : Bool) : Edit P s (s.notify file recursive).1
  | updateAll : Edit P s s.updateAll
  | setFilters (filters : Filters) : Edit P s (s.setFilters filters)

/-- Several edits in order. -/
abbrev Edits (P : Location → Prop) : RootSet → RootSet → Prop := Relation.ReflTransGen (Edit P)

theorem Edit.change (h : Edit P s s') : Change Location.IsSpelled s s' := by
  cases h with
  | add hplace => exact .add _ hplace
  | remove place => exact .remove place
  | notify file recursive => exact .notify file recursive
  | updateAll => exact .updateAll
  | setFilters filters => exact .setFilters filters

theorem Edits.changes (h : Edits P s s') : Changes Location.IsSpelled s s' :=
  Relation.ReflTransGen.mono (fun _ _ => Edit.change) _ _ h

theorem Edits.wellFormed (h : Edits P s s') (hs : s.WellFormed) : s'.WellFormed :=
  h.changes.wellFormed hs

/-! ### Where edits make roots plain -/

theorem Edit.flattensAt (h : Edit P s s') (hs : s.WellFormed) : FlattensAt P s s' := by
  cases h with
  | add hplace hflags =>
    rintro q ⟨f, hf, hplain⟩
    rw [← add_canonical, flagsAt?_add hs (Location.isCanonical_canonical hplace).2] at hf
    split_ifs at hf with hcovered hself
    · exact .inr ⟨f, hf, hplain⟩
    · obtain rfl := Option.some.inj hf
      exact hself ▸ hflags.resolve_left (Bool.eq_false_iff.1 hplain)
    · exact .inr ⟨f, hf, hplain⟩
  | remove place =>
    refine flattensAt_of_flagsAt? fun q f hf => ?_
    rw [flagsAt?_remove] at hf
    split_ifs at hf
    exact hf
  | notify => exact flattensAt_of_flagsAt? fun _ _ hf => hf
  | updateAll => exact flattensAt_of_flagsAt? fun _ _ hf => hf
  | setFilters => exact flattensAt_of_flagsAt? fun _ _ hf => hf

/-- Edits make roots plain only where `P` holds. -/
theorem Edits.flattensAt (h : Edits P s s') (hs : s.WellFormed) : FlattensAt P s s' := by
  induction h with
  | refl => exact .refl s
  | tail hearlier hedit ih => exact ih.trans (hedit.flattensAt (Edits.wellFormed hearlier hs))

/-! ### What edits leave -/

/-- What was queued explains why a place has no owner: a root there or above was removed, or one
above was updated, is plain now, and `P` holds there. -/
def Explains (P : Location → Prop) (news : List RootEvent) (s : RootSet) (q : Location) : Prop :=
  (∃ event ∈ news, ∃ root, event.removed? = some root ∧ q.startsWith root = true) ∨
    ∃ above, q.isBelow above = true ∧ P above ∧ s.IsPlain above ∧ .updated above ∈ news

/-- What edits leave, seen from what they queue. A recorded volume was so before, and its root has
not gone in between. An owned place stays owned, and a plain root stays one or leaves everything
below owned, unless what was queued explains why not. -/
structure Revises (P : Location → Prop) (news : List RootEvent) (s s' : RootSet) : Prop where
  volume : ∀ q volume, s'.volumeAt? q = some volume →
    s.volumeAt? q = some volume ∧ ∀ event ∈ news, event.ended? ≠ some q
  owned : ∀ q, s.IsOwned q → s'.IsOwned q ∨ Explains P news s' q
  plain : ∀ q above, q.isBelow above = true → s.IsPlain above →
    s'.IsOwned q ∨ s'.IsPlain above ∨ Explains P news s' q

theorem Explains.append_left (h : Explains P news' s q) (news : List RootEvent) :
    Explains P (news ++ news') s q := by
  rcases h with ⟨event, hevent, hremoved⟩ | ⟨above, hbelow, hP, hplain, hevent⟩
  · exact .inl ⟨event, List.mem_append_right _ hevent, hremoved⟩
  · exact .inr ⟨above, hbelow, hP, hplain, List.mem_append_right _ hevent⟩

/-- An explanation holds good as long as the place has no owner. -/
theorem Explains.revises (h : Explains P news s q) (hlater : Revises P news' s s') :
    s'.IsOwned q ∨ Explains P (news ++ news') s' q := by
  rcases h with ⟨event, hevent, hremoved⟩ | ⟨above, hbelow, hP, hplain, hevent⟩
  · exact .inr (.inl ⟨event, List.mem_append_left _ hevent, hremoved⟩)
  · rcases hlater.plain q above hbelow hplain with howned | hplain | hexplains
    · exact .inl howned
    · exact .inr (.inr ⟨above, hbelow, hP, hplain, List.mem_append_left _ hevent⟩)
    · exact .inr (hexplains.append_left news)

namespace Revises

/-- Nothing has been done to the roots themselves. -/
theorem of_root? (hroot : ∀ q, s'.root? q = s.root? q)
    (hnews : ∀ event ∈ news, event.ended? = none) : Revises P news s s' where
  volume q volume hvolume := by
    rw [volumeAt?, hroot] at hvolume
    exact ⟨hvolume, fun event hevent => by simp [hnews event hevent]⟩
  owned q howned := .inl ((isOwned_congr fun q => by rw [flagsAt?, hroot, flagsAt?]).2 howned)
  plain q above _ hplain := .inr (.inl (by rwa [IsPlain, flagsAt?, hroot]))

theorem refl (s : RootSet) : Revises P [] s s :=
  of_root? (fun _ => rfl) fun _ h => absurd h List.not_mem_nil

theorem trans (h : Revises P news s s') (h' : Revises P news' s' s'') :
    Revises P (news ++ news') s s'' where
  volume q volume hvolume := by
    obtain ⟨hbefore, hlater⟩ := h'.volume q volume hvolume
    obtain ⟨hfirst, hearlier⟩ := h.volume q volume hbefore
    exact ⟨hfirst, List.forall_mem_append.2 ⟨hearlier, hlater⟩⟩
  owned q howned := by
    rcases h.owned q howned with howned | hexplains
    · exact (h'.owned q howned).imp_right (·.append_left news)
    · exact hexplains.revises h'
  plain q above hbelow hplain := by
    rcases h.plain q above hbelow hplain with howned | hplain | hexplains
    · exact (h'.owned q howned).imp_right fun hexplains => .inr (hexplains.append_left news)
    · exact (h'.plain q above hbelow hplain).imp_right (·.imp_right (·.append_left news))
    · exact (hexplains.revises h').imp_right .inr

end Revises

/-! ### Single edits -/

/-- Once a recursive root has been added at a place, one lies there or above. -/
theorem WellFormed.exists_recursive_add (h : s.WellFormed) (hplace : place.IsCanonical)
    (hrec : flags.isRecursive = true) :
    ∃ root, (s.add place flags).1.isRecursiveRoot root = true ∧ place.startsWith root = true := by
  have hflags := flagsAt?_add h hplace.2 flags
  by_cases hcovered : (s.recursiveAbove? place).isSome = true
  · obtain ⟨above, habove, hbelow⟩ := h.recursiveAbove?_isSome_iff.1 hcovered
    refine ⟨above, ?_, Location.startsWith_of_isBelow hbelow⟩
    rwa [isRecursiveRoot_eq_any, hflags, if_pos hcovered, ← isRecursiveRoot_eq_any]
  · refine ⟨place, ?_, Location.startsWith_self place⟩
    rw [isRecursiveRoot_eq_any, hflags, if_neg hcovered, if_pos rfl]
    exact hrec

/-- A recursive root that is added as a plain one is told to be updated. -/
theorem events_add_flattened (hplace : place.canonical = place)
    (hroot : s.isRecursiveRoot place = true) (hplain : flags.isRecursive = false) :
    (s.add place flags).1.events = s.events ++ [.updated place] := by
  obtain ⟨root, hfind, hrec⟩ := (Option.any_eq_true ..).1 hroot
  have hne : root.flags ≠ flags := by
    rintro rfl
    exact Bool.noConfusion (hrec.symm.trans hplain)
  rw [add, hplace, hfind]
  simp only [if_neg hne, hplain, Bool.false_and, Bool.false_eq_true, if_false]
  rfl

/-- A recorded volume stays with the root for which it was recorded. -/
theorem WellFormed.volumeAt?_of_add (h : s.WellFormed) (hplace : place.IsCanonical)
    {volume : Option String} (hvolume : (s.add place flags).1.volumeAt? q = some volume) :
    s.volumeAt? q = some volume := by
  rw [volumeAt?, root?_add h hplace.2] at hvolume
  split_ifs at hvolume with hcovered hself hbelow
  · exact hvolume
  · rw [hself]
    exact hvolume
  · contradiction
  · exact hvolume

section

variable (h : s.WellFormed) (hplace : place.IsCanonical)

include h hplace

/-- What an addition ends is no root afterwards: it was folded into a recursive root above. -/
theorem WellFormed.not_ended_add (hnews : (s.add place flags).1.events = s.events ++ news)
    (hroot : (s.add place flags).1.isRoot q = true) : ∀ event ∈ news, event.ended? ≠ some q := by
  obtain ⟨events, hevents, hall⟩ := s.events_add place flags
  obtain rfl := List.append_cancel_left (hnews.symm.trans hevents)
  intro event hevent hended
  rcases hall event hevent with rfl | rfl | ⟨other, rfl, hrec, hbelow⟩
  · contradiction
  · contradiction
  · obtain rfl := Option.some.inj hended
    rw [hplace.2] at hbelow
    obtain ⟨root, hroot', hstart⟩ := h.exists_recursive_add hplace hrec
    have hout := (h.add hplace.1 flags).outermost other root hroot hroot'
    rw [Location.isBelow_of_isBelow_of_startsWith hbelow hstart] at hout
    exact Bool.noConfusion hout

/-- A recursive root that is added as a plain one is plain then. -/
theorem WellFormed.isPlain_add (hroot : s.isRecursiveRoot place = true)
    (hplain : flags.isRecursive = false) : (s.add place flags).1.IsPlain place := by
  obtain ⟨root, hfind⟩ := isRoot_iff.1 (isRoot_of_isRecursiveRoot hroot)
  have huncovered : ¬(s.recursiveAbove? place).isSome = true := by
    rw [h.recursiveAbove?_eq_none hfind]
    simp
  refine ⟨flags, ?_, hplain⟩
  rw [flagsAt?_add h hplace.2, if_neg huncovered, if_pos rfl]

/-- An addition takes away the owner of a place only by making this owner plain. -/
theorem WellFormed.owned_add (hnews : (s.add place flags).1.events = s.events ++ news)
    (hflags : flags.isRecursive = true ∨ P place ∨ s.IsPlain place) (howned : s.IsOwned q) :
    (s.add place flags).1.IsOwned q ∨ Explains P news (s.add place flags).1 q := by
  cases hrec : flags.isRecursive with
  | true => exact .inl ((h.shelters_add hplace.1 hrec).owned q howned)
  | false =>
    rcases h.isOwned_iff.1 howned with hroot | ⟨above, habove, hq⟩
    · exact .inl (isOwned_of_isRoot ((h.retains_add hplace.1 hrec).isRoot q hroot))
    · by_cases hself : above = place
      · subst hself
        have hnot : ¬s.IsPlain above := by
          rintro ⟨f, hf, hplain⟩
          obtain ⟨g, hg, hrec'⟩ := isRecursiveRoot_iff.1 habove
          obtain rfl := Option.some.inj (hf.symm.trans hg)
          exact Bool.noConfusion (hplain.symm.trans hrec')
        have hP := (hflags.resolve_left (Bool.eq_false_iff.1 hrec)).resolve_right hnot
        have hupdated := events_add_flattened hplace.2 habove hrec
        obtain rfl := List.append_cancel_left (hnews.symm.trans hupdated)
        exact .inr (.inr ⟨above, hq, hP, h.isPlain_add hplace habove hrec,
          List.mem_singleton_self _⟩)
      · have hkept := (@isRecursiveRoot_add_plain s (fun _ => flags) place above h hplace hrec).2
          ⟨hself, habove⟩
        exact .inl ((h.add hplace.1 flags).isOwned_iff.2 (.inr ⟨above, hkept, hq⟩))

/-- An addition leaves a plain root plain, or what is below it gets an owner. -/
theorem WellFormed.plain_add (hq : q.isBelow above = true) (hplain : s.IsPlain above) :
    (s.add place flags).1.IsOwned q ∨ (s.add place flags).1.IsPlain above := by
  obtain ⟨f, hf, hflat⟩ := hplain
  have hadded := flagsAt?_add h hplace.2 flags above
  cases hrec : flags.isRecursive with
  | true =>
    by_cases hstart : above.startsWith place = true
    · exact .inl (h.isOwned_add hplace hrec
        (Location.startsWith_trans (Location.startsWith_of_isBelow hq) hstart))
    · have hne : above ≠ place := fun heq => hstart (heq ▸ Location.startsWith_self above)
      have hout : ¬above.isBelow place = true := fun hbelow =>
        hstart (Location.startsWith_of_isBelow hbelow)
      refine .inr ⟨f, ?_, hflat⟩
      rw [hadded, if_neg hne, hrec, Bool.true_and, if_neg hout, ite_self]
      exact hf
  | false =>
    refine .inr ?_
    rw [IsPlain, hadded, hrec, Bool.false_and, if_neg Bool.false_ne_true]
    split_ifs
    · exact ⟨f, hf, hflat⟩
    · exact ⟨flags, rfl, hrec⟩
    · exact ⟨f, hf, hflat⟩

end

theorem WellFormed.revises_add (h : s.WellFormed) (hplace : place.IsSpelled)
    (hflags : flags.isRecursive = true ∨ P place.canonical ∨ s.IsPlain place.canonical) :
    ∃ news, (s.add place flags).1.events = s.events ++ news ∧
      Revises P news s (s.add place flags).1 := by
  have hc := Location.isCanonical_canonical hplace
  rw [← s.add_canonical place flags]
  obtain ⟨news, hnews, -⟩ := s.events_add place.canonical flags
  refine ⟨news, hnews, fun q volume hvolume => ?_, fun q howned => ?_, fun q above hq hplain => ?_⟩
  · exact ⟨h.volumeAt?_of_add hc hvolume, h.not_ended_add hc hnews (isRoot_of_volumeAt? hvolume)⟩
  · exact h.owned_add hc hnews hflags howned
  · exact (h.plain_add hc hq hplain).imp_right .inl

theorem WellFormed.revises_remove (h : s.WellFormed) (place : Location) :
    ∃ news, (s.remove place).1.events = s.events ++ news ∧
      Revises P news s (s.remove place).1 := by
  cases hroot : s.root? place.canonical with
  | none =>
    have hsame : (s.remove place).1 = s := by
      rw [RootSet.remove]
      simp only [hroot]
    rw [hsame]
    exact ⟨[], (List.append_nil _).symm, .refl s⟩
  | some root =>
    have hevents : (s.remove place).1.events =
        s.events ++ [.removed place.canonical root.flags] := by
      rw [RootSet.remove]
      simp only [hroot]
    have hremoved := flagsAt?_remove s place
    -- What depends on another root is not touched, and what depends on this one is explained.
    have htold {q : Location} (hq : q.startsWith place.canonical = true) (s' : RootSet) :
        Explains P [.removed place.canonical root.flags] s' q :=
      .inl ⟨_, List.mem_singleton_self _, place.canonical, rfl, hq⟩
    refine ⟨_, hevents, fun q volume hvolume => ?_, fun q howned => ?_, fun q above hq hplain => ?_⟩
    · rw [volumeAt?, root?_remove] at hvolume
      split_ifs at hvolume with hself
      · contradiction
      · refine ⟨hvolume, fun event hevent => ?_⟩
        rw [List.mem_singleton.1 hevent]
        exact fun hended => hself (Option.some.inj hended).symm
    · rcases h.isOwned_iff.1 howned with hroot | ⟨above, habove, hq⟩
      · by_cases hself : q = place.canonical
        · exact .inr (htold (hself ▸ Location.startsWith_self q) _)
        · refine .inl (isOwned_of_isRoot ?_)
          rwa [isRoot_iff_flagsAt?, hremoved, if_neg hself, ← isRoot_iff_flagsAt?]
      · by_cases hself : above = place.canonical
        · exact .inr (htold (hself ▸ Location.startsWith_of_isBelow hq) _)
        · refine .inl ((h.remove place).isOwned_iff.2 (.inr ⟨above, ?_, hq⟩))
          rwa [isRecursiveRoot_eq_any, hremoved, if_neg hself, ← isRecursiveRoot_eq_any]
    · by_cases hself : above = place.canonical
      · exact .inr (.inr (htold (hself ▸ Location.startsWith_of_isBelow hq) _))
      · refine .inr (.inl ?_)
        rwa [IsPlain, hremoved, if_neg hself]

theorem Edit.revises (h : Edit P s s') (hs : s.WellFormed) :
    ∃ news, s'.events = s.events ++ news ∧ Revises P news s s' := by
  cases h with
  | add hplace hflags => exact hs.revises_add hplace hflags
  | remove place => exact hs.revises_remove place
  | notify file recursive =>
    obtain ⟨news, hnews, hended⟩ := s.events_notify file recursive
    exact ⟨news, hnews, .of_root? (fun _ => rfl) hended⟩
  | updateAll =>
    refine ⟨_, rfl, .of_root? (fun _ => rfl) fun event hevent => ?_⟩
    obtain ⟨root, -, rfl⟩ := List.mem_map.1 hevent
    rfl
  | setFilters filters => exact ⟨[], (List.append_nil _).symm, .of_root? (fun _ => rfl) (by simp)⟩

/-- What edits leave can be read off what they queue. -/
theorem Edits.revises (h : Edits P s s') (hs : s.WellFormed) :
    ∃ news, s'.events = s.events ++ news ∧ Revises P news s s' := by
  induction h with
  | refl => exact ⟨[], (List.append_nil _).symm, .refl s⟩
  | tail hearlier hedit ih =>
    obtain ⟨news, hnews, hrevises⟩ := ih
    obtain ⟨news', hnews', hrevises'⟩ := hedit.revises (Edits.wellFormed hearlier hs)
    exact ⟨news ++ news', by rw [hnews', hnews, List.append_assoc], hrevises.trans hrevises'⟩

end RootSet

end IndexControl
