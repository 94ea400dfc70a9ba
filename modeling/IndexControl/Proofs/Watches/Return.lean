import IndexControl.Proofs.Roots.Shelter
import IndexControl.Proofs.Watches.Attached

/-!
# Suspended places that stay owned

A place is suspended when its root is folded into another one, which owns it then, and a request
leaves owned what was so. When suspended
roots are brought back, each suspended place that nobody owns becomes a root or lies below one that
has come back before it.

## Main results

* `Watches.contains_suspended_followAll`: only roots that are folded in are suspended anew.
* `Watches.shelters_restoreSuspended`, `Watches.isOwned_restoreSuspended`: the return of suspended
  roots leaves all suspended places owned.
-/

namespace IndexControl

namespace Watches

open RootSet

variable {w : Watches} {s : RootSet} {place q : Location} {places : List Location}
  {events : List RootEvent}

/-! ### What is suspended -/

theorem contains_suspended_foldInto {root into : Location}
    (h : (w.foldInto root into).suspended.contains q = true) :
    w.suspended.contains q = true ∨ q = root := by
  rcases foldInto_cases w root into with
    ⟨-, heq⟩ | ⟨record, -, ⟨-, -, heq⟩ | ⟨-, -, heq⟩ | ⟨-, heq⟩⟩ <;> rw [heq] at h
  · exact .inl h
  · exact .inl h
  · exact (OrderedMap.contains_insert.1 h).symm
  · exact .inl h

/-- A place that following suspends was that of a root that is folded into another one. -/
theorem contains_suspended_followAll (h : (w.followAll events).suspended.contains q = true) :
    w.suspended.contains q = true ∨ ∃ into, .absorbed q into ∈ events := by
  induction events generalizing w with
  | nil => exact .inl h
  | cons event events ih =>
    rcases ih h with hfirst | ⟨into, hevent⟩
    · cases event with
      | absorbed root into =>
        refine (contains_suspended_foldInto hfirst).imp_right ?_
        rintro rfl
        exact ⟨into, List.mem_cons_self⟩
      | removed root flags => exact .inl hfirst
      | added root flags => exact .inl hfirst
      | updated root => exact .inl hfirst
      | childUpdated root file => exact .inl hfirst
    · exact .inr ⟨into, List.mem_cons_of_mem _ hevent⟩

theorem contains_suspended_of_restoreOne
    (h : (w.restoreOne s place).1.suspended.contains q = true) : w.suspended.contains q = true := by
  rcases (restoreOne_cases w s place).2 with heq | ⟨record, -, -, heq⟩ <;> rw [heq] at h
  · exact h
  · exact (OrderedMap.contains_erase.1 h).1

theorem contains_suspended_of_restoreSuspended
    (h : (w.restoreSuspended s).1.suspended.contains q = true) : w.suspended.contains q = true := by
  rw [restoreSuspended] at h
  generalize w.suspended.keys.filter _ = places at h
  induction places generalizing w s with
  | nil => exact h
  | cons place places ih => exact contains_suspended_of_restoreOne (ih h)

/-! ### Requests -/

section

variable {p : ProbedRequest} {a : Applied} (happly : w.apply s p = .ok a)

include happly

theorem suspended_apply : a.watches.suspended = w.suspended := by
  have hcredit (w : Watches) (root : Location) (requester? : Option Requester) :
      (w.credit root requester?).suspended = w.suspended := by
    cases requester? <;> rfl
  rcases apply_cases happly with ⟨-, rfl⟩ | ⟨-, owner, -, rfl⟩ | ⟨-, -, -, rfl⟩
  · rfl
  · exact hcredit ..
  · exact hcredit ..

/-- A request removes no root. -/
theorem spares_apply : s.Spares a.roots := by
  rcases apply_cases happly with ⟨-, rfl⟩ | ⟨-, owner, -, rfl⟩ | ⟨-, -, -, rfl⟩
  · exact .refl s
  · obtain ⟨events, hevents, hended⟩ := s.events_notify p.place true
    refine ⟨events, hevents, fun event hevent => ?_⟩
    have hnone := hended event hevent
    cases event <;> simp_all [RootEvent.ended?, RootEvent.removed?]
  · exact spares_add s p.place .onDemand

/-- A request shelters what is owned. -/
theorem shelters_apply (hs : s.WellFormed) (hplace : p.place.IsSpelled) : s.Shelters a.roots := by
  rcases apply_cases happly with ⟨-, rfl⟩ | ⟨-, owner, -, rfl⟩ | ⟨-, -, -, rfl⟩
  · exact .refl s
  · obtain ⟨events, hevents, hended⟩ := s.events_notify p.place true
    refine ⟨fun _ => id, fun root into hevent => .inl ?_⟩
    rw [hevents, List.mem_append] at hevent
    exact hevent.resolve_right fun hnew => by simpa [RootEvent.ended?] using hended _ hnew
  · exact hs.shelters_add hplace isRecursive_onDemand

end

/-! ### The return of suspended roots -/

/-- Bringing back suspended roots adds roots at their places. -/
theorem roots_restoreEach (w : Watches) (s : RootSet) (places : List Location) :
    (w.restoreEach s places).2.1 = s.addEach (fun _ => .onDemand) places := by
  induction places generalizing w s with
  | nil => rfl
  | cons place places ih =>
    have hadd := (restoreOne_cases w s place).1
    exact (ih _ _).trans (congrArg (addEach · _ places) hadd)

/-- Bringing back roots at some places shelters what is owned and leaves those places owned. -/
theorem shelters_restoreEach (w : Watches) (hs : s.WellFormed)
    (hplaces : ∀ place ∈ places, place.IsCanonical) :
    s.Shelters (w.restoreEach s places).2.1 ∧
      ∀ place ∈ places, (w.restoreEach s places).2.1.IsOwned place := by
  rw [roots_restoreEach]
  exact ⟨hs.shelters_addEach (fun place hplace => (hplaces place hplace).1)
    fun _ => isRecursive_onDemand, hs.isOwned_addEach hplaces fun _ => isRecursive_onDemand⟩

section

variable (h : w.Attached s) (hs : s.WellFormed)

include h hs

theorem shelters_restoreSuspended : s.Shelters (w.restoreSuspended s).2.1 := by
  refine (shelters_restoreEach w hs fun place hplace => ?_).1
  exact h.canonical place (.inr (OrderedMap.contains_iff.2
    (OrderedMap.mem_keys_iff.1 (List.mem_of_mem_filter hplace))))

/-- Every suspended place is owned once the suspended roots have been brought back. -/
theorem isOwned_restoreSuspended (hq : w.suspended.contains q = true) :
    (w.restoreSuspended s).2.1.IsOwned q := by
  by_cases hfree : (s.owner? q).isNone = true
  · refine (shelters_restoreEach w hs fun place hplace => ?_).2 q ?_
    · exact h.canonical place (.inr (OrderedMap.contains_iff.2
        (OrderedMap.mem_keys_iff.1 (List.mem_of_mem_filter hplace))))
    · exact List.mem_filter.2 ⟨OrderedMap.mem_keys_iff.2 (OrderedMap.contains_iff.1 hq), hfree⟩
  · rw [← Option.not_isSome, Bool.not_eq_true', Bool.not_eq_false] at hfree
    exact (shelters_restoreSuspended h hs).owned q hfree

end

end Watches

end IndexControl
