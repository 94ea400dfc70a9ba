import IndexControl.Proofs.Steward.Reach
import IndexControl.Watches.Holding

/-!
# What requesters do to the set of roots

A request adds at most one root, at its target. The end of a requester removes roots, and
suspended roots come back at the places where they were suspended.

## Main results

* `Watches.changes_apply`, `Watches.changes_release`, `Watches.changes_restoreSuspended`: the
  three of them as changes of the set.
-/

namespace IndexControl

namespace Watches

open RootSet

variable {P : Location → Prop} {w : Watches} {s : RootSet} {place : Location}

theorem changes_cover {a : Applied} (hplace : P place) (h : w.cover s place = .ok a) :
    Changes P s a.roots := by
  rw [cover] at h
  cases howner : s.owner? place with
  | some owner =>
    simp only [howner, Except.ok.injEq] at h
    subst h
    exact .single (.notify place true)
  | none =>
    have hadd : Changes P s (s.add place .onDemand).1 := .single (.add .onDemand hplace)
    simp only [howner] at h
    split at h
    · contradiction
    · next hadded =>
      rw [hadded] at hadd
      obtain rfl := Except.ok.inj h
      exact hadd

theorem roots_countFor (a : Applied) (requester : Option Requester) :
    (a.countFor requester).roots = a.roots := by
  cases requester <;> cases houtcome : a.outcome.root? <;> simp [Applied.countFor, houtcome]

/-- A request that is applied adds at most a root at its target. -/
theorem changes_apply {p : ProbedRequest} {a : Applied} (hplace : P p.place)
    (h : w.apply s p = .ok a) : Changes P s a.roots := by
  rw [apply] at h
  split_ifs at h with hallowed hdirectory
  · cases hcover : w.cover s p.place with
    | error cause => simp [hcover, Except.map] at h
    | ok b =>
      rw [hcover] at h
      obtain rfl := Except.ok.inj h
      rw [roots_countFor]
      exact changes_cover hplace hcover
  · obtain rfl := Except.ok.inj h
    exact .refl

/-- The end of a requester only removes roots. -/
theorem changes_release (w : Watches) (s : RootSet) (requester : Requester) :
    Changes P s (w.release s requester).2.1 :=
  changes_removeEach s _

theorem changes_restoreOne (w : Watches) (hplace : P place) :
    Changes P s (w.restoreOne s place).2.1 := by
  have hadd : Changes P s (s.add place .onDemand).1 := .single (.add .onDemand hplace)
  simp only [restoreOne]
  cases w.suspended.find? place with
  | none => exact hadd
  | some record =>
    simp only
    split <;> exact hadd

theorem changes_restoreEach {places : List Location} (w : Watches) (s : RootSet)
    (h : ∀ place ∈ places, P place) : Changes P s (w.restoreEach s places).2.1 := by
  induction places generalizing w s with
  | nil => exact .refl
  | cons place places ih =>
    rw [List.forall_mem_cons] at h
    exact (changes_restoreOne w h.1).trans (ih _ _ h.2)

/-- Suspended roots come back at their own places. -/
theorem changes_restoreSuspended (w : Watches) (s : RootSet)
    (h : ∀ place ∈ w.suspended.keys, P place) : Changes P s (w.restoreSuspended s).2.1 :=
  changes_restoreEach w s fun place hplace => h place (List.mem_of_mem_filter hplace)

end Watches

end IndexControl
