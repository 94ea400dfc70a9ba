import IndexControl.Proofs.Watches.Holders
import IndexControl.Proofs.Watches.Reach

/-!
# Every record belongs to a root

A record is kept at the place of a root, or the notification that the root has gone is still
queued. Once the queue has been followed, only roots have records.

## Main definitions

* `Watches.Attached`: the records belong to the roots of a set, at canonical places.

## Main results

* `Watches.Attached.of_changes`, `Watches.Attached.followAll`: changes of the set of roots, and
  following them.
* `Watches.Attached.apply`, `Watches.Attached.release`, `Watches.Attached.restoreSuspended`:
  what requesters do.
-/

namespace IndexControl

variable {P : Location → Prop} {s s' : RootSet} {place q : Location}

namespace Watches

open RootSet

variable {w w' : Watches} {requester : Requester}

/-- Every record belongs to a root, unless its end is still queued, and all places of records are
canonical. -/
structure Attached (w : Watches) (s : RootSet) : Prop where
  rooted : ∀ q, w.records.contains q = true →
    s.isRoot q = true ∨ ∃ event ∈ s.events, event.ended? = some q
  canonical : ∀ q, w.records.contains q = true ∨ w.suspended.contains q = true → q.IsCanonical

theorem attached_empty (s : RootSet) : empty.Attached s where
  rooted _ h := Bool.noConfusion h
  canonical _ h := h.elim (fun h => Bool.noConfusion h) fun h => Bool.noConfusion h

/-- Fewer records stay attached. -/
theorem Attached.of_imp (h : w.Attached s)
    (hrecords : ∀ q, w'.records.contains q = true → w.records.contains q = true)
    (hsuspended : ∀ q, w'.suspended.contains q = true → w.suspended.contains q = true) :
    w'.Attached s where
  rooted q hq := h.rooted q (hrecords q hq)
  canonical q hq := h.canonical q (hq.imp (hrecords q) (hsuspended q))

/-- Changes of the set of roots leave the records attached. -/
theorem Attached.of_changes (h : w.Attached s) (hs : Changes P s s') : w.Attached s' where
  rooted q hq := (h.rooted q hq).elim hs.isRoot_or_ended fun ⟨event, hmem, hevent⟩ =>
    .inr ⟨event, hs.mem_events hmem, hevent⟩
  canonical := h.canonical

/-- A record may be added at a root. -/
theorem Attached.alter (h : w.Attached s) (hs : s.WellFormed) (hroot : s.isRoot place = true)
    (f : WatchRecord → WatchRecord) : (w.alter place f).Attached s where
  rooted q hq := (contains_alter.1 hq).elim (fun heq => .inl (heq ▸ hroot)) (h.rooted q)
  canonical q hq := by
    rcases hq with hq | hq
    · exact (contains_alter.1 hq).elim (fun heq => heq ▸ hs.canonical place hroot)
        fun hq => h.canonical q (.inl hq)
    · exact h.canonical q (.inr hq)

theorem Attached.credit (h : w.Attached s) (hs : s.WellFormed) (hroot : s.isRoot place = true)
    (requester? : Option Requester) : (w.credit place requester?).Attached s := by
  cases requester? with
  | none => exact h
  | some requester => exact h.alter hs hroot (·.count requester 1)

/-- Once the queue has been followed, only roots have records. -/
theorem Attached.followAll (h : w.Attached s) : (w.followAll s.events).Attached s.drain.2 where
  rooted q hq := by
    obtain ⟨hq, hended⟩ := contains_followAll.1 hq
    refine (h.rooted q hq).imp_right ?_
    rintro ⟨event, hmem, hevent⟩
    exact absurd hevent (hended event hmem)
  canonical q hq := by
    rcases hq with hq | hq
    · exact h.canonical q (.inl (contains_followAll.1 hq).1)
    · exact h.canonical q (contains_suspended_of_followAll hq).symm

/-- A request records its requester at a root. -/
theorem Attached.apply {p : ProbedRequest} {a : Applied} (h : w.Attached s) (hs : s.WellFormed)
    (hplace : p.place.IsCanonical) (happly : w.apply s p = .ok a) :
    a.watches.Attached a.roots := by
  have hchanges : Changes Location.IsSpelled s a.roots := changes_apply hplace.1 happly
  have hroots : a.roots.WellFormed := hchanges.wellFormed hs
  have hattached := h.of_changes hchanges
  rcases apply_cases happly with ⟨-, rfl⟩ | ⟨-, owner, howner, rfl⟩ | ⟨-, -, hlive, rfl⟩
  · exact h
  · exact hattached.credit hroots (isRoot_of_owner? howner) _
  · have hroot := isRoot_add hlive
    rw [hplace.2] at hroot
    exact (hattached.alter hroots hroot _).credit hroots hroot _

theorem Attached.release (h : w.Attached s) (requester : Requester) :
    (w.release s requester).1.Attached (w.release s requester).2.1 :=
  (h.of_changes (changes_release (P := fun _ => True) w s requester)).of_imp
    (fun _ => contains_of_release) fun _ => contains_suspended_of_release

theorem Attached.restoreOne (h : w.Attached s) (hs : s.WellFormed)
    (hplace : place.IsCanonical) :
    (w.restoreOne s place).1.Attached (w.restoreOne s place).2.1 := by
  have hattached := h.of_changes (changes_restoreOne w hplace.1)
  obtain ⟨hroots, heq | ⟨record, hsuspended, hlive, heq⟩⟩ := restoreOne_cases w s place
  · rw [heq]
    exact hattached
  · have hback : (w.restoreOne s place).2.1.WellFormed :=
      (changes_restoreOne w hplace.1).wellFormed hs
    have hroot : (w.restoreOne s place).2.1.isRoot place = true := by
      rw [hroots]
      simpa only [hplace.2] using isRoot_add hlive
    have halter := hattached.alter hback hroot fun _ => { record with onDemand := true }
    rw [heq]
    exact halter.of_imp (fun _ => id) fun q hq => (OrderedMap.contains_erase.1 hq).1

theorem Attached.restoreEach {places : List Location} (h : w.Attached s) (hs : s.WellFormed)
    (hplaces : ∀ place ∈ places, place.IsCanonical) :
    (w.restoreEach s places).1.Attached (w.restoreEach s places).2.1 := by
  induction places generalizing w s with
  | nil => exact h
  | cons place places ih =>
    obtain ⟨hplace, hplaces⟩ := List.forall_mem_cons.1 hplaces
    exact ih (h.restoreOne hs hplace) ((changes_restoreOne w hplace.1).wellFormed hs) hplaces

/-- Suspended roots come back with their records. -/
theorem Attached.restoreSuspended (h : w.Attached s) (hs : s.WellFormed) :
    (w.restoreSuspended s).1.Attached (w.restoreSuspended s).2.1 :=
  h.restoreEach hs fun place hplace => h.canonical place
    (.inr (OrderedMap.contains_iff.2
      (OrderedMap.mem_keys_iff.1 (List.mem_of_mem_filter hplace))))

end Watches

end IndexControl
