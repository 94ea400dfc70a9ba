import IndexControl.Proofs.Watches.Holders

/-!
# Records without idle entries

A requester is counted in a record only for requests that it has made, and a record stays suspended
only while a requester waits for the return of its root, which was there on demand. Whatever moves,
merges or changes records keeps them so.

## Main definitions

* `WatchRecord.Positive`: every requester in a record has asked for the root.
* `WatchRecord.Awaited`: requesters wait for the return of an on-demand root.
* `Watches.Orderly`: the counts are positive, and the suspended records awaited.

## Main results

* `Watches.Orderly.followAll`, `Watches.Orderly.apply`, `Watches.Orderly.release`,
  `Watches.Orderly.restoreSuspended`: what keeps the records orderly.
-/

namespace IndexControl

namespace WatchRecord

variable {r other : WatchRecord} {requester : Requester} {times : Nat}

/-- Every requester in the record has asked for the root. -/
def Positive (r : WatchRecord) : Prop :=
  ∀ requester times, r.counts.find? requester = some times → 1 ≤ times

/-- Requesters wait for the return of a root that was there on demand. -/
structure Awaited (r : WatchRecord) : Prop where
  positive : r.Positive
  onDemand : r.onDemand = true
  held : r.counts.isEmpty = false

theorem positive_empty : empty.Positive := fun _ _ h => absurd h (Option.some_ne_none _).symm

theorem Positive.of_counts (h : r.Positive) (hcounts : other.counts = r.counts) :
    other.Positive := fun requester times htimes => h requester times (hcounts ▸ htimes)

theorem Positive.count (h : r.Positive) (requester : Requester) (htimes : 1 ≤ times) :
    (r.count requester times).Positive := by
  intro requester' times' hfind
  rw [find?_count] at hfind
  split_ifs at hfind
  · obtain rfl := Option.some.inj hfind
    exact htimes.trans (Nat.le_add_left ..)
  · exact h requester' times' hfind

/-- Counts are added up. -/
theorem Positive.merge (h : r.Positive) (hother : other.Positive) : (r.merge other).Positive := by
  intro requester times hfind
  rw [find?_merge, Option.merge_eq_some_iff] at hfind
  rcases hfind with ⟨hr, -⟩ | ⟨-, ho⟩ | ⟨n, m, hr, ho, rfl⟩
  · exact h requester times hr
  · exact hother requester times ho
  · exact (h requester n hr).trans (Nat.le_add_right ..)

theorem Positive.without (h : r.Positive) (requester : Requester) :
    (r.without requester).Positive := by
  intro other times hfind
  rw [WatchRecord.without, OrderedMap.find?_erase] at hfind
  split_ifs at hfind
  exact h other times hfind

end WatchRecord

namespace Watches

variable {w : Watches} {s : RootSet} {root into place : Location}

/-- Requesters are counted for requests that they have made, and every suspended record is
awaited. -/
structure Orderly (w : Watches) : Prop where
  recorded : ∀ x record, w.records.find? x = some record → record.Positive
  suspended : ∀ x record, w.suspended.find? x = some record → record.Awaited

theorem orderly_empty : empty.Orderly where
  recorded _ _ h := absurd h (Option.some_ne_none _).symm
  suspended _ _ h := absurd h (Option.some_ne_none _).symm

/-! ### Single records -/

theorem Orderly.alter {f : WatchRecord → WatchRecord} (h : w.Orderly) (root : Location)
    (hf : ∀ r : WatchRecord, r.Positive → (f r).Positive) : (w.alter root f).Orderly where
  recorded x record hfind := by
    rw [find?_alter] at hfind
    split_ifs at hfind
    · obtain rfl := Option.some.inj hfind
      refine hf _ ?_
      cases hroot : w.records.find? root with
      | none => exact WatchRecord.positive_empty
      | some r => exact h.recorded root r hroot
    · exact h.recorded x record hfind
  suspended := h.suspended

theorem Orderly.markStatics (h : w.Orderly) (places : List Location) :
    (places.foldl markStatic w).Orderly where
  recorded x record hfind := by
    rw [find?_markStatics] at hfind
    split_ifs at hfind
    · obtain ⟨r, hr, rfl⟩ := Option.map_eq_some_iff.1 hfind
      exact (h.recorded x r hr).of_counts rfl
    · exact h.recorded x record hfind
  suspended := by
    rw [suspended_markStatics]
    exact h.suspended

theorem Orderly.credit (h : w.Orderly) (root : Location) (requester? : Option Requester) :
    (w.credit root requester?).Orderly := by
  cases requester? with
  | none => exact h
  | some requester => exact h.alter root fun r hr => hr.count requester le_rfl

/-! ### Following the roots -/

theorem Orderly.erase (h : w.Orderly) (root : Location) :
    Orderly { w with records := w.records.erase root } where
  recorded x record hfind := by
    simp only [OrderedMap.find?_erase] at hfind
    split_ifs at hfind
    exact h.recorded x record hfind
  suspended := h.suspended

/-- A record is suspended only if it is on demand and somebody is counted in it. -/
theorem Orderly.foldInto (h : w.Orderly) (root into : Location) :
    (w.foldInto root into).Orderly := by
  rcases foldInto_cases w root into with
    ⟨-, heq⟩ | ⟨folded, hroot, ⟨-, -, heq⟩ | ⟨honDemand, hheld, heq⟩ | ⟨-, heq⟩⟩ <;> rw [heq]
  · exact h
  · refine ⟨fun x record hfind => ?_, h.suspended⟩
    simp only [OrderedMap.find?_modify] at hfind
    split_ifs at hfind
    · obtain ⟨r, hr, rfl⟩ := Option.map_eq_some_iff.1 hfind
      exact ((h.erase root).recorded x r hr).merge (h.recorded root folded hroot)
    · exact (h.erase root).recorded x record hfind
  · refine ⟨(h.erase root).recorded, fun x record hfind => ?_⟩
    simp only [OrderedMap.find?_insert] at hfind
    split_ifs at hfind
    · obtain rfl := Option.some.inj hfind
      exact ⟨h.recorded root folded hroot, honDemand, hheld⟩
    · exact h.suspended x record hfind
  · exact h.erase root

theorem Orderly.followAll (h : w.Orderly) (events : List RootEvent) : (w.followAll events).Orderly :=
  followAll_induction h (fun _ root h => h.erase root) (fun _ root into h => h.foldInto root into)
    events

/-! ### Requests, releases and returns -/

theorem Orderly.apply {p : ProbedRequest} {a : Applied} (h : w.Orderly)
    (happly : w.apply s p = .ok a) : a.watches.Orderly := by
  rcases apply_cases happly with ⟨-, rfl⟩ | ⟨-, owner, -, rfl⟩ | ⟨-, -, -, rfl⟩
  · exact h
  · exact h.credit owner _
  · have hmarked : (w.markOnDemand p.place).Orderly :=
      h.alter p.place fun r hr => hr.of_counts rfl
    exact hmarked.credit p.place _

/-- A release drops the suspended records in which nobody is left. -/
theorem Orderly.release (h : w.Orderly) (s : RootSet) (requester : Requester) :
    (w.release s requester).1.Orderly where
  recorded x record hfind := by
    obtain ⟨r, hr, -, rfl⟩ := find?_release_eq_some_iff.1 hfind
    exact (h.recorded x r hr).without requester
  suspended x record hfind := by
    rw [find?_suspended_release, Option.filter_eq_some_iff] at hfind
    obtain ⟨r, hr, rfl⟩ := Option.map_eq_some_iff.1 hfind.1
    have hawaited := h.suspended x r hr
    exact ⟨hawaited.positive.without requester, hawaited.onDemand, by simpa using hfind.2⟩

theorem Orderly.restoreOne (h : w.Orderly) (s : RootSet) (place : Location) :
    (w.restoreOne s place).1.Orderly := by
  rcases (restoreOne_cases w s place).2 with heq | ⟨record, hplace, -, heq⟩ <;> rw [heq]
  · exact h
  · refine ⟨fun x r hfind => ?_, fun x r hfind => ?_⟩
    · simp only [OrderedMap.find?_insert] at hfind
      split_ifs at hfind
      · obtain rfl := Option.some.inj hfind
        exact (h.suspended place record hplace).positive.of_counts rfl
      · exact h.recorded x r hfind
    · simp only [OrderedMap.find?_erase] at hfind
      split_ifs at hfind
      exact h.suspended x r hfind

theorem Orderly.restoreSuspended (h : w.Orderly) (s : RootSet) :
    (w.restoreSuspended s).1.Orderly := by
  rw [Watches.restoreSuspended]
  generalize w.suspended.keys.filter _ = places
  induction places generalizing w s with
  | nil => exact h
  | cons place places ih => exact ih (h.restoreOne s place) _

end Watches

end IndexControl
