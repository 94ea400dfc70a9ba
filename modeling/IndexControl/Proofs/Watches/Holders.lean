import IndexControl.Proofs.Watches.Following

/-!
# Who holds a root through requests and releases

A request records its requester, and only where it has a root cover its target. A release forgets
its requester everywhere. Restoring moves records about without adding a requester to them.

## Main definitions

* `Watches.credit`: count a request where a requester made it.
* `Watches.freed`: the places whose roots go with a requester.

## Main results

* `Watches.apply_cases`: all that applying a request can do.
* `Watches.Holds.of_apply`, `Watches.find?_of_apply`: whom a request records.
* `Watches.isOnDemand_of_apply`: which root a request makes on-demand.
* `Watches.Holds.of_release`, `Watches.not_holds_release`: whom a release leaves recorded.
* `Watches.restoreOne_cases`, `Watches.Holds.of_restoreSuspended`: the return of suspended roots.
-/

namespace IndexControl

namespace Watches

variable {w : Watches} {s : RootSet} {place root x : Location} {requester other : Requester}
  {places : List Location}

/-! ### Single records -/

theorem find?_alter (w : Watches) (root x : Location) (f : WatchRecord → WatchRecord) :
    (w.alter root f).records.find? x =
      if x = root then some (f ((w.records.find? root).getD .empty)) else w.records.find? x :=
  OrderedMap.find?_insert ..

theorem contains_alter {f : WatchRecord → WatchRecord} :
    (w.alter root f).records.contains x = true ↔ x = root ∨ w.records.contains x = true :=
  OrderedMap.contains_insert

theorem isOnDemand_count (w : Watches) (root : Location) (requester : Requester) (x : Location) :
    (w.count root requester).isOnDemand x = w.isOnDemand x := by
  rw [isOnDemand, isOnDemand, count, find?_alter]
  split_ifs with hx
  · subst hx
    cases w.records.find? x <;> rfl
  · rfl

theorem isOnDemand_markOnDemand (w : Watches) (root x : Location) :
    (w.markOnDemand root).isOnDemand x = (decide (x = root) || w.isOnDemand x) := by
  rw [isOnDemand, isOnDemand, markOnDemand, find?_alter]
  by_cases hx : x = root <;> simp [hx]

theorem Holds.of_count (h : (w.count root requester).Holds other) :
    other = requester ∨ w.Holds other := by
  obtain ⟨x, record, hx | hx, hcount⟩ := h
  · rw [count, find?_alter] at hx
    split_ifs at hx with hroot
    · obtain rfl := Option.some.inj hx
      rcases contains_counts_count.1 hcount with hother | hcount
      · exact .inl hother
      · cases hfind : w.records.find? root with
        | none =>
          rw [hfind] at hcount
          exact Bool.noConfusion hcount
        | some r =>
          rw [hfind] at hcount
          exact .inr (.of_record hfind hcount)
    · exact .inr (.of_record hx hcount)
  · exact .inr (.of_suspended hx hcount)

theorem Holds.of_markOnDemand (h : (w.markOnDemand root).Holds other) : w.Holds other := by
  obtain ⟨x, record, hx | hx, hcount⟩ := h
  · rw [markOnDemand, find?_alter] at hx
    split_ifs at hx with hroot
    · obtain rfl := Option.some.inj hx
      cases hfind : w.records.find? root with
      | none =>
        rw [hfind] at hcount
        exact Bool.noConfusion hcount
      | some r =>
        rw [hfind] at hcount
        exact .of_record hfind hcount
    · exact .of_record hx hcount
  · exact .of_suspended hx hcount

/-! ### Configured roots -/

theorem find?_markStatic (w : Watches) (root x : Location) :
    (w.markStatic root).records.find? x =
      if x = root then (w.records.find? x).map fun r => { r with onDemand := false }
      else w.records.find? x :=
  OrderedMap.find?_modify ..

theorem find?_markStatics (w : Watches) (places : List Location) (x : Location) :
    (places.foldl markStatic w).records.find? x =
      if x ∈ places then (w.records.find? x).map fun r => { r with onDemand := false }
      else w.records.find? x := by
  induction places generalizing w with
  | nil => rfl
  | cons place places ih =>
    rw [List.foldl_cons, ih, find?_markStatic]
    by_cases hplace : x = place
    · subst hplace
      cases w.records.find? x <;> simp
    · simp [hplace]

theorem suspended_markStatics (w : Watches) (places : List Location) :
    (places.foldl markStatic w).suspended = w.suspended := by
  induction places generalizing w with
  | nil => rfl
  | cons place places ih => exact ih (w.markStatic place)

theorem contains_markStatics (w : Watches) (places : List Location) (x : Location) :
    (places.foldl markStatic w).records.contains x = w.records.contains x := by
  rw [OrderedMap.contains, OrderedMap.contains, find?_markStatics]
  split <;> simp

theorem isOnDemand_markStatics :
    (places.foldl markStatic w).isOnDemand x = true ↔ w.isOnDemand x = true ∧ x ∉ places := by
  rw [isOnDemand, isOnDemand, find?_markStatics]
  by_cases hmem : x ∈ places
  · cases w.records.find? x <;> simp [hmem]
  · simp [hmem]

/-- A root that is not on demand need not be marked. -/
theorem markStatic_eq_self (h : w.isOnDemand root = false) : w.markStatic root = w := by
  have hrecords : (w.markStatic root).records = w.records := OrderedMap.ext_find? fun x => by
    rw [find?_markStatic]
    split_ifs with hx
    · subst hx
      rw [isOnDemand] at h
      cases hfind : w.records.find? x with
      | none => rfl
      | some record =>
        rw [hfind] at h
        obtain ⟨onDemand, counts⟩ := record
        obtain rfl : onDemand = false := h
        rfl
    · rfl
  obtain ⟨records, suspended, eligibility⟩ := w
  exact congrArg (Watches.mk · suspended eligibility) hrecords

theorem markStatics_eq_self (h : ∀ x ∈ places, w.isOnDemand x = false) :
    places.foldl markStatic w = w := by
  induction places with
  | nil => rfl
  | cons place places ih =>
    obtain ⟨hplace, hplaces⟩ := List.forall_mem_cons.1 h
    rw [List.foldl_cons, markStatic_eq_self hplace]
    exact ih hplaces

theorem Holds.of_markStatics (h : (places.foldl markStatic w).Holds other) : w.Holds other := by
  obtain ⟨x, record, hx | hx, hcount⟩ := h
  · rw [find?_markStatics] at hx
    split_ifs at hx
    · obtain ⟨r, hr, rfl⟩ := Option.map_eq_some_iff.1 hx
      exact .of_record hr hcount
    · exact .of_record hx hcount
  · rw [suspended_markStatics] at hx
    exact .of_suspended hx hcount

/-! ### Requests -/

/-- Count a request where a requester made it. -/
def credit (w : Watches) (root : Location) : Option Requester → Watches
  | none => w
  | some requester => w.count root requester

theorem isOnDemand_credit (w : Watches) (root : Location) (requester? : Option Requester)
    (x : Location) : (w.credit root requester?).isOnDemand x = w.isOnDemand x := by
  cases requester? with
  | none => rfl
  | some requester => exact isOnDemand_count w root requester x

theorem Holds.of_credit {requester? : Option Requester}
    (h : (w.credit root requester?).Holds other) : requester? = some other ∨ w.Holds other := by
  cases requester? with
  | none => exact .inr h
  | some requester => exact (Holds.of_count h).imp_left fun heq => congrArg some heq.symm

/-- A request that is applied has been let through. -/
theorem allows_of_apply {p : ProbedRequest} {a : Applied} (h : w.apply s p = .ok a) :
    w.allows p.place = true := by
  rw [apply] at h
  split_ifs at h with hallowed <;> simpa using hallowed

/-- All that applying a request can do. A file is left to whoever applies the request. A directory
that is owned is looked at again, and another one becomes a root on demand. -/
theorem apply_cases {p : ProbedRequest} {a : Applied} (h : w.apply s p = .ok a) :
    (p.info.isDirectory = false ∧ a = ⟨.fileCheck, s, w⟩) ∨
    (p.info.isDirectory = true ∧ ∃ owner, s.owner? p.place = some owner ∧
      a = ⟨.refreshed owner, (s.notify p.place true).1, w.credit owner p.request.requester?⟩) ∨
    (p.info.isDirectory = true ∧ s.owner? p.place = none ∧
      (s.add p.place .onDemand).2.isLive = true ∧
      a = ⟨.rootAdded p.place, (s.add p.place .onDemand).1,
        (w.markOnDemand p.place).credit p.place p.request.requester?⟩) := by
  rw [apply] at h
  split_ifs at h with hallowed hdirectory
  · refine .inr ?_
    rw [cover] at h
    cases howner : s.owner? p.place with
    | some owner =>
      refine .inl ⟨hdirectory, owner, rfl, ?_⟩
      simp only [howner, Except.map, Except.ok.injEq] at h
      rw [← h]
      cases hrequester : p.request.requester? <;>
        simp [Applied.countFor, IndexOutcome.root?, credit]
    | none =>
      refine .inr ⟨hdirectory, rfl, ?_⟩
      simp only [howner] at h
      split at h
      · contradiction
      · next added outcome hlive hadded =>
        refine ⟨?_, ?_⟩
        · rw [hadded]
          cases outcome with
          | covered above => exact absurd rfl (hlive above)
          | _ => rfl
        · simp only [Except.map, Except.ok.injEq] at h
          rw [← h, hadded]
          cases hrequester : p.request.requester? <;>
            simp [Applied.countFor, IndexOutcome.root?, credit]
  · exact .inl ⟨by simpa using hdirectory, (Except.ok.inj h).symm⟩

/-- A request records its requester and no other, and only where a root covers its target. -/
theorem Holds.of_apply {p : ProbedRequest} {a : Applied} (h : w.apply s p = .ok a)
    (hother : a.watches.Holds other) :
    w.Holds other ∨ p.request.requester? = some other ∧ a.outcome.root?.isSome = true := by
  rcases apply_cases h with ⟨-, rfl⟩ | ⟨-, owner, -, rfl⟩ | ⟨-, -, -, rfl⟩
  · exact .inl hother
  · exact hother.of_credit.symm.imp_right fun heq => ⟨heq, rfl⟩
  · exact (hother.of_credit.symm.imp_left Holds.of_markOnDemand).imp_right fun heq => ⟨heq, rfl⟩

/-- A requester whose target is covered by a root is recorded at that root. -/
theorem find?_of_apply {p : ProbedRequest} {a : Applied} (h : w.apply s p = .ok a)
    (hrequester : p.request.requester? = some requester) (hroot : a.outcome.root? = some root) :
    ∃ record, a.watches.records.find? root = some record ∧
      record.counts.contains requester = true := by
  have hcount (w : Watches) : ∃ record,
      (w.credit root (some requester)).records.find? root = some record ∧
        record.counts.contains requester = true := by
    refine ⟨_, (find?_alter ..).trans (if_pos rfl), ?_⟩
    exact contains_counts_count.2 (.inl rfl)
  rcases apply_cases h with ⟨-, rfl⟩ | ⟨-, owner, -, rfl⟩ | ⟨-, -, -, rfl⟩
  · contradiction
  · obtain rfl := Option.some.inj hroot
    rw [hrequester]
    exact hcount w
  · obtain rfl := Option.some.inj hroot
    rw [hrequester]
    exact hcount _

/-- What a request queues does not end the root that covers its target. -/
theorem ended?_ne_of_apply {p : ProbedRequest} {a : Applied} (hquiet : s.events = [])
    (hplace : p.place.IsCanonical) (h : w.apply s p = .ok a)
    (hroot : a.outcome.root? = some root) : ∀ event ∈ a.roots.events, event.ended? ≠ some root := by
  intro event hevent
  rcases apply_cases h with ⟨-, rfl⟩ | ⟨-, owner, -, rfl⟩ | ⟨-, -, -, rfl⟩
  · contradiction
  · obtain ⟨events, hevents, hnone⟩ := s.events_notify p.place true
    rw [hevents, hquiet] at hevent
    simp [hnone event hevent]
  · obtain rfl := Option.some.inj hroot
    obtain ⟨events, hevents, hadded⟩ := s.events_add p.place .onDemand
    simp only [hevents, hquiet, List.nil_append] at hevent
    rw [hplace.2] at hadded
    rcases hadded event hevent with rfl | rfl | ⟨below, rfl, -, hbelow⟩
    · simp [RootEvent.ended?]
    · simp [RootEvent.ended?]
    · rintro heq
      rw [Option.some.inj heq, Location.isBelow_self] at hbelow
      exact Bool.noConfusion hbelow

/-- A request makes a root on-demand only where it adds it, to a place that no root covers. -/
theorem isOnDemand_of_apply {p : ProbedRequest} {a : Applied} (h : w.apply s p = .ok a)
    (hx : a.watches.isOnDemand x = true) :
    w.isOnDemand x = true ∨
      x = p.place ∧ s.owner? p.place = none ∧ a.outcome = .rootAdded p.place := by
  rcases apply_cases h with ⟨-, rfl⟩ | ⟨-, owner, -, rfl⟩ | ⟨-, hfree, -, rfl⟩
  · exact .inl hx
  · rw [isOnDemand_credit] at hx
    exact .inl hx
  · rw [isOnDemand_credit, isOnDemand_markOnDemand, Bool.or_eq_true, decide_eq_true_iff] at hx
    exact hx.symm.imp_right fun heq => ⟨heq, hfree, rfl⟩

/-! ### Releases -/

/-- The places whose roots go with a requester: those that are there on demand and are held for
nobody else. -/
def freed (w : Watches) (requester : Requester) : List Location :=
  ((w.records.filter fun _ r => r.isHeldOnlyBy requester).filter fun _ r => r.onDemand).keys

theorem mem_freed_iff :
    x ∈ w.freed requester ↔ ∃ record, w.records.find? x = some record ∧
      record.isHeldOnlyBy requester = true ∧ record.onDemand = true := by
  rw [freed, OrderedMap.mem_keys_iff]
  simp only [OrderedMap.find?_filter, Option.filter_eq_some_iff]
  exact exists_congr fun record => and_assoc

theorem isOnDemand_of_mem_freed (h : x ∈ w.freed requester) : w.isOnDemand x = true := by
  obtain ⟨record, hfind, -, honDemand⟩ := mem_freed_iff.1 h
  exact isOnDemand_iff.2 ⟨record, hfind, honDemand⟩

theorem roots_release (w : Watches) (s : RootSet) (requester : Requester) :
    (w.release s requester).2 = s.removeEach (w.freed requester) := rfl

theorem find?_release (w : Watches) (s : RootSet) (requester : Requester) (x : Location) :
    (w.release s requester).1.records.find? x =
      (w.records.find? x).bind fun r =>
        if r.isHeldOnlyBy requester then none else some (r.without requester) :=
  OrderedMap.find?_filterMap ..

theorem find?_release_eq_some_iff {record : WatchRecord} :
    (w.release s requester).1.records.find? x = some record ↔
      ∃ r, w.records.find? x = some r ∧ r.isHeldOnlyBy requester = false ∧
        r.without requester = record := by
  rw [find?_release, Option.bind_eq_some_iff]
  refine exists_congr fun r => and_congr_right fun _ => ?_
  split_ifs with hheld <;> simp [hheld]

theorem find?_suspended_release (w : Watches) (s : RootSet) (requester : Requester)
    (x : Location) :
    (w.release s requester).1.suspended.find? x =
      ((w.suspended.find? x).map (·.without requester)).filter fun r => !r.counts.isEmpty := by
  refine (OrderedMap.find?_filter ..).trans ?_
  rw [OrderedMap.find?_filterMap]
  cases w.suspended.find? x <;> rfl

theorem contains_of_release (h : (w.release s requester).1.records.contains x = true) :
    w.records.contains x = true := by
  obtain ⟨record, hfind⟩ := OrderedMap.contains_iff.1 h
  obtain ⟨r, hr, -⟩ := find?_release_eq_some_iff.1 hfind
  exact OrderedMap.contains_iff.2 ⟨r, hr⟩

theorem contains_suspended_of_release
    (h : (w.release s requester).1.suspended.contains x = true) :
    w.suspended.contains x = true := by
  rw [OrderedMap.contains, find?_suspended_release] at h
  rw [OrderedMap.contains]
  cases hfind : w.suspended.find? x with
  | none => rw [hfind] at h; exact h
  | some record => rfl

/-- A release leaves on-demand just those on-demand roots that do not go with the requester. -/
theorem isOnDemand_release :
    (w.release s requester).1.isOnDemand x = true ↔
      w.isOnDemand x = true ∧ x ∉ w.freed requester := by
  rw [isOnDemand_iff, isOnDemand_iff, mem_freed_iff]
  constructor
  · rintro ⟨record, hfind, honDemand⟩
    obtain ⟨r, hr, hheld, rfl⟩ := find?_release_eq_some_iff.1 hfind
    refine ⟨⟨r, hr, honDemand⟩, ?_⟩
    rintro ⟨r', hr', hheld', -⟩
    obtain rfl := Option.some.inj (hr.symm.trans hr')
    exact Bool.noConfusion (hheld.symm.trans hheld')
  · rintro ⟨⟨r, hr, honDemand⟩, hfreed⟩
    have hheld : r.isHeldOnlyBy requester = false := by
      rw [Bool.eq_false_iff]
      exact fun hheld => hfreed ⟨r, hr, hheld, honDemand⟩
    exact ⟨_, find?_release_eq_some_iff.2 ⟨r, hr, hheld, rfl⟩, honDemand⟩

/-- Whoever is recorded after a release was so before, and is not the released requester. -/
theorem Holds.of_release (h : (w.release s requester).1.Holds other) :
    w.Holds other ∧ other ≠ requester := by
  obtain ⟨x, record, hx | hx, hcount⟩ := h
  · obtain ⟨r, hr, -, rfl⟩ := find?_release_eq_some_iff.1 hx
    obtain ⟨hcount, hne⟩ := contains_counts_without.1 hcount
    exact ⟨.of_record hr hcount, hne⟩
  · rw [find?_suspended_release, Option.filter_eq_some_iff] at hx
    obtain ⟨r, hr, rfl⟩ := Option.map_eq_some_iff.1 hx.1
    obtain ⟨hcount, hne⟩ := contains_counts_without.1 hcount
    exact ⟨.of_suspended hr hcount, hne⟩

theorem not_holds_release (w : Watches) (s : RootSet) (requester : Requester) :
    ¬(w.release s requester).1.Holds requester :=
  fun h => h.of_release.2 rfl

/-! ### The return of suspended roots -/

theorem isRecursive_onDemand : Flags.onDemand.isRecursive = true := by decide

/-- All that bringing back one suspended root can do with the records: nothing, or its record is
moved to the root that is there now. -/
theorem restoreOne_cases (w : Watches) (s : RootSet) (place : Location) :
    (w.restoreOne s place).2.1 = (s.add place .onDemand).1 ∧
      ((w.restoreOne s place).1 = w ∨ ∃ record, w.suspended.find? place = some record ∧
        (s.add place .onDemand).2.isLive = true ∧ (w.restoreOne s place).1 = { w with
          suspended := w.suspended.erase place
          records := w.records.insert place { record with onDemand := true } }) := by
  simp only [restoreOne]
  cases hfind : w.suspended.find? place with
  | none => exact ⟨rfl, .inl rfl⟩
  | some record =>
    simp only
    split_ifs with hlive
    · exact ⟨rfl, .inr ⟨record, rfl, hlive, rfl⟩⟩
    · exact ⟨rfl, .inl rfl⟩

theorem restoreSuspended_of_empty (h : w.suspended = .empty) (s : RootSet) :
    w.restoreSuspended s = (w, s, []) := by
  rw [restoreSuspended, h]
  rfl

theorem Holds.of_restoreOne (h : (w.restoreOne s place).1.Holds other) : w.Holds other := by
  rcases (restoreOne_cases w s place).2 with heq | ⟨record, hplace, -, heq⟩ <;> rw [heq] at h
  · exact h
  · obtain ⟨x, r, hx | hx, hcount⟩ := h
    · rw [OrderedMap.find?_insert] at hx
      split_ifs at hx
      · obtain rfl := Option.some.inj hx
        exact .of_suspended hplace hcount
      · exact .of_record hx hcount
    · rw [OrderedMap.find?_erase] at hx
      split_ifs at hx
      exact .of_suspended hx hcount

theorem Holds.of_restoreSuspended (h : (w.restoreSuspended s).1.Holds other) : w.Holds other := by
  rw [restoreSuspended] at h
  generalize w.suspended.keys.filter _ = places at h
  induction places generalizing w s with
  | nil => exact h
  | cons place places ih => exact (ih h).of_restoreOne

end Watches

end IndexControl
