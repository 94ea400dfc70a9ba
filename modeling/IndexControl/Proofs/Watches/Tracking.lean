import IndexControl.Proofs.Roots.Folding
import IndexControl.Proofs.Watches.Return

/-!
# Where a watch goes

A requester is recorded at a root, or waits for the return of a suspended one. When the root is
folded into another one the record goes along: it is merged into the record there if that root is
on demand, and is suspended otherwise. A suspended record stays until it is restored, or until the
record of another root at the same place is suspended over it.

## Main definitions

* `Watches.HeldAt`, `Watches.WaitsAt`: where a requester is recorded.

## Main results

* `Watches.HeldAt.followAll`, `Watches.WaitsAt.followAll`: where following the roots moves a record.
* `Watches.HeldAt.apply`, `Watches.absorbed_of_apply`: a request forgets nobody, and folds roots only
  into the one that it creates.
* `Watches.HeldAt.release`, `Watches.WaitsAt.release`: the end of another requester moves none.
* `Watches.heldAt_restoreEach`, `Watches.WaitsAt.restoreEach`: the return of suspended roots.
-/

namespace IndexControl

namespace Watches

open RootSet

variable {w : Watches} {s : RootSet} {root place x : Location} {requester other : Requester}
  {events : List RootEvent} {places : List Location}

/-- A requester is recorded at a root. -/
def HeldAt (w : Watches) (root : Location) (requester : Requester) : Prop :=
  ∃ record, w.records.find? root = some record ∧ record.counts.contains requester = true

/-- A requester waits for the return of a suspended root. -/
def WaitsAt (w : Watches) (place : Location) (requester : Requester) : Prop :=
  ∃ record, w.suspended.find? place = some record ∧ record.counts.contains requester = true

theorem HeldAt.contains (h : w.HeldAt root requester) : w.records.contains root = true := by
  obtain ⟨record, hfind, -⟩ := h
  exact OrderedMap.contains_iff.2 ⟨record, hfind⟩

/-! ### Following the roots -/

/-- A requester stays recorded at a root that is not ended. -/
theorem HeldAt.stays (h : w.HeldAt root requester)
    (hstays : ∀ event ∈ events, event.ended? ≠ some root) :
    (w.followAll events).HeldAt root requester := by
  obtain ⟨record, hfind, hcount⟩ := h
  exact contains_counts_followAll hfind hcount hstays

theorem isOnDemand_erase_of_ne (w : Watches) (hx : x ≠ root) :
    isOnDemand { w with records := w.records.erase root } x = w.isOnDemand x := by
  rw [isOnDemand_erase, decide_eq_false hx, Bool.not_false, Bool.true_and]

theorem isOnDemand_foldInto_of_ne {into : Location} (hx : x ≠ root) :
    (w.foldInto root into).isOnDemand x = w.isOnDemand x := by
  rcases foldInto_cases w root into with
    ⟨-, heq⟩ | ⟨record, -, ⟨-, -, heq⟩ | ⟨-, -, heq⟩ | ⟨-, heq⟩⟩ <;> rw [heq]
  · rw [isOnDemand, isOnDemand, OrderedMap.find?_modify, OrderedMap.find?_erase, if_neg hx]
    split
    · rw [Option.any_map]
      exact congrArg (fun p => Option.any p _) (funext fun r => WatchRecord.onDemand_merge r record)
    · rfl
  · exact isOnDemand_erase_of_ne w hx
  · exact isOnDemand_erase_of_ne w hx

/-- Following leaves it as it is whether a root that is not ended is there on demand. -/
theorem isOnDemand_followAll_of_stays (hstays : ∀ event ∈ events, event.ended? ≠ some x) :
    (w.followAll events).isOnDemand x = w.isOnDemand x := by
  induction events generalizing w with
  | nil => rfl
  | cons event events ih =>
    obtain ⟨hevent, hevents⟩ := List.forall_mem_cons.1 hstays
    refine (ih hevents).trans ?_
    cases event with
    | removed root flags =>
      exact isOnDemand_erase_of_ne w fun heq => hevent (congrArg some heq.symm)
    | absorbed root into =>
      exact isOnDemand_foldInto_of_ne fun heq => hevent (congrArg some heq.symm)
    | added root flags => rfl
    | updated root => rfl
    | childUpdated root file => rfl

/-- Whoever waits at a place goes on waiting, unless the record of another root there that does not
count the requester is suspended. -/
theorem WaitsAt.followAll (h : w.WaitsAt place requester) (events : List RootEvent) :
    (w.followAll events).WaitsAt place requester ∨
      w.isOnDemand place = true ∧ ¬w.HeldAt place requester ∧
        ∃ into, .absorbed place into ∈ events := by
  induction events generalizing w with
  | nil => exact .inl h
  | cons event events ih =>
    by_cases hended : event.ended? = some place
    · -- from here on there is no record at the place that could be suspended
      have hnone : (w.follow event).isOnDemand place ≠ true := fun honDemand =>
        (contains_follow.1 (contains_of_isOnDemand honDemand)).2 hended
      have hlater (hwaits : (w.follow event).WaitsAt place requester) :
          (w.followAll (event :: events)).WaitsAt place requester :=
        (ih hwaits).resolve_right fun hlost => hnone hlost.1
      rcases RootEvent.ended?_eq_some_iff.1 hended with hremoved | ⟨into, rfl⟩
      · cases event with
        | removed root flags => exact .inl (hlater h)
        | added root flags => contradiction
        | updated root => contradiction
        | childUpdated root file => contradiction
        | absorbed root into => contradiction
      · rcases foldInto_cases w place into with
          ⟨-, heq⟩ | ⟨record, hfind, ⟨-, -, heq⟩ | ⟨honDemand, -, heq⟩ | ⟨-, heq⟩⟩
        · exact .inl (hlater (by rwa [follow, heq]))
        · exact .inl (hlater (by rw [follow, heq]; exact h))
        · by_cases hheld : w.HeldAt place requester
          · obtain ⟨record', hfind', hcount⟩ := hheld
            obtain rfl := Option.some.inj (hfind.symm.trans hfind')
            refine .inl (hlater ⟨record, ?_, hcount⟩)
            rw [follow, heq]
            exact (OrderedMap.find?_insert ..).trans (if_pos rfl)
          · exact .inr ⟨isOnDemand_iff.2 ⟨record, hfind, honDemand⟩, hheld, into,
              List.mem_cons_self⟩
        · exact .inl (hlater (by rw [follow, heq]; exact h))
    · have hwaits : (w.follow event).WaitsAt place requester := by
        obtain ⟨record, hfind, hcount⟩ := h
        refine ⟨record, ?_, hcount⟩
        cases event with
        | absorbed root into =>
          have hne : place ≠ root := fun heq => hended (congrArg some heq.symm)
          rcases foldInto_cases w root into with
            ⟨-, heq⟩ | ⟨record', -, ⟨-, -, heq⟩ | ⟨-, -, heq⟩ | ⟨-, heq⟩⟩ <;> rw [follow, heq]
          · exact hfind
          · exact hfind
          · exact (OrderedMap.find?_insert ..).trans ((if_neg hne).trans hfind)
          · exact hfind
        | removed root flags => exact hfind
        | added root flags => exact hfind
        | updated root => exact hfind
        | childUpdated root file => exact hfind
      have hstays : ∀ event' ∈ [event], event'.ended? ≠ some place := by simpa using hended
      refine (ih hwaits).imp_right ?_
      rintro ⟨honDemand, hheld, into, hevent⟩
      exact ⟨(isOnDemand_followAll_of_stays hstays).symm.trans honDemand,
        fun hbefore => hheld (hbefore.stays hstays), into, List.mem_cons_of_mem event hevent⟩

/-- Where the record of a requester at a root goes that is not removed. It stays, or the root is
folded into another one: then it is suspended, unless the root is not on demand, or it is merged
into the record of an on-demand root, where it stays unless that root is ended too. -/
theorem HeldAt.followAll (h : w.HeldAt root requester)
    (hstays : ∀ event ∈ events, event.removed? ≠ some root) :
    (w.followAll events).HeldAt root requester ∨ ∃ into, .absorbed root into ∈ events ∧
      ((w.followAll events).WaitsAt root requester ∨ w.isOnDemand root = false ∨
        w.isOnDemand into = true ∧ ((w.followAll events).HeldAt into requester ∨
          ∃ event ∈ events, event.ended? = some into)) := by
  induction events generalizing w with
  | nil => exact .inl h
  | cons event events ih =>
    obtain ⟨hevent, hevents⟩ := List.forall_mem_cons.1 hstays
    by_cases hended : event.ended? = some root
    · obtain ⟨into, rfl⟩ := (RootEvent.ended?_eq_some_iff.1 hended).resolve_left hevent
      refine .inr ⟨into, List.mem_cons_self, ?_⟩
      obtain ⟨record, hfind, hcount⟩ := h
      have hcounted : record.counts.isEmpty = false := by
        rw [← Bool.not_eq_true, counts_isEmpty_iff]
        exact fun hempty => Bool.noConfusion (hcount.symm.trans (hempty requester))
      rcases foldInto_cases w root into with
        ⟨hnone, -⟩ | ⟨record', hfind', hcases⟩
      · exact absurd (hfind.symm.trans hnone) (Option.some_ne_none record)
      obtain rfl := Option.some.inj (hfind.symm.trans hfind')
      rcases hcases with ⟨hne, hinto, heq⟩ | ⟨-, -, heq⟩ | ⟨hdropped, -⟩
      · refine .inr (.inr ⟨hinto, ?_⟩)
        have hmerged : (w.foldInto root into).HeldAt into requester := by
          obtain ⟨record', hfind', -⟩ := isOnDemand_iff.1 hinto
          refine ⟨record'.merge record, ?_, contains_counts_merge.2 (.inr hcount)⟩
          rw [heq, OrderedMap.find?_modify, if_pos rfl, OrderedMap.find?_erase, if_neg hne, hfind',
            Option.map_some]
        by_cases hlater : ∀ event ∈ events, event.ended? ≠ some into
        · exact .inl (hmerged.stays hlater)
        · push Not at hlater
          obtain ⟨event, hmem, hended⟩ := hlater
          exact .inr ⟨event, List.mem_cons_of_mem _ hmem, hended⟩
      · have hwaits : (w.foldInto root into).WaitsAt root requester := by
          refine ⟨record, ?_, hcount⟩
          rw [heq]
          exact (OrderedMap.find?_insert ..).trans (if_pos rfl)
        refine .inl ((hwaits.followAll events).resolve_right fun hlost => ?_)
        exact (contains_foldInto.1 (contains_of_isOnDemand hlost.1)).2 rfl
      · refine .inr (.inl (Bool.eq_false_iff.2 fun honDemand => ?_))
        obtain ⟨record', hfind', honDemand⟩ := isOnDemand_iff.1 honDemand
        obtain rfl := Option.some.inj (hfind.symm.trans hfind')
        exact Bool.noConfusion (hcounted.symm.trans (hdropped honDemand))
    · have hone : ∀ event' ∈ [event], event'.ended? ≠ some root := by simpa using hended
      have hsame := isOnDemand_followAll_of_stays (w := w) hone
      refine (ih (h.stays hone) hevents).imp_right ?_
      rintro ⟨into, hmem, hcases⟩
      refine ⟨into, List.mem_cons_of_mem event hmem, hcases.imp_right (Or.imp ?_ ?_)⟩
      · exact hsame.symm.trans
      · rintro ⟨hinto, hheld⟩
        have hdemanded : (w.followAll [event]).isOnDemand into = true := hinto
        refine ⟨isOnDemand_of_followAll hdemanded, hheld.imp_right ?_⟩
        rintro ⟨event', hmem', hended'⟩
        exact ⟨event', List.mem_cons_of_mem event hmem', hended'⟩

/-! ### Configured directories, requests and releases -/

theorem heldAt_markStatics :
    (places.foldl markStatic w).HeldAt root requester ↔ w.HeldAt root requester := by
  simp only [HeldAt, find?_markStatics]
  split
  · cases w.records.find? root <;> simp
  · rfl

theorem waitsAt_markStatics :
    (places.foldl markStatic w).WaitsAt place requester ↔ w.WaitsAt place requester := by
  rw [WaitsAt, WaitsAt, suspended_markStatics]

theorem HeldAt.alter (h : w.HeldAt root requester) (f : WatchRecord → WatchRecord)
    (hf : ∀ r : WatchRecord, r.counts.contains requester = true →
      (f r).counts.contains requester = true) (x : Location) :
    (w.alter x f).HeldAt root requester := by
  obtain ⟨record, hfind, hcount⟩ := h
  simp only [HeldAt, find?_alter]
  split_ifs with hx
  · exact ⟨_, rfl, hf _ (by rw [← hx, hfind]; exact hcount)⟩
  · exact ⟨record, hfind, hcount⟩

/-- A request forgets nobody. -/
theorem HeldAt.apply (h : w.HeldAt root requester) {p : ProbedRequest} {a : Applied}
    (happly : w.apply s p = .ok a) : a.watches.HeldAt root requester := by
  have hcredit {w : Watches} (h : w.HeldAt root requester) (x : Location)
      (requester? : Option Requester) : (w.credit x requester?).HeldAt root requester := by
    cases requester? with
    | none => exact h
    | some other => exact h.alter (·.count other 1) (fun r hr => contains_counts_count.2 (.inr hr)) x
  rcases apply_cases happly with ⟨-, rfl⟩ | ⟨-, owner, -, rfl⟩ | ⟨-, -, -, rfl⟩
  · exact h
  · exact hcredit h owner _
  · have hmarked : (w.markOnDemand p.place).HeldAt root requester :=
      h.alter (fun r => { r with onDemand := true }) (fun _ hr => hr) p.place
    exact hcredit hmarked p.place _

/-- A request takes no root off demand. -/
theorem isOnDemand_apply {p : ProbedRequest} {a : Applied} (happly : w.apply s p = .ok a)
    (h : w.isOnDemand x = true) : a.watches.isOnDemand x = true := by
  rcases apply_cases happly with ⟨-, rfl⟩ | ⟨-, owner, -, rfl⟩ | ⟨-, -, -, rfl⟩
  · exact h
  · rwa [isOnDemand_credit]
  · rw [isOnDemand_credit, isOnDemand_markOnDemand, h, Bool.or_true]

/-- A request folds roots only into the one that it creates. -/
theorem absorbed_of_apply (hquiet : s.events = []) {p : ProbedRequest} {a : Applied}
    (hplace : p.place.IsCanonical) (happly : w.apply s p = .ok a) {into : Location}
    (hevent : .absorbed root into ∈ a.roots.events) :
    into = p.place ∧ a.outcome.root? = some p.place := by
  rcases apply_cases happly with ⟨-, rfl⟩ | ⟨-, owner, -, rfl⟩ | ⟨-, -, -, rfl⟩
  · rw [hquiet] at hevent
    exact absurd hevent List.not_mem_nil
  · obtain ⟨events, hevents, hended⟩ := s.events_notify p.place true
    rw [hevents, hquiet, List.nil_append] at hevent
    exact absurd (hended _ hevent) (Option.some_ne_none root)
  · obtain ⟨events, hevents, hall⟩ := s.queues_add p.place .onDemand
    rw [hevents, hquiet, List.nil_append] at hevent
    obtain ⟨rfl, -⟩ := (hall _ hevent).2 into rfl
    exact ⟨hplace.2, rfl⟩

/-- The end of one requester moves no other one. -/
theorem HeldAt.release (h : w.HeldAt root requester) (hne : requester ≠ other) (s : RootSet) :
    (w.release s other).1.HeldAt root requester := by
  obtain ⟨record, hfind, hcount⟩ := h
  have hkept : (record.without other).counts.contains requester = true :=
    contains_counts_without.2 ⟨hcount, hne⟩
  have hshared : record.isHeldOnlyBy other = false := by
    rw [WatchRecord.isHeldOnlyBy, Bool.and_eq_false_iff]
    refine .inr (Bool.eq_false_iff.2 fun hempty => ?_)
    exact Bool.noConfusion (hkept.symm.trans (counts_isEmpty_iff.1 hempty requester))
  exact ⟨_, find?_release_eq_some_iff.2 ⟨record, hfind, hshared, rfl⟩, hkept⟩

theorem WaitsAt.release (h : w.WaitsAt place requester) (hne : requester ≠ other) (s : RootSet) :
    (w.release s other).1.WaitsAt place requester := by
  obtain ⟨record, hfind, hcount⟩ := h
  have hkept : (record.without other).counts.contains requester = true :=
    contains_counts_without.2 ⟨hcount, hne⟩
  refine ⟨record.without other, ?_, hkept⟩
  rw [find?_suspended_release, hfind, Option.map_some, Option.filter_some, if_pos]
  rw [Bool.not_eq_true', ← Bool.not_eq_true, counts_isEmpty_iff]
  exact fun hempty => Bool.noConfusion (hkept.symm.trans (hempty requester))

/-! ### The return of suspended roots -/

/-- Only the records of roots that are brought back change. -/
theorem find?_restoreEach (hroot : root ∉ places) (w : Watches) (s : RootSet) :
    (w.restoreEach s places).1.records.find? root = w.records.find? root := by
  induction places generalizing w s with
  | nil => rfl
  | cons place places ih =>
    rw [List.mem_cons, not_or] at hroot
    refine (ih hroot.2 _ _).trans ?_
    rcases (restoreOne_cases w s place).2 with heq | ⟨record, -, -, heq⟩
    · exact congrArg (·.records.find? root) heq
    · refine (congrArg (·.records.find? root) heq).trans ?_
      exact (OrderedMap.find?_insert ..).trans (if_neg hroot.1)

theorem heldAt_restoreEach (hroot : root ∉ places) (s : RootSet) :
    (w.restoreEach s places).1.HeldAt root requester ↔ w.HeldAt root requester := by
  rw [HeldAt, HeldAt, find?_restoreEach hroot]

/-- Whoever waits for a root goes on waiting or is recorded there when it is back. -/
theorem WaitsAt.restoreEach (h : w.WaitsAt place requester) (hnodup : places.Nodup) (s : RootSet) :
    (w.restoreEach s places).1.WaitsAt place requester ∨
      place ∈ places ∧ (w.restoreEach s places).1.HeldAt place requester := by
  induction places generalizing w s with
  | nil => exact .inl h
  | cons other places ih =>
    obtain ⟨hnew, hnodup⟩ := List.nodup_cons.1 hnodup
    have hlater (hwaits : (w.restoreOne s other).1.WaitsAt place requester) :=
      (ih hwaits hnodup (w.restoreOne s other).2.1).imp_right
        (And.imp_left (List.mem_cons_of_mem other))
    rcases (restoreOne_cases w s other).2 with heq | ⟨record, hfind, -, heq⟩
    · exact hlater (by rwa [heq])
    · obtain ⟨record', hfind', hcount⟩ := h
      by_cases hplace : place = other
      · subst hplace
        obtain rfl := Option.some.inj (hfind.symm.trans hfind')
        have hback : (w.restoreOne s place).1.HeldAt place requester := by
          rw [heq]
          exact ⟨{ record with onDemand := true },
            (OrderedMap.find?_insert ..).trans (if_pos rfl), hcount⟩
        exact .inr ⟨List.mem_cons_self, (heldAt_restoreEach hnew _).2 hback⟩
      · refine hlater ⟨record', ?_, hcount⟩
        rw [heq]
        exact (OrderedMap.find?_erase ..).trans ((if_neg hplace).trans hfind')

/-- Only roots that are brought back are on demand anew. -/
theorem isOnDemand_of_restoreEach (h : (w.restoreEach s places).1.isOnDemand x = true) :
    w.isOnDemand x = true ∨ x ∈ places := by
  induction places generalizing w s with
  | nil => exact .inl h
  | cons place places ih =>
    have hlater : (w.restoreOne s place).1.isOnDemand x = true ∨ x ∈ places := ih h
    rcases hlater with hone | hmem
    · rcases (restoreOne_cases w s place).2 with heq | ⟨record, -, -, heq⟩ <;> rw [heq] at hone
      · exact .inl hone
      · rw [isOnDemand, OrderedMap.find?_insert] at hone
        split_ifs at hone with hx
        · exact .inr (hx ▸ List.mem_cons_self)
        · exact .inl hone
    · exact .inr (List.mem_cons_of_mem place hmem)

end Watches

end IndexControl
