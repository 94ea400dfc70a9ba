import IndexControl.Proofs.Roots.Queue
import IndexControl.Proofs.Watches.Records
import IndexControl.Watches.Holding

/-!
# Records that follow the set of roots

When a root goes, its record goes, is merged or is suspended. Following notifications about roots
never adds a record, makes none on-demand, and records no requester who was not recorded before.

## Main definitions

* `Watches.Holds`: a requester is recorded somewhere, also at a suspended root.

## Main results

* `Watches.foldInto_cases`: all that folding one root into another can do.
* `Watches.contains_followAll`: the records that remain are those whose roots were not ended.
* `Watches.isOnDemand_of_followAll`, `Watches.Holds.of_followAll`: what following never adds.
* `Watches.followAll_eq_self`: when following changes nothing.
-/

namespace IndexControl

namespace Watches

variable {w : Watches} {s : RootSet} {root into place x : Location} {requester : Requester}
  {event : RootEvent} {events : List RootEvent}

theorem isOnDemand_iff :
    w.isOnDemand x = true ↔ ∃ record, w.records.find? x = some record ∧ record.onDemand = true := by
  rw [isOnDemand, Option.any_eq_true]

theorem contains_of_isOnDemand (h : w.isOnDemand x = true) : w.records.contains x = true := by
  obtain ⟨record, hfind, -⟩ := isOnDemand_iff.1 h
  exact OrderedMap.contains_iff.2 ⟨record, hfind⟩

/-- The requester is recorded somewhere, at a root or at a suspended one. -/
def Holds (w : Watches) (requester : Requester) : Prop :=
  ∃ place record, (w.records.find? place = some record ∨ w.suspended.find? place = some record) ∧
    record.counts.contains requester = true

theorem Holds.of_record {record : WatchRecord} (h : w.records.find? x = some record)
    (hcount : record.counts.contains requester = true) : w.Holds requester :=
  ⟨x, record, .inl h, hcount⟩

theorem Holds.of_suspended {record : WatchRecord} (h : w.suspended.find? x = some record)
    (hcount : record.counts.contains requester = true) : w.Holds requester :=
  ⟨x, record, .inr h, hcount⟩

/-! ### Counts -/

theorem contains_counts_merge {r other : WatchRecord} :
    (r.merge other).counts.contains requester = true ↔
      r.counts.contains requester = true ∨ other.counts.contains requester = true := by
  simp only [OrderedMap.contains, WatchRecord.find?_merge]
  cases r.counts.find? requester <;> cases other.counts.find? requester <;> simp

theorem contains_counts_count {r : WatchRecord} {other : Requester} {times : Nat} :
    (r.count other times).counts.contains requester = true ↔
      requester = other ∨ r.counts.contains requester = true :=
  OrderedMap.contains_insert

theorem contains_counts_without {r : WatchRecord} {other : Requester} :
    (r.without other).counts.contains requester = true ↔
      r.counts.contains requester = true ∧ requester ≠ other :=
  OrderedMap.contains_erase

theorem counts_isEmpty_iff {r : WatchRecord} :
    r.counts.isEmpty = true ↔ ∀ requester, r.counts.contains requester = false := by
  obtain ⟨onDemand, entries, hordered⟩ := r
  cases entries with
  | nil => exact ⟨fun _ _ => rfl, fun _ => rfl⟩
  | cons e entries =>
    refine ⟨fun h => Bool.noConfusion h, fun h => ?_⟩
    have hfind : (OrderedMap.mk (e :: entries) hordered).find? e.1 = some e.2 :=
      OrderedMap.mem_entries_iff.1 List.mem_cons_self
    have hcontains := h e.1
    rw [OrderedMap.contains, hfind] at hcontains
    exact Bool.noConfusion hcontains

/-! ### Following the roots -/

/-- What folding one root into another can do: nothing where the root has no record; else its
record is merged into an on-demand one, suspended, or dropped. -/
theorem foldInto_cases (w : Watches) (root into : Location) :
    (w.records.find? root = none ∧ w.foldInto root into = w) ∨
    ∃ record, w.records.find? root = some record ∧
      ((into ≠ root ∧ w.isOnDemand into = true ∧ w.foldInto root into =
          { w with records := (w.records.erase root).modify into (·.merge record) }) ∨
        (record.onDemand = true ∧ record.counts.isEmpty = false ∧ w.foldInto root into =
          { w with
            records := w.records.erase root
            suspended := w.suspended.insert root record }) ∨
        ((record.onDemand = true → record.counts.isEmpty = true) ∧
          w.foldInto root into = { w with records := w.records.erase root })) := by
  rw [foldInto]
  cases hroot : w.records.find? root with
  | none => exact .inl ⟨rfl, rfl⟩
  | some record =>
    refine .inr ⟨record, rfl, ?_⟩
    simp only
    split_ifs with hinto hsuspend
    · rw [isOnDemand, OrderedMap.find?_erase] at hinto
      split_ifs at hinto with hsame
      · simp at hinto
      · exact .inl ⟨hsame, hinto, rfl⟩
    · simp only [Bool.and_eq_true, Bool.not_eq_true'] at hsuspend
      exact .inr (.inl ⟨hsuspend.1, hsuspend.2, rfl⟩)
    · simp only [Bool.and_eq_true, Bool.not_eq_true', not_and, Bool.not_eq_false] at hsuspend
      exact .inr (.inr ⟨hsuspend, rfl⟩)

theorem contains_foldInto :
    (w.foldInto root into).records.contains x = true ↔ w.records.contains x = true ∧ x ≠ root := by
  rcases foldInto_cases w root into with
    ⟨hnone, heq⟩ | ⟨record, hroot, ⟨-, -, heq⟩ | ⟨-, -, heq⟩ | ⟨-, heq⟩⟩ <;> rw [heq]
  · refine ⟨fun hx => ⟨hx, ?_⟩, And.left⟩
    rintro rfl
    rw [OrderedMap.contains, hnone] at hx
    exact Bool.noConfusion hx
  · rw [OrderedMap.contains_modify, OrderedMap.contains_erase]
  · exact OrderedMap.contains_erase
  · exact OrderedMap.contains_erase

theorem contains_follow :
    (w.follow event).records.contains x = true ↔
      w.records.contains x = true ∧ event.ended? ≠ some x := by
  cases event with
  | removed root flags =>
    rw [RootEvent.ended?, ne_eq, Option.some.injEq, ← ne_eq, ne_comm]
    exact OrderedMap.contains_erase
  | absorbed root into =>
    rw [RootEvent.ended?, ne_eq, Option.some.injEq, ← ne_eq, ne_comm]
    exact contains_foldInto
  | added root flags => simp [follow, RootEvent.ended?]
  | updated root => simp [follow, RootEvent.ended?]
  | childUpdated root file => simp [follow, RootEvent.ended?]

/-- The records that remain are those of the roots that were not ended. -/
theorem contains_followAll :
    (w.followAll events).records.contains x = true ↔
      w.records.contains x = true ∧ ∀ event ∈ events, event.ended? ≠ some x := by
  induction events generalizing w with
  | nil => simp [followAll]
  | cons event events ih =>
    rw [List.forall_mem_cons, ← and_assoc, ← contains_follow]
    exact ih

/-- A property of records that folding one root into another keeps is kept by following. -/
theorem followAll_induction {P : Watches → Prop} (h : P w)
    (hremove : ∀ w root, P w → P { w with records := w.records.erase root })
    (hfold : ∀ w root into, P w → P (w.foldInto root into)) (events : List RootEvent) :
    P (w.followAll events) := by
  induction events generalizing w with
  | nil => exact h
  | cons event events ih =>
    refine ih ?_
    cases event with
    | removed root flags => exact hremove w root h
    | absorbed root into => exact hfold w root into h
    | added root flags => exact h
    | updated root => exact h
    | childUpdated root file => exact h

/-- A place that is suspended after following was suspended or recorded before. -/
theorem contains_suspended_of_followAll
    (h : (w.followAll events).suspended.contains x = true) :
    w.suspended.contains x = true ∨ w.records.contains x = true := by
  let P (w' : Watches) : Prop :=
    (w'.suspended.contains x = true ∨ w'.records.contains x = true) →
      w.suspended.contains x = true ∨ w.records.contains x = true
  refine followAll_induction (P := P) id ?_ ?_ events (.inl h)
  · exact fun w' root hw' hx => hw' (hx.imp_right fun hx => (OrderedMap.contains_erase.1 hx).1)
  · intro w' root into hw' hx
    rcases hx with hx | hx
    · rcases foldInto_cases w' root into with
        ⟨-, heq⟩ | ⟨record, hroot, ⟨-, -, heq⟩ | ⟨-, -, heq⟩ | ⟨-, heq⟩⟩ <;> rw [heq] at hx
      · exact hw' (.inl hx)
      · exact hw' (.inl hx)
      · rcases OrderedMap.contains_insert.1 hx with rfl | hx
        · exact hw' (.inr (OrderedMap.contains_iff.2 ⟨record, hroot⟩))
        · exact hw' (.inl hx)
      · exact hw' (.inl hx)
    · exact hw' (.inr (contains_foldInto.1 hx).1)

theorem isOnDemand_erase (w : Watches) (root x : Location) :
    isOnDemand { w with records := w.records.erase root } x =
      (!decide (x = root) && w.isOnDemand x) := by
  rw [isOnDemand, isOnDemand, OrderedMap.find?_erase]
  by_cases hx : x = root <;> simp [hx]

/-- Following makes no root on-demand. -/
theorem isOnDemand_of_followAll (h : (w.followAll events).isOnDemand x = true) :
    w.isOnDemand x = true := by
  have herase {w' : Watches} {root : Location}
      (hx : isOnDemand { w' with records := w'.records.erase root } x = true) :
      w'.isOnDemand x = true := by
    rw [isOnDemand_erase, Bool.and_eq_true] at hx
    exact hx.2
  let P (w' : Watches) : Prop := w'.isOnDemand x = true → w.isOnDemand x = true
  refine followAll_induction (P := P) id (fun w' root hw' hx => hw' (herase hx)) ?_ events h
  intro w' root into hw' hx
  rcases foldInto_cases w' root into with
    ⟨-, heq⟩ | ⟨record, -, ⟨-, -, heq⟩ | ⟨-, -, heq⟩ | ⟨-, heq⟩⟩ <;> rw [heq] at hx
  · exact hw' hx
  · refine hw' (@herase w' root ?_)
    rw [isOnDemand, OrderedMap.find?_modify] at hx
    split at hx
    · simp only [Option.any_map, WatchRecord.onDemand_merge] at hx
      exact hx
    · exact hx
  · exact hw' (herase hx)
  · exact hw' (herase hx)

/-- Following records no requester who was not recorded before. -/
theorem Holds.of_followAll (h : (w.followAll events).Holds requester) : w.Holds requester := by
  have herase {w' : Watches} {root : Location} {suspended : OrderedMap Location WatchRecord}
      (hsuspended : ∀ x record, suspended.find? x = some record →
        w'.suspended.find? x = some record ∨ w'.records.find? x = some record)
      (hx : Holds { w' with records := w'.records.erase root, suspended } requester) :
      w'.Holds requester := by
    obtain ⟨x, record, hx | hx, hcount⟩ := hx
    · simp only [OrderedMap.find?_erase] at hx
      split_ifs at hx
      exact .of_record hx hcount
    · exact (hsuspended x record hx).elim (.of_suspended · hcount) (.of_record · hcount)
  let P (w' : Watches) : Prop := w'.Holds requester → w.Holds requester
  refine followAll_induction (P := P) id
    (fun w' root hw' hx => hw' (herase (fun _ _ => .inl) hx)) ?_ events h
  intro w' root into hw' hx
  rcases foldInto_cases w' root into with
    ⟨-, heq⟩ | ⟨record, hroot, ⟨-, -, heq⟩ | ⟨-, -, heq⟩ | ⟨-, heq⟩⟩ <;> rw [heq] at hx
  · exact hw' hx
  · refine hw' ?_
    obtain ⟨x, r, hx | hx, hcount⟩ := hx
    · simp only [OrderedMap.find?_modify, OrderedMap.find?_erase] at hx
      split_ifs at hx with hinto hsame
      · simp at hx
      · obtain ⟨r', hr', rfl⟩ := Option.map_eq_some_iff.1 hx
        rcases contains_counts_merge.1 hcount with hcount | hcount
        · exact .of_record hr' hcount
        · exact .of_record hroot hcount
      · exact .of_record hx hcount
    · exact .of_suspended hx hcount
  · refine hw' (herase (fun x r hr => ?_) hx)
    rw [OrderedMap.find?_insert] at hr
    split_ifs at hr with hsame
    · obtain rfl := Option.some.inj hr
      exact .inr (hsame ▸ hroot)
    · exact .inl hr
  · exact hw' (herase (fun _ _ => .inl) hx)

/-- Folding a root into another one forgets nobody at a third place. -/
theorem contains_counts_foldInto {record : WatchRecord} (h : w.records.find? x = some record)
    (hcount : record.counts.contains requester = true) (hx : x ≠ root) :
    ∃ record', (w.foldInto root into).records.find? x = some record' ∧
      record'.counts.contains requester = true := by
  rcases foldInto_cases w root into with
    ⟨-, heq⟩ | ⟨folded, -, ⟨-, -, heq⟩ | ⟨-, -, heq⟩ | ⟨-, heq⟩⟩ <;> rw [heq]
  · exact ⟨record, h, hcount⟩
  · simp only [OrderedMap.find?_modify, OrderedMap.find?_erase, if_neg hx, h, Option.map_some]
    split
    · exact ⟨_, rfl, contains_counts_merge.2 (.inl hcount)⟩
    · exact ⟨record, rfl, hcount⟩
  · simp only [OrderedMap.find?_erase, if_neg hx]
    exact ⟨record, h, hcount⟩
  · simp only [OrderedMap.find?_erase, if_neg hx]
    exact ⟨record, h, hcount⟩

/-- Following forgets nobody at a root that is not ended. -/
theorem contains_counts_followAll {record : WatchRecord} (h : w.records.find? x = some record)
    (hcount : record.counts.contains requester = true)
    (hx : ∀ event ∈ events, event.ended? ≠ some x) :
    ∃ record', (w.followAll events).records.find? x = some record' ∧
      record'.counts.contains requester = true := by
  induction events generalizing w record with
  | nil => exact ⟨record, h, hcount⟩
  | cons event events ih =>
    obtain ⟨hevent, hevents⟩ := List.forall_mem_cons.1 hx
    suffices hfollow : ∃ record', (w.follow event).records.find? x = some record' ∧
        record'.counts.contains requester = true by
      obtain ⟨record', h', hcount'⟩ := hfollow
      exact ih h' hcount' hevents
    cases event with
    | removed root flags =>
      have hne : x ≠ root := fun heq => hevent (congrArg some heq.symm)
      refine ⟨record, ?_, hcount⟩
      simp only [follow, OrderedMap.find?_erase, if_neg hne, h]
    | absorbed root into =>
      exact contains_counts_foldInto h hcount fun heq => hevent (congrArg some heq.symm)
    | added root flags => exact ⟨record, h, hcount⟩
    | updated root => exact ⟨record, h, hcount⟩
    | childUpdated root file => exact ⟨record, h, hcount⟩

/-- Where no record belongs to a root that was ended, following changes nothing. -/
theorem followAll_eq_self
    (h : ∀ event ∈ events, ∀ x, event.ended? = some x → w.records.contains x = false) :
    w.followAll events = w := by
  induction events with
  | nil => rfl
  | cons event events ih =>
    obtain ⟨hevent, hevents⟩ := List.forall_mem_cons.1 h
    have hfollow : w.follow event = w := by
      cases event with
      | removed root flags =>
        have hnone : w.records.find? root = none := by
          simpa [OrderedMap.contains] using hevent root rfl
        have herase : w.records.erase root = w.records := OrderedMap.ext_find? fun x => by
          rw [OrderedMap.find?_erase]
          split_ifs with hx
          · rw [hx, hnone]
          · rfl
        rw [follow, herase]
      | absorbed root into =>
        have hnone : w.records.find? root = none := by
          simpa [OrderedMap.contains] using hevent root rfl
        rw [follow, foldInto, hnone]
      | added root flags => rfl
      | updated root => rfl
      | childUpdated root file => rfl
    rw [followAll, List.foldl_cons, hfollow]
    exact ih hevents

end Watches

end IndexControl
