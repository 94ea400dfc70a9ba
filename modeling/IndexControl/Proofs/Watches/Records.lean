import IndexControl.Proofs.OrderedMap
import IndexControl.Watches.Basic
import Mathlib.Data.List.Induction
import Mathlib.Data.List.Perm.Basic

/-!
# The algebra of watch records

Counting requests and merging records add up what each requester has asked for. Records are
therefore merged in any order and in any grouping with the same result.

## Main definitions

* `WatchRecord.claim`: the record of one request.
* `WatchRecord.joined`: the record of an on-demand root into which others have been merged.

## Main results

* `WatchRecord.find?_merge`: merging adds what each requester has asked for.
* `WatchRecord.merge_assoc`, `WatchRecord.merge_right_comm`, `WatchRecord.count_eq_merge`.
* `WatchRecord.joined_perm`, `WatchRecord.joined_cons_joined`: the order and the grouping of
  merged records do not matter.
-/

namespace IndexControl

namespace WatchRecord

variable {r r' : WatchRecord} {requester other : Requester}

theorem ext_find? (honDemand : r.onDemand = r'.onDemand)
    (hcounts : ∀ requester, r.counts.find? requester = r'.counts.find? requester) : r = r' := by
  obtain ⟨onDemand, counts⟩ := r
  obtain ⟨onDemand', counts'⟩ := r'
  obtain rfl : onDemand = onDemand' := honDemand
  obtain rfl : counts = counts' := OrderedMap.ext_find? hcounts
  rfl

/-! ### Counting and merging -/

theorem find?_count (r : WatchRecord) (requester other : Requester) (times : Nat) :
    (r.count requester times).counts.find? other =
      if other = requester then some ((r.counts.find? requester).getD 0 + times)
      else r.counts.find? other :=
  OrderedMap.find?_insert ..

@[simp]
theorem onDemand_count (r : WatchRecord) (requester : Requester) (times : Nat) :
    (r.count requester times).onDemand = r.onDemand := rfl

/-- The record of one request. -/
def claim (requester : Requester) : WatchRecord := empty.count requester 1

theorem find?_claim (requester other : Requester) :
    (claim requester).counts.find? other = if other = requester then some 1 else none :=
  find?_count ..

/-- Counting the entries of a list, which are of different requesters, adds each of them. -/
private theorem find?_foldl_count {l : List (Requester × Nat)}
    (h : l.Pairwise fun a b => compare a.1 b.1 = .lt) (r : WatchRecord) (other : Requester) :
    (l.foldl (fun r e => r.count e.1 e.2) r).counts.find? other =
      Option.merge (· + ·) (r.counts.find? other)
        ((OrderedMap.mk l h).find? other) := by
  induction l generalizing r with
  | nil => cases hfind : r.counts.find? other <;> simpa [OrderedMap.find?] using hfind
  | cons e l ih =>
    obtain ⟨hhd, htl⟩ := List.pairwise_cons.1 h
    rw [List.foldl_cons, ih htl, find?_count]
    by_cases hother : other = e.1
    · subst hother
      have hnone : (OrderedMap.mk l htl).find? e.1 = none := by
        rw [Option.eq_none_iff_forall_ne_some]
        intro n hn
        have hlt := hhd _ (OrderedMap.mem_entries_iff.2 hn)
        rw [Std.ReflOrd.compare_self] at hlt
        exact Ordering.noConfusion hlt
      have hsome : (OrderedMap.mk (e :: l) h).find? e.1 = some e.2 :=
        OrderedMap.mem_entries_iff.1 List.mem_cons_self
      rw [if_pos rfl, hnone, hsome]
      cases r.counts.find? e.1 <;> simp
    · have hne : (compare other e.1 == .eq) = false := by
        simpa [Std.LawfulEqCmp.compare_eq_iff_eq] using hother
      simp [OrderedMap.find?, hne, hother]

/-- Merging adds what each requester has asked for. -/
theorem find?_merge (r other : WatchRecord) (requester : Requester) :
    (r.merge other).counts.find? requester =
      Option.merge (· + ·) (r.counts.find? requester) (other.counts.find? requester) :=
  find?_foldl_count other.counts.ordered r requester

@[simp]
theorem onDemand_merge (r other : WatchRecord) : (r.merge other).onDemand = r.onDemand := by
  rw [merge]
  generalize other.counts.entries = l
  induction l generalizing r with
  | nil => rfl
  | cons e l ih => exact ih (r.count e.1 e.2)

theorem count_eq_merge (r : WatchRecord) (requester : Requester) :
    r.count requester 1 = r.merge (claim requester) := by
  refine ext_find? (by simp) fun other => ?_
  rw [find?_merge, find?_count, find?_claim]
  by_cases hother : other = requester
  · subst hother
    cases r.counts.find? other <;> simp
  · cases r.counts.find? other <;> simp [hother]

theorem merge_assoc (a b c : WatchRecord) : (a.merge b).merge c = a.merge (b.merge c) := by
  refine ext_find? (by simp) fun requester => ?_
  simp only [find?_merge]
  exact Std.Associative.assoc ..

theorem merge_right_comm (a b c : WatchRecord) :
    (a.merge b).merge c = (a.merge c).merge b := by
  refine ext_find? (by simp) fun requester => ?_
  simp only [find?_merge]
  cases a.counts.find? requester <;> cases b.counts.find? requester <;>
    cases c.counts.find? requester <;> simp [Nat.add_comm, Nat.add_left_comm]

/-! ### Merging several records -/

/-- The record of an on-demand root into which others have been merged. -/
def joined (records : List WatchRecord) : WatchRecord :=
  records.foldl merge ⟨true, .empty⟩

theorem joined_perm {l l' : List WatchRecord} (h : l.Perm l') : joined l = joined l' :=
  h.foldl_eq' (fun a _ b _ r => merge_right_comm r a b) ⟨true, .empty⟩

theorem foldl_merge (r : WatchRecord) (records : List WatchRecord) :
    records.foldl merge r = r.merge (joined records) := by
  induction records using List.reverseRecOn with
  | nil =>
    refine ext_find? (by simp [joined]) fun requester => ?_
    rw [find?_merge]
    cases hfind : r.counts.find? requester <;> simpa [joined] using hfind
  | append_singleton records other ih =>
    rw [List.foldl_concat, ih, merge_assoc]
    exact congrArg r.merge (List.foldl_concat ..).symm

@[simp]
theorem onDemand_joined (records : List WatchRecord) : (joined records).onDemand = true := by
  rw [joined, foldl_merge, onDemand_merge]

theorem joined_append (records more : List WatchRecord) :
    joined (records ++ more) = (joined records).merge (joined more) := by
  rw [joined, List.foldl_append, foldl_merge]
  rfl

/-- A record into which others were merged stands for them. -/
theorem joined_cons_joined (records more : List WatchRecord) :
    joined (joined records :: more) = joined (records ++ more) := by
  have hself : joined [joined records] = joined records := by
    refine ext_find? (by simp) fun requester => ?_
    rw [joined, List.foldl_cons, List.foldl_nil, find?_merge]
    cases hfind : (joined records).counts.find? requester <;> simp
  rw [← List.singleton_append, joined_append, hself, joined_append]

end WatchRecord

end IndexControl
