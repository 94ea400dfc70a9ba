import IndexControl.Proofs.Roots.Removal
import IndexControl.Proofs.Watches.Tracking

/-!
# What the end of a requester leaves

When a requester ends, the roots go that are there on demand and that nobody else watches. The
requester is forgotten at all other roots and at all places that wait for the return of their roots,
and whatever is recorded about other requesters stays.

## Main definitions

* `Watches.counted?`, `Watches.waiting?`: how often a requester is counted at a place.
* `Watches.HeldOnlyBy`: a requester is the only one at a root.
* `Watches.Forgets`: what is recorded once a requester has been forgotten.

## Main results

* `Watches.forgets_release`: the end of a requester forgets it, and nothing else.
* `Watches.release_release`: a requester ends only once.
* `Watches.release_exact`: which roots go with a requester, and what that leaves.
-/

namespace IndexControl

namespace WatchRecord

variable {r : WatchRecord} {requester : Requester}

theorem find?_without (r : WatchRecord) (requester other : Requester) :
    (r.without requester).counts.find? other =
      if other = requester then none else r.counts.find? other :=
  OrderedMap.find?_erase ..

theorem isHeldOnlyBy_iff :
    r.isHeldOnlyBy requester = true ↔
      ∀ other, r.counts.contains other = true ↔ other = requester := by
  rw [isHeldOnlyBy, Bool.and_eq_true, Watches.counts_isEmpty_iff]
  constructor
  · rintro ⟨hself, hempty⟩ other
    refine ⟨fun hother => ?_, fun heq => heq ▸ hself⟩
    by_contra hne
    have hleft := Watches.contains_counts_without.2 ⟨hother, hne⟩
    exact Bool.noConfusion ((hempty other).symm.trans hleft)
  · intro honly
    refine ⟨(honly requester).2 rfl, fun other => Bool.eq_false_iff.2 fun hleft => ?_⟩
    obtain ⟨hother, hne⟩ := Watches.contains_counts_without.1 hleft
    exact hne ((honly other).1 hother)

/-- Nothing is lost with a requester that is not in the record. -/
theorem without_eq_self (h : r.counts.contains requester = false) : r.without requester = r := by
  refine ext_find? rfl fun other => ?_
  rw [find?_without]
  split_ifs with hother
  · rw [hother, OrderedMap.contains_eq_false_iff.1 h]
  · rfl

end WatchRecord

namespace Watches

open RootSet

variable {w w' : Watches} {s : RootSet} {root place : Location} {requester other : Requester}

/-! ### Looking at one requester -/

/-- How often a requester is counted at a root. -/
def counted? (w : Watches) (root : Location) (requester : Requester) : Option Nat :=
  (w.records.find? root).bind (·.counts.find? requester)

/-- How often a requester is counted at a place that waits for the return of its root. -/
def waiting? (w : Watches) (place : Location) (requester : Requester) : Option Nat :=
  (w.suspended.find? place).bind (·.counts.find? requester)

/-- A requester is the only one at a root. -/
def HeldOnlyBy (w : Watches) (root : Location) (requester : Requester) : Prop :=
  ∀ other, w.HeldAt root other ↔ other = requester

/-- A requester has been forgotten, and nothing else. -/
structure Forgets (requester : Requester) (w w' : Watches) : Prop where
  nowhere : ¬w'.Holds requester
  counted : ∀ root other, other ≠ requester → w'.counted? root other = w.counted? root other
  waiting : ∀ place other, other ≠ requester → w'.waiting? place other = w.waiting? place other
  /-- The records that go are those in which nobody else was counted. -/
  recorded : ∀ root, w'.records.contains root = true ↔
    w.records.contains root = true ∧ ¬w.HeldOnlyBy root requester
  /-- Places stay suspended only as long as somebody waits for them. -/
  suspended : ∀ place, w'.isSuspended place = true ↔
    ∃ other, other ≠ requester ∧ w.WaitsAt place other
  onDemand : ∀ root record, w'.records.find? root = some record →
    ∃ before, w.records.find? root = some before ∧ record.onDemand = before.onDemand
  onDemand_suspended : ∀ place record, w'.suspended.find? place = some record →
    ∃ before, w.suspended.find? place = some before ∧ record.onDemand = before.onDemand
  eligibility : w'.eligibility = w.eligibility

theorem heldAt_iff {record : WatchRecord} (hfind : w.records.find? root = some record) :
    w.HeldAt root other ↔ record.counts.contains other = true := by
  simp only [HeldAt, hfind, Option.some.injEq, exists_eq_left']

theorem heldOnlyBy_iff {record : WatchRecord} (hfind : w.records.find? root = some record) :
    w.HeldOnlyBy root requester ↔ record.isHeldOnlyBy requester = true := by
  simp only [HeldOnlyBy, heldAt_iff hfind, WatchRecord.isHeldOnlyBy_iff]

/-- The roots that go with a requester are on demand and have nobody else. -/
theorem mem_freed_iff_heldOnlyBy :
    root ∈ w.freed requester ↔ w.isOnDemand root = true ∧ w.HeldOnlyBy root requester := by
  rw [mem_freed_iff, isOnDemand_iff]
  constructor
  · rintro ⟨record, hfind, honly, honDemand⟩
    exact ⟨⟨record, hfind, honDemand⟩, (heldOnlyBy_iff hfind).2 honly⟩
  · rintro ⟨⟨record, hfind, honDemand⟩, honly⟩
    exact ⟨record, hfind, (heldOnlyBy_iff hfind).1 honly, honDemand⟩

/-! ### Forgetting -/

theorem counted?_release (hne : other ≠ requester) (s : RootSet) :
    (w.release s requester).1.counted? root other = w.counted? root other := by
  rw [counted?, counted?, find?_release]
  cases w.records.find? root with
  | none => rfl
  | some record =>
    simp only [Option.bind_some]
    split_ifs with honly
    · -- a record that goes counts nobody else
      refine (OrderedMap.contains_eq_false_iff.1 (Bool.eq_false_iff.2 fun hcount => hne ?_)).symm
      exact (WatchRecord.isHeldOnlyBy_iff.1 honly other).1 hcount
    · simp only [Option.bind_some, WatchRecord.find?_without, if_neg hne]

theorem waiting?_release (hne : other ≠ requester) (s : RootSet) :
    (w.release s requester).1.waiting? place other = w.waiting? place other := by
  rw [waiting?, waiting?, find?_suspended_release]
  cases w.suspended.find? place with
  | none => rfl
  | some record =>
    rw [Option.map_some, Option.filter_some]
    split_ifs with hleft
    · simp only [Option.bind_some, WatchRecord.find?_without, if_neg hne]
    · rw [Bool.not_eq_true, Bool.not_eq_false', counts_isEmpty_iff] at hleft
      refine (OrderedMap.contains_eq_false_iff.1 (Bool.eq_false_iff.2 fun hcount => ?_)).symm
      exact Bool.noConfusion ((hleft other).symm.trans (contains_counts_without.2 ⟨hcount, hne⟩))

theorem contains_release :
    (w.release s requester).1.records.contains root = true ↔
      w.records.contains root = true ∧ ¬w.HeldOnlyBy root requester := by
  simp only [OrderedMap.contains_iff, find?_release_eq_some_iff]
  constructor
  · rintro ⟨record, before, hfind, hshared, -⟩
    refine ⟨⟨before, hfind⟩, fun honly => ?_⟩
    exact Bool.noConfusion (hshared.symm.trans ((heldOnlyBy_iff hfind).1 honly))
  · rintro ⟨⟨before, hfind⟩, hshared⟩
    have hkept : before.isHeldOnlyBy requester = false :=
      Bool.eq_false_iff.2 fun honly => hshared ((heldOnlyBy_iff hfind).2 honly)
    exact ⟨before.without requester, before, hfind, hkept, rfl⟩

theorem isSuspended_release :
    (w.release s requester).1.isSuspended place = true ↔
      ∃ other, other ≠ requester ∧ w.WaitsAt place other := by
  constructor
  · intro h
    obtain ⟨record, hfind⟩ := OrderedMap.contains_iff.1 h
    rw [find?_suspended_release, Option.filter_eq_some_iff] at hfind
    obtain ⟨hmap, hleft⟩ := hfind
    obtain ⟨before, hbefore, rfl⟩ := Option.map_eq_some_iff.1 hmap
    rw [Bool.not_eq_true', ← Bool.not_eq_true, counts_isEmpty_iff] at hleft
    push Not at hleft
    obtain ⟨other, hother⟩ := hleft
    obtain ⟨hcount, hne⟩ := contains_counts_without.1 (eq_true_of_ne_false hother)
    exact ⟨other, hne, before, hbefore, hcount⟩
  · rintro ⟨other, hne, hwaits⟩
    obtain ⟨record, hfind, -⟩ := hwaits.release hne s
    exact OrderedMap.contains_iff.2 ⟨record, hfind⟩

/-- The end of a requester forgets it, and nothing else. -/
theorem forgets_release (w : Watches) (s : RootSet) (requester : Requester) :
    Forgets requester w (w.release s requester).1 where
  nowhere := not_holds_release w s requester
  counted _ _ hne := counted?_release hne s
  waiting _ _ hne := waiting?_release hne s
  recorded _ := contains_release
  suspended _ := isSuspended_release
  onDemand root record hfind := by
    obtain ⟨before, hbefore, -, rfl⟩ := find?_release_eq_some_iff.1 hfind
    exact ⟨before, hbefore, rfl⟩
  onDemand_suspended place record hfind := by
    rw [find?_suspended_release, Option.filter_eq_some_iff] at hfind
    obtain ⟨before, hbefore, rfl⟩ := Option.map_eq_some_iff.1 hfind.1
    exact ⟨before, hbefore, rfl⟩
  eligibility := rfl

/-! ### Ending twice -/

/-- The end of a requester who is nowhere, where every suspended place is waited for, changes
nothing. -/
theorem release_eq_self (h : ¬w.Holds requester)
    (hawaited : ∀ place record, w.suspended.find? place = some record →
      record.counts.isEmpty = false) (s : RootSet) :
    w.release s requester = (w, s, []) := by
  have hrecord {place : Location} {record : WatchRecord}
      (hfind : w.records.find? place = some record ∨ w.suspended.find? place = some record) :
      record.counts.contains requester = false :=
    Bool.eq_false_iff.2 fun hcount => h ⟨place, record, hfind, hcount⟩
  have hshared {place : Location} {record : WatchRecord}
      (hfind : w.records.find? place = some record) : record.isHeldOnlyBy requester = false := by
    rw [WatchRecord.isHeldOnlyBy, hrecord (.inl hfind), Bool.false_and]
  have hrecords : (w.release s requester).1.records = w.records := OrderedMap.ext_find? fun x => by
    rw [find?_release]
    cases hfind : w.records.find? x with
    | none => rfl
    | some record =>
      rw [Option.bind_some, if_neg (by rw [hshared hfind]; exact Bool.false_ne_true),
        WatchRecord.without_eq_self (hrecord (.inl hfind))]
  have hsuspended : (w.release s requester).1.suspended = w.suspended :=
    OrderedMap.ext_find? fun x => by
      rw [find?_suspended_release]
      cases hfind : w.suspended.find? x with
      | none => rfl
      | some record =>
        rw [Option.map_some, WatchRecord.without_eq_self (hrecord (.inr hfind)), Option.filter_some,
          if_pos (by rw [hawaited x record hfind]; rfl)]
  have hfreed : w.freed requester = [] := List.eq_nil_iff_forall_not_mem.2 fun x hx => by
    obtain ⟨record, hfind, honly, -⟩ := mem_freed_iff.1 hx
    exact Bool.noConfusion ((hshared hfind).symm.trans honly)
  have hwatches : (w.release s requester).1 = w := by
    obtain ⟨records, suspended, eligibility⟩ := w
    exact congrArg₂ (Watches.mk · · eligibility) hrecords hsuspended
  have hroots : (w.release s requester).2 = (s, []) := by
    rw [roots_release, hfreed]
    rfl
  exact Prod.ext hwatches hroots

/-- A requester ends only once. -/
theorem release_release (w : Watches) (s s' : RootSet) (requester : Requester) :
    (w.release s requester).1.release s' requester = ((w.release s requester).1, s', []) := by
  refine release_eq_self (not_holds_release w s requester) (fun place record hfind => ?_) s'
  rw [find?_suspended_release, Option.filter_eq_some_iff] at hfind
  simpa using hfind.2

/-! ### What goes -/

/-- **A release takes exactly the roots that nobody else holds, and happens once.** After any
operations on an empty set of roots, where whatever is watched is a root, the end of a requester
removes and hands back, in order, just the roots that are there on demand and of which it is the only
watcher. One removal is queued for each of them, with its flags, and all other roots stay as they
are. From then on no record, suspended or not, mentions the requester, places that nobody else waits
for are forgotten, what other requesters have asked for is counted as before, and whether a root that
is still recorded is on demand has not changed. The end of the same requester then removes nothing
and changes nothing. -/
theorem release_exact (w : Watches) (filters : Filters) (ops : List RootOp)
    (hwatched : ∀ root other, w.HeldAt root other →
      ((RootSet.empty filters).run ops).isRoot root = true) (requester : Requester) :
    let s := (RootSet.empty filters).run ops
    let t := w.release s requester
    (∀ root, root ∈ t.2.2 ↔ w.isOnDemand root = true ∧ w.HeldOnlyBy root requester) ∧
    t.2.2.Pairwise (fun a b => compare a b = .lt) ∧
    (∃ gone : List (Location × Root), t.2.2 = gone.map (·.1) ∧
      (∀ e ∈ gone, s.root? e.1 = some e.2) ∧
      t.2.1.events = s.events ++ gone.map fun e => .removed e.1 e.2.flags) ∧
    (∀ q, t.2.1.root? q = if q ∈ t.2.2 then none else s.root? q) ∧
    t.2.1.filters = s.filters ∧
    Forgets requester w t.1 ∧
    t.1.release t.2.1 requester = (t.1, t.2.1, []) := by
  intro s t
  have h : s.WellFormed := (wellFormed_empty filters).run ops
  have hroots : ∀ root ∈ w.freed requester, s.isRoot root = true := fun root hroot =>
    hwatched root requester (((mem_freed_iff_heldOnlyBy.1 hroot).2 requester).2 rfl)
  obtain ⟨gone, hplaces, hgone⟩ := exists_roots hroots
  have hnodup : (gone.map (·.1)).Nodup := hplaces ▸ OrderedMap.nodup_keys _
  have hrelease : s.removeEach (w.freed requester) =
      (s.takeOut (w.freed requester) (gone.map fun e => .removed e.1 e.2.flags),
        w.freed requester) := hplaces ▸ h.removeEach_eq_takeOut hnodup hgone
  rw [show t.2 = _ from hrelease]
  refine ⟨fun root => mem_freed_iff_heldOnlyBy, OrderedMap.pairwise_keys _,
    ⟨gone, hplaces.symm, hgone, rfl⟩, root?_takeOut s _ _, rfl, forgets_release w s requester,
    release_release w s _ requester⟩

/-- Of three roots that a requester watches, the one goes that is there on demand and has no other
watcher. Of two suspended roots the one is forgotten that nobody else waits for. -/
theorem release_exact_shared :
    let place (text : String) : Location := (Path.ofString text).location
    let record (onDemand : Bool) (counts : List (Requester × Nat)) : WatchRecord :=
      ⟨onDemand, .ofList counts⟩
    let w : Watches :=
      { records := .ofList [(place "/a", record true [("p", 2)]),
          (place "/b", record true [("p", 1), ("q", 3)]), (place "/s", record false [("p", 1)]),
          (place "/t", record true [])]
        suspended := .ofList [(place "/s/x", record true [("p", 1)]),
          (place "/s/y", record true [("p", 1), ("q", 1)])]
        eligibility := none }
    let ops : List RootOp :=
      [.add (Path.ofString "/s") .recurse, .add (Path.ofString "/a") .onDemand,
        .add (Path.ofString "/b") .onDemand, .add (Path.ofString "/t") .onDemand, .drain]
    let s := (RootSet.empty .none).run ops
    let t := w.release s "p"
    (∀ root other, w.HeldAt root other → s.isRoot root = true) ∧ t.2.2 = [place "/a"] ∧
      t.2.1.places = [place "/b", place "/s", place "/t"] ∧
      t.2.1.events = [.removed (place "/a") .onDemand] ∧
      t.1.counted? (place "/b") "q" = some 3 ∧ t.1.isSuspended (place "/s/x") = false ∧
      t.1.waiting? (place "/s/y") "q" = some 1 ∧
      t.1.release t.2.1 "p" = (t.1, t.2.1, []) := by
  intro place record w ops s t
  have hwatched : ∀ root other, w.HeldAt root other → s.isRoot root = true := by
    intro root other hheld
    have hrecorded : ∀ root ∈ w.records.keys, s.isRoot root = true := by decide
    exact hrecorded root (OrderedMap.mem_keys_iff.2 (OrderedMap.contains_iff.1 hheld.contains))
  obtain ⟨-, -, -, -, -, hforgets, hagain⟩ := release_exact w .none ops hwatched "p"
  refine ⟨hwatched, by decide, by decide, by decide, ?_, by decide, ?_, hagain⟩
  · exact (hforgets.counted (place "/b") "q" (by decide)).trans (by decide)
  · exact (hforgets.waiting (place "/s/y") "q" (by decide)).trans (by decide)

end Watches

end IndexControl
