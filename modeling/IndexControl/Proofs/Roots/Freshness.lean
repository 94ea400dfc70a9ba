import IndexControl.Proofs.Roots.Coverage

/-!
# Which freshness checks are asked for

A freshness check of a file is one of the root there, or else one of an entry in the root that
covers the file. A recursive one is also a check of each root below the file. The scan for these
roots stops at the first one that does not lie at the file or below it. It misses none, for in the
order of places what lies below a place follows it without a gap, whatever the names are.

## Main definitions

* `RootSet.FileCheck`: what is asked for on account of a file alone.

## Main results

* `RootSet.WellFormed.notify_eq`: the look-ups find it, and the scan finds the roots below.
* `RootSet.run_notify_exact`: just these checks are asked for, each once and in order.
-/

namespace IndexControl

namespace RootSet

variable {s : RootSet}

/-- The notifications that a freshness check of a file asks for, the roots below it apart. -/
inductive FileCheck (s : RootSet) (file : Location) : List RootEvent → Prop
  /-- The file is a root. -/
  | root (hfile : s.isRoot file = true) : FileCheck s file [.updated file]
  /-- One root covers the file. -/
  | entry {root : Location} (hfile : s.isRoot file = false)
    (hroot : ∀ other, s.Covers other file ↔ other = root) :
      FileCheck s file [.childUpdated root file]
  /-- No root covers the file. -/
  | nothing (hfile : s.isRoot file = false) (hnone : ∀ other, ¬ s.Covers other file) :
      FileCheck s file []

/-- The look-ups find what a file asks for, and the scan finds the roots below it. -/
theorem WellFormed.notify_eq (h : s.WellFormed) (place : Location) (recursive : Bool) :
    ∃ own, s.FileCheck place.canonical own ∧ s.notify place recursive =
      let events := own ++ (if recursive then s.below place.canonical else []).map .updated
      (s.queue events, !events.isEmpty) := by
  have hnested : (if recursive then s.below place.canonical else []).map RootEvent.updated =
      if recursive then (s.below place.canonical).map .updated else [] := by
    cases recursive <;> rfl
  rw [hnested]
  refine ⟨_, ?_, rfl⟩
  cases hfile : s.isRoot place.canonical with
  | true => exact .root hfile
  | false =>
    rw [if_neg Bool.false_ne_true]
    cases hcovering : s.covering? place.canonical with
    | some root =>
      have hcovers := (h.covering?_eq_some_iff hfile).1 hcovering
      exact .entry hfile fun other => ⟨fun hother => h.covers_unique hfile hother hcovers,
        fun heq => heq ▸ hcovers⟩
    | none =>
      refine .nothing hfile fun other hother => ?_
      rw [(h.covering?_eq_some_iff hfile).2 hother] at hcovering
      contradiction

/-- A scan finds the roots below a place in the order of places. -/
theorem pairwise_below (s : RootSet) (place : Location) :
    (s.below place).Pairwise fun a b => compare a b = .lt := by
  rw [below_eq_filter]
  exact (OrderedMap.pairwise_keys s.roots).filter _

/-- **Freshness checks are exact.** After any operations on an empty set, to ask for a freshness
check of a path changes neither the roots nor the filters. It queues what its canonical place asks
for, which is a check of the root there, or of the place as an entry of the one root that covers it,
or nothing where no root covers it. If the check is recursive, there follows one for each root
strictly below, in the order of places, and each once. The answer is whether anything was queued. -/
theorem run_notify_exact (filters : Filters) (ops : List RootOp) (path : Path)
    (recursive : Bool) :
    let s := (empty filters).run ops
    let file := path.location.canonical
    let t := s.notify path.location recursive
    t.1.roots = s.roots ∧ t.1.filters = s.filters ∧
    ∃ (own : List RootEvent) (nested : List Location),
      t.1.events = s.events ++ own ++ nested.map .updated ∧
      s.FileCheck file own ∧
      nested.Pairwise (fun a b => compare a b = .lt) ∧
      (∀ root, root ∈ nested ↔
        recursive = true ∧ s.isRoot root = true ∧ root.isBelow file = true) ∧
      (t.2 = true ↔ t.1.events ≠ s.events) := by
  intro s file t
  have h : s.WellFormed := (wellFormed_empty filters).run ops
  obtain ⟨own, hown, ht⟩ := h.notify_eq path.location recursive
  rw [show t = _ from ht]
  refine ⟨rfl, rfl, own, if recursive then s.below file else [], (List.append_assoc ..).symm, hown,
    ?_, fun root => ?_, ?_⟩
  · split
    · exact s.pairwise_below file
    · exact .nil
  · cases recursive with
    | true => simp only [↓reduceIte, mem_below_iff, true_and]
    | false => simp
  · rw [Bool.not_eq_true', List.isEmpty_eq_false_iff]
    exact not_congr List.append_right_eq_self.symm

/-- As texts `/a!` and `/a.b` stand between `/a` and `/a/b`, but not as places. -/
example :
    let ops : List RootOp :=
      [.add (Path.ofString "/a!") .monitor, .add (Path.ofString "/a") .monitor,
        .add (Path.ofString "/a/b/c") .recurse, .add (Path.ofString "/a.b") .recurse,
        .add ⟨[0x2F, 0x61, 0x2F, 0xFF]⟩ .monitor, .add (Path.ofString "/a/..") .monitor, .drain]
    ((empty .none).run ops |>.notify (Path.ofString "//a/.").location true).1.events =
      [.updated [.root, .name [0x61]], .updated [.root, .name [0x61], .parent],
        .updated [.root, .name [0x61], .name [0x62], .name [0x63]],
        .updated [.root, .name [0x61], .name [0xFF]]] := by
  decide

end RootSet

end IndexControl
